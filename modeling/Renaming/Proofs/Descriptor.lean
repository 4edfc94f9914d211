import Renaming.Descriptor
import Renaming.Proofs.Outcome
import Renaming.Proofs.Text.Parser

/-!
# Parsing and renaming descriptors

A text is a descriptor exactly if it is what a well-formed type is written as. Renaming keeps types
well formed as long as the new names can stand in a descriptor, so that the result parses again, as
the renamed type.
-/

namespace Renaming

open Renaming.Parser

/-- The new names are read up to the first character in `stop`. -/
def ClassRenaming.Names (f : ClassRenaming) (stop : Char → Bool) : Prop :=
  ∀ old new, f old = some new → Token stop new

theorem ClassRenaming.Names.apply {f : ClassRenaming} {stop : Char → Bool} (hf : f.Names stop)
    {name : String} (h : Token stop name) : Token stop (f.apply name) := by
  rw [ClassRenaming.apply]
  cases hNew : f name with
  | none => exact h
  | some new => exact hf name new hNew

/-- The renaming keeps every name that it knows. -/
def ClassRenaming.Identical (f : ClassRenaming) : Prop := ∀ old new, f old = some new → new = old

theorem ClassRenaming.Identical.apply_eq {f : ClassRenaming} (hf : f.Identical) (name : String) :
    f.apply name = name := by
  rw [apply]
  cases hNew : f name with
  | none => rfl
  | some new => exact hf name new hNew

namespace FieldType

/-- All class names can stand in a descriptor. -/
def WellFormed : FieldType → Prop
  | base _ => True
  | object name => Token endsName name
  | array element => element.WellFormed

def className? (t : FieldType) : Option String :=
  match t.element with
  | object name => some name
  | _ => none

variable {t : FieldType} {f : ClassRenaming} {input rest : List Char}

theorem parseName_eq_some {name : String} : parseName input = some (name, rest) ↔
    Token endsName name ∧ input = name.toList ++ ';' :: rest := by
  rw [parseName, bind_eq_some]
  simp only [bind_eq_some, takeTill_eq_some, char_eq_some, pure_eq_some]
  constructor
  · rintro ⟨_, mid, ⟨hName, rfl, -⟩, _, _, rfl, rfl, rfl⟩
    exact ⟨hName, rfl⟩
  · rintro ⟨hName, rfl⟩
    refine ⟨name, _, ⟨hName, rfl, fun c hc => ?_⟩, (), rest, rfl, rfl, rfl⟩
    cases hc
    rfl

theorem parseNext_chars (ht : t.WellFormed) : parseNext (t.chars ++ rest) = some (t, rest) := by
  induction t with
  | base p => cases p <;> rfl
  | object name =>
    have hName : parseName (name.toList ++ ';' :: rest) = some (name, rest) :=
      parseName_eq_some.mpr ⟨ht, rfl⟩
    rw [chars, List.append_assoc, List.cons_append, List.singleton_append, parseNext, hName]
    rfl
  | array element ih =>
    rw [chars, List.cons_append, parseNext, ih ht]
    rfl

theorem chars_of_parseNext (h : parseNext input = some (t, rest)) :
    t.WellFormed ∧ input = t.chars ++ rest := by
  fun_induction parseNext input generalizing t with
  | case1 => cases h
  | case2 input =>
    simp only [Option.map_eq_some_iff, Prod.exists, Prod.mk.injEq] at h
    obtain ⟨name, _, hName, rfl, rfl⟩ := h
    obtain ⟨hToken, rfl⟩ := parseName_eq_some.mp hName
    refine ⟨hToken, ?_⟩
    simp [chars]
  | case3 input ih =>
    simp only [Option.map_eq_some_iff, Prod.exists, Prod.mk.injEq] at h
    obtain ⟨inner, _, hInner, rfl, rfl⟩ := h
    obtain ⟨hWellFormed, rfl⟩ := ih hInner
    exact ⟨hWellFormed, rfl⟩
  | case4 c input =>
    simp only [Option.map_eq_some_iff, Prod.mk.injEq] at h
    obtain ⟨p, hLetter, rfl, rfl⟩ := h
    rw [← Primitive.ofLetter?_eq_some_iff.mp hLetter]
    exact ⟨trivial, rfl⟩

theorem chars_ne_nil : t.chars ≠ [] := by
  cases t <;> simp [chars]

theorem letter_ne (p : Primitive) : p.letter ≠ 'L' ∧ p.letter ≠ '[' := by
  cases p <;> decide

/-- A type is known from how it is written, also if it is not well formed. -/
theorem chars_inj {a b : FieldType} (h : a.chars = b.chars) : a = b := by
  induction a generalizing b with
  | base p =>
    cases b with
    | base q =>
      have hLetter : Primitive.ofLetter? p.letter = Primitive.ofLetter? q.letter :=
        congrArg Primitive.ofLetter? (List.cons.inj h).1
      rw [Primitive.ofLetter?_letter, Primitive.ofLetter?_letter] at hLetter
      rw [Option.some.inj hLetter]
    | object name => exact absurd (List.cons.inj h).1 (letter_ne p).1
    | array element => exact absurd (List.cons.inj h).1 (letter_ne p).2
  | object name =>
    cases b with
    | base q => exact absurd (List.cons.inj h).1.symm (letter_ne q).1
    | object name' =>
      have hName : name.toList = name'.toList := List.append_cancel_right (List.cons.inj h).2
      rw [String.toList_inj.mp hName]
    | array element => exact absurd (List.cons.inj h).1 (by decide)
  | array element ih =>
    cases b with
    | base q => exact absurd (List.cons.inj h).1.symm (letter_ne q).2
    | object name => exact absurd (List.cons.inj h).1 (by decide)
    | array element' => rw [ih (List.cons.inj h).2]

theorem text_inj {a b : FieldType} (h : a.text = b.text) : a = b :=
  chars_inj (by simpa only [text, ← String.toList_inj, String.toList_ofList] using h)

theorem exact_parseNext : Exact parseNext WellFormed chars where
  eq_some := ⟨chars_of_parseNext, fun ⟨ht, h⟩ => h ▸ parseNext_chars ht⟩
  ne_nil := fun _ => chars_ne_nil

theorem parseNext_eq_none {c : Char} (hL : c ≠ 'L') (hArray : c ≠ '[')
    (hLetter : Primitive.ofLetter? c = none) : parseNext (c :: rest) = none := by
  unfold parseNext
  split
  · rfl
  · rename_i h
    cases h
    exact absurd rfl hL
  · rename_i h
    cases h
    exact absurd rfl hArray
  · rename_i h
    cases h
    rw [hLetter]
    rfl

/-- A text is the descriptor of a field exactly if it is how a well-formed type is written. -/
theorem parse_eq_ok {s : String} : parse s = .ok t ↔ t.WellFormed ∧ s = t.text := by
  have hText : s = t.text ↔ s.toList = t.chars ++ [] := by
    rw [text, ← String.toList_inj, String.toList_ofList, List.append_nil]
  rw [hText, ← exact_parseNext.eq_some, ← whole?_eq_some, parse]
  cases whole? parseNext s <;> simp

theorem WellFormed.rename (ht : t.WellFormed) (hf : f.Names endsName) :
    (t.rename f).WellFormed := by
  induction t with
  | base p => trivial
  | object name => exact hf.apply ht
  | array element ih => exact ih ht

theorem head?_chars_ne_paren : t.chars.head? ≠ some '(' := by
  cases t with
  | base p => cases p <;> simp [chars, Primitive.letter]
  | object name => simp [chars]
  | array element => simp [chars]

theorem head?_chars_rename : (t.rename f).chars.head? = t.chars.head? := by
  cases t <;> rfl

theorem rename_of_identical (hf : f.Identical) (t : FieldType) : t.rename f = t := by
  induction t with
  | base p => rfl
  | object name => rw [rename, hf.apply_eq]
  | array element ih => rw [rename, ih]

theorem className?_rename : (t.rename f).className? = t.className?.map f.apply := by
  induction t with
  | base p => rfl
  | object name => rfl
  | array element ih => exact ih

end FieldType

namespace MethodDescriptor

def WellFormed (d : MethodDescriptor) : Prop :=
  (∀ t ∈ d.parameters, t.WellFormed) ∧ ∀ t ∈ d.returnType, t.WellFormed

variable {d : MethodDescriptor} {f : ClassRenaming} {input rest : List Char}

theorem parseReturn_eq_some {r : Option FieldType} :
    (some <$> FieldType.parseNext <|> (Parser.char 'V' *> pure none) : Parser (Option FieldType))
        input = some (r, rest) ↔
      (∀ t ∈ r, t.WellFormed) ∧ input = r.elim ['V'] FieldType.chars ++ rest := by
  rw [orElse_eq_some, map_eq_some, map_eq_none, char_seqRight_eq_some]
  simp only [pure_eq_some, FieldType.exact_parseNext.eq_some]
  constructor
  · rintro (⟨t, ⟨ht, rfl⟩, rfl⟩ | ⟨-, _, rfl, rfl, rfl⟩)
    · refine ⟨fun t' ht' => ?_, rfl⟩
      cases ht'
      exact ht
    · exact ⟨fun t ht => absurd ht (Option.not_mem_none t), rfl⟩
  · rintro ⟨hr, rfl⟩
    cases r with
    | some t => exact Or.inl ⟨t, ⟨hr t rfl, rfl⟩, rfl⟩
    | none =>
      have hNone : FieldType.parseNext ('V' :: rest) = none :=
        FieldType.parseNext_eq_none (by decide) (by decide) rfl
      exact Or.inr ⟨hNone, rest, rfl, rfl, rfl⟩

theorem parseNext_eq_some : parseNext input = some (d, rest) ↔
    d.WellFormed ∧ input = d.chars ++ rest := by
  have hStop : ∀ cs, FieldType.parseNext (')' :: cs) = none :=
    fun cs => FieldType.parseNext_eq_none (by decide) (by decide) rfl
  rw [parseNext, bind_eq_some]
  simp only [bind_eq_some, parseReturn_eq_some, pure_eq_some, between_eq_some,
    many_eq_some FieldType.exact_parseNext.shrinks, FieldType.exact_parseNext.repeats_iff]
  constructor
  · rintro ⟨parameters, _, ⟨_, rfl, hParameters, rfl, -⟩, r, _, ⟨hr, rfl⟩, rfl, rfl⟩
    refine ⟨⟨hParameters, hr⟩, ?_⟩
    simp [chars]
  · rintro ⟨⟨hParameters, hr⟩, rfl⟩
    refine ⟨d.parameters, _, ⟨_, ?_, hParameters, rfl, hStop _⟩, d.returnType, rest, ⟨hr, rfl⟩, rfl,
      rfl⟩
    simp [chars]

/-- A text is the descriptor of a method exactly if it is how a well-formed one is written. -/
theorem parse_eq_ok {s : String} : parse s = .ok d ↔ d.WellFormed ∧ s = d.text := by
  have hText : s = d.text ↔ s.toList = d.chars ++ [] := by
    rw [text, ← String.toList_inj, String.toList_ofList, List.append_nil]
  rw [hText, ← parseNext_eq_some, ← whole?_eq_some, parse]
  cases whole? parseNext s <;> simp

theorem WellFormed.rename (hd : d.WellFormed) (hf : f.Names FieldType.endsName) :
    (d.rename f).WellFormed := by
  constructor
  · intro t ht
    obtain ⟨t, hMem, rfl⟩ := List.mem_map.mp ht
    exact (hd.1 t hMem).rename hf
  · intro t ht
    obtain ⟨t, hMem, rfl⟩ := Option.map_eq_some_iff.mp ht
    exact (hd.2 t hMem).rename hf

theorem rename_of_identical (hf : f.Identical) (d : MethodDescriptor) : d.rename f = d := by
  have hTypes : FieldType.rename f = id := funext (FieldType.rename_of_identical hf)
  rw [rename, hTypes, List.map_id, Option.map_id]
  rfl

theorem classNames_eq (d : MethodDescriptor) :
    d.classNames = (d.parameters ++ d.returnType.toList).filterMap FieldType.className? := rfl

theorem classNames_rename (d : MethodDescriptor) (f : ClassRenaming) :
    (d.rename f).classNames = d.classNames.map f.apply := by
  have hTypes : (d.rename f).parameters ++ (d.rename f).returnType.toList =
      (d.parameters ++ d.returnType.toList).map (FieldType.rename f) := by
    rw [List.map_append, rename]
    cases d.returnType <;> rfl
  rw [classNames_eq, classNames_eq, hTypes, List.filterMap_map, List.map_filterMap]
  exact List.filterMap_congr fun t _ => FieldType.className?_rename

end MethodDescriptor

namespace Descriptor

def fieldNames (text : String) : List String :=
  match FieldType.parse text with
  | .ok t => t.className?.toList
  | .error _ => []

def methodNames (text : String) : List String :=
  match MethodDescriptor.parse text with
  | .ok d => d.classNames
  | .error _ => []

def classNames (text : String) : List String :=
  if Text.startsWith '(' text then methodNames text else fieldNames text

def referenceNames (text : String) : List String :=
  if Text.startsWith '[' text then fieldNames text else [text]

variable {f : ClassRenaming} {a b : String}

theorem startsWith_paren_field (t : FieldType) : Text.startsWith '(' t.text = false := by
  rw [Text.startsWith, FieldType.text, String.toList_ofList, decide_eq_false_iff_not]
  exact FieldType.head?_chars_ne_paren

theorem startsWith_paren_method (d : MethodDescriptor) : Text.startsWith '(' d.text = true := by
  rw [Text.startsWith, MethodDescriptor.text, String.toList_ofList]
  rfl

theorem renameField_eq_ok : renameField f a = .ok b ↔
    ∃ t, FieldType.parse a = .ok t ∧ (t.rename f).text = b := by
  rw [renameField, Outcome.bind_eq_ok]
  simp only [Outcome.pure_eq_ok]

theorem renameMethod_eq_ok : renameMethod f a = .ok b ↔
    ∃ d, MethodDescriptor.parse a = .ok d ∧ (d.rename f).text = b := by
  rw [renameMethod, Outcome.bind_eq_ok]
  simp only [Outcome.pure_eq_ok]

theorem fieldNames_of_renameField (hf : f.Names FieldType.endsName)
    (h : renameField f a = .ok b) : fieldNames b = (fieldNames a).map f.apply := by
  obtain ⟨t, hParse, rfl⟩ := renameField_eq_ok.mp h
  have hWellFormed := (FieldType.parse_eq_ok.mp hParse).1
  have hNew := FieldType.parse_eq_ok.mpr ⟨hWellFormed.rename hf, rfl⟩
  rw [fieldNames, fieldNames, hParse, hNew]
  dsimp only
  rw [FieldType.className?_rename]
  cases t.className? <;> rfl

theorem methodNames_of_renameMethod (hf : f.Names FieldType.endsName)
    (h : renameMethod f a = .ok b) : methodNames b = (methodNames a).map f.apply := by
  obtain ⟨d, hParse, rfl⟩ := renameMethod_eq_ok.mp h
  have hWellFormed := (MethodDescriptor.parse_eq_ok.mp hParse).1
  have hNew := MethodDescriptor.parse_eq_ok.mpr ⟨hWellFormed.rename hf, rfl⟩
  rw [methodNames, methodNames, hParse, hNew]
  dsimp only
  rw [MethodDescriptor.classNames_rename]

theorem classNames_of_rename (hf : f.Names FieldType.endsName) (h : rename f a = .ok b) :
    classNames b = (classNames a).map f.apply := by
  rw [rename] at h
  cases hStart : Text.startsWith '(' a with
  | true =>
    rw [hStart, if_pos rfl] at h
    have hNew : Text.startsWith '(' b = true := by
      obtain ⟨d, -, rfl⟩ := renameMethod_eq_ok.mp h
      exact startsWith_paren_method _
    rw [classNames, classNames, hStart, hNew, if_pos rfl, if_pos rfl]
    exact methodNames_of_renameMethod hf h
  | false =>
    rw [hStart, if_neg Bool.false_ne_true] at h
    have hNew : Text.startsWith '(' b = false := by
      obtain ⟨t, -, rfl⟩ := renameField_eq_ok.mp h
      exact startsWith_paren_field _
    rw [classNames, classNames, hStart, hNew, if_neg Bool.false_ne_true, if_neg Bool.false_ne_true]
    exact fieldNames_of_renameField hf h

theorem startsWith_apply (hf : f.Names FieldType.endsName)
    (h : Text.startsWith '[' a = false) : Text.startsWith '[' (f.apply a) = false := by
  rw [ClassRenaming.apply]
  cases hNew : f a with
  | none => exact h
  | some new =>
    rw [Option.getD_some, Text.startsWith, decide_eq_false_iff_not]
    intro hHead
    have hFree := (hf a new hNew).2 '[' (List.mem_of_mem_head? hHead)
    cases hFree

theorem referenceNames_of_renameReference (hf : f.Names FieldType.endsName)
    (h : renameReference f a = .ok b) : referenceNames b = (referenceNames a).map f.apply := by
  rw [renameReference] at h
  cases hStart : Text.startsWith '[' a with
  | true =>
    rw [hStart, if_pos rfl] at h
    have hNew : Text.startsWith '[' b = true := by
      obtain ⟨t, hParse, rfl⟩ := renameField_eq_ok.mp h
      obtain ⟨-, rfl⟩ := FieldType.parse_eq_ok.mp hParse
      rw [← hStart]
      simp only [Text.startsWith, FieldType.text, String.toList_ofList, FieldType.head?_chars_rename]
    rw [referenceNames, referenceNames, hStart, hNew, if_pos rfl, if_pos rfl]
    exact fieldNames_of_renameField hf h
  | false =>
    rw [hStart, if_neg Bool.false_ne_true] at h
    obtain rfl := Except.ok.inj h
    rw [referenceNames, referenceNames, hStart, startsWith_apply hf hStart, if_neg Bool.false_ne_true,
      if_neg Bool.false_ne_true]
    rfl

theorem renameField_of_identical (hf : f.Identical) (h : renameField f a = .ok b) : b = a := by
  obtain ⟨t, hParse, rfl⟩ := renameField_eq_ok.mp h
  rw [t.rename_of_identical hf, (FieldType.parse_eq_ok.mp hParse).2]

theorem rename_of_identical (hf : f.Identical) (h : rename f a = .ok b) : b = a := by
  rw [rename] at h
  split at h
  · obtain ⟨d, hParse, rfl⟩ := renameMethod_eq_ok.mp h
    rw [d.rename_of_identical hf, (MethodDescriptor.parse_eq_ok.mp hParse).2]
  · exact renameField_of_identical hf h

theorem renameReference_of_identical (hf : f.Identical) (h : renameReference f a = .ok b) :
    b = a := by
  rw [renameReference] at h
  split at h
  · exact renameField_of_identical hf h
  · rw [hf.apply_eq] at h
    exact (Except.ok.inj h).symm

end Descriptor

end Renaming
