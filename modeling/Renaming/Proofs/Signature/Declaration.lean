import Renaming.Proofs.Signature.Names

/-!
# Signatures of classes and methods

A type parameter without bounds ends where no type follows. The name of the next parameter may look
like the start of a class type, so that a bound is read which was not meant. It only is not read if
no class name ends in the rest of the signature; then there is nothing to rename in it either, and
the renamed signature is read in the same way.
-/

namespace Renaming

open Renaming.Parser

namespace TypeParameter

def WellFormed (p : TypeParameter) : Prop :=
  Token TypeSignature.endsIdentifier p.name ∧
    (∀ b ∈ p.classBound, b.isReference = true ∧ b.WellFormed) ∧
      ∀ b ∈ p.interfaceBounds, b.isReference = true ∧ b.WellFormed

/-- No further bound follows the parameter. -/
def EndsBefore (p : TypeParameter) (rest : List Char) : Prop :=
  (Parser.char ':' *> TypeSignature.reference) rest = none ∧
    (p.classBound = none → p.interfaceBounds = [] → TypeSignature.reference rest = none)

variable {p : TypeParameter} {ps : List TypeParameter} {f : ClassRenaming}
  {input rest tail tail' : List Char}

theorem exact_bound : Exact (Parser.char ':' *> TypeSignature.reference)
    (fun t => t.isReference = true ∧ t.WellFormed) (fun t => ':' :: t.chars) where
  eq_some := by
    intro input t rest
    rw [char_seqRight_eq_some]
    simp only [TypeSignature.exact_reference.eq_some]
    constructor
    · rintro ⟨_, rfl, ht, rfl⟩
      exact ⟨ht, rfl⟩
    · rintro ⟨ht, rfl⟩
      exact ⟨_, rfl, ht, rfl⟩
  ne_nil := fun _ => List.cons_ne_nil _ _

theorem parseNext_eq_some : parseNext input = some (p, rest) ↔
    p.WellFormed ∧ input = p.chars ++ rest ∧ p.EndsBefore rest := by
  simp only [parseNext, bind_eq_some, char_eq_some, TypeSignature.parseIdentifier,
    takeTill_eq_some, optional_eq_some, many_eq_some exact_bound.shrinks, exact_bound.repeats_iff,
    TypeSignature.exact_reference.eq_some, pure_eq_some]
  constructor
  · rintro ⟨name, _, ⟨hName, rfl, -⟩, _, _, rfl, classBound, _,
      ⟨t, ⟨ht, rfl⟩, rfl⟩ | ⟨hNone, rfl, rfl⟩, bounds, _, ⟨hBounds, rfl, hEnd⟩, rfl, rfl⟩
    · refine ⟨⟨hName, ?_, hBounds⟩, ?_, hEnd, fun h => absurd h (Option.some_ne_none t)⟩
      · rintro _ ⟨⟩
        exact ht
      · simp [chars]
    · refine ⟨⟨hName, ?_, hBounds⟩, ?_, hEnd, fun _ hEmpty => ?_⟩
      · rintro _ ⟨⟩
      · simp [chars]
      · obtain rfl : bounds = [] := hEmpty
        exact hNone
  · rintro ⟨⟨hName, hClass, hBounds⟩, rfl, hEnd, hReference⟩
    refine ⟨p.name, ':' :: (p.classBound.elim [] TypeSignature.chars ++
        (p.interfaceBounds.flatMap (fun t => ':' :: t.chars) ++ rest)), ⟨hName, by simp [chars], ?_⟩,
      (), _, rfl, p.classBound, _, ?_, p.interfaceBounds, rest, ⟨hBounds, rfl, hEnd⟩, rfl, rfl⟩
    · rintro _ ⟨⟩
      rfl
    · cases hBound : p.classBound with
      | some t => exact Or.inl ⟨t, ⟨hClass t hBound, rfl⟩, rfl⟩
      | none =>
        refine Or.inr ⟨?_, rfl, rfl⟩
        cases hEmpty : p.interfaceBounds with
        | nil => exact hReference hBound hEmpty
        | cons b bounds => exact TypeSignature.sound_reference.eq_none (by decide)

theorem chars_ne_nil : p.chars ≠ [] := by
  simp [chars]

theorem shrinks_parseNext : Shrinks parseNext := by
  intro input p rest h
  obtain ⟨-, rfl, -⟩ := parseNext_eq_some.mp h
  have hLength := List.length_pos_iff.mpr (chars_ne_nil (p := p))
  rw [List.length_append]
  omega

theorem of_repeats (h : Repeats parseNext ps input rest) :
    (∀ p ∈ ps, p.WellFormed) ∧ input = ps.flatMap chars ++ rest := by
  induction h with
  | done _ => exact ⟨fun p hp => absurd hp List.not_mem_nil, rfl⟩
  | step h _ ih =>
    obtain ⟨hHead, rfl, -⟩ := parseNext_eq_some.mp h
    obtain ⟨hTail, rfl⟩ := ih
    refine ⟨List.forall_mem_cons.mpr ⟨hHead, hTail⟩, ?_⟩
    rw [List.flatMap_cons, List.append_assoc]

def NestsSimply (f : ClassRenaming) (p : TypeParameter) : Prop :=
  (∀ b ∈ p.classBound, b.NestsSimply f) ∧ ∀ b ∈ p.interfaceBounds, b.NestsSimply f

def classNames (p : TypeParameter) : List String :=
  (p.classBound.toList ++ p.interfaceBounds).flatMap TypeSignature.classNames

theorem WellFormed.rename (hp : p.WellFormed) (hf : f.Names TypeSignature.endsClassName)
    (hNests : p.NestsSimply f) : (p.rename f).WellFormed := by
  obtain ⟨hName, hClass, hBounds⟩ := hp
  refine ⟨hName, fun b hb => ?_, fun b hb => ?_⟩
  · obtain ⟨b, hMem, rfl⟩ := Option.map_eq_some_iff.mp hb
    rw [TypeSignature.isReference_rename]
    exact ⟨(hClass b hMem).1, .rename hf b (hClass b hMem).2 (hNests.1 b hMem)⟩
  · obtain ⟨b, hMem, rfl⟩ := List.mem_map.mp hb
    rw [TypeSignature.isReference_rename]
    exact ⟨(hBounds b hMem).1, .rename hf b (hBounds b hMem).2 (hNests.2 b hMem)⟩

theorem closes_chars (hp : p.WellFormed) (h : TypeSignature.Closes rest) :
    TypeSignature.Closes (p.chars ++ rest) := by
  obtain ⟨hName, hClass, hBounds⟩ := hp
  have hInterfaces : TypeSignature.Closes
      (p.interfaceBounds.flatMap (fun b => ':' :: b.chars) ++ rest) :=
    TypeSignature.closes_flatMap
      (fun b hb _ h => .cons rfl (TypeSignature.closes_chars b hb.2 h)) _ hBounds h
  have hAll : TypeSignature.Closes (p.name.toList ++ ':' ::
      (p.classBound.elim [] TypeSignature.chars ++
        (p.interfaceBounds.flatMap (fun b => ':' :: b.chars) ++ rest))) := by
    refine .append (TypeSignature.open_of_token hName TypeSignature.endsClassName_of_identifier)
      (.cons rfl ?_)
    cases hBound : p.classBound with
    | none => exact hInterfaces
    | some b => exact TypeSignature.closes_chars b (hClass b hBound).2 hInterfaces
  simpa [chars] using hAll

theorem rename_of_open (h : TypeSignature.Open p.chars) : p.rename f = p := by
  obtain ⟨name, classBound, interfaceBounds⟩ := p
  simp only [chars, TypeSignature.Open, List.forall_mem_append, List.forall_mem_cons] at h
  obtain ⟨⟨-, -, hClass⟩, hInterfaces⟩ := h
  have hBounds : interfaceBounds.map (TypeSignature.rename f) = interfaceBounds := by
    refine TypeSignature.map_of_open (fun b hb => ?_) interfaceBounds hInterfaces
    exact b.rename_of_open fun c hc => hb c (List.mem_cons_of_mem _ hc)
  have hBound : classBound.map (TypeSignature.rename f) = classBound := by
    cases classBound with
    | none => rfl
    | some b => rw [Option.map_some, b.rename_of_open hClass]
  rw [rename, hBound, hBounds]

def follow (ps : List TypeParameter) (tail : List Char) : List Char :=
  ps.flatMap chars ++ '>' :: tail

theorem head?_follow (hps : ∀ p ∈ ps, p.WellFormed) : (follow ps tail).head? ≠ some ':' := by
  cases ps with
  | nil => simp [follow]
  | cons p ps =>
    obtain ⟨⟨hSome, hFree⟩, -⟩ := hps p List.mem_cons_self
    obtain ⟨c, cs, hName⟩ := List.exists_cons_of_ne_nil hSome
    have hc := hFree c (by rw [hName]; exact List.mem_cons_self)
    rw [follow, List.flatMap_cons, chars, hName]
    rintro ⟨⟩
    cases hc

theorem parseVar_eq_none {name : List Char}
    (h : ∀ c ∈ name, TypeSignature.endsIdentifier c = false) :
    TypeSignature.parseVar (name ++ ':' :: rest) = none := by
  cases hParse : TypeSignature.parseVar (name ++ ':' :: rest) with
  | none => rfl
  | some r =>
    obtain ⟨other, -, hOther, hEq⟩ := TypeSignature.parseVar_eq_some.mp hParse
    have hLetter : ∀ c ∈ 'T' :: other.toList, TypeSignature.endsIdentifier c = false :=
      List.forall_mem_cons.mpr ⟨rfl, hOther.2⟩
    have hColon : ∀ c ∈ (':' :: rest).head?, TypeSignature.endsIdentifier c = true := by
      rintro _ ⟨⟩
      rfl
    have hSemicolon : ∀ c ∈ (';' :: r.2).head?, TypeSignature.endsIdentifier c = true := by
      rintro _ ⟨⟩
      rfl
    have hLeft := (takeWhile_stop h hColon).2
    have hRight := (takeWhile_stop hLetter hSemicolon).2
    rw [hEq, hRight] at hLeft
    cases hLeft

theorem closes_follow (hps : ∀ p ∈ ps, p.WellFormed) (h : TypeSignature.Closes tail) :
    TypeSignature.Closes (follow ps tail) :=
  TypeSignature.closes_flatMap (fun _ hp _ => closes_chars hp) ps hps (.cons rfl h)

theorem follow_of_open (h : TypeSignature.Open (follow ps tail)) :
    ps.map (rename f) = ps ∧ TypeSignature.Open tail := by
  obtain ⟨hps, hTail⟩ := List.forall_mem_append.mp h
  refine ⟨TypeSignature.map_of_open (fun _ => rename_of_open) ps hps, fun c hc => ?_⟩
  exact hTail c (List.mem_cons_of_mem _ hc)

theorem follow_cons (p : TypeParameter) (ps : List TypeParameter) (tail : List Char) :
    ∃ bounds, follow (p :: ps) tail = p.name.toList ++ ':' :: bounds :=
  ⟨_, by rw [follow, List.flatMap_cons, chars, List.append_assoc, List.append_assoc,
    List.append_assoc, List.cons_append]⟩

/-- Only a name that starts like a class type could be taken for a type, and it is not if no class name
ends after it. -/
theorem reference_follow_of_open
    (hNames : ∀ q ∈ ps.head?, Token TypeSignature.endsIdentifier q.name)
    (hOpen : ∀ q ∈ ps.head?, Text.startsWith 'L' q.name = true →
      TypeSignature.Open (follow ps tail)) : TypeSignature.reference (follow ps tail) = none := by
  cases ps with
  | nil => exact TypeSignature.sound_reference.eq_none (by decide)
  | cons q ps =>
    have hName := hNames q rfl
    obtain ⟨bounds, hFollow⟩ := follow_cons q ps tail
    obtain ⟨c, cs, hChars⟩ := List.exists_cons_of_ne_nil hName.1
    by_cases hL : c = 'L'
    · subst hL
      have hAll := hOpen q rfl (by rw [Text.startsWith, hChars]; rfl)
      rw [hFollow, hChars, List.cons_append] at hAll ⊢
      exact TypeSignature.reference_eq_none_of_open hAll
    -- A type variable ends at a semicolon, the name of a parameter at its colon.
    · by_cases hT : c = 'T'
      · subst hT
        have hVar : TypeSignature.parseVar (q.name.toList ++ ':' :: bounds) = none :=
          parseVar_eq_none hName.2
        rw [hFollow]
        rw [hChars] at hVar ⊢
        exact TypeSignature.reference_eq_none_of_var hVar
      · rw [hFollow, hChars]
        refine TypeSignature.sound_reference.eq_none ⟨hL, hT, ?_⟩
        rintro rfl
        cases hName.2 '[' (by rw [hChars]; exact List.mem_cons_self)

/-- Where no type follows a parameter, the next name does not start like a class type, or no class name
ends after it. -/
theorem open_of_reference_follow (hps : ∀ p ∈ ps, p.WellFormed) (hTail : TypeSignature.Closes tail)
    (h : TypeSignature.reference (follow ps tail) = none) :
    ∀ q ∈ ps.head?, Text.startsWith 'L' q.name = true → TypeSignature.Open (follow ps tail) := by
  intro q hq hStart
  cases ps with
  | nil => cases hq
  | cons _ ps =>
    cases hq
    have hName := (hps q List.mem_cons_self).1
    obtain ⟨bounds, hFollow⟩ := follow_cons q ps tail
    obtain ⟨cs, hChars⟩ := List.head?_eq_some_iff.mp (of_decide_eq_true hStart)
    obtain ⟨d, ds, hRest, hd⟩ : ∃ d ds, cs ++ ':' :: bounds = d :: ds ∧
        TypeSignature.endsClassName d = false := by
      cases cs with
      | nil => exact ⟨':', bounds, rfl, rfl⟩
      | cons d cs =>
        refine ⟨d, cs ++ ':' :: bounds, rfl, TypeSignature.endsClassName_of_identifier d ?_⟩
        exact hName.2 d (by rw [hChars]; exact List.mem_cons_of_mem _ List.mem_cons_self)
    have hCloses := closes_follow hps hTail
    rw [hFollow, hChars, List.cons_append, hRest] at h hCloses ⊢
    exact TypeSignature.open_of_reference_eq_none hd hCloses h

/-- Where no type follows a parameter, none follows after renaming: the next name stays as it is, and if
it starts like a class type, no class name ends after it, so that nothing there is renamed. -/
theorem reference_follow_eq_none (hps : ∀ p ∈ ps, p.WellFormed)
    (hTail : TypeSignature.Closes tail) (hOpen : TypeSignature.Open tail → tail' = tail)
    (h : TypeSignature.reference (follow ps tail) = none) :
    TypeSignature.reference (follow (ps.map (rename f)) tail') = none := by
  have hHead : ∀ q ∈ (ps.map (rename f)).head?, ∃ p ∈ ps.head?, q.name = p.name := by
    intro q hq
    rw [List.head?_map] at hq
    obtain ⟨p, hp, rfl⟩ := Option.map_eq_some_iff.mp hq
    exact ⟨p, hp, rfl⟩
  refine reference_follow_of_open (fun q hq => ?_) fun q hq hStart => ?_
  · obtain ⟨p, hp, hName⟩ := hHead q hq
    rw [hName]
    exact (hps p (List.mem_of_mem_head? hp)).1
  · obtain ⟨p, hp, hName⟩ := hHead q hq
    rw [hName] at hStart
    have hAll := open_of_reference_follow hps hTail h p hp hStart
    obtain ⟨hSame, hOpenTail⟩ := follow_of_open (f := f) hAll
    rw [hSame, hOpen hOpenTail]
    exact hAll

/-- The parameters are read up to their closing bracket, if there are any. -/
def Declares (ps : List TypeParameter) (tail : List Char) : Prop :=
  ps ≠ [] → Repeats parseNext ps (follow ps tail) ('>' :: tail)

theorem parseNext_eq_none : parseNext ('>' :: tail) = none :=
  bind_eq_none (by rfl)

theorem listChars_append (hps : ps ≠ []) : listChars ps ++ tail = '<' :: follow ps tail := by
  rw [listChars, angled, if_neg (by simpa using hps), follow, List.append_assoc]
  rfl

theorem parseList_eq_some (hTail : tail.head? ≠ some '<') :
    parseList input = some (ps, tail) ↔ input = listChars ps ++ tail ∧ Declares ps tail := by
  simp only [parseList, bind_eq_some, optional_eq_some, between_eq_some, pure_eq_some,
    many1_eq_some shrinks_parseNext]
  constructor
  · rintro ⟨_, _, ⟨qs, ⟨_, rfl, hSome, h⟩, rfl⟩ | ⟨-, rfl, rfl⟩, rfl, rfl⟩
    · obtain ⟨-, hInput⟩ := of_repeats h
      refine ⟨by rw [listChars_append hSome, hInput, follow], fun _ => ?_⟩
      rwa [follow, ← hInput]
    · exact ⟨rfl, fun h => absurd rfl h⟩
  · rintro ⟨rfl, h⟩
    by_cases hSome : ps = []
    · subst hSome
      exact ⟨none, tail, Or.inr ⟨between_eq_none hTail, rfl, rfl⟩, rfl, rfl⟩
    · rw [listChars_append hSome]
      exact ⟨some ps, tail, Or.inl ⟨ps, ⟨_, rfl, hSome, h hSome⟩, rfl⟩, rfl, rfl⟩

theorem repeats_follow_cons :
    Repeats parseNext (p :: ps) (follow (p :: ps) tail) ('>' :: tail) ↔
      p.WellFormed ∧ p.EndsBefore (follow ps tail) ∧
        Repeats parseNext ps (follow ps tail) ('>' :: tail) := by
  have hSplit : follow (p :: ps) tail = p.chars ++ follow ps tail := by
    rw [follow, List.flatMap_cons, List.append_assoc, follow]
  rw [hSplit]
  constructor
  · intro h
    cases h with
    | step hNext hRest =>
      obtain ⟨hp, hInput, hEnd⟩ := parseNext_eq_some.mp hNext
      obtain rfl := List.append_cancel_left hInput
      exact ⟨hp, hEnd, hRest⟩
  · rintro ⟨hp, hEnd, hRest⟩
    exact .step (parseNext_eq_some.mpr ⟨hp, rfl, hEnd⟩) hRest

theorem repeats_rename (hf : f.Names TypeSignature.endsClassName)
    (hNests : ∀ p ∈ ps, p.NestsSimply f) (hTail : TypeSignature.Closes tail)
    (hOpen : TypeSignature.Open tail → tail' = tail)
    (h : Repeats parseNext ps (follow ps tail) ('>' :: tail)) :
    Repeats parseNext (ps.map (rename f)) (follow (ps.map (rename f)) tail') ('>' :: tail') := by
  induction ps with
  | nil => exact .done parseNext_eq_none
  | cons p ps ih =>
    obtain ⟨hNest, hNests⟩ := List.forall_mem_cons.mp hNests
    obtain ⟨hp, ⟨-, hEnd⟩, hRest⟩ := repeats_follow_cons.mp h
    have hps := (of_repeats hRest).1
    have hps' : ∀ q ∈ ps.map (rename f), q.WellFormed := by
      intro q hq
      obtain ⟨q, hMem, rfl⟩ := List.mem_map.mp hq
      exact (hps q hMem).rename hf (hNests q hMem)
    refine repeats_follow_cons.mpr ⟨hp.rename hf hNest, ⟨?_, ?_⟩, ih hNests hRest⟩
    · exact char_seqRight_eq_none (head?_follow hps')
    · intro hClass hBounds
      exact reference_follow_eq_none hps hTail hOpen
        (hEnd (Option.map_eq_none_iff.mp hClass) (List.map_eq_nil_iff.mp hBounds))

theorem Declares.rename (h : Declares ps tail) (hf : f.Names TypeSignature.endsClassName)
    (hNests : ∀ p ∈ ps, p.NestsSimply f) (hTail : TypeSignature.Closes tail)
    (hOpen : TypeSignature.Open tail → tail' = tail) :
    Declares (ps.map (TypeParameter.rename f)) tail' := by
  intro hSome
  exact repeats_rename hf hNests hTail hOpen (h (mt List.map_eq_nil_iff.mpr hSome))

end TypeParameter

namespace ClassSignature

variable {s : ClassSignature} {f : ClassRenaming}

def tail (s : ClassSignature) : List Char :=
  s.superclass.chars ++ s.interfaces.flatMap ClassTypeOf.chars

theorem chars_eq (s : ClassSignature) :
    s.chars = TypeParameter.listChars s.typeParameters ++ s.tail := by
  rw [chars, tail, List.append_assoc]

/-- What can be read back as a signature. -/
structure WellFormed (s : ClassSignature) : Prop where
  declares : TypeParameter.Declares s.typeParameters s.tail
  superclass : (TypeSignature.classType s.superclass).WellFormed
  interfaces : ∀ c ∈ s.interfaces, (TypeSignature.classType c).WellFormed

theorem head?_tail (s : ClassSignature) : s.tail.head? ≠ some '<' := by
  obtain ⟨ps, ⟨⟨name, arguments⟩, inner⟩, interfaces⟩ := s
  simp [tail, ClassTypeOf.chars, TypeSignature.chars]

theorem parse_eq_ok {text : String} : parse text = .ok s ↔ s.WellFormed ∧ text = s.text := by
  have hNone : ClassTypeOf.parseNext [] = none := rfl
  have hText : text = s.text ↔ text.toList = s.chars := by
    rw [ClassSignature.text, ← String.toList_inj, String.toList_ofList]
  have hNext : parseNext text.toList = some (s, []) ↔ s.WellFormed ∧ text.toList = s.chars := by
    simp only [parseNext, bind_eq_some, many_eq_some TypeSignature.exact_classType.shrinks,
      TypeSignature.exact_classType.repeats_iff, TypeSignature.exact_classType.eq_some, pure_eq_some]
    constructor
    · rintro ⟨ps, _, hList, c, _, ⟨hc, rfl⟩, interfaces, _, ⟨hInterfaces, rfl, -⟩, rfl, rfl⟩
      have hTail := head?_tail ⟨ps, c, interfaces⟩
      rw [tail] at hTail
      rw [List.append_nil, TypeParameter.parseList_eq_some hTail] at hList
      obtain ⟨hInput, hDeclares⟩ := hList
      exact ⟨⟨hDeclares, hc, hInterfaces⟩, by rw [chars_eq]; exact hInput⟩
    · rintro ⟨⟨hDeclares, hSuper, hInterfaces⟩, hInput⟩
      rw [chars_eq] at hInput
      refine ⟨s.typeParameters, s.tail,
        (TypeParameter.parseList_eq_some s.head?_tail).mpr ⟨hInput, hDeclares⟩, s.superclass, _,
        ⟨hSuper, rfl⟩, s.interfaces, [], ⟨hInterfaces, ?_, hNone⟩, rfl, rfl⟩
      rw [List.append_nil]
  rw [hText, ← hNext, ← whole?_eq_some, parse]
  cases whole? parseNext text <;> simp

/-- Every nested class of the signature has a simple name after renaming. -/
structure NestsSimply (f : ClassRenaming) (s : ClassSignature) : Prop where
  typeParameters : ∀ p ∈ s.typeParameters, p.NestsSimply f
  superclass : (TypeSignature.classType s.superclass).NestsSimply f
  interfaces : ∀ c ∈ s.interfaces, (TypeSignature.classType c).NestsSimply f

theorem closes_tail (hSuper : (TypeSignature.classType s.superclass).WellFormed)
    (hInterfaces : ∀ c ∈ s.interfaces, (TypeSignature.classType c).WellFormed) :
    TypeSignature.Closes s.tail := by
  have hRest : TypeSignature.Closes (s.interfaces.flatMap ClassTypeOf.chars ++ []) :=
    TypeSignature.closes_flatMap
      (fun c hc _ => TypeSignature.closes_chars (.classType c) hc) _ hInterfaces
        (Or.inl fun _ h => absurd h List.not_mem_nil)
  rw [List.append_nil] at hRest
  exact TypeSignature.closes_chars (.classType s.superclass) hSuper hRest

theorem not_open_tail (s : ClassSignature) : ¬ TypeSignature.Open s.tail := fun h =>
  TypeSignature.not_open_classType s.superclass (List.forall_mem_append.mp h).1

theorem WellFormed.rename (hs : s.WellFormed) (hf : f.Names TypeSignature.endsClassName)
    (hNests : s.NestsSimply f) : (s.rename f).WellFormed where
  declares := hs.declares.rename hf hNests.typeParameters
    (closes_tail hs.superclass hs.interfaces) fun h => absurd h s.not_open_tail
  superclass := TypeSignature.WellFormed.rename hf (.classType s.superclass) hs.superclass
    hNests.superclass
  interfaces := by
    intro c hc
    obtain ⟨c, hMem, rfl⟩ := List.mem_map.mp hc
    exact TypeSignature.WellFormed.rename hf (.classType c) (hs.interfaces c hMem)
      (hNests.interfaces c hMem)

end ClassSignature

namespace MethodSignature

variable {s : MethodSignature} {f : ClassRenaming}

def tail (s : MethodSignature) : List Char :=
  '(' :: s.parameters.flatMap TypeSignature.chars ++
    ')' :: s.returnType.elim ['V'] TypeSignature.chars ++
      s.throws.flatMap fun type => '^' :: type.chars

theorem chars_eq (s : MethodSignature) :
    s.chars = TypeParameter.listChars s.typeParameters ++ s.tail := by
  rw [chars, tail, List.append_assoc, List.append_assoc, List.append_assoc]

/-- Whether a type can be thrown: a class or a type variable. -/
def IsThrown (t : TypeSignature) : Prop :=
  t.WellFormed ∧ ((∃ c, t = .classType c) ∨ ∃ name, t = .var name)

/-- What can be read back as a signature. -/
structure WellFormed (s : MethodSignature) : Prop where
  declares : TypeParameter.Declares s.typeParameters s.tail
  parameters : ∀ t ∈ s.parameters, t.WellFormed
  returnType : ∀ t ∈ s.returnType, t.WellFormed
  throws : ∀ t ∈ s.throws, IsThrown t

theorem head?_tail (s : MethodSignature) : s.tail.head? ≠ some '<' := by simp [tail]

theorem exact_thrown : Exact
    (Parser.char '^' *> (.classType <$> ClassTypeOf.parseNext <|> TypeSignature.parseVar))
    IsThrown (fun t => '^' :: t.chars) where
  eq_some := by
    intro input t rest
    rw [char_seqRight_eq_some]
    simp only [orElse_eq_some, map_eq_some, map_eq_none, TypeSignature.exact_classType.eq_some,
      TypeSignature.parseVar_eq_some]
    constructor
    · rintro ⟨_, rfl, ⟨c, ⟨hc, rfl⟩, rfl⟩ | ⟨-, name, rfl, hName, rfl⟩⟩
      · exact ⟨⟨hc, Or.inl ⟨c, rfl⟩⟩, rfl⟩
      · exact ⟨⟨hName, Or.inr ⟨name, rfl⟩⟩, by simp [TypeSignature.chars]⟩
    · rintro ⟨⟨ht, ⟨c, rfl⟩ | ⟨name, rfl⟩⟩, rfl⟩
      · exact ⟨_, rfl, Or.inl ⟨c, ⟨ht, rfl⟩, rfl⟩⟩
      · refine ⟨_, rfl, Or.inr ⟨char_bind_eq_none (by simp [TypeSignature.chars]), name, rfl, ht, ?_⟩⟩
        simp [TypeSignature.chars]
  ne_nil := fun _ => List.cons_ne_nil _ _

theorem return_eq_some {o : Option TypeSignature} {input rest : List Char} :
    (some <$> TypeSignature.parseAny TypeSignature.reference <|>
      (Parser.char 'V' *> pure none) : Parser (Option TypeSignature)) input = some (o, rest) ↔
    (∀ t ∈ o, t.WellFormed) ∧ input = o.elim ['V'] TypeSignature.chars ++ rest := by
  simp only [orElse_eq_some, map_eq_some, map_eq_none, char_seqRight_eq_some, pure_eq_some,
    TypeSignature.exact_any.eq_some]
  constructor
  · rintro (⟨t, ⟨ht, rfl⟩, rfl⟩ | ⟨-, _, rfl, rfl, rfl⟩)
    · exact ⟨by rintro _ ⟨⟩; exact ht, rfl⟩
    · exact ⟨by rintro _ ⟨⟩, rfl⟩
  · rintro ⟨ho, rfl⟩
    cases o with
    | some t => exact Or.inl ⟨t, ⟨ho t rfl, rfl⟩, rfl⟩
    | none => exact Or.inr ⟨TypeSignature.parseAny_eq_none rfl (by decide), _, rfl, rfl, rfl⟩

theorem parse_eq_ok {text : String} : parse text = .ok s ↔ s.WellFormed ∧ text = s.text := by
  have hText : text = s.text ↔ text.toList = s.chars := by
    rw [MethodSignature.text, ← String.toList_inj, String.toList_ofList]
  have hNext : parseNext text.toList = some (s, []) ↔ s.WellFormed ∧ text.toList = s.chars := by
    simp only [parseNext, bind_eq_some, between_eq_some,
      many_eq_some TypeSignature.exact_any.shrinks, TypeSignature.exact_any.repeats_iff,
      return_eq_some, many_eq_some exact_thrown.shrinks, exact_thrown.repeats_iff, pure_eq_some]
    constructor
    · rintro ⟨ps, _, hList, parameters, _, ⟨_, rfl, hParameters, rfl, -⟩, returnType, _,
        ⟨hReturn, rfl⟩, throws, _, ⟨hThrows, rfl, -⟩, rfl, rfl⟩
      have hTail := head?_tail ⟨ps, parameters, returnType, throws⟩
      have hTailEq : '(' :: (parameters.flatMap TypeSignature.chars ++ ')' ::
          (returnType.elim ['V'] TypeSignature.chars ++
            (throws.flatMap (fun t => '^' :: t.chars) ++ []))) =
          tail ⟨ps, parameters, returnType, throws⟩ := by simp [tail]
      rw [hTailEq, TypeParameter.parseList_eq_some hTail] at hList
      obtain ⟨hInput, hDeclares⟩ := hList
      exact ⟨⟨hDeclares, hParameters, hReturn, hThrows⟩, by rw [chars_eq]; exact hInput⟩
    · rintro ⟨⟨hDeclares, hParameters, hReturn, hThrows⟩, hInput⟩
      rw [chars_eq] at hInput
      refine ⟨s.typeParameters, s.tail,
        (TypeParameter.parseList_eq_some s.head?_tail).mpr ⟨hInput, hDeclares⟩, s.parameters, _,
        ⟨_, ?_, hParameters, rfl, TypeSignature.parseAny_eq_none rfl (by decide)⟩, s.returnType, _,
        ⟨hReturn, rfl⟩, s.throws, [], ⟨hThrows, rfl, rfl⟩, rfl, rfl⟩
      simp [tail]
  rw [hText, ← hNext, ← whole?_eq_some, parse]
  cases whole? parseNext text <;> simp

/-- Every nested class of the signature has a simple name after renaming. -/
structure NestsSimply (f : ClassRenaming) (s : MethodSignature) : Prop where
  typeParameters : ∀ p ∈ s.typeParameters, p.NestsSimply f
  parameters : ∀ t ∈ s.parameters, t.NestsSimply f
  returnType : ∀ t ∈ s.returnType, t.NestsSimply f
  throws : ∀ t ∈ s.throws, t.NestsSimply f

theorem closes_tail (hParameters : ∀ t ∈ s.parameters, t.WellFormed)
    (hReturn : ∀ t ∈ s.returnType, t.WellFormed) (hThrows : ∀ t ∈ s.throws, IsThrown t) :
    TypeSignature.Closes s.tail := by
  have hLast : TypeSignature.Closes (s.throws.flatMap (fun t => '^' :: t.chars) ++ []) :=
    TypeSignature.closes_flatMap
      (fun t ht _ h => .cons rfl (TypeSignature.closes_chars t ht.1 h)) _ hThrows
        (Or.inl fun _ h => absurd h List.not_mem_nil)
  rw [List.append_nil] at hLast
  have hRest : TypeSignature.Closes (s.returnType.elim ['V'] TypeSignature.chars ++
      s.throws.flatMap fun t => '^' :: t.chars) := by
    cases h : s.returnType with
    | none => exact .cons rfl hLast
    | some t => exact TypeSignature.closes_chars t (hReturn t h) hLast
  have hAll := TypeSignature.closes_flatMap
    (fun t ht _ => TypeSignature.closes_chars t ht) _ hParameters
      (TypeSignature.Closes.cons (c := ')') rfl hRest)
  rw [tail, List.append_assoc]
  exact .cons rfl hAll

theorem tail_rename_of_open (h : TypeSignature.Open s.tail) : (s.rename f).tail = s.tail := by
  obtain ⟨ps, parameters, returnType, throws⟩ := s
  simp only [tail, TypeSignature.Open, List.forall_mem_append, List.forall_mem_cons] at h
  obtain ⟨⟨⟨-, hParameters⟩, -, hReturn⟩, hThrows⟩ := h
  have hThrows' : throws.map (TypeSignature.rename f) = throws :=
    TypeSignature.map_of_open
      (fun t ht => t.rename_of_open fun c hc => ht c (List.mem_cons_of_mem _ hc)) throws hThrows
  have hReturn' : returnType.map (TypeSignature.rename f) = returnType := by
    cases returnType with
    | none => rfl
    | some t => rw [Option.map_some, t.rename_of_open hReturn]
  rw [tail, tail, MethodSignature.rename, hThrows', hReturn',
    TypeSignature.map_of_open (fun t => t.rename_of_open) parameters hParameters]

theorem IsThrown.rename {t : TypeSignature} (ht : IsThrown t)
    (hf : f.Names TypeSignature.endsClassName) (hNests : t.NestsSimply f) :
    IsThrown (t.rename f) := by
  refine ⟨TypeSignature.WellFormed.rename hf t ht.1 hNests, ?_⟩
  rcases ht.2 with ⟨⟨⟨name, arguments⟩, inner⟩, rfl⟩ | ⟨name, rfl⟩
  · exact Or.inl ⟨_, rfl⟩
  · exact Or.inr ⟨name, rfl⟩

theorem WellFormed.rename (hs : s.WellFormed) (hf : f.Names TypeSignature.endsClassName)
    (hNests : s.NestsSimply f) : (s.rename f).WellFormed where
  declares := hs.declares.rename hf hNests.typeParameters
    (closes_tail hs.parameters hs.returnType hs.throws) tail_rename_of_open
  parameters := by
    intro t ht
    obtain ⟨t, hMem, rfl⟩ := List.mem_map.mp ht
    exact TypeSignature.WellFormed.rename hf t (hs.parameters t hMem) (hNests.parameters t hMem)
  returnType := by
    intro t ht
    obtain ⟨t, hMem, rfl⟩ := Option.map_eq_some_iff.mp ht
    exact TypeSignature.WellFormed.rename hf t (hs.returnType t hMem) (hNests.returnType t hMem)
  throws := by
    intro t ht
    obtain ⟨t, hMem, rfl⟩ := List.mem_map.mp ht
    exact (hs.throws t hMem).rename hf (hNests.throws t hMem)

end MethodSignature

/-- A signature that has been read is written as it stood in the text, character for character. -/
theorem Signature.text_of_parse :
    (∀ s t, ClassSignature.parse s = .ok t → t.text = s) ∧
    (∀ s t, MethodSignature.parse s = .ok t → t.text = s) ∧
    ∀ s t, TypeSignature.parse s = .ok t → t.text = s := by
  refine ⟨fun s t h => ?_, fun s t h => ?_, fun s t h => ?_⟩
  · exact (ClassSignature.parse_eq_ok.mp h).2.symm
  · exact (MethodSignature.parse_eq_ok.mp h).2.symm
  · exact (TypeSignature.parse_eq_ok.mp h).2.symm

/-- A parameter with a bound in an interface only, and a wildcard. -/
def ClassSignature.generic : String :=
  "<T:Ljava/lang/Object;U::Ljava/lang/Comparable<-TU;>;>Ljava/util/AbstractList<TT;>;Ljava/io/Serializable;"

def MethodSignature.generic : String :=
  "(Ljava/util/Map<*Ljava/lang/String;>.Entry<TK;>;)V^TX;^Ljava/io/IOException;"

theorem Signature.text_of_parse_generic :
    (∃ t, ClassSignature.parse ClassSignature.generic = .ok t ∧ t.text = ClassSignature.generic) ∧
    (∃ t, MethodSignature.parse MethodSignature.generic = .ok t ∧
      t.text = MethodSignature.generic) ∧
    ∃ t, TypeSignature.parse "[TT;" = .ok t ∧ t.text = "[TT;" := by
  obtain ⟨hClass, hMethod, hType⟩ := Signature.text_of_parse
  obtain ⟨c, hc⟩ : ∃ t, ClassSignature.parse ClassSignature.generic = .ok t :=
    Outcome.exists_of_isSome (by decide +kernel)
  obtain ⟨m, hm⟩ : ∃ t, MethodSignature.parse MethodSignature.generic = .ok t :=
    Outcome.exists_of_isSome (by decide +kernel)
  obtain ⟨t, ht⟩ : ∃ t, TypeSignature.parse "[TT;" = .ok t :=
    Outcome.exists_of_isSome (by decide +kernel)
  exact ⟨⟨c, hc, hClass _ c hc⟩, ⟨m, hm, hMethod _ m hm⟩, ⟨t, ht, hType _ t ht⟩⟩

end Renaming
