import Renaming.Proofs.Signature.Declaration
import Renaming.Proofs.Text.Name

/-!
# The grammar of signatures

Class files spell a signature with identifiers, which are free of all characters that have a meaning in
signatures. What is spelled in this way is read back as it was written, with one exception: a type
parameter without bounds takes the next parameter for its bound if the name of that one starts like a
class type, and any later type ends it.
-/

namespace Renaming

open Renaming.Parser

namespace TypeSignature

def IsIdentifier (name : String) : Prop :=
  Text.FreeOf ['.', ';', '[', '/', '<', '>', ':'] name

instance (name : String) : Decidable (IsIdentifier name) :=
  inferInstanceAs (Decidable (Text.FreeOf _ name))

theorem isIdentifier_iff {name : String} : IsIdentifier name ↔ Token endsIdentifier name :=
  Text.freeOf_iff_token fun c => by simp [endsIdentifier, or_assoc]

mutual

/-- All names are identifiers, with slashes between them for an outermost class, and arguments are
reference types. -/
def Grammatical : TypeSignature → Prop
  | base _ => True
  | classType ⟨⟨name, arguments⟩, inner⟩ =>
    Text.Path IsIdentifier name ∧ ArgumentsGrammatical arguments ∧ InnerGrammatical inner
  | var name => IsIdentifier name
  | array element => element.Grammatical

def ArgumentsGrammatical : List (TypeArgument TypeSignature) → Prop
  | [] => True
  | .any :: rest => ArgumentsGrammatical rest
  | .invariant type :: rest =>
    (type.isReference = true ∧ type.Grammatical) ∧ ArgumentsGrammatical rest
  | .upper bound :: rest =>
    (bound.isReference = true ∧ bound.Grammatical) ∧ ArgumentsGrammatical rest
  | .lower bound :: rest =>
    (bound.isReference = true ∧ bound.Grammatical) ∧ ArgumentsGrammatical rest

def InnerGrammatical : List (ClassTypePart TypeSignature) → Prop
  | [] => True
  | ⟨name, arguments⟩ :: rest =>
    IsIdentifier name ∧ ArgumentsGrammatical arguments ∧ InnerGrammatical rest

end

mutual

theorem Grammatical.wellFormed (t : TypeSignature) (ht : t.Grammatical) : t.WellFormed := by
  cases t with
  | base p => trivial
  | classType c =>
    obtain ⟨⟨name, arguments⟩, inner⟩ := c
    obtain ⟨hName, hArguments, hInner⟩ := ht
    refine ⟨hName.token (fun part hPart => ?_) rfl,
      ArgumentsGrammatical.wellFormed arguments hArguments, InnerGrammatical.wellFormed inner hInner⟩
    exact (isIdentifier_iff.mp hPart).imp endsClassName_of_identifier
  | var name => exact isIdentifier_iff.mp ht
  | array element => exact Grammatical.wellFormed element ht

theorem ArgumentsGrammatical.wellFormed (as : List (TypeArgument TypeSignature))
    (has : ArgumentsGrammatical as) : ArgumentsWellFormed as := by
  cases as with
  | nil => trivial
  | cons a as =>
    cases a with
    | any => exact ArgumentsGrammatical.wellFormed as has
    | invariant type =>
      obtain ⟨⟨hKind, hType⟩, has⟩ := has
      exact ⟨⟨hKind, Grammatical.wellFormed type hType⟩, ArgumentsGrammatical.wellFormed as has⟩
    | upper bound =>
      obtain ⟨⟨hKind, hBound⟩, has⟩ := has
      exact ⟨⟨hKind, Grammatical.wellFormed bound hBound⟩, ArgumentsGrammatical.wellFormed as has⟩
    | lower bound =>
      obtain ⟨⟨hKind, hBound⟩, has⟩ := has
      exact ⟨⟨hKind, Grammatical.wellFormed bound hBound⟩, ArgumentsGrammatical.wellFormed as has⟩

theorem InnerGrammatical.wellFormed (ps : List (ClassTypePart TypeSignature))
    (hps : InnerGrammatical ps) : InnerWellFormed ps := by
  cases ps with
  | nil => trivial
  | cons p ps =>
    obtain ⟨name, arguments⟩ := p
    obtain ⟨hName, hArguments, hps⟩ := hps
    exact ⟨isIdentifier_iff.mp hName, ArgumentsGrammatical.wellFormed arguments hArguments,
      InnerGrammatical.wellFormed ps hps⟩

end

def isNamed : TypeSignature → Bool
  | base _ => false
  | classType _ => true
  | var _ => true
  | array element => element.isNamed

theorem open_cons_iff {c : Char} {cs : List Char} (hc : endsClassName c = false) :
    Open (c :: cs) ↔ Open cs :=
  List.forall_mem_cons.trans (and_iff_right hc)

theorem open_append_iff {front rest : List Char} :
    Open (front ++ rest) ↔ Open front ∧ Open rest :=
  List.forall_mem_append

theorem open_flatMap_iff {α : Type} {g : α → List Char} {as : List α} :
    Open (as.flatMap g) ↔ ∀ a ∈ as, Open (g a) := by
  simp only [Open, List.mem_flatMap, forall_exists_index, and_imp]
  exact ⟨fun h a ha c hc => h c a ha hc, fun h c a ha hc => h a ha c hc⟩

/-- A class name ends in what a type is written as exactly if the type has a name. -/
theorem open_chars_iff (t : TypeSignature) : Open t.chars ↔ t.isNamed = false := by
  cases t with
  | base p => exact ⟨fun _ => rfl, fun _ => open_letter p⟩
  | classType c => exact ⟨fun h => absurd h (not_open_classType c), fun h => nomatch h⟩
  | var name =>
    refine ⟨fun h => ?_, fun h => nomatch h⟩
    cases h ';' (by simp [chars])
  | array element => rw [isNamed, ← open_chars_iff element, chars, open_cons_iff rfl]

theorem open_types_iff {g : TypeSignature → List Char} (hg : ∀ t, Open (g t) ↔ Open t.chars)
    (ts : List TypeSignature) : Open (ts.flatMap g) ↔ ∀ t ∈ ts, t.isNamed = false :=
  open_flatMap_iff.trans (forall₂_congr fun t _ => (hg t).trans t.open_chars_iff)

end TypeSignature

namespace TypeParameter

def types (p : TypeParameter) : List TypeSignature := p.classBound.toList ++ p.interfaceBounds

structure Grammatical (p : TypeParameter) : Prop where
  name : TypeSignature.IsIdentifier p.name
  types : ∀ t ∈ p.types, t.isReference = true ∧ t.Grammatical

/-- A parameter without bounds stands before one whose name starts like a class type, and the bounds from
there on, or the types after the parameters, have a name in them. -/
def Hidden (ps : List TypeParameter) (types : List TypeSignature) : Prop :=
  ∃ before p q after, ps = before ++ p :: q :: after ∧ p.types = [] ∧
    Text.startsWith 'L' q.name = true ∧
      ∃ t ∈ (q :: after).flatMap TypeParameter.types ++ types, t.isNamed = true

variable {p : TypeParameter} {ps : List TypeParameter} {types : List TypeSignature}
  {tail : List Char}

theorem Grammatical.wellFormed (hp : p.Grammatical) : p.WellFormed := by
  have hTypes : ∀ t ∈ p.types, t.isReference = true ∧ t.WellFormed := fun t ht =>
    ⟨(hp.types t ht).1, (hp.types t ht).2.wellFormed⟩
  obtain ⟨hClass, hInterfaces⟩ := List.forall_mem_append.mp hTypes
  exact ⟨TypeSignature.isIdentifier_iff.mp hp.name,
    fun b hb => hClass b (Option.mem_toList.mpr hb), hInterfaces⟩

theorem open_chars_iff (hp : p.WellFormed) :
    TypeSignature.Open p.chars ↔ ∀ t ∈ p.types, t.isNamed = false := by
  have hName : TypeSignature.Open p.name.toList :=
    TypeSignature.open_of_token hp.1 TypeSignature.endsClassName_of_identifier
  have hClass : TypeSignature.Open (p.classBound.elim [] TypeSignature.chars) ↔
      ∀ t ∈ p.classBound.toList, t.isNamed = false := by
    cases p.classBound with
    | none => simp [TypeSignature.Open]
    | some b => simp [TypeSignature.open_chars_iff]
  have hInterfaces : TypeSignature.Open (p.interfaceBounds.flatMap fun b => ':' :: b.chars) ↔
      ∀ t ∈ p.interfaceBounds, t.isNamed = false :=
    TypeSignature.open_types_iff (fun _ => TypeSignature.open_cons_iff rfl) _
  rw [types, List.forall_mem_append, ← hClass, ← hInterfaces, chars, List.append_assoc,
    TypeSignature.open_append_iff, List.cons_append, TypeSignature.open_cons_iff rfl,
    TypeSignature.open_append_iff]
  exact and_iff_right hName

theorem open_follow_iff (hps : ∀ p ∈ ps, p.WellFormed)
    (hTail : TypeSignature.Open tail ↔ ∀ t ∈ types, t.isNamed = false) :
    TypeSignature.Open (follow ps tail) ↔
      ∀ t ∈ ps.flatMap TypeParameter.types ++ types, t.isNamed = false := by
  have hParameters : TypeSignature.Open (ps.flatMap chars) ↔
      ∀ t ∈ ps.flatMap TypeParameter.types, t.isNamed = false := by
    rw [TypeSignature.open_flatMap_iff, List.forall_mem_flatMap]
    exact forall₂_congr fun p hp => open_chars_iff (hps p hp)
  rw [List.forall_mem_append, ← hTail, ← hParameters, follow, TypeSignature.open_append_iff,
    TypeSignature.open_cons_iff rfl]

theorem hidden_cons : Hidden (p :: ps) types ↔
    (p.types = [] ∧ ∃ q ∈ ps.head?, Text.startsWith 'L' q.name = true ∧
      ∃ t ∈ ps.flatMap TypeParameter.types ++ types, t.isNamed = true) ∨ Hidden ps types := by
  constructor
  · rintro ⟨before, p', q, after, hSplit, hNone, hStart, hNamed⟩
    cases before with
    | nil =>
      cases hSplit
      exact Or.inl ⟨hNone, q, rfl, hStart, hNamed⟩
    | cons _ before =>
      cases hSplit
      exact Or.inr ⟨before, p', q, after, rfl, hNone, hStart, hNamed⟩
  · rintro (⟨hNone, q, hq, hStart, hNamed⟩ | ⟨before, p', q, after, rfl, hNone, hStart, hNamed⟩)
    · obtain ⟨after, rfl⟩ := List.head?_eq_some_iff.mp hq
      exact ⟨[], p, q, after, rfl, hNone, hStart, hNamed⟩
    · exact ⟨p :: before, p', q, after, rfl, hNone, hStart, hNamed⟩

theorem not_hidden_nil : ¬ Hidden [] types := by
  rintro ⟨before, p, q, after, hSplit, -⟩
  simp at hSplit

/-- The parameter ends where it should unless it has no bounds and hides the next one. -/
theorem endsBefore_follow_iff (hps : ∀ p ∈ ps, p.WellFormed) (hCloses : TypeSignature.Closes tail)
    (hTail : TypeSignature.Open tail ↔ ∀ t ∈ types, t.isNamed = false) :
    p.EndsBefore (follow ps tail) ↔ ¬ (p.types = [] ∧ ∃ q ∈ ps.head?,
      Text.startsWith 'L' q.name = true ∧
        ∃ t ∈ ps.flatMap TypeParameter.types ++ types, t.isNamed = true) := by
  have hBounds : p.types = [] ↔ p.classBound = none ∧ p.interfaceBounds = [] := by
    rw [TypeParameter.types, List.append_eq_nil_iff, Option.toList_eq_nil_iff]
  have hOpen : TypeSignature.Open (follow ps tail) ↔
      ¬ ∃ t ∈ ps.flatMap TypeParameter.types ++ types, t.isNamed = true := by
    rw [open_follow_iff hps hTail]
    simp
  have hNone : TypeSignature.reference (follow ps tail) = none ↔ ∀ q ∈ ps.head?,
      Text.startsWith 'L' q.name = true → TypeSignature.Open (follow ps tail) :=
    ⟨open_of_reference_follow hps hCloses,
      reference_follow_of_open fun q hq => (hps q (List.mem_of_mem_head? hq)).1⟩
  rw [EndsBefore, ← and_imp, ← hBounds, hNone, hOpen]
  constructor
  · rintro ⟨-, hEnd⟩ ⟨hEmpty, q, hq, hStart, hNamed⟩
    exact hEnd hEmpty q hq hStart hNamed
  · intro hEnd
    exact ⟨char_seqRight_eq_none (head?_follow hps),
      fun hEmpty q hq hStart hNamed => hEnd ⟨hEmpty, q, hq, hStart, hNamed⟩⟩

theorem repeats_follow_iff (hps : ∀ p ∈ ps, p.WellFormed) (hCloses : TypeSignature.Closes tail)
    (hTail : TypeSignature.Open tail ↔ ∀ t ∈ types, t.isNamed = false) :
    Repeats parseNext ps (follow ps tail) ('>' :: tail) ↔ ¬ Hidden ps types := by
  induction ps with
  | nil => exact iff_of_true (.done parseNext_eq_none) not_hidden_nil
  | cons p ps ih =>
    obtain ⟨hp, hps⟩ := List.forall_mem_cons.mp hps
    rw [repeats_follow_cons, endsBefore_follow_iff hps hCloses hTail, ih hps, hidden_cons, not_or]
    exact and_iff_right hp

/-- Type parameters are read back if none of them is hidden. -/
theorem declares_iff (hps : ∀ p ∈ ps, p.WellFormed) (hCloses : TypeSignature.Closes tail)
    (hTail : TypeSignature.Open tail ↔ ∀ t ∈ types, t.isNamed = false) :
    Declares ps tail ↔ ¬ Hidden ps types := by
  by_cases hEmpty : ps = []
  · subst hEmpty
    exact iff_of_true (fun h => absurd rfl h) not_hidden_nil
  · rw [Declares, repeats_follow_iff hps hCloses hTail]
    exact forall_prop_of_true hEmpty

end TypeParameter

namespace ClassSignature

variable {s : ClassSignature}

def types (s : ClassSignature) : List TypeSignature :=
  (s.superclass :: s.interfaces).map .classType

structure Grammatical (s : ClassSignature) : Prop where
  typeParameters : ∀ p ∈ s.typeParameters, p.Grammatical
  types : ∀ t ∈ s.types, t.Grammatical

theorem open_tail_iff (s : ClassSignature) :
    TypeSignature.Open s.tail ↔ ∀ t ∈ s.types, t.isNamed = false := by
  refine iff_of_false s.not_open_tail fun h => ?_
  cases h (.classType s.superclass) List.mem_cons_self

theorem wellFormed_iff (hs : s.Grammatical) :
    s.WellFormed ↔ ¬ TypeParameter.Hidden s.typeParameters s.types := by
  obtain ⟨hSuper, hInterfaces⟩ := List.forall_mem_cons.mp hs.types
  have hSuper' := hSuper.wellFormed
  have hInterfaces' : ∀ c ∈ s.interfaces, (TypeSignature.classType c).WellFormed := fun c hc =>
    (hInterfaces _ (List.mem_map_of_mem hc)).wellFormed
  rw [← TypeParameter.declares_iff (fun p hp => (hs.typeParameters p hp).wellFormed)
    (closes_tail hSuper' hInterfaces') s.open_tail_iff]
  exact ⟨fun h => h.declares, fun h => ⟨h, hSuper', hInterfaces'⟩⟩

end ClassSignature

namespace MethodSignature

variable {s : MethodSignature}

def types (s : MethodSignature) : List TypeSignature :=
  s.parameters ++ s.returnType.toList ++ s.throws

structure Grammatical (s : MethodSignature) : Prop where
  typeParameters : ∀ p ∈ s.typeParameters, p.Grammatical
  types : ∀ t ∈ s.types, t.Grammatical
  throws : ∀ t ∈ s.throws, (∃ c, t = .classType c) ∨ ∃ name, t = .var name

theorem open_tail_iff (s : MethodSignature) :
    TypeSignature.Open s.tail ↔ ∀ t ∈ s.types, t.isNamed = false := by
  have hReturn : TypeSignature.Open (s.returnType.elim ['V'] TypeSignature.chars) ↔
      ∀ t ∈ s.returnType.toList, t.isNamed = false := by
    cases s.returnType with
    | none => exact iff_of_true (TypeSignature.open_singleton rfl) (by simp)
    | some t => simp [TypeSignature.open_chars_iff]
  have hParameters := TypeSignature.open_types_iff (fun _ => Iff.rfl) s.parameters
  have hThrows : TypeSignature.Open (s.throws.flatMap fun t => '^' :: t.chars) ↔
      ∀ t ∈ s.throws, t.isNamed = false :=
    TypeSignature.open_types_iff (fun _ => TypeSignature.open_cons_iff rfl) _
  rw [types, List.forall_mem_append, List.forall_mem_append, ← hParameters, ← hReturn, ← hThrows,
    tail, TypeSignature.open_append_iff, TypeSignature.open_append_iff,
    TypeSignature.open_cons_iff rfl, TypeSignature.open_cons_iff rfl]

theorem wellFormed_iff (hs : s.Grammatical) :
    s.WellFormed ↔ ¬ TypeParameter.Hidden s.typeParameters s.types := by
  obtain ⟨hBefore, hThrown⟩ := List.forall_mem_append.mp hs.types
  obtain ⟨hParameters, hReturn⟩ := List.forall_mem_append.mp hBefore
  have hParameters' : ∀ t ∈ s.parameters, t.WellFormed := fun t ht =>
    (hParameters t ht).wellFormed
  have hReturn' : ∀ t ∈ s.returnType, t.WellFormed := fun t ht =>
    (hReturn t (Option.mem_toList.mpr ht)).wellFormed
  have hThrown' : ∀ t ∈ s.throws, IsThrown t := fun t ht =>
    ⟨(hThrown t ht).wellFormed, hs.throws t ht⟩
  rw [← TypeParameter.declares_iff (fun p hp => (hs.typeParameters p hp).wellFormed)
    (closes_tail hParameters' hReturn' hThrown') s.open_tail_iff]
  exact ⟨fun h => h.declares, fun h => ⟨h, hParameters', hReturn', hThrown'⟩⟩

end MethodSignature

/-- What is written by the grammar is read back exactly if no type parameter is hidden. -/
theorem Signature.parse_text_iff (c : ClassSignature) (m : MethodSignature) (t : TypeSignature) :
    (c.Grammatical →
      (ClassSignature.parse c.text = .ok c ↔ ¬ TypeParameter.Hidden c.typeParameters c.types)) ∧
    (m.Grammatical →
      (MethodSignature.parse m.text = .ok m ↔ ¬ TypeParameter.Hidden m.typeParameters m.types)) ∧
    (t.Grammatical → TypeSignature.parse t.text = .ok t) := by
  refine ⟨fun hc => ?_, fun hm => ?_, fun ht => ?_⟩
  · rw [ClassSignature.parse_eq_ok, ← ClassSignature.wellFormed_iff hc]
    exact and_iff_left rfl
  · rw [MethodSignature.parse_eq_ok, ← MethodSignature.wellFormed_iff hm]
    exact and_iff_left rfl
  · exact TypeSignature.parse_eq_ok.mpr ⟨ht.wellFormed, rfl⟩

def ClassTypeOf.plain (name : String) : ClassType := ⟨⟨name, []⟩, []⟩

theorem ClassTypeOf.grammatical_plain {name : String}
    (h : Text.Path TypeSignature.IsIdentifier name) :
    (TypeSignature.classType (plain name)).Grammatical :=
  ⟨h, trivial, trivial⟩

theorem TypeSignature.path_object : Text.Path IsIdentifier "java/lang/Object" :=
  ⟨["java", "lang", "Object"], by decide, by decide, by decide⟩

/-- A parameter without bounds before one that has a bound and does not start like a class type. -/
def ClassSignature.bounded : ClassSignature :=
  ⟨[⟨"T", none, []⟩, ⟨"U", none, [.classType (.plain "java/lang/Object")]⟩],
    .plain "java/lang/Object", []⟩

def MethodSignature.nameless : MethodSignature :=
  ⟨[⟨"T", none, []⟩, ⟨"L", none, []⟩], [.array (.base .int)], none, []⟩

theorem ClassSignature.grammatical_bounded : bounded.Grammatical where
  typeParameters := by
    have hObject := ClassTypeOf.grammatical_plain TypeSignature.path_object
    refine List.forall_mem_cons.mpr ⟨⟨by decide, List.forall_mem_nil _⟩, ?_⟩
    exact List.forall_mem_singleton.mpr ⟨by decide, List.forall_mem_singleton.mpr ⟨rfl, hObject⟩⟩
  types := List.forall_mem_singleton.mpr
    (ClassTypeOf.grammatical_plain TypeSignature.path_object)

theorem MethodSignature.grammatical_nameless : nameless.Grammatical where
  typeParameters := List.forall_mem_cons.mpr ⟨⟨by decide, List.forall_mem_nil _⟩,
    List.forall_mem_singleton.mpr ⟨by decide, List.forall_mem_nil _⟩⟩
  types := List.forall_mem_singleton.mpr trivial
  throws := List.forall_mem_nil _

/-- Both are read back, the second although the parameter that comes last starts like a class type. -/
theorem Signature.parse_text_bounded :
    (ClassSignature.bounded.Grammatical ∧
      ¬ TypeParameter.Hidden ClassSignature.bounded.typeParameters ClassSignature.bounded.types ∧
      ClassSignature.parse "<T:U::Ljava/lang/Object;>Ljava/lang/Object;" = .ok .bounded) ∧
    (MethodSignature.nameless.Grammatical ∧
      ¬ TypeParameter.Hidden MethodSignature.nameless.typeParameters
        MethodSignature.nameless.types ∧
      MethodSignature.parse "<T:L:>([I)V" = .ok .nameless) ∧
    (TypeSignature.array (.var "T")).Grammatical ∧
      TypeSignature.parse "[TT;" = .ok (.array (.var "T")) := by
  obtain ⟨hClass, hMethod, hField⟩ :=
    Signature.parse_text_iff .bounded .nameless (.array (.var "T"))
  have hBounded : ¬ TypeParameter.Hidden ClassSignature.bounded.typeParameters
      ClassSignature.bounded.types := by
    rw [ClassSignature.bounded, TypeParameter.hidden_cons, TypeParameter.hidden_cons]
    rintro (⟨-, q, hq, hStart, -⟩ | ⟨hNone, -⟩ | hRest)
    · cases hq
      cases hStart
    · cases hNone
    · exact TypeParameter.not_hidden_nil hRest
  have hNameless : ¬ TypeParameter.Hidden MethodSignature.nameless.typeParameters
      MethodSignature.nameless.types := by
    rw [MethodSignature.nameless, TypeParameter.hidden_cons, TypeParameter.hidden_cons]
    rintro (⟨-, q, -, -, t, ht, hNamed⟩ | ⟨-, q, hq, -⟩ | hRest)
    · obtain rfl : t = .array (.base .int) := List.mem_singleton.mp ht
      cases hNamed
    · cases hq
    · exact TypeParameter.not_hidden_nil hRest
  have hVar : (TypeSignature.array (.var "T")).Grammatical := by
    change TypeSignature.IsIdentifier "T"
    decide
  exact ⟨⟨ClassSignature.grammatical_bounded, hBounded,
      (hClass ClassSignature.grammatical_bounded).mpr hBounded⟩,
    ⟨MethodSignature.grammatical_nameless, hNameless,
      (hMethod MethodSignature.grammatical_nameless).mpr hNameless⟩, hVar, hField hVar⟩

def ClassSignature.shadowed : ClassSignature :=
  ⟨[⟨"T", none, []⟩, ⟨"L", some (.classType (.plain "java/lang/Object")), []⟩],
    .plain "java/lang/Object", []⟩

/-- The name and the bound of the second parameter are read as a bound of the first, which is the only
one then. -/
def ClassSignature.misread : ClassSignature :=
  ⟨[⟨"T", some (.classType (.plain ":Ljava/lang/Object")), []⟩], .plain "java/lang/Object", []⟩

theorem ClassSignature.wellFormed_misread : misread.WellFormed := by
  have hObject := (ClassTypeOf.grammatical_plain TypeSignature.path_object).wellFormed
  have hBound : (TypeSignature.classType (.plain ":Ljava/lang/Object")).WellFormed :=
    ⟨by decide, trivial, trivial⟩
  refine ⟨fun _ => TypeParameter.repeats_follow_cons.mpr ⟨⟨by decide, ?_, List.forall_mem_nil _⟩,
    ⟨char_seqRight_eq_none (by decide), fun h => nomatch h⟩, .done TypeParameter.parseNext_eq_none⟩,
      hObject, List.forall_mem_nil _⟩
  rintro _ ⟨⟩
  exact ⟨rfl, hBound⟩

theorem ClassSignature.parse_shadowed : shadowed.Grammatical ∧
    ClassSignature.parse shadowed.text = .ok misread ∧ misread ≠ shadowed := by
  have hObject := ClassTypeOf.grammatical_plain TypeSignature.path_object
  refine ⟨⟨?_, List.forall_mem_singleton.mpr hObject⟩,
    ClassSignature.parse_eq_ok.mpr ⟨wellFormed_misread, by decide +kernel⟩, ?_⟩
  · refine List.forall_mem_cons.mpr ⟨⟨by decide, List.forall_mem_nil _⟩, ?_⟩
    exact List.forall_mem_singleton.mpr ⟨by decide, List.forall_mem_singleton.mpr ⟨rfl, hObject⟩⟩
  · intro hSame
    cases congrArg (fun s => s.typeParameters.length) hSame

end Renaming
