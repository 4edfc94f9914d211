import Renaming.Proofs.Descriptor
import Renaming.Proofs.Signature.Type
import Renaming.Proofs.Text.Split

/-!
# Class names in signatures

A class type without nested classes names its class in full. Renaming substitutes these names; the
result is well formed again as long as every nested class has a simple name under its new outer
class.
-/

namespace Renaming

theorem nestedSimpleName_append (outer name : String) :
    nestedSimpleName outer (outer ++ "$" ++ name) = name := by
  rw [nestedSimpleName, Text.stripStart?_eq_some.mpr rfl]
  rfl

namespace TypeSignature

open Renaming.Parser

mutual

/-- The names of the class types without nested classes, in order. -/
def classNames : TypeSignature → List String
  | base _ => []
  | classType ⟨⟨name, arguments⟩, inner⟩ =>
    (if inner.isEmpty then [name] else []) ++ argumentNames arguments ++ innerNames inner
  | var _ => []
  | array element => element.classNames

def argumentNames : List (TypeArgument TypeSignature) → List String
  | [] => []
  | .any :: rest => argumentNames rest
  | .invariant type :: rest => type.classNames ++ argumentNames rest
  | .upper bound :: rest => bound.classNames ++ argumentNames rest
  | .lower bound :: rest => bound.classNames ++ argumentNames rest

def innerNames : List (ClassTypePart TypeSignature) → List String
  | [] => []
  | ⟨_, arguments⟩ :: rest => argumentNames arguments ++ innerNames rest

end

mutual

/-- Every nested class has a simple name under the new name of the class around it. -/
def NestsSimply (f : ClassRenaming) : TypeSignature → Prop
  | base _ => True
  | classType ⟨⟨name, arguments⟩, inner⟩ =>
    ArgumentsNestSimply f arguments ∧ InnerNestsSimply f name (f.apply name) inner
  | var _ => True
  | array element => element.NestsSimply f

def ArgumentsNestSimply (f : ClassRenaming) : List (TypeArgument TypeSignature) → Prop
  | [] => True
  | .any :: rest => ArgumentsNestSimply f rest
  | .invariant type :: rest => type.NestsSimply f ∧ ArgumentsNestSimply f rest
  | .upper bound :: rest => bound.NestsSimply f ∧ ArgumentsNestSimply f rest
  | .lower bound :: rest => bound.NestsSimply f ∧ ArgumentsNestSimply f rest

def InnerNestsSimply (f : ClassRenaming) (old new : String) :
    List (ClassTypePart TypeSignature) → Prop
  | [] => True
  | ⟨name, arguments⟩ :: rest =>
    let oldNested := old ++ "$" ++ name
    let newNested := (f oldNested).getD (new ++ "$" ++ name)
    Token endsIdentifier (nestedSimpleName new newNested) ∧ ArgumentsNestSimply f arguments ∧
      InnerNestsSimply f oldNested newNested rest

end

variable {f : ClassRenaming} {t : TypeSignature} {rest : List Char}

@[simp] theorem isReference_rename (t : TypeSignature) :
    (t.rename f).isReference = t.isReference := by
  cases t with
  | classType c =>
    obtain ⟨⟨name, arguments⟩, inner⟩ := c
    rfl
  | _ => rfl

mutual

theorem WellFormed.rename (hf : f.Names endsClassName) (t : TypeSignature) (ht : t.WellFormed)
    (hNests : t.NestsSimply f) : (t.rename f).WellFormed := by
  cases t with
  | base p => trivial
  | classType c =>
    obtain ⟨⟨name, arguments⟩, inner⟩ := c
    obtain ⟨hName, hArguments, hInner⟩ := ht
    exact ⟨hf.apply hName, ArgumentsWellFormed.rename hf arguments hArguments hNests.1,
      InnerWellFormed.rename hf inner hInner name (f.apply name) hNests.2⟩
  | var name => exact ht
  | array element => exact WellFormed.rename hf element ht hNests

theorem ArgumentsWellFormed.rename (hf : f.Names endsClassName)
    (as : List (TypeArgument TypeSignature)) (has : ArgumentsWellFormed as)
    (hNests : ArgumentsNestSimply f as) : ArgumentsWellFormed (renameArguments f as) := by
  cases as with
  | nil => trivial
  | cons a as =>
    cases a with
    | any => exact ArgumentsWellFormed.rename hf as has hNests
    | invariant type =>
      obtain ⟨⟨hKind, hType⟩, has⟩ := has
      exact ⟨⟨(isReference_rename type).trans hKind, WellFormed.rename hf type hType hNests.1⟩,
        ArgumentsWellFormed.rename hf as has hNests.2⟩
    | upper bound =>
      obtain ⟨⟨hKind, hBound⟩, has⟩ := has
      exact ⟨⟨(isReference_rename bound).trans hKind, WellFormed.rename hf bound hBound hNests.1⟩,
        ArgumentsWellFormed.rename hf as has hNests.2⟩
    | lower bound =>
      obtain ⟨⟨hKind, hBound⟩, has⟩ := has
      exact ⟨⟨(isReference_rename bound).trans hKind, WellFormed.rename hf bound hBound hNests.1⟩,
        ArgumentsWellFormed.rename hf as has hNests.2⟩

theorem InnerWellFormed.rename (hf : f.Names endsClassName)
    (ps : List (ClassTypePart TypeSignature)) (hps : InnerWellFormed ps) (old new : String)
    (hNests : InnerNestsSimply f old new ps) : InnerWellFormed (renameInner f old new ps) := by
  cases ps with
  | nil => trivial
  | cons p ps =>
    obtain ⟨name, arguments⟩ := p
    obtain ⟨-, hArguments, hps⟩ := hps
    obtain ⟨hSimple, hArgumentNests, hNests⟩ := hNests
    exact ⟨hSimple, ArgumentsWellFormed.rename hf arguments hArguments hArgumentNests,
      InnerWellFormed.rename hf ps hps _ _ hNests⟩

end

theorem isEmpty_renameInner (old new : String) (ps : List (ClassTypePart TypeSignature)) :
    (renameInner f old new ps).isEmpty = ps.isEmpty := by
  cases ps with
  | nil => rfl
  | cons p ps =>
    obtain ⟨name, arguments⟩ := p
    rfl

mutual

theorem classNames_rename (t : TypeSignature) :
    (t.rename f).classNames = t.classNames.map f.apply := by
  cases t with
  | base p => rfl
  | classType c =>
    obtain ⟨⟨name, arguments⟩, inner⟩ := c
    rw [TypeSignature.rename, classNames, classNames, isEmpty_renameInner,
      argumentNames_rename arguments, innerNames_rename inner, List.map_append, List.map_append]
    cases inner.isEmpty <;> rfl
  | var name => rfl
  | array element => exact classNames_rename element

theorem argumentNames_rename (as : List (TypeArgument TypeSignature)) :
    argumentNames (renameArguments f as) = (argumentNames as).map f.apply := by
  cases as with
  | nil => rfl
  | cons a as =>
    cases a with
    | any => exact argumentNames_rename as
    | invariant type =>
      rw [renameArguments, argumentNames, argumentNames, List.map_append, classNames_rename type,
        argumentNames_rename as]
    | upper bound =>
      rw [renameArguments, argumentNames, argumentNames, List.map_append, classNames_rename bound,
        argumentNames_rename as]
    | lower bound =>
      rw [renameArguments, argumentNames, argumentNames, List.map_append, classNames_rename bound,
        argumentNames_rename as]

theorem innerNames_rename (ps : List (ClassTypePart TypeSignature)) (old new : String) :
    innerNames (renameInner f old new ps) = (innerNames ps).map f.apply := by
  cases ps with
  | nil => rfl
  | cons p ps =>
    obtain ⟨name, arguments⟩ := p
    rw [renameInner, innerNames, innerNames, List.map_append, argumentNames_rename arguments,
      innerNames_rename ps]

end

/-- No character that may end a class name. -/
def Open (cs : List Char) : Prop := ∀ c ∈ cs, endsClassName c = false

/-- What stands from the first end of a class name on, if there is one, is the end of a class
type. -/
def Closes (cs : List Char) : Prop :=
  Open cs ∨ ∃ name arguments inner rest, Open name ∧ ArgumentsWellFormed arguments ∧
    InnerWellFormed inner ∧
      cs = name ++ angled arguments.isEmpty (argumentChars arguments) ++ innerChars inner ++
        ';' :: rest

theorem Open.append {front : List Char} (hFront : Open front) (h : Open rest) :
    Open (front ++ rest) :=
  List.forall_mem_append.mpr ⟨hFront, h⟩

theorem Closes.append {front : List Char} (hFront : Open front) (h : Closes rest) :
    Closes (front ++ rest) := by
  rcases h with hOpen | ⟨name, arguments, inner, rest, hName, hArguments, hInner, rfl⟩
  · exact Or.inl (hFront.append hOpen)
  · refine Or.inr ⟨front ++ name, arguments, inner, rest, hFront.append hName, hArguments, hInner,
      ?_⟩
    simp

theorem open_of_token {stop : Char → Bool} {name : String} (h : Token stop name)
    (hStop : ∀ c, stop c = false → endsClassName c = false) : Open name.toList :=
  (h.imp hStop).2

theorem endsClassName_of_identifier (c : Char) (h : endsIdentifier c = false) :
    endsClassName c = false := by
  simp only [endsIdentifier, endsClassName, Bool.or_eq_false_iff] at h ⊢
  tauto

theorem open_singleton {c : Char} (h : endsClassName c = false) : Open [c] := by
  intro d hd
  obtain rfl := List.mem_singleton.mp hd
  exact h

theorem Closes.cons {c : Char} (hc : endsClassName c = false) (h : Closes rest) :
    Closes (c :: rest) :=
  h.append (open_singleton hc)

/-- Since neither arguments nor an inner class start without the end of a class name, the name has
the first character. -/
theorem exists_eq_cons_of_eq {c : Char} (hc : endsClassName c = false) {name rest' : List Char}
    {arguments : List (TypeArgument TypeSignature)} {inner : List (ClassTypePart TypeSignature)}
    (hEq : c :: rest = name ++ angled arguments.isEmpty (argumentChars arguments) ++
      innerChars inner ++ ';' :: rest') : ∃ name', name = c :: name' := by
  cases name with
  | nil =>
    have hStop : ∀ d ∈ (angled arguments.isEmpty (argumentChars arguments) ++
        (innerChars inner ++ ';' :: rest')).head?, endsClassName d = true :=
      (afterPart_innerChars inner rest').stops (by decide)
    rw [List.nil_append, List.append_assoc] at hEq
    rw [← hEq] at hStop
    rw [hStop c rfl] at hc
    cases hc
  | cons d name =>
    cases hEq
    exact ⟨name, rfl⟩

theorem Closes.of_cons {c : Char} (hc : endsClassName c = false) (h : Closes (c :: rest)) :
    Closes rest := by
  rcases h with hOpen | ⟨name, arguments, inner, rest', hName, hArguments, hInner, hEq⟩
  · exact Or.inl (List.forall_mem_cons.mp hOpen).2
  · obtain ⟨name, rfl⟩ := exists_eq_cons_of_eq hc hEq
    cases hEq
    exact Or.inr ⟨name, arguments, inner, rest', (List.forall_mem_cons.mp hName).2, hArguments,
      hInner, rfl⟩

theorem open_letter (p : Primitive) : Open [p.letter] := by
  cases p <;> exact open_singleton rfl

theorem closes_chars (t : TypeSignature) (ht : t.WellFormed) (h : Closes rest) :
    Closes (t.chars ++ rest) := by
  cases t with
  | base p => exact h.append (open_letter p)
  | classType c =>
    obtain ⟨⟨name, arguments⟩, inner⟩ := c
    obtain ⟨hName, hArguments, hInner⟩ := ht
    refine Or.inr ⟨'L' :: name.toList, arguments, inner, rest, ?_, hArguments, hInner, ?_⟩
    · exact (open_singleton rfl).append hName.2
    · simp [chars]
  | var name =>
    refine Or.inr ⟨'T' :: name.toList, [], [], rest, ?_, trivial, trivial, ?_⟩
    · exact (open_singleton rfl).append (open_of_token ht endsClassName_of_identifier)
    · simp [chars, angled, innerChars]
  | array element =>
    exact Closes.cons rfl (closes_chars element ht h)

/-- A type without the end of a class name has no class to rename. -/
theorem rename_of_open (t : TypeSignature) (h : Open t.chars) : t.rename f = t := by
  have hEnd : endsClassName ';' = true := rfl
  cases t with
  | base p => rfl
  | classType c =>
    obtain ⟨⟨name, arguments⟩, inner⟩ := c
    have hOpen := h ';' (by simp [chars])
    rw [hEnd] at hOpen
    cases hOpen
  | var name => rfl
  | array element =>
    have hInside : Open element.chars := fun c hc => h c (List.mem_cons_of_mem _ hc)
    rw [TypeSignature.rename, rename_of_open element hInside]

theorem not_open_classType (c : ClassType) : ¬ Open c.chars := by
  intro h
  obtain ⟨⟨name, arguments⟩, inner⟩ := c
  have hOpen := h ';' (by simp [ClassTypeOf.chars, chars])
  cases hOpen

theorem reference_eq_none_of_open (h : Open ('L' :: rest)) :
    TypeSignature.reference ('L' :: rest) = none := by
  cases hParse : TypeSignature.reference ('L' :: rest) with
  | none => rfl
  | some r =>
    obtain ⟨t, rest'⟩ := r
    obtain ⟨⟨hKind, -⟩, hChars⟩ := exact_reference.eq_some.mp hParse
    rw [hChars] at h
    cases t with
    | base p => cases hKind
    | classType c => exact absurd (List.forall_mem_append.mp h).1 (not_open_classType c)
    | var name => simp [chars] at hChars
    | array element => simp [chars] at hChars

theorem closes_flatMap {α : Type} {g : α → List Char} {W : α → Prop}
    (hg : ∀ a, W a → ∀ {rest}, Closes rest → Closes (g a ++ rest)) (as : List α)
    (has : ∀ a ∈ as, W a) (h : Closes rest) : Closes (as.flatMap g ++ rest) := by
  induction as with
  | nil => exact h
  | cons a as ih =>
    obtain ⟨ha, has⟩ := List.forall_mem_cons.mp has
    rw [List.flatMap_cons, List.append_assoc]
    exact hg a ha (ih has)

theorem map_of_open {α : Type} {g : α → List Char} {r : α → α} (hr : ∀ a, Open (g a) → r a = a)
    (as : List α) (h : Open (as.flatMap g)) : as.map r = as := by
  induction as with
  | nil => rfl
  | cons a as ih =>
    rw [List.flatMap_cons] at h
    obtain ⟨ha, has⟩ := List.forall_mem_append.mp h
    rw [List.map_cons, hr a ha, ih has]

theorem exists_reference {c : Char} (hc : endsClassName c = false) (h : Closes (c :: rest))
    (hEnds : ¬ Open (c :: rest)) : ∃ r, TypeSignature.reference ('L' :: c :: rest) = some r := by
  rcases h with hOpen | ⟨name, arguments, inner, rest', hName, hArguments, hInner, hEq⟩
  · exact absurd hOpen hEnds
  -- The end of the class name is that of a class type, whose name is everything before it.
  · have hSome : name ≠ [] := by
      obtain ⟨name', rfl⟩ := exists_eq_cons_of_eq hc hEq
      exact List.cons_ne_nil c name'
    have hToken : Token endsClassName (String.ofList name) := by
      rw [Token, String.toList_ofList]
      exact ⟨hSome, hName⟩
    refine ⟨(classType ⟨⟨String.ofList name, arguments⟩, inner⟩, rest'), ?_⟩
    rw [exact_reference.eq_some]
    refine ⟨⟨rfl, hToken, hArguments, hInner⟩, ?_⟩
    rw [hEq]
    simp [chars]

/-- Where no type can be read after all, no class name has an end. -/
theorem open_of_reference_eq_none {c : Char} (hc : endsClassName c = false)
    (h : Closes ('L' :: c :: rest))
    (hNone : TypeSignature.reference ('L' :: c :: rest) = none) : Open ('L' :: c :: rest) := by
  have hRest : Open (c :: rest) := by
    by_contra hEnds
    obtain ⟨r, hr⟩ := exists_reference hc (h.of_cons rfl) hEnds
    rw [hNone] at hr
    cases hr
  exact (open_singleton rfl).append hRest

end TypeSignature

end Renaming
