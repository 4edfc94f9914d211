import Renaming.Proofs.Signature.Declaration

/-!
# Class names in the signatures of an attribute

The three kinds of signatures name classes in the same way. Renaming a signature renames these classes
and leaves everything that it writes readable.
-/

namespace Renaming

namespace ClassSignature

def classNames (s : ClassSignature) : List String :=
  s.typeParameters.flatMap TypeParameter.classNames ++
    (s.superclass :: s.interfaces).flatMap fun c => (TypeSignature.classType c).classNames

end ClassSignature

namespace MethodSignature

def classNames (s : MethodSignature) : List String :=
  s.typeParameters.flatMap TypeParameter.classNames ++
    (s.parameters ++ s.returnType.toList ++ s.throws).flatMap TypeSignature.classNames

end MethodSignature

section Rename

variable {f : ClassRenaming}

theorem flatMap_rename {α : Type} {names : α → List String} {r : α → α}
    (h : ∀ a, names (r a) = (names a).map f.apply) (as : List α) :
    (as.map r).flatMap names = (as.flatMap names).map f.apply := by
  induction as with
  | nil => rfl
  | cons a as ih => rw [List.map_cons, List.flatMap_cons, List.flatMap_cons, List.map_append, h a, ih]

theorem TypeParameter.classNames_rename (p : TypeParameter) :
    (p.rename f).classNames = p.classNames.map f.apply := by
  have hBounds : (p.rename f).classBound.toList ++ (p.rename f).interfaceBounds =
      (p.classBound.toList ++ p.interfaceBounds).map (TypeSignature.rename f) := by
    rw [List.map_append, TypeParameter.rename]
    cases p.classBound <;> rfl
  rw [classNames, classNames, hBounds, flatMap_rename TypeSignature.classNames_rename]

theorem ClassSignature.classNames_rename (s : ClassSignature) :
    (s.rename f).classNames = s.classNames.map f.apply := by
  have hTypes : (s.rename f).superclass :: (s.rename f).interfaces =
      (s.superclass :: s.interfaces).map (ClassTypeOf.rename f) := rfl
  have hClass : ∀ c : ClassType, (TypeSignature.classType (c.rename f)).classNames =
      (TypeSignature.classType c).classNames.map f.apply :=
    fun c => TypeSignature.classNames_rename (.classType c)
  rw [classNames, classNames, hTypes, flatMap_rename hClass, List.map_append, ClassSignature.rename,
    flatMap_rename TypeParameter.classNames_rename]

theorem MethodSignature.classNames_rename (s : MethodSignature) :
    (s.rename f).classNames = s.classNames.map f.apply := by
  have hTypes : (s.rename f).parameters ++ (s.rename f).returnType.toList ++ (s.rename f).throws =
      (s.parameters ++ s.returnType.toList ++ s.throws).map (TypeSignature.rename f) := by
    rw [List.map_append, List.map_append, MethodSignature.rename]
    cases s.returnType <;> rfl
  rw [classNames, classNames, hTypes, flatMap_rename TypeSignature.classNames_rename, List.map_append,
    MethodSignature.rename, flatMap_rename TypeParameter.classNames_rename]

end Rename

namespace SignatureKind

/-- The classes that a signature names in full, in order; none if it is no signature. -/
def classNames (text : String) : SignatureKind → List String
  | ofClass => (ClassSignature.parse text).toOption.elim [] ClassSignature.classNames
  | ofMethod => (MethodSignature.parse text).toOption.elim [] MethodSignature.classNames
  | ofField => (TypeSignature.parse text).toOption.elim [] TypeSignature.classNames

/-- Every nested class in the signature has a simple name after renaming. -/
def NestsSimply (f : ClassRenaming) (text : String) : SignatureKind → Prop
  | ofClass => ∀ s, ClassSignature.parse text = .ok s → s.NestsSimply f
  | ofMethod => ∀ s, MethodSignature.parse text = .ok s → s.NestsSimply f
  | ofField => ∀ t, TypeSignature.parse text = .ok t → t.NestsSimply f

variable {f : ClassRenaming} {kind : SignatureKind} {a b : String}

theorem classNames_of_rename (hf : f.Names TypeSignature.endsClassName)
    (hNests : kind.NestsSimply f a) (h : kind.rename f a = .ok b) :
    kind.classNames b = (kind.classNames a).map f.apply := by
  cases kind with
  | ofClass =>
    obtain ⟨s, hParse, h⟩ := Outcome.bind_eq_ok.mp h
    cases h
    have hWellFormed := (ClassSignature.parse_eq_ok.mp hParse).1
    have hNew := ClassSignature.parse_eq_ok.mpr ⟨hWellFormed.rename hf (hNests s hParse), rfl⟩
    rw [classNames, classNames, hParse, hNew]
    exact s.classNames_rename
  | ofMethod =>
    obtain ⟨s, hParse, h⟩ := Outcome.bind_eq_ok.mp h
    cases h
    have hWellFormed := (MethodSignature.parse_eq_ok.mp hParse).1
    have hNew := MethodSignature.parse_eq_ok.mpr ⟨hWellFormed.rename hf (hNests s hParse), rfl⟩
    rw [classNames, classNames, hParse, hNew]
    exact s.classNames_rename
  | ofField =>
    obtain ⟨t, hParse, h⟩ := Outcome.bind_eq_ok.mp h
    cases h
    have hWellFormed := (TypeSignature.parse_eq_ok.mp hParse).1
    have hNew := TypeSignature.parse_eq_ok.mpr
      ⟨TypeSignature.WellFormed.rename hf t hWellFormed (hNests t hParse), rfl⟩
    rw [classNames, classNames, hParse, hNew]
    exact t.classNames_rename

end SignatureKind

end Renaming
