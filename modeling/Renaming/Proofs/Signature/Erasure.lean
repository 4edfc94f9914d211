import Renaming.Proofs.RenameTable.Answers
import Renaming.Proofs.Signature.Names

/-!
# Erasure

Without its type arguments a type of a signature is the type of a descriptor, in which a nested class has
the name that joins it to the classes around it with dollar signs. A signature and its erasure are renamed
by the same table, but a nested class that has no entry of its own goes along with the class around it in
a signature, and keeps its name in a descriptor.
-/

namespace Renaming

open Renaming.Parser

namespace ClassTypeOf

/-- The name of the innermost class. -/
def binaryName (c : ClassType) : String :=
  c.inner.foldl (fun outer p => outer ++ "$" ++ p.name) c.head.name

/-- The old and the new name of a class nested in the one whose old and new name are given. -/
def nestedNames (f : ClassRenaming) (names : String × String) (p : ClassTypePart TypeSignature) :
    String × String :=
  (names.1 ++ "$" ++ p.name, (f (names.1 ++ "$" ++ p.name)).getD (names.2 ++ "$" ++ p.name))

/-- The new name of the innermost class: that of its entry, or else the one that it has inside the class
around it. -/
def newName (f : ClassRenaming) (c : ClassType) : String :=
  (c.inner.foldl (nestedNames f) (c.head.name, f.apply c.head.name)).2

def around? (c : ClassType) : Option ClassType :=
  if c.inner.isEmpty then none else some ⟨c.head, c.inner.dropLast⟩

/-- An entry for a nested class gives it a simple name inside the class around it. -/
def InnerNestsInside (f : ClassRenaming) :
    (names : String × String) → List (ClassTypePart TypeSignature) → Prop
  | _, [] => True
  | names, p :: rest =>
    (∀ new, f (names.1 ++ "$" ++ p.name) = some new → ∃ simple,
      Token TypeSignature.endsIdentifier simple ∧ new = names.2 ++ "$" ++ simple) ∧
        InnerNestsInside f (nestedNames f names p) rest

variable {f : ClassRenaming} {names : String × String}

theorem foldl_nestedNames_fst (ps : List (ClassTypePart TypeSignature)) :
    (ps.foldl (nestedNames f) names).1 =
      ps.foldl (fun outer p => outer ++ "$" ++ p.name) names.1 := by
  induction ps generalizing names with
  | nil => rfl
  | cons p ps ih => exact ih

theorem binaryName_concat (head : ClassTypePart TypeSignature)
    (init : List (ClassTypePart TypeSignature)) (p : ClassTypePart TypeSignature) :
    binaryName ⟨head, init ++ [p]⟩ = binaryName ⟨head, init⟩ ++ "$" ++ p.name :=
  List.foldl_append

theorem newName_concat (head : ClassTypePart TypeSignature)
    (init : List (ClassTypePart TypeSignature)) (p : ClassTypePart TypeSignature) :
    newName f ⟨head, init ++ [p]⟩ = (f (binaryName ⟨head, init ++ [p]⟩)).getD
      (newName f ⟨head, init⟩ ++ "$" ++ p.name) := by
  rw [newName, List.foldl_append, binaryName_concat, binaryName, newName]
  change (nestedNames f (init.foldl (nestedNames f) _) p).2 = _
  rw [nestedNames, foldl_nestedNames_fst]

/-- The new name is that of a descriptor if there is an entry for the class, or if the class around it
keeps its name. -/
theorem newName_eq_apply_iff (c : ClassType) : c.newName f = f.apply c.binaryName ↔
    (f c.binaryName).isSome = true ∨ ∀ outer ∈ c.around?, outer.newName f = outer.binaryName := by
  obtain ⟨head, inner⟩ := c
  rcases List.eq_nil_or_concat inner with rfl | ⟨init, p, rfl⟩
  · exact ⟨fun _ => Or.inr fun outer hOuter => (by cases hOuter), fun _ => rfl⟩
  · rw [List.concat_eq_append]
    have hAround : around? ⟨head, init ++ [p]⟩ = some ⟨head, init⟩ := by
      rw [around?, List.dropLast_concat, if_neg (by simp)]
    rw [hAround, newName_concat, ClassRenaming.apply]
    cases f (binaryName ⟨head, init ++ [p]⟩) with
    | some new => simp
    | none => simp [binaryName_concat, ← String.toList_inj]

theorem exists_simple {p : ClassTypePart TypeSignature}
    (hName : Token TypeSignature.endsIdentifier p.name)
    (hEntry : ∀ new, f (names.1 ++ "$" ++ p.name) = some new → ∃ simple,
      Token TypeSignature.endsIdentifier simple ∧ new = names.2 ++ "$" ++ simple) :
    ∃ simple, Token TypeSignature.endsIdentifier simple ∧
      (nestedNames f names p).2 = names.2 ++ "$" ++ simple := by
  rw [nestedNames]
  cases hNew : f (names.1 ++ "$" ++ p.name) with
  | none => exact ⟨p.name, hName, rfl⟩
  | some new => exact hEntry new hNew

end ClassTypeOf

namespace TypeSignature

/-- The type without type arguments, if it does not stand for a type variable. The name of a class is
given by `name`. -/
def erasureBy (name : ClassType → String) : TypeSignature → Option FieldType
  | base p => some (.base p)
  | classType c => some (.object (name c))
  | var _ => none
  | array element => (element.erasureBy name).map .array

/-- The type as it is in a descriptor. -/
def erasure (t : TypeSignature) : Option FieldType := t.erasureBy ClassTypeOf.binaryName

mutual

/-- The type, the elements of an array and all type arguments, and what is inside them. -/
def parts : TypeSignature → List TypeSignature
  | base p => [base p]
  | classType ⟨⟨name, arguments⟩, inner⟩ =>
    classType ⟨⟨name, arguments⟩, inner⟩ :: (argumentParts arguments ++ innerParts inner)
  | var name => [var name]
  | array element => array element :: element.parts

def argumentParts : List (TypeArgument TypeSignature) → List TypeSignature
  | [] => []
  | .any :: rest => argumentParts rest
  | .invariant type :: rest => type.parts ++ argumentParts rest
  | .upper bound :: rest => bound.parts ++ argumentParts rest
  | .lower bound :: rest => bound.parts ++ argumentParts rest

def innerParts : List (ClassTypePart TypeSignature) → List TypeSignature
  | [] => []
  | ⟨_, arguments⟩ :: rest => argumentParts arguments ++ innerParts rest

end

/-- Every nested class that has an entry is put inside the class around it. -/
def NestsInside (f : ClassRenaming) : TypeSignature → Prop
  | classType c => ClassTypeOf.InnerNestsInside f (c.head.name, f.apply c.head.name) c.inner
  | array element => element.NestsInside f
  | _ => True

/-- The class has an entry of its own, or the class around it keeps its name. -/
def Follows (f : ClassRenaming) : TypeSignature → Prop
  | classType c => (f c.binaryName).isSome = true ∨
    ∀ outer ∈ c.around?, outer.newName f = outer.binaryName
  | array element => element.Follows f
  | _ => True

variable {f : ClassRenaming} {t : TypeSignature}

mutual

theorem parts_rename (t : TypeSignature) :
    (t.rename f).parts = t.parts.map (TypeSignature.rename f) := by
  cases t with
  | base p => rfl
  | classType c =>
    obtain ⟨⟨name, arguments⟩, inner⟩ := c
    rw [TypeSignature.rename, parts, parts, argumentParts_rename arguments, innerParts_rename inner,
      List.map_cons, List.map_append, TypeSignature.rename]
  | var name => rfl
  | array element =>
    rw [TypeSignature.rename, parts, parts, parts_rename element, List.map_cons, TypeSignature.rename]

theorem argumentParts_rename (as : List (TypeArgument TypeSignature)) :
    argumentParts (renameArguments f as) = (argumentParts as).map (TypeSignature.rename f) := by
  cases as with
  | nil => rfl
  | cons a as =>
    cases a with
    | any => exact argumentParts_rename as
    | invariant type =>
      rw [renameArguments, argumentParts, argumentParts, List.map_append, parts_rename type,
        argumentParts_rename as]
    | upper bound =>
      rw [renameArguments, argumentParts, argumentParts, List.map_append, parts_rename bound,
        argumentParts_rename as]
    | lower bound =>
      rw [renameArguments, argumentParts, argumentParts, List.map_append, parts_rename bound,
        argumentParts_rename as]

theorem innerParts_rename (ps : List (ClassTypePart TypeSignature)) (old new : String) :
    innerParts (renameInner f old new ps) = (innerParts ps).map (TypeSignature.rename f) := by
  cases ps with
  | nil => rfl
  | cons p ps =>
    obtain ⟨name, arguments⟩ := p
    rw [renameInner, innerParts, innerParts, List.map_append, argumentParts_rename arguments,
      innerParts_rename ps]

end

mutual

theorem WellFormed.parts (t : TypeSignature) (ht : t.WellFormed) : ∀ p ∈ t.parts, p.WellFormed := by
  cases t with
  | base p => exact List.forall_mem_singleton.mpr trivial
  | classType c =>
    obtain ⟨⟨name, arguments⟩, inner⟩ := c
    exact List.forall_mem_cons.mpr ⟨ht, List.forall_mem_append.mpr
      ⟨ArgumentsWellFormed.parts arguments ht.2.1, InnerWellFormed.parts inner ht.2.2⟩⟩
  | var name => exact List.forall_mem_singleton.mpr ht
  | array element => exact List.forall_mem_cons.mpr ⟨ht, WellFormed.parts element ht⟩

theorem ArgumentsWellFormed.parts (as : List (TypeArgument TypeSignature))
    (has : ArgumentsWellFormed as) : ∀ p ∈ argumentParts as, p.WellFormed := by
  cases as with
  | nil => exact List.forall_mem_nil _
  | cons a as =>
    cases a with
    | any => exact ArgumentsWellFormed.parts as has
    | invariant type =>
      exact List.forall_mem_append.mpr
        ⟨WellFormed.parts type has.1.2, ArgumentsWellFormed.parts as has.2⟩
    | upper bound =>
      exact List.forall_mem_append.mpr
        ⟨WellFormed.parts bound has.1.2, ArgumentsWellFormed.parts as has.2⟩
    | lower bound =>
      exact List.forall_mem_append.mpr
        ⟨WellFormed.parts bound has.1.2, ArgumentsWellFormed.parts as has.2⟩

theorem InnerWellFormed.parts (ps : List (ClassTypePart TypeSignature)) (hps : InnerWellFormed ps) :
    ∀ p ∈ innerParts ps, p.WellFormed := by
  cases ps with
  | nil => exact List.forall_mem_nil _
  | cons p ps =>
    obtain ⟨name, arguments⟩ := p
    exact List.forall_mem_append.mpr
      ⟨ArgumentsWellFormed.parts arguments hps.2.1, InnerWellFormed.parts ps hps.2.2⟩

end

mutual

theorem nestsSimply_of_inside (t : TypeSignature) (ht : t.WellFormed)
    (hInside : ∀ p ∈ t.parts, p.NestsInside f) : t.NestsSimply f := by
  cases t with
  | base p => trivial
  | classType c =>
    obtain ⟨⟨name, arguments⟩, inner⟩ := c
    obtain ⟨hHere, hParts⟩ := List.forall_mem_cons.mp hInside
    obtain ⟨hArguments, hInner⟩ := List.forall_mem_append.mp hParts
    exact ⟨argumentsNestSimply_of_inside arguments ht.2.1 hArguments,
      innerNestsSimply_of_inside inner ht.2.2 (name, f.apply name) hHere hInner⟩
  | var name => trivial
  | array element =>
    exact nestsSimply_of_inside element ht (List.forall_mem_cons.mp hInside).2

theorem argumentsNestSimply_of_inside (as : List (TypeArgument TypeSignature))
    (has : ArgumentsWellFormed as) (hInside : ∀ p ∈ argumentParts as, p.NestsInside f) :
    ArgumentsNestSimply f as := by
  cases as with
  | nil => trivial
  | cons a as =>
    cases a with
    | any => exact argumentsNestSimply_of_inside as has hInside
    | invariant type =>
      obtain ⟨hType, hRest⟩ := List.forall_mem_append.mp hInside
      exact ⟨nestsSimply_of_inside type has.1.2 hType,
        argumentsNestSimply_of_inside as has.2 hRest⟩
    | upper bound =>
      obtain ⟨hBound, hRest⟩ := List.forall_mem_append.mp hInside
      exact ⟨nestsSimply_of_inside bound has.1.2 hBound,
        argumentsNestSimply_of_inside as has.2 hRest⟩
    | lower bound =>
      obtain ⟨hBound, hRest⟩ := List.forall_mem_append.mp hInside
      exact ⟨nestsSimply_of_inside bound has.1.2 hBound,
        argumentsNestSimply_of_inside as has.2 hRest⟩

theorem innerNestsSimply_of_inside (ps : List (ClassTypePart TypeSignature))
    (hps : InnerWellFormed ps) (names : String × String)
    (hHere : ClassTypeOf.InnerNestsInside f names ps)
    (hInside : ∀ p ∈ innerParts ps, p.NestsInside f) :
    InnerNestsSimply f names.1 names.2 ps := by
  cases ps with
  | nil => trivial
  | cons p ps =>
    obtain ⟨name, arguments⟩ := p
    obtain ⟨hName, hArguments, hRest⟩ := hps
    obtain ⟨hEntry, hHere⟩ := hHere
    obtain ⟨hArgumentParts, hInnerParts⟩ := List.forall_mem_append.mp hInside
    obtain ⟨simple, hSimple, hNew⟩ := ClassTypeOf.exists_simple hName hEntry
    have hCut : nestedSimpleName names.2 (ClassTypeOf.nestedNames f names ⟨name, arguments⟩).2 =
        simple := by
      rw [hNew, nestedSimpleName_append]
    exact ⟨(congrArg (Token endsIdentifier) hCut).mpr hSimple,
      argumentsNestSimply_of_inside arguments hArguments hArgumentParts,
      innerNestsSimply_of_inside ps hRest _ hHere hInnerParts⟩

end

theorem foldl_renameInner (ps : List (ClassTypePart TypeSignature)) (hps : InnerWellFormed ps)
    (names : String × String) (hHere : ClassTypeOf.InnerNestsInside f names ps) :
    (renameInner f names.1 names.2 ps).foldl (fun outer p => outer ++ "$" ++ p.name) names.2 =
      (ps.foldl (ClassTypeOf.nestedNames f) names).2 := by
  induction ps generalizing names with
  | nil => rfl
  | cons p ps ih =>
    obtain ⟨name, arguments⟩ := p
    obtain ⟨hEntry, hHere⟩ := hHere
    obtain ⟨simple, -, hNew⟩ := ClassTypeOf.exists_simple hps.1 hEntry
    have hJoin : names.2 ++ "$" ++ nestedSimpleName names.2
        (ClassTypeOf.nestedNames f names ⟨name, arguments⟩).2 =
          (ClassTypeOf.nestedNames f names ⟨name, arguments⟩).2 := by
      rw [hNew, nestedSimpleName_append]
    have hRest := ih hps.2.2 _ hHere
    rw [renameInner, List.foldl_cons, List.foldl_cons, ← hRest]
    exact congrArg (fun outer => List.foldl _ outer _) hJoin

/-- The erasure of a renamed type names every class by its new name. -/
theorem erasure_rename (t : TypeSignature) (ht : t.WellFormed) (hInside : t.NestsInside f) :
    (t.rename f).erasure = t.erasureBy (ClassTypeOf.newName f) := by
  cases t with
  | base p => rfl
  | classType c =>
    obtain ⟨⟨name, arguments⟩, inner⟩ := c
    rw [TypeSignature.rename, erasure, erasureBy, erasureBy, ClassTypeOf.binaryName,
      foldl_renameInner inner ht.2.2 (name, f.apply name) hInside]
    rfl
  | var name => rfl
  | array element =>
    rw [TypeSignature.rename, erasure, erasureBy, erasureBy, ← erasure_rename element ht hInside]
    rfl

/-- Where the rules for signatures and for descriptors agree. -/
theorem erasureBy_newName_iff (t : TypeSignature) {e e' : FieldType} (he : t.erasure = some e)
    (he' : t.erasureBy (ClassTypeOf.newName f) = some e') : e' = e.rename f ↔ t.Follows f := by
  cases t with
  | base p =>
    cases he
    cases he'
    exact ⟨fun _ => trivial, fun _ => rfl⟩
  | classType c =>
    cases he
    cases he'
    rw [FieldType.rename, FieldType.object.injEq]
    exact c.newName_eq_apply_iff
  | var name => cases he
  | array element =>
    obtain ⟨d, hd, rfl⟩ := Option.map_eq_some_iff.mp he
    obtain ⟨d', hd', rfl⟩ := Option.map_eq_some_iff.mp he'
    rw [FieldType.rename, FieldType.array.injEq]
    exact erasureBy_newName_iff element hd hd'

end TypeSignature

theorem Descriptor.renameField_text {f : ClassRenaming} {e : FieldType} {mapped : String}
    (h : Descriptor.renameField f e.text = .ok mapped) : mapped = (e.rename f).text := by
  obtain ⟨d, hParse, rfl⟩ := Descriptor.renameField_eq_ok.mp h
  rw [FieldType.text_inj (FieldType.parse_eq_ok.mp hParse).2]

theorem RenameTable.NamesClasses.names {t : RenameTable} (ht : t.NamesClasses) :
    t.newClass?.Names TypeSignature.endsClassName := by
  intro old new hNew
  have hChars := isClassName_iff_chars.mp (ht old new hNew).2
  refine ⟨hChars.ne_nil, fun c hc => ?_⟩
  have hNot := hChars.free c hc
  simp only [List.mem_cons, List.not_mem_nil, or_false, not_or] at hNot
  simp [TypeSignature.endsClassName, hNot]

/-- What becomes of the erasure of a part of a signature: every class has its new name, and this is what
the descriptor is renamed to just if the class has an entry or the class around it keeps its name. -/
structure TypeSignature.ErasureRenamed (f : ClassRenaming) (p p' : TypeSignature) : Prop where
  erasure_eq : p'.erasure = p.erasureBy (ClassTypeOf.newName f)
  alike_iff : ∀ e e' mapped, p.erasure = some e → p'.erasure = some e' →
    Descriptor.renameField f e.text = .ok mapped → (e'.text = mapped ↔ p.Follows f)

/-- A signature in which nested classes get simple names is a signature again, and every part of it in
which they stay inside the classes around them is renamed like a descriptor, as far as a nested class has
an entry of its own. -/
theorem TypeSignature.rename_erasures {mappings text : String} {table : RenameTable}
    {t : TypeSignature} (hTable : RenameTable.parse mappings = .ok table)
    (hParse : TypeSignature.parse text = .ok t) (hNests : t.NestsSimply table.newClass?) :
    ∃ new t', SignatureKind.rename table.newClass? text .ofField = .ok new ∧
      TypeSignature.parse new = .ok t' ∧
      List.Forall₂ (fun p p' => p.NestsInside table.newClass? →
        ErasureRenamed table.newClass? p p') t.parts t'.parts := by
  have hNames := (RenameTable.namesClasses_of_parse hTable).names
  have ht := (TypeSignature.parse_eq_ok.mp hParse).1
  have ht' := WellFormed.rename hNames t ht hNests
  refine ⟨(t.rename table.newClass?).text, t.rename table.newClass?, ?_,
    TypeSignature.parse_eq_ok.mpr ⟨ht', rfl⟩, ?_⟩
  · rw [SignatureKind.rename, hParse]
    rfl
  · rw [parts_rename, List.forall₂_map_right_iff, List.forall₂_same]
    intro p hp hInside
    have hErasure := erasure_rename p (WellFormed.parts t ht p hp) hInside
    refine ⟨hErasure, fun e e' mapped he he' hMapped => ?_⟩
    rw [hErasure] at he'
    rw [Descriptor.renameField_text hMapped, ← erasureBy_newName_iff p he he']
    exact ⟨FieldType.text_inj, fun hSame => by rw [hSame]⟩

namespace NestedClass

/-- A signature, and a line that renames the nested class in it and leaves it where it is. -/
def signature : String := "La/Outer<[La/Outer.Inner;>.Inner;"

def mapping : String := "class a/Outer$Inner a/Outer$Nested"

def type : TypeSignature :=
  .classType ⟨⟨"a/Outer", [.invariant (.array (.classType ⟨⟨"a/Outer", []⟩, [⟨"Inner", []⟩]⟩))]⟩,
    [⟨"Inner", []⟩]⟩

theorem wellFormed_type : type.WellFormed := by
  simp only [type, TypeSignature.WellFormed, TypeSignature.ArgumentsWellFormed,
    TypeSignature.InnerWellFormed]
  decide

theorem parse_signature : TypeSignature.parse signature = .ok type :=
  TypeSignature.parse_eq_ok.mpr ⟨wellFormed_type, by decide +kernel⟩

def single (old new : String) : RenameTable := RenameTable.empty.withClass old new

theorem newClass?_single (old new : String) :
    (single old new).newClass? = fun name => if old = name then some new else none := by
  funext name
  rw [single, RenameTable.newClass?_withClass (RenameTable.newClass?_empty old),
    RenameTable.newClass?_empty]

theorem rename_erasures_nested : ∃ table t, RenameTable.parse mapping = .ok table ∧
    TypeSignature.parse signature = .ok t ∧ t.NestsSimply table.newClass? ∧
      ∃ new t', SignatureKind.rename table.newClass? signature .ofField = .ok new ∧
        TypeSignature.parse new = .ok t' ∧
        List.Forall₂ (fun p p' => p.NestsInside table.newClass? →
          TypeSignature.ErasureRenamed table.newClass? p p') t.parts t'.parts := by
  have hTable : RenameTable.parse mapping = .ok (single "a/Outer$Inner" "a/Outer$Nested") :=
    RenameTable.parse_withClass (by rfl) (by rfl) (by rfl)
  have hInside : ∀ p ∈ type.parts,
      p.NestsInside (single "a/Outer$Inner" "a/Outer$Nested").newClass? := by
    have hHere : ClassTypeOf.InnerNestsInside (single "a/Outer$Inner" "a/Outer$Nested").newClass?
        ("a/Outer", (single "a/Outer$Inner" "a/Outer$Nested").newClass?.apply "a/Outer")
        [⟨"Inner", []⟩] := by
      rw [newClass?_single]
      refine ⟨fun new hNew => ⟨"Nested", by decide, ?_⟩, trivial⟩
      have hEntry : (fun name => if "a/Outer$Inner" = name then some "a/Outer$Nested" else none)
          ("a/Outer" ++ "$" ++ "Inner") = some "a/Outer$Nested" := by decide +kernel
      cases hEntry.symm.trans hNew
      decide +kernel
    exact List.forall_mem_cons.mpr ⟨hHere, List.forall_mem_cons.mpr ⟨hHere,
      List.forall_mem_singleton.mpr hHere⟩⟩
  have hNests := TypeSignature.nestsSimply_of_inside type wellFormed_type hInside
  exact ⟨_, type, hTable, parse_signature, hNests,
    TypeSignature.rename_erasures hTable parse_signature hNests⟩

end NestedClass

namespace TypeSignature

/-- The renamed signature is one again, and the erasure of each part of it is what the descriptor is
renamed to. -/
def RenamesAlike (f : ClassRenaming) (text : String) : Prop :=
  ∀ t new, parse text = .ok t → (∀ name, var name ∉ t.parts) →
    SignatureKind.rename f text .ofField = .ok new → ∃ t', parse new = .ok t' ∧
      List.Forall₂ (fun p p' => ∀ e mapped, p.erasure = some e →
        Descriptor.renameField f e.text = .ok mapped → ∃ e' ∈ p'.erasure, e'.text = mapped)
          t.parts t'.parts

end TypeSignature

namespace NestedClass

def nested (outer inner : String) : TypeSignature := .classType ⟨⟨outer, []⟩, [⟨inner, []⟩]⟩

theorem parse_nested {text outer inner : String} (hOuter : Token TypeSignature.endsClassName outer)
    (hInner : Token TypeSignature.endsIdentifier inner) (hText : text = (nested outer inner).text) :
    TypeSignature.parse text = .ok (nested outer inner) :=
  TypeSignature.parse_eq_ok.mpr ⟨⟨hOuter, trivial, hInner, trivial, trivial⟩, hText⟩

theorem var_notMem_parts (outer inner name : String) :
    TypeSignature.var name ∉ (nested outer inner).parts := by
  simp [nested, TypeSignature.parts, TypeSignature.argumentParts, TypeSignature.innerParts]

theorem apart {f : ClassRenaming} {text outer outer' inner inner' : String} (new mapped : String)
    (hParse : TypeSignature.parse text = .ok (nested outer inner))
    (hRename : SignatureKind.rename f text .ofField = .ok new)
    (hNew : TypeSignature.parse new = .ok (nested outer' inner'))
    (hMapped : Descriptor.renameField f (FieldType.object (outer ++ "$" ++ inner)).text = .ok mapped)
    (hApart : (FieldType.object (outer' ++ "$" ++ inner')).text ≠ mapped) :
    ¬ TypeSignature.RenamesAlike f text := by
  intro hAlike
  obtain ⟨t', hParse', hParts⟩ := hAlike _ _ hParse (var_notMem_parts outer inner) hRename
  cases hNew.symm.trans hParse'
  obtain ⟨hHere, -⟩ := List.forall₂_cons.mp hParts
  obtain ⟨e', he', hText⟩ := hHere _ _ rfl hMapped
  cases he'
  exact hApart hText

/-- A nested class without an entry goes along with the class around it, and one with an entry elsewhere
stays inside, or makes a text that is no signature. -/
theorem erasures_apart :
    (∃ table, RenameTable.parse "class a/Outer b/Renamed" = .ok table ∧
      ¬ TypeSignature.RenamesAlike table.newClass? "La/Outer.Other;") ∧
    (∃ table, RenameTable.parse "class C$D P$Q" = .ok table ∧
      ¬ TypeSignature.RenamesAlike table.newClass? "LC.D;") ∧
    (∃ table, RenameTable.parse "class C$D p/q" = .ok table ∧
      ¬ TypeSignature.RenamesAlike table.newClass? "LC.D;") := by
  have hInner : TypeSignature.parse "LC.D;" = .ok (nested "C" "D") :=
    parse_nested (by decide) (by decide) (by decide +kernel)
  refine ⟨⟨single "a/Outer" "b/Renamed", RenameTable.parse_withClass (by rfl) (by rfl) (by rfl), ?_⟩,
    ⟨single "C$D" "P$Q", RenameTable.parse_withClass (by rfl) (by rfl) (by rfl), ?_⟩,
    ⟨single "C$D" "p/q", RenameTable.parse_withClass (by rfl) (by rfl) (by rfl), ?_⟩⟩
  · have hOther : TypeSignature.parse "La/Outer.Other;" = .ok (nested "a/Outer" "Other") :=
      parse_nested (by decide) (by decide) (by decide +kernel)
    have hNew : TypeSignature.parse "Lb/Renamed.Other;" = .ok (nested "b/Renamed" "Other") :=
      parse_nested (by decide) (by decide) (by decide +kernel)
    rw [newClass?_single]
    exact apart "Lb/Renamed.Other;" "La/Outer$Other;" hOther (by decide +kernel) hNew
      (by decide +kernel) (by decide +kernel)
  · have hNew : TypeSignature.parse "LC.Q;" = .ok (nested "C" "Q") :=
      parse_nested (by decide) (by decide) (by decide +kernel)
    rw [newClass?_single]
    exact apart "LC.Q;" "LP$Q;" hInner (by decide +kernel) hNew (by decide +kernel)
      (by decide +kernel)
  · rw [newClass?_single]
    intro hAlike
    obtain ⟨t', hParse, -⟩ := hAlike _ "LC.p/q;" hInner (var_notMem_parts "C" "D")
      (by decide +kernel)
    have hNone : (TypeSignature.parse "LC.p/q;").toOption.isNone = true := by decide +kernel
    rw [hParse] at hNone
    cases hNone

end NestedClass

end Renaming
