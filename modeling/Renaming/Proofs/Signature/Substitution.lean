import Renaming.Proofs.Signature.Erasure
import Renaming.Proofs.Signature.Grammar

/-!
# Substitution in signatures

To rename the classes of a signature in which no class is nested is to substitute class names in it. A
renaming that keeps every name that it knows changes no signature, nested classes included.
-/

namespace Renaming

open Renaming.Parser

section Types

variable {f : ClassRenaming}

namespace TypeSignature

mutual

theorem rename_of_identical (hf : f.Identical) (t : TypeSignature) : t.rename f = t := by
  cases t with
  | base p => rfl
  | classType c =>
    obtain ⟨⟨name, arguments⟩, inner⟩ := c
    rw [rename, hf.apply_eq, renameArguments_of_identical hf arguments,
      renameInner_of_identical hf name inner]
  | var name => rfl
  | array element => rw [rename, rename_of_identical hf element]

theorem renameArguments_of_identical (hf : f.Identical)
    (as : List (TypeArgument TypeSignature)) : renameArguments f as = as := by
  cases as with
  | nil => rfl
  | cons a as =>
    cases a with
    | any => rw [renameArguments, renameArguments_of_identical hf as]
    | invariant type =>
      rw [renameArguments, rename_of_identical hf type, renameArguments_of_identical hf as]
    | upper bound =>
      rw [renameArguments, rename_of_identical hf bound, renameArguments_of_identical hf as]
    | lower bound =>
      rw [renameArguments, rename_of_identical hf bound, renameArguments_of_identical hf as]

theorem renameInner_of_identical (hf : f.Identical) (outer : String)
    (ps : List (ClassTypePart TypeSignature)) : renameInner f outer outer ps = ps := by
  cases ps with
  | nil => rfl
  | cons p ps =>
    obtain ⟨name, arguments⟩ := p
    have hNested : (f (outer ++ "$" ++ name)).getD (outer ++ "$" ++ name) = outer ++ "$" ++ name :=
      hf.apply_eq _
    rw [renameInner]
    rw [hNested, nestedSimpleName_append, renameArguments_of_identical hf arguments,
      renameInner_of_identical hf _ ps]

end

end TypeSignature

theorem ClassTypeOf.rename_of_identical (hf : f.Identical) (c : ClassType) : c.rename f = c := by
  rw [ClassTypeOf.rename, hf.apply_eq, TypeSignature.renameArguments_of_identical hf,
    TypeSignature.renameInner_of_identical hf]

theorem TypeParameter.rename_of_identical (hf : f.Identical) (p : TypeParameter) :
    p.rename f = p := by
  have hTypes : TypeSignature.rename f = id := funext (TypeSignature.rename_of_identical hf)
  rw [TypeParameter.rename, hTypes, List.map_id, Option.map_id]
  rfl

theorem ClassSignature.rename_of_identical (hf : f.Identical) (s : ClassSignature) :
    s.rename f = s := by
  have hParameters : TypeParameter.rename f = id := funext (TypeParameter.rename_of_identical hf)
  have hClasses : ClassTypeOf.rename f = id := funext (ClassTypeOf.rename_of_identical hf)
  rw [ClassSignature.rename, hParameters, hClasses, List.map_id, List.map_id]
  rfl

theorem MethodSignature.rename_of_identical (hf : f.Identical) (s : MethodSignature) :
    s.rename f = s := by
  have hParameters : TypeParameter.rename f = id := funext (TypeParameter.rename_of_identical hf)
  have hTypes : TypeSignature.rename f = id := funext (TypeSignature.rename_of_identical hf)
  rw [MethodSignature.rename, hParameters, hTypes, List.map_id, List.map_id, List.map_id,
    Option.map_id]
  rfl

end Types

namespace TypeSignature

/-- No class in the type is nested. -/
def Flat (t : TypeSignature) : Prop := ∀ c, classType c ∈ t.parts → c.inner = []

mutual

/-- The second type is the first with other class names, those that `σ` gives. -/
inductive Substituted (σ : String → String) : TypeSignature → TypeSignature → Prop
  | base (p : Primitive) : Substituted σ (base p) (base p)
  | classType (name : String) {as as' : List (TypeArgument TypeSignature)}
    (h : ArgumentsSubstituted σ as as') :
    Substituted σ (classType ⟨⟨name, as⟩, []⟩) (classType ⟨⟨σ name, as'⟩, []⟩)
  | var (name : String) : Substituted σ (var name) (var name)
  | array {element element' : TypeSignature} (h : Substituted σ element element') :
    Substituted σ (array element) (array element')

inductive ArgumentsSubstituted (σ : String → String) :
    List (TypeArgument TypeSignature) → List (TypeArgument TypeSignature) → Prop
  | nil : ArgumentsSubstituted σ [] []
  | any {as as' : List (TypeArgument TypeSignature)} (h : ArgumentsSubstituted σ as as') :
    ArgumentsSubstituted σ (.any :: as) (.any :: as')
  | invariant {type type' : TypeSignature} {as as' : List (TypeArgument TypeSignature)}
    (hType : Substituted σ type type') (h : ArgumentsSubstituted σ as as') :
    ArgumentsSubstituted σ (.invariant type :: as) (.invariant type' :: as')
  | upper {bound bound' : TypeSignature} {as as' : List (TypeArgument TypeSignature)}
    (hBound : Substituted σ bound bound') (h : ArgumentsSubstituted σ as as') :
    ArgumentsSubstituted σ (.upper bound :: as) (.upper bound' :: as')
  | lower {bound bound' : TypeSignature} {as as' : List (TypeArgument TypeSignature)}
    (hBound : Substituted σ bound bound') (h : ArgumentsSubstituted σ as as') :
    ArgumentsSubstituted σ (.lower bound :: as) (.lower bound' :: as')

end

variable {f : ClassRenaming}

theorem Flat.inner_eq {name : String} {arguments : List (TypeArgument TypeSignature)}
    {inner : List (ClassTypePart TypeSignature)}
    (ht : (classType ⟨⟨name, arguments⟩, inner⟩).Flat) : inner = [] :=
  ht ⟨⟨name, arguments⟩, inner⟩ List.mem_cons_self

mutual

/-- Without nested classes, renaming is substitution, and there are no simple names to find. -/
theorem Flat.rename (t : TypeSignature) (ht : t.Flat) :
    t.NestsSimply f ∧ t.Substituted f.apply (t.rename f) := by
  cases t with
  | base p => exact ⟨trivial, .base p⟩
  | classType c =>
    obtain ⟨⟨name, arguments⟩, inner⟩ := c
    obtain rfl := ht.inner_eq
    obtain ⟨hNests, hArguments⟩ := arguments_rename_of_flat arguments fun c hc =>
      ht c (List.mem_cons_of_mem _ (List.mem_append_left _ hc))
    exact ⟨⟨hNests, trivial⟩, .classType name hArguments⟩
  | var name => exact ⟨trivial, .var name⟩
  | array element =>
    obtain ⟨hNests, hElement⟩ := Flat.rename element fun c hc =>
      ht c (List.mem_cons_of_mem _ hc)
    exact ⟨hNests, .array hElement⟩

theorem arguments_rename_of_flat (as : List (TypeArgument TypeSignature))
    (has : ∀ c, classType c ∈ argumentParts as → c.inner = []) :
    ArgumentsNestSimply f as ∧ ArgumentsSubstituted f.apply as (renameArguments f as) := by
  cases as with
  | nil => exact ⟨trivial, .nil⟩
  | cons a as =>
    cases a with
    | any =>
      obtain ⟨hNests, hRest⟩ := arguments_rename_of_flat as has
      exact ⟨hNests, .any hRest⟩
    | invariant type =>
      obtain ⟨hHere, hType⟩ := Flat.rename type fun c hc => has c (List.mem_append_left _ hc)
      obtain ⟨hNests, hRest⟩ := arguments_rename_of_flat as fun c hc =>
        has c (List.mem_append_right _ hc)
      exact ⟨⟨hHere, hNests⟩, .invariant hType hRest⟩
    | upper bound =>
      obtain ⟨hHere, hBound⟩ := Flat.rename bound fun c hc => has c (List.mem_append_left _ hc)
      obtain ⟨hNests, hRest⟩ := arguments_rename_of_flat as fun c hc =>
        has c (List.mem_append_right _ hc)
      exact ⟨⟨hHere, hNests⟩, .upper hBound hRest⟩
    | lower bound =>
      obtain ⟨hHere, hBound⟩ := Flat.rename bound fun c hc => has c (List.mem_append_left _ hc)
      obtain ⟨hNests, hRest⟩ := arguments_rename_of_flat as fun c hc =>
        has c (List.mem_append_right _ hc)
      exact ⟨⟨hHere, hNests⟩, .lower hBound hRest⟩

end

theorem forall₂_rename_of_flat {ts : List TypeSignature} (h : ∀ t ∈ ts, t.Flat) :
    List.Forall₂ (Substituted f.apply) ts (ts.map (TypeSignature.rename f)) := by
  rw [List.forall₂_map_right_iff, List.forall₂_same]
  exact fun t ht => (Flat.rename t (h t ht)).2

theorem rel_rename_of_flat {o : Option TypeSignature} (h : ∀ t ∈ o, t.Flat) :
    Option.Rel (Substituted f.apply) o (o.map (TypeSignature.rename f)) := by
  cases o with
  | none => exact .none
  | some t => exact .some (Flat.rename t (h t rfl)).2

end TypeSignature

/-- The same name, and bounds with the class names that `σ` gives. -/
structure TypeParameter.Substituted (σ : String → String) (p p' : TypeParameter) : Prop where
  name : p'.name = p.name
  classBound : Option.Rel (TypeSignature.Substituted σ) p.classBound p'.classBound
  interfaceBounds : List.Forall₂ (TypeSignature.Substituted σ) p.interfaceBounds p'.interfaceBounds

structure ClassSignature.Substituted (σ : String → String) (s s' : ClassSignature) : Prop where
  typeParameters : List.Forall₂ (TypeParameter.Substituted σ) s.typeParameters s'.typeParameters
  superclass : (TypeSignature.classType s.superclass).Substituted σ (.classType s'.superclass)
  interfaces : List.Forall₂
    (fun c c' => (TypeSignature.classType c).Substituted σ (.classType c')) s.interfaces s'.interfaces

structure MethodSignature.Substituted (σ : String → String) (s s' : MethodSignature) : Prop where
  typeParameters : List.Forall₂ (TypeParameter.Substituted σ) s.typeParameters s'.typeParameters
  parameters : List.Forall₂ (TypeSignature.Substituted σ) s.parameters s'.parameters
  returnType : Option.Rel (TypeSignature.Substituted σ) s.returnType s'.returnType
  throws : List.Forall₂ (TypeSignature.Substituted σ) s.throws s'.throws

section Flat

variable {f : ClassRenaming}

theorem TypeParameter.rename_of_flat {p : TypeParameter} (hp : ∀ t ∈ p.types, t.Flat) :
    p.NestsSimply f ∧ p.Substituted f.apply (p.rename f) := by
  obtain ⟨hClass, hInterfaces⟩ := List.forall_mem_append.mp hp
  have hClass' : ∀ b ∈ p.classBound, b.Flat := fun b hb => hClass b (Option.mem_toList.mpr hb)
  exact ⟨⟨fun b hb => (TypeSignature.Flat.rename b (hClass' b hb)).1,
      fun b hb => (TypeSignature.Flat.rename b (hInterfaces b hb)).1⟩,
    rfl, TypeSignature.rel_rename_of_flat hClass', TypeSignature.forall₂_rename_of_flat hInterfaces⟩

theorem TypeParameter.forall₂_rename_of_flat {ps : List TypeParameter}
    (h : ∀ t ∈ ps.flatMap TypeParameter.types, t.Flat) :
    (∀ p ∈ ps, p.NestsSimply f) ∧
      List.Forall₂ (TypeParameter.Substituted f.apply) ps (ps.map (TypeParameter.rename f)) := by
  rw [List.forall_mem_flatMap] at h
  rw [List.forall₂_map_right_iff, List.forall₂_same]
  exact ⟨fun p hp => (rename_of_flat (h p hp)).1, fun p hp => (rename_of_flat (h p hp)).2⟩

theorem ClassSignature.rename_of_flat {s : ClassSignature}
    (hs : ∀ t ∈ s.typeParameters.flatMap TypeParameter.types ++ s.types, t.Flat) :
    s.NestsSimply f ∧ s.Substituted f.apply (s.rename f) := by
  obtain ⟨hParameters, hTypes⟩ := List.forall_mem_append.mp hs
  obtain ⟨hNests, hSubstituted⟩ := TypeParameter.forall₂_rename_of_flat (f := f) hParameters
  obtain ⟨hSuper, hInterfaces⟩ := List.forall_mem_cons.mp hTypes
  have hInterface : ∀ c ∈ s.interfaces, (TypeSignature.classType c).NestsSimply f ∧
      (TypeSignature.classType c).Substituted f.apply (.classType (c.rename f)) := fun c hc =>
    TypeSignature.Flat.rename _ (hInterfaces _ (List.mem_map_of_mem hc))
  refine ⟨⟨hNests, (TypeSignature.Flat.rename _ hSuper).1, fun c hc => (hInterface c hc).1⟩,
    hSubstituted, (TypeSignature.Flat.rename _ hSuper).2, ?_⟩
  rw [ClassSignature.rename, List.forall₂_map_right_iff, List.forall₂_same]
  exact fun c hc => (hInterface c hc).2

theorem MethodSignature.rename_of_flat {s : MethodSignature}
    (hs : ∀ t ∈ s.typeParameters.flatMap TypeParameter.types ++ s.types, t.Flat) :
    s.NestsSimply f ∧ s.Substituted f.apply (s.rename f) := by
  obtain ⟨hTypeParameters, hTypes⟩ := List.forall_mem_append.mp hs
  obtain ⟨hNests, hSubstituted⟩ := TypeParameter.forall₂_rename_of_flat (f := f) hTypeParameters
  obtain ⟨hBefore, hThrows⟩ := List.forall_mem_append.mp hTypes
  obtain ⟨hParameters, hReturn⟩ := List.forall_mem_append.mp hBefore
  have hReturn' : ∀ t ∈ s.returnType, t.Flat := fun t ht => hReturn t (Option.mem_toList.mpr ht)
  exact ⟨⟨hNests, fun t ht => (TypeSignature.Flat.rename t (hParameters t ht)).1,
      fun t ht => (TypeSignature.Flat.rename t (hReturn' t ht)).1,
      fun t ht => (TypeSignature.Flat.rename t (hThrows t ht)).1⟩,
    hSubstituted, TypeSignature.forall₂_rename_of_flat hParameters,
    TypeSignature.rel_rename_of_flat hReturn', TypeSignature.forall₂_rename_of_flat hThrows⟩

end Flat

/-- What the text of a signature stands for. -/
inductive Signature where
  | ofClass (s : ClassSignature)
  | ofMethod (s : MethodSignature)
  | ofField (t : TypeSignature)

namespace Signature

def kind : Signature → SignatureKind
  | ofClass _ => .ofClass
  | ofMethod _ => .ofMethod
  | ofField _ => .ofField

def text : Signature → String
  | ofClass s => s.text
  | ofMethod s => s.text
  | ofField t => t.text

def rename (f : ClassRenaming) : Signature → Signature
  | ofClass s => ofClass (s.rename f)
  | ofMethod s => ofMethod (s.rename f)
  | ofField t => ofField (t.rename f)

def types : Signature → List TypeSignature
  | ofClass s => s.typeParameters.flatMap TypeParameter.types ++ s.types
  | ofMethod s => s.typeParameters.flatMap TypeParameter.types ++ s.types
  | ofField t => [t]

def WellFormed : Signature → Prop
  | ofClass s => s.WellFormed
  | ofMethod s => s.WellFormed
  | ofField t => t.WellFormed

def NestsSimply (f : ClassRenaming) : Signature → Prop
  | ofClass s => s.NestsSimply f
  | ofMethod s => s.NestsSimply f
  | ofField t => t.NestsSimply f

/-- A signature of the same kind with the class names that `σ` gives. -/
inductive Substituted (σ : String → String) : Signature → Signature → Prop
  | ofClass {s s' : ClassSignature} (h : s.Substituted σ s') : Substituted σ (ofClass s) (ofClass s')
  | ofMethod {s s' : MethodSignature} (h : s.Substituted σ s') :
    Substituted σ (ofMethod s) (ofMethod s')
  | ofField {t t' : TypeSignature} (h : t.Substituted σ t') : Substituted σ (ofField t) (ofField t')

variable {f : ClassRenaming} {x : Signature}

theorem kind_rename (x : Signature) : (x.rename f).kind = x.kind := by
  cases x <;> rfl

theorem rename_of_identical (hf : f.Identical) (x : Signature) : x.rename f = x := by
  cases x with
  | ofClass s => exact congrArg ofClass (s.rename_of_identical hf)
  | ofMethod s => exact congrArg ofMethod (s.rename_of_identical hf)
  | ofField t => exact congrArg ofField (t.rename_of_identical hf)

theorem WellFormed.rename (hx : x.WellFormed) (hf : f.Names TypeSignature.endsClassName)
    (hNests : x.NestsSimply f) : (x.rename f).WellFormed := by
  cases x with
  | ofClass s => exact ClassSignature.WellFormed.rename hx hf hNests
  | ofMethod s => exact MethodSignature.WellFormed.rename hx hf hNests
  | ofField t => exact TypeSignature.WellFormed.rename hf t hx hNests

theorem rename_of_flat (hx : ∀ t ∈ x.types, t.Flat) :
    x.NestsSimply f ∧ x.Substituted f.apply (x.rename f) := by
  cases x with
  | ofClass s =>
    obtain ⟨hNests, hSubstituted⟩ := ClassSignature.rename_of_flat (f := f) hx
    exact ⟨hNests, .ofClass hSubstituted⟩
  | ofMethod s =>
    obtain ⟨hNests, hSubstituted⟩ := MethodSignature.rename_of_flat (f := f) hx
    exact ⟨hNests, .ofMethod hSubstituted⟩
  | ofField t =>
    obtain ⟨hNests, hSubstituted⟩ :=
      TypeSignature.Flat.rename (f := f) t (List.forall_mem_singleton.mp hx)
    exact ⟨hNests, .ofField hSubstituted⟩

end Signature

namespace SignatureKind

/-- The signature of the given kind that a text stands for. -/
def parse (text : String) : SignatureKind → Except InvalidSignature Signature
  | ofClass => Signature.ofClass <$> ClassSignature.parse text
  | ofMethod => Signature.ofMethod <$> MethodSignature.parse text
  | ofField => Signature.ofField <$> TypeSignature.parse text

variable {kind : SignatureKind} {f : ClassRenaming} {text : String} {x : Signature}

theorem parse_eq_ok : kind.parse text = .ok x ↔ x.kind = kind ∧ x.WellFormed ∧ text = x.text := by
  cases kind with
  | ofClass =>
    rw [parse, Outcome.map_eq_ok]
    simp only [ClassSignature.parse_eq_ok]
    cases x <;> simp [Signature.kind, Signature.WellFormed, Signature.text]
  | ofMethod =>
    rw [parse, Outcome.map_eq_ok]
    simp only [MethodSignature.parse_eq_ok]
    cases x <;> simp [Signature.kind, Signature.WellFormed, Signature.text]
  | ofField =>
    rw [parse, Outcome.map_eq_ok]
    simp only [TypeSignature.parse_eq_ok]
    cases x <;> simp [Signature.kind, Signature.WellFormed, Signature.text]

theorem rename_eq : kind.rename f text = (fun x => (x.rename f).text) <$> kind.parse text := by
  cases kind with
  | ofClass =>
    rw [rename, parse]
    cases ClassSignature.parse text <;> rfl
  | ofMethod =>
    rw [rename, parse]
    cases MethodSignature.parse text <;> rfl
  | ofField =>
    rw [rename, parse]
    cases TypeSignature.parse text <;> rfl

theorem rename_of_parse (hx : kind.parse text = .ok x) :
    kind.rename f text = .ok (x.rename f).text := by
  rw [rename_eq, hx]
  rfl

theorem rename_of_identical (hf : f.Identical) {renamed : String}
    (h : kind.rename f text = .ok renamed) : renamed = text := by
  rw [rename_eq] at h
  obtain ⟨x, hx, rfl⟩ := Outcome.map_eq_ok.mp h
  rw [x.rename_of_identical hf]
  exact (parse_eq_ok.mp hx).2.2.symm

/-- As long as the new names can be read and no class is nested, a signature is renamed to one that has
the new class names and is the same otherwise. A renaming that keeps every name that it knows changes no
signature. -/
theorem rename_substitutes (hx : kind.parse text = .ok x) (f : ClassRenaming) :
    ((∀ old new, f old = some new → Text.FreeOf [';', '<', '.'] new) →
      (∀ t ∈ x.types, t.Flat) →
      ∃ text' x', kind.rename f text = .ok text' ∧ kind.parse text' = .ok x' ∧
        x.Substituted f.apply x') ∧
    ((∀ old new, f old = some new → new = old) → kind.rename f text = .ok text) := by
  obtain ⟨hKind, hWellFormed, hText⟩ := parse_eq_ok.mp hx
  constructor
  · intro hNew hFlat
    have hNames : f.Names TypeSignature.endsClassName := fun old new h =>
      (Text.freeOf_iff_token fun c => by simp [TypeSignature.endsClassName, or_assoc]).mp
        (hNew old new h)
    obtain ⟨hNests, hSubstituted⟩ := Signature.rename_of_flat (f := f) hFlat
    exact ⟨_, x.rename f, rename_of_parse hx, parse_eq_ok.mpr
      ⟨(Signature.kind_rename x).trans hKind, hWellFormed.rename hNames hNests, rfl⟩, hSubstituted⟩
  · intro hSame
    rw [rename_of_parse hx, x.rename_of_identical hSame, hText]

def everywhere (name : String) : MethodSignature :=
  ⟨[⟨"T", some (.classType (.plain name)), []⟩],
    [.var "T", .array (.classType ⟨⟨"a/Box", [.upper (.classType (.plain name)), .any]⟩, []⟩)],
    some (.classType (.plain name)), [.classType (.plain name)]⟩

def toThing : ClassRenaming := fun name => if name = "a/Item" then some "b/Thing" else none

theorem wellFormed_everywhere {name : String}
    (hName : Text.Path TypeSignature.IsIdentifier name) : (everywhere name).WellFormed := by
  have hClass := ClassTypeOf.grammatical_plain hName
  have hBox : (TypeSignature.array (.classType
      ⟨⟨"a/Box", [.upper (.classType (.plain name)), .any]⟩, []⟩)).Grammatical :=
    ⟨⟨["a", "Box"], by decide, by decide, by decide⟩, ⟨⟨rfl, hClass⟩, trivial⟩, trivial⟩
  have hVar : TypeSignature.IsIdentifier "T" := by decide
  have hGrammatical : (everywhere name).Grammatical := by
    refine ⟨List.forall_mem_singleton.mpr ⟨hVar, List.forall_mem_singleton.mpr ⟨rfl, hClass⟩⟩, ?_,
      List.forall_mem_singleton.mpr (Or.inl ⟨_, rfl⟩)⟩
    simp only [MethodSignature.types, everywhere, Option.toList_some, List.cons_append,
      List.nil_append, List.forall_mem_cons]
    exact ⟨hVar, hBox, hClass, hClass, List.forall_mem_nil _⟩
  rw [MethodSignature.wellFormed_iff hGrammatical, everywhere, TypeParameter.hidden_cons]
  rintro (⟨-, q, hq, -⟩ | hRest)
  · cases hq
  · exact TypeParameter.not_hidden_nil hRest

theorem flat_everywhere (name : String) :
    ∀ t ∈ (Signature.ofMethod (everywhere name)).types, t.Flat := by
  simp [Signature.types, TypeParameter.types, MethodSignature.types, everywhere,
    TypeSignature.Flat, TypeSignature.parts, TypeSignature.argumentParts, TypeSignature.innerParts,
    ClassTypeOf.plain]

theorem rename_substitutes_everywhere :
    (∀ old new, toThing old = some new → Text.FreeOf [';', '<', '.'] new) ∧
    (∀ t ∈ (Signature.ofMethod (everywhere "a/Item")).types, t.Flat) ∧
    ofMethod.parse "<T:La/Item;>(TT;[La/Box<+La/Item;*>;)La/Item;^La/Item;" =
      .ok (.ofMethod (everywhere "a/Item")) ∧
    (∃ x', ofMethod.rename toThing "<T:La/Item;>(TT;[La/Box<+La/Item;*>;)La/Item;^La/Item;" =
        .ok "<T:Lb/Thing;>(TT;[La/Box<+Lb/Thing;*>;)Lb/Thing;^Lb/Thing;" ∧
      ofMethod.parse "<T:Lb/Thing;>(TT;[La/Box<+Lb/Thing;*>;)Lb/Thing;^Lb/Thing;" = .ok x' ∧
      (Signature.ofMethod (everywhere "a/Item")).Substituted toThing.apply x') ∧
    (∃ x, ofField.parse "La/Outer<TT;>.Inner;" = .ok x) ∧
      ofField.rename some "La/Outer<TT;>.Inner;" = .ok "La/Outer<TT;>.Inner;" := by
  have hNew : ∀ old new, toThing old = some new → Text.FreeOf [';', '<', '.'] new := by
    intro old new h
    obtain ⟨-, hNew⟩ := Option.ite_none_right_eq_some.mp h
    cases hNew
    decide
  have hItem : Text.Path TypeSignature.IsIdentifier "a/Item" :=
    ⟨["a", "Item"], by decide, by decide, by decide⟩
  have hParse : ofMethod.parse "<T:La/Item;>(TT;[La/Box<+La/Item;*>;)La/Item;^La/Item;" =
      .ok (.ofMethod (everywhere "a/Item")) :=
    parse_eq_ok.mpr ⟨rfl, wellFormed_everywhere hItem, by decide +kernel⟩
  obtain ⟨x, hNested⟩ : ∃ x, ofField.parse "La/Outer<TT;>.Inner;" = .ok x :=
    Outcome.exists_of_isSome (by decide +kernel)
  refine ⟨hNew, flat_everywhere _, hParse, ?_, ⟨x, hNested⟩,
    (rename_substitutes hNested some).2 fun old new h => (Option.some.inj h).symm⟩
  obtain ⟨text', x', hRename, hRead, hSubstituted⟩ :=
    (rename_substitutes hParse toThing).1 hNew (flat_everywhere _)
  have hText : ofMethod.rename toThing "<T:La/Item;>(TT;[La/Box<+La/Item;*>;)La/Item;^La/Item;" =
      .ok "<T:Lb/Thing;>(TT;[La/Box<+Lb/Thing;*>;)Lb/Thing;^Lb/Thing;" := by
    rw [rename_of_parse hParse]
    decide +kernel
  cases hRename.symm.trans hText
  exact ⟨x', hText, hRead, hSubstituted⟩

end SignatureKind

end Renaming
