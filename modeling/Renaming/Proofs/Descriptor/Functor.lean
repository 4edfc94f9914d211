import Mathlib.Data.List.Forall2
import Mathlib.Data.Option.Basic
import Mathlib.Data.Set.Function
import Renaming.Proofs.Descriptor

/-!
# Descriptors as written types

The texts that are read as descriptors are what types with proper class names are written as, and no two
of these types are written in the same way. To rename the classes of a descriptor is therefore to
substitute names in a type, and renamings follow each other on descriptors as they do on names.
-/

namespace Renaming

open Renaming.Parser

/-- Not empty and free of the characters that end a class name in a descriptor. -/
def Descriptor.IsName (name : String) : Prop :=
  name ≠ "" ∧ ∀ c ∈ name.toList, c ∉ [';', '.', '[', '<']

instance (name : String) : Decidable (Descriptor.IsName name) :=
  decidable_of_iff (name ≠ "" ∧ name.toList.all (· ∉ [';', '.', '[', '<'])) <| by
    rw [Descriptor.IsName, List.all_eq_true]
    simp only [decide_eq_true_eq]

theorem Descriptor.token_iff {name : String} : Token FieldType.endsName name ↔ IsName name := by
  have hSome : name.toList ≠ [] ↔ name ≠ "" := by
    rw [← String.toList_inj.ne]
    rfl
  rw [Token, IsName, hSome]
  simp [FieldType.endsName, and_assoc]

theorem FieldType.wellFormed_iff {t : FieldType} :
    t.WellFormed ↔ ∀ name ∈ t.className?, Descriptor.IsName name := by
  induction t with
  | base p => simp [WellFormed, className?, element]
  | object name => simp [WellFormed, className?, element, Descriptor.token_iff]
  | array element ih => exact ih

theorem MethodDescriptor.wellFormed_iff {d : MethodDescriptor} :
    d.WellFormed ↔ ∀ name ∈ d.classNames, Descriptor.IsName name := by
  have hTypes : d.WellFormed ↔ ∀ t ∈ d.parameters ++ d.returnType.toList, t.WellFormed := by
    simp only [WellFormed, List.forall_mem_append, Option.mem_toList, Option.mem_def]
  rw [hTypes, classNames_eq]
  simp only [List.mem_filterMap, FieldType.wellFormed_iff]
  constructor
  · rintro h name ⟨t, ht, hName⟩
    exact h t ht name hName
  · intro h t ht name hName
    exact h name ⟨t, ht, hName⟩

/-- What is read as a descriptor is how a type with proper names is written, and no two such types are
written in the same way. -/
theorem Descriptor.parse_exact :
    (∀ s t, FieldType.parse s = .ok t ↔ s = t.text ∧ ∀ name ∈ t.className?, IsName name) ∧
    (∀ s d, MethodDescriptor.parse s = .ok d ↔ s = d.text ∧ ∀ name ∈ d.classNames, IsName name) ∧
    Set.InjOn FieldType.text {t | ∀ name ∈ t.className?, IsName name} ∧
    Set.InjOn MethodDescriptor.text {d | ∀ name ∈ d.classNames, IsName name} := by
  have hField : ∀ s t, FieldType.parse s = .ok t ↔ s = t.text ∧ ∀ name ∈ t.className?, IsName name :=
    fun s t => by rw [FieldType.parse_eq_ok, FieldType.wellFormed_iff, and_comm]
  have hMethod : ∀ s d, MethodDescriptor.parse s = .ok d ↔
      s = d.text ∧ ∀ name ∈ d.classNames, IsName name :=
    fun s d => by rw [MethodDescriptor.parse_eq_ok, MethodDescriptor.wellFormed_iff, and_comm]
  refine ⟨hField, hMethod, fun a _ b _ hText => FieldType.text_inj hText, fun a ha b hb hText => ?_⟩
  -- The text is read in one way only, and both are what it is read as.
  have hRead : MethodDescriptor.parse a.text = .ok b := (hMethod _ _).mpr ⟨hText, hb⟩
  rw [(hMethod _ _).mpr ⟨rfl, ha⟩] at hRead
  exact Except.ok.inj hRead

def ClassRenaming.andThen (f g : ClassRenaming) : ClassRenaming := fun name =>
  some (g.apply (f.apply name))

namespace FieldType

/-- The second type is the first with other class names, those that `σ` gives. -/
inductive Substituted (σ : String → String) : FieldType → FieldType → Prop
  | base (p : Primitive) : Substituted σ (base p) (base p)
  | object (name : String) : Substituted σ (object name) (object (σ name))
  | array {element element' : FieldType} (h : Substituted σ element element') :
    Substituted σ (array element) (array element')

variable {f g : ClassRenaming}

theorem substituted_rename (t : FieldType) : t.Substituted f.apply (t.rename f) := by
  induction t with
  | base p => exact .base p
  | object name => exact .object name
  | array element ih => exact .array ih

theorem rename_rename (t : FieldType) : (t.rename f).rename g = t.rename (f.andThen g) := by
  induction t with
  | base p => rfl
  | object name => rfl
  | array element ih => exact congrArg array ih

end FieldType

namespace MethodDescriptor

/-- As many parameters with the names that `σ` gives, and a return type exactly if there was one. -/
structure Substituted (σ : String → String) (d d' : MethodDescriptor) : Prop where
  parameters : List.Forall₂ (FieldType.Substituted σ) d.parameters d'.parameters
  returnType : Option.Rel (FieldType.Substituted σ) d.returnType d'.returnType

variable {f g : ClassRenaming}

theorem substituted_rename (d : MethodDescriptor) : d.Substituted f.apply (d.rename f) where
  parameters := by
    rw [rename, List.forall₂_map_right_iff, List.forall₂_same]
    exact fun t _ => t.substituted_rename
  returnType := by
    rw [rename]
    cases d.returnType with
    | none => exact .none
    | some t => exact .some t.substituted_rename

theorem rename_rename (d : MethodDescriptor) : (d.rename f).rename g = d.rename (f.andThen g) := by
  have hTypes : FieldType.rename g ∘ FieldType.rename f = FieldType.rename (f.andThen g) :=
    funext FieldType.rename_rename
  simp only [rename, List.map_map, Option.map_map, hTypes]

end MethodDescriptor

namespace Descriptor

inductive Parsed where
  | field (t : FieldType)
  | method (d : MethodDescriptor)

def parse (s : String) : Except InvalidDescriptor Parsed :=
  if Text.startsWith '(' s then Parsed.method <$> MethodDescriptor.parse s
  else Parsed.field <$> FieldType.parse s

namespace Parsed

def text : Parsed → String
  | field t => t.text
  | method d => d.text

def rename (f : ClassRenaming) : Parsed → Parsed
  | field t => field (t.rename f)
  | method d => method (d.rename f)

def WellFormed : Parsed → Prop
  | field t => t.WellFormed
  | method d => d.WellFormed

/-- The same kind of descriptor with the names that `σ` gives. -/
inductive Substituted (σ : String → String) : Parsed → Parsed → Prop
  | field {t t' : FieldType} (h : t.Substituted σ t') : Substituted σ (field t) (field t')
  | method {d d' : MethodDescriptor} (h : d.Substituted σ d') : Substituted σ (method d) (method d')

variable {f g : ClassRenaming}

theorem WellFormed.rename {x : Parsed} (hx : x.WellFormed) (hf : f.Names FieldType.endsName) :
    (x.rename f).WellFormed := by
  cases x with
  | field t => exact FieldType.WellFormed.rename hx hf
  | method d => exact MethodDescriptor.WellFormed.rename hx hf

theorem substituted_rename (x : Parsed) : x.Substituted f.apply (x.rename f) := by
  cases x with
  | field t => exact .field t.substituted_rename
  | method d => exact .method d.substituted_rename

theorem rename_rename (x : Parsed) : (x.rename f).rename g = x.rename (f.andThen g) := by
  cases x with
  | field t => exact congrArg field t.rename_rename
  | method d => exact congrArg method d.rename_rename

end Parsed

variable {f g : ClassRenaming} {s : String} {x : Parsed}

theorem parse_eq_ok : parse s = .ok x ↔ x.WellFormed ∧ s = x.text := by
  constructor
  · intro h
    rw [parse] at h
    split at h
    · obtain ⟨d, hParse, rfl⟩ := Outcome.map_eq_ok.mp h
      exact MethodDescriptor.parse_eq_ok.mp hParse
    · obtain ⟨t, hParse, rfl⟩ := Outcome.map_eq_ok.mp h
      exact FieldType.parse_eq_ok.mp hParse
  · rintro ⟨hx, rfl⟩
    rw [parse]
    cases x with
    | field t =>
      rw [Parsed.text, startsWith_paren_field, if_neg Bool.false_ne_true,
        FieldType.parse_eq_ok.mpr ⟨hx, rfl⟩]
      rfl
    | method d =>
      rw [Parsed.text, startsWith_paren_method, if_pos rfl, MethodDescriptor.parse_eq_ok.mpr ⟨hx, rfl⟩]
      rfl

theorem rename_eq : rename f s = (fun x => (Parsed.rename f x).text) <$> parse s := by
  rw [rename, parse]
  split
  · rw [renameMethod]
    cases MethodDescriptor.parse s <;> rfl
  · rw [renameField]
    cases FieldType.parse s <;> rfl

theorem rename_of_parse (hx : parse s = .ok x) : rename f s = .ok (x.rename f).text := by
  rw [rename_eq, hx]
  rfl

/-- To rename the classes of a descriptor is to substitute their names, as long as the new ones can be
read: it fails for what is no descriptor only, changes nothing without a new name, and two renamings in a
row are one. -/
theorem rename_functor (s : String) (f g : ClassRenaming)
    (hf : ∀ old new, f old = some new → IsName new) :
    (∀ e, rename f s = .error e ↔ parse s = .error e) ∧
    (∀ x, parse s = .ok x →
      ∃ s' x', rename f s = .ok s' ∧ parse s' = .ok x' ∧ x.Substituted f.apply x') ∧
    (∀ x, parse s = .ok x → rename (fun _ => none) s = .ok s) ∧
    (rename f s >>= rename g) = rename (f.andThen g) s := by
  have hNames : f.Names FieldType.endsName := fun old new h => token_iff.mpr (hf old new h)
  have hReads : ∀ x, parse s = .ok x → parse (x.rename f).text = .ok (x.rename f) := fun x hx =>
    parse_eq_ok.mpr ⟨(parse_eq_ok.mp hx).1.rename hNames, rfl⟩
  have hNone : ClassRenaming.Identical fun _ => none := fun _ _ h => nomatch h
  refine ⟨fun e => ?_, fun x hx => ?_, fun x hx => ?_, ?_⟩
  · rw [rename_eq]
    cases parse s <;> simp [Functor.map, Except.map]
  · exact ⟨_, _, rename_of_parse hx, hReads x hx, x.substituted_rename⟩
  · have hRename : rename (fun _ => none) s = .ok (x.rename fun _ => none).text := rename_of_parse hx
    rw [hRename, rename_of_identical hNone hRename]
  · cases hx : parse s with
    | error e =>
      rw [rename_eq, rename_eq, hx]
      rfl
    | ok x =>
      rw [rename_of_parse hx, Outcome.ok_bind, rename_of_parse (hReads x hx), rename_of_parse hx,
        x.rename_rename]

/-- A class in arrays of two dimensions and as it is, with one that is left alone in between. -/
def nested : MethodDescriptor :=
  ⟨[.array (.array (.object "a/Foo")), .object "a/Other"], some (.object "a/Foo")⟩

def toBar : ClassRenaming := fun name => if name = "a/Foo" then some "b/Bar" else none

theorem parse_nested : parse "([[La/Foo;La/Other;)La/Foo;" = .ok (.method nested) := by
  refine parse_eq_ok.mpr ⟨MethodDescriptor.wellFormed_iff.mpr ?_, by decide⟩
  decide

theorem rename_functor_nested :
    (∀ old new, toBar old = some new → IsName new) ∧
    (∃ x', rename toBar "([[La/Foo;La/Other;)La/Foo;" = .ok "([[Lb/Bar;La/Other;)Lb/Bar;" ∧
      parse "([[Lb/Bar;La/Other;)Lb/Bar;" = .ok x' ∧
      Parsed.Substituted toBar.apply (.method nested) x') ∧
    rename (fun _ => none) "([[La/Foo;La/Other;)La/Foo;" = .ok "([[La/Foo;La/Other;)La/Foo;" ∧
    (rename toBar "([[La/Foo;La/Other;)La/Foo;" >>= rename fun _ => some "c") =
      .ok "([[Lc;Lc;)Lc;" := by
  have hf : ∀ old new, toBar old = some new → IsName new := by
    intro old new h
    obtain ⟨-, hNew⟩ := Option.ite_none_right_eq_some.mp h
    cases hNew
    decide
  obtain ⟨-, hReads, hKeeps, hTwice⟩ :=
    rename_functor "([[La/Foo;La/Other;)La/Foo;" toBar (fun _ => some "c") hf
  refine ⟨hf, ?_, hKeeps _ parse_nested, ?_⟩
  · obtain ⟨s', x', hRename, hParse, hSubstituted⟩ := hReads _ parse_nested
    have hText : rename toBar "([[La/Foo;La/Other;)La/Foo;" = .ok "([[Lb/Bar;La/Other;)Lb/Bar;" := by
      rw [rename_of_parse parse_nested]
      decide
    cases hRename.symm.trans hText
    exact ⟨x', hText, hParse, hSubstituted⟩
  · rw [hTwice, rename_of_parse parse_nested]
    decide

end Descriptor

end Renaming
