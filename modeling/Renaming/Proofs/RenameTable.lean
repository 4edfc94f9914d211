import Mathlib.Data.List.Induction
import Renaming.Proofs.OrderedMap
import Renaming.Proofs.RenameTable.Format

/-!
# What a mapping file makes sure of

The table of a mapping file names classes by class names only, old ones as well as new ones.
-/

namespace Renaming

namespace RenameTable

variable {t : RenameTable} {old new : String}

theorem addEntry_eq_ok {κ : Type} [BEq κ] [Hashable κ] [LawfulBEq κ] [LawfulHashable κ]
    {entries entries' : OrderedMap κ String} {key : κ} {new : String} {conflict : String → Ambiguity}
    (h : addEntry entries key new conflict = .ok entries') (a : κ) :
    entries'.find? a = if key == a then some new else entries.find? a := by
  unfold addEntry at h
  split at h
  · rename_i first hFirst
    split at h
    · rename_i hSame
      cases h
      subst hSame
      split
      · rename_i hKey
        rw [← eq_of_beq hKey, hFirst]
      · rfl
    · cases h
  · cases h
    exact entries.find?_push key new a

theorem addClass_eq_ok {t' : RenameTable} : t.addClass old new = .ok t' ↔ ∃ classes,
    addEntry t.classes old new (fun first => .classTwice old first new) = .ok classes ∧
      { t with classes } = t' := by
  rw [addClass, Outcome.bind_eq_ok]
  simp only [Outcome.pure_eq_ok]

theorem addField_eq_ok {t' : RenameTable} {key : MemberKey} : t.addField key new = .ok t' ↔ ∃ fields,
    addEntry t.fields key new (fun first => .fieldTwice key first new) = .ok fields ∧
      { t with fields } = t' := by
  rw [addField, Outcome.bind_eq_ok]
  simp only [Outcome.pure_eq_ok]

theorem addMethod_eq_ok {t' : RenameTable} {key : MemberKey} : t.addMethod key new = .ok t' ↔
    (Text.startsWith '<' key.name = true → key.name = new) ∧ ∃ methods,
      addEntry t.methods key new (fun first => .methodTwice key first new) = .ok methods ∧
        { t with methods } = t' := by
  rw [addMethod]
  dsimp only
  split
  · rename_i hReserved
    simp only [Bool.and_eq_true, decide_eq_true_eq] at hReserved
    exact iff_of_false (fun h => nomatch h) fun h => hReserved.2 (h.1 hReserved.1)
  · rename_i hAllowed
    simp only [Bool.and_eq_true, decide_eq_true_eq, not_and, not_not] at hAllowed
    rw [and_iff_right hAllowed, Outcome.bind_eq_ok]
    simp only [Outcome.pure_eq_ok]

theorem addLine_eq_ok {t' : RenameTable} {line : String × Nat} : t.addLine line = .ok t' ↔
    Text.words (Text.beforeFirst '#' line.1) = [] ∧ t = t' ∨
      ∃ e, Entry.parse (Text.words (Text.beforeFirst '#' line.1)) = .ok e ∧ t.add e = .ok t' := by
  rw [addLine]
  cases hColumns : Text.words (Text.beforeFirst '#' line.1) with
  | nil => simp [Entry.parse]
  | cons kind columns =>
    dsimp only
    cases Entry.parse (kind :: columns) <;> simp

def withClass (t : RenameTable) (old new : String) : RenameTable :=
  (t.addClass old new).toOption.getD t

@[simp] theorem newClass?_empty (name : String) : empty.newClass? name = none :=
  OrderedMap.find?_empty name

@[simp] theorem newField?_empty (key : MemberKey) : empty.newField? key = none :=
  OrderedMap.find?_empty key

@[simp] theorem newMethod?_empty (key : MemberKey) : empty.newMethod? key = none :=
  OrderedMap.find?_empty key

@[simp] theorem newField?_withClass (t : RenameTable) (old new : String) (key : MemberKey) :
    (t.withClass old new).newField? key = t.newField? key := by
  rw [withClass]
  cases hAdd : t.addClass old new with
  | error e => rfl
  | ok t' =>
    obtain ⟨classes, -, rfl⟩ := addClass_eq_ok.mp hAdd
    rfl

@[simp] theorem newMethod?_withClass (t : RenameTable) (old new : String) (key : MemberKey) :
    (t.withClass old new).newMethod? key = t.newMethod? key := by
  rw [withClass]
  cases hAdd : t.addClass old new with
  | error e => rfl
  | ok t' =>
    obtain ⟨classes, -, rfl⟩ := addClass_eq_ok.mp hAdd
    rfl

theorem withClass_eq (h : t.newClass? old = none) :
    t.withClass old new = { t with classes := t.classes.push old new } := by
  rw [newClass?] at h
  rw [withClass, addClass, addEntry, h]
  rfl

theorem newClass?_withClass (h : t.newClass? old = none) (name : String) :
    (t.withClass old new).newClass? name = if old = name then some new else t.newClass? name := by
  rw [withClass_eq h, newClass?, OrderedMap.find?_push, newClass?]
  simp only [beq_iff_eq]

/-- The table with the given entries for classes and no others. -/
def ofClasses (entries : List (String × String)) : RenameTable :=
  entries.foldl (fun t e => t.withClass e.1 e.2) empty

theorem classes_ofClasses {entries : List (String × String)} (h : (entries.map Prod.fst).Nodup) :
    (ofClasses entries).classes.toList = entries := by
  induction entries using List.reverseRecOn with
  | nil => rfl
  | append_singleton entries e ih =>
    rw [List.map_append, List.nodup_append'] at h
    obtain ⟨hEntries, -, hApart⟩ := h
    have hNew : (ofClasses entries).newClass? e.1 = none := by
      rw [newClass?, OrderedMap.find?_eq_none_iff, ih hEntries]
      exact fun hOld => hApart hOld (List.mem_singleton_self e.1)
    rw [ofClasses, List.foldl_append, List.foldl_cons, List.foldl_nil, ← ofClasses, withClass_eq hNew,
      OrderedMap.toList_push, ih hEntries]

theorem newClass?_ofClasses {entries : List (String × String)} (h : (entries.map Prod.fst).Nodup) :
    (ofClasses entries).newClass? old = some new ↔ (old, new) ∈ entries := by
  have hDistinct : (ofClasses entries).classes.Distinct := by
    rwa [OrderedMap.Distinct, classes_ofClasses h]
  rw [newClass?, ← hDistinct.mem_toList_iff, classes_ofClasses h]

def withField (t : RenameTable) (key : MemberKey) (new : String) : RenameTable :=
  (t.addField key new).toOption.getD t

theorem withField_eq {key : MemberKey} (h : t.newField? key = none) :
    t.withField key new = { t with fields := t.fields.push key new } := by
  rw [newField?] at h
  rw [withField, addField, addEntry, h]
  rfl

theorem addField_eq {key : MemberKey} (h : t.newField? key = none) :
    t.addField key new = .ok (t.withField key new) := by
  rw [withField_eq h]
  rw [newField?] at h
  rw [addField, addEntry, h]
  rfl

@[simp] theorem newClass?_withField (t : RenameTable) (key : MemberKey) (new name : String) :
    (t.withField key new).newClass? name = t.newClass? name := by
  rw [withField]
  cases hAdd : t.addField key new with
  | error e => rfl
  | ok t' =>
    obtain ⟨fields, -, rfl⟩ := addField_eq_ok.mp hAdd
    rfl

theorem newField?_withField {key : MemberKey} (h : t.newField? key = none) (other : MemberKey) :
    (t.withField key new).newField? other = if key = other then some new else t.newField? other := by
  rw [withField_eq h, newField?, OrderedMap.find?_push, newField?]
  simp only [beq_iff_eq]

/-- All classes of the table have valid names before and after. -/
def NamesClasses (t : RenameTable) : Prop :=
  ∀ old new, t.newClass? old = some new → isClassName old = true ∧ isClassName new = true

theorem namesClasses_empty : NamesClasses empty := by
  intro old new h
  rw [newClass?, empty, OrderedMap.find?_empty] at h
  cases h

theorem NamesClasses.addClass {t' : RenameTable} (ht : t.NamesClasses)
    (hOld : isClassName old = true) (hNew : isClassName new = true)
    (h : t.addClass old new = .ok t') : t'.NamesClasses := by
  obtain ⟨classes, hClasses, rfl⟩ := addClass_eq_ok.mp h
  intro a b hab
  rw [newClass?, addEntry_eq_ok hClasses] at hab
  split at hab
  · rename_i hKey
    cases hab
    exact ⟨eq_of_beq hKey ▸ hOld, hNew⟩
  · exact ht a b hab

theorem NamesClasses.of_classes {t' : RenameTable} (ht : t.NamesClasses)
    (hSame : t'.classes = t.classes) : t'.NamesClasses := by
  intro old new h
  rw [newClass?, hSame] at h
  exact ht old new h

theorem NamesClasses.addLine {t' : RenameTable} {line : String × Nat} (ht : t.NamesClasses)
    (h : t.addLine line = .ok t') : t'.NamesClasses := by
  rcases addLine_eq_ok.mp h with ⟨-, rfl⟩ | ⟨e, hEntry, hAdd⟩
  · exact ht
  · cases e with
    | ofClass old new =>
      obtain ⟨hOld, hNew⟩ := (Entry.parse_eq_ok.mp hEntry).isClassName
      exact ht.addClass (isClassName_iff.mpr hOld) (isClassName_iff.mpr hNew) hAdd
    | ofField key new =>
      obtain ⟨fields, -, rfl⟩ := addField_eq_ok.mp hAdd
      exact ht.of_classes rfl
    | ofMethod key new =>
      obtain ⟨-, methods, -, rfl⟩ := addMethod_eq_ok.mp hAdd
      exact ht.of_classes rfl

theorem namesClasses_of_parse {text : String} (h : parse text = .ok t) : t.NamesClasses := by
  obtain ⟨t', hLines, h⟩ := Outcome.bind_eq_ok.mp h
  obtain ⟨_, -, h⟩ := Outcome.bind_eq_ok.mp h
  cases h
  exact Outcome.foldlM_invariant (P := NamesClasses) (fun _ _ _ ht => ht.addLine)
    namesClasses_empty hLines

/-- The table comes about by adding entries. -/
inductive Built : RenameTable → Prop
  | empty : Built empty
  | withClass {t t' : RenameTable} {old new : String} (ht : Built t)
      (h : t.addClass old new = .ok t') : Built t'
  | withField {t t' : RenameTable} {key : MemberKey} {new : String} (ht : Built t)
      (h : t.addField key new = .ok t') : Built t'
  | withMethod {t t' : RenameTable} {key : MemberKey} {new : String} (ht : Built t)
      (h : t.addMethod key new = .ok t') : Built t'

theorem built_withClass (ht : t.Built) (old new : String) : (t.withClass old new).Built := by
  rw [RenameTable.withClass]
  cases hAdd : t.addClass old new with
  | error e => exact ht
  | ok t' => exact ht.withClass hAdd

theorem built_ofClasses (entries : List (String × String)) : (ofClasses entries).Built := by
  induction entries using List.reverseRecOn with
  | nil => exact .empty
  | append_singleton entries e ih =>
    rw [ofClasses, List.foldl_append]
    exact built_withClass ih e.1 e.2

/-- An entry for a method whose name starts with an angle bracket changes nothing. -/
theorem Built.newMethod?_reserved (ht : t.Built) {key : MemberKey}
    (hReserved : Text.startsWith '<' key.name = true) (h : t.newMethod? key = some new) :
    new = key.name := by
  induction ht with
  | empty =>
    rw [newMethod?_empty] at h
    cases h
  | withClass _ hAdd ih =>
    obtain ⟨classes, -, rfl⟩ := addClass_eq_ok.mp hAdd
    exact ih h
  | withField _ hAdd ih =>
    obtain ⟨fields, -, rfl⟩ := addField_eq_ok.mp hAdd
    exact ih h
  | @withMethod t t' key' new' _ hAdd ih =>
    obtain ⟨hAllowed, methods, hMethods, rfl⟩ := addMethod_eq_ok.mp hAdd
    rw [newMethod?, addEntry_eq_ok hMethods] at h
    split at h
    · rename_i hKey
      cases h
      obtain rfl := eq_of_beq hKey
      exact (hAllowed hReserved).symm
    · exact ih h

theorem Built.add {t' : RenameTable} {e : Entry} (ht : t.Built) (h : t.add e = .ok t') :
    t'.Built := by
  cases e with
  | ofClass old new => exact ht.withClass h
  | ofField key new => exact ht.withField h
  | ofMethod key new => exact ht.withMethod h

theorem Built.addLine {t' : RenameTable} {line : String × Nat} (ht : t.Built)
    (h : t.addLine line = .ok t') : t'.Built := by
  rcases addLine_eq_ok.mp h with ⟨-, rfl⟩ | ⟨e, -, hAdd⟩
  · exact ht
  · exact ht.add hAdd

theorem built_of_parse {text : String} (h : parse text = .ok t) : t.Built := by
  obtain ⟨t', hLines, h⟩ := Outcome.bind_eq_ok.mp h
  obtain ⟨_, -, h⟩ := Outcome.bind_eq_ok.mp h
  cases h
  exact Outcome.foldlM_invariant (P := Built) (fun _ _ _ ht => ht.addLine) .empty hLines

end RenameTable

end Renaming
