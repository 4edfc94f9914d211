import Mathlib.Data.List.Induction
import Renaming.Proofs.Clash
import Renaming.Proofs.RenameTable

/-!
# What a table answers

A table that entries are added to answers exactly these entries. An entry can be added if it does not
contradict those that are there, so that it does not matter in which order they come.
-/

namespace Renaming.RenameTable

inductive Subject where
  | ofClass (name : String)
  | ofField (key : MemberKey)
  | ofMethod (key : MemberKey)
deriving DecidableEq

namespace Entry

def subject : Entry → Subject
  | .ofClass old _ => .ofClass old
  | .ofField key _ => .ofField key
  | .ofMethod key _ => .ofMethod key

def new : Entry → String
  | .ofClass _ new => new
  | .ofField _ new => new
  | .ofMethod _ new => new

theorem ext {e e' : Entry} (hSubject : e.subject = e'.subject) (hNew : e.new = e'.new) : e = e' := by
  cases e <;> cases e' <;> cases hSubject <;> cases hNew <;> rfl

/-- A method whose name starts with an angle bracket keeps it. -/
def KeepsReserved : Entry → Prop
  | .ofMethod key new => Text.startsWith '<' key.name = true → key.name = new
  | .ofClass _ _ | .ofField _ _ => True

end Entry

/-- The new name that the table has for a class or member. -/
def answer? (t : RenameTable) : Subject → Option String
  | .ofClass name => t.newClass? name
  | .ofField key => t.newField? key
  | .ofMethod key => t.newMethod? key

variable {t t' : RenameTable} {e : Entry}

theorem answer?_empty (s : Subject) : empty.answer? s = none := by
  cases s with
  | ofClass name => exact newClass?_empty name
  | ofField key => exact newField?_empty key
  | ofMethod key => exact newMethod?_empty key

theorem exists_addEntry_iff {κ : Type} [BEq κ] [Hashable κ] [LawfulBEq κ] [LawfulHashable κ]
    {entries : OrderedMap κ String} {key : κ} {new : String} {conflict : String → Ambiguity} :
    (∃ entries', addEntry entries key new conflict = .ok entries') ↔
      ∀ old ∈ entries.find? key, old = new := by
  rw [addEntry]
  cases entries.find? key with
  | none => simp
  | some old => by_cases hSame : old = new <;> simp [hSame]

theorem exists_add_iff : (∃ t', t.add e = .ok t') ↔
    e.KeepsReserved ∧ ∀ old ∈ t.answer? e.subject, old = e.new := by
  cases e with
  | ofClass old new =>
    simp only [add, addClass_eq_ok, Entry.KeepsReserved, true_and]
    rw [exists_comm]
    simp only [exists_and_left, exists_eq', and_true]
    exact exists_addEntry_iff
  | ofField key new =>
    simp only [add, addField_eq_ok, Entry.KeepsReserved, true_and]
    rw [exists_comm]
    simp only [exists_and_left, exists_eq', and_true]
    exact exists_addEntry_iff
  | ofMethod key new =>
    simp only [add, addMethod_eq_ok, exists_and_left]
    refine and_congr_right' ?_
    rw [exists_comm]
    simp only [exists_and_left, exists_eq', and_true]
    exact exists_addEntry_iff

theorem answer?_add (h : t.add e = .ok t') (s : Subject) :
    t'.answer? s = if e.subject = s then some e.new else t.answer? s := by
  cases e with
  | ofClass old new =>
    obtain ⟨classes, hClasses, rfl⟩ := addClass_eq_ok.mp h
    cases s with
    | ofClass name =>
      rw [answer?, newClass?, addEntry_eq_ok hClasses]
      simp [Entry.subject, Entry.new, answer?, newClass?]
    | ofField key => rfl
    | ofMethod key => rfl
  | ofField key new =>
    obtain ⟨fields, hFields, rfl⟩ := addField_eq_ok.mp h
    cases s with
    | ofClass name => rfl
    | ofField other =>
      rw [answer?, newField?, addEntry_eq_ok hFields]
      simp [Entry.subject, Entry.new, answer?, newField?]
    | ofMethod other => rfl
  | ofMethod key new =>
    obtain ⟨-, methods, hMethods, rfl⟩ := addMethod_eq_ok.mp h
    cases s with
    | ofClass name => rfl
    | ofField other => rfl
    | ofMethod other =>
      rw [answer?, newMethod?, addEntry_eq_ok hMethods]
      simp [Entry.subject, Entry.new, answer?, newMethod?]

/-- No class or member gets two different new names, and what may not be renamed is not. -/
structure Compatible (es : List Entry) : Prop where
  reserved : ∀ e ∈ es, e.KeepsReserved
  unique : ∀ e ∈ es, ∀ e' ∈ es, e.subject = e'.subject → e.new = e'.new

theorem compatible_append {es : List Entry} : Compatible (es ++ [e]) ↔
    Compatible es ∧ e.KeepsReserved ∧ ∀ e' ∈ es, e'.subject = e.subject → e'.new = e.new := by
  constructor
  · intro h
    obtain ⟨hReserved, hKeeps⟩ := List.forall_mem_append.mp h.reserved
    have hFront : ∀ e' ∈ es, e' ∈ es ++ [e] := fun e' he' => List.mem_append_left _ he'
    exact ⟨⟨hReserved, fun a ha b hb => h.unique a (hFront a ha) b (hFront b hb)⟩,
      hKeeps e (List.mem_singleton_self e),
      fun e' he' => h.unique e' (hFront e' he') e (List.mem_append_right _ (List.mem_singleton_self e))⟩
  · rintro ⟨h, hKeeps, hAgrees⟩
    refine ⟨List.forall_mem_append.mpr ⟨h.reserved, List.forall_mem_singleton.mpr hKeeps⟩, ?_⟩
    simp only [List.mem_append, List.mem_singleton]
    rintro a (ha | rfl) b (hb | rfl) hSame
    · exact h.unique a ha b hb hSame
    · exact hAgrees a ha hSame
    · exact (hAgrees b hb hSame.symm).symm
    · rfl

/-- The table answers the entries of the list and no others. -/
def Answers (t : RenameTable) (es : List Entry) : Prop :=
  ∀ e, t.answer? e.subject = some e.new ↔ e ∈ es

theorem answers_empty : empty.Answers [] := fun e => by
  simp [answer?_empty]

variable {es : List Entry}

theorem Answers.exists_add_iff (ht : t.Answers es) : (∃ t', t.add e = .ok t') ↔
    e.KeepsReserved ∧ ∀ e' ∈ es, e'.subject = e.subject → e'.new = e.new := by
  rw [RenameTable.exists_add_iff]
  refine and_congr_right' ⟨fun h e' he' hSame => ?_, fun h old hOld => ?_⟩
  · exact h _ (hSame ▸ (ht e').mpr he')
  · have hEntry : ∃ e' : Entry, e'.subject = e.subject ∧ e'.new = old := by
      cases e with
      | ofClass name new => exact ⟨.ofClass name old, rfl, rfl⟩
      | ofField key new => exact ⟨.ofField key old, rfl, rfl⟩
      | ofMethod key new => exact ⟨.ofMethod key old, rfl, rfl⟩
    obtain ⟨e', hSame, rfl⟩ := hEntry
    exact h e' ((ht e').mp (hSame ▸ hOld)) hSame

theorem Answers.add (ht : t.Answers es) (h : t.add e = .ok t') : t'.Answers (es ++ [e]) := by
  intro e'
  rw [answer?_add h, List.mem_append, List.mem_singleton]
  split
  · rename_i hSame
    constructor
    · intro hNew
      exact .inr (Entry.ext hSame (Option.some.inj hNew)).symm
    · rintro (he' | rfl)
      · rw [(ht.exists_add_iff.mp ⟨t', h⟩).2 e' he' hSame.symm]
      · rfl
  · rename_i hOther
    rw [ht e']
    exact (or_iff_left fun hEq => hOther (congrArg Entry.subject hEq.symm)).symm

theorem answers_of_foldlM (h : es.foldlM add empty = .ok t) : t.Answers es := by
  induction es using List.reverseRecOn generalizing t with
  | nil =>
    cases h
    exact answers_empty
  | append_singleton es e ih =>
    rw [List.foldlM_append] at h
    obtain ⟨t₁, hFront, h⟩ := Outcome.bind_eq_ok.mp h
    rw [List.foldlM_cons] at h
    obtain ⟨t₂, hLast, h⟩ := Outcome.bind_eq_ok.mp h
    cases h
    exact (ih hFront).add hLast

/-- Entries can be added one after the other exactly if they are compatible. -/
theorem exists_foldlM_add_iff : (∃ t, es.foldlM add empty = .ok t) ↔ Compatible es := by
  induction es using List.reverseRecOn with
  | nil => exact iff_of_true ⟨empty, rfl⟩ ⟨by simp, by simp⟩
  | append_singleton es e ih =>
    rw [compatible_append, ← ih]
    simp only [List.foldlM_append, List.foldlM_cons, List.foldlM_nil, bind_pure, Outcome.bind_eq_ok]
    constructor
    · rintro ⟨t', t, ht, hAdd⟩
      exact ⟨⟨t, ht⟩, (answers_of_foldlM ht).exists_add_iff.mp ⟨t', hAdd⟩⟩
    · rintro ⟨⟨t, ht⟩, hEntry⟩
      obtain ⟨t', hAdd⟩ := (answers_of_foldlM ht).exists_add_iff.mpr hEntry
      exact ⟨t', t, ht, hAdd⟩

theorem distinct_addEntry {κ : Type} [BEq κ] [Hashable κ] [LawfulBEq κ] [LawfulHashable κ]
    {entries entries' : OrderedMap κ String} {key : κ} {new : String} {conflict : String → Ambiguity}
    (hEntries : entries.Distinct) (h : addEntry entries key new conflict = .ok entries') :
    entries'.Distinct := by
  unfold addEntry at h
  split at h
  · split at h
    · cases h
      exact hEntries
    · cases h
  · rename_i hNone
    cases h
    exact hEntries.push hNone new

/-- Every class and every member has one entry. -/
structure Distinct (t : RenameTable) : Prop where
  classes : t.classes.Distinct
  fields : t.fields.Distinct
  methods : t.methods.Distinct

theorem Built.distinct (ht : t.Built) : t.Distinct := by
  induction ht with
  | empty => exact ⟨OrderedMap.distinct_empty, OrderedMap.distinct_empty, OrderedMap.distinct_empty⟩
  | withClass _ hAdd ih =>
    obtain ⟨classes, hClasses, rfl⟩ := addClass_eq_ok.mp hAdd
    exact ⟨distinct_addEntry ih.classes hClasses, ih.fields, ih.methods⟩
  | withField _ hAdd ih =>
    obtain ⟨fields, hFields, rfl⟩ := addField_eq_ok.mp hAdd
    exact ⟨ih.classes, distinct_addEntry ih.fields hFields, ih.methods⟩
  | withMethod _ hAdd ih =>
    obtain ⟨-, methods, hMethods, rfl⟩ := addMethod_eq_ok.mp hAdd
    exact ⟨ih.classes, ih.fields, distinct_addEntry ih.methods hMethods⟩

theorem built_of_foldlM (h : es.foldlM add empty = .ok t) : t.Built :=
  Outcome.foldlM_invariant (P := Built) (fun _ _ _ ht => ht.add) .empty h

/-- Members of one owner whose new names and descriptors agree are the same one. -/
def MembersApart (t : RenameTable) (new? : MemberKey → Option String) : Prop :=
  ∀ key key' new, new? key = some new → new? key' = some new → key.owner = key'.owner →
    t.newDescriptor key.descriptor = t.newDescriptor key'.descriptor → key = key'

theorem nodup_memberTarget_iff {members : OrderedMap MemberKey String} (h : members.Distinct) :
    (members.toList.map t.memberTarget).Nodup ↔ t.MembersApart members.find? := by
  rw [h.nodup_map_iff]
  simp only [memberTarget, Prod.mk.injEq]
  constructor
  · intro hApart key key' new hKey hKey' hOwner hDescriptor
    exact hApart key key' new new hKey hKey' ⟨hOwner, rfl, hDescriptor⟩
  · rintro hApart key key' new new' hKey hKey' ⟨hOwner, rfl, hDescriptor⟩
    exact hApart key key' new hKey hKey' hOwner hDescriptor

theorem validate_eq_ok : t.validate = .ok () ↔ (t.classes.toList.map Prod.snd).Nodup ∧
    (t.fields.toList.map t.memberTarget).Nodup ∧ (t.methods.toList.map t.memberTarget).Nodup := by
  rw [← firstClash?_eq_none, ← firstClash?_eq_none, ← firstClash?_eq_none, validate]
  cases firstClash? Prod.snd t.classes.toList with
  | some clash => exact iff_of_false (fun h => nomatch h) fun h => nomatch h.1
  | none =>
    cases firstClash? t.memberTarget t.fields.toList with
    | some clash => exact iff_of_false (fun h => nomatch h) fun h => nomatch h.2.1
    | none =>
      cases firstClash? t.memberTarget t.methods.toList with
      | some clash => exact iff_of_false (fun h => nomatch h) fun h => nomatch h.2.2
      | none => exact iff_of_true rfl ⟨rfl, rfl, rfl⟩

theorem parse_withClass {mappings old new : String}
    (hLines : (Text.lines mappings).zipIdx 1 = [(mappings, 1)])
    (hColumns : Text.words (Text.beforeFirst '#' mappings) = ["class", old, new])
    (hEntry : Entry.parse ["class", old, new] = .ok (.ofClass old new)) :
    parse mappings = .ok (empty.withClass old new) := by
  have hTable : empty.withClass old new = { empty with classes := empty.classes.push old new } :=
    withClass_eq (newClass?_empty old)
  have hAdd : empty.add (.ofClass old new) = .ok (empty.withClass old new) := by
    rw [hTable, add, addClass, addEntry, empty]
    dsimp only
    rw [OrderedMap.find?_empty]
    rfl
  have hLine : addLine empty (mappings, 1) = .ok (empty.withClass old new) :=
    addLine_eq_ok.mpr (Or.inr ⟨_, hColumns ▸ hEntry, hAdd⟩)
  have hValid : (empty.withClass old new).validate = .ok () := by
    rw [hTable, validate_eq_ok, OrderedMap.toList_push]
    exact ⟨List.nodup_singleton new, List.nodup_nil, List.nodup_nil⟩
  rw [parse, hLines, List.foldlM_cons, hLine]
  exact congrArg (fun valid => valid >>= fun _ => Except.ok (empty.withClass old new)) hValid

/-- A table with one entry for each class and member is valid if no two of them come to share a name. -/
theorem Distinct.validate_iff (ht : t.Distinct) : t.validate = .ok () ↔
    (∀ old old' new, t.newClass? old = some new → t.newClass? old' = some new → old = old') ∧
      t.MembersApart t.newField? ∧ t.MembersApart t.newMethod? := by
  rw [validate_eq_ok, nodup_memberTarget_iff ht.fields, nodup_memberTarget_iff ht.methods,
    ht.classes.nodup_map_iff]
  refine and_congr_left' ⟨fun h old old' new hOld hOld' => ?_, fun h => ?_⟩
  · exact h old old' new new hOld hOld' rfl
  · rintro old old' new _ hOld hOld' rfl
    exact h old old' new hOld hOld'

end Renaming.RenameTable
