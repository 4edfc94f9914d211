import Renaming.Proofs.RenameTable.Answers
import Renaming.Proofs.RenameTable.Format
import Renaming.Proofs.Text.Lines

/-!
# Consistent mapping files

A mapping file is accepted exactly if it is consistent: its lines are well formed, no class or member is
given two names, and no two of them come to share one. Its table answers what the lines say.
-/

namespace Renaming.RenameTable

def columns (line : String) : List String := Text.words (Text.beforeFirst '#' line)

/-- There is nothing on the line but perhaps a comment. -/
def IsBlankLine (line : String) : Prop :=
  ∀ c ∈ (Text.beforeFirst '#' line).toList, Text.isBlank c = true

/-- One of the lines is the entry. -/
def Says (text : String) (e : Entry) : Prop :=
  ∃ line ∈ Text.endedLines text, Entry.Written (columns line) e

/-- The renaming is that of the entries for classes. -/
def RenamesClasses (text : String) (f : ClassRenaming) : Prop :=
  ∀ old new, f old = some new ↔ Says text (.ofClass old new)

/-- Two members of one owner do not get the same name unless their descriptors differ after renaming the
classes in them. -/
def KeepsApart (text : String) (f : ClassRenaming) (entry : MemberKey → String → Entry) : Prop :=
  ∀ key key' new, Says text (entry key new) → Says text (entry key' new) → key.owner = key'.owner →
    Descriptor.rename f key.descriptor = Descriptor.rename f key'.descriptor → key = key'

/-- No line is malformed, no class or member is given two new names, constructors and initialisers keep
theirs, and no two classes and no two members of an owner come to share one. -/
structure Consistent (text : String) : Prop where
  lines : ∀ line ∈ Text.endedLines text, IsBlankLine line ∨ ∃ e, Entry.Written (columns line) e
  once : ∀ e e', Says text e → Says text e' → e.subject = e'.subject → e.new = e'.new
  special : ∀ key new, Says text (.ofMethod key new) →
    key.name = "<init>" ∨ key.name = "<clinit>" → new = key.name
  classesApart : ∀ old old' new,
    Says text (.ofClass old new) → Says text (.ofClass old' new) → old = old'
  membersApart : ∃ f, RenamesClasses text f ∧ KeepsApart text f .ofField ∧ KeepsApart text f .ofMethod

def rows (lines : List String) : List (List String) := (lines.map columns).filter (· ≠ [])

theorem columns_eq_nil_iff {line : String} : columns line = [] ↔ IsBlankLine line :=
  Text.words_eq_nil_iff

theorem columns_withoutReturn (line : String) : columns (Text.withoutReturn line) = columns line := by
  rcases Text.withoutReturn_cases line with hSame | hReturn
  · rw [hSame]
  · generalize Text.withoutReturn line = front at hReturn ⊢
    rw [columns, columns, Text.beforeFirst, Text.beforeFirst, hReturn, List.takeWhile_append]
    split
    · rename_i hLength
      rw [(List.takeWhile_prefix _).eq_of_length hLength]
      exact (Text.words_append_blank (c := '\r') (by decide) (by simp)).symm
    · -- The carriage return is part of a comment.
      rfl

theorem rows_withoutReturn (lines : List String) : rows (lines.map Text.withoutReturn) = rows lines := by
  simp only [rows, List.map_map, Function.comp_def, columns_withoutReturn]

theorem rows_cons (line : String) (lines : List String) : rows (line :: lines) =
    if columns line = [] then rows lines else columns line :: rows lines := by
  rw [rows, List.map_cons, List.filter_cons, rows]
  by_cases hBlank : columns line = []
  · rw [if_pos hBlank, if_neg (by simpa using hBlank)]
  · rw [if_neg hBlank, if_pos (by simpa using hBlank)]

theorem rows_append (lines lines' : List String) :
    rows (lines ++ lines') = rows lines ++ rows lines' := by
  rw [rows, List.map_append, List.filter_append, rows, rows]

/-- How a line ends makes no difference. -/
theorem rows_endedLines (text : String) : rows (Text.endedLines text) = rows (Text.lines text) := by
  rw [Text.endedLines]
  rcases List.eq_nil_or_concat' (Text.lines text) with hNone | ⟨front, last, hLast⟩
  · rw [hNone]
    rfl
  · rw [hLast, List.dropLast_concat, List.getLast?_concat, rows_append, rows_append,
      rows_withoutReturn, List.append_cancel_left_eq]
    by_cases hEmpty : last = ""
    · subst hEmpty
      rfl
    · simp [hEmpty]

theorem mem_rows {lines : List String} {row : List String} :
    row ∈ rows lines ↔ row ≠ [] ∧ ∃ line ∈ lines, columns line = row := by
  rw [rows, List.mem_filter, List.mem_map, decide_eq_true_eq, and_comm]

theorem Entry.Written.ne_nil {row : List String} {e : Entry} (h : Entry.Written row e) : row ≠ [] := by
  cases h <;> exact List.cons_ne_nil _ _

theorem says_iff {text : String} {e : Entry} :
    Says text e ↔ ∃ row ∈ rows (Text.endedLines text), Entry.parse row = .ok e := by
  simp only [mem_rows, Entry.parse_eq_ok]
  constructor
  · rintro ⟨line, hLine, hWritten⟩
    exact ⟨columns line, ⟨hWritten.ne_nil, line, hLine, rfl⟩, hWritten⟩
  · rintro ⟨_, ⟨-, line, hLine, rfl⟩, hWritten⟩
    exact ⟨line, hLine, hWritten⟩

variable {t t' : RenameTable} {text : String} {es : List Entry}

theorem foldlM_addLine_eq_ok {lines : List String} {n : Nat} :
    (lines.zipIdx n).foldlM addLine t = .ok t' ↔
      ∃ es, (rows lines).mapM Entry.parse = .ok es ∧ es.foldlM add t = .ok t' := by
  induction lines generalizing t n with
  | nil =>
    constructor
    · intro h
      exact ⟨[], rfl, h⟩
    · rintro ⟨es, hes, h⟩
      cases hes
      exact h
  | cons line lines ih =>
    rw [List.zipIdx_cons, List.foldlM_cons, Outcome.bind_eq_ok, rows_cons]
    simp only [addLine_eq_ok, ih]
    change (∃ t₁, (columns line = [] ∧ t = t₁ ∨ ∃ e, Entry.parse (columns line) = .ok e ∧
      t.add e = .ok t₁) ∧ _) ↔ _
    split
    · rename_i hBlank
      simp [hBlank, Entry.parse]
    · rename_i hColumns
      simp only [hColumns, false_and, false_or, List.mapM_cons, Outcome.bind_eq_ok,
        Outcome.pure_eq_ok]
      constructor
      · rintro ⟨t₁, ⟨e, he, hAdd⟩, es, hes, hRest⟩
        refine ⟨e :: es, ⟨e, he, es, hes, rfl⟩, ?_⟩
        rw [List.foldlM_cons, Outcome.bind_eq_ok]
        exact ⟨t₁, hAdd, hRest⟩
      · rintro ⟨_, ⟨e, he, es, hes, rfl⟩, hAll⟩
        rw [List.foldlM_cons, Outcome.bind_eq_ok] at hAll
        obtain ⟨t₁, hAdd, hRest⟩ := hAll
        exact ⟨t₁, ⟨e, he, hAdd⟩, es, hes, hRest⟩

theorem parse_eq_ok : parse text = .ok t ↔ ∃ es,
    (rows (Text.endedLines text)).mapM Entry.parse = .ok es ∧ es.foldlM add empty = .ok t ∧
      t.validate = .ok () := by
  rw [parse, rows_endedLines]
  simp only [Outcome.bind_eq_ok, foldlM_addLine_eq_ok, Outcome.pure_eq_ok]
  constructor
  · rintro ⟨t, ⟨es, hes, hFold⟩, _, hValid, rfl⟩
    exact ⟨es, hes, hFold, hValid⟩
  · rintro ⟨es, hes, hFold, hValid⟩
    exact ⟨t, ⟨es, hes, hFold⟩, (), hValid, rfl⟩

theorem mem_entries_iff (h : (rows (Text.endedLines text)).mapM Entry.parse = .ok es) {e : Entry} :
    e ∈ es ↔ Says text e := by
  rw [Outcome.mapM_eq_ok] at h
  rw [says_iff]
  constructor
  · exact Outcome.exists_of_mem h e
  · rintro ⟨row, hRow, he⟩
    obtain ⟨e', he', hParse⟩ := Outcome.exists_of_mem h.flip row hRow
    cases he.symm.trans hParse
    exact he'

theorem exists_entries_iff : (∃ es, (rows (Text.endedLines text)).mapM Entry.parse = .ok es) ↔
    ∀ line ∈ Text.endedLines text, IsBlankLine line ∨ ∃ e, Entry.Written (columns line) e := by
  simp only [← columns_eq_nil_iff, ← Entry.parse_eq_ok]
  constructor
  · rintro ⟨es, hes⟩ line hLine
    rw [Outcome.mapM_eq_ok] at hes
    by_cases hBlank : columns line = []
    · exact .inl hBlank
    · obtain ⟨e, -, he⟩ := Outcome.exists_of_mem hes.flip _ (mem_rows.mpr ⟨hBlank, line, hLine, rfl⟩)
      exact .inr ⟨e, he⟩
  · intro hLines
    cases hes : (rows (Text.endedLines text)).mapM Entry.parse with
    | ok es => exact ⟨es, rfl⟩
    | error fault =>
      obtain ⟨row, hRow, hFault⟩ := Outcome.exists_of_mapM_eq_error hes
      obtain ⟨hSome, line, hLine, rfl⟩ := mem_rows.mp hRow
      rcases hLines line hLine with hBlank | ⟨e, he⟩
      · exact absurd hBlank hSome
      · cases he.symm.trans hFault

/-- The table answers what the file says. -/
theorem answer?_of_parse (h : parse text = .ok t) (e : Entry) :
    t.answer? e.subject = some e.new ↔ Says text e := by
  obtain ⟨es, hes, hFold, -⟩ := parse_eq_ok.mp h
  rw [answers_of_foldlM hFold e, mem_entries_iff hes]

theorem startsWith_of_isMemberName {name : String} (h : IsMemberName name) :
    Text.startsWith '<' name = false :=
  Text.startsWith_of_notMem fun hMem => h.2 '<' hMem (by decide)

/-- Of the names in a file only those of constructors and initialisers are reserved. -/
theorem startsWith_iff_of_written {row : List String} {key : MemberKey} {new : String}
    (h : Entry.Written row (.ofMethod key new)) :
    Text.startsWith '<' key.name = true ↔ key.name = "<init>" ∨ key.name = "<clinit>" := by
  have hSpecial : ∀ {name : String}, name = "<init>" ∨ name = "<clinit>" →
      Text.startsWith '<' name = true := by
    rintro _ (rfl | rfl) <;> decide
  cases h with
  | ofMethod hOwner hName hDescriptor hNew =>
    exact iff_of_false (Bool.eq_false_iff.mp (startsWith_of_isMemberName hName))
      fun h => Bool.eq_false_iff.mp (startsWith_of_isMemberName hName) (hSpecial h)
  | ofSpecial hOwner hName hDescriptor => exact iff_of_true (hSpecial hName) hName

theorem compatible_iff (hes : ∀ e, e ∈ es ↔ Says text e) : Compatible es ↔
    (∀ e e', Says text e → Says text e' → e.subject = e'.subject → e.new = e'.new) ∧
      ∀ key new, Says text (.ofMethod key new) → key.name = "<init>" ∨ key.name = "<clinit>" →
        new = key.name := by
  constructor
  · intro h
    refine ⟨fun e e' he he' => h.unique e ((hes e).mpr he) e' ((hes e').mpr he'), ?_⟩
    rintro key new ⟨line, hLine, hWritten⟩ hSpecial
    exact (h.reserved _ ((hes _).mpr ⟨line, hLine, hWritten⟩)
      ((startsWith_iff_of_written hWritten).mpr hSpecial)).symm
  · rintro ⟨hOnce, hSpecial⟩
    refine ⟨fun e he => ?_, fun e he e' he' => hOnce e e' ((hes e).mp he) ((hes e').mp he')⟩
    obtain ⟨line, hLine, hWritten⟩ := (hes e).mp he
    cases e with
    | ofClass old new => trivial
    | ofField key new => trivial
    | ofMethod key new =>
      intro hReserved
      exact (hSpecial key new ⟨line, hLine, hWritten⟩
        ((startsWith_iff_of_written hWritten).mp hReserved)).symm

theorem newDescriptor_eq_iff {d d' s s' : String} (hd : Descriptor.rename t.newClass? d = .ok s)
    (hd' : Descriptor.rename t.newClass? d' = .ok s') : t.newDescriptor d = t.newDescriptor d' ↔
      Descriptor.rename t.newClass? d = Descriptor.rename t.newClass? d' := by
  rw [newDescriptor, newDescriptor, hd, hd', Except.ok.injEq]

theorem membersApart_iff {new? : MemberKey → Option String} {entry : MemberKey → String → Entry}
    (hAnswers : ∀ key new, new? key = some new ↔ Says text (entry key new))
    (hRename : ∀ row key new, Entry.Written row (entry key new) →
      ∃ s, Descriptor.rename t.newClass? key.descriptor = .ok s) :
    t.MembersApart new? ↔ KeepsApart text t.newClass? entry := by
  have hReads : ∀ key new, Says text (entry key new) →
      ∃ s, Descriptor.rename t.newClass? key.descriptor = .ok s := fun key new ⟨_, _, hWritten⟩ =>
    hRename _ key new hWritten
  simp only [MembersApart, KeepsApart, hAnswers]
  refine forall_congr' fun key => forall_congr' fun key' => forall_congr' fun new =>
    forall_congr' fun hKey => forall_congr' fun hKey' => ?_
  obtain ⟨s, hs⟩ := hReads key new hKey
  obtain ⟨s', hs'⟩ := hReads key' new hKey'
  rw [newDescriptor_eq_iff hs hs']

/-- The table of a file is valid if no two classes and no two members in it come to share a name. -/
theorem validate_iff_of_answers (hDistinct : t.Distinct)
    (hAnswers : ∀ e, t.answer? e.subject = some e.new ↔ Says text e) : t.validate = .ok () ↔
      (∀ old old' new, Says text (.ofClass old new) → Says text (.ofClass old' new) → old = old') ∧
        KeepsApart text t.newClass? .ofField ∧ KeepsApart text t.newClass? .ofMethod := by
  have hClasses : ∀ old new, t.newClass? old = some new ↔ Says text (.ofClass old new) :=
    fun old new => hAnswers (.ofClass old new)
  rw [hDistinct.validate_iff]
  simp only [hClasses]
  refine and_congr_right' (and_congr (membersApart_iff (fun key new => hAnswers (.ofField key new)) ?_)
    (membersApart_iff (fun key new => hAnswers (.ofMethod key new)) ?_))
  · intro row key new hWritten
    cases hWritten with
    | ofField _ _ hDescriptor _ => exact hDescriptor.exists_rename _
  · intro row key new hWritten
    cases hWritten with
    | ofMethod _ _ hDescriptor _ => exact hDescriptor.exists_rename _
    | ofSpecial _ _ hDescriptor => exact hDescriptor.exists_rename _

theorem exists_parse_iff : (∃ t, parse text = .ok t) ↔ Consistent text := by
  constructor
  · rintro ⟨t, ht⟩
    obtain ⟨es, hes, hFold, hValid⟩ := parse_eq_ok.mp ht
    obtain ⟨hOnce, hSpecial⟩ := (compatible_iff fun e => mem_entries_iff hes).mp
      (exists_foldlM_add_iff.mp ⟨t, hFold⟩)
    obtain ⟨hClasses, hMembers⟩ := (validate_iff_of_answers (built_of_foldlM hFold).distinct
      (answer?_of_parse ht)).mp hValid
    exact ⟨exists_entries_iff.mp ⟨es, hes⟩, hOnce, hSpecial, hClasses,
      t.newClass?, fun old new => answer?_of_parse ht (.ofClass old new), hMembers⟩
  · intro h
    obtain ⟨es, hes⟩ := exists_entries_iff.mpr h.lines
    have hMem : ∀ e, e ∈ es ↔ Says text e := fun e => mem_entries_iff hes
    obtain ⟨t, hFold⟩ := exists_foldlM_add_iff.mpr ((compatible_iff hMem).mpr ⟨h.once, h.special⟩)
    have hAnswers : ∀ e, t.answer? e.subject = some e.new ↔ Says text e := fun e =>
      (answers_of_foldlM hFold e).trans (hMem e)
    obtain ⟨f, hf, hMembers⟩ := h.membersApart
    obtain rfl : f = t.newClass? := by
      funext old
      exact Option.ext fun new => (hf old new).trans (hAnswers (.ofClass old new)).symm
    have hValid := (validate_iff_of_answers (built_of_foldlM hFold).distinct hAnswers).mpr
      ⟨h.classesApart, hMembers⟩
    exact ⟨t, parse_eq_ok.mpr ⟨es, hes, hFold, hValid⟩⟩

/-- Exactly the consistent files are accepted, and the table of one answers what its lines say. -/
theorem parse_iff_consistent (text : String) : ((∃ t, parse text = .ok t) ↔ Consistent text) ∧
    ∀ t, parse text = .ok t →
      (∀ old new, t.newClass? old = some new ↔ Says text (.ofClass old new)) ∧
      (∀ key new, t.newField? key = some new ↔ Says text (.ofField key new)) ∧
      ∀ key new, t.newMethod? key = some new ↔ Says text (.ofMethod key new) :=
  ⟨exists_parse_iff, fun _ ht => ⟨fun old new => answer?_of_parse ht (.ofClass old new),
    fun key new => answer?_of_parse ht (.ofField key new),
    fun key new => answer?_of_parse ht (.ofMethod key new)⟩⟩

namespace Swap

def file : String := "class a/A b/B # and back\r\n\nclass b/B a/A\nfield a/A.x Lb/B; y\n"

theorem parse_rows : (rows (Text.endedLines file)).mapM Entry.parse =
    .ok [.ofClass "a/A" "b/B", .ofClass "b/B" "a/A", .ofField ⟨"a/A", "x", "Lb/B;"⟩ "y"] := by
  decide +kernel

theorem says_file_iff {e : Entry} : Says file e ↔ e = .ofClass "a/A" "b/B" ∨ e = .ofClass "b/B" "a/A" ∨
    e = .ofField ⟨"a/A", "x", "Lb/B;"⟩ "y" := by
  rw [← mem_entries_iff parse_rows]
  simp

def classes : ClassRenaming := fun name =>
  if name = "a/A" then some "b/B" else if name = "b/B" then some "a/A" else none

theorem renamesClasses : RenamesClasses file classes := by
  intro old new
  rw [says_file_iff, classes]
  split
  · rename_i hOld
    subst hOld
    simp [eq_comm]
  · rename_i hOld
    split
    · rename_i hOld'
      subst hOld'
      simp [eq_comm]
    · rename_i hOld'
      simp [hOld, hOld']

theorem consistent : Consistent file where
  lines := exists_entries_iff.mp ⟨_, parse_rows⟩
  once e e' he he' hSame := by
    rcases says_file_iff.mp he with rfl | rfl | rfl <;>
      rcases says_file_iff.mp he' with rfl | rfl | rfl <;>
        first | rfl | exact absurd hSame (by decide)
  special key new h := by
    simp [says_file_iff] at h
  classesApart old old' new h h' := by
    simp only [says_file_iff, reduceCtorEq, Entry.ofClass.injEq, or_false] at h h'
    rcases h with ⟨rfl, rfl⟩ | ⟨rfl, rfl⟩ <;> rcases h' with ⟨rfl, hNew⟩ | ⟨rfl, hNew⟩ <;>
      first | rfl | exact absurd hNew (by decide)
  membersApart := by
    refine ⟨classes, renamesClasses, fun key key' new h h' _ _ => ?_, fun key key' new h => ?_⟩
    · simp only [says_file_iff, reduceCtorEq, Entry.ofField.injEq, false_or] at h h'
      rw [h.1, h'.1]
    · simp [says_file_iff] at h

theorem parse_iff_consistent_swap : Consistent file ∧
    ∃ t, parse file = .ok t ∧ t.newClass? "a/A" = some "b/B" := by
  obtain ⟨t, ht⟩ := (parse_iff_consistent file).1.mpr consistent
  have hAnswers := ((parse_iff_consistent file).2 t ht).1 "a/A" "b/B"
  exact ⟨consistent, t, ht, hAnswers.mpr (says_file_iff.mpr (.inl rfl))⟩

end Swap

end Renaming.RenameTable
