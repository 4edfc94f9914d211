import Renaming.Proofs.Batch.InTurn
import Renaming.Proofs.Rewrite.Steps

/-!
# Files that fail alone

A file that cannot be read, or whose class an earlier file has, fails on its own: the rest of a batch
comes out as if that file were not there. The hash map that finds such files out is described by the
inputs read so far.
-/

namespace Renaming

open Effectful

def BatchInput.className? (input : BatchInput) : Option String :=
  (ClassModel.parse input.file).toOption.map ClassModel.name

namespace Batch

variable {α β : Type}

def definer? (inputs : List BatchInput) (name : String) : Option BatchInput :=
  inputs.find? (·.className? = some name)

/-- Whether an input that follows others is worked on: it can be read, and none of them has its
class. -/
def counts (before : List BatchInput) (input : BatchInput) : Bool :=
  input.className?.any fun name => (definer? before name).isNone

/-- Of the items that belong to inputs, those of the inputs that are worked on. -/
def counted (before : List BatchInput) : List BatchInput → List α → List α
  | input :: rest, a :: as =>
    if counts before input then a :: counted (before ++ [input]) rest as
    else counted (before ++ [input]) rest as
  | _, _ => []

/-- The inputs that can be read and have a class that none before them has. -/
def remaining (inputs : List BatchInput) : List BatchInput := counted [] inputs inputs

theorem counted_map (f : α → β) (before inputs : List BatchInput) (as : List α) :
    counted before inputs (as.map f) = (counted before inputs as).map f := by
  induction inputs generalizing before as with
  | nil => rfl
  | cons input rest ih =>
    cases as with
    | nil => rfl
    | cons a as =>
      rw [List.map_cons, counted, counted, ih, apply_ite (List.map f)]
      rfl

/-- What becomes of an input that follows others. -/
def verdict (before : List BatchInput) (input : BatchInput) : Except Failure ClassModel :=
  match ClassModel.parse input.file with
  | .error e => .error (.malformedClassFile input.id e)
  | .ok c =>
    match definer? before c.name with
    | some first => .error (.duplicateClass c.name first.id)
    | none => .ok c

def jobsAfter (before : List BatchInput) : List BatchInput → List Job
  | [] => []
  | input :: rest => (input.id, verdict before input) :: jobsAfter (before ++ [input]) rest

theorem className?_of_error {input : BatchInput} {e : ReadError}
    (h : ClassModel.parse input.file = .error e) : input.className? = none := by
  rw [BatchInput.className?, h]
  rfl

theorem className?_of_ok {input : BatchInput} {c : ClassModel}
    (h : ClassModel.parse input.file = .ok c) : input.className? = some c.name := by
  rw [BatchInput.className?, h]
  rfl

theorem definer?_append (before : List BatchInput) (input : BatchInput) (name : String) :
    definer? (before ++ [input]) name = (definer? before name).or
      (if input.className? = some name then some input else none) := by
  rw [definer?, List.find?_append, List.find?_singleton]
  simp only [decide_eq_true_eq]
  rfl

theorem verdict_eq_malformed {before : List BatchInput} {input : BatchInput} {id : String}
    {e : ReadError} : verdict before input = .error (.malformedClassFile id e) ↔
      id = input.id ∧ ClassModel.parse input.file = .error e := by
  rw [verdict]
  cases ClassModel.parse input.file with
  | error e' =>
    rw [Except.error.injEq, Failure.malformedClassFile.injEq, Except.error.injEq, @eq_comm _ id]
  | ok c =>
    dsimp only
    split <;> simp

theorem verdict_eq_duplicate {before : List BatchInput} {input : BatchInput}
    {name first : String} : verdict before input = .error (.duplicateClass name first) ↔
      input.className? = some name ∧ (definer? before name).map BatchInput.id = some first := by
  rw [verdict]
  cases hParse : ClassModel.parse input.file with
  | error e => simp [className?_of_error hParse]
  | ok c =>
    rw [className?_of_ok hParse, Option.some.injEq]
    dsimp only
    split
    · rename_i earlier hFirst
      rw [Except.error.injEq, Failure.duplicateClass.injEq]
      apply and_congr_right
      rintro rfl
      rw [hFirst, Option.map_some, Option.some.injEq]
    · rename_i hNone
      constructor
      · exact fun hEq => by cases hEq
      · rintro ⟨rfl, hFirst⟩
        rw [hNone] at hFirst
        cases hFirst

theorem verdict_of_counts (before : List BatchInput) (input : BatchInput) :
    (∃ c, verdict before input = .ok c ∧ counts before input = true) ∨
      ∃ e, verdict before input = .error e ∧ counts before input = false := by
  rw [verdict, counts]
  cases hParse : ClassModel.parse input.file with
  | error e => exact Or.inr ⟨_, rfl, by rw [className?_of_error hParse]; rfl⟩
  | ok c =>
    rw [className?_of_ok hParse, Option.any_some]
    dsimp only
    cases definer? before c.name with
    | some first => exact Or.inr ⟨_, rfl, rfl⟩
    | none => exact Or.inl ⟨c, rfl, rfl⟩

theorem readFrom_eq {defined : Std.HashMap String String} {before : List BatchInput}
    (h : ∀ name, defined[name]? = (definer? before name).map BatchInput.id)
    (inputs : List BatchInput) : readFrom defined inputs = jobsAfter before inputs := by
  induction inputs generalizing defined before with
  | nil => rfl
  | cons input rest ih =>
    rw [readFrom, jobsAfter, verdict]
    cases hParse : ClassModel.parse input.file with
    | error e =>
      dsimp only
      rw [ih]
      intro name
      rw [definer?_append, className?_of_error hParse, if_neg (by simp), Option.or_none, h]
    | ok c =>
      dsimp only
      rw [h c.name]
      cases hFirst : definer? before c.name with
      | some first =>
        dsimp only [Option.map_some]
        rw [ih]
        intro name
        rw [definer?_append, className?_of_ok hParse, h]
        split
        · rename_i hEq
          cases hEq
          rw [hFirst]
          rfl
        · rw [Option.or_none]
      | none =>
        dsimp only [Option.map_none]
        rw [ih]
        intro name
        rw [definer?_append, className?_of_ok hParse, Std.HashMap.getElem?_insert, h]
        by_cases hName : c.name = name
        · rw [if_pos (beq_iff_eq.mpr hName), if_pos (congrArg some hName), ← hName, hFirst]
          rfl
        · rw [if_neg (mt eq_of_beq hName), if_neg (fun hEq => hName (Option.some.inj hEq)),
            Option.or_none]

theorem readFrom_empty (inputs : List BatchInput) : readFrom ∅ inputs = jobsAfter [] inputs :=
  readFrom_eq (fun name => by simp [definer?]) inputs

theorem getElem?_jobsAfter (before inputs : List BatchInput) (i : Nat) :
    (jobsAfter before inputs)[i]? =
      inputs[i]?.map fun input => (input.id, verdict (before ++ inputs.take i) input) := by
  induction inputs generalizing before i with
  | nil => rfl
  | cons input rest ih =>
    cases i with
    | zero => simp [jobsAfter]
    | succ i => simp [jobsAfter, ih]

def SameClasses (before before' : List BatchInput) : Prop :=
  ∀ name, (definer? before name).isNone = (definer? before' name).isNone

theorem SameClasses.append {before before' : List BatchInput} (h : SameClasses before before')
    (input : BatchInput) : SameClasses (before ++ [input]) (before' ++ [input]) := by
  intro name
  rw [definer?_append, definer?_append, Option.isNone_or, Option.isNone_or, h name]

theorem SameClasses.skip {before before' : List BatchInput} (h : SameClasses before before')
    {input : BatchInput} (hInput : counts before' input = false) :
    SameClasses before (before' ++ [input]) := by
  intro name
  rw [definer?_append, h name]
  split
  · rename_i hName
    rw [counts, hName, Option.any_some] at hInput
    rw [Option.isNone_or, hInput]
    rfl
  · rw [Option.or_none]

theorem SameClasses.verdict {before before' : List BatchInput} (h : SameClasses before before')
    {input : BatchInput} {c : ClassModel} (hInput : verdict before' input = .ok c) :
    verdict before input = .ok c := by
  rw [Batch.verdict] at hInput ⊢
  cases hParse : ClassModel.parse input.file with
  | error e =>
    rw [hParse] at hInput
    cases hInput
  | ok d =>
    rw [hParse] at hInput
    dsimp only at hInput ⊢
    have hNone := h d.name
    cases hFirst : definer? before' d.name with
    | some first =>
      rw [hFirst] at hInput
      cases hInput
    | none =>
      rw [hFirst] at hInput hNone
      rw [Option.isNone_iff_eq_none.mp hNone]
      exact hInput

variable {r : Renamer}

theorem outcome_of_error (id : String) (e : Failure) (h : Hierarchy) :
    (outcome r (id, .error e)).run h = (.ok (⟨id, .failed e⟩, []), h) := rfl

/-- Without the inputs that are not worked on, the others come out the same. -/
theorem mapM_outcome_counted {before kept inputs : List BatchInput} {h h' : Hierarchy}
    {o : Except Failure (List (FileReport × List Diagnostic))} (hSame : SameClasses kept before)
    (hRun : ((jobsAfter before inputs).mapM (outcome r)).run h = (o, h')) :
    ((jobsAfter kept (counted before inputs inputs)).mapM (outcome r)).run h =
        (o.map (counted before inputs), h') ∧
      ∀ reports, o = .ok reports →
        (counted before inputs reports).flatMap Prod.snd = reports.flatMap Prod.snd := by
  -- Both runs are in the same hierarchy before each input: a job that failed before leaves it alone. The
  -- inputs so far differ, but not in the classes that they have.
  induction inputs generalizing kept before h o with
  | nil =>
    cases hRun
    refine ⟨rfl, fun reports hReports => ?_⟩
    cases hReports
    rfl
  | cons input rest ih =>
    rw [jobsAfter, List.mapM_cons] at hRun
    rcases verdict_of_counts before input with
      ⟨c, hVerdict, hCounts⟩ | ⟨e, hVerdict, hCounts⟩
    · rw [counted, if_pos hCounts, jobsAfter, hSame.verdict hVerdict, List.mapM_cons]
      rw [hVerdict] at hRun
      rcases bind_run.mp hRun with ⟨report, h₁, hHead, hTail⟩ | ⟨e, hHead, rfl⟩
      · rw [bind_run_of_ok hHead]
        rcases bind_run.mp hTail with ⟨reports, h₂, hRest, hLast⟩ | ⟨e, hRest, rfl⟩
        · cases hLast
          obtain ⟨hKept, hNotes⟩ := ih (hSame.append input) hRest
          refine ⟨?_, fun _ hReports => ?_⟩
          · rw [bind_run_of_ok hKept, Except.map, counted, if_pos hCounts]
            rfl
          · cases hReports
            rw [counted, if_pos hCounts, List.flatMap_cons, List.flatMap_cons, hNotes reports rfl]
        · obtain ⟨hKept, -⟩ := ih (hSame.append input) hRest
          refine ⟨bind_run.mpr (Or.inr ⟨e, hKept, rfl⟩), fun _ hReports => by cases hReports⟩
      · exact ⟨bind_run.mpr (Or.inr ⟨e, hHead, rfl⟩), fun _ hReports => by cases hReports⟩
    · have hSkip : ∀ {γ : Type} (a : γ) (as : List γ), counted before (input :: rest) (a :: as) =
          counted (before ++ [input]) rest as := fun a as => by
        rw [counted, if_neg (Bool.eq_false_iff.mp hCounts)]
      rw [hVerdict, bind_run_of_ok (outcome_of_error input.id e h)] at hRun
      rw [hSkip]
      rcases bind_run.mp hRun with ⟨reports, h₂, hRest, hLast⟩ | ⟨e, hRest, rfl⟩
      · cases hLast
        obtain ⟨hKept, hNotes⟩ := ih (hSame.skip hCounts) hRest
        refine ⟨?_, fun _ hReports => ?_⟩
        · rw [hKept, Except.map, Except.map, hSkip]
        · cases hReports
          rw [hSkip, List.flatMap_cons, hNotes reports rfl, List.nil_append]
      · exact ⟨(ih (hSame.skip hCounts) hRest).1, fun _ hReports => by cases hReports⟩

theorem classes_counted {before kept : List BatchInput} (hSame : SameClasses kept before)
    (inputs : List BatchInput) :
    classes (jobsAfter kept (counted before inputs inputs)) = classes (jobsAfter before inputs) := by
  induction inputs generalizing kept before with
  | nil => rfl
  | cons input rest ih =>
    rcases verdict_of_counts before input with
      ⟨c, hVerdict, hCounts⟩ | ⟨e, hVerdict, hCounts⟩
    · rw [counted, if_pos hCounts, jobsAfter, jobsAfter, hSame.verdict hVerdict, hVerdict]
      exact congrArg (c :: ·) (ih (hSame.append input))
    · rw [counted, if_neg (Bool.eq_false_iff.mp hCounts), jobsAfter, hVerdict]
      exact ih (hSame.skip hCounts)

def Unworked (e : Failure) : Prop :=
  (∃ id source, e = .malformedClassFile id source) ∨ ∃ name first, e = .duplicateClass name first

theorem not_unworked_of_rewriting {e : Failure} (h : e.FromRewriting) : ¬ Unworked e := by
  rintro (⟨id, source, rfl⟩ | ⟨name, first, rfl⟩)
  · rcases h with h | ⟨subject, text, h⟩
    · exact h
    · cases h
  · rcases h with h | ⟨subject, text, h⟩
    · exact h
    · cases h

theorem not_unworked_of_write {rewritten : ClassModel} {e : Failure}
    (h : write rewritten = .failed e) : ¬ Unworked e := by
  rw [write] at h
  split at h
  · cases h
  · cases h
    rintro (⟨id, source, hEq⟩ | ⟨name, first, hEq⟩) <;> cases hEq

/-- The report on a file fits what there was before it. -/
structure Reports (before : List BatchInput) (input : BatchInput) (file : FileReport) : Prop where
  id : file.id = input.id
  malformed : ∀ id e, file.outcome = .failed (.malformedClassFile id e) ↔
    id = input.id ∧ ClassModel.parse input.file = .error e
  duplicate : ∀ name first, file.outcome = .failed (.duplicateClass name first) ↔
    input.className? = some name ∧ (definer? before name).map BatchInput.id = some first

theorem outcome_of_ok {id : String} {c : ClassModel} {h h' : Hierarchy} {file : FileReport}
    {ds : List Diagnostic} (hRun : (outcome r (id, .ok c)).run h = (.ok (file, ds), h')) :
    file.id = id ∧ ∀ e, file.outcome = .failed e → ¬ Unworked e := by
  change outcome r (id, .ok c) h = _ at hRun
  rw [outcome] at hRun
  split at hRun
  · cases hRun
    exact ⟨rfl, fun e he => not_unworked_of_write he⟩
  · cases hRun
  · rename_i e h₁ _ hRewrite
    cases hRun
    refine ⟨rfl, fun e' he => ?_⟩
    cases he
    exact not_unworked_of_rewriting (Renamer.fromRewriting_of_rewrite hRewrite)

theorem failed_iff {id : String} {v : Except Failure ClassModel} {h h' : Hierarchy}
    {file : FileReport} {ds : List Diagnostic}
    (hRun : (outcome r (id, v)).run h = (.ok (file, ds), h')) {e : Failure} (he : Unworked e) :
    file.outcome = .failed e ↔ v = .error e := by
  cases v with
  | error e' =>
    cases hRun
    rw [Outcome.failed.injEq, Except.error.injEq]
  | ok c =>
    obtain ⟨-, hOther⟩ := outcome_of_ok hRun
    constructor
    · exact fun hEq => absurd he (hOther e hEq)
    · exact fun hEq => by cases hEq

theorem reports_of_outcome {before : List BatchInput} {input : BatchInput} {h h' : Hierarchy}
    {file : FileReport} {ds : List Diagnostic}
    (hRun : (outcome r (input.id, verdict before input)).run h = (.ok (file, ds), h')) :
    Reports before input file where
  id := by
    cases hVerdict : verdict before input with
    | error e =>
      rw [hVerdict] at hRun
      cases hRun
      rfl
    | ok c =>
      rw [hVerdict] at hRun
      exact (outcome_of_ok hRun).1
  malformed id e := by
    rw [failed_iff hRun (Or.inl ⟨id, e, rfl⟩), verdict_eq_malformed]
  duplicate name first := by
    rw [failed_iff hRun (Or.inr ⟨name, first, rfl⟩), verdict_eq_duplicate]

variable {config : Config} {t : RenameTable} {classpath : ClassPath} {inputs : List BatchInput}

theorem work_counted {h h' : Hierarchy} {o : Except Failure (List (FileReport × List Diagnostic))}
    (hRun : (work config t (jobsAfter [] inputs)).run h = (o, h')) :
    (work config t (jobsAfter [] (remaining inputs))).run h =
        (o.map (counted [] inputs), h') ∧
      ∀ reports, o = .ok reports →
        (counted [] inputs reports).flatMap Prod.snd = reports.flatMap Prod.snd := by
  have hSame : SameClasses [] [] := fun _ => rfl
  rw [work] at hRun ⊢
  rw [remaining, classes_counted hSame]
  rcases bind_run.mp hRun with ⟨r, h₁, hBuild, hJobs⟩ | ⟨e, hBuild, rfl⟩
  · rw [bind_run_of_ok hBuild]
    exact mapM_outcome_counted hSame hJobs
  · exact ⟨bind_run.mpr (Or.inr ⟨e, hBuild, rfl⟩), fun _ hReports => by cases hReports⟩

theorem reports_of_work {h h' : Hierarchy} {reports : List (FileReport × List Diagnostic)}
    (hRun : (work config t (jobsAfter [] inputs)).run h = (.ok reports, h')) :
    reports.length = inputs.length ∧ ∀ i input report, inputs[i]? = some input →
      reports[i]? = some report → Reports (inputs.take i) input report.1 := by
  rcases bind_run.mp hRun with ⟨r, h₁, -, hJobs⟩ | ⟨e, -, hEq⟩
  · constructor
    · rw [length_of_mapM hJobs, ← readFrom_empty, ← List.length_map (f := Prod.fst), id_readFrom,
        List.length_map]
    · intro i input report hInput hReport
      have hJob := getElem?_jobsAfter [] inputs i
      rw [hInput, Option.map_some, List.nil_append] at hJob
      obtain ⟨h₂, h₃, -, hOutcome⟩ := run_of_mapM hJobs hJob hReport
      exact reports_of_outcome hOutcome
  · cases hEq

/-- Files that cannot be read, or whose class an earlier file has, are reported as such and in place,
and the rest of the batch is renamed as it would be without them. -/
theorem run_isolates (config : Config) (t : RenameTable) (classpath : ClassPath)
    (inputs : List BatchInput) :
    (∀ report, run config t classpath inputs = .ok report →
      report.files.length = inputs.length ∧
      (∀ i input file, inputs[i]? = some input → report.files[i]? = some file →
        Reports (inputs.take i) input file) ∧
      run config t classpath (remaining inputs) =
        .ok ⟨counted [] inputs report.files, report.diagnostics⟩) ∧
    ∀ e, run config t classpath (remaining inputs) = .error e →
      run config t classpath inputs = .error e := by
  rcases hWork : (work config t (jobsAfter [] inputs)).run
    (Hierarchy.seeded classpath config (classes (jobsAfter [] inputs))) with ⟨o, h⟩
  obtain ⟨hRemaining, hNotes⟩ := work_counted hWork
  have hFull := run_eq config t classpath (readFrom_empty inputs)
  have hReduced := run_eq config t classpath (readFrom_empty (remaining inputs))
  rw [hWork] at hFull
  rw [remaining, classes_counted (fun _ => rfl), ← remaining, hRemaining] at hReduced
  cases o with
  | error e =>
    refine ⟨fun report hReport => ?_, fun e' he' => ?_⟩
    · rw [hFull] at hReport
      cases hReport
    · rw [hReduced] at he'
      rw [hFull]
      exact he'
  | ok reports =>
    refine ⟨fun report hReport => ?_, fun e' he' => ?_⟩
    · rw [hFull] at hReport
      cases hReport
      obtain ⟨hLength, hEach⟩ := reports_of_work hWork
      refine ⟨by rw [List.length_map, hLength], fun i input file hInput hFile => ?_, ?_⟩
      · rw [List.getElem?_map] at hFile
        obtain ⟨found, hFound, rfl⟩ := Option.map_eq_some_iff.mp hFile
        exact hEach i input found hInput hFound
      · rw [hReduced, counted_map]
        dsimp only [Except.map]
        rw [hNotes reports rfl]
    · rw [hReduced] at he'
      cases he'

end Batch

end Renaming
