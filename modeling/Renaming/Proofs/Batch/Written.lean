import Renaming.Proofs.Batch.Isolation
import Renaming.Proofs.ClassFile.RoundTrip
import Renaming.Proofs.Rewrite.References

/-!
# What is written for an input

The jobs of a batch are carried out one after the other in one hierarchy. The file that is written for
an input holds the class that the renamer made of it, in the hierarchy as the jobs before left it.
-/

namespace Renaming

open Effectful

namespace Batch

variable {config : Config} {t : RenameTable} {classpath : ClassPath} {inputs : List BatchInput}

/-- The renamer of a batch and the hierarchy in which the job of input number `i` is carried out. -/
def stateAt? (config : Config) (t : RenameTable) (classpath : ClassPath) (inputs : List BatchInput)
    (i : Nat) : Option (Renamer × Hierarchy) :=
  let jobs := readFrom ∅ inputs
  let start := (classes jobs).foldl Hierarchy.seed (Hierarchy.ofClasspath classpath config)
  match (Renamer.build t (classes jobs) config).run start with
  | (.ok r, h) =>
    match ((jobs.take i).mapM (outcome r)).run h with
    | (.ok _, h) => some (r, h)
    | (.error _, _) => none
  | (.error _, _) => none

/-- What the batch makes of the class in input number `i`. -/
def rewritten? (config : Config) (t : RenameTable) (classpath : ClassPath)
    (inputs : List BatchInput) (i : Nat) : Option Rewritten := do
  let (r, h) ← stateAt? config t classpath inputs i
  let (_, job) ← (readFrom ∅ inputs)[i]?
  let c ← job.toOption
  ((r.rewrite c).run h).1.toOption

theorem written_of_outcome {r : Renamer} {job : Job} {h h' : Hierarchy} {file : FileReport}
    {ds : List Diagnostic} {name : String} {bytes : Bytes}
    (hRun : (outcome r job).run h = (.ok (file, ds), h'))
    (hWritten : file.outcome = .written name bytes) :
    ∃ c rewritten, job.2 = .ok c ∧ (r.rewrite c).run h = (.ok rewritten, h') ∧
      name = rewritten.model.name ∧ rewritten.model.serialize = .ok bytes := by
  obtain ⟨id, v⟩ := job
  change outcome r (id, v) h = _ at hRun
  cases v with
  | error cause =>
    cases hRun
    cases hWritten
  | ok c =>
    rw [outcome] at hRun
    split at hRun
    · rename_i rewritten h₁ hRewrite
      cases hRun
      dsimp only [write] at hWritten
      split at hWritten
      · rename_i bytes' hSerialize
        cases hWritten
        exact ⟨c, rewritten, rfl, hRewrite, rfl, hSerialize⟩
      · cases hWritten
    · cases hRun
    · cases hRun
      cases hWritten

/-- The renamer of a batch and what it wrote for each input. -/
structure Wrote (config : Config) (t : RenameTable) (classpath : ClassPath)
    (inputs : List BatchInput) (files : List FileReport) (r : Renamer) : Prop where
  built : ∃ h, (Renamer.build t (classes (jobsAfter [] inputs)) config).run
    (Hierarchy.seeded classpath config (classes (jobsAfter [] inputs))) = (.ok r, h)
  written : ∀ {i : Nat} {file : FileReport} {name : String} {bytes : Bytes},
    files[i]? = some file → file.outcome = .written name bytes →
      ∃ input c rewritten h h', inputs[i]? = some input ∧
        verdict (inputs.take i) input = .ok c ∧
        rewritten? config t classpath inputs i = some rewritten ∧
        (r.rewrite c).run h = (.ok rewritten, h') ∧
        name = rewritten.model.name ∧ rewritten.model.serialize = .ok bytes

theorem wrote_of_run {report : BatchReport} (hRun : run config t classpath inputs = .ok report) :
    report.files.length = inputs.length ∧
      ∃ r, Wrote config t classpath inputs report.files r := by
  rw [run_eq _ _ _ (readFrom_empty inputs)] at hRun
  split at hRun
  · rename_i reports h' hWork
    cases hRun
    refine ⟨by rw [List.length_map, (reports_of_work hWork).1], ?_⟩
    rcases bind_run.mp hWork with ⟨r, h₁, hBuild, hJobs⟩ | ⟨e, -, hEq⟩
    · refine ⟨r, ⟨h₁, hBuild⟩, fun {i file name bytes} hFile hWritten => ?_⟩
      rw [List.getElem?_map, Option.map_eq_some_iff] at hFile
      obtain ⟨⟨file, ds⟩, hReport, rfl⟩ := hFile
      have hLength : reports.length = inputs.length := (reports_of_work hWork).1
      obtain ⟨hi, -⟩ := List.getElem?_eq_some_iff.mp hReport
      have hInput : inputs[i]? = some inputs[i] := List.getElem?_eq_getElem (hLength ▸ hi)
      have hJob := getElem?_jobsAfter [] inputs i
      rw [hInput, Option.map_some, List.nil_append] at hJob
      obtain ⟨h₂, h₃, hBefore, hStep⟩ := run_of_mapM hJobs hJob hReport
      obtain ⟨c, rewritten, hVerdict, hRewrite, hName, hBytes⟩ :=
        written_of_outcome hStep hWritten
      refine ⟨inputs[i], c, rewritten, h₂, h₃, hInput, hVerdict, ?_, hRewrite, hName, hBytes⟩
      have hState : stateAt? config t classpath inputs i = some (r, h₂) := by
        rw [Hierarchy.seeded] at hBuild
        rw [stateAt?, readFrom_empty, hBuild]
        dsimp only
        rw [hBefore]
      have hJobIs : verdict (inputs.take i) inputs[i] = .ok c := hVerdict
      rw [rewritten?, hState, readFrom_empty, hJob, hJobIs]
      change ((r.rewrite c).run h₂).1.toOption = _
      rw [hRewrite]
      rfl
    · cases hEq
  · cases hRun

theorem parse_of_verdict {before : List BatchInput} {input : BatchInput} {c : ClassModel}
    (h : verdict before input = .ok c) : ClassModel.parse input.file = .ok c := by
  rw [verdict] at h
  split at h
  · cases h
  · rename_i c' hParse
    split at h
    · cases h
    · cases h
      exact hParse

theorem run_of_steps {jobs : List Job} {r : Renamer} {h h' : Hierarchy}
    {reports : List (FileReport × List Diagnostic)} (hJobs : readFrom ∅ inputs = jobs)
    (hBuild : (Renamer.build t (classes jobs) config).run
      (Hierarchy.seeded classpath config (classes jobs)) = (.ok r, h))
    (hRun : (jobs.mapM (outcome r)).run h = (.ok reports, h')) :
    run config t classpath inputs =
      .ok ⟨reports.map Prod.fst, h'.diagnostics ++ reports.flatMap Prod.snd⟩ := by
  rw [run_eq config t classpath hJobs, work, bind_run_of_ok hBuild, hRun]

theorem write_of_serialize {c : ClassModel} {bytes : Bytes} (h : c.serialize = .ok bytes) :
    write c = .written c.name bytes := by
  rw [write, h]

theorem outcome_of_rewrite {r : Renamer} {c : ClassModel} {h h' : Hierarchy} {w : Rewritten}
    {o : Outcome} (id : String) (hRewrite : (r.rewrite c).run h = (.ok w, h'))
    (hWrite : write w.model = o) :
    (outcome r (id, .ok c)).run h = (.ok (⟨id, o⟩, w.diagnostics), h') := by
  change outcome r (id, .ok c) h = _
  rw [outcome, hRewrite, ← hWrite]

theorem rewrite_loadingClass {r : Renamer} (hCyclic : r.groups.cyclic = ∅)
    (hMethods : ∀ key, r.newMethod? key = none) (h : Hierarchy) :
    (r.rewrite ClassModel.loadingClass).run h =
      (.ok ⟨{ ClassModel.loadingClass with name := r.className "A" }, []⟩, h) := by
  have hName : (r.newMethod? ⟨"A", "m", "()V"⟩).getD "m" = "m" := by
    rw [hMethods]
    rfl
  have hMethod : (((r.siteOf ClassModel.loadingClass).atMember .method
      ClassModel.loadingMethod).method ClassModel.loadingMethod).run ⟨h, []⟩ =
        (.ok ClassModel.loadingMethod, ⟨h, []⟩) :=
    Site.method_run hName rfl rfl
  rw [Renamer.rewrite_run (by rw [hCyclic]; simp) rfl rfl rfl hMethod]
  rfl

theorem rewrite_below {r : Renamer} (hCyclic : r.groups.cyclic = ∅) (h : Hierarchy) :
    (r.rewrite Disturbed.below).run h = (.ok ⟨{ Disturbed.below with
      name := r.className "C"
      superName := some (r.className "A") }, []⟩, h) :=
  Renamer.rewrite_eq_ok.mpr ⟨by rw [hCyclic]; simp, [], rfl, rfl⟩

end Batch

end Renaming
