import Renaming.Proofs.Batch.Steps
import Renaming.Proofs.Batch.Written
import Renaming.Proofs.Hierarchy.Noted
import Renaming.Proofs.Hierarchy.Strict
import Renaming.Proofs.RenameTable

/-!
# Strict batches

A strict batch is a lenient one with one more check. It fails because of a missing class exactly if the
lenient one reports a missing class, and else both come out the same.
-/

namespace Renaming

open Effectful Hierarchy

/-- The same configuration, with a missing class making everything fail. -/
def Config.strictly (config : Config) : Config := { config with failOnUnresolved := true }

namespace Hierarchy

theorem strictly_seed (h : Hierarchy) (c : ClassModel) :
    h.strictly.seed c = (h.seed c).strictly := by
  have hNodes : h.strictly.nodes = h.nodes := rfl
  rw [seed, seed, hNodes]
  cases h.nodes[c.name]? <;> rfl

theorem strictly_seeded (classpath : ClassPath) (config : Config) (classes : List ClassModel) :
    seeded classpath config.strictly classes = (seeded classpath config classes).strictly := by
  have hFold : ∀ h : Hierarchy, classes.foldl seed h.strictly = (classes.foldl seed h).strictly := by
    induction classes with
    | nil => exact fun h => rfl
    | cons c classes ih =>
      intro h
      rw [List.foldl_cons, List.foldl_cons, strictly_seed, ih]
  exact hFold (ofClasspath classpath config)

end Hierarchy

namespace Batch

variable {config : Config} {t : RenameTable} {classpath : ClassPath} {inputs : List BatchInput}

theorem kind_of_outcome {r : Renamer} {job : Job} {h h' : Hierarchy}
    {report : FileReport × List Diagnostic} (hRun : (outcome r job).run h = (.ok report, h')) :
    ∀ d ∈ report.2, d.kind ≠ .unresolved := by
  obtain ⟨id, v⟩ := job
  cases v with
  | error e =>
    cases hRun
    exact List.forall_mem_nil _
  | ok c =>
    rw [outcome_eq, Exploring.answered_run] at hRun
    rcases hRewrite : (r.rewrite c).run h with ⟨o, h₁⟩
    rw [hRewrite] at hRun
    cases o with
    | ok rewritten =>
      cases hRun
      exact Renamer.kind_of_rewrite hRewrite
    | error e =>
      cases e with
      | unresolved name cause => cases hRun
      | _ =>
        cases hRun
        exact List.forall_mem_nil _

theorem kind_of_outcomes {r : Renamer} {jobs : List Job} {h h' : Hierarchy}
    {reports : List (FileReport × List Diagnostic)}
    (hRun : (jobs.mapM (outcome r)).run h = (.ok reports, h')) :
    ∀ d ∈ reports.flatMap Prod.snd, d.kind ≠ .unresolved := by
  induction jobs generalizing h reports with
  | nil =>
    cases hRun
    exact List.forall_mem_nil _
  | cons job jobs ih =>
    obtain ⟨report, h₁, reports', hHead, hRest, rfl⟩ := mapM_cons_run.mp hRun
    rw [List.flatMap_cons]
    exact List.forall_mem_append.mpr ⟨kind_of_outcome hHead, ih hRest⟩

theorem kind_of_work {jobs : List Job} {h h' : Hierarchy}
    {reports : List (FileReport × List Diagnostic)}
    (hRun : (work config t jobs).run h = (.ok reports, h')) :
    ∀ d ∈ reports.flatMap Prod.snd, d.kind ≠ .unresolved := by
  rcases bind_run.mp hRun with ⟨r, h₁, -, hJobs⟩ | ⟨e, -, hEq⟩
  · exact kind_of_outcomes hJobs
  · cases hEq

theorem work_strictly (config : Config) (t : RenameTable) (jobs : List Job) :
    work config.strictly t jobs = work config t jobs := rfl

/-- If the lenient batch succeeds, the strict one fails because of a missing class exactly if the report
of the lenient one has a missing class, and has the same report if there is none. -/
theorem run_strictly {report : BatchReport} (hLenient : config.failOnUnresolved = false)
    (hRun : run config t classpath inputs = .ok report) :
    ((∃ name cause, run config.strictly t classpath inputs = .error (.unresolved name cause)) ↔
        ∃ d ∈ report.diagnostics, d.kind = .unresolved) ∧
      ((¬ ∃ d ∈ report.diagnostics, d.kind = .unresolved) →
        run config.strictly t classpath inputs = .ok report) := by
  have hJobs := readFrom_empty inputs
  have hStrict := run_eq config.strictly t classpath hJobs
  rw [strictly_seeded] at hStrict
  rw [run_eq config t classpath hJobs] at hRun
  split at hRun
  · rename_i reports h' hWork
    cases hRun
    have hWorkKind := kind_of_work hWork
    have hWorkComposed := composed_work config t (jobsAfter [] inputs)
    have hStart := (reached_seeded classpath config (classes (jobsAfter [] inputs))).coherent.2
    obtain ⟨missing, hMissing, hKind⟩ := (hWorkComposed.steps _).diagnostics
    rw [hWork, newestDiagnostics_seeded, List.append_nil] at hMissing
    rcases hWorkComposed.strictRun (hStart.trans hLenient) hWork with
      ⟨hSame, hStrictWork⟩ | ⟨hMore, name, cause, h'', hStrictWork⟩
    · -- Nothing is missing, and the strict batch does the same.
      have hNone : h'.newestDiagnostics = [] := hSame.trans (newestDiagnostics_seeded _ _ _)
      have hReport : run config.strictly t classpath inputs =
          .ok ⟨reports.map Prod.fst, h'.diagnostics ++ reports.flatMap Prod.snd⟩ := by
        rw [hStrict, work_strictly, hStrictWork]
        rfl
      have hClean : ¬ ∃ d ∈ h'.diagnostics ++ reports.flatMap Prod.snd, d.kind = .unresolved := by
        rintro ⟨d, hd, hUnresolved⟩
        rw [diagnostics, hNone, List.reverse_nil, List.nil_append] at hd
        exact hWorkKind d hd hUnresolved
      refine ⟨⟨?_, fun hSome => absurd hSome hClean⟩, fun _ => hReport⟩
      rintro ⟨name, cause, hFails⟩
      rw [hReport] at hFails
      cases hFails
    · have hFails : run config.strictly t classpath inputs = .error (.unresolved name cause) := by
        rw [hStrict, work_strictly, hStrictWork]
      have hSome : ∃ d ∈ h'.diagnostics ++ reports.flatMap Prod.snd, d.kind = .unresolved := by
        rw [newestDiagnostics_seeded, hMissing] at hMore
        obtain ⟨d, hd⟩ := List.exists_mem_of_ne_nil missing hMore
        refine ⟨d, List.mem_append_left _ ?_, hKind d hd⟩
        rw [diagnostics, List.mem_reverse, hMissing]
        exact hd
      exact ⟨⟨fun _ => hSome, fun _ => ⟨name, cause, hFails⟩⟩, fun hNone => absurd hSome hNone⟩
  · cases hRun

theorem exists_build_below : ∃ r h, (Renamer.build .empty [Disturbed.below] Config.standard).run
      (seeded ⟨[]⟩ Config.standard [Disturbed.below]) = (.ok r, h) ∧ r.groups.cyclic = ∅ ∧
        Diagnostic.unresolved "A" .notFound ∈ h.diagnostics := by
  have hDistinct : ([Disturbed.below].map ClassModel.name).Nodup := List.nodup_singleton _
  have hView : (seeded ⟨[]⟩ Config.standard [Disturbed.below]).view "C" = some Disturbed.below :=
    view_seeded_of_mem (c := Disturbed.below) hDistinct (List.mem_singleton_self _)
      (by decide : Text.startsWith '[' "C" = false)
  have hLoad : (seeded ⟨[]⟩ Config.standard [Disturbed.below]).load "A" = .error .notFound := by
    rw [load, seeded, fetch_foldl_seed]
    rfl
  have hMissing : (seeded ⟨[]⟩ Config.standard [Disturbed.below]).view "A" = none := by
    rw [view_seeded_of_not_mem (by decide) (by simp [Disturbed.below])]
    rfl
  have hParents := View.parents_of_some hView
  have hTop := View.parents_of_none hMissing
  have hAbove : OverrideGroups.Above (seeded ⟨[]⟩ Config.standard [Disturbed.below]).view
      Disturbed.below _ := OverrideGroups.above_of_parent hParents hTop
  rw [hMissing] at hAbove
  obtain ⟨-, hAncestors⟩ := View.ancestors_of_parent hParents hTop
  obtain ⟨r, h, hBuild, hExtends, hAsked, -, hCyclic, -⟩ := Renamer.exists_build_plain
    (t := .empty) (List.forall_mem_singleton.mpr hAbove)
    hDistinct (List.pairwise_singleton _ _)
    (fun _ _ => Renamer.onClasspath_empty _ _) (List.forall_mem_singleton.mpr fun r _ =>
      Renamer.checkMembers_eq_ok.mpr ⟨List.nodup_nil, List.nodup_nil⟩)
  have hSteps := (Renamer.composed_build .empty [Disturbed.below] Config.standard).steps
    (seeded ⟨[]⟩ Config.standard [Disturbed.below])
  rw [hBuild] at hSteps
  have hTold := (reached_seeded ⟨[]⟩ Config.standard [Disturbed.below]).told.steps hSteps
  have hStart : (seeded ⟨[]⟩ Config.standard [Disturbed.below]).Fits _ :=
    fits_seeded ⟨[]⟩ [Disturbed.below] rfl
  refine ⟨r, h, hBuild, hCyclic, List.mem_reverse.mpr ((hTold.mem_iff _).mpr
    ⟨"A", .notFound, rfl, by decide, ?_, (congrFun (load_congr hExtends.fetch_eq) "A").trans hLoad⟩)⟩
  exact (missing_iff (hStart.extends hExtends) (by decide)).mpr
    ⟨hAsked _ (List.mem_singleton_self _) _ hAncestors "A" (List.mem_singleton_self _), hMissing⟩

theorem run_strictly_below :
    ∃ report, Config.standard.failOnUnresolved = false ∧
      run Config.standard .empty ⟨[]⟩ [⟨"C.class", Disturbed.belowFile⟩] = .ok report ∧
      Diagnostic.unresolved "A" .notFound ∈ report.diagnostics ∧
      ((∃ name cause, run Config.standard.strictly .empty ⟨[]⟩ [⟨"C.class", Disturbed.belowFile⟩] =
          .error (.unresolved name cause)) ↔ ∃ d ∈ report.diagnostics, d.kind = .unresolved) ∧
        ((¬ ∃ d ∈ report.diagnostics, d.kind = .unresolved) →
          run Config.standard.strictly .empty ⟨[]⟩ [⟨"C.class", Disturbed.belowFile⟩] =
            .ok report) := by
  have hJobs : readFrom ∅ [⟨"C.class", Disturbed.belowFile⟩] = [("C.class", .ok Disturbed.below)] := by
    simp [readFrom, Disturbed.parse_belowFile]
  obtain ⟨r, h, hBuild, hCyclic, hNoted⟩ := exists_build_below
  have hStep := outcome_of_rewrite "C.class" (rewrite_below hCyclic h) rfl
  have hRun := run_of_steps hJobs hBuild (by rw [List.mapM_cons, bind_run_of_ok hStep]; rfl)
  exact ⟨_, rfl, hRun, List.mem_append_left _ hNoted, run_strictly rfl hRun⟩

end Batch

end Renaming
