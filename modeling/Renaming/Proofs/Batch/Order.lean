import Renaming.Proofs.Batch.Files
import Renaming.Proofs.Batch.Steps
import Renaming.Proofs.Hierarchy.Noted
import Renaming.Proofs.OverrideGroups.Order
import Renaming.Proofs.Rewrite.Lenient
import Renaming.Proofs.Rewrite.References
import Renaming.Proofs.Rewrite.Regrouped

/-!
# The order of a batch

The files of a lenient batch share a hierarchy that is filled as they are worked on. In whatever order
they come, each comes out the same, and the same is noted.
-/

namespace Renaming

open Effectful Hierarchy

variable {v : View} {h h' : Hierarchy}

namespace Hierarchy

variable {classes classes' : List ClassModel}

theorem find?_name_of_perm (hDistinct : (classes.map ClassModel.name).Nodup)
    (hPerm : classes'.Perm classes) (name : String) :
    (classes'.find? fun c => c.name = name) = classes.find? fun c => c.name = name := by
  cases hFind : classes.find? fun c => c.name = name with
  | none =>
    rw [List.find?_eq_none] at hFind ⊢
    exact fun c hc => hFind c (hPerm.mem_iff.mp hc)
  | some c =>
    obtain rfl : c.name = name := by simpa using List.find?_some hFind
    have hDistinct' := (hPerm.map ClassModel.name).nodup_iff.mpr hDistinct
    exact find?_name_of_mem hDistinct' (hPerm.mem_iff.mpr (List.mem_of_find?_eq_some hFind))

theorem twins_seeded (classpath : ClassPath) {config : Config}
    (hLenient : config.failOnUnresolved = false) (hDistinct : (classes.map ClassModel.name).Nodup)
    (hPerm : classes'.Perm classes) :
    Twins (seeded classpath config classes).view (seeded classpath config classes)
      (seeded classpath config classes') := by
  have hFind := find?_name_of_perm hDistinct hPerm
  have hView : (seeded classpath config classes').view = (seeded classpath config classes).view := by
    funext name
    cases hName : Text.startsWith '[' name with
    | true => rw [view_of_array _ hName, view_of_array _ hName]
    | false => rw [view_seeded classes' hName, view_seeded classes hName, hFind]
  refine ⟨fits_seeded classpath classes hLenient, ?_, ?_, fun name => ?_⟩
  · rw [← hView]
    exact fits_seeded classpath classes' hLenient
  · rw [seeded, seeded, fetch_foldl_seed, fetch_foldl_seed]
  · rw [Asked, Asked, seeded, seeded, node_foldl_seed, node_foldl_seed, hFind]

end Hierarchy

namespace Renamer

variable {r r' : Renamer} {classes classes' : List ClassModel}

theorem Alike.checkMembers_eq (hr : r.Alike r') (c : ClassModel) :
    r'.checkMembers c = r.checkMembers c := by
  have hField : r'.fieldTarget = r.fieldTarget := by
    funext owner m
    rw [fieldTarget, fieldTarget, newField?, newField?, hr.table_eq]
  have hMethod : r'.methodTarget = r.methodTarget := by
    funext owner m
    rw [methodTarget, methodTarget, hr.newMethod?_eq, hr.table_eq]
  rw [checkMembers, checkMembers, hField, hMethod]

theorem Alike.checkClasses_perm (hr : r.Alike r') (hFetch : h'.fetch = h.fetch)
    (hPerm : classes'.Perm classes) {isInput isInput' : String → Bool}
    (hInput : isInput' = isInput) :
    r'.checkClasses h' isInput' ∅ classes' = .ok () ↔ r.checkClasses h isInput ∅ classes = .ok () := by
  have hName : r'.className = r.className := by
    funext name
    rw [className, className, hr.table_eq]
  rw [checkClasses_congr hFetch, checkClasses_eq_ok, checkClasses_eq_ok, hName, hInput]
  simp only [hPerm.mem_iff, hr.checkMembers_eq]
  rw [hPerm.pairwise_iff fun hNe => hNe.symm]

/-- In whatever order the input classes come, there is a renamer for them or there is none, and it gives
the same names. -/
theorem build_perm (ht : Twins v h h') (t : RenameTable) (config : Config)
    (hDistinct : (classes.map ClassModel.name).Nodup) (hPerm : classes'.Perm classes) :
    (∃ why why' h₁ h₁', (build t classes config).run h = (.error (.ambiguousMapping why), h₁) ∧
        (build t classes' config).run h' = (.error (.ambiguousMapping why'), h₁')) ∨
      ∃ r r' h₁ h₁', (build t classes config).run h = (.ok r, h₁) ∧
        (build t classes' config).run h' = (.ok r', h₁') ∧ r.Alike r' ∧ Twins v h₁ h₁' := by
  have hDistinct' := (hPerm.map ClassModel.name).nodup_iff.mpr hDistinct
  obtain ⟨T, ⟨why, why', hFails, hFails'⟩ | ⟨g, g', hGroups, hGroups', hNames, hCyclic⟩⟩ :=
    OverrideGroups.settles_build_perm ht.fits t hPerm
  · obtain ⟨h₁, h₁', hRun, hRun', -⟩ := hFails.twins hFails' ht
    exact Or.inl ⟨why, why', h₁, h₁', bind_run_of_error hRun, bind_run_of_error hRun'⟩
  · obtain ⟨h₁, h₁', hRun, hRun', ht₁⟩ := hGroups.twins hGroups' ht
    have hAlike : Alike ⟨t, g, config.rebuildSourceFile⟩ ⟨t, g', config.rebuildSourceFile⟩ :=
      ⟨rfl, rfl, funext hNames, hCyclic⟩
    have hInput : (Std.HashSet.ofList (classes'.map ClassModel.name)).contains =
        (Std.HashSet.ofList (classes.map ClassModel.name)).contains := by
      funext name
      rw [Std.HashSet.contains_ofList, Std.HashSet.contains_ofList]
      exact (hPerm.map ClassModel.name).contains_eq
    have hCheck := hAlike.checkClasses_perm ht₁.fetch_eq hPerm hInput
    have hBuild := build_run config hDistinct hRun
    have hBuild' := build_run config hDistinct' hRun'
    cases hResult : checkClasses ⟨t, g, config.rebuildSourceFile⟩ h₁
      (Std.HashSet.ofList (classes.map ClassModel.name)).contains ∅ classes with
    | ok _ =>
      rw [hResult] at hBuild
      rw [hCheck.mpr hResult] at hBuild'
      exact Or.inr ⟨_, _, h₁, h₁', hBuild, hBuild', hAlike, ht₁⟩
    | error e =>
      cases hResult' : checkClasses ⟨t, g', config.rebuildSourceFile⟩ h₁'
        (Std.HashSet.ofList (classes'.map ClassModel.name)).contains ∅ classes' with
      | ok _ =>
        rw [hCheck.mp hResult'] at hResult
        cases hResult
      | error e' =>
        obtain ⟨why, rfl⟩ := checkClasses_eq_error hResult
        obtain ⟨why', rfl⟩ := checkClasses_eq_error hResult'
        rw [hResult] at hBuild
        rw [hResult'] at hBuild'
        exact Or.inl ⟨why, why', h₁, h₁', hBuild, hBuild'⟩

end Renamer

namespace Batch

variable {config : Config} {t : RenameTable} {classpath : ClassPath} {inputs inputs' : List BatchInput}

def jobOf (input : BatchInput) : Job := (input.id, verdict [] input)

theorem jobsAfter_of_distinct {before : List BatchInput}
    (hDistinct : ((before ++ inputs).filterMap BatchInput.className?).Nodup) :
    jobsAfter before inputs = inputs.map jobOf := by
  induction inputs generalizing before with
  | nil => rfl
  | cons input rest ih =>
    have hVerdict : verdict before input = verdict [] input := by
      rw [verdict, verdict]
      cases hParse : ClassModel.parse input.file with
      | error e => rfl
      | ok c =>
        have hNew : definer? before c.name = none := by
          refine List.find?_eq_none.mpr fun first hFirst hSame => ?_
          rw [List.filterMap_append, List.nodup_append] at hDistinct
          refine hDistinct.2.2 c.name ?_ c.name ?_ rfl
          · exact List.mem_filterMap.mpr ⟨first, hFirst, of_decide_eq_true hSame⟩
          · exact List.mem_filterMap.mpr ⟨input, List.mem_cons_self, className?_of_ok hParse⟩
        dsimp only
        rw [hNew]
        rfl
    rw [jobsAfter, List.map_cons, jobOf, hVerdict, ih]
    rwa [List.append_assoc, List.singleton_append]

theorem outcome_congr {r r' : Renamer} (hr : r.Alike r') : outcome r' = outcome r := by
  funext job
  obtain ⟨id, e | c⟩ := job
  · rfl
  · rw [Batch.outcome_eq, Batch.outcome_eq, hr.rewrite_eq]

/-- Carrying out a job yields a report, and that does not depend on the jobs before. -/
theorem settles_outcome (hh : h.Fits v) (r : Renamer) (job : Job) :
    ∃ report T, Settles v (outcome r job) (.ok report) T := by
  obtain ⟨id, e | c⟩ := job
  · exact ⟨(⟨id, .failed e⟩, []), _, settles_const _⟩
  · obtain ⟨o, T, hRewrite⟩ := Renamer.settled_rewrite hh r c
    have hOutcome := hRewrite.answered (concluded id)
    rw [← outcome_eq] at hOutcome
    cases o with
    | ok rewritten => exact ⟨_, T, hOutcome⟩
    | error e =>
      obtain ⟨h', hRun, -⟩ := hRewrite h hh
      rcases Renamer.found_of_rewrite hh hRun with ⟨through, rfl⟩ | ⟨subject, text, rfl⟩
      · exact ⟨_, T, hOutcome⟩
      · exact ⟨_, T, hOutcome⟩

theorem work_perm (ht : Twins v h h') (config : Config) (t : RenameTable) {jobs jobs' : List Job}
    (hDistinct : ((classes jobs).map ClassModel.name).Nodup) (hPerm : jobs'.Perm jobs) :
    (∃ why why' h₁ h₁', (work config t jobs).run h = (.error (.ambiguousMapping why), h₁) ∧
        (work config t jobs').run h' = (.error (.ambiguousMapping why'), h₁')) ∨
      ∃ (report : Job → FileReport × List Diagnostic) (h₁ h₁' : Hierarchy),
        (work config t jobs).run h = (.ok (jobs.map report), h₁) ∧
        (work config t jobs').run h' = (.ok (jobs'.map report), h₁') ∧ Twins v h₁ h₁' := by
  have hClasses : (classes jobs').Perm (classes jobs) := hPerm.filterMap _
  rcases Renamer.build_perm ht t config hDistinct hClasses with
    ⟨why, why', h₁, h₁', hFails, hFails'⟩ | ⟨r, r', h₁, h₁', hBuild, hBuild', hr, ht₁⟩
  · exact Or.inl ⟨why, why', h₁, h₁', bind_run_of_error hFails, bind_run_of_error hFails'⟩
  · choose report T hOutcome using settles_outcome ht₁.fits r
    have hAll : ∀ jobs : List Job, Settles v (jobs.mapM (outcome r)) (.ok (jobs.map report))
        fun name => ∃ job ∈ jobs, T job name := fun _ => settles_mapM fun job _ => hOutcome job
    have hJobs' := hAll jobs'
    simp only [hPerm.mem_iff] at hJobs'
    rw [← outcome_congr hr] at hJobs'
    obtain ⟨h₂, h₂', hRun, hRun', ht₂⟩ := (hAll jobs).twins hJobs' ht₁
    exact Or.inr ⟨report, h₂, h₂', (bind_run_of_ok hBuild).trans hRun,
      (bind_run_of_ok hBuild').trans hRun', ht₂⟩

/-- The order of the inputs of a lenient batch does not matter, if no two of them have the same class.
Either the batch fails in both orders because of the table, or each input gets the same report, and the
same is noted in some order. -/
theorem run_perm (config : Config) (t : RenameTable) (classpath : ClassPath)
    (hLenient : config.failOnUnresolved = false)
    (hDistinct : (inputs.filterMap BatchInput.className?).Nodup) (hPerm : inputs'.Perm inputs) :
    (∃ why why', run config t classpath inputs = .error (.ambiguousMapping why) ∧
        run config t classpath inputs' = .error (.ambiguousMapping why')) ∨
      ∃ report report', run config t classpath inputs = .ok report ∧
        run config t classpath inputs' = .ok report' ∧
        (∃ file : BatchInput → FileReport,
          report.files = inputs.map file ∧ report'.files = inputs'.map file) ∧
        report'.diagnostics.Perm report.diagnostics := by
  have hDistinct' := (hPerm.filterMap BatchInput.className?).nodup_iff.mpr hDistinct
  have hJobs : jobsAfter [] inputs = inputs.map jobOf := jobsAfter_of_distinct hDistinct
  have hJobs' : jobsAfter [] inputs' = inputs'.map jobOf := jobsAfter_of_distinct hDistinct'
  have hJobsPerm : (inputs'.map jobOf).Perm (inputs.map jobOf) := hPerm.map jobOf
  have hNames := nodup_classes_jobsAfter [] inputs
  rw [hJobs] at hNames
  have hClasses : (classes (inputs'.map jobOf)).Perm (classes (inputs.map jobOf)) :=
    hJobsPerm.filterMap _
  have hTwins := twins_seeded classpath hLenient hNames hClasses
  have hRun := run_eq config t classpath ((readFrom_empty inputs).trans hJobs)
  have hRun' := run_eq config t classpath ((readFrom_empty inputs').trans hJobs')
  have hSteps := composed_work config t (inputs.map jobOf)
  have hSteps' := composed_work config t (inputs'.map jobOf)
  rcases work_perm hTwins config t hNames hJobsPerm with
    ⟨why, why', h₁, h₁', hFails, hFails'⟩ | ⟨report, h₁, h₁', hWork, hWork', ht⟩
  · rw [hFails] at hRun
    rw [hFails'] at hRun'
    exact Or.inl ⟨why, why', hRun, hRun'⟩
  · have hTold := (reached_seeded classpath config (classes (inputs.map jobOf))).told.steps (hSteps.steps _)
    have hTold' := (reached_seeded classpath config (classes (inputs'.map jobOf))).told.steps (hSteps'.steps _)
    rw [hWork] at hRun hTold
    rw [hWork'] at hRun' hTold'
    refine Or.inr ⟨_, _, hRun, hRun', ⟨fun input => (report (jobOf input)).1, ?_, ?_⟩, ?_⟩
    · rw [List.map_map, List.map_map]
      rfl
    · rw [List.map_map, List.map_map]
      rfl
    · have hNoted := hTold.perm hTold' ht.fits ht.fits' ht.fetch_eq ht.asked_iff
      exact hNoted.append ((hJobsPerm.map report).flatMap_right Prod.snd)

def twoFiles : List BatchInput :=
  [⟨"A.class", Capture.upperFile⟩, ⟨"B.class", Capture.callerFile⟩]

theorem run_perm_twoFiles :
    Config.standard.failOnUnresolved = false ∧
      (twoFiles.filterMap BatchInput.className?).Nodup ∧ twoFiles.reverse.Perm twoFiles ∧
      ((∃ why why', run Config.standard .empty ⟨[]⟩ twoFiles = .error (.ambiguousMapping why) ∧
          run Config.standard .empty ⟨[]⟩ twoFiles.reverse = .error (.ambiguousMapping why')) ∨
        ∃ report report', run Config.standard .empty ⟨[]⟩ twoFiles = .ok report ∧
          run Config.standard .empty ⟨[]⟩ twoFiles.reverse = .ok report' ∧
          (∃ file : BatchInput → FileReport,
            report.files = twoFiles.map file ∧ report'.files = twoFiles.reverse.map file) ∧
          report'.diagnostics.Perm report.diagnostics) := by
  have hNames : twoFiles.filterMap BatchInput.className? = ["A", "B"] := by
    have hUpper : BatchInput.className? ⟨"A.class", Capture.upperFile⟩ =
        some (Capture.upper "m").name :=
      className?_of_ok Capture.parse_upperFile
    have hCaller : BatchInput.className? ⟨"B.class", Capture.callerFile⟩ =
        some (Capture.caller "m").name :=
      className?_of_ok Capture.parse_callerFile
    rw [twoFiles, List.filterMap_cons_some hUpper, List.filterMap_cons_some hCaller]
    rfl
  have hDistinct : (twoFiles.filterMap BatchInput.className?).Nodup := by
    rw [hNames]
    decide
  have hPerm := twoFiles.reverse_perm
  exact ⟨rfl, hDistinct, hPerm, run_perm Config.standard .empty ⟨[]⟩ rfl hDistinct hPerm⟩

end Batch

end Renaming
