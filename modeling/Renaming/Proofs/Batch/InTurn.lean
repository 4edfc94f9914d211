import Renaming.Batch
import Renaming.Proofs.Hierarchy.Reached

/-!
# Batches in turn

A batch keeps the slots of its inputs apart from the classes to be rewritten, and puts both together
by index at the end. Going through the inputs one after the other and reporting on each at once comes
to the same, and a missing class then ends the batch where it is missed.
-/

namespace Renaming.Batch

open Effectful

/-- What becomes of an input before renaming: it fails, or its class is to be rewritten. -/
abbrev Job := String × Except Failure ClassModel

/-- Reads the inputs; `defined` has the input that each class comes from. -/
def readFrom (defined : Std.HashMap String String) : List BatchInput → List Job
  | [] => []
  | input :: rest =>
    match ClassModel.parse input.file with
    | .error e => (input.id, .error (.malformedClassFile input.id e)) :: readFrom defined rest
    | .ok c =>
      match defined[c.name]? with
      | some first => (input.id, .error (.duplicateClass c.name first)) :: readFrom defined rest
      | none => (input.id, .ok c) :: readFrom (defined.insert c.name input.id) rest

def classes (jobs : List Job) : List ClassModel := jobs.filterMap fun job => job.2.toOption

/-- Carries out a job. Only a missing class goes beyond the file, and only if the hierarchy says
that it does. -/
def outcome (r : Renamer) (job : Job) : Exploring (FileReport × List Diagnostic) := fun h =>
  match job with
  | (id, .error cause) => (.ok (⟨id, .failed cause⟩, []), h)
  | (id, .ok c) =>
    match (r.rewrite c).run h with
    | (.ok rewritten, h) => (.ok (⟨id, write rewritten.model⟩, rewritten.diagnostics), h)
    | (.error (.unresolved name cause), h) => (.error (.unresolved name cause), h)
    | (.error cause, h) => (.ok (⟨id, .failed cause⟩, []), h)

def work (config : Config) (t : RenameTable) (jobs : List Job) :
    Exploring (List (FileReport × List Diagnostic)) := do
  let r ← Renamer.build t (classes jobs) config
  jobs.mapM (outcome r)

def slot (job : Job) : Option Outcome :=
  match job.2 with
  | .error cause => some (.failed cause)
  | .ok _ => none

/-- The reports on the inputs, with what came of the classes among them. -/
def reports : List Job → List (Outcome × List Diagnostic) → List (FileReport × List Diagnostic)
  | [], _ => []
  | (id, .error cause) :: jobs, done => (⟨id, .failed cause⟩, []) :: reports jobs done
  | (_, .ok _) :: _, [] => []
  | (id, .ok _) :: jobs, d :: done => (⟨id, d.1⟩, d.2) :: reports jobs done

variable {inputs : List BatchInput} {r : Renamer} {h h' : Hierarchy} {jobs : List Job}
  {done : List (Outcome × List Diagnostic)}

def picked {n : Nat} (is : List (Fin n)) (jobs : List Job) : List (Fin n × ClassModel) :=
  (is.zip jobs).filterMap fun (i, job) => job.2.toOption.map (i, ·)

theorem foldl_add (is : List (Fin inputs.length)) (s : Intake inputs)
    (defined : Std.HashMap String String)
    (hDefined : ∀ name : String, defined[name]? = s.defined[name]?.map fun i => (inputs.get i).id) :
    (is.foldl Intake.add s).slots = s.slots ++ (readFrom defined (is.map inputs.get)).map slot ∧
      (is.foldl Intake.add s).jobs = s.jobs ++ picked is (readFrom defined (is.map inputs.get)) := by
  induction is generalizing s defined with
  | nil => simp [readFrom, picked]
  | cons i is ih =>
    rw [List.foldl_cons, List.map_cons, readFrom, Intake.add]
    cases hParse : ClassModel.parse (inputs.get i).file with
    | error e =>
      dsimp only
      obtain ⟨hSlots, hJobs⟩ := ih (s.fail (.malformedClassFile (inputs.get i).id e)) defined hDefined
      rw [hSlots, hJobs]
      simp [Intake.fail, slot, picked, Except.toOption]
    | ok c =>
      dsimp only
      rw [hDefined c.name]
      cases hFirst : s.defined[c.name]? with
      | some first =>
        dsimp only [Option.map_some]
        obtain ⟨hSlots, hJobs⟩ := ih (s.fail (.duplicateClass c.name (inputs.get first).id)) defined hDefined
        rw [hSlots, hJobs]
        simp [Intake.fail, slot, picked, Except.toOption]
      | none =>
        dsimp only [Option.map_none]
        have hInsert : ∀ name : String, (defined.insert c.name (inputs.get i).id)[name]? =
            (s.defined.insert c.name i)[name]?.map fun i => (inputs.get i).id := by
          intro name
          rw [Std.HashMap.getElem?_insert, Std.HashMap.getElem?_insert, hDefined]
          cases c.name == name <;> rfl
        obtain ⟨hSlots, hJobs⟩ := ih
          ⟨s.slots ++ [none], s.jobs ++ [(i, c)], s.defined.insert c.name i⟩ _ hInsert
        rw [hSlots, hJobs]
        simp [slot, picked, Except.toOption]

theorem read_spec (inputs : List BatchInput) :
    (read inputs).slots = (readFrom ∅ inputs).map slot ∧
      (read inputs).jobs = picked (List.finRange inputs.length) (readFrom ∅ inputs) := by
  have hFold := foldl_add (List.finRange inputs.length) ⟨[], [], ∅⟩ ∅ fun name => by simp
  simpa [read] using hFold

theorem id_readFrom (defined : Std.HashMap String String) (inputs : List BatchInput) :
    (readFrom defined inputs).map Prod.fst = inputs.map BatchInput.id := by
  induction inputs generalizing defined with
  | nil => rfl
  | cons input rest ih =>
    rw [readFrom]
    split
    · rw [List.map_cons, List.map_cons, ih]
    · split <;> rw [List.map_cons, List.map_cons, ih]

theorem classes_picked {n : Nat} {is : List (Fin n)} (hLength : is.length = jobs.length) :
    (picked is jobs).map Prod.snd = classes jobs := by
  induction jobs generalizing is with
  | nil => simp [picked, classes]
  | cons job jobs ih =>
    cases is with
    | nil => cases hLength
    | cons i is =>
      obtain ⟨id, v⟩ := job
      have hRest := ih (Nat.succ.inj hLength)
      cases v with
      | error e => exact hRest
      | ok c => exact congrArg (c :: ·) hRest

theorem fill_append {n : Nat} {is : List (Fin n)} (slots : List (Option Outcome))
    (hPlaces : is.map Fin.val = List.range' slots.length jobs.length)
    (hLength : done.length = (classes jobs).length) :
    fill (slots ++ jobs.map slot) (((picked is jobs).map Prod.fst).zip (done.map Prod.fst)) =
      slots ++ ((reports jobs done).map (·.1.outcome)).map some := by
  induction jobs generalizing is slots done with
  | nil => simp [picked, reports, fill]
  | cons job jobs ih =>
    obtain ⟨id, v⟩ := job
    rw [List.length_cons, List.range'_succ] at hPlaces
    obtain ⟨i, is, rfl, hFirst, hRest⟩ := List.map_eq_cons_iff.mp hPlaces
    cases v with
    | error e =>
      have hFilled := ih (slots ++ [some (.failed e)]) (by rw [hRest, List.length_append]; rfl) hLength
      rw [List.append_assoc, List.append_assoc] at hFilled
      exact hFilled
    | ok c =>
      cases done with
      | nil => cases hLength
      | cons d done =>
        have hFilled := ih (slots ++ [some d.1]) (by rw [hRest, List.length_append]; rfl)
          (Nat.succ.inj hLength)
        rw [List.append_assoc, List.append_assoc] at hFilled
        have hSet : (slots ++ none :: jobs.map slot).set i (some d.1) =
            slots ++ some d.1 :: jobs.map slot := by
          rw [hFirst, List.set_append_right _ _ (Nat.le_refl _), Nat.sub_self]
          rfl
        change fill ((slots ++ none :: jobs.map slot).set i (some d.1)) _ = _
        rw [hSet]
        exact hFilled

theorem files_of_reports {rs : List FileReport} (hIds : rs.map FileReport.id = inputs.map BatchInput.id) :
    (inputs.zip (rs.map FileReport.outcome)).map (fun (input, outcome) =>
      (⟨input.id, outcome⟩ : FileReport)) = rs := by
  induction inputs generalizing rs with
  | nil =>
    cases rs with
    | nil => rfl
    | cons report rs => cases hIds
  | cons input inputs ih =>
    cases rs with
    | nil => cases hIds
    | cons report rs =>
      obtain ⟨hId, hRest⟩ := List.cons.inj hIds
      rw [List.map_cons, List.zip_cons_cons, List.map_cons, ih hRest]
      dsimp only
      rw [← hId]

theorem id_reports (hLength : done.length = (classes jobs).length) :
    (reports jobs done).map (fun report => report.1.id) = jobs.map Prod.fst := by
  induction jobs generalizing done with
  | nil => rfl
  | cons job jobs ih =>
    obtain ⟨id, v⟩ := job
    cases v with
    | error e => exact congrArg (id :: ·) (ih hLength)
    | ok c =>
      cases done with
      | nil => cases hLength
      | cons d done => exact congrArg (id :: ·) (ih (Nat.succ.inj hLength))

theorem notes_reports (hLength : done.length = (classes jobs).length) :
    (reports jobs done).flatMap Prod.snd = done.flatMap Prod.snd := by
  induction jobs generalizing done with
  | nil =>
    rw [List.length_eq_zero_iff.mp hLength]
    rfl
  | cons job jobs ih =>
    obtain ⟨id, v⟩ := job
    cases v with
    | error e => exact ih hLength
    | ok c =>
      cases done with
      | nil => cases hLength
      | cons d done => exact congrArg (d.2 ++ ·) (ih (Nat.succ.inj hLength))

theorem missing?_write (c : ClassModel) : (write c).missing? = none := by
  rw [write]
  split <;> rfl

theorem outcome_of_carryOut {c : ClassModel} {d : Outcome × List Diagnostic} (id : String)
    (hRun : (carryOut r c).run h = (d, h')) :
    (d.1.missing? = none → (outcome r (id, .ok c)).run h = (.ok (⟨id, d.1⟩, d.2), h')) ∧
      ∀ e, d.1.missing? = some e → (outcome r (id, .ok c)).run h = (.error e, h') := by
  change carryOut r c h = _ at hRun
  change (_ → outcome r (id, .ok c) h = _) ∧ ∀ e, _ → outcome r (id, .ok c) h = _
  rw [carryOut] at hRun
  rw [outcome]
  rcases hRewrite : (r.rewrite c).run h with ⟨o, h₁⟩
  rw [hRewrite] at hRun
  cases o with
  | ok w =>
    cases hRun
    refine ⟨fun _ => rfl, fun e he => ?_⟩
    rw [missing?_write] at he
    cases he
  | error e =>
    cases hRun
    cases e with
    | unresolved name cause =>
      refine ⟨fun hNone => (by cases hNone), fun e he => ?_⟩
      cases he
      rfl
    | _ => exact ⟨fun _ => rfl, fun e he => by cases he⟩

/-- The classes are rewritten one after the other in either case. In turn, the work stops at the first
one that fails because of a missing class, and what comes of the others is not seen. -/
theorem mapM_outcome (hRun : ((classes jobs).mapM (carryOut r)).run h = (done, h')) :
    done.length = (classes jobs).length ∧
      (done.findSome? (fun d => d.1.missing?) = none →
        (jobs.mapM (outcome r)).run h = (.ok (reports jobs done), h')) ∧
      ∀ e, done.findSome? (fun d => d.1.missing?) = some e →
        ∃ h'', (jobs.mapM (outcome r)).run h = (.error e, h'') := by
  induction jobs generalizing h done with
  | nil =>
    cases hRun
    exact ⟨rfl, fun _ => rfl, fun e he => by cases he⟩
  | cons job jobs ih =>
    obtain ⟨id, v⟩ := job
    rw [List.mapM_cons]
    cases v with
    | error e =>
      obtain ⟨hLength, hAll, hStops⟩ := ih hRun
      have hHead : (outcome r (id, .error e)).run h = (.ok (⟨id, .failed e⟩, []), h) := rfl
      rw [bind_run_of_ok hHead]
      refine ⟨hLength, fun hNone => ?_, fun e' he' => ?_⟩
      · rw [bind_run_of_ok (hAll hNone)]
        rfl
      · obtain ⟨h'', hStop⟩ := hStops e' he'
        exact ⟨h'', bind_run_of_error hStop⟩
    | ok c =>
      rcases hHead : (carryOut r c).run h with ⟨d, h₁⟩
      rcases hTail : ((classes jobs).mapM (carryOut r)).run h₁ with ⟨ds, h₂⟩
      have hBoth : ((c :: classes jobs).mapM (carryOut r)).run h = (d :: ds, h₂) := by
        rw [List.mapM_cons, StateT.run_bind, hHead]
        exact congrArg (fun p => (d :: p.1, p.2)) hTail
      cases hBoth.symm.trans hRun
      obtain ⟨hLength, hAll, hStops⟩ := ih hTail
      obtain ⟨hGoes, hEnds⟩ := outcome_of_carryOut id hHead
      rw [List.findSome?_cons]
      refine ⟨congrArg Nat.succ hLength, ?_⟩
      cases hMissing : d.1.missing? with
      | none =>
        rw [bind_run_of_ok (hGoes hMissing)]
        refine ⟨fun hNone => ?_, fun e he => ?_⟩
        · rw [bind_run_of_ok (hAll hNone)]
          rfl
        · obtain ⟨h'', hStop⟩ := hStops e he
          exact ⟨h'', bind_run_of_error hStop⟩
      | some e =>
        refine ⟨fun hNone => (by cases hNone), fun e' he' => ⟨h₁, ?_⟩⟩
        cases he'
        exact bind_run_of_error (hEnds e hMissing)

theorem length_finRange_readFrom (inputs : List BatchInput) :
    (List.finRange inputs.length).length = (readFrom ∅ inputs).length := by
  rw [List.length_finRange, ← List.length_map (f := Prod.fst), id_readFrom, List.length_map]

theorem classes_read (inputs : List BatchInput) :
    (read inputs).classes = classes (readFrom ∅ inputs) := by
  rw [Intake.classes, (read_spec inputs).2, classes_picked (length_finRange_readFrom inputs)]

theorem files_read (hLength : done.length = (classes (readFrom ∅ inputs)).length) :
    (inputs.zip ((fill (read inputs).slots (((read inputs).jobs.map Prod.fst).zip
      (done.map Prod.fst))).filterMap id)).map (fun (input, outcome) =>
        (⟨input.id, outcome⟩ : FileReport)) = (reports (readFrom ∅ inputs) done).map Prod.fst := by
  have hPlaces : (List.finRange inputs.length).map Fin.val =
      List.range' ([] : List (Option Outcome)).length (readFrom ∅ inputs).length := by
    rw [← length_finRange_readFrom, List.length_finRange, List.map_coe_finRange_eq_range,
      List.range_eq_range']
    rfl
  have hFilled := fill_append [] hPlaces hLength
  rw [List.nil_append, List.nil_append] at hFilled
  have hIds : ((reports (readFrom ∅ inputs) done).map Prod.fst).map FileReport.id =
      inputs.map BatchInput.id := by
    rw [List.map_map, ← id_readFrom ∅ inputs]
    exact id_reports hLength
  have hOutcomes : (reports (readFrom ∅ inputs) done).map (·.1.outcome) =
      ((reports (readFrom ∅ inputs) done).map Prod.fst).map FileReport.outcome := by
    rw [List.map_map]
    rfl
  obtain ⟨hSlots, hJobs⟩ := read_spec inputs
  rw [hSlots, hJobs, hFilled, List.filterMap_map, Function.id_comp, List.filterMap_some,
    hOutcomes, files_of_reports hIds]

/-- A batch is read, renamed and reported on in turn. -/
theorem run_eq (config : Config) (t : RenameTable) (classpath : ClassPath) {jobs : List Job}
    (hJobs : readFrom ∅ inputs = jobs) :
    run config t classpath inputs =
      match (work config t jobs).run (Hierarchy.seeded classpath config (classes jobs)) with
      | (.ok reports, h) =>
        .ok ⟨reports.map Prod.fst, h.diagnostics ++ reports.flatMap Prod.snd⟩
      | (.error e, _) => .error e := by
  subst hJobs
  rw [run]
  dsimp only
  rw [classes_read, Hierarchy.seeded, work]
  rcases hBuild : (Renamer.build t (classes (readFrom ∅ inputs)) config).run
    ((classes (readFrom ∅ inputs)).foldl Hierarchy.seed (Hierarchy.ofClasspath classpath config))
    with ⟨o, h₁⟩
  cases o with
  | error e => rw [bind_run_of_error hBuild]
  | ok r =>
    rw [bind_run_of_ok hBuild]
    dsimp only
    rcases hRun : ((classes (readFrom ∅ inputs)).mapM (carryOut r)).run h₁ with ⟨done, h₂⟩
    obtain ⟨hLength, hAll, hStops⟩ := mapM_outcome hRun
    dsimp only
    cases hMissing : done.findSome? fun d => d.1.missing? with
    | some e =>
      obtain ⟨h₃, hStop⟩ := hStops e hMissing
      rw [hStop]
    | none =>
      rw [hAll hMissing]
      dsimp only
      rw [files_read hLength, notes_reports hLength]

end Renaming.Batch
