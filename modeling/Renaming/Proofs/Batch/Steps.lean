import Renaming.Proofs.Batch.Isolation
import Renaming.Proofs.Renamer
import Renaming.Proofs.Rewrite.Explore

/-!
# The steps of a batch

All the work of a batch is one question to the hierarchy, put together from the steps of the smaller
ones. No part of it hides that a class is missing: the groups leave out classes with a cycle, but no
others, and a file that fails does so for other reasons.
-/

namespace Renaming

open Effectful Exploring Hierarchy

namespace OverrideGroups

/-- The ancestors of an input class, or a class on a cycle among them. -/
def lineage : Except Failure (List String) → Except Failure (String ⊕ List String)
  | .ok ancestors => .ok (.inr ancestors)
  | .error (.hierarchyCycle through) => .ok (.inl through)
  | .error e => .error e

theorem addClass_eq (b : Builder) (c : ClassModel) : b.addClass c =
    answered lineage (ancestorsOf c.name) >>= fun
      | .inl through => pure { b with cyclic := b.cyclic.insert c.name through }
      | .inr ancestors => get >>= fun h =>
        pure (b.addAll ∅ ((c :: ancestors.filterMap h.known?).flatMap declarations)) := by
  funext h
  rw [Builder.addClass]
  change _ = ExceptT.run (answered lineage (ancestorsOf c.name) >>= _) h
  rcases hRun : (ancestorsOf c.name).run h with ⟨r, h'⟩
  have hAnswered : (answered lineage (ancestorsOf c.name)).run h = (lineage r, h') := by
    rw [answered_run, hRun]
  cases r with
  | ok ancestors =>
    rw [bind_run_of_ok hAnswered]
    rfl
  | error e =>
    cases e with
    | hierarchyCycle through =>
      rw [bind_run_of_ok hAnswered]
      rfl
    | _ => exact (bind_run.mpr (Or.inr ⟨_, hAnswered, rfl⟩)).symm

theorem composed_addClass (b : Builder) (c : ClassModel) : Composed (b.addClass c) := by
  rw [addClass_eq]
  apply ((composed_ancestorsOf c.name).answered fun _ _ => rfl).bind
  rintro (through | ancestors)
  · exact .pure _
  · exact .inspect (fun _ => rfl) fun h => .pure _

theorem composed_build (t : RenameTable) (classes : List ClassModel) :
    Composed (build t classes) :=
  (Composed.foldlM composed_addClass classes .empty).bind fun b => .lift (b.finish t)

end OverrideGroups

namespace Renamer

theorem checkClasses_congr {r : Renamer} {h h' : Hierarchy} (hFetch : h'.fetch = h.fetch)
    (isInput : String → Bool) (taken : Std.HashMap String String) (classes : List ClassModel) :
    r.checkClasses h' isInput taken classes = r.checkClasses h isInput taken classes := by
  have hPath : h'.onClasspath = h.onClasspath := by
    funext name
    rw [onClasspath, onClasspath, hFetch]
  induction classes generalizing taken with
  | nil => rfl
  | cons c classes ih =>
    unfold checkClasses
    simp only [ih, hPath]

theorem composed_build (t : RenameTable) (classes : List ClassModel) (config : Config) :
    Composed (build t classes config) := by
  apply (OverrideGroups.composed_build t classes).bind
  intro g
  apply Composed.inspect
  · intro h
    rw [checkClasses_congr (show h.strictly.fetch = h.fetch from rfl)]
  · exact fun h => (Composed.lift _).bind fun _ => .pure _

theorem composed_rewrite (r : Renamer) (c : ClassModel) : Composed (r.rewrite c) :=
  carried_rewrite {
    pure := .pure
    error := .error
    bind := .bind
    answered := .answered
    lookup := .lookup
    methodOwner := composed_methodOwner
    fieldOwner := composed_fieldOwner } r c

end Renamer

namespace Batch

def concluded (id : String) :
    Except Failure Rewritten → Except Failure (FileReport × List Diagnostic)
  | .ok rewritten => .ok (⟨id, write rewritten.model⟩, rewritten.diagnostics)
  | .error (.unresolved name cause) => .error (.unresolved name cause)
  | .error cause => .ok (⟨id, .failed cause⟩, [])

theorem outcome_eq (r : Renamer) (id : String) (c : ClassModel) :
    outcome r (id, .ok c) = answered (concluded id) (r.rewrite c) := by
  funext h
  change _ = (answered (concluded id) (r.rewrite c)).run h
  rw [outcome, answered_run]
  rcases (r.rewrite c).run h with ⟨o, h'⟩
  cases o with
  | ok rewritten => rfl
  | error e => cases e <;> rfl

theorem composed_outcome (r : Renamer) (job : Job) : Composed (outcome r job) := by
  obtain ⟨id, v⟩ := job
  cases v with
  | error e => exact Composed.pure (FileReport.mk id (.failed e), [])
  | ok c =>
    rw [outcome_eq]
    exact .answered (fun _ _ => rfl) (Renamer.composed_rewrite r c)

theorem composed_work (config : Config) (t : RenameTable) (jobs : List Job) :
    Composed (work config t jobs) :=
  (Renamer.composed_build t (classes jobs) config).bind fun r =>
    .mapM (composed_outcome r) jobs

end Batch

end Renaming
