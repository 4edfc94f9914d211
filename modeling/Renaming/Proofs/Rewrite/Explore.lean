import Renaming.Proofs.Hierarchy.Steps
import Renaming.Proofs.Rewrite.Run
import Renaming.Proofs.Rewrite.Steps

/-!
# Rewriting as a question

The rewriting of a class is a question to the hierarchy: its answer is a result or a failure, with what
was noted. What holds of the few questions that rewriting asks, and of sequences of questions, holds of
rewriting.
-/

namespace Renaming

open Effectful Exploring

/-- Goes over from the questions that rewriting asks to rewriting. -/
structure Exploring.Carried (P : ∀ {α : Type}, Exploring α → Prop) : Prop where
  pure {α : Type} (a : α) : P (Pure.pure a)
  error {α : Type} (e : Failure) : P (throw e : Exploring α)
  bind {α β : Type} {x : Exploring α} {f : α → Exploring β} (hx : P x) (hf : ∀ a, P (f a)) :
    P (x >>= f)
  answered {α β : Type} {x : Exploring α} {f : Except Failure α → Except Failure β}
    (hf : ∀ name cause, f (.error (.unresolved name cause)) = .error (.unresolved name cause))
    (hx : P x) : P (Exploring.answered f x)
  lookup (name : String) : P (Hierarchy.lookup name)
  methodOwner (key : MemberKey) : P (Hierarchy.methodOwner key)
  fieldOwner (key : MemberKey) : P (Hierarchy.fieldOwner key)

namespace Rewriting

variable {α β : Type}

/-- A result as part of an answer, unless a class is missing. -/
def reported (notes : List Diagnostic) :
    Except Failure α → Except Failure (Except Failure α × List Diagnostic)
  | .error (.unresolved name cause) => .error (.unresolved name cause)
  | r => .ok (r, notes)

def declared : Except Failure (Option ClassModel) → Except Failure (Option ClassModel)
  | .error (.hierarchyCycle _) => .ok none
  | r => r

/-- What is left of a step that may be undone because of a descriptor. -/
def kept (old : α) : Except Failure α × List Diagnostic → Except Failure α × List Diagnostic
  | (.error (.descriptor member text), notes) => (.ok old, .memberKept member text :: notes)
  | p => p

/-- The rewriting as a question; `notes` was noted before it. -/
def explore (x : Rewriting α) (notes : List Diagnostic) :
    Exploring (Except Failure α × List Diagnostic) := fun h =>
  let (r, s) := x.run ⟨h, notes⟩
  (reported s.newestDiagnostics r, s.hierarchy)

theorem explore_run {x : Rewriting α} {notes : List Diagnostic} {h : Hierarchy} {s : RewriteState}
    {r : Except Failure α} (hRun : x.run ⟨h, notes⟩ = (r, s)) :
    (explore x notes).run h = (reported s.newestDiagnostics r, s.hierarchy) := by
  change explore x notes h = _
  rw [explore, hRun]

theorem explore_note (d : Diagnostic) (notes : List Diagnostic) :
    explore (note d) notes = pure (.ok (), d :: notes) := rfl

theorem explore_ask (question : Exploring α) (notes : List Diagnostic) :
    explore (ask question) notes = answered (reported notes) question := rfl

theorem explore_askDeclaration (question : Exploring (Option ClassModel))
    (notes : List Diagnostic) : explore (askDeclaration question) notes =
      answered (fun r => reported notes (declared r)) question := by
  funext h
  have hRun : (askDeclaration question).run ⟨h, notes⟩ =
      (declared (question.run h).1, ⟨(question.run h).2, notes⟩) := by
    change askDeclaration question ⟨h, notes⟩ = _
    rcases hQuestion : question.run h with ⟨r, h'⟩
    rw [askDeclaration]
    dsimp only
    rw [hQuestion]
    cases r with
    | ok a => rfl
    | error e => cases e <;> rfl
  exact explore_run hRun

theorem explore_bind (x : Rewriting α) (f : α → Rewriting β) (notes : List Diagnostic) :
    explore (x >>= f) notes = explore x notes >>= fun p =>
      match p.1 with
      | .ok a => explore (f a) p.2
      | .error e => pure (.error e, p.2) := by
  funext h
  change (explore (x >>= f) notes).run h = ExceptT.run (explore x notes >>= _) h
  rcases hRun : x.run ⟨h, notes⟩ with ⟨r, s⟩
  have hExplore := explore_run hRun
  cases r with
  | ok a =>
    rw [bind_run_of_ok hExplore]
    rcases hLast : (f a).run s with ⟨r', s'⟩
    rw [explore_run ((bind_run_of_ok hRun).trans hLast)]
    exact (explore_run hLast).symm
  | error e =>
    rw [explore_run (bind_run.mpr (Or.inr ⟨e, hRun, rfl⟩))]
    symm
    cases e with
    | unresolved name cause => exact bind_run.mpr (Or.inr ⟨_, hExplore, rfl⟩)
    | _ => exact bind_run_of_ok hExplore

theorem explore_orKeep (old : α) (x : Rewriting α) (notes : List Diagnostic) :
    explore (orKeep old x) notes = explore x notes >>= fun p => pure (kept old p) := by
  funext h
  change (explore (orKeep old x) notes).run h = ExceptT.run (explore x notes >>= _) h
  rcases hRun : x.run ⟨h, notes⟩ with ⟨r, s⟩
  have hExplore := explore_run hRun
  cases r with
  | ok a =>
    rw [explore_run (x := orKeep old x) (tryCatch_run.mpr (Or.inl ⟨a, hRun, rfl⟩)), bind_run_of_ok hExplore]
    rfl
  | error e =>
    cases e with
    | unresolved name cause =>
      rw [explore_run (x := orKeep old x) (tryCatch_run.mpr (Or.inr ⟨_, s, hRun, rfl⟩))]
      exact (bind_run.mpr (Or.inr ⟨_, hExplore, rfl⟩)).symm
    | _ =>
      rw [explore_run (x := orKeep old x) (tryCatch_run.mpr (Or.inr ⟨_, s, hRun, rfl⟩)), bind_run_of_ok hExplore]
      rfl

theorem Composed.explore {P : ∀ {α : Type}, Exploring α → Prop} (hP : Carried P) {x : Rewriting α}
    (hx : Composed x) (notes : List Diagnostic) : P (explore x notes) := by
  induction hx generalizing notes with
  | pure a => exact hP.pure (Except.ok a, notes)
  | bind _ _ ih ih' =>
    rw [explore_bind]
    apply hP.bind (ih notes)
    rintro ⟨r, notes'⟩
    cases r with
    | ok a => exact ih' a notes'
    | error e => exact hP.pure (Except.error e, notes')
  | malformed subject text => exact hP.pure (Except.error (Failure.descriptor subject text), notes)
  | note hd =>
    rw [explore_note]
    exact hP.pure _
  | lookup name =>
    rw [explore_ask]
    exact hP.answered (fun _ _ => rfl) (hP.lookup name)
  | methodOwner key =>
    rw [explore_askDeclaration]
    exact hP.answered (fun _ _ => rfl) (hP.methodOwner key)
  | fieldOwner key =>
    rw [explore_askDeclaration]
    exact hP.answered (fun _ _ => rfl) (hP.fieldOwner key)
  | orKeep old _ ih =>
    rw [explore_orKeep]
    exact hP.bind (ih notes) fun p => hP.pure (kept old p)

/-- What rewriting notes is never that a class is missing: that is for the hierarchy to say. -/
theorem Composed.kind_of_note {x : Rewriting α} (hx : Composed x) : ∀ {s r s'}, x.run s = (r, s') →
    ∀ d ∈ s'.newestDiagnostics, d ∈ s.newestDiagnostics ∨ d.kind ≠ .unresolved := by
  induction hx with
  | pure a | malformed subject text =>
    intro s r s' hRun d hd
    cases hRun
    exact Or.inl hd
  | bind _ _ ih ih' =>
    intro s r s' hRun d hd
    rcases bind_run.mp hRun with ⟨a, s₁, hFirst, hSecond⟩ | ⟨e, hFirst, -⟩
    · rcases ih' a hSecond d hd with hOld | hKind
      · exact ih hFirst d hOld
      · exact Or.inr hKind
    · exact ih hFirst d hd
  | note hNew =>
    intro s r s' hRun d hd
    cases hRun
    rcases List.mem_cons.mp hd with rfl | hOld
    · exact Or.inr hNew
    · exact Or.inl hOld
  | lookup name =>
    intro s r s' hRun d hd
    cases hRun
    exact Or.inl hd
  | methodOwner key | fieldOwner key =>
    intro s r s' hRun d hd
    have hNotes : s'.newestDiagnostics = s.newestDiagnostics := by
      change askDeclaration _ s = _ at hRun
      rw [askDeclaration] at hRun
      split at hRun <;> cases hRun <;> rfl
    exact Or.inl (hNotes ▸ hd)
  | orKeep old _ ih =>
    intro s r s' hRun d hd
    rcases tryCatch_run.mp hRun with ⟨a, hStep, -⟩ | ⟨e, s₁, hStep, hHandler⟩
    · exact ih hStep d hd
    · cases e with
      | descriptor member text =>
        cases hHandler
        rcases List.mem_cons.mp hd with rfl | hOld
        · exact Or.inr Diagnostic.Kind.noConfusion
        · exact ih hStep d hOld
      | _ =>
        cases hHandler
        exact ih hStep d hd

end Rewriting

namespace Renamer

variable {r : Renamer} {c : ClassModel}

theorem rewrite_eq (r : Renamer) (c : ClassModel) : r.rewrite c =
    match r.groups.cyclic[c.name]? with
    | some through => throw (.hierarchyCycle through)
    | none => Rewriting.explore ((r.siteOf c).rewriteClass c) [] >>= fun p =>
      match p.1 with
      | .ok model => pure ⟨model, p.2.reverse⟩
      | .error e => throw e := by
  funext h
  rw [rewrite]
  cases r.groups.cyclic[c.name]? with
  | some through => rfl
  | none =>
    dsimp only
    rw [← siteOf]
    rcases hRun : ((r.siteOf c).rewriteClass c).run ⟨h, []⟩ with ⟨o, s⟩
    have hExplore : (Rewriting.explore ((r.siteOf c).rewriteClass c) []).run h =
        (Rewriting.reported s.newestDiagnostics o, s.hierarchy) := by
      change Rewriting.explore _ _ h = _
      rw [Rewriting.explore, hRun]
    symm
    cases o with
    | ok model => exact bind_run_of_ok hExplore
    | error e =>
      cases e with
      | unresolved name cause => exact bind_run.mpr (Or.inr ⟨_, hExplore, rfl⟩)
      | _ => exact bind_run_of_ok hExplore

theorem carried_rewrite {P : ∀ {α : Type}, Exploring α → Prop} (hP : Carried P) (r : Renamer)
    (c : ClassModel) : P (r.rewrite c) := by
  rw [rewrite_eq]
  split
  · exact hP.error _
  · apply hP.bind ((Site.composed_rewriteClass c).explore hP [])
    rintro ⟨o, notes⟩
    cases o with
    | ok model => exact hP.pure _
    | error e => exact hP.error e

theorem kind_of_rewrite {h h' : Hierarchy} {w : Rewritten}
    (hRun : (r.rewrite c).run h = (.ok w, h')) : ∀ d ∈ w.diagnostics, d.kind ≠ .unresolved := by
  obtain ⟨-, notes, hClass, hNotes⟩ := rewrite_eq_ok.mp hRun
  intro d hd
  rw [hNotes, List.mem_reverse] at hd
  have hKind := (Site.composed_rewriteClass c).kind_of_note hClass d hd
  exact hKind.resolve_left List.not_mem_nil

end Renamer

end Renaming
