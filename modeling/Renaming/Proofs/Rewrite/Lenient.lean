import Renaming.Proofs.Hierarchy.Fields
import Renaming.Proofs.Hierarchy.Settled
import Renaming.Proofs.Rewrite.CleanRun
import Renaming.Proofs.Rewrite.Explore

/-!
# Rewriting in a lenient hierarchy

A lenient hierarchy never makes rewriting fail because a class is missing, and what a class is rewritten
to does not depend on what was asked before.
-/

namespace Renaming

open Effectful Hierarchy

variable {v : View}

namespace Rewriting

theorem askDeclaration_run_of_answer {q : Exploring (Option ClassModel)} {s : RewriteState}
    (hq : (∃ c h', q.run s.hierarchy = (.ok c, h')) ∨
      ∃ through h', q.run s.hierarchy = (.error (.hierarchyCycle through), h')) :
    ∃ c s', (askDeclaration q).run s = (.ok c, s') := by
  change ∃ c s', askDeclaration q s = (.ok c, s')
  rw [askDeclaration]
  rcases hq with ⟨c, h', hRun⟩ | ⟨through, h', hRun⟩
  · rw [hRun]
    exact ⟨c, _, rfl⟩
  · rw [hRun]
    exact ⟨none, _, rfl⟩

/-- What makes rewriting fail is a descriptor. -/
theorem Composed.malformed_of_error {α : Type} {x : Rewriting α} (hx : Composed x) :
    ∀ {s e s'}, s.hierarchy.Fits v → x.run s = (.error e, s') →
      ∃ subject text, e = .descriptor subject text := by
  -- The questions to the hierarchy are the only steps that could fail otherwise, and a lenient one answers
  -- them.
  induction hx with
  | pure a | note hd =>
    intro s e s' _ hRun
    cases hRun
  | @bind α β x f hx _ ih ih' =>
    intro s e s' hs hRun
    rcases bind_run.mp hRun with ⟨a, s₁, hFirst, hSecond⟩ | ⟨e', hFirst, hEq⟩
    · have hYields : Yields (Fits v) (fun _ => False) x fun _ => True :=
        hx.yields_any (allows_fits v)
      obtain ⟨hs₁, -⟩ := hYields s hs _ _ hFirst
      exact ih' a hs₁ hSecond
    · cases hEq
      exact ih hs hFirst
  | malformed subject text =>
    intro s e s' _ hRun
    cases hRun
    exact ⟨subject, text, rfl⟩
  | lookup name =>
    intro s e s' hs hRun
    obtain ⟨h', hLookup, -⟩ := settles_lookup name s.hierarchy hs
    change ask (Hierarchy.lookup name) s = _ at hRun
    rw [ask, hLookup] at hRun
    cases hRun
  | methodOwner key =>
    intro s e s' hs hRun
    obtain ⟨c, s₁, hAnswer⟩ : ∃ c s₁, (askDeclaration (Hierarchy.methodOwner key)).run s = (.ok c, s₁) := by
      apply askDeclaration_run_of_answer
      rcases methodOwner_spec hs.coherent hs.lenient key with
        ⟨_, h', -, -, hRun, -⟩ | ⟨through, h', hRun, -⟩
      · exact Or.inl ⟨_, h', hRun⟩
      · exact Or.inr ⟨through, h', hRun⟩
    rw [hAnswer] at hRun
    cases hRun
  | fieldOwner key =>
    intro s e s' hs hRun
    obtain ⟨c, s₁, hAnswer⟩ : ∃ c s₁, (askDeclaration (Hierarchy.fieldOwner key)).run s = (.ok c, s₁) := by
      apply askDeclaration_run_of_answer
      rcases fieldOwner_spec hs.coherent hs.lenient key with
        ⟨_, h', -, -, hRun, -⟩ | ⟨through, h', hRun, -⟩
      · exact Or.inl ⟨_, h', hRun⟩
      · exact Or.inr ⟨through, h', hRun⟩
    rw [hAnswer] at hRun
    cases hRun
  | orKeep old _ ih =>
    intro s e s' hs hRun
    rcases tryCatch_run.mp hRun with ⟨a, -, hEq⟩ | ⟨e', s₁, hStep, hHandler⟩
    · cases hEq
    · obtain ⟨subject, text, rfl⟩ := ih hs hStep
      cases hHandler

end Rewriting

namespace Renamer

variable {r : Renamer} {c : ClassModel} {h h' : Hierarchy}

theorem found_of_rewrite (hh : h.Fits v) {e : Failure}
    (hRun : (r.rewrite c).run h = (.error e, h')) :
    (∃ through, e = .hierarchyCycle through) ∨ ∃ subject text, e = .descriptor subject text := by
  change r.rewrite c h = _ at hRun
  rw [rewrite] at hRun
  split at hRun
  · cases hRun
    exact Or.inl ⟨_, rfl⟩
  · dsimp only at hRun
    split at hRun
    · cases hRun
    · rename_i e' s' hClass
      cases hRun
      exact Or.inr ((Site.composed_rewriteClass c).malformed_of_error hh hClass)

theorem settled_rewrite {h₀ : Hierarchy} (hh₀ : h₀.Fits v) (r : Renamer) (c : ClassModel) :
    Settled v (r.rewrite c) :=
  carried_rewrite {
    pure := settled_pure
    error := settled_error
    bind := settled_bind
    answered := fun _ ⟨_, _, hx⟩ => ⟨_, _, hx.answered _⟩
    lookup := fun name => ⟨_, _, settles_lookup name⟩
    methodOwner := settled_methodOwner hh₀
    fieldOwner := settled_fieldOwner hh₀ } r c

end Renamer

end Renaming
