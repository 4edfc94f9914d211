import Renaming.Hierarchy
import Renaming.Proofs.Outcome

/-!
# How questions fail

A question to the hierarchy fails because of a class that is not found or because of a cycle, and for
no other reason.
-/

namespace Renaming

/-- The failures that a hierarchy answers with. -/
def Failure.FromHierarchy : Failure → Prop
  | unresolved .. | hierarchyCycle .. => True
  | _ => False

namespace Hierarchy

open Effectful

variable {α β : Type} {x : Exploring α}

/-- The question only fails as a hierarchy may fail. -/
def Answerable (x : Exploring α) : Prop :=
  ∀ h e h', x.run h = (.error e, h') → e.FromHierarchy

theorem answerable_pure (a : α) : Answerable (pure a) := by
  intro h e h' hRun
  cases hRun

theorem answerable_throw {e : Failure} (he : e.FromHierarchy) :
    Answerable (throw e : Exploring α) := by
  intro h e' h' hRun
  cases hRun
  exact he

theorem answerable_bind {f : α → Exploring β} (hx : Answerable x) (hf : ∀ a, Answerable (f a)) :
    Answerable (x >>= f) := by
  intro h e h' hRun
  rcases bind_run.mp hRun with ⟨a, h₁, -, hSecond⟩ | ⟨e', hFirst, hEq⟩
  · exact hf a h₁ e h' hSecond
  · cases hEq
    exact hx h e h' hFirst

theorem answerable_unless {p : Prop} [Decidable p] {e : Failure} (he : e.FromHierarchy)
    (hx : Answerable x) : Answerable (do
      if p then throw e
      x) := by
  split
  · exact answerable_bind (answerable_throw he) fun _ => hx
  · exact hx

theorem answerable_get_bind {f : Hierarchy → Exploring α} (hf : ∀ h, Answerable (f h)) :
    Answerable (get >>= f) := fun h => hf h h

theorem answerable_foldlM {f : β → α → Exploring β} (hf : ∀ b a, Answerable (f b a)) (as : List α)
    (b : β) : Answerable (as.foldlM f b) := by
  induction as generalizing b with
  | nil => exact answerable_pure b
  | cons a as ih =>
    rw [List.foldlM_cons]
    exact answerable_bind (hf b a) ih

theorem answerable_findSomeM? {f : α → Exploring (Option β)} (hf : ∀ a, Answerable (f a))
    (as : List α) : Answerable (as.findSomeM? f) := by
  induction as with
  | nil => exact answerable_pure none
  | cons a as ih =>
    rw [List.findSomeM?]
    apply answerable_bind (hf a)
    intro b
    split
    · exact answerable_pure _
    · exact ih

theorem answerable_lookup (name : String) : Answerable (lookup name) := by
  intro h e h' hRun
  rw [lookup] at hRun
  split at hRun
  · cases hRun
  rw [get_bind_run] at hRun
  split at hRun
  · cases hRun
  split at hRun
  · cases hRun
  · split at hRun
    · cases hRun
      trivial
    · cases hRun

theorem answerable_visit (fuel : Nat) (path : List String) (done : Std.HashSet String)
    (name : String) : Answerable (visit fuel path done name) := by
  induction fuel generalizing path done name with
  | zero => exact answerable_throw trivial
  | succ fuel ih =>
    rw [visit]
    split
    · exact answerable_pure _
    refine answerable_unless (p := path.contains name = true) (e := .hierarchyCycle name) trivial ?_
    refine answerable_bind (answerable_lookup name) fun node => ?_
    split
    · exact answerable_pure _
    · exact answerable_bind (answerable_foldlM (fun b a => ih _ b a) _ _) fun _ => answerable_pure _

theorem answerable_reachable (name : String) : Answerable (reachable name) :=
  answerable_get_bind fun _ => answerable_visit _ _ _ _

theorem answerable_ancestorsOf (name : String) : Answerable (ancestorsOf name) := by
  apply answerable_get_bind
  intro h
  split
  · exact answerable_pure _
  · apply answerable_bind (answerable_reachable name)
    intro all
    apply answerable_get_bind
    intro h' h'' e h''' hRun
    cases hRun

theorem answerable_methodOnLine (method descriptor : String) (fuel : Nat) (name : Option String) :
    Answerable (methodOnLine method descriptor fuel name) := by
  induction fuel generalizing name with
  | zero =>
    rw [methodOnLine]
    exact answerable_pure none
  | succ fuel ih =>
    cases name with
    | none =>
      rw [methodOnLine]
      · exact answerable_pure none
      · exact Nat.noConfusion
    | some name =>
      rw [methodOnLine]
      apply answerable_bind (answerable_lookup name)
      intro node
      split
      · split
        · exact answerable_pure _
        · exact ih _
      · exact answerable_pure none

theorem answerable_methodOwner (reference : MemberKey) : Answerable (methodOwner reference) := by
  apply answerable_bind (answerable_ancestorsOf reference.owner)
  intro ancestors
  apply answerable_bind (answerable_methodOnLine _ _ _ _)
  intro onLine
  split
  · exact answerable_pure _
  · apply answerable_findSomeM?
    intro name
    apply answerable_bind (answerable_lookup name)
    intro node
    split <;> exact answerable_pure _

theorem answerable_fieldAbove (field descriptor : String) (fuel : Nat) (name : String) :
    Answerable (fieldAbove field descriptor fuel name) := by
  induction fuel generalizing name with
  | zero =>
    rw [fieldAbove]
    exact answerable_pure none
  | succ fuel ih =>
    rw [fieldAbove]
    apply answerable_bind (answerable_lookup name)
    intro node
    split
    · split
      · exact answerable_pure _
      · exact answerable_findSomeM? ih _
    · exact answerable_pure none

theorem answerable_fieldOwner (reference : MemberKey) : Answerable (fieldOwner reference) :=
  answerable_bind (answerable_reachable reference.owner) fun _ => answerable_fieldAbove _ _ _ _

end Hierarchy

end Renaming
