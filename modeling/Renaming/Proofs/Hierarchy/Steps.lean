import Mathlib.Logic.Relation
import Renaming.Proofs.Hierarchy.Coherent

/-!
# The steps of a question

A question to a hierarchy looks up classes, lists ancestors and looks at what is known. The first two
change the hierarchy, in three ways in all, so an invariant of these steps is an invariant of every
question. Looking at what is known never tells a strict hierarchy from a lenient one.
-/

namespace Renaming

open Effectful

namespace Hierarchy

variable {h h' : Hierarchy}

/-- The same hierarchy, failing where a class is missing. -/
def strictly (h : Hierarchy) : Hierarchy := { h with strict := true }

/-- What a question does to a hierarchy at a time. -/
inductive Step (h : Hierarchy) : Hierarchy → Prop
  | found {name : String} {c : ClassModel} (hName : Text.startsWith '[' name = false)
    (hNew : h.nodes[name]? = none) (hLoad : h.load name = .ok c) :
    Step h { h.registerChildren c with nodes := h.nodes.insert name (some c) }
  | missed {name : String} {cause : Missing} (hName : Text.startsWith '[' name = false)
    (hNew : h.nodes[name]? = none) (hLoad : h.load name = .error cause)
    (hLenient : h.strict = false) :
    Step h { h with
      nodes := h.nodes.insert name none
      newestDiagnostics := .unresolved name cause :: h.newestDiagnostics }
  | listed (name : String) (as : List String) :
    Step h { h with ancestors := h.ancestors.insert name as }

abbrev Steps : Hierarchy → Hierarchy → Prop := Relation.ReflTransGen Step

theorem Steps.invariant {P : Hierarchy → Prop} (hStep : ∀ {h h'}, P h → Step h h' → P h')
    (hSteps : Steps h h') (hStart : P h) : P h' := by
  induction hSteps with
  | refl => exact hStart
  | tail _ hLast ih => exact hStep ih hLast

theorem Steps.fetch_eq (hSteps : Steps h h') : h'.fetch = h.fetch :=
  hSteps.invariant (P := fun h' => h'.fetch = h.fetch)
    (fun hSame hStep => by cases hStep <;> exact hSame) rfl

end Hierarchy

namespace Exploring

variable {α β : Type}

/-- The question with its answer changed to another one. -/
def answered (f : Except Failure α → Except Failure β) (x : Exploring α) : Exploring β := fun h =>
  (f (x.run h).1, (x.run h).2)

/-- The question is put together from steps, and nothing in it hides that a class is missing. -/
inductive Composed : {α : Type} → Exploring α → Prop
  | pure {α : Type} (a : α) : Composed (Pure.pure a)
  | error {α : Type} (e : Failure) : Composed (throw e : Exploring α)
  | bind {α β : Type} {x : Exploring α} {f : α → Exploring β} (hx : Composed x)
    (hf : ∀ a, Composed (f a)) : Composed (x >>= f)
  | lookup (name : String) : Composed (Hierarchy.lookup name)
  | inspect {α : Type} {f : Hierarchy → Exploring α} (hf : ∀ h, f h.strictly = f h)
    (hEach : ∀ h, Composed (f h)) : Composed (get >>= f)
  | list (name : String) (as : List String) :
    Composed (modify fun h => { h with ancestors := h.ancestors.insert name as })
  | answered {α β : Type} {x : Exploring α} {f : Except Failure α → Except Failure β}
    (hf : ∀ name cause, f (.error (.unresolved name cause)) = .error (.unresolved name cause))
    (hx : Composed x) : Composed (Exploring.answered f x)

theorem answered_run {f : Except Failure α → Except Failure β} {x : Exploring α} {h : Hierarchy} :
    (answered f x).run h = (f (x.run h).1, (x.run h).2) := rfl

namespace Composed

variable {x : Exploring α} {f : α → Exploring β}

theorem guarded {p : Prop} [Decidable p] {e : Failure} (hx : Composed x) : Composed (do
    if p then throw e
    x) := by
  split
  · exact (Composed.error e).bind fun _ => hx
  · exact hx

theorem lift (e : Except Failure α) : Composed (liftM e : Exploring α) := by
  cases e with
  | error e => exact .error e
  | ok a => exact .pure a

theorem foldlM {f : β → α → Exploring β} (hf : ∀ b a, Composed (f b a)) (as : List α) (b : β) :
    Composed (as.foldlM f b) := by
  induction as generalizing b with
  | nil => exact .pure b
  | cons a as ih =>
    rw [List.foldlM_cons]
    exact (hf b a).bind ih

theorem mapM (hf : ∀ a, Composed (f a)) (as : List α) : Composed (as.mapM f) := by
  induction as with
  | nil =>
    rw [List.mapM_nil]
    exact .pure []
  | cons a as ih =>
    rw [List.mapM_cons]
    exact (hf a).bind fun b => ih.bind fun bs => .pure (b :: bs)

theorem findSomeM? {f : α → Exploring (Option β)} (hf : ∀ a, Composed (f a)) (as : List α) :
    Composed (as.findSomeM? f) := by
  induction as with
  | nil => exact .pure none
  | cons a as ih =>
    rw [List.findSomeM?]
    apply (hf a).bind
    intro b
    split
    · exact .pure _
    · exact ih

theorem filterM {f : α → Exploring Bool} (hf : ∀ a, Composed (f a)) (as : List α) :
    Composed (as.filterM f) := by
  have hAux : ∀ kept, Composed (as.filterAuxM f kept) := by
    induction as with
    | nil => exact fun kept => .pure kept
    | cons a as ih =>
      intro kept
      rw [List.filterAuxM]
      exact (hf a).bind fun b => ih _
  rw [List.filterM]
  exact (hAux []).bind fun kept => .pure kept.reverse

end Composed

end Exploring

namespace Hierarchy

open Exploring

theorem composed_visit (fuel : Nat) (path : List String) (done : Std.HashSet String)
    (name : String) : Composed (visit fuel path done name) := by
  induction fuel generalizing path done name with
  | zero => exact .error _
  | succ fuel ih =>
    rw [visit]
    split
    · exact .pure _
    apply Composed.guarded (p := path.contains name = true)
    apply (Composed.lookup name).bind
    intro node
    split
    · exact .pure _
    · exact (Composed.foldlM (ih _) _ done).bind fun _ => .pure _

theorem composed_reachable (name : String) : Composed (reachable name) :=
  .inspect (fun _ => rfl) fun _ => composed_visit _ _ _ _

theorem composed_ancestorsOf (name : String) : Composed (ancestorsOf name) := by
  apply Composed.inspect
  · exact fun _ => rfl
  intro h
  split
  · exact .pure _
  · apply (composed_reachable name).bind
    intro all
    apply Composed.inspect
    · exact fun _ => rfl
    · exact fun h => (Composed.list name _).bind fun _ => .pure _

theorem composed_methodOnLine (method descriptor : String) (fuel : Nat) (name : Option String) :
    Composed (methodOnLine method descriptor fuel name) := by
  induction fuel generalizing name with
  | zero =>
    rw [methodOnLine]
    exact .pure none
  | succ fuel ih =>
    cases name with
    | none =>
      rw [methodOnLine]
      · exact .pure none
      · exact Nat.noConfusion
    | some name =>
      rw [methodOnLine]
      apply (Composed.lookup name).bind
      intro node
      split
      · split
        · exact .pure _
        · exact ih _
      · exact .pure none

theorem composed_methodOwner (reference : MemberKey) : Composed (methodOwner reference) := by
  apply (composed_ancestorsOf reference.owner).bind
  intro ancestors
  apply (composed_methodOnLine _ _ _ _).bind
  intro onLine
  split
  · exact .pure _
  · apply Composed.findSomeM?
    intro name
    apply (Composed.lookup name).bind
    intro node
    split <;> exact .pure _

theorem composed_fieldAbove (field descriptor : String) (fuel : Nat) (name : String) :
    Composed (fieldAbove field descriptor fuel name) := by
  induction fuel generalizing name with
  | zero =>
    rw [fieldAbove]
    exact .pure none
  | succ fuel ih =>
    rw [fieldAbove]
    apply (Composed.lookup name).bind
    intro node
    split
    · split
      · exact .pure _
      · exact .findSomeM? ih _
    · exact .pure none

theorem composed_fieldOwner (reference : MemberKey) : Composed (fieldOwner reference) :=
  (composed_reachable reference.owner).bind fun _ => composed_fieldAbove _ _ _ _

theorem composed_implementorsOf (method : MemberKey) : Composed (implementorsOf method) := by
  apply (Composed.lookup method.owner).bind
  intro owner
  split
  · split
    · split
      · exact .pure []
      · apply Composed.inspect
        · exact fun _ => rfl
        intro h
        apply Composed.filterM
        intro name
        apply (Composed.lookup name).bind
        intro node
        split
        · split <;> exact .pure _
        · exact .pure _
    · exact .pure []
  · exact .pure []

theorem steps_lookup (h : Hierarchy) (name : String) : Steps h ((lookup name).run h).2 := by
  cases hName : Text.startsWith '[' name with
  | true =>
    rw [lookup, if_pos hName]
    exact .refl
  | false =>
    rw [lookup, hName, if_neg Bool.false_ne_true, get_bind_run]
    cases hNode : h.nodes[name]? with
    | some node => exact .refl
    | none =>
      cases hLoad : h.load name with
      | ok c => exact .single (.found hName hNode hLoad)
      | error cause =>
        cases hStrict : h.strict with
        | true => exact .refl
        | false =>
          have hStep := Step.missed hName hNode hLoad hStrict
          rw [hStrict] at hStep
          exact .single hStep

end Hierarchy

theorem Exploring.Composed.steps {α : Type} {x : Exploring α} (hx : Composed x) (h : Hierarchy) :
    Hierarchy.Steps h (x.run h).2 := by
  induction hx generalizing h with
  | pure a => exact .refl
  | error e => exact .refl
  | @bind α β x f _ _ ih ih' =>
    rcases hRun : (x >>= f).run h with ⟨r, h'⟩
    have hFirstSteps := ih h
    rcases bind_run.mp hRun with ⟨a, h₁, hFirst, hSecond⟩ | ⟨e, hFirst, -⟩
    · have hSecondSteps := ih' a h₁
      rw [hFirst] at hFirstSteps
      rw [hSecond] at hSecondSteps
      exact hFirstSteps.trans hSecondSteps
    · rw [hFirst] at hFirstSteps
      exact hFirstSteps
  | lookup name => exact Hierarchy.steps_lookup h name
  | inspect _ _ ih => exact ih h h
  | list name as => exact .single (.listed name as)
  | answered hf _ ih => exact ih h

end Renaming
