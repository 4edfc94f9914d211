import Renaming.Proofs.Hierarchy.Steps

/-!
# Strict hierarchies

A strict hierarchy differs from a lenient one in what it does about the first missing class: it fails
where the lenient one notes a diagnostic and goes on. Up to there, and so for good if no class is
missing, the two do the same.
-/

namespace Renaming

open Effectful

namespace Hierarchy

variable {h h' : Hierarchy}

theorem Step.strict_eq (hStep : Step h h') : h'.strict = h.strict := by
  cases hStep <;> rfl

theorem Step.diagnostics (hStep : Step h h') : ∃ missing, h'.newestDiagnostics =
    missing ++ h.newestDiagnostics ∧ ∀ d ∈ missing, d.kind = .unresolved := by
  cases hStep with
  | found => exact ⟨[], rfl, List.forall_mem_nil _⟩
  | @missed name cause =>
    exact ⟨[.unresolved name cause], rfl, List.forall_mem_singleton.mpr rfl⟩
  | listed => exact ⟨[], rfl, List.forall_mem_nil _⟩

theorem Steps.strict_eq (hSteps : Steps h h') : h'.strict = h.strict :=
  hSteps.invariant (P := fun h' => h'.strict = h.strict)
    (fun hEq hStep => hStep.strict_eq.trans hEq) rfl

/-- All that a question ever notes is that classes are missing. -/
theorem Steps.diagnostics (hSteps : Steps h h') : ∃ missing, h'.newestDiagnostics =
    missing ++ h.newestDiagnostics ∧ ∀ d ∈ missing, d.kind = .unresolved := by
  induction hSteps with
  | refl => exact ⟨[], rfl, List.forall_mem_nil _⟩
  | tail _ hLast ih =>
    obtain ⟨missing, hEq, hKind⟩ := ih
    obtain ⟨missing', hEq', hKind'⟩ := hLast.diagnostics
    refine ⟨missing' ++ missing, ?_, ?_⟩
    · rw [hEq', hEq, List.append_assoc]
    · exact List.forall_mem_append.mpr ⟨hKind', hKind⟩

theorem Steps.suffix (hSteps : Steps h h') : h.newestDiagnostics <:+ h'.newestDiagnostics := by
  obtain ⟨missing, hEq, -⟩ := hSteps.diagnostics
  exact ⟨missing, hEq.symm⟩

theorem Steps.diagnostics_eq_iff {h₁ : Hierarchy} (hFirst : Steps h h₁) (hSecond : Steps h₁ h') :
    h'.newestDiagnostics = h.newestDiagnostics ↔
      h₁.newestDiagnostics = h.newestDiagnostics ∧
        h'.newestDiagnostics = h₁.newestDiagnostics := by
  constructor
  · intro hEq
    have hBack : h₁.newestDiagnostics <:+ h.newestDiagnostics := hEq ▸ hSecond.suffix
    have hSame := hBack.eq_of_length_le hFirst.suffix.length_le
    exact ⟨hSame, hEq.trans hSame.symm⟩
  · rintro ⟨hSame, hSame'⟩
    exact hSame'.trans hSame

/-- How a question runs in the strict hierarchy, after it ran in the lenient one from `h` to `h'`. -/
def StrictRun {α : Type} (x : Exploring α) (h : Hierarchy) (r : Except Failure α)
    (h' : Hierarchy) : Prop :=
  (h'.newestDiagnostics = h.newestDiagnostics ∧ x.run h.strictly = (r, h'.strictly)) ∨
    (h'.newestDiagnostics ≠ h.newestDiagnostics ∧
      ∃ name cause t, x.run h.strictly = (.error (.unresolved name cause), t))

theorem strictRun_lookup (hLenient : h.strict = false) (name : String) :
    StrictRun (lookup name) h ((lookup name).run h).1 ((lookup name).run h).2 := by
  have hLoad : h.strictly.load name = h.load name := congrFun (load_congr rfl) name
  have hNodes : h.strictly.nodes = h.nodes := rfl
  have hStrict : h.strictly.strict = true := rfl
  unfold StrictRun
  rw [lookup]
  split
  · exact Or.inl ⟨rfl, rfl⟩
  · rw [get_bind_run, get_bind_run, hNodes]
    cases hNode : h.nodes[name]? with
    | some node => exact Or.inl ⟨rfl, rfl⟩
    | none =>
      rw [hLoad]
      cases hCause : h.load name with
      | ok c => exact Or.inl ⟨rfl, rfl⟩
      | error cause =>
        rw [hLenient, hStrict]
        exact Or.inr ⟨List.cons_ne_self _ _, name, cause, h.strictly, rfl⟩

end Hierarchy

open Hierarchy

/-- A strict hierarchy fails if the lenient one found that a class is missing, and otherwise does the
same. -/
theorem Exploring.Composed.strictRun {α : Type} {x : Exploring α} (hx : Composed x)
    {h h' : Hierarchy} {r : Except Failure α} (hLenient : h.strict = false)
    (hRun : x.run h = (r, h')) : StrictRun x h r h' := by
  induction hx generalizing h h' with
  | pure a =>
    cases hRun
    exact Or.inl ⟨rfl, rfl⟩
  | error e =>
    cases hRun
    exact Or.inl ⟨rfl, rfl⟩
  | @bind α β x f hx hf ih ih' =>
    have hFirstSteps := hx.steps h
    rcases bind_run.mp hRun with ⟨a, h₁, hFirst, hSecond⟩ | ⟨e, hFirst, rfl⟩
    · have hSecondSteps := (hf a).steps h₁
      rw [hFirst] at hFirstSteps
      rw [hSecond] at hSecondSteps
      have hBoth := hFirstSteps.diagnostics_eq_iff hSecondSteps
      rcases ih hLenient hFirst with ⟨hSame, hStrict⟩ | ⟨hMore, name, cause, t, hStrict⟩
      · -- The first part does the same, so the second decides.
        have hLenient₁ : h₁.strict = false := hFirstSteps.strict_eq.trans hLenient
        rcases ih' a hLenient₁ hSecond with ⟨hSame', hStrict'⟩ | ⟨hMore', hStrict'⟩
        · exact Or.inl ⟨hBoth.mpr ⟨hSame, hSame'⟩, (bind_run_of_ok hStrict).trans hStrict'⟩
        · obtain ⟨name, cause, t, hStrict'⟩ := hStrict'
          exact Or.inr ⟨fun hEq => hMore' (hBoth.mp hEq).2, name, cause, t,
            (bind_run_of_ok hStrict).trans hStrict'⟩
      · exact Or.inr ⟨fun hEq => hMore (hBoth.mp hEq).1, name, cause, t,
          bind_run.mpr (Or.inr ⟨_, hStrict, rfl⟩)⟩
    · rcases ih hLenient hFirst with ⟨hSame, hStrict⟩ | ⟨hMore, name, cause, t, hStrict⟩
      · exact Or.inl ⟨hSame, bind_run.mpr (Or.inr ⟨e, hStrict, rfl⟩)⟩
      · exact Or.inr ⟨hMore, name, cause, t, bind_run.mpr (Or.inr ⟨_, hStrict, rfl⟩)⟩
  | lookup name =>
    have hLookup := strictRun_lookup hLenient name
    rw [hRun] at hLookup
    exact hLookup
  | @inspect α f hf _ ih =>
    have hEach := ih h hLenient hRun
    rw [← hf h] at hEach
    exact hEach
  | list name as =>
    cases hRun
    exact Or.inl ⟨rfl, rfl⟩
  | @answered α β x f hf _ ih =>
    cases hRun
    rcases ih hLenient rfl with ⟨hSame, hStrict⟩ | ⟨hMore, name, cause, t, hStrict⟩
    · refine Or.inl ⟨hSame, ?_⟩
      rw [answered_run, hStrict]
      rfl
    · refine Or.inr ⟨hMore, name, cause, t, ?_⟩
      rw [answered_run, hStrict, hf]

end Renaming
