import Renaming.Proofs.Hierarchy.View

/-!
# The order of a sweep

A sweep works off a queue. At any time the queue is what is left of the names that are `level` steps
from the start, followed by names one step farther away, and everything nearer was found before. So
names come out with the nearest first. Names that are equally near come out in the order in which the
names before them lead to them.
-/

namespace Renaming

namespace View

theorem fresh_eq (found names : List String) :
    fresh found names = (names.filter fun x => decide (x ∉ found)).eraseDups := by
  induction names generalizing found with
  | nil => rfl
  | cons name names ih =>
    rw [fresh]
    split
    · rename_i hMem
      rw [List.filter_cons_of_neg (by simpa using hMem), ih]
    · rename_i hNew
      rw [List.filter_cons_of_pos (by simpa using hNew), List.eraseDups_cons, List.filter_filter, ih]
      congr 3
      funext x
      rw [Bool.eq_iff_iff]
      simp [and_comm]

theorem mem_fresh {found names : List String} {x : String} :
    x ∈ fresh found names ↔ x ∈ names ∧ x ∉ found := by
  rw [fresh_eq, List.mem_eraseDups, List.mem_filter, decide_eq_true_iff]

theorem fresh_nil (names : List String) : fresh [] names = names.eraseDups := by
  rw [fresh_eq, List.filter_eq_self.mpr]
  exact fun x _ => decide_eq_true List.not_mem_nil

theorem fresh_append (found front names : List String) :
    fresh found (front ++ names) =
      fresh found front ++ fresh (found ++ fresh found front) names := by
  induction front generalizing found with
  | nil => rw [List.nil_append, fresh, List.append_nil, List.nil_append]
  | cons x front ih =>
    rw [List.cons_append, fresh, fresh]
    split
    · exact ih found
    · rw [ih, List.cons_append, List.append_cons found x (fresh (found ++ [x]) front)]

variable {next : String → List String} {start : String}

/-- There is a way of `n` steps from `start`. -/
inductive Walk (next : String → List String) (start : String) : Nat → String → Prop
  | start : Walk next start 0 start
  | step {n : Nat} {x y : String} (h : Walk next start n x) (hStep : y ∈ next x) :
      Walk next start (n + 1) y

theorem Walk.exists_step {n : Nat} {y : String} (h : Walk next start (n + 1) y) :
    ∃ x, Walk next start n x ∧ y ∈ next x := by
  cases h with
  | step h hStep => exact ⟨_, h, hStep⟩

/-- A name that is found needs no more steps than another one, where at least one step is made. -/
def NoFarther (next : String → List String) (start x y : String) : Prop :=
  ∀ n, Walk next start (n + 1) y → ∃ m ≤ n, Walk next start (m + 1) x

/-- The state of a sweep: `near` and then `far` are pending, at `level` steps and at one step more. -/
structure Front (next : String → List String) (start : String) (level : Nat)
    (near far found : List String) : Prop where
  here : ∀ x ∈ near, Walk next start level x
  beyond : ∀ x ∈ far, Walk next start (level + 1) x
  within : ∀ x ∈ found, ∃ m ≤ level, Walk next start (m + 1) x
  /-- What takes up to `level` steps is found, and one step farther only `near` leads to more. -/
  met : ∀ m ≤ level, ∀ x, Walk next start (m + 1) x →
    x ∈ found ∨ m = level ∧ ∃ y ∈ near, x ∈ next y
  closed : ∀ x ∈ found, x ∈ near ++ far ∨ ∀ y ∈ next x, y ∈ found
  sorted : found.Pairwise (NoFarther next start)

theorem front_start (next : String → List String) (start : String) :
    Front next start 0 [start] [] [] where
  here := List.forall_mem_singleton.mpr .start
  beyond := List.forall_mem_nil _
  within := List.forall_mem_nil _
  met := by
    intro m hm x hx
    obtain rfl := Nat.le_zero.mp hm
    obtain ⟨y, hy, hx⟩ := hx.exists_step
    cases hy
    exact Or.inr ⟨rfl, start, List.mem_singleton.mpr rfl, hx⟩
  closed := List.forall_mem_nil _
  sorted := .nil

namespace Front

variable {level : Nat} {name : String} {near far found : List String}

theorem shift (h : Front next start level [] far found) :
    Front next start (level + 1) far [] found where
  here := h.beyond
  beyond := List.forall_mem_nil _
  within := by
    intro x hx
    obtain ⟨m, hm, hWalk⟩ := h.within x hx
    exact ⟨m, by omega, hWalk⟩
  met := by
    have hFound : ∀ m ≤ level, ∀ x, Walk next start (m + 1) x → x ∈ found := by
      intro m hm x hx
      rcases h.met m hm x hx with hx | ⟨-, y, hy, -⟩
      · exact hx
      · cases hy
    intro m hm x hx
    by_cases hLast : m = level + 1
    · subst hLast
      obtain ⟨y, hy, hStep⟩ := hx.exists_step
      rcases h.closed y (hFound level (Nat.le_refl _) y hy) with hPending | hClosed
      · exact Or.inr ⟨rfl, y, hPending, hStep⟩
      · exact Or.inl (hClosed x hStep)
    · exact Or.inl (hFound m (by omega) x hx)
  closed := by
    intro x hx
    rw [List.append_nil]
    exact h.closed x hx
  sorted := h.sorted

theorem advance (h : Front next start level (name :: near) far found) :
    Front next start level near (far ++ fresh found (next name))
      (found ++ fresh found (next name)) := by
  have hNew : ∀ x ∈ fresh found (next name), x ∈ next name ∧ x ∉ found := by
    intro x hx
    exact mem_fresh.mp hx
  have hHere : Walk next start level name := h.here name List.mem_cons_self
  have hWithin : ∀ x ∈ found ++ fresh found (next name),
      ∃ m ≤ level, Walk next start (m + 1) x := by
    intro x hx
    rcases List.mem_append.mp hx with hx | hx
    · exact h.within x hx
    · exact ⟨level, Nat.le_refl _, hHere.step (hNew x hx).1⟩
  -- What is new could not be reached in fewer steps, or it would not be new.
  have hLater : ∀ x ∈ found ++ fresh found (next name), ∀ y ∈ fresh found (next name),
      NoFarther next start x y := by
    intro x hx y hy n hWalk
    obtain ⟨m, hm, hx⟩ := hWithin x hx
    refine ⟨m, ?_, hx⟩
    by_contra hLess
    rcases h.met n (by omega) y hWalk with hy' | ⟨hLevel, -⟩
    · exact (hNew y hy).2 hy'
    · omega
  constructor
  case here => exact fun x hx => h.here x (List.mem_cons_of_mem name hx)
  case beyond =>
    intro x hx
    rcases List.mem_append.mp hx with hx | hx
    · exact h.beyond x hx
    · exact hHere.step (hNew x hx).1
  case within => exact hWithin
  case met =>
    intro m hm x hx
    rcases h.met m hm x hx with hx | ⟨hLevel, y, hy, hStep⟩
    · exact Or.inl (List.mem_append_left _ hx)
    · rcases List.mem_cons.mp hy with rfl | hy
      · exact Or.inl (mem_append_fresh.mpr (Or.inr hStep))
      · exact Or.inr ⟨hLevel, y, hy, hStep⟩
  case closed =>
    intro x hx
    rw [← List.append_assoc, List.mem_append]
    rcases List.mem_append.mp hx with hx | hx
    · rcases h.closed x hx with hPending | hClosed
      · rcases List.mem_cons.mp hPending with rfl | hPending
        · exact Or.inr fun y hy => mem_append_fresh.mpr (Or.inr hy)
        · exact Or.inl (Or.inl hPending)
      · exact Or.inr fun y hy => List.mem_append_left _ (hClosed y hy)
    · exact Or.inl (Or.inr hx)
  case sorted =>
    apply List.pairwise_append.mpr
    refine ⟨h.sorted, ?_, fun x hx y hy => hLater x (List.mem_append_left _ hx) y hy⟩
    apply List.pairwise_of_forall_mem_list
    exact fun x hx y hy => hLater x (List.mem_append_right _ hx) y hy

end Front

namespace Sweeps

variable {pending found result : List String}

theorem sorted_of_front {level : Nat} {near far : List String}
    (h : Sweeps next pending found result) (hPending : pending = near ++ far)
    (hFront : Front next start level near far found) : result.Pairwise (NoFarther next start) := by
  induction h generalizing level near far with
  | done => exact hFront.sorted
  | @step name pending found result _ ih =>
    cases near with
    | nil =>
      obtain rfl : far = name :: pending := hPending.symm
      exact ih (by rw [List.nil_append]) hFront.shift.advance
    | cons x near =>
      obtain ⟨rfl, rfl⟩ := List.cons.inj hPending
      exact ih (List.append_assoc ..) hFront.advance

/-- A sweep finds the nearest names first. -/
theorem nearest_first (h : Sweeps next [start] [] result) :
    result.Pairwise (NoFarther next start) :=
  h.sorted_of_front rfl (front_start next start)

theorem nodup (h : Sweeps next pending found result) (hFound : found.Nodup) : result.Nodup := by
  induction h with
  | done => exact hFound
  | step _ ih => exact ih (nodup_append_fresh hFound)

theorem discovered_of_front {worked : List String} (h : Sweeps next pending found result)
    (hQueue : start :: found = worked ++ pending) (hFound : found = fresh [] (worked.flatMap next)) :
    result = fresh [] ((start :: result).flatMap next) := by
  induction h generalizing worked with
  | done =>
    rw [List.append_nil] at hQueue
    rw [hQueue]
    exact hFound
  | @step name pending found result _ ih =>
    have hQueue' : start :: (found ++ fresh found (next name)) =
        (worked ++ [name]) ++ (pending ++ fresh found (next name)) := by
      rw [← List.cons_append, hQueue]
      simp
    apply ih hQueue'
    rw [List.flatMap_append, fresh_append, ← hFound, List.flatMap_singleton, List.nil_append]

/-- What is found is what the start and then each of the found names lead to, less what came up
before. -/
theorem discovered (h : Sweeps next [start] [] result) :
    result = ((start :: result).flatMap next).eraseDups := by
  have hStart : [start] = [] ++ [start] := rfl
  rw [← fresh_nil]
  exact h.discovered_of_front hStart rfl

end Sweeps

end View

end Renaming
