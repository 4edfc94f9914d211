import Mathlib.Data.List.Nodup
import Mathlib.Tactic.Tauto
import Renaming.Clash

/-!
# Items without clashes

The search for a clash finds none exactly if all keys are different.
-/

namespace Renaming

variable {α κ : Type} [BEq κ] [LawfulBEq κ] [Hashable κ] {key : α → κ} {items : List α}

theorem getElem?_insert_eq_none {β : Type} {m : Std.HashMap κ β} {k k' : κ} {b : β} :
    (m.insert k b)[k']? = none ↔ k ≠ k' ∧ m[k']? = none := by
  rw [Std.HashMap.getElem?_insert]
  by_cases hEq : k = k'
  · simp [hEq]
  · simp [hEq]

theorem firstClashFrom_eq_none {seen : Std.HashMap κ α} : firstClashFrom key seen items = none ↔
    (∀ a ∈ items, seen[key a]? = none) ∧ (items.map key).Nodup := by
  induction items generalizing seen with
  | nil => simp [firstClashFrom]
  | cons a items ih =>
    rw [firstClashFrom, List.forall_mem_cons, List.map_cons, List.nodup_cons]
    cases hSeen : seen[key a]? with
    | some earlier => simp
    | none =>
      have hMem : key a ∉ items.map key ↔ ∀ b ∈ items, key a ≠ key b := by
        simp [eq_comm]
      simp only [ih, getElem?_insert_eq_none, forall₂_and, hMem]
      tauto

theorem firstClash?_eq_none : firstClash? key items = none ↔ (items.map key).Nodup := by
  rw [firstClash?, firstClashFrom_eq_none]
  simp

end Renaming
