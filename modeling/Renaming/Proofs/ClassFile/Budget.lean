import Mathlib.Algebra.Order.BigOperators.Group.List
import Mathlib.Algebra.Order.Group.Nat
import Mathlib.Data.List.Nodup
import Mathlib.Data.List.Perm.Subperm
import Renaming.Proofs.ClassFile.Repaid.Pool

/-!
# A pool as a budget

Two constants are never named by the same index, so whatever is charged for distinct constants of a
pool is no more than what the slots of the pool come to. `Affords` is the form in which a writer
carries this along: what is spent so far, together with everything that may still be asked for,
stays within the limit.
-/

namespace Renaming

/-- However many constants of `W` that are not yet paid for are charged on top of what is spent,
the sum stays within the limit. -/
def Affords (W : Constant → Prop) (cost : Constant → Nat) (limit : Nat) (paid : Constant → Prop)
    (spent : Nat) : Prop :=
  ∀ cs : List Constant, cs.Nodup → (∀ c ∈ cs, W c ∧ ¬ paid c) → spent + (cs.map cost).sum ≤ limit

namespace Affords

variable {W : Constant → Prop} {cost : Constant → Nat} {limit spent spent' : Nat}
  {paid paid' : Constant → Prop}

theorem spent_le (h : Affords W cost limit paid spent) : spent ≤ limit := by
  simpa using h [] List.nodup_nil (by simp)

theorem cost_le (h : Affords W cost limit paid spent) {c : Constant} (hc : W c) (hNew : ¬ paid c) :
    spent + cost c ≤ limit := by
  simpa using h [c] (List.nodup_singleton c) (by simp [hc, hNew])

theorem keep (h : Affords W cost limit paid spent) (hPaid : ∀ c, paid c → paid' c) :
    Affords W cost limit paid' spent :=
  fun cs hNodup hAll => h cs hNodup fun c hc => ⟨(hAll c hc).1, fun h => (hAll c hc).2 (hPaid c h)⟩

theorem pay (h : Affords W cost limit paid spent) {c : Constant} (hc : W c) (hNew : ¬ paid c)
    (hPaid : ∀ d, paid d ∨ d = c → paid' d) (hSpent : spent' = spent + cost c) :
    Affords W cost limit paid' spent' := by
  intro cs hNodup hAll
  have hNotMem : c ∉ cs := fun hMem => (hAll c hMem).2 (hPaid c (Or.inr rfl))
  have hMore := h (c :: cs) (List.nodup_cons.mpr ⟨hNotMem, hNodup⟩) <|
    List.forall_mem_cons.mpr ⟨⟨hc, hNew⟩, fun d hd =>
      ⟨(hAll d hd).1, fun h => (hAll d hd).2 (hPaid d (Or.inl h))⟩⟩
  rw [List.map_cons, List.sum_cons] at hMore
  omega

end Affords

namespace Pool

variable {P : Pool} {cs : List Constant}

/-- The constant fits one slot and has an index of one byte. -/
def NamesLow (P : Pool) (c : Constant) : Prop :=
  ∃ i : UInt16, P.Names i c ∧ i.toNat ≤ 255 ∧ c.isWide = false

theorem exists_slots {T : UInt16 → Constant → Prop} (hNodup : cs.Nodup)
    (h : ∀ c ∈ cs, ∃ i, P.Names i c ∧ T i c) :
    ∃ index : Constant → UInt16, (cs.map fun c => (index c).toNat - 1).Nodup ∧
      ∀ c ∈ cs, P.Names (index c) c ∧ T (index c) c := by
  choose! index hIndex using h
  refine ⟨index, hNodup.map_on fun c hc d hd hEq => ?_, hIndex⟩
  -- Index 0 names nothing, so that different indices still differ one lower.
  have hPosC := (hIndex c hc).1.pos
  have hPosD := (hIndex d hd).1.pos
  have hSame : index c = index d := UInt16.toNat_inj.mp (by omega)
  exact (hIndex c hc).1.unique (hSame ▸ (hIndex d hd).1)

theorem sum_le {cost : Constant → Nat} {weight : PoolEntry → Nat} (hNodup : cs.Nodup)
    (h : ∀ c ∈ cs, P.Holds c)
    (hCost : ∀ i c e, P.Names i c → P.entry i = .ok e → cost c = weight e) :
    (cs.map cost).sum ≤ (P.entries.toList.map weight).sum := by
  have hSlots : ∀ c ∈ cs, ∃ i, P.Names i c ∧ ∃ e, P.entry i = .ok e := fun c hc =>
    (h c hc).imp fun i hi => ⟨hi, hi.entry.imp fun e he => he.1⟩
  obtain ⟨index, hDistinct, hIndex⟩ := exists_slots hNodup hSlots
  -- The cost depends on the slot alone, so it can be summed over the slots.
  let value (k : Nat) : Nat := (P.entries[k]?).elim 0 weight
  have hValue : ∀ c ∈ cs, (index c).toNat - 1 < P.entries.size ∧
      cost c = value ((index c).toNat - 1) := by
    intro c hc
    obtain ⟨hNames, e, he⟩ := hIndex c hc
    obtain ⟨-, hSlot, -⟩ := entry_eq_ok.mp he
    obtain ⟨hLt, -⟩ := Array.getElem?_eq_some_iff.mp hSlot
    exact ⟨hLt, by simp only [value, hSlot, Option.elim, hCost _ _ _ hNames he]⟩
  have hSub : (cs.map fun c => (index c).toNat - 1) ⊆ List.range P.entries.size := by
    intro k hk
    obtain ⟨c, hc, rfl⟩ := List.mem_map.mp hk
    exact List.mem_range.mpr (hValue c hc).1
  obtain ⟨ks, hPerm, hSublist⟩ := hDistinct.subperm hSub
  calc (cs.map cost).sum
      = ((cs.map fun c => (index c).toNat - 1).map value).sum := by
        rw [List.map_map]
        exact congrArg List.sum (List.map_congr_left fun c hc => (hValue c hc).2)
    _ = (ks.map value).sum := (hPerm.map value).sum_eq.symm
    _ ≤ ((List.range P.entries.size).map value).sum :=
        (hSublist.map value).sum_le_sum fun _ _ => Nat.zero_le _
    _ = (P.entries.toList.map weight).sum := by
        congr 1
        apply List.ext_getElem
        · simp
        · intro k hk _
          have hLt : k < P.entries.size := by simpa using hk
          simp [value, hLt]

theorem length_le_of_namesLow (hNodup : cs.Nodup) (h : ∀ c ∈ cs, P.NamesLow c) :
    cs.length ≤ 255 := by
  obtain ⟨index, hDistinct, hIndex⟩ := exists_slots hNodup h
  have hSub : (cs.map fun c => (index c).toNat - 1) ⊆ List.range 255 := by
    intro k hk
    obtain ⟨c, hc, rfl⟩ := List.mem_map.mp hk
    have hPos := (hIndex c hc).1.pos
    have hByte := (hIndex c hc).2.1
    exact List.mem_range.mpr (by omega)
  simpa using (hDistinct.subperm hSub).length_le

end Pool

end Renaming
