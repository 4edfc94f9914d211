import Mathlib.Data.List.Nodup
import Renaming.OrderedMap

/-!
# What an ordered map holds

The entries in the list are those that are found as long as every key is entered once.
-/

namespace Renaming.OrderedMap

variable {κ β : Type} [BEq κ] [Hashable κ] [LawfulBEq κ] [LawfulHashable κ] {m : OrderedMap κ β}

@[simp] theorem find?_empty (k : κ) : (empty : OrderedMap κ β).find? k = none := by
  simp [find?, empty]

theorem find?_push (m : OrderedMap κ β) (k : κ) (v : β) (a : κ) :
    (m.push k v).find? a = if k == a then some v else m.find? a := by
  rw [find?, push, Std.HashMap.getElem?_insert, find?]

theorem mem_toList_of_find? {k : κ} {v : β} (h : m.find? k = some v) : (k, v) ∈ m.toList := by
  rw [find?_eq_lookup, List.lookup_eq_some_iff] at h
  obtain ⟨before, after, hSplit, -⟩ := h
  rw [toList, hSplit, List.mem_reverse]
  exact List.mem_append_right before List.mem_cons_self

/-- No key is entered twice. -/
def Distinct (m : OrderedMap κ β) : Prop := (m.toList.map Prod.fst).Nodup

theorem distinct_empty : (empty : OrderedMap κ β).Distinct := List.nodup_nil

theorem find?_eq_none_iff {k : κ} : m.find? k = none ↔ k ∉ m.toList.map Prod.fst := by
  rw [find?_eq_lookup, List.lookup_eq_none_iff, toList, List.map_reverse, List.mem_reverse,
    List.mem_map]
  constructor
  · rintro h ⟨e, he, rfl⟩
    simpa using h e he
  · intro h e he
    rw [bne_iff_ne]
    rintro rfl
    exact h ⟨e, he, rfl⟩

theorem Distinct.push (hm : m.Distinct) {k : κ} (hNew : m.find? k = none) (v : β) :
    (m.push k v).Distinct := by
  rw [Distinct, toList_push, List.map_append, List.map_singleton, List.nodup_append]
  refine ⟨hm, List.nodup_singleton k, fun a ha b hb hEq => ?_⟩
  rw [List.mem_singleton] at hb
  subst hEq hb
  exact find?_eq_none_iff.mp hNew ha

theorem Distinct.mem_toList_iff (hm : m.Distinct) {k : κ} {v : β} :
    (k, v) ∈ m.toList ↔ m.find? k = some v := by
  refine ⟨fun h => ?_, mem_toList_of_find?⟩
  cases hFound : m.find? k with
  | none => exact absurd (List.mem_map_of_mem h) (find?_eq_none_iff.mp hFound)
  | some w =>
    have hSame := List.inj_on_of_nodup_map hm h (mem_toList_of_find? hFound) rfl
    rw [(Prod.mk.inj hSame).2]

theorem Distinct.nodup_map_iff (hm : m.Distinct) {γ : Type} {f : κ × β → γ} :
    (m.toList.map f).Nodup ↔ ∀ k k' v v', m.find? k = some v → m.find? k' = some v' →
      f (k, v) = f (k', v') → k = k' := by
  rw [List.nodup_map_iff_inj_on hm.of_map]
  simp only [Prod.forall, hm.mem_toList_iff]
  constructor
  · intro h k k' v v' hFound hFound' hSame
    exact (Prod.mk.inj (h k v hFound k' v' hFound' hSame)).1
  · intro h k v hFound k' v' hFound' hSame
    obtain rfl := h k k' v v' hFound hFound' hSame
    cases hFound.symm.trans hFound'
    rfl

end Renaming.OrderedMap
