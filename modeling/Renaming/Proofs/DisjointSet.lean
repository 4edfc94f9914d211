import Mathlib.Data.Finset.Card
import Mathlib.Data.List.Forall2
import Mathlib.Logic.Relation
import Renaming.DisjointSet

/-!
# What the operations on disjoint sets do

A set is well formed if ranks grow on the way up. Then every number has one root, a search ends
there and moves no root, and a union joins two classes and leaves the others alone. Nothing is said
about the number of steps beyond that they fit the number of elements.
-/

namespace Renaming.DisjointSet

section Connections

open Relation (EqvGen)

variable {α : Type} {L L' : α → α → Prop} {a b x y : α}

theorem eqvGen_mono (hL : ∀ x y, L x y → L' x y) (h : EqvGen L x y) : EqvGen L' x y := by
  induction h with
  | rel x y h => exact .rel x y (hL x y h)
  | refl x => exact .refl x
  | symm x y _ ih => exact .symm x y ih
  | trans x y z _ _ ih ih' => exact .trans x y z ih ih'

theorem eqvGen_insert : EqvGen (fun x y => L x y ∨ (x = a ∧ y = b)) x y ↔
    EqvGen L x y ∨ (EqvGen L x a ∧ EqvGen L y b) ∨ (EqvGen L x b ∧ EqvGen L y a) := by
  have hOld : ∀ {x y}, EqvGen L x y → EqvGen (fun x y => L x y ∨ (x = a ∧ y = b)) x y :=
    fun h => eqvGen_mono (fun _ _ => Or.inl) h
  have hNew : EqvGen (fun x y => L x y ∨ (x = a ∧ y = b)) a b := .rel a b (Or.inr ⟨rfl, rfl⟩)
  constructor
  · intro h
    induction h with
    | rel x y h =>
      rcases h with h | ⟨rfl, rfl⟩
      · exact Or.inl (.rel x y h)
      · exact Or.inr (Or.inl ⟨.refl x, .refl y⟩)
    | refl x => exact Or.inl (.refl x)
    | symm x y _ ih =>
      rcases ih with h | ⟨hx, hy⟩ | ⟨hx, hy⟩
      · exact Or.inl (.symm x y h)
      · exact Or.inr (Or.inr ⟨hy, hx⟩)
      · exact Or.inr (Or.inl ⟨hy, hx⟩)
    | trans x y z _ _ ih ih' =>
      rcases ih with h | ⟨hx, hy⟩ | ⟨hx, hy⟩
      · rcases ih' with h' | ⟨hy', hz⟩ | ⟨hy', hz⟩
        · exact Or.inl (.trans x y z h h')
        · exact Or.inr (Or.inl ⟨.trans x y a h hy', hz⟩)
        · exact Or.inr (Or.inr ⟨.trans x y b h hy', hz⟩)
      · rcases ih' with h' | ⟨hy', hz⟩ | ⟨hy', hz⟩
        · exact Or.inr (Or.inl ⟨hx, .trans z y b (.symm y z h') hy⟩)
        · exact Or.inr (Or.inl ⟨hx, hz⟩)
        · exact Or.inl (.trans x a z hx (.symm z a hz))
      · rcases ih' with h' | ⟨hy', hz⟩ | ⟨hy', hz⟩
        · exact Or.inr (Or.inr ⟨hx, .trans z y a (.symm y z h') hy⟩)
        · exact Or.inl (.trans x b z hx (.symm z b hz))
        · exact Or.inr (Or.inr ⟨hx, hz⟩)
  · rintro (h | ⟨hx, hy⟩ | ⟨hx, hy⟩)
    · exact hOld h
    · exact .trans x a y (hOld hx) (.trans a b y hNew (.symm y b (hOld hy)))
    · exact .trans x b y (hOld hx) (.trans b a y (.symm a b hNew) (.symm y a (hOld hy)))

end Connections

variable {s s' : DisjointSet} {i j k r : Nat}

structure WellFormed (s : DisjointSet) : Prop where
  rank_size : s.rank.size = s.size
  parent_lt : ∀ i < s.size, s.parentOf i < s.size
  rank_lt : ∀ i, s.parentOf i ≠ i → s.rankOf i < s.rankOf (s.parentOf i)

/-- `r` is the root on the way up from a number. -/
inductive Root (s : DisjointSet) : Nat → Nat → Prop
  | here {r : Nat} (h : s.parentOf r = r) : Root s r r
  | up {i r : Nat} (h : Root s (s.parentOf i) r) : Root s i r

/-- Two numbers are in one class. -/
def Joined (s : DisjointSet) (i j : Nat) : Prop := ∃ r, s.Root i r ∧ s.Root j r

namespace Root

theorem parentOf_eq (h : s.Root i r) : s.parentOf r = r := by
  induction h with
  | here h => exact h
  | up _ ih => exact ih

theorem parent (h : s.Root i r) : s.Root (s.parentOf i) r := by
  cases h with
  | here h =>
    rw [h]
    exact .here h
  | up h => exact h

theorem eq_of_parentOf_eq (h : s.Root i r) (hi : s.parentOf i = i) : r = i := by
  induction h with
  | here => rfl
  | up _ ih =>
    rw [hi] at ih
    exact ih hi

theorem unique {r' : Nat} (h : s.Root i r) (h' : s.Root i r') : r = r' := by
  induction h with
  | here h => exact (h'.eq_of_parentOf_eq h).symm
  | up _ ih => exact ih h'.parent

end Root

theorem parentOf_of_le (h : s.size ≤ i) : s.parentOf i = i := by
  rw [parentOf, Array.getD_eq_getD_getElem?, Array.getElem?_eq_none h]
  rfl

theorem lt_size_of_parentOf_ne (h : s.parentOf i ≠ i) : i < s.size := by
  by_contra hSize
  exact h (parentOf_of_le (Nat.le_of_not_lt hSize))

/-- How many numbers have a higher rank than `i`. It bounds the length of the way up. -/
def higher (s : DisjointSet) (i : Nat) : Nat :=
  ((Finset.range s.size).filter fun j => s.rankOf i < s.rankOf j).card

theorem higher_le_size : s.higher i ≤ s.size := by
  have h := Finset.card_filter_le (Finset.range s.size) fun j => s.rankOf i < s.rankOf j
  rwa [Finset.card_range] at h

theorem higher_lt_of_rankOf_lt (hj : j < s.size) (h : s.rankOf i < s.rankOf j) :
    s.higher j < s.higher i := by
  refine Finset.card_lt_card (Finset.ssubset_iff_of_subset ?_ |>.mpr ⟨j, ?_, ?_⟩)
  · intro k hk
    rw [Finset.mem_filter] at hk ⊢
    exact ⟨hk.1, Nat.lt_trans h hk.2⟩
  · exact Finset.mem_filter.mpr ⟨Finset.mem_range.mpr hj, h⟩
  · intro hk
    exact absurd (Finset.mem_filter.mp hk).2 (Nat.lt_irrefl _)

namespace WellFormed

theorem parentOf_lt (hs : s.WellFormed) (h : s.parentOf i ≠ i) : s.parentOf i < s.size :=
  hs.parent_lt i (lt_size_of_parentOf_ne h)

theorem exists_root (hs : s.WellFormed) (i : Nat) : ∃ r, s.Root i r := by
  induction hn : s.higher i using Nat.strongRecOn generalizing i with
  | ind n ih =>
    by_cases hi : s.parentOf i = i
    · exact ⟨i, .here hi⟩
    · have hLt := higher_lt_of_rankOf_lt (hs.parentOf_lt hi) (hs.rank_lt i hi)
      obtain ⟨r, hr⟩ := ih _ (hn ▸ hLt) (s.parentOf i) rfl
      exact ⟨r, .up hr⟩

theorem root_lt (hs : s.WellFormed) (h : s.Root i r) (hi : i < s.size) : r < s.size := by
  induction h with
  | here => exact hi
  | up _ ih => exact ih (hs.parent_lt _ hi)

end WellFormed

/-- `s'` has the same roots as `s`. -/
structure Flattens (s s' : DisjointSet) : Prop where
  wellFormed : s'.WellFormed
  size_eq : s'.size = s.size
  rank_eq : s'.rank = s.rank
  root_iff : ∀ i r, s'.Root i r ↔ s.Root i r

namespace Flattens

theorem refl (hs : s.WellFormed) : s.Flattens s := ⟨hs, rfl, rfl, fun _ _ => Iff.rfl⟩

theorem trans {s'' : DisjointSet} (h : s.Flattens s') (h' : s'.Flattens s'') :
    s.Flattens s'' where
  wellFormed := h'.wellFormed
  size_eq := h'.size_eq.trans h.size_eq
  rank_eq := h'.rank_eq.trans h.rank_eq
  root_iff i r := (h'.root_iff i r).trans (h.root_iff i r)

theorem joined_iff (h : s.Flattens s') : s'.Joined i j ↔ s.Joined i j := by
  simp only [Joined, h.root_iff]

end Flattens

def hang (s : DisjointSet) (i j : Nat) : DisjointSet :=
  { s with parent := s.parent.setIfInBounds i j }

theorem size_hang : (s.hang i j).size = s.size := Array.size_setIfInBounds

theorem parentOf_hang (hi : i < s.size) (k : Nat) :
    (s.hang i j).parentOf k = if k = i then j else s.parentOf k := by
  simp only [parentOf, hang, Array.getD_eq_getD_getElem?]
  by_cases hk : k = i
  · subst hk
    rw [Array.getElem?_setIfInBounds_self_of_lt hi, if_pos rfl]
    rfl
  · rw [Array.getElem?_setIfInBounds_ne fun h => hk h.symm, if_neg hk]

theorem rankOf_hang (k : Nat) : (s.hang i j).rankOf k = s.rankOf k := rfl

theorem WellFormed.hang (hs : s.WellFormed) (hi : i < s.size) (hj : j < s.size)
    (h : s.rankOf i < s.rankOf j) : (s.hang i j).WellFormed where
  rank_size := by rw [size_hang, ← hs.rank_size]; rfl
  parent_lt k hk := by
    rw [size_hang] at hk ⊢
    rw [parentOf_hang hi]
    split
    · exact hj
    · exact hs.parent_lt k hk
  rank_lt k hk := by
    rw [parentOf_hang hi] at hk ⊢
    simp only [rankOf_hang]
    split
    · rename_i hEq
      rw [hEq]
      exact h
    · rename_i hNe
      rw [if_neg hNe] at hk
      exact hs.rank_lt k hk

theorem flattens_hang (hs : s.WellFormed) (hi : s.parentOf i ≠ i) :
    s.Flattens (s.hang i (s.parentOf (s.parentOf i))) := by
  have hLt := lt_size_of_parentOf_ne hi
  have hParent := hs.parentOf_lt hi
  have hRank : s.rankOf i < s.rankOf (s.parentOf (s.parentOf i)) := by
    have hFirst := hs.rank_lt i hi
    by_cases hTop : s.parentOf (s.parentOf i) = s.parentOf i
    · rwa [hTop]
    · exact Nat.lt_trans hFirst (hs.rank_lt _ hTop)
  have hForward : ∀ k r, s.Root k r → (s.hang i (s.parentOf (s.parentOf i))).Root k r := by
    intro k r h
    induction h with
    | @here r h =>
      refine .here ?_
      rw [parentOf_hang hLt, if_neg]
      · exact h
      · rintro rfl
        exact hi h
    | @up k r h ih =>
      refine .up ?_
      rw [parentOf_hang hLt]
      split
      · rename_i hk
        subst hk
        have hGrand := ih.parent
        rwa [parentOf_hang hLt, if_neg hi] at hGrand
      · exact ih
  refine ⟨hs.hang hLt (hs.parent_lt _ hParent) hRank, size_hang, rfl, fun k r => ⟨?_, hForward k r⟩⟩
  intro h
  obtain ⟨r', hr'⟩ := hs.exists_root k
  rwa [h.unique (hForward k r' hr')]

theorem findFrom_spec {fuel : Nat} (hs : s.WellFormed) (hFuel : s.higher i ≤ fuel) :
    s.Root i (findFrom fuel s i).1 ∧ s.Flattens (findFrom fuel s i).2 := by
  induction fuel generalizing s i with
  | zero =>
    rw [findFrom]
    refine ⟨.here ?_, .refl hs⟩
    by_contra hi
    exact absurd (higher_lt_of_rankOf_lt (hs.parentOf_lt hi) (hs.rank_lt i hi)) (by omega)
  | succ fuel ih =>
    rw [findFrom]
    split
    · rename_i hi
      exact ⟨.here hi, .refl hs⟩
    · rename_i hi
      have hHang := flattens_hang hs hi
      have hHigher : ∀ k, (s.hang i (s.parentOf (s.parentOf i))).higher k = s.higher k := by
        intro k
        simp only [higher, size_hang, rankOf_hang]
      have hLess : s.higher (s.parentOf (s.parentOf i)) ≤ fuel := by
        have hFirst := higher_lt_of_rankOf_lt (hs.parentOf_lt hi) (hs.rank_lt i hi)
        by_cases hTop : s.parentOf (s.parentOf i) = s.parentOf i
        · rw [hTop]
          omega
        · have hSecond := higher_lt_of_rankOf_lt (hs.parentOf_lt hTop) (hs.rank_lt _ hTop)
          omega
      obtain ⟨hRoot, hFlat⟩ := ih hHang.wellFormed (Nat.le_trans (Nat.le_of_eq (hHigher _)) hLess)
      exact ⟨.up (.up ((hHang.root_iff _ _).mp hRoot)), hHang.trans hFlat⟩

theorem find_spec (hs : s.WellFormed) (i : Nat) :
    s.Root i (s.find i).1 ∧ s.Flattens (s.find i).2 := findFrom_spec hs higher_le_size

theorem wellFormed_empty : empty.WellFormed where
  rank_size := rfl
  parent_lt i hi := absurd hi (Nat.not_lt_zero i)
  rank_lt _ hi := absurd rfl hi

theorem size_push : s.push.2.size = s.size + 1 := Array.size_push s.size

theorem parentOf_push (k : Nat) : s.push.2.parentOf k = s.parentOf k := by
  simp only [parentOf, push, Array.getD_eq_getD_getElem?, Array.getElem?_push, size]
  split
  · rename_i hk
    rw [hk, Array.getElem?_eq_none (Nat.le_refl _)]
    rfl
  · rfl

theorem rankOf_push (k : Nat) : s.push.2.rankOf k = s.rankOf k := by
  simp only [rankOf, push, Array.getD_eq_getD_getElem?, Array.getElem?_push]
  split
  · rename_i hk
    rw [hk, Array.getElem?_eq_none (Nat.le_refl _)]
    rfl
  · rfl

theorem root_push : s.push.2.Root i r ↔ s.Root i r := by
  constructor
  · intro h
    induction h with
    | here h => exact .here ((parentOf_push _).symm.trans h)
    | up _ ih => exact .up (parentOf_push (s := s) _ ▸ ih)
  · intro h
    induction h with
    | here h => exact .here ((parentOf_push _).trans h)
    | up _ ih => exact .up ((parentOf_push (s := s) _).symm ▸ ih)

theorem WellFormed.push (hs : s.WellFormed) : s.push.2.WellFormed where
  rank_size := by
    rw [size_push, ← hs.rank_size]
    exact Array.size_push 0
  parent_lt k hk := by
    rw [size_push] at hk ⊢
    rw [parentOf_push]
    rcases Nat.lt_succ_iff_lt_or_eq.mp hk with h | h
    · exact Nat.lt_succ_of_lt (hs.parent_lt k h)
    · rw [parentOf_of_le (Nat.le_of_eq h.symm)]
      exact hk
  rank_lt k hk := by
    rw [parentOf_push] at hk ⊢
    rw [rankOf_push, rankOf_push]
    exact hs.rank_lt k hk

theorem joined_push : s.push.2.Joined i j ↔ s.Joined i j := by simp only [Joined, root_push]

theorem root_of_hung {a b : Nat} (hab : a ≠ b) (ha : s.parentOf a = a) (hb : s.parentOf b = b)
    (h : ∀ k, s'.parentOf k = if k = a then b else s.parentOf k) (hRoot : s.Root i r) :
    s'.Root i (if r = a then b else r) := by
  have hTop : s'.Root b b := by
    refine .here ?_
    rw [h, if_neg (Ne.symm hab), hb]
  induction hRoot with
  | @here r hr =>
    split
    · rename_i hEq
      subst hEq
      refine .up ?_
      rw [h, if_pos rfl]
      exact hTop
    · rename_i hNe
      refine .here ?_
      rw [h, if_neg hNe, hr]
  | @up i r hRoot ih =>
    by_cases hi : i = a
    · subst hi
      rw [ha] at ih
      exact ih
    · refine .up ?_
      rw [h, if_neg hi]
      exact ih

theorem joined_of_hung {a b : Nat} (hs : s.WellFormed) (hab : a ≠ b) (ha : s.parentOf a = a)
    (hb : s.parentOf b = b) (h : ∀ k, s'.parentOf k = if k = a then b else s.parentOf k) :
    s'.Joined i j ↔ s.Joined i j ∨ (s.Root i a ∧ s.Root j b) ∨ (s.Root i b ∧ s.Root j a) := by
  obtain ⟨r, hr⟩ := hs.exists_root i
  obtain ⟨r', hr'⟩ := hs.exists_root j
  have hLeft := root_of_hung hab ha hb h hr
  have hRight := root_of_hung hab ha hb h hr'
  have hNew : s'.Joined i j ↔ (if r = a then b else r) = if r' = a then b else r' :=
    ⟨fun ⟨q, hq, hq'⟩ => (hLeft.unique hq).trans (hq'.unique hRight),
      fun hEq => ⟨_, hLeft, hEq ▸ hRight⟩⟩
  have hOld : s.Joined i j ↔ r = r' :=
    ⟨fun ⟨q, hq, hq'⟩ => (hr.unique hq).trans (hq'.unique hr'), fun hEq => ⟨r, hr, hEq ▸ hr'⟩⟩
  have hRoot : ∀ q, s.Root i q ↔ r = q := fun q => ⟨hr.unique, fun hEq => hEq ▸ hr⟩
  have hRoot' : ∀ q, s.Root j q ↔ r' = q := fun q => ⟨hr'.unique, fun hEq => hEq ▸ hr'⟩
  rw [hNew, hOld, hRoot, hRoot, hRoot', hRoot']
  split <;> split <;> omega

/-- A union keeps the set well formed, and joins two classes. -/
structure Joins (s : DisjointSet) (i j : Nat) (s' : DisjointSet) : Prop where
  wellFormed : s'.WellFormed
  size_eq : s'.size = s.size
  joined_iff : ∀ k l, s'.Joined k l ↔
    s.Joined k l ∨ (s.Joined k i ∧ s.Joined l j) ∨ (s.Joined k j ∧ s.Joined l i)

theorem Root.joined_iff {a : Nat} (ha : s.Root i a) (k : Nat) : s.Joined k i ↔ s.Root k a :=
  ⟨fun ⟨_, hk, hi⟩ => hi.unique ha ▸ hk, fun hk => ⟨a, hk, ha⟩⟩

theorem joins_hung {a b : Nat} (hs : s.WellFormed) (hs' : s'.WellFormed) (hSize : s'.size = s.size)
    (hab : a ≠ b) (hi : s.Root i a) (hj : s.Root j b)
    (h : ∀ k, s'.parentOf k = if k = a then b else s.parentOf k) : Joins s i j s' := by
  refine ⟨hs', hSize, fun k l => ?_⟩
  rw [joined_of_hung hs hab hi.parentOf_eq hj.parentOf_eq h]
  simp only [hi.joined_iff, hj.joined_iff]

theorem Joins.symm (h : Joins s i j s') : Joins s j i s' where
  wellFormed := h.wellFormed
  size_eq := h.size_eq
  joined_iff k l := by rw [h.joined_iff]; exact or_congr_right or_comm

theorem Flattens.joins {s'' : DisjointSet} (h : s.Flattens s') (h' : Joins s' i j s'') :
    Joins s i j s'' where
  wellFormed := h'.wellFormed
  size_eq := h'.size_eq.trans h.size_eq
  joined_iff k l := by simp only [h'.joined_iff, h.joined_iff]

def raise (s : DisjointSet) (i : Nat) : DisjointSet :=
  { s with rank := s.rank.setIfInBounds i (s.rankOf i + 1) }

theorem rankOf_raise (hi : i < s.rank.size) (k : Nat) :
    (s.raise i).rankOf k = if k = i then s.rankOf i + 1 else s.rankOf k := by
  simp only [rankOf, raise, Array.getD_eq_getD_getElem?]
  by_cases hk : k = i
  · subst hk
    rw [Array.getElem?_setIfInBounds_self_of_lt hi, if_pos rfl]
    rfl
  · rw [Array.getElem?_setIfInBounds_ne fun h => hk h.symm, if_neg hk]

theorem WellFormed.hang_raise {a b : Nat} (hs : s.WellFormed) (ha : a < s.size) (hb : b < s.size)
    (hab : a ≠ b) (hRoot : s.parentOf a = a) (hRank : s.rankOf a = s.rankOf b) :
    ((s.hang b a).raise a).WellFormed := by
  have hParent : ∀ k, ((s.hang b a).raise a).parentOf k = if k = b then a else s.parentOf k :=
    parentOf_hang hb
  have hRankOf : ∀ k, ((s.hang b a).raise a).rankOf k =
      if k = a then s.rankOf a + 1 else s.rankOf k :=
    rankOf_raise (s := s.hang b a) (Nat.lt_of_lt_of_eq ha hs.rank_size.symm)
  refine ⟨?_, fun k hk => ?_, fun k hk => ?_⟩
  · exact Array.size_setIfInBounds.trans (hs.rank_size.trans size_hang.symm)
  · have hk' : k < s.size := Nat.lt_of_lt_of_eq hk size_hang
    refine Nat.lt_of_lt_of_eq ?_ size_hang.symm
    rw [hParent]
    split
    · exact ha
    · exact hs.parent_lt k hk'
  · rw [hParent] at hk ⊢
    rw [hRankOf, hRankOf]
    by_cases hkb : k = b
    · rw [if_pos hkb, if_pos rfl, hkb, if_neg (Ne.symm hab), ← hRank]
      exact Nat.lt_succ_self _
    · rw [if_neg hkb] at hk ⊢
      have hLess := hs.rank_lt k hk
      have hka : k ≠ a := by
        rintro rfl
        exact hk hRoot
      rw [if_neg hka]
      split
      · rename_i hUp
        rw [hUp] at hLess
        exact Nat.lt_succ_of_lt hLess
      · exact hLess

/-- What becomes of a set when its roots `a` and `b` are made one. -/
inductive Merges (s : DisjointSet) (a b : Nat) : DisjointSet → Prop
  | same (hab : a = b) : Merges s a b s
  | below (hab : a ≠ b) (hRank : s.rankOf a < s.rankOf b) : Merges s a b (s.hang a b)
  | above (hab : a ≠ b) (hRank : s.rankOf b < s.rankOf a) : Merges s a b (s.hang b a)
  | level (hab : a ≠ b) (hRank : s.rankOf a = s.rankOf b) : Merges s a b ((s.hang b a).raise a)

/-- A union searches for both roots and makes them one. -/
theorem union_merges (hs : s.WellFormed) (hi : i < s.size) (hj : j < s.size) :
    ∃ (t : DisjointSet) (a b : Nat), s.Flattens t ∧ t.Root i a ∧ t.Root j b ∧ a < t.size ∧
      b < t.size ∧ t.Merges a b (s.union i j) := by
  obtain ⟨hRootI, hFlatI⟩ := find_spec hs i
  obtain ⟨hRootJ, hFlatJ⟩ := find_spec hFlatI.wellFormed j
  have hFlat := hFlatI.trans hFlatJ
  have ha := (hFlat.root_iff _ _).mpr hRootI
  have hb := (hFlatJ.root_iff _ _).mpr hRootJ
  refine ⟨_, _, _, hFlat, ha, hb, hFlat.wellFormed.root_lt ha (hFlat.size_eq ▸ hi),
    hFlat.wellFormed.root_lt hb (hFlat.size_eq ▸ hj), ?_⟩
  unfold union
  dsimp only
  split
  · exact .same ‹_›
  · rename_i hab
    split
    · exact .below hab ‹_›
    · split
      · exact .above hab ‹_›
      · exact .level hab (by omega)

theorem union_spec (hs : s.WellFormed) (hi : i < s.size) (hj : j < s.size) :
    Joins s i j (s.union i j) := by
  obtain ⟨t, a, b, hFlat, ha, hb, haLt, hbLt, hMerges⟩ := union_merges hs hi hj
  have ht := hFlat.wellFormed
  refine hFlat.joins ?_
  generalize s.union i j = u at hMerges ⊢
  cases hMerges with
  | same hab =>
    subst hab
    refine ⟨ht, rfl, fun k l => ⟨Or.inl, ?_⟩⟩
    simp only [ha.joined_iff, hb.joined_iff]
    rintro (h | ⟨hk, hl⟩ | ⟨hk, hl⟩)
    · exact h
    · exact ⟨a, hk, hl⟩
    · exact ⟨a, hk, hl⟩
  | below hab hRank =>
    exact joins_hung ht (ht.hang haLt hbLt hRank) size_hang hab ha hb (parentOf_hang haLt)
  | above hab hRank =>
    exact (joins_hung ht (ht.hang hbLt haLt hRank) size_hang (Ne.symm hab) hb ha
      (parentOf_hang hbLt)).symm
  | level hab hRank =>
    exact (joins_hung ht (ht.hang_raise haLt hbLt hab ha.parentOf_eq hRank) size_hang
      (Ne.symm hab) hb ha (parentOf_hang hbLt)).symm

theorem foldl_find (hs : s.WellFormed) (ks : List Nat) (done : Array Nat) :
    ∃ (rs : List Nat) (t : DisjointSet), List.Forall₂ s.Root ks rs ∧ s.Flattens t ∧
      ks.foldl (fun (roots, s) i =>
        let (root, s) := s.find i
        (roots.push root, s)) (done, s) = (done ++ rs.toArray, t) := by
  induction ks generalizing s done with
  | nil => exact ⟨[], s, .nil, .refl hs, by simp⟩
  | cons k ks ih =>
    obtain ⟨hRoot, hFlat⟩ := find_spec hs k
    obtain ⟨rs, t, hRoots, hFlat', hRun⟩ := ih hFlat.wellFormed (done.push (s.find k).1)
    refine ⟨(s.find k).1 :: rs, t, .cons hRoot ?_, hFlat.trans hFlat', ?_⟩
    · exact hRoots.imp fun i r => (hFlat.root_iff i r).mp
    · rw [List.foldl_cons]
      dsimp only
      rw [hRun]
      simp

theorem roots_spec (hs : s.WellFormed) (hi : i < s.size) :
    ∃ r, s.Root i r ∧ s.roots[i]? = some r := by
  obtain ⟨rs, t, hRoots, -, hRun⟩ := foldl_find hs (List.range s.size) #[]
  have hEq : s.roots = rs.toArray := by
    rw [roots, hRun]
    simp
  have hLength : i < rs.length := by
    rw [← hRoots.length_eq, List.length_range]
    exact hi
  refine ⟨rs[i], ?_, ?_⟩
  · have h := hRoots.get (List.length_range.symm ▸ hi : i < (List.range s.size).length) hLength
    simpa using h
  · rw [hEq]
    simp [hLength]

end Renaming.DisjointSet
