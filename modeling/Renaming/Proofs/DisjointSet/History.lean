import Mathlib.Algebra.Group.Nat.Defs
import Renaming.Proofs.DisjointSet

/-!
# What any history of calls leaves

Whatever numbers are made, looked up and joined, and in whatever order, two numbers have one root
exactly if the unions so far connect them, and a search comes to an end and moves no root. A class
whose root has the rank `r` has at least `2 ^ r` members, since a rank only grows where two classes of
that rank meet. So below `2 ^ 256` numbers each rank fits one byte.
-/

namespace Renaming.DisjointSet

open Relation (EqvGen)

variable {s s' t : DisjointSet} {i j k r : Nat}

/-- Going up from `i`, two parents at a time, comes to an end at `r` and leaves `t` behind. -/
inductive Climbs : DisjointSet → Nat → Nat → DisjointSet → Prop
  | stop {s : DisjointSet} {i : Nat} (h : s.parentOf i = i) : Climbs s i i s
  | up {s t : DisjointSet} {i r : Nat} (h : s.parentOf i ≠ i)
      (hRest : Climbs (s.hang i (s.parentOf (s.parentOf i))) (s.parentOf (s.parentOf i)) r t) :
      Climbs s i r t

/-- If the limit on the number of steps leaves off at a root, it has not been felt. -/
theorem climbs_findFrom {fuel : Nat}
    (h : (findFrom fuel s i).2.parentOf (findFrom fuel s i).1 = (findFrom fuel s i).1) :
    Climbs s i (findFrom fuel s i).1 (findFrom fuel s i).2 := by
  induction fuel generalizing s i with
  | zero => exact .stop h
  | succ fuel ih =>
    rw [findFrom] at h ⊢
    by_cases hi : s.parentOf i = i
    · rw [if_pos hi]
      exact .stop hi
    · rw [if_neg hi] at h ⊢
      exact .up hi (ih h)

theorem climbs_find (hs : s.WellFormed) (i : Nat) : Climbs s i (s.find i).1 (s.find i).2 := by
  obtain ⟨hRoot, hFlat⟩ := find_spec hs i
  exact climbs_findFrom ((hFlat.root_iff _ _).mpr hRoot).parentOf_eq

theorem find_eq_iff (hs : s.WellFormed) : (s.find i).1 = r ↔ s.Root i r := by
  have hRoot := (find_spec hs i).1
  exact ⟨fun h => h ▸ hRoot, hRoot.unique⟩

theorem find_eq_find_iff (hs : s.WellFormed) : (s.find i).1 = (s.find j).1 ↔ s.Joined i j := by
  rw [find_eq_iff hs]
  exact ⟨fun h => ⟨_, h, (find_spec hs j).1⟩, fun ⟨r, hi, hj⟩ => (find_eq_iff hs).mpr hj ▸ hi⟩

theorem find_find (hs : s.WellFormed) (k i : Nat) : ((s.find k).2.find i).1 = (s.find i).1 := by
  have hFlat := (find_spec hs k).2
  rw [find_eq_iff hFlat.wellFormed, hFlat.root_iff]
  exact (find_spec hs i).1

def members (s : DisjointSet) (r : Nat) : Finset Nat :=
  (Finset.range s.size).filter fun i => (s.find i).1 = r

theorem mem_members (hs : s.WellFormed) : i ∈ s.members r ↔ i < s.size ∧ s.Root i r := by
  rw [members, Finset.mem_filter, Finset.mem_range, find_eq_iff hs]

theorem card_members_le : (s.members r).card ≤ s.size := by
  have h := Finset.card_filter_le (Finset.range s.size) fun i => (s.find i).1 = r
  rwa [Finset.card_range] at h

/-- A root of rank `r` has at least `2 ^ r` members. -/
def Populous (s : DisjointSet) : Prop :=
  ∀ r < s.size, s.parentOf r = r → 2 ^ s.rankOf r ≤ (s.members r).card

theorem populous_empty : empty.Populous := fun r hr => absurd hr (Nat.not_lt_zero r)

theorem Populous.push (h : s.Populous) (hs : s.WellFormed) : s.push.2.Populous := by
  intro r hr hRoot
  rw [parentOf_push] at hRoot
  rw [rankOf_push]
  rcases Nat.lt_succ_iff_lt_or_eq.mp (size_push ▸ hr) with hOld | rfl
  · refine (h r hOld hRoot).trans (Finset.card_le_card fun i hi => ?_)
    obtain ⟨hi, hiRoot⟩ := (mem_members hs).mp hi
    exact (mem_members hs.push).mpr ⟨size_push ▸ Nat.lt_succ_of_lt hi, root_push.mpr hiRoot⟩
  · -- The new number is alone in its class, and has no rank yet.
    have hRank : s.rankOf s.size = 0 := by
      rw [rankOf, Array.getD_eq_getD_getElem?, Array.getElem?_eq_none (Nat.le_of_eq hs.rank_size)]
      rfl
    rw [hRank, Nat.pow_zero, Nat.one_le_iff_ne_zero, Finset.card_ne_zero]
    exact ⟨s.size, (mem_members hs.push).mpr ⟨hr, root_push.mpr (.here hRoot)⟩⟩

theorem Flattens.populous (hFlat : s.Flattens t) (hs : s.WellFormed) (h : s.Populous) :
    t.Populous := by
  intro r hr hRoot
  have hOld : s.Root r r := (hFlat.root_iff r r).mp (.here hRoot)
  have hMembers : t.members r = s.members r := by
    ext i
    rw [mem_members hFlat.wellFormed, mem_members hs, hFlat.size_eq, hFlat.root_iff]
  rw [hMembers, rankOf, hFlat.rank_eq]
  exact h r (hFlat.size_eq ▸ hr) hOld.parentOf_eq

theorem Populous.hung {a b : Nat} (h : s.Populous) (hs : s.WellFormed) (hs' : s'.WellFormed)
    (hSize : s'.size = s.size) (hab : a ≠ b) (ha : s.parentOf a = a) (hb : s.parentOf b = b)
    (haLt : a < s.size) (hbLt : b < s.size)
    (hParent : ∀ k, s'.parentOf k = if k = a then b else s.parentOf k)
    (hOther : ∀ k, k ≠ b → s'.rankOf k = s.rankOf k)
    (hUpper : 2 ^ s'.rankOf b ≤ 2 ^ s.rankOf a + 2 ^ s.rankOf b) : s'.Populous := by
  have hMoved : ∀ i r, i ∈ s.members r → i ∈ s'.members (if r = a then b else r) := by
    intro i r hi
    obtain ⟨hi, hRoot⟩ := (mem_members hs).mp hi
    exact (mem_members hs').mpr ⟨hSize ▸ hi, root_of_hung hab ha hb hParent hRoot⟩
  intro r hr hRoot
  have hra : r ≠ a := by
    rintro rfl
    rw [hParent, if_pos rfl] at hRoot
    exact hab hRoot.symm
  rw [hParent, if_neg hra] at hRoot
  have hStay : s.members r ⊆ s'.members r := fun i hi => by simpa [hra] using hMoved i r hi
  by_cases hrb : r = b
  · subst hrb
    have hCome : s.members a ⊆ s'.members r := fun i hi => by simpa using hMoved i a hi
    have hApart : Disjoint (s.members a) (s.members r) := by
      rw [Finset.disjoint_left]
      intro i hi hi'
      exact hab (((mem_members hs).mp hi).2.unique ((mem_members hs).mp hi').2)
    calc
      2 ^ s'.rankOf r ≤ 2 ^ s.rankOf a + 2 ^ s.rankOf r := hUpper
      _ ≤ (s.members a).card + (s.members r).card :=
        Nat.add_le_add (h a haLt ha) (h r hbLt hb)
      _ = (s.members a ∪ s.members r).card := (Finset.card_union_of_disjoint hApart).symm
      _ ≤ (s'.members r).card := Finset.card_le_card (Finset.union_subset hCome hStay)
  · rw [hOther r hrb]
    exact (h r (hSize ▸ hr) hRoot).trans (Finset.card_le_card hStay)

theorem Populous.union (h : s.Populous) (hs : s.WellFormed) (hi : i < s.size) (hj : j < s.size) :
    (s.union i j).Populous := by
  obtain ⟨t, a, b, hFlat, ha, hb, haLt, hbLt, hMerges⟩ := union_merges hs hi hj
  have hPopulous := hFlat.populous hs h
  have ht := hFlat.wellFormed
  have haTop := ha.parentOf_eq
  have hbTop := hb.parentOf_eq
  generalize s.union i j = u at hMerges ⊢
  cases hMerges with
  | same hab => exact hPopulous
  | below hab hRank =>
    exact hPopulous.hung ht (ht.hang haLt hbLt hRank) size_hang hab haTop hbTop haLt hbLt
      (parentOf_hang haLt) (fun _ _ => rfl) (Nat.le_add_left _ _)
  | above hab hRank =>
    exact hPopulous.hung ht (ht.hang hbLt haLt hRank) size_hang (Ne.symm hab) hbTop haTop hbLt haLt
      (parentOf_hang hbLt) (fun _ _ => rfl) (Nat.le_add_left _ _)
  | level hab hRank =>
    have hRankOf := rankOf_raise (s := t.hang b a) (i := a) (ht.rank_size.symm ▸ haLt)
    refine hPopulous.hung ht (ht.hang_raise haLt hbLt hab haTop hRank) size_hang (Ne.symm hab) hbTop
      haTop hbLt haLt (parentOf_hang hbLt) (fun k hk => ?_) ?_
    · rw [hRankOf, if_neg hk]
      rfl
    · rw [hRankOf, if_pos rfl, rankOf_hang, ← hRank, Nat.pow_succ, Nat.mul_two]

theorem rankOf_le_of_root (hs : s.WellFormed) (h : s.Root i r) : s.rankOf i ≤ s.rankOf r := by
  induction h with
  | here => exact Nat.le_refl _
  | @up i r hRoot ih =>
    by_cases hi : s.parentOf i = i
    · rwa [hi] at ih
    · exact (hs.rank_lt i hi).le.trans ih

/-- The rank of any number is at most the binary logarithm of how many there are. -/
theorem Populous.pow_rankOf_le (h : s.Populous) (hs : s.WellFormed) (hi : i < s.size) :
    2 ^ s.rankOf i ≤ s.size := by
  obtain ⟨r, hr⟩ := hs.exists_root i
  calc
    2 ^ s.rankOf i ≤ 2 ^ s.rankOf r := Nat.pow_le_pow_right (by decide) (rankOf_le_of_root hs hr)
    _ ≤ (s.members r).card := h r (hs.root_lt hr hi) hr.parentOf_eq
    _ ≤ s.size := card_members_le

/-- The set is what calls with numbers that exist have made of the empty one; the pairs `unions` were
joined, the last one first. -/
inductive Reached : List (Nat × Nat) → DisjointSet → Prop
  | empty : Reached [] empty
  | push {unions : List (Nat × Nat)} {s : DisjointSet} (h : Reached unions s) : Reached unions s.push.2
  | find {unions : List (Nat × Nat)} {s : DisjointSet} {i : Nat} (h : Reached unions s)
      (hi : i < s.size) : Reached unions (s.find i).2
  | union {unions : List (Nat × Nat)} {s : DisjointSet} {i j : Nat} (h : Reached unions s)
      (hi : i < s.size) (hj : j < s.size) : Reached ((i, j) :: unions) (s.union i j)

/-- Chains of unions. -/
def Connected (unions : List (Nat × Nat)) : Nat → Nat → Prop := EqvGen fun i j => (i, j) ∈ unions

theorem connected_cons {unions : List (Nat × Nat)} {x y : Nat} :
    Connected ((i, j) :: unions) x y ↔ Connected unions x y ∨
      (Connected unions x i ∧ Connected unions y j) ∨
      (Connected unions x j ∧ Connected unions y i) := by
  have hMem : (fun x y => (x, y) ∈ (i, j) :: unions) =
      fun x y => (x, y) ∈ unions ∨ (x = i ∧ y = j) := by
    funext x y
    rw [List.mem_cons, Prod.mk.injEq, or_comm]
  rw [Connected, hMem]
  exact eqvGen_insert

theorem connected_nil {x y : Nat} : Connected [] x y ↔ x = y := by
  constructor
  · intro h
    induction h with
    | rel x y h => exact absurd h List.not_mem_nil
    | refl x => rfl
    | symm x y _ ih => exact ih.symm
    | trans x y z _ _ ih ih' => exact ih.trans ih'
  · rintro rfl
    exact .refl x

structure Sound (unions : List (Nat × Nat)) (s : DisjointSet) : Prop where
  wellFormed : s.WellFormed
  populous : s.Populous
  joined_iff : ∀ i j, s.Joined i j ↔ Connected unions i j

theorem joined_empty : empty.Joined i j ↔ i = j := by
  have hTop : ∀ k, empty.parentOf k = k := fun k => parentOf_of_le (Nat.zero_le k)
  constructor
  · rintro ⟨r, hi, hj⟩
    exact (hi.eq_of_parentOf_eq (hTop i)).symm.trans (hj.eq_of_parentOf_eq (hTop j))
  · rintro rfl
    exact ⟨i, .here (hTop i), .here (hTop i)⟩

theorem Reached.sound {unions : List (Nat × Nat)} (h : Reached unions s) : Sound unions s := by
  induction h with
  | empty =>
    exact ⟨wellFormed_empty, populous_empty, fun i j => joined_empty.trans connected_nil.symm⟩
  | push h ih =>
    exact ⟨ih.wellFormed.push, ih.populous.push ih.wellFormed,
      fun i j => joined_push.trans (ih.joined_iff i j)⟩
  | @find unions s i h hi ih =>
    have hFlat := (find_spec ih.wellFormed i).2
    exact ⟨hFlat.wellFormed, hFlat.populous ih.wellFormed ih.populous,
      fun i j => hFlat.joined_iff.trans (ih.joined_iff i j)⟩
  | union h hi hj ih =>
    have hJoins := union_spec ih.wellFormed hi hj
    refine ⟨hJoins.wellFormed, ih.populous.union ih.wellFormed hi hj, fun x y => ?_⟩
    rw [hJoins.joined_iff, connected_cons]
    simp only [ih.joined_iff]

/-- What holds of a set in which the pairs `unions` were joined. -/
structure Represents (s : DisjointSet) (unions : List (Nat × Nat)) : Prop where
  /-- A search ends at a root, without a limit on the number of its steps. -/
  find_ends : ∀ i < s.size, (s.find i).1 < s.size ∧ s.parentOf (s.find i).1 = (s.find i).1 ∧
    Climbs s i (s.find i).1 (s.find i).2
  /-- A search does not change which numbers share a root. -/
  find_keeps : ∀ k < s.size, ∀ i j,
    ((s.find k).2.find i).1 = ((s.find k).2.find j).1 ↔ (s.find i).1 = (s.find j).1
  /-- Two numbers have one root exactly if the unions connect them. -/
  find_eq_iff : ∀ i j, (s.find i).1 = (s.find j).1 ↔ Connected unions i j
  /-- The rank of a root is at most the binary logarithm of the size of its class. -/
  pow_rank_le : ∀ r < s.size, s.parentOf r = r → 2 ^ s.rankOf r ≤ (s.members r).card
  rank_lt : s.size < 2 ^ 256 → ∀ i < s.size, s.rankOf i < 256

/-- Whatever calls have made a set, it represents the classes that its unions connect. -/
theorem represents_of_reached {unions : List (Nat × Nat)} (h : Reached unions s) :
    s.Represents unions := by
  have hSound := h.sound
  have hs := hSound.wellFormed
  constructor
  · intro i hi
    have hRoot := (find_spec hs i).1
    exact ⟨hs.root_lt hRoot hi, hRoot.parentOf_eq, climbs_find hs i⟩
  · intro k _ i j
    rw [find_find hs, find_find hs]
  · intro i j
    rw [find_eq_find_iff hs, hSound.joined_iff]
  · exact hSound.populous
  · intro hFew i hi
    have hRank := (hSound.populous.pow_rankOf_le hs hi).trans_lt hFew
    exact (Nat.pow_lt_pow_iff_right (by decide)).mp hRank

theorem represents_of_reached_four :
    Reached [(0, 2), (2, 3), (0, 1)] ⟨#[0, 0, 0, 0], #[2, 0, 1, 0]⟩ ∧
      Represents ⟨#[0, 0, 0, 0], #[2, 0, 1, 0]⟩ [(0, 2), (2, 3), (0, 1)] := by
  have hFour : Reached [] ⟨#[0, 1, 2, 3], #[0, 0, 0, 0]⟩ := Reached.empty.push.push.push.push
  have hPairs : Reached [(2, 3), (0, 1)] ⟨#[0, 0, 2, 2], #[1, 0, 1, 0]⟩ :=
    (hFour.union (i := 0) (j := 1) (by decide) (by decide)).union (i := 2) (j := 3) (by decide)
      (by decide)
  have hJoined : Reached [(0, 2), (2, 3), (0, 1)] ⟨#[0, 0, 0, 2], #[2, 0, 1, 0]⟩ :=
    hPairs.union (i := 0) (j := 2) (by decide) (by decide)
  have hReached : Reached [(0, 2), (2, 3), (0, 1)] ⟨#[0, 0, 0, 0], #[2, 0, 1, 0]⟩ :=
    hJoined.find (i := 3) (by decide)
  exact ⟨hReached, represents_of_reached hReached⟩

end Renaming.DisjointSet
