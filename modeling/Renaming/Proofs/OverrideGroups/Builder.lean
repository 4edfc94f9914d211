import Mathlib.Logic.Relation
import Renaming.OverrideGroups
import Renaming.Proofs.DisjointSet

/-!
# Building groups of overriding methods

A declaration is linked to those that it overrides and that come after it on a way up. A builder is
sound if it has joined exactly what a set of links joins, and going through the declarations of a way
up adds the links between them.
-/

namespace Renaming.OverrideGroups

open Relation (EqvGen)
open DisjointSet (eqvGen_insert)

section EqvGen

variable {α : Type} {L : α → α → Prop} {x y : α}

theorem eqvGen_eq_or {K : α → Prop} (hL : ∀ x y, L x y → K x ∧ K y) (h : EqvGen L x y) :
    x = y ∨ K x ∧ K y := by
  induction h with
  | rel x y h => exact Or.inr (hL x y h)
  | refl x => exact Or.inl rfl
  | symm x y _ ih => exact ih.imp Eq.symm And.symm
  | trans x y z _ _ ih ih' =>
    rcases ih with rfl | ⟨hx, hy⟩
    · exact ih'
    · rcases ih' with rfl | ⟨-, hz⟩
      · exact Or.inr ⟨hx, hy⟩
      · exact Or.inr ⟨hx, hz⟩

end EqvGen

namespace Declaration

/-- What a declaration has to share with those that it overrides. -/
def signature (d : Declaration) : String × String := (d.key.name, d.key.descriptor)

end Declaration

/-- `d` is the first declaration of its name and descriptor. -/
def IsHead (ds : List Declaration) (d : Declaration) : Prop :=
  ds.find? (fun e => decide (e.signature = d.signature)) = some d

/-- `d` is the first declaration of its name and descriptor, and `e` is itself or a later one that it
overrides. -/
structure Linked (ds : List Declaration) (d e : Declaration) : Prop where
  head : IsHead ds d
  mem : e ∈ ds
  signature_eq : e.signature = d.signature
  overrides : overrides d e = true

theorem overrides_self (d : Declaration) : overrides d d = true := by simp [overrides]

/-- A key that some head is linked to. -/
def KeyOf (ds : List Declaration) (k : MemberKey) : Prop := ∃ d e, Linked ds d e ∧ e.key = k

def LinkOf (ds : List Declaration) (k k' : MemberKey) : Prop :=
  ∃ d e, Linked ds d e ∧ d.key = k ∧ e.key = k'

theorem isHead_append {ds : List Declaration} {d x : Declaration} : IsHead (ds ++ [d]) x ↔
    IsHead ds x ∨ (ds.find? (fun e => decide (e.signature = d.signature)) = none ∧ x = d) := by
  unfold IsHead
  rw [List.find?_append]
  cases hFind : ds.find? (fun e => decide (e.signature = x.signature)) with
  | some y =>
    simp only [Option.some_or, Option.some.injEq]
    refine ⟨Or.inl, fun h => h.elim id ?_⟩
    rintro ⟨hNone, rfl⟩
    rw [hFind] at hNone
    cases hNone
  | none =>
    rw [Option.none_or, List.find?_singleton]
    split
    · rename_i hSame
      rw [decide_eq_true_iff] at hSame
      rw [hSame]
      simp only [Option.some.injEq, reduceCtorEq, false_or]
      exact ⟨fun h => ⟨hFind, h.symm⟩, fun h => h.2.symm⟩
    · rename_i hSame
      simp only [reduceCtorEq, false_or, false_iff, not_and]
      rintro - rfl
      simp at hSame

theorem linked_append {ds : List Declaration} {d x y : Declaration} : Linked (ds ++ [d]) x y ↔
    Linked ds x y ∨ (ds.find? (fun e => decide (e.signature = d.signature)) = none ∧ x = d ∧ y = d) ∨
      (IsHead ds x ∧ y = d ∧ d.signature = x.signature ∧ overrides x d = true) := by
  constructor
  · rintro ⟨hHead, hMem, hSignature, hOverrides⟩
    rw [List.mem_append, List.mem_singleton] at hMem
    rcases isHead_append.mp hHead with hOld | ⟨hNone, rfl⟩
    · rcases hMem with hMem | rfl
      · exact Or.inl ⟨hOld, hMem, hSignature, hOverrides⟩
      · exact Or.inr (Or.inr ⟨hOld, rfl, hSignature, hOverrides⟩)
    · rcases hMem with hMem | rfl
      · rw [List.find?_eq_none] at hNone
        exact absurd (decide_eq_true hSignature) (hNone y hMem)
      · exact Or.inr (Or.inl ⟨hNone, rfl, rfl⟩)
  · rintro (⟨hHead, hMem, hSignature, hOverrides⟩ | ⟨hNone, rfl, rfl⟩ | ⟨hHead, rfl, hSignature, h⟩)
    · exact ⟨isHead_append.mpr (Or.inl hHead), List.mem_append_left _ hMem, hSignature, hOverrides⟩
    · exact ⟨isHead_append.mpr (Or.inr ⟨hNone, rfl⟩), by simp, rfl, overrides_self _⟩
    · exact ⟨isHead_append.mpr (Or.inl hHead), by simp, hSignature, h⟩

namespace Builder

variable {b : Builder} {K K' : MemberKey → Prop} {L L' : MemberKey → MemberKey → Prop}

/-- The builder has numbered the keys of `K`, and joined what the links `L` join. -/
structure Sound (b : Builder) (K : MemberKey → Prop) (L : MemberKey → MemberKey → Prop) : Prop where
  wellFormed : b.sets.WellFormed
  size_eq : b.sets.size = b.keys.size
  index_iff : ∀ (k : MemberKey) (i : Nat), b.index[k]? = some i ↔ b.keys[i]? = some k
  key_iff : ∀ k, K k ↔ ∃ i, b.index[k]? = some i
  links : ∀ k k', L k k' → K k ∧ K k'
  joined_iff : ∀ (k k' : MemberKey) (i j : Nat), b.index[k]? = some i → b.index[k']? = some j →
    (b.sets.Joined i j ↔ EqvGen L k k')

theorem Sound.congr (hb : b.Sound K L) (hK : ∀ k, K' k ↔ K k) (hL : ∀ k k', L' k k' ↔ L k k') :
    b.Sound K' L' := by
  have hKey : K' = K := funext fun k => propext (hK k)
  have hLink : L' = L := funext fun k => funext fun k' => propext (hL k k')
  rwa [hKey, hLink]

theorem Sound.lt_size (hb : b.Sound K L) {k : MemberKey} {i : Nat} (hi : b.index[k]? = some i) :
    i < b.sets.size := by
  obtain ⟨hLt, -⟩ := Array.getElem?_eq_some_iff.mp ((hb.index_iff k i).mp hi)
  rw [hb.size_eq]
  exact hLt

theorem sound_empty : Sound .empty (fun _ => False) (fun _ _ => False) where
  wellFormed := DisjointSet.wellFormed_empty
  size_eq := rfl
  index_iff k i := by simp [Builder.empty]
  key_iff k := by simp [Builder.empty]
  links _ _ h := h.elim
  joined_iff k k' i j hi := by simp [Builder.empty] at hi

def numbered (b : Builder) (k : MemberKey) : Builder :=
  { b with index := b.index.insert k b.sets.size, keys := b.keys.push k, sets := b.sets.push.2 }

theorem Sound.not_joined_size (hb : b.Sound K L) {y : MemberKey} {j : Nat}
    (hj : b.index[y]? = some j) : ¬ b.sets.Joined b.sets.size j := by
  rintro ⟨r, hr, hr'⟩
  have hEq := hr.eq_of_parentOf_eq (DisjointSet.parentOf_of_le (Nat.le_refl _))
  have hLt := hb.wellFormed.root_lt hr' (hb.lt_size hj)
  omega

section Numbered

variable {k : MemberKey} (hNew : b.index[k]? = none)

include hNew

theorem index_numbered {x : MemberKey} {j : Nat} : (b.numbered k).index[x]? = some j ↔
    (x = k ∧ j = b.sets.size) ∨ b.index[x]? = some j := by
  rw [numbered, Std.HashMap.getElem?_insert]
  split
  · rename_i hEq
    cases eq_of_beq hEq
    rw [hNew, Option.some.injEq, @eq_comm _ _ j]
    simp
  · rename_i hNe
    rw [beq_iff_eq, @eq_comm _ k] at hNe
    simp [hNe]

theorem Sound.eq_of_eqvGen (hb : b.Sound K L) {y : MemberKey} (h : EqvGen L k y) : k = y := by
  refine (eqvGen_eq_or hb.links h).resolve_right fun hKeys => ?_
  obtain ⟨i, hi⟩ := (hb.key_iff k).mp hKeys.1
  rw [hNew] at hi
  cases hi

theorem Sound.numbered (hb : b.Sound K L) :
    (b.numbered k).Sound (fun x => K x ∨ x = k) L where
  wellFormed := hb.wellFormed.push
  size_eq := by
    change b.sets.push.2.size = (b.keys.push k).size
    rw [DisjointSet.size_push, Array.size_push, hb.size_eq]
  index_iff x j := by
    change _ ↔ (b.keys.push k)[j]? = some x
    rw [index_numbered hNew, hb.index_iff, Array.getElem?_push, ← hb.size_eq]
    split
    · rename_i hj
      have hOut : b.keys[j]? ≠ some x := fun hx => by
        have hLt := hb.lt_size ((hb.index_iff x j).mpr hx)
        omega
      subst hj
      simp [hOut, @eq_comm _ x]
    · rename_i hj
      simp [hj]
  key_iff x := by
    simp only [index_numbered hNew, hb.key_iff]
    constructor
    · rintro (⟨j, hj⟩ | rfl)
      · exact ⟨j, Or.inr hj⟩
      · exact ⟨b.sets.size, Or.inl ⟨rfl, rfl⟩⟩
    · rintro ⟨j, ⟨rfl, -⟩ | hj⟩
      · exact Or.inr rfl
      · exact Or.inl ⟨j, hj⟩
  links x y hxy := ⟨Or.inl (hb.links x y hxy).1, Or.inl (hb.links x y hxy).2⟩
  joined_iff x y i j hi hj := by
    have hOther : ∀ {y j}, b.index[y]? = some j → k ≠ y := by
      rintro y j hj rfl
      rw [hNew] at hj
      cases hj
    change b.sets.push.2.Joined i j ↔ _
    rw [DisjointSet.joined_push]
    rcases (index_numbered hNew).mp hi with ⟨rfl, rfl⟩ | hOld
    · rcases (index_numbered hNew).mp hj with ⟨rfl, rfl⟩ | hOld'
      · obtain ⟨r, hr⟩ := hb.wellFormed.exists_root b.sets.size
        exact ⟨fun _ => .refl _, fun _ => ⟨r, hr, hr⟩⟩
      · exact ⟨fun h => absurd h (hb.not_joined_size hOld'),
          fun h => absurd (hb.eq_of_eqvGen hNew h) (hOther hOld')⟩
    · rcases (index_numbered hNew).mp hj with ⟨rfl, rfl⟩ | hOld'
      · refine ⟨fun ⟨r, h, h'⟩ => absurd ⟨r, h', h⟩ (hb.not_joined_size hOld), fun h => ?_⟩
        exact absurd (hb.eq_of_eqvGen hNew (.symm _ _ h)) (hOther hOld)
      · exact hb.joined_iff x y i j hOld hOld'

end Numbered

theorem number_spec (hb : b.Sound K L) (k : MemberKey) :
    ∃ i b', b.number k = (i, b') ∧ b'.index[k]? = some i ∧ b'.Sound (fun x => K x ∨ x = k) L ∧
      ∀ (x : MemberKey) j, b.index[x]? = some j → b'.index[x]? = some j := by
  cases hKnown : b.index[k]? with
  | some i =>
    refine ⟨i, b, by rw [number, hKnown], hKnown, ?_, fun _ _ h => h⟩
    refine hb.congr (fun x => ⟨?_, Or.inl⟩) fun _ _ => Iff.rfl
    rintro (hx | rfl)
    · exact hx
    · exact (hb.key_iff x).mpr ⟨i, hKnown⟩
  | none =>
    refine ⟨b.sets.size, b.numbered k, ?_, (index_numbered hKnown).mpr (Or.inl ⟨rfl, rfl⟩),
      hb.numbered hKnown, fun x j hx => (index_numbered hKnown).mpr (Or.inr hx)⟩
    rw [number, hKnown]
    rfl

theorem join_spec (hb : b.Sound K L) (k k' : MemberKey) : (b.join k k').Sound
    (fun x => K x ∨ x = k ∨ x = k') (fun x y => L x y ∨ (x = k ∧ y = k')) := by
  obtain ⟨i, b₁, hFirst, hi, hb₁, -⟩ := number_spec hb k
  obtain ⟨j, b₂, hSecond, hj, hb₂, hKeeps⟩ := number_spec hb₁ k'
  have hi' := hKeeps k i hi
  have hJoins := DisjointSet.union_spec hb₂.wellFormed (hb₂.lt_size hi') (hb₂.lt_size hj)
  have hEq : b.join k k' = { b₂ with sets := b₂.sets.union i j } := by
    rw [join, hFirst]
    dsimp only
    rw [hSecond]
  rw [hEq]
  refine ⟨hJoins.wellFormed, hJoins.size_eq.trans hb₂.size_eq, hb₂.index_iff, ?_, ?_, ?_⟩
  · intro x
    rw [← hb₂.key_iff, or_assoc]
  · rintro x y (hxy | ⟨rfl, rfl⟩)
    · exact ⟨Or.inl (hb.links x y hxy).1, Or.inl (hb.links x y hxy).2⟩
    · exact ⟨Or.inr (Or.inl rfl), Or.inr (Or.inr rfl)⟩
  · intro x y m n hm hn
    rw [hJoins.joined_iff, eqvGen_insert, hb₂.joined_iff x y m n hm hn,
      hb₂.joined_iff x k m i hm hi', hb₂.joined_iff y k' n j hn hj,
      hb₂.joined_iff x k' m j hm hj, hb₂.joined_iff y k n i hn hi']

theorem Sound.with_self (hb : b.Sound K L) {k : MemberKey} (hk : K k) :
    b.Sound K (fun x y => L x y ∨ (x = k ∧ y = k)) where
  wellFormed := hb.wellFormed
  size_eq := hb.size_eq
  index_iff := hb.index_iff
  key_iff := hb.key_iff
  links x y hxy := by
    rcases hxy with hxy | ⟨rfl, rfl⟩
    · exact hb.links x y hxy
    · exact ⟨hk, hk⟩
  joined_iff x y i j hi hj := by
    rw [hb.joined_iff x y i j hi hj, eqvGen_insert]
    refine ⟨Or.inl, fun h => h.elim id fun h => ?_⟩
    rcases h with ⟨hx, hy⟩ | ⟨hx, hy⟩ <;> exact .trans x k y hx (.symm y k hy)

section AddAll

variable {ds : List Declaration} {d : Declaration}

theorem keyOf_and_linkOf {ds' : List Declaration} {p q : Declaration}
    (h : ∀ x y, Linked ds' x y ↔ Linked ds x y ∨ (x = p ∧ y = q)) :
    (∀ k, KeyOf ds' k ↔ KeyOf ds k ∨ k = q.key) ∧
      ∀ k k', LinkOf ds' k k' ↔ LinkOf ds k k' ∨ (k = p.key ∧ k' = q.key) := by
  refine ⟨fun k => ⟨?_, ?_⟩, fun k k' => ⟨?_, ?_⟩⟩
  · rintro ⟨x, y, hxy, rfl⟩
    rcases (h x y).mp hxy with hOld | ⟨rfl, rfl⟩
    · exact Or.inl ⟨x, y, hOld, rfl⟩
    · exact Or.inr rfl
  · rintro (⟨x, y, hxy, rfl⟩ | rfl)
    · exact ⟨x, y, (h x y).mpr (Or.inl hxy), rfl⟩
    · exact ⟨p, q, (h p q).mpr (Or.inr ⟨rfl, rfl⟩), rfl⟩
  · rintro ⟨x, y, hxy, rfl, rfl⟩
    rcases (h x y).mp hxy with hOld | ⟨rfl, rfl⟩
    · exact Or.inl ⟨x, y, hOld, rfl, rfl⟩
    · exact Or.inr ⟨rfl, rfl⟩
  · rintro (⟨x, y, hxy, rfl, rfl⟩ | ⟨rfl, rfl⟩)
    · exact ⟨x, y, (h x y).mpr (Or.inl hxy), rfl, rfl⟩
    · exact ⟨p, q, (h p q).mpr (Or.inr ⟨rfl, rfl⟩), rfl, rfl⟩

theorem isHead_of_find? {s : String × String} {head : Declaration}
    (h : ds.find? (fun e => decide (e.signature = s)) = some head) :
    head.signature = s ∧ IsHead ds head ∧ ∀ x, IsHead ds x → x.signature = s → x = head := by
  have hSignature : head.signature = s := by simpa using List.find?_some h
  subst hSignature
  refine ⟨rfl, h, fun x hx hEq => ?_⟩
  rw [IsHead, hEq, h] at hx
  exact (Option.some.inj hx).symm

theorem sound_new_head (hNone : ds.find? (fun e => decide (e.signature = d.signature)) = none)
    (hb : b.Sound (fun k => K k ∨ KeyOf ds k) (fun k k' => L k k' ∨ LinkOf ds k k')) :
    (b.number d.key).2.Sound (fun k => K k ∨ KeyOf (ds ++ [d]) k)
      (fun k k' => L k k' ∨ LinkOf (ds ++ [d]) k k') := by
  obtain ⟨i, b', hRun, -, hb', -⟩ := number_spec hb d.key
  rw [hRun]
  have hNoHead : ∀ x, IsHead ds x → d.signature ≠ x.signature := by
    intro x hx hEq
    rw [hEq] at hNone
    rw [IsHead, hNone] at hx
    cases hx
  have hLinked : ∀ x y, Linked (ds ++ [d]) x y ↔ Linked ds x y ∨ (x = d ∧ y = d) := by
    intro x y
    rw [linked_append]
    refine or_congr_right ⟨?_, fun ⟨hx, hy⟩ => Or.inl ⟨hNone, hx, hy⟩⟩
    rintro (⟨-, hx, hy⟩ | ⟨hHead, -, hEq, -⟩)
    · exact ⟨hx, hy⟩
    · exact absurd hEq (hNoHead x hHead)
  obtain ⟨hKey, hLink⟩ := keyOf_and_linkOf hLinked
  refine (hb'.with_self (Or.inr rfl)).congr (fun k => ?_) fun k k' => ?_
  · rw [hKey, or_assoc]
  · rw [hLink, or_assoc]

theorem sound_below_head {head : Declaration}
    (hSome : ds.find? (fun e => decide (e.signature = d.signature)) = some head)
    (hb : b.Sound (fun k => K k ∨ KeyOf ds k) (fun k k' => L k k' ∨ LinkOf ds k k')) :
    (if overrides head d then b.join head.key d.key else b).Sound
      (fun k => K k ∨ KeyOf (ds ++ [d]) k) (fun k k' => L k k' ∨ LinkOf (ds ++ [d]) k k') := by
  obtain ⟨hSignature, hHead, hOnly⟩ := isHead_of_find? hSome
  have hSelf : KeyOf ds head.key :=
    ⟨head, head, ⟨hHead, List.mem_of_find?_eq_some hSome, rfl, overrides_self head⟩, rfl⟩
  have hLinked : ∀ x y, Linked (ds ++ [d]) x y ↔
      Linked ds x y ∨ (overrides head d = true ∧ x = head ∧ y = d) := by
    intro x y
    rw [linked_append]
    refine or_congr_right ⟨?_, ?_⟩
    · rintro (⟨hNone, -, -⟩ | ⟨hx, hy, hEq, hOverrides⟩)
      · rw [hSome] at hNone
        cases hNone
      · cases hOnly x hx hEq.symm
        exact ⟨hOverrides, rfl, hy⟩
    · rintro ⟨hOverrides, rfl, rfl⟩
      exact Or.inr ⟨hHead, rfl, hSignature.symm, hOverrides⟩
  split
  · rename_i hOverrides
    simp only [hOverrides, true_and] at hLinked
    obtain ⟨hKey, hLink⟩ := keyOf_and_linkOf hLinked
    refine (join_spec hb head.key d.key).congr (fun k => ?_) fun k k' => ?_
    · rw [hKey, or_assoc]
      refine or_congr_right ⟨fun h => h.imp_right Or.inr, ?_⟩
      rintro (h | rfl | h)
      · exact Or.inl h
      · exact Or.inl hSelf
      · exact Or.inr h
    · rw [hLink, or_assoc]
  · rename_i hOverrides
    simp only [hOverrides, Bool.false_eq_true, false_and, or_false] at hLinked
    exact hb.congr (fun k => by simp only [KeyOf, hLinked]) fun k k' => by
      simp only [LinkOf, hLinked]

/-- A walk over declarations adds the links between them. -/
theorem addAll_sound {heads : Std.HashMap (String × String) Declaration}
    (hHeads : ∀ s : String × String, heads[s]? = ds.find? (fun e => decide (e.signature = s)))
    (hb : b.Sound (fun k => K k ∨ KeyOf ds k) (fun k k' => L k k' ∨ LinkOf ds k k'))
    (rest : List Declaration) : (b.addAll heads rest).Sound
      (fun k => K k ∨ KeyOf (ds ++ rest) k) (fun k k' => L k k' ∨ LinkOf (ds ++ rest) k k') := by
  induction rest generalizing b ds heads with
  | nil =>
    rw [List.append_nil]
    exact hb
  | cons d rest ih =>
    have hHead := hHeads d.signature
    rw [List.append_cons]
    rw [addAll]
    cases hSeen : heads[d.signature]? with
    | none =>
      rw [hSeen] at hHead
      have hSeen' : heads[(d.key.name, d.key.descriptor)]? = none := hSeen
      simp only [hSeen']
      refine ih (fun s => ?_) (sound_new_head hHead.symm hb)
      rw [Std.HashMap.getElem?_insert, List.find?_append, List.find?_singleton, hHeads s]
      change (if d.signature == s then some d else _) = _
      by_cases hEq : d.signature = s
      · subst hEq
        simp [hHead.symm]
      · rw [if_neg (by simpa using hEq), if_neg (by simpa using hEq), Option.or_none]
    | some head =>
      rw [hSeen] at hHead
      have hSeen' : heads[(d.key.name, d.key.descriptor)]? = some head := hSeen
      simp only [hSeen']
      refine ih (fun s => ?_) (sound_below_head hHead.symm hb)
      rw [List.find?_append, List.find?_singleton, hHeads s]
      by_cases hEq : d.signature = s
      · subst hEq
        rw [hHead.symm, Option.some_or]
      · rw [if_neg (by simpa using hEq), Option.or_none]

theorem Sound.addAll (hb : b.Sound K L) (ds : List Declaration) : (b.addAll ∅ ds).Sound
    (fun k => K k ∨ KeyOf ds k) (fun k k' => L k k' ∨ LinkOf ds k k') := by
  have hStart : b.Sound (fun k => K k ∨ KeyOf [] k) (fun k k' => L k k' ∨ LinkOf [] k k') := by
    refine hb.congr (fun k => or_iff_left ?_) fun k k' => or_iff_left ?_
    · rintro ⟨d, e, hLinked, -⟩
      exact List.not_mem_nil hLinked.mem
    · rintro ⟨d, e, hLinked, -⟩
      exact List.not_mem_nil hLinked.mem
  exact addAll_sound (fun s => by simp) hStart ds

theorem Sound.withCyclic (hb : b.Sound K L) (cyclic : Std.HashMap String String) :
    Sound { b with cyclic } K L :=
  ⟨hb.wellFormed, hb.size_eq, hb.index_iff, hb.key_iff, hb.links, hb.joined_iff⟩

end AddAll

end Builder

end Renaming.OverrideGroups
