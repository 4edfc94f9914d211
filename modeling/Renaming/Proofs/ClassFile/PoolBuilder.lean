import Renaming.ClassFile.PoolBuilder
import Renaming.Proofs.ClassFile.Pool

/-!
# What the pool builder promises

A builder is sound if its slots can be completed to a pool that a file can hold, and if each known
constant whose slot is filled is what its index leads to, in every pool that agrees with the filled
slots. Setting a slot aside and filling it keep a builder sound and concern one constant only
(`Grows`). The builder that starts from a pool that was read is sound and knows all its constants.
-/

namespace Renaming

/-- In `P`, every index of the entry `e` leads to `c`. -/
structure PoolEntry.StandsFor (P : Pool) (e : PoolEntry) (c : Constant) : Prop where
  nonempty : e ≠ .empty
  width : e.isWide = c.isWide
  short : e.Short
  names : ∀ i, P.entry i = .ok e → P.Names i c

namespace PoolBuilder

/-- Every filled slot of `b` is a slot of `P`. -/
def FitsIn (b : PoolBuilder) (P : Pool) : Prop :=
  ∀ (k : Nat) e, b.entries[k]? = some (some e) → P.entries[k]? = some e

/-- `es` fills the slots that are set aside with entries of the right width. -/
structure Completes (es : List PoolEntry) (b : PoolBuilder) : Prop where
  laid : PoolEntry.Laid es
  length_eq : es.length = b.entries.size
  filled : ∀ (k : Nat) e, b.entries[k]? = some (some e) → es[k]? = some e
  width : ∀ (c : Constant) i, b.index[c]? = some i →
    0 < i.toNat ∧ ∃ e, es[i.toNat - 1]? = some e ∧ e ≠ .empty ∧ e.isWide = c.isWide

structure Sound (b : PoolBuilder) : Prop where
  size_le : b.entries.size ≤ 65534
  completion : ∃ es, Completes es b
  injective : ∀ (c d : Constant) i, b.index[c]? = some i → b.index[d]? = some i → c = d
  named : ∀ (c : Constant) i, b.index[c]? = some i → b.isFilled i = true →
    ∀ P, b.FitsIn P → P.Names i c
  short : ∀ (k : Nat) e, b.entries[k]? = some (some e) → e.Short

/-- All constants of `K` are known and their slots are filled. -/
def Covers (b : PoolBuilder) (K : Constant → Prop) : Prop :=
  ∀ c, K c → ∃ i, b.index[c]? = some i ∧ b.isFilled i = true

/-- Each slot behind the first `n` belongs to a constant, if it is not the second slot of one. -/
def Owned (n : Nat) (b : PoolBuilder) : Prop :=
  ∀ (k : Nat) slot, n ≤ k → b.entries[k]? = some slot → slot ≠ some .empty →
    ∃ (c : Constant) (i : UInt16), b.index[c]? = some i ∧ i.toNat = k + 1

/-- What a step of the writer that is only concerned with constants of `K` does to a builder. -/
structure Grows (K : Constant → Prop) (b b' : PoolBuilder) : Prop where
  size_le : b.entries.size ≤ b'.entries.size
  filled : ∀ (k : Nat) e, b.entries[k]? = some (some e) → b'.entries[k]? = some (some e)
  index : ∀ (c : Constant) i, b.index[c]? = some i → b'.index[c]? = some i
  other_index : ∀ c : Constant, ¬ K c → b'.index[c]? = b.index[c]?
  other_slot : ∀ (c : Constant) i, ¬ K c → b.index[c]? = some i →
    b'.entries[i.toNat - 1]? = b.entries[i.toNat - 1]?
  covered : b.Covers K → b' = b

theorem isFilled_iff {b : PoolBuilder} {i : UInt16} :
    b.isFilled i = true ↔ ∃ e, b.entries[i.toNat - 1]? = some (some e) := by
  unfold isFilled
  split
  · rename_i e h
    simp [h]
  · rename_i h
    simp only [Bool.false_eq_true, false_iff]
    rintro ⟨e, he⟩
    exact h e he

theorem FitsIn.of_filled {b b' : PoolBuilder} {P : Pool}
    (hFilled : ∀ (k : Nat) e, b.entries[k]? = some (some e) → b'.entries[k]? = some (some e))
    (h : b'.FitsIn P) : b.FitsIn P := fun k e he => h k e (hFilled k e he)

theorem Covers.mono {b : PoolBuilder} {K K' : Constant → Prop} (hK : ∀ c, K c → K' c)
    (h : b.Covers K') : b.Covers K := fun c hc => h c (hK c hc)

namespace Grows

variable {K K' : Constant → Prop} {b b' b'' : PoolBuilder}

theorem refl (b : PoolBuilder) : Grows K b b where
  size_le := Nat.le_refl _
  filled _ _ h := h
  index _ _ h := h
  other_index _ _ := rfl
  other_slot _ _ _ _ := rfl
  covered _ := rfl

theorem trans (h : Grows K b b') (h' : Grows K b' b'') : Grows K b b'' where
  size_le := Nat.le_trans h.size_le h'.size_le
  filled k e he := h'.filled k e (h.filled k e he)
  index c i hi := h'.index c i (h.index c i hi)
  other_index c hc := (h'.other_index c hc).trans (h.other_index c hc)
  other_slot c i hc hi := (h'.other_slot c i hc (h.index c i hi)).trans (h.other_slot c i hc hi)
  covered hCovers := by
    have hEq := h.covered hCovers
    subst hEq
    exact h'.covered hCovers

theorem mono (hK : ∀ c, K c → K' c) (h : Grows K b b') : Grows K' b b' where
  size_le := h.size_le
  filled := h.filled
  index := h.index
  other_index c hc := h.other_index c fun hc' => hc (hK c hc')
  other_slot c i hc := h.other_slot c i fun hc' => hc (hK c hc')
  covered hCovers := h.covered (hCovers.mono hK)

theorem fitsIn (h : Grows K b b') {P : Pool} (hP : b'.FitsIn P) : b.FitsIn P :=
  hP.of_filled h.filled

theorem isFilled (h : Grows K b b') {i : UInt16} (hi : b.isFilled i = true) :
    b'.isFilled i = true := by
  obtain ⟨e, he⟩ := isFilled_iff.mp hi
  exact isFilled_iff.mpr ⟨e, h.filled _ _ he⟩

theorem unfilled (h : Grows K b b') {c : Constant} {i : UInt16} (hc : ¬ K c)
    (hi : b.index[c]? = some i) (hUnfilled : b.isFilled i = false) : b'.isFilled i = false := by
  rw [← Bool.not_eq_true, isFilled_iff, h.other_slot c i hc hi, ← isFilled_iff, hUnfilled]
  exact Bool.false_ne_true

end Grows

namespace Sound

variable {b : PoolBuilder}

theorem index_bounds (h : b.Sound) {c : Constant} {i : UInt16} (hi : b.index[c]? = some i) :
    0 < i.toNat ∧ i.toNat ≤ b.entries.size := by
  obtain ⟨es, hes⟩ := h.completion
  obtain ⟨hPos, e, he, -⟩ := hes.width c i hi
  obtain ⟨hLt, -⟩ := List.getElem?_eq_some_iff.mp he
  rw [hes.length_eq] at hLt
  omega

end Sound

def slotsFor (c : Constant) : Array (Option PoolEntry) :=
  if c.isWide then #[none, some .empty] else #[none]

theorem claim_eq_ok {c : Constant} {b b' : PoolBuilder} {i : UInt16}
    (h : claim c b = .ok (i, b')) :
    b.entries.size + (slotsFor c).size ≤ 65534 ∧ i = UInt16.ofNat (b.entries.size + 1) ∧
      b' = ⟨b.entries ++ slotsFor c, b.index.insert c i⟩ := by
  unfold claim at h
  unfold slotsFor
  cases hWide : c.isWide with
  | true =>
    simp only [hWide, if_true] at h ⊢
    split at h
    · cases h
    · rename_i hSize
      cases h
      have hEntries : (b.entries.push none).push (some .empty) =
          b.entries ++ #[none, some .empty] := Array.ext' (by simp)
      exact ⟨Nat.le_of_not_lt hSize, rfl, by rw [hEntries]⟩
  | false =>
    simp only [hWide, Bool.false_eq_true, if_false] at h ⊢
    split at h
    · cases h
    · rename_i hSize
      cases h
      exact ⟨Nat.le_of_not_lt hSize, rfl, by simp⟩

theorem slotsFor_size_pos (c : Constant) : 0 < (slotsFor c).size := by
  unfold slotsFor
  split <;> decide

theorem slotsFor_eq_some {c : Constant} {k : Nat} {e : PoolEntry}
    (h : (slotsFor c)[k]? = some (some e)) : c.isWide = true ∧ k = 1 ∧ e = .empty := by
  unfold slotsFor at h
  cases hWide : c.isWide with
  | true =>
    rw [hWide, if_pos rfl] at h
    match k with
    | 0 => cases h
    | 1 => cases h; exact ⟨rfl, rfl, rfl⟩
    | k + 2 => cases h
  | false =>
    rw [hWide, if_neg Bool.false_ne_true] at h
    match k with
    | 0 => cases h
    | k + 1 => cases h

theorem slotsFor_eq_of_ne {k : Nat} {slot : Option PoolEntry} (h : (slotsFor c)[k]? = some slot)
    (hSlot : slot ≠ some .empty) : k = 0 := by
  unfold slotsFor at h
  match k with
  | 0 => rfl
  | 1 =>
    split at h
    · cases h
      exact absurd rfl hSlot
    · cases h
  | k + 2 => split at h <;> cases h

def placeholder (c : Constant) : PoolEntry := if c.isWide then .long 0 else .integer 0

theorem placeholder_spec (c : Constant) :
    placeholder c ≠ .empty ∧ (placeholder c).isWide = c.isWide := by
  unfold placeholder
  cases c.isWide <;> exact ⟨PoolEntry.noConfusion, rfl⟩

theorem laid_placeholder (c : Constant) :
    ∃ es, PoolEntry.Laid (placeholder c :: es) ∧ es.length + 1 = (slotsFor c).size ∧
      (c.isWide = true → es = [.empty]) := by
  obtain ⟨hEntry, hWidth⟩ := placeholder_spec c
  unfold slotsFor
  cases hWide : c.isWide with
  | true => exact ⟨[.empty], .double (hWidth.trans hWide) .nil, rfl, fun _ => rfl⟩
  | false => exact ⟨[], .single hEntry (hWidth.trans hWide) .nil, rfl, Bool.noConfusion⟩

section Claim

variable {c : Constant} {b b' : PoolBuilder} {i : UInt16}

theorem claim_index_value (h : claim c b = .ok (i, b')) : i.toNat = b.entries.size + 1 := by
  obtain ⟨hSize, rfl, -⟩ := claim_eq_ok h
  have hPos := slotsFor_size_pos c
  rw [UInt16.toNat_ofNat', Nat.mod_eq_of_lt (by omega)]

theorem claim_slot (h : claim c b = .ok (i, b')) {k : Nat} (hk : k < b.entries.size) :
    b'.entries[k]? = b.entries[k]? := by
  obtain ⟨-, -, rfl⟩ := claim_eq_ok h
  exact Array.getElem?_append_left hk

theorem claim_index (h : claim c b = .ok (i, b')) {d : Constant} {j : UInt16} :
    b'.index[d]? = some j ↔ (d = c ∧ j = i) ∨ (d ≠ c ∧ b.index[d]? = some j) := by
  obtain ⟨-, -, rfl⟩ := claim_eq_ok h
  rw [Std.HashMap.getElem?_insert]
  by_cases hd : c = d
  · subst hd
    simp [eq_comm]
  · have hd' : d ≠ c := Ne.symm hd
    simp [hd, hd']

theorem grows_claim (hb : b.Sound) (hNew : b.index[c]? = none) (h : claim c b = .ok (i, b')) :
    Grows (· = c) b b' where
  size_le := by
    obtain ⟨-, -, rfl⟩ := claim_eq_ok h
    simp
  filled k e he := by
    obtain ⟨hk, -⟩ := Array.getElem?_eq_some_iff.mp he
    rw [claim_slot h hk, he]
  index d j hd := by
    have hne : d ≠ c := by
      rintro rfl
      rw [hNew] at hd
      cases hd
    exact (claim_index h).mpr (Or.inr ⟨hne, hd⟩)
  other_index d hd := by
    apply Option.ext
    intro j
    rw [claim_index h]
    simp [hd]
  other_slot d j _ hj := claim_slot h (by have := hb.index_bounds hj; omega)
  covered hCovers := by
    obtain ⟨j, hj, -⟩ := hCovers c rfl
    rw [hNew] at hj
    cases hj

theorem claim_unfilled (h : claim c b = .ok (i, b')) : b'.isFilled i = false := by
  have hValue := claim_index_value h
  obtain ⟨-, -, rfl⟩ := claim_eq_ok h
  rw [← Bool.not_eq_true, isFilled_iff, hValue]
  unfold slotsFor
  split <;> simp

theorem sound_claim (hb : b.Sound) (hNew : b.index[c]? = none) (h : claim c b = .ok (i, b')) :
    b'.Sound := by
  have hValue := claim_index_value h
  have hGrows := grows_claim hb hNew h
  refine ⟨?size, ?completion, ?injective, ?named, ?short⟩
  case size =>
    obtain ⟨hSize, -, rfl⟩ := claim_eq_ok h
    simpa using hSize
  case completion =>
    obtain ⟨es, hes⟩ := hb.completion
    -- A placeholder of the same width completes the new slots.
    obtain ⟨fs, hLaid, hLength, hEmpty⟩ := laid_placeholder c
    refine ⟨es ++ placeholder c :: fs, hes.laid.append hLaid, ?_, ?_, ?_⟩
    · obtain ⟨-, -, rfl⟩ := claim_eq_ok h
      simp [hes.length_eq, hLength]
    · intro k e he
      by_cases hk : k < b.entries.size
      · rw [claim_slot h hk] at he
        rw [List.getElem?_append_left (by rw [hes.length_eq]; exact hk)]
        exact hes.filled k e he
      · obtain ⟨-, -, rfl⟩ := claim_eq_ok h
        rw [Array.getElem?_append_right (Nat.le_of_not_lt hk)] at he
        rw [List.getElem?_append_right (by rw [hes.length_eq]; omega), hes.length_eq]
        obtain ⟨hWide, hOne, rfl⟩ := slotsFor_eq_some he
        rw [hOne, hEmpty hWide]
        rfl
    · intro d j hj
      rcases (claim_index h).mp hj with ⟨rfl, rfl⟩ | ⟨-, hj⟩
      · refine ⟨by omega, placeholder d, ?_, placeholder_spec d⟩
        rw [hValue, Nat.add_sub_cancel, List.getElem?_append_right (Nat.le_of_eq hes.length_eq)]
        simp [hes.length_eq]
      · obtain ⟨hPos, e, he, hRest⟩ := hes.width d j hj
        obtain ⟨hLt, -⟩ := List.getElem?_eq_some_iff.mp he
        exact ⟨hPos, e, by rw [List.getElem?_append_left hLt, he], hRest⟩
  case injective =>
    -- The new index lies behind all those that are known.
    intro d d' j hd hd'
    rcases (claim_index h).mp hd with ⟨rfl, rfl⟩ | ⟨hne, hd⟩
    · rcases (claim_index h).mp hd' with ⟨rfl, -⟩ | ⟨-, hd'⟩
      · rfl
      · have := hb.index_bounds hd'
        omega
    · rcases (claim_index h).mp hd' with ⟨rfl, rfl⟩ | ⟨-, hd'⟩
      · have := hb.index_bounds hd
        omega
      · exact hb.injective d d' j hd hd'
  case named =>
    intro d j hj hFilled P hP
    rcases (claim_index h).mp hj with ⟨rfl, rfl⟩ | ⟨-, hj⟩
    · rw [claim_unfilled h] at hFilled
      cases hFilled
    · have hBounds := hb.index_bounds hj
      refine hb.named d j hj ?_ P (hGrows.fitsIn hP)
      rw [isFilled_iff, claim_slot h (by omega)] at hFilled
      exact isFilled_iff.mpr hFilled
  case short =>
    intro k e he
    by_cases hk : k < b.entries.size
    · rw [claim_slot h hk] at he
      exact hb.short k e he
    · obtain ⟨-, -, rfl⟩ := claim_eq_ok h
      rw [Array.getElem?_append_right (Nat.le_of_not_lt hk)] at he
      rw [(slotsFor_eq_some he).2.2]
      trivial

theorem Owned.claim {n : Nat} (hOwned : b.Owned n) (hb : b.Sound) (hNew : b.index[c]? = none)
    (h : claim c b = .ok (i, b')) : b'.Owned n := by
  intro k slot hk hSlot hNonempty
  by_cases hOld : k < b.entries.size
  · rw [claim_slot h hOld] at hSlot
    obtain ⟨d, j, hj, hPlace⟩ := hOwned k slot hk hSlot hNonempty
    exact ⟨d, j, (grows_claim hb hNew h).index d j hj, hPlace⟩
  · have hValue := claim_index_value h
    refine ⟨c, i, (claim_index h).mpr (Or.inl ⟨rfl, rfl⟩), ?_⟩
    obtain ⟨-, -, rfl⟩ := claim_eq_ok h
    rw [Array.getElem?_append_right (Nat.le_of_not_lt hOld)] at hSlot
    have hFirst := slotsFor_eq_of_ne hSlot hNonempty
    omega

end Claim

section Fill

variable {c : Constant} {b : PoolBuilder} {i : UInt16} {e : PoolEntry}

def filledWith (b : PoolBuilder) (i : UInt16) (e : PoolEntry) : PoolBuilder :=
  { b with entries := b.entries.setIfInBounds (i.toNat - 1) (some e) }

theorem filledWith_slot (hb : b.Sound) (hi : b.index[c]? = some i) {k : Nat} :
    (b.filledWith i e).entries[k]? =
      if k = i.toNat - 1 then some (some e) else b.entries[k]? := by
  obtain ⟨hPos, hLe⟩ := hb.index_bounds hi
  unfold filledWith
  dsimp only
  rw [Array.getElem?_setIfInBounds]
  grind

theorem filledWith_isFilled (hb : b.Sound) (hi : b.index[c]? = some i) {j : UInt16} :
    (b.filledWith i e).isFilled j = true ↔ j.toNat - 1 = i.toNat - 1 ∨ b.isFilled j = true := by
  rw [isFilled_iff, filledWith_slot hb hi, isFilled_iff]
  split <;> simp_all

theorem grows_filledWith (hb : b.Sound) (hi : b.index[c]? = some i)
    (hUnfilled : b.isFilled i = false) : Grows (· = c) b (b.filledWith i e) where
  size_le := by simp [filledWith]
  filled k e' he := by
    rw [filledWith_slot hb hi]
    split
    · rename_i hk
      subst hk
      rw [← Bool.not_eq_true, isFilled_iff] at hUnfilled
      exact absurd ⟨e', he⟩ hUnfilled
    · exact he
  index _ _ h := h
  other_index _ _ := rfl
  other_slot d j hd hj := by
    rw [filledWith_slot hb hi, if_neg]
    intro hEq
    have hj' := hb.index_bounds hj
    have hi' := hb.index_bounds hi
    have hij : j = i := UInt16.toNat_inj.mp (by omega)
    subst hij
    exact hd (hb.injective d c j hj hi)
  covered hCovers := by
    obtain ⟨j, hj, hFilled⟩ := hCovers c rfl
    rw [hi] at hj
    cases hj
    rw [hUnfilled] at hFilled
    cases hFilled

theorem sound_filledWith (hb : b.Sound) (hi : b.index[c]? = some i)
    (hUnfilled : b.isFilled i = false)
    (he : ∀ P, (b.filledWith i e).FitsIn P → e.StandsFor P c) : (b.filledWith i e).Sound := by
  have hGrows := grows_filledWith (e := e) hb hi hUnfilled
  obtain ⟨hPos, hLe⟩ := hb.index_bounds hi
  obtain ⟨es, hes⟩ := hb.completion
  obtain ⟨-, old, hOld, hOldEntry, hOldWidth⟩ := hes.width c i hi
  have hFilled : ∀ (k : Nat) e', (b.filledWith i e).entries[k]? = some (some e') →
      (es.set (i.toNat - 1) e)[k]? = some e' := by
    intro k e' hk
    rw [filledWith_slot hb hi] at hk
    split at hk
    · rename_i hEq
      cases hk
      rw [hEq, List.getElem?_set_self (by rw [hes.length_eq]; omega)]
    · rename_i hNe
      rw [List.getElem?_set_ne (Ne.symm hNe)]
      exact hes.filled k e' hk
  have hStands : ∃ P, e.StandsFor P c :=
    ⟨⟨(es.set (i.toNat - 1) e).toArray⟩, he _ fun k e' hk => by simpa using hFilled k e' hk⟩
  obtain ⟨P₀, hStands⟩ := hStands
  -- The completion had an entry of the same width here, so that none of the others moves.
  have hWidth : e.isWide = old.isWide := hStands.width.trans hOldWidth.symm
  refine ⟨?size, ?completion, hb.injective, ?named, ?short⟩
  case size =>
    simpa [filledWith] using hb.size_le
  case completion =>
    refine ⟨es.set (i.toNat - 1) e, hes.laid.set hOld hOldEntry hStands.nonempty hWidth, ?_,
      hFilled, ?_⟩
    · simp [filledWith, hes.length_eq]
    · intro d j hj
      obtain ⟨hPos', e', he', hEntry', hWidth'⟩ := hes.width d j hj
      by_cases hEq : j.toNat - 1 = i.toNat - 1
      · have hij : j = i := UInt16.toNat_inj.mp (by omega)
        subst hij
        have hdc := hb.injective d c j hj hi
        subst hdc
        refine ⟨hPos', e, ?_, hStands.nonempty, hStands.width⟩
        exact List.getElem?_set_self (by rw [hes.length_eq]; omega)
      · refine ⟨hPos', e', ?_, hEntry', hWidth'⟩
        rw [List.getElem?_set_ne (Ne.symm hEq), he']
  case named =>
    intro d j hj hSlot P hP
    by_cases hdc : d = c
    · subst hdc
      have hij : j = i := Option.some.inj (hj.symm.trans hi)
      subst hij
      refine (he P hP).names j (Pool.entry_eq_ok.mpr ⟨hPos, hP _ _ ?_, hStands.nonempty⟩)
      rw [filledWith_slot hb hi, if_pos rfl]
    · refine hb.named d j hj ?_ P (hGrows.fitsIn hP)
      rcases (filledWith_isFilled hb hi).mp hSlot with hEq | hOldSlot
      · have hj' := hb.index_bounds hj
        have hij : j = i := UInt16.toNat_inj.mp (by omega)
        subst hij
        exact absurd (hb.injective d c j hj hi) hdc
      · exact hOldSlot
  case short =>
    intro k e' hk
    rw [filledWith_slot hb hi] at hk
    split at hk
    · cases hk
      exact hStands.short
    · exact hb.short k e' hk

theorem Owned.filledWith {n : Nat} (hOwned : b.Owned n) (hb : b.Sound) (hi : b.index[c]? = some i) :
    (b.filledWith i e).Owned n := by
  intro k slot hk hSlot hNonempty
  rw [filledWith_slot hb hi] at hSlot
  split at hSlot
  · rename_i hPlace
    obtain ⟨hPos, -⟩ := hb.index_bounds hi
    exact ⟨c, i, hi, by omega⟩
  · exact hOwned k slot hk hSlot hNonempty

theorem names_of_filledWith (hb : b.Sound) (hi : b.index[c]? = some i)
    (hSound : (b.filledWith i e).Sound) {P : Pool} (hP : (b.filledWith i e).FitsIn P) :
    P.Names i c :=
  hSound.named c i hi ((filledWith_isFilled hb hi).mpr (Or.inl rfl)) P hP

end Fill

section Reserve

variable {c : Constant} {b : PoolBuilder} {i : UInt16}

theorem reserve_known (h : b.index[c]? = some i) : reserve c b = .ok (i, b) := by
  unfold reserve
  rw [Stateful.get_bind_apply]
  simp only [h]
  rfl

theorem reserve_new (h : b.index[c]? = none) : reserve c b = claim c b := by
  unfold reserve
  rw [Stateful.get_bind_apply]
  simp only [h]

def reserveAll (cs : List Constant) : Encoder PUnit :=
  forIn cs PUnit.unit fun c _ => do
    let _index ← reserve c
    return ForInStep.yield PUnit.unit

end Reserve

section Intern

variable {c : Constant} {make : Encoder PoolEntry} {b b' : PoolBuilder} {i : UInt16}

/-- What asking for `c` can do to `b`: nothing if its entry is there; if not, `make` yields the entry,
which goes into the slot that was set aside for it or into a new one. -/
inductive Interns (c : Constant) (make : Encoder PoolEntry) (b : PoolBuilder) :
    UInt16 → PoolBuilder → Prop
  | filled {i : UInt16} (hIndex : b.index[c]? = some i) (hFilled : b.isFilled i = true) :
      Interns c make b i b
  | reserved {i : UInt16} {e : PoolEntry} {b₁ : PoolBuilder} (hIndex : b.index[c]? = some i)
      (hUnfilled : b.isFilled i = false) (hMake : make b = .ok (e, b₁)) :
      Interns c make b i (b₁.filledWith i e)
  | new {i : UInt16} {e : PoolEntry} {b₁ b₂ : PoolBuilder} (hIndex : b.index[c]? = none)
      (hMake : make b = .ok (e, b₁)) (hClaim : claim c b₁ = .ok (i, b₂)) :
      Interns c make b i (b₂.filledWith i e)

theorem intern_eq_ok : intern c make b = .ok (i, b') ↔ Interns c make b i b' := by
  unfold intern
  rw [Stateful.get_bind_apply]
  constructor
  · intro h
    cases hIndex : b.index[c]? with
    | some j =>
      simp only [hIndex, Stateful.get_bind_apply] at h
      cases hFilled : b.isFilled j with
      | true =>
        rw [if_pos hFilled] at h
        obtain ⟨rfl, rfl⟩ := Stateful.pure_eq_ok.mp h
        exact .filled hIndex hFilled
      | false =>
        rw [if_neg (by simp [hFilled])] at h
        obtain ⟨e, b₁, hMake, h⟩ := Stateful.bind_eq_ok.mp h
        cases h
        exact .reserved hIndex hFilled hMake
    | none =>
      simp only [hIndex] at h
      obtain ⟨e, b₁, hMake, h⟩ := Stateful.bind_eq_ok.mp h
      obtain ⟨j, b₂, hClaim, h⟩ := Stateful.bind_eq_ok.mp h
      cases h
      exact .new hIndex hMake hClaim
  · intro h
    cases h with
    | filled hIndex hFilled =>
      simp only [hIndex, Stateful.get_bind_apply, hFilled]
      rfl
    | reserved hIndex hUnfilled hMake =>
      simp only [hIndex, Stateful.get_bind_apply, hUnfilled, Bool.false_eq_true, if_false]
      exact Stateful.bind_eq_ok.mpr ⟨_, _, hMake, rfl⟩
    | new hIndex hMake hClaim =>
      simp only [hIndex]
      exact Stateful.bind_eq_ok.mpr ⟨_, _, hMake, Stateful.bind_eq_ok.mpr ⟨_, _, hClaim, rfl⟩⟩

end Intern

theorem sound_empty : empty.Sound where
  size_le := Nat.zero_le _
  completion := ⟨[], .nil, rfl, by simp [empty], by simp [empty]⟩
  injective := by simp [empty]
  named := by simp [empty]
  short := by simp [empty]

def noteSlot (P : Pool) (index : Std.HashMap Constant UInt16) (k : Nat) :
    Std.HashMap Constant UInt16 :=
  match P.constant (UInt16.ofNat (k + 1)) with
  | .ok c => note index c (UInt16.ofNat (k + 1))
  | .error _ => index

theorem noteSlot_eq_some {P : Pool} {index : Std.HashMap Constant UInt16} {k : Nat} {c : Constant}
    {i : UInt16} (h : (noteSlot P index k)[c]? = some i) : index[c]? = some i ∨ P.Names i c := by
  unfold noteSlot at h
  split at h
  · rename_i d hd
    rw [note, Std.HashMap.getElem?_insertIfNew] at h
    split at h
    · rename_i hNew
      cases h
      rw [← eq_of_beq hNew.1]
      exact Or.inr (Pool.constant_eq_ok.mp hd)
    · exact Or.inl h
  · exact Or.inl h

theorem noteSlot_isSome {P : Pool} {index : Std.HashMap Constant UInt16} {k : Nat} {c : Constant}
    (h : index[c]?.isSome ∨ P.Names (UInt16.ofNat (k + 1)) c) :
    (noteSlot P index k)[c]?.isSome := by
  unfold noteSlot
  split
  · rename_i d hd
    rw [note, Std.HashMap.getElem?_insertIfNew]
    split
    · rfl
    · rename_i hOld
      rcases h with h | h
      · exact h
      · have hdc := (Pool.constant_eq_ok.mp hd).unique h
        subst hdc
        simpa using hOld
  · rename_i hError
    rcases h with h | h
    · exact h
    · rw [Pool.constant_eq_ok.mpr h] at hError
      cases hError

theorem foldl_noteSlot {P : Pool} (ks : List Nat) (index : Std.HashMap Constant UInt16)
    (c : Constant) :
    (∀ i, (ks.foldl (noteSlot P) index)[c]? = some i → index[c]? = some i ∨ P.Names i c) ∧
      (index[c]?.isSome ∨ (∃ k ∈ ks, P.Names (UInt16.ofNat (k + 1)) c) →
        (ks.foldl (noteSlot P) index)[c]?.isSome) := by
  induction ks generalizing index with
  | nil => exact ⟨fun i hi => Or.inl hi, by simp⟩
  | cons k ks ih =>
    obtain ⟨ihNames, ihSome⟩ := ih (noteSlot P index k)
    constructor
    · intro i hi
      rcases ihNames i hi with h | h
      · exact noteSlot_eq_some h
      · exact Or.inr h
    · intro h
      apply ihSome
      rcases h with h | ⟨k', hk', h⟩
      · exact Or.inl (noteSlot_isSome (Or.inl h))
      · rcases List.mem_cons.mp hk' with rfl | hk'
        · exact Or.inl (noteSlot_isSome (Or.inr h))
        · exact Or.inr ⟨k', hk', h⟩

section OfPool

variable {P : Pool}

theorem names_of_ofPool {c : Constant} {i : UInt16} (h : (ofPool P).index[c]? = some i) :
    P.Names i c := by
  rcases (foldl_noteSlot (List.range P.entries.size) ∅ c).1 i h with h | h
  · simp at h
  · exact h

theorem index_of_not_holds {c : Constant} (h : ¬ P.Holds c) : (ofPool P).index[c]? = none := by
  cases hIndex : (ofPool P).index[c]? with
  | none => rfl
  | some i => exact absurd (names_of_ofPool hIndex).holds h

theorem ofPool_slot {k : Nat} {e : PoolEntry} :
    (ofPool P).entries[k]? = some (some e) ↔ P.entries[k]? = some e := by
  simp [ofPool]

theorem entry_of_ofPool_fitsIn {P' : Pool} (h : (ofPool P).FitsIn P') {i : UInt16} {e : PoolEntry}
    (he : P.entry i = .ok e) : P'.entry i = .ok e := by
  obtain ⟨hPos, hSlot, hEntry⟩ := Pool.entry_eq_ok.mp he
  exact Pool.entry_eq_ok.mpr ⟨hPos, h _ _ (ofPool_slot.mpr hSlot), hEntry⟩

theorem sound_ofPool (hP : P.Complete) : (ofPool P).Sound where
  size_le := by simpa [ofPool] using hP.size_le
  completion := by
    refine ⟨P.entries.toList, hP.laid, by simp [ofPool], ?_, ?_⟩
    · intro k e he
      simpa using ofPool_slot.mp he
    · intro c i hi
      obtain ⟨e, hEntry, hWidth⟩ := (names_of_ofPool hi).entry
      obtain ⟨hPos, hSlot, hNonempty⟩ := Pool.entry_eq_ok.mp hEntry
      exact ⟨hPos, e, by simpa using hSlot, hNonempty, hWidth⟩
  injective c d i hc hd := (names_of_ofPool hc).unique (names_of_ofPool hd)
  named c i hi _ P' hP' := (names_of_ofPool hi).mono fun _ _ => entry_of_ofPool_fitsIn hP'
  short k e he := hP.short e (Array.mem_toList_iff.mpr
    (Array.mem_of_getElem? (ofPool_slot.mp he)))

theorem covers_ofPool : (ofPool P).Covers P.Holds := by
  rintro c ⟨i, hi⟩
  obtain ⟨e, hEntry, -⟩ := hi.entry
  obtain ⟨hPos, hSlot, -⟩ := Pool.entry_eq_ok.mp hEntry
  obtain ⟨hLt, -⟩ := Array.getElem?_eq_some_iff.mp hSlot
  have hMem : ∃ k ∈ List.range P.entries.size, P.Names (UInt16.ofNat (k + 1)) c := by
    refine ⟨i.toNat - 1, List.mem_range.mpr hLt, ?_⟩
    rwa [Nat.sub_add_cancel hPos, UInt16.ofNat_toNat]
  have hSome := (foldl_noteSlot (List.range P.entries.size) ∅ c).2 (Or.inr hMem)
  obtain ⟨j, hj⟩ := Option.isSome_iff_exists.mp hSome
  have hIndex : (ofPool P).index[c]? = some j := hj
  obtain ⟨e', hEntry', -⟩ := (names_of_ofPool hIndex).entry
  obtain ⟨-, hSlot', -⟩ := Pool.entry_eq_ok.mp hEntry'
  exact ⟨j, hIndex, isFilled_iff.mpr ⟨e', ofPool_slot.mpr hSlot'⟩⟩

end OfPool

theorem slots_of_pieces {slots : List (Option PoolEntry)} {pieces : List Bytes}
    (h : List.Forall₂ (fun slot bs => (match slot with
      | some entry => Except.ok entry.encode
      | none => Except.error WriteError.unfilledSlot) = .ok bs) slots pieces) :
    ∃ es : List PoolEntry, slots = es.map some ∧ pieces = es.map PoolEntry.encode := by
  induction h with
  | nil => exact ⟨[], rfl, rfl⟩
  | @cons slot bs slots pieces hSlot _ ih =>
    obtain ⟨es, rfl, rfl⟩ := ih
    cases slot with
    | none => cases hSlot
    | some e =>
      cases hSlot
      exact ⟨e :: es, rfl, rfl⟩

theorem encode_eq_ok {b : PoolBuilder} {bytes : Bytes} (hb : b.Sound) (h : b.encode = .ok bytes) :
    ∃ P : Pool, b.entries = P.entries.map some ∧ P.Complete ∧ bytes = P.encode := by
  obtain ⟨pieces, hPieces, h⟩ := Outcome.bind_eq_ok.mp h
  cases h
  obtain ⟨es, hSlots, rfl⟩ := slots_of_pieces (Outcome.mapM_eq_ok.mp hPieces)
  obtain ⟨fs, hfs⟩ := hb.completion
  have hEntries : b.entries = es.toArray.map some := Array.ext' (by simpa using hSlots)
  have hSize : b.entries.size = es.length := by rw [hEntries]; simp
  have hSlot : ∀ (k : Nat) e, es[k]? = some e → b.entries[k]? = some (some e) := by
    intro k e he
    rw [hEntries]
    simpa using he
  have hEq : es = fs := by
    apply List.ext_getElem?
    intro k
    cases he : es[k]? with
    | some e => exact (hfs.filled k e (hSlot k e he)).symm
    | none =>
      rw [List.getElem?_eq_none_iff] at he
      rw [eq_comm, List.getElem?_eq_none_iff, hfs.length_eq, hSize]
      exact he
  refine ⟨⟨es.toArray⟩, hEntries, ⟨?_, ?_, ?_⟩, ?_⟩
  · simpa [hSize] using hb.size_le
  · rw [hEq]
    exact hfs.laid
  · intro e he
    obtain ⟨k, hk⟩ := List.mem_iff_getElem?.mp he
    exact hb.short k e (hSlot k e hk)
  · simp [Pool.encode, hSize]

theorem fitsIn_of_entries {b : PoolBuilder} {P : Pool} (h : b.entries = P.entries.map some) :
    b.FitsIn P := by
  intro k e he
  rw [h] at he
  simpa using he

end PoolBuilder

end Renaming
