import Renaming.Proofs.ClassFile.Budget
import Renaming.Proofs.ClassFile.Supply

/-!
# Building a pool within the budget of an old one

The builder that starts from nothing never outgrows the pool that its constants were read from: the
slots that it has set aside and the bytes that it has filled, with all that the old pool may still
have it add, stay within what the old pool takes. So no constant of the old pool is ever refused,
and those that were reserved first keep an index of one byte.
-/

namespace Renaming

namespace PoolEntry

/-- How many slots the entry fills, where the second slot of a long or double counts for nothing. -/
def slots : PoolEntry → Nat
  | .empty => 0
  | e => if e.isWide then 2 else 1

theorem slots_of_ne {e : PoolEntry} (h : e ≠ .empty) : e.slots = if e.isWide then 2 else 1 := by
  cases e <;> first | rfl | exact absurd rfl h

theorem Laid.sum_slots {es : List PoolEntry} (h : Laid es) : (es.map slots).sum = es.length := by
  induction h with
  | nil => rfl
  | single hEntry hWide _ ih =>
    rw [List.map_cons, List.sum_cons, ih, slots_of_ne hEntry, hWide]
    simp [Nat.add_comm]
  | double hWide _ ih =>
    rw [List.map_cons, List.map_cons, List.sum_cons, List.sum_cons, ih,
      slots_of_ne (ne_empty_of_isWide hWide), hWide]
    simp [slots]
    omega

end PoolEntry

namespace PoolBuilder

variable {P : Pool} {b b' : PoolBuilder} {c : Constant} {i : UInt16}

def Knows (b : PoolBuilder) (c : Constant) : Prop := ∃ i, b.index[c]? = some i

def Fills (b : PoolBuilder) (c : Constant) : Prop :=
  ∃ i, b.index[c]? = some i ∧ b.isFilled i = true

theorem Grows.knows {K : Constant → Prop} (h : Grows K b b') (hc : b.Knows c) : b'.Knows c :=
  hc.imp fun i hi => h.index c i hi

theorem Grows.fills {K : Constant → Prop} (h : Grows K b b') (hc : b.Fills c) : b'.Fills c :=
  hc.imp fun i hi => ⟨h.index c i hi.1, h.isFilled hi.2⟩

theorem size_slotsFor (c : Constant) : (slotsFor c).size = if c.isWide then 2 else 1 := by
  unfold slotsFor
  split <;> rfl

theorem length_pool_encode (b : PoolBuilder) : b.pool.encode.length =
    2 + (b.entries.toList.map fun slot => (slot.getD .empty).encode.length).sum := by
  simp only [pool, Pool.encode, List.length_append, Bytes.length_u2, List.length_flatten,
    Array.toList_map, List.map_map]
  rfl

theorem length_pool_claim (h : claim c b = .ok (i, b')) :
    b'.pool.encode.length = b.pool.encode.length := by
  obtain ⟨-, -, rfl⟩ := claim_eq_ok h
  rw [length_pool_encode, length_pool_encode]
  unfold slotsFor
  split <;> simp [PoolEntry.encode]

theorem sum_set {ns : List Nat} {k n : Nat} (h : ns[k]? = some 0) :
    (ns.set k n).sum = ns.sum + n := by
  induction ns generalizing k with
  | nil => cases h
  | cons m ns ih =>
    cases k with
    | zero =>
      cases h
      simp [Nat.add_comm]
    | succ k => simp [ih h, Nat.add_assoc]

theorem length_pool_filledWith {e : PoolEntry} (hb : b.Sound) (hi : b.index[c]? = some i)
    (hUnfilled : b.isFilled i = false) :
    (b.filledWith i e).pool.encode.length = b.pool.encode.length + e.encode.length := by
  obtain ⟨hPos, hLe⟩ := hb.index_bounds hi
  have hSlot : b.entries[i.toNat - 1]? = some none := by
    have hInside : i.toNat - 1 < b.entries.size := by omega
    have hSome := Array.getElem?_eq_getElem hInside
    rw [hSome, Option.some.injEq, Option.eq_none_iff_forall_ne_some]
    intro e he
    rw [he] at hSome
    rw [isFilled_iff.mpr ⟨e, hSome⟩] at hUnfilled
    cases hUnfilled
  rw [length_pool_encode, length_pool_encode, filledWith, Array.toList_setIfInBounds, List.map_set,
    sum_set (by simp [hSlot, PoolEntry.encode]), Nat.add_assoc]
  rfl

/-- The builder has not outgrown the pool `P`, and each of its slots belongs to a constant. -/
structure Kept (P : Pool) (b : PoolBuilder) : Prop where
  sound : b.Sound
  slots : Affords P.Holds (fun c => (slotsFor c).size) 65534 b.Knows b.entries.size
  bytes : Affords P.Holds Constant.entrySize P.encode.length b.Fills b.pool.encode.length
  owned : ∀ (k : Nat) slot, b.entries[k]? = some slot → slot ≠ some .empty →
    ∃ (c : Constant) (i : UInt16), b.index[c]? = some i ∧ i.toNat = k + 1

theorem kept_empty (hP : P.Complete) : Kept P empty where
  sound := sound_empty
  slots cs hNodup hAll := by
    have hSum : (cs.map fun c => (slotsFor c).size).sum ≤
        (P.entries.toList.map PoolEntry.slots).sum := by
      apply Pool.sum_le hNodup fun c hc => (hAll c hc).1
      intro i c e hNames he
      obtain ⟨e', he', hWidth⟩ := hNames.entry
      cases he.symm.trans he'
      rw [size_slotsFor, PoolEntry.slots_of_ne (Pool.entry_eq_ok.mp he).2.2, hWidth]
    rw [hP.laid.sum_slots] at hSum
    have hSize := hP.size_le
    simp only [empty, Array.size_empty, Array.length_toList] at hSum ⊢
    omega
  bytes cs hNodup hAll := by
    have hSum : (cs.map Constant.entrySize).sum ≤
        (P.entries.toList.map fun e => e.encode.length).sum :=
      Pool.sum_le hNodup (fun c hc => (hAll c hc).1)
        fun i c e hNames he => (hNames.length_encode he).symm
    have hLength : P.encode.length = 2 + (P.entries.toList.map fun e => e.encode.length).sum := by
      simp only [Pool.encode, List.length_append, Bytes.length_u2, List.length_flatten,
        List.map_map]
      rfl
    rw [hLength]
    simp only [length_pool_encode, empty]
    simpa using hSum
  owned k slot h := by simp [empty] at h

theorem not_knows (h : b.index[c]? = none) : ¬ b.Knows c := by
  rintro ⟨i, hi⟩
  rw [h] at hi
  cases hi

namespace Kept

theorem owned_all (hb : Kept P b) : b.Owned 0 := fun k slot _ => hb.owned k slot

/-- A constant of the old pool is not refused a slot. -/
theorem exists_claim (hb : Kept P b) (hc : P.Holds c) (hNew : b.index[c]? = none) :
    ∃ i b', claim c b = .ok (i, b') := by
  have hRoom := hb.slots.cost_le hc (not_knows hNew)
  rw [size_slotsFor] at hRoom
  exact ⟨_, _, if_neg (Nat.not_lt.mpr hRoom)⟩

theorem claim (hb : Kept P b) (hc : P.Holds c) (hNew : b.index[c]? = none)
    (h : claim c b = .ok (i, b')) : Kept P b' := by
  have hGrows := grows_claim hb.sound hNew h
  have hIndex := claim_index (d := c) (j := i) h
  have hValue := claim_index_value h
  constructor
  · exact sound_claim hb.sound hNew h
  · apply hb.slots.pay hc (not_knows hNew)
    · rintro d (hd | rfl)
      · exact hGrows.knows hd
      · exact ⟨i, hIndex.mpr (Or.inl ⟨rfl, rfl⟩)⟩
    · obtain ⟨-, -, rfl⟩ := claim_eq_ok h
      simp
  · rw [length_pool_claim h]
    exact hb.bytes.keep fun d hd => hGrows.fills hd
  · exact fun k slot => hb.owned_all.claim hb.sound hNew h k slot (Nat.zero_le k)

theorem filledWith (hb : Kept P b) {e : PoolEntry} (hc : P.Holds c) (hi : b.index[c]? = some i)
    (hUnfilled : b.isFilled i = false)
    (he : ∀ P, (b.filledWith i e).FitsIn P → e.StandsFor P c) : Kept P (b.filledWith i e) := by
  have hGrows := grows_filledWith (e := e) hb.sound hi hUnfilled
  have hSound := sound_filledWith hb.sound hi hUnfilled he
  have hFilled : (b.filledWith i e).isFilled i = true :=
    (filledWith_isFilled hb.sound hi).mpr (Or.inl rfl)
  have hSize : e.encode.length = c.entrySize := by
    have hStands := he _ (b.filledWith i e).fitsIn_pool
    have hSlot : (b.filledWith i e).pool.entry i = .ok e := by
      obtain ⟨hPos, -⟩ := hb.sound.index_bounds hi
      refine Pool.entry_eq_ok.mpr ⟨hPos, ?_, hStands.nonempty⟩
      exact (b.filledWith i e).fitsIn_pool _ _ (by rw [filledWith_slot hb.sound hi, if_pos rfl])
    exact (hStands.names i hSlot).length_encode hSlot
  have hNew : ¬ b.Fills c := by
    rintro ⟨j, hj, hSlot⟩
    cases hi.symm.trans hj
    rw [hUnfilled] at hSlot
    cases hSlot
  constructor
  · exact hSound
  · have hSlots : (b.filledWith i e).entries.size = b.entries.size := Array.size_setIfInBounds
    rw [hSlots]
    exact hb.slots
  · apply hb.bytes.pay hc hNew
    · rintro d (hd | rfl)
      · exact hGrows.fills hd
      · exact ⟨i, hi, hFilled⟩
    · rw [length_pool_filledWith hb.sound hi hUnfilled, hSize]
  · exact fun k slot => hb.owned_all.filledWith hb.sound hi k slot (Nat.zero_le k)

end Kept

/-- A builder within the budget of `P` in which every constant of `L` has an index of one byte, and
only constants of `L` still wait for their entry. -/
structure Stocked (P : Pool) (L : Constant → Prop) (b : PoolBuilder) : Prop extends Kept P b where
  low : ∀ c, L c → ∃ i, b.index[c]? = some i ∧ i.toNat ≤ 255
  waiting : ∀ (c : Constant) i, b.index[c]? = some i → b.isFilled i = false → L c

variable {L : Constant → Prop}

namespace Stocked

theorem filledWith (hb : Stocked P L b) {e : PoolEntry} (hc : P.Holds c)
    (hi : b.index[c]? = some i) (hUnfilled : b.isFilled i = false)
    (he : ∀ P, b.FitsIn P → e.StandsFor P c) : Stocked P L (b.filledWith i e) where
  toKept := hb.toKept.filledWith hc hi hUnfilled fun P hP =>
    he P ((grows_filledWith hb.sound hi hUnfilled).fitsIn hP)
  low := hb.low
  waiting d j hj hWaits := by
    apply hb.waiting d j hj
    rw [← Bool.not_eq_true] at hWaits ⊢
    exact fun hFilled => hWaits ((filledWith_isFilled hb.sound hi).mpr (Or.inr hFilled))

theorem added (hb : Stocked P L b) {e : PoolEntry} (hc : P.Holds c) (hNew : b.index[c]? = none)
    (h : claim c b = .ok (i, b')) (he : ∀ P, b.FitsIn P → e.StandsFor P c) :
    Stocked P L (b'.filledWith i e) := by
  have hKept := hb.toKept.claim hc hNew h
  have hClaim := grows_claim hb.sound hNew h
  have hi : b'.index[c]? = some i := (claim_index h).mpr (Or.inl ⟨rfl, rfl⟩)
  have hUnfilled := claim_unfilled h
  have hFill := grows_filledWith (e := e) hKept.sound hi hUnfilled
  constructor
  · exact hKept.filledWith hc hi hUnfilled fun P hP => he P (hClaim.fitsIn (hFill.fitsIn hP))
  · intro d hd
    obtain ⟨j, hj, hByte⟩ := hb.low d hd
    exact ⟨j, hClaim.index d j hj, hByte⟩
  · intro d j hj hWaits
    rcases (claim_index h).mp hj with ⟨-, rfl⟩ | ⟨-, hj⟩
    · rw [(filledWith_isFilled hKept.sound hi).mpr (Or.inl rfl)] at hWaits
      cases hWaits
    · apply hb.waiting d j hj
      rw [← Bool.not_eq_true] at hWaits ⊢
      exact fun hFilled => hWaits (hFill.isFilled (hClaim.isFilled hFilled))

end Stocked

open Encoder (Runs Emits)

theorem runs_intern {build : Encoder PoolEntry} (hc : P.Holds c)
    (hEmits : Emits (· ∈ c.parts) build fun P e => e.StandsFor P c)
    (hBuild : Runs (Stocked P L) build fun _ => True) :
    Runs (Stocked P L) (intern c build) fun i => L c → i.toNat ≤ 255 := by
  intro b hb
  obtain ⟨e, b₁, hRun, hb₁, -⟩ := hBuild b hb
  obtain ⟨-, hGrows, hStands⟩ := hEmits b hb.sound e b₁ hRun
  cases hKnown : b.index[c]? with
  | some j =>
    have hLow : L c → j.toNat ≤ 255 := by
      intro hL
      obtain ⟨i, hi, hByte⟩ := hb.low c hL
      cases hKnown.symm.trans hi
      exact hByte
    cases hFilled : b.isFilled j with
    | true => exact ⟨j, b, intern_eq_ok.mpr (.filled hKnown hFilled), hb, hLow⟩
    | false =>
      -- The slot was reserved, and is filled now.
      refine ⟨j, b₁.filledWith j e, intern_eq_ok.mpr (.reserved hKnown hFilled hRun), ?_, hLow⟩
      exact hb₁.filledWith hc (hGrows.index c j hKnown)
        (hGrows.unfilled c.not_mem_parts hKnown hFilled) hStands
  | none =>
    have hNew : b₁.index[c]? = none := (hGrows.other_index c c.not_mem_parts).trans hKnown
    -- Building the parts has not claimed a slot for `c`, as no constant is a part of itself.
    obtain ⟨i, b₂, hClaim⟩ := hb₁.exists_claim hc hNew
    refine ⟨i, b₂.filledWith i e, intern_eq_ok.mpr (.new hKnown hRun hClaim),
      hb₁.added hc hNew hClaim hStands, fun hL => ?_⟩
    obtain ⟨j, hj, -⟩ := hb.low c hL
    cases hKnown.symm.trans hj

open Encoder (makes build)

theorem runs_build (hP : P.Complete) (hc : P.Holds c)
    (hParts : ∀ d ∈ c.parts, Runs (Stocked P L) (constant d) fun _ => True) :
    Runs (Stocked P L) (build c) fun _ => True := by
  cases c with
  | utf8 value =>
    obtain ⟨i, hi⟩ := hc
    obtain ⟨e, he, -⟩ := hi.entry
    cases hi with
    | utf8 h =>
      obtain ⟨-, hSlot, -⟩ := Pool.entry_eq_ok.mp h
      have hShort := hP.short _ (Array.mem_toList_iff.mpr (Array.mem_of_getElem? hSlot))
      exact .guarded (Nat.not_lt.mpr hShort) (.pure trivial)
  | integer | float | long | double => exact .pure trivial
  | classRef s | string s | methodType s | module s | package s =>
    exact (hParts (.utf8 s) List.mem_cons_self).bind fun _ _ => .pure trivial
  | nameAndType v =>
    refine (hParts (.utf8 v.name) (by simp [Constant.parts, NameAndType.parts])).bind fun _ _ => ?_
    exact (hParts (.utf8 v.descriptor) (by simp [Constant.parts, NameAndType.parts])).bind
      fun _ _ => .pure trivial
  | member r =>
    refine (hParts (.classRef r.owner) (by simp [Constant.parts, MemberRef.parts])).bind
      fun _ _ => ?_
    exact (hParts (.nameAndType r.nameAndType) (by simp [Constant.parts, MemberRef.parts])).bind
      fun _ _ => .pure trivial
  | methodHandle kind r =>
    exact (hParts (.member r) List.mem_cons_self).bind fun _ _ => .pure trivial
  | dynamic bootstrap v | invokeDynamic bootstrap v =>
    exact (hParts (.nameAndType v) List.mem_cons_self).bind fun _ _ => .pure trivial

theorem runs_constant (hP : P.Complete) (hc : P.Holds c) :
    Runs (Stocked P L) (constant c) fun i => L c → i.toNat ≤ 255 := by
  -- A part has fewer parts than the constant that it is a part of.
  induction hLength : c.parts.length using Nat.strong_induction_on generalizing c with
  | _ n ih =>
    rw [Encoder.constant_eq_intern]
    apply runs_intern hc (makes c)
    apply runs_build hP hc
    intro d hd
    have hShorter := Constant.length_parts_lt hd
    exact (ih _ (hLength ▸ hShorter) (P.closed_holds c hc d hd) rfl).imp fun _ _ => trivial

/-- A builder that started from nothing supplies what it was started for. -/
theorem supplies_stocked (hP : P.Complete) : Encoder.Supplies P L (Stocked P L) where
  constant _ hc := runs_constant hP hc

end PoolBuilder

end Renaming
