import Renaming.Proofs.ClassFile.Stock

/-!
# Setting slots aside for `ldc`

Before anything else is written, a slot is set aside for each constant of an `ldc` instruction. All
of them were read from indices of one byte and take one slot each, so they are at most 255. If the
pool is laid out in advance, each is found at its first index, which is no greater than the one it
was read from.
-/

namespace Renaming

namespace PoolBuilder

variable {P : Pool} {L : Constant → Prop} {b b' : PoolBuilder} {c : Constant} {i : UInt16}

theorem reserveAll_cons {cs : List Constant} {b₁ : PoolBuilder} (h : reserve c b = .ok (i, b₁))
    (hRest : reserveAll cs b₁ = .ok ((), b')) : reserveAll (c :: cs) b = .ok ((), b') := by
  unfold reserveAll
  rw [List.forIn_cons]
  refine Stateful.bind_eq_ok.mpr ⟨.yield (), b₁, ?_, hRest⟩
  exact Stateful.bind_eq_ok.mpr ⟨i, b₁, h, rfl⟩

/-- A builder within the budget of `P` that has only been asked for constants of `L`. -/
structure Reserving (P : Pool) (L : Constant → Prop) (b : PoolBuilder) : Prop extends Kept P b where
  few : Affords P.NamesLow (fun _ => 1) 255 b.Knows b.entries.size
  low : ∀ (c : Constant) i, b.index[c]? = some i → L c ∧ i.toNat ≤ 255

theorem reserving_empty (hP : P.Complete) : Reserving P L empty where
  toKept := kept_empty hP
  few cs hNodup hAll := by
    have hLength := Pool.length_le_of_namesLow hNodup fun c hc => (hAll c hc).1
    simpa [empty] using hLength
  low c i h := by simp [empty] at h

theorem Reserving.claim (hb : Reserving P L b) (hLow : P.NamesLow c) (hc : L c)
    (hNew : b.index[c]? = none) (h : claim c b = .ok (i, b')) : Reserving P L b' := by
  have ⟨_, hNames, _, hWide⟩ := hLow
  have hGrows := grows_claim hb.sound hNew h
  have hRoom := hb.few.cost_le hLow (not_knows hNew)
  have hValue := claim_index_value h
  constructor
  · exact hb.toKept.claim hNames.holds hNew h
  · apply hb.few.pay hLow (not_knows hNew)
    · rintro d (hd | rfl)
      · exact hGrows.knows hd
      · exact ⟨i, (claim_index h).mpr (Or.inl ⟨rfl, rfl⟩)⟩
    · obtain ⟨-, -, rfl⟩ := claim_eq_ok h
      simp [size_slotsFor, hWide]
  · intro d k hd
    rcases (claim_index h).mp hd with ⟨rfl, rfl⟩ | ⟨-, hd⟩
    · exact ⟨hc, by omega⟩
    · exact hb.low d k hd

theorem exists_reserveAll {cs : List Constant} (h : ∀ c ∈ cs, L c ∧ P.NamesLow c)
    (hb : Reserving P L b) : ∃ b', reserveAll cs b = .ok ((), b') ∧ Reserving P L b' ∧
      (∀ c, b.Knows c → b'.Knows c) ∧ ∀ c ∈ cs, b'.Knows c := by
  induction cs generalizing b with
  | nil => exact ⟨b, rfl, hb, fun _ h => h, by simp⟩
  | cons c cs ih =>
    obtain ⟨⟨hc, hLow⟩, hRest⟩ := List.forall_mem_cons.mp h
    have hStep : ∃ i b₁, reserve c b = .ok (i, b₁) ∧ Reserving P L b₁ ∧
        (∀ d, b.Knows d → b₁.Knows d) ∧ b₁.Knows c := by
      cases hKnown : b.index[c]? with
      | some i => exact ⟨i, b, reserve_known hKnown, hb, fun _ h => h, i, hKnown⟩
      | none =>
        have ⟨_, hNames, _⟩ := hLow
        obtain ⟨i, b₁, hClaim⟩ := hb.exists_claim hNames.holds hKnown
        refine ⟨i, b₁, (reserve_new hKnown).trans hClaim, hb.claim hLow hc hKnown hClaim, ?_, i, ?_⟩
        · exact fun d => (grows_claim hb.sound hKnown hClaim).knows
        · exact (claim_index hClaim).mpr (Or.inl ⟨rfl, rfl⟩)
    obtain ⟨i, b₁, hReserve, hb₁, hOld, hNow⟩ := hStep
    obtain ⟨b₂, hAll, hb₂, hKeeps, hKnows⟩ := ih hRest hb₁
    refine ⟨b₂, reserveAll_cons hReserve hAll, hb₂, fun d hd => hKeeps d (hOld d hd), ?_⟩
    exact List.forall_mem_cons.mpr ⟨hKeeps c hNow, hKnows⟩

theorem exists_stocked (hP : P.Complete) {cs : List Constant} (h : ∀ c ∈ cs, P.NamesLow c) :
    ∃ b, reserveAll cs empty = .ok ((), b) ∧ Stocked P (· ∈ cs) b := by
  obtain ⟨b, hRun, hb, -, hKnows⟩ := exists_reserveAll (L := (· ∈ cs))
    (fun c hc => ⟨hc, h c hc⟩) (reserving_empty hP)
  refine ⟨b, hRun, hb.toKept, fun c hc => ?_, fun c i hi _ => (hb.low c i hi).1⟩
  exact (hKnows c hc).imp fun i hi => ⟨hi, (hb.low c i hi).2⟩

theorem reserveAll_of_knows {cs : List Constant} (h : ∀ c ∈ cs, b.Knows c) :
    reserveAll cs b = .ok ((), b) := by
  induction cs with
  | nil => rfl
  | cons c cs ih =>
    obtain ⟨⟨i, hi⟩, hRest⟩ := List.forall_mem_cons.mp h
    exact reserveAll_cons (reserve_known hi) (ih hRest)

theorem intern_filled {build : Encoder PoolEntry} (hi : b.index[c]? = some i)
    (hFilled : b.isFilled i = true) : intern c build b = .ok (i, b) :=
  intern_eq_ok.mpr (.filled hi hFilled)

theorem intern_reserved {build : Encoder PoolEntry} {b₁ : PoolBuilder} {e : PoolEntry}
    (hi : b.index[c]? = some i) (hUnfilled : b.isFilled i = false) (hBuild : build b = .ok (e, b₁)) :
    intern c build b = .ok (i, b₁.filledWith i e) :=
  intern_eq_ok.mpr (.reserved hi hUnfilled hBuild)

theorem index_le_of_foldl {j : UInt16} (hNames : P.Names j c) {n : Nat} (hn : n ≤ 65534)
    (h : ((List.range n).foldl (noteSlot P) ∅)[c]? = some i) : i.toNat ≤ j.toNat := by
  induction n with
  | zero => simp at h
  | succ n ih =>
    rw [List.range_succ, List.foldl_append, List.foldl_cons, List.foldl_nil] at h
    have hEarlier := (foldl_noteSlot (P := P) (List.range n) ∅ c).2
    generalize (List.range n).foldl (noteSlot P) ∅ = index at h ih hEarlier
    unfold noteSlot at h
    split at h
    · rw [note, Std.HashMap.getElem?_insertIfNew] at h
      split at h
      · rename_i hNew
        cases h
        -- The slot `n` counts for `c` only if none before it names `c`.
        by_contra hLt
        rw [UInt16.toNat_ofNat_of_lt' (by change _ < 65536; omega), Nat.not_le] at hLt
        have hPos := hNames.pos
        have hSome := hEarlier (Or.inr ⟨j.toNat - 1, List.mem_range.mpr (by omega), by
          rwa [Nat.sub_add_cancel hPos, UInt16.ofNat_toNat]⟩)
        exact hNew.2 (by simpa [eq_of_beq hNew.1] using hSome)
      · exact ih (by omega) h
    · exact ih (by omega) h

/-- The index of a constant is the first slot that names it. -/
theorem index_le_of_ofPool (hP : P.Complete) {j : UInt16} (h : (ofPool P).index[c]? = some i)
    (hNames : P.Names j c) : i.toNat ≤ j.toNat :=
  index_le_of_foldl hNames hP.size_le h

theorem supplies_ofPool (hP : P.Complete) (hL : ∀ c, L c → P.NamesLow c) :
    Encoder.Supplies P L (· = ofPool P) where
  constant c hc := by
    rintro _ rfl
    obtain ⟨i, hi, hFilled⟩ := covers_ofPool c hc
    refine ⟨i, ofPool P, ?_, rfl, fun h => ?_⟩
    · rw [Encoder.constant_eq_intern]
      exact intern_filled hi hFilled
    · obtain ⟨j, hNames, hByte, -⟩ := hL c h
      exact (index_le_of_ofPool hP hi hNames).trans hByte

theorem encode_of_full (h : ∀ k : Nat, b.entries[k]? ≠ some none) :
    b.encode = .ok b.pool.encode := by
  refine Outcome.bind_eq_ok.mpr ⟨b.pool.entries.toList.map PoolEntry.encode, ?_, ?_⟩
  · rw [Outcome.mapM_eq_ok, pool, Array.toList_map, List.map_map, List.forall₂_map_right_iff,
      List.forall₂_same]
    intro slot hSlot
    obtain ⟨k, hk⟩ := List.mem_iff_getElem?.mp hSlot
    cases slot with
    | none => exact absurd (by simpa using hk) (h k)
    | some e => rfl
  · simp [pool, Pool.encode]
    rfl

theorem pool_ofPool : (ofPool P).pool = P := by
  simp [pool, ofPool, Function.comp_def]

theorem encode_ofPool : (ofPool P).encode = .ok P.encode := by
  rw [encode_of_full, pool_ofPool]
  simp [ofPool]

theorem Kept.fills (hb : Kept P b) (h : b.pool.Names i c) : b.Fills c := by
  obtain ⟨e, he, -⟩ := h.entry
  exact ⟨i, hb.owned_all.index_of_names hb.sound h.pos h, isFilled_iff.mpr ⟨e, filled_of_entry he⟩⟩

theorem Stocked.encode (hb : Stocked P L b) (h : ∀ c, L c → b.pool.Holds c) :
    ∃ bytes, b.encode = .ok bytes ∧ bytes.length ≤ P.encode.length := by
  refine ⟨_, encode_of_full fun k hk => ?_, hb.bytes.spent_le⟩
  obtain ⟨c, i, hi, hPlace⟩ := hb.owned k none hk (by simp)
  -- A slot without an entry was reserved, but what was reserved has an entry in the end.
  have hUnfilled : b.isFilled i = false := by
    rw [← Bool.not_eq_true, isFilled_iff, hPlace, Nat.add_sub_cancel, hk]
    simp
  obtain ⟨_, hNames⟩ := h c (hb.waiting c i hi hUnfilled)
  obtain ⟨j, hj, hFilled⟩ := hb.fills hNames
  cases hi.symm.trans hj
  rw [hUnfilled] at hFilled
  cases hFilled

end PoolBuilder

end Renaming
