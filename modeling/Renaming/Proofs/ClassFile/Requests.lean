import Renaming.Proofs.ClassFile.Supply

/-!
# What any requests leave in a constant pool

A builder that starts from nothing, or from a pool that was read, is asked for indices in any order,
and a slot may be set aside for a constant before the constant itself is put. Whatever was asked, each
constant has one index, which leads to the constant as soon as it was put. The slots of the start stay
as they were, and behind them no constant has a second slot.

A request claims slots and fills them, so what these two steps keep is kept by every request.
-/

namespace Renaming

namespace PoolBuilder

/-- `I` is kept when a slot is claimed for a new constant, and when one that was set aside is filled. -/
structure Stable (I : PoolBuilder → Prop) : Prop where
  claim : ∀ (b b' : PoolBuilder) (c : Constant) (i : UInt16), b.Sound → I b → b.index[c]? = none →
    PoolBuilder.claim c b = .ok (i, b') → I b'
  filledWith : ∀ (b : PoolBuilder) (c : Constant) (i : UInt16) (e : PoolEntry), b.Sound → I b →
    b.index[c]? = some i → b.isFilled i = false → I (b.filledWith i e)

end PoolBuilder

namespace Encoder

open PoolBuilder

variable {I : PoolBuilder → Prop} {α β : Type} {x : Encoder α}

def Keeps (I : PoolBuilder → Prop) (x : Encoder α) : Prop :=
  ∀ b : PoolBuilder, b.Sound → I b → ∀ a b', x b = .ok (a, b') → b'.Sound ∧ I b'

namespace Keeps

theorem pure {a : α} : Keeps I (Pure.pure a) := by
  intro b hb hI a' b' hRun
  obtain ⟨rfl, rfl⟩ := Stateful.pure_eq_ok.mp hRun
  exact ⟨hb, hI⟩

theorem bind {f : α → Encoder β} (hx : Keeps I x) (hf : ∀ a, Keeps I (f a)) :
    Keeps I (x >>= f) := by
  intro b hb hI c b'' hRun
  obtain ⟨a, b', hx', hf'⟩ := Stateful.bind_eq_ok.mp hRun
  obtain ⟨hb', hI'⟩ := hx b hb hI a b' hx'
  exact hf a b' hb' hI' c b'' hf'

theorem throw {e : WriteError} : Keeps I (MonadExcept.throw e : Encoder α) :=
  fun _ _ _ _ _ hRun => absurd hRun Stateful.throw_ne_ok

end Keeps

/-- A constant has its entry already, or its entry is made, after which the slot for it is there and
without an entry. -/
theorem constant_cases {b b' : PoolBuilder} {c : Constant} {i : UInt16} (hb : b.Sound)
    (h : constant c b = .ok (i, b')) :
    (b.index[c]? = some i ∧ b.isFilled i = true ∧ b' = b) ∨
      ∃ e b₁ b₂, build c b = .ok (e, b₁) ∧ b₁.Sound ∧
        (b₂ = b₁ ∨ b₁.index[c]? = none ∧ claim c b₁ = .ok (i, b₂)) ∧
        b₂.Sound ∧ b₂.index[c]? = some i ∧ b₂.isFilled i = false ∧ b' = b₂.filledWith i e := by
  rw [constant_eq_intern] at h
  cases intern_eq_ok.mp h with
  | filled hIndex hFilled => exact .inl ⟨hIndex, hFilled, rfl⟩
  | @reserved e b₁ hIndex hUnfilled hBuild =>
    obtain ⟨hb₁, hGrows, -⟩ := makes c b hb e b₁ hBuild
    exact .inr ⟨e, b₁, b₁, hBuild, hb₁, .inl rfl, hb₁, hGrows.index c i hIndex,
      hGrows.unfilled c.not_mem_parts hIndex hUnfilled, rfl⟩
  | @new e b₁ b₂ hIndex hBuild hClaim =>
    obtain ⟨hb₁, hGrows, -⟩ := makes c b hb e b₁ hBuild
    -- No constant is a part of itself, so making the entry has not claimed a slot for it.
    have hNew : b₁.index[c]? = none := (hGrows.other_index c c.not_mem_parts).trans hIndex
    exact .inr ⟨e, b₁, b₂, hBuild, hb₁, .inr ⟨hNew, hClaim⟩, sound_claim hb₁ hNew hClaim,
      (claim_index hClaim).mpr (.inl ⟨rfl, rfl⟩), claim_unfilled hClaim, rfl⟩

section Constants

variable (hI : Stable I)

include hI

theorem keeps_of_build {c : Constant} (h : Keeps I (build c)) : Keeps I (constant c) := by
  intro b hb hInv i b' hRun
  refine ⟨(emits_constant Constant.closed_univ trivial b hb i b' hRun).1, ?_⟩
  obtain ⟨-, -, rfl⟩ | ⟨e, b₁, b₂, hBuild, hb₁, hSlot, hb₂, hi, hUnfilled, rfl⟩ :=
    constant_cases hb hRun
  · exact hInv
  · have hInv₁ : I b₁ := (h b hb hInv e b₁ hBuild).2
    have hInv₂ : I b₂ := by
      obtain rfl | ⟨hNew, hClaim⟩ := hSlot
      · exact hInv₁
      · exact hI.claim b₁ b₂ c i hb₁ hInv₁ hNew hClaim
    exact hI.filledWith b₂ c i e hb₂ hInv₂ hi hUnfilled

theorem keeps_constant (c : Constant) : Keeps I (constant c) :=
  constant_induction (M := fun x => Keeps I x) (fun _ => .pure) .bind (fun _ => .throw)
    (fun _ => keeps_of_build hI) c

theorem keeps_reserve (c : Constant) : Keeps I (reserve c) := by
  intro b hb hInv i b' hRun
  refine ⟨(emits_reserve b hb i b' hRun).1, ?_⟩
  cases hKnown : b.index[c]? with
  | some j =>
    rw [reserve_known hKnown] at hRun
    cases hRun
    exact hInv
  | none =>
    rw [reserve_new hKnown] at hRun
    exact hI.claim b b' c i hb hInv hKnown hRun

end Constants

end Encoder

namespace PoolBuilder

variable {P : Pool} {b b' : PoolBuilder} {c : Constant} {i : UInt16}

/-- The builder started from `P`, and each slot that it has added belongs to a constant. -/
structure Spans (P : Pool) (b : PoolBuilder) : Prop where
  slot : ∀ (k : Nat) e, P.entries[k]? = some e → b.entries[k]? = some (some e)
  index : ∀ (c : Constant) i, (ofPool P).index[c]? = some i → b.index[c]? = some i
  owned : b.Owned P.entries.size

theorem spans_ofPool : Spans P (ofPool P) where
  slot _ _ := ofPool_slot.mpr
  index _ _ h := h
  owned k slot hk h := by
    obtain ⟨hLt, -⟩ := Array.getElem?_eq_some_iff.mp h
    rw [ofPool, Array.size_map] at hLt
    omega

theorem stable_spans : Stable (Spans P) where
  claim b b' c i hb hSpans hNew hClaim := by
    have hGrows := grows_claim hb hNew hClaim
    exact ⟨fun k e he => hGrows.filled k e (hSpans.slot k e he),
      fun d j hj => hGrows.index d j (hSpans.index d j hj), hSpans.owned.claim hb hNew hClaim⟩
  filledWith b c i e hb hSpans hi hUnfilled := by
    have hGrows := grows_filledWith (e := e) hb hi hUnfilled
    exact ⟨fun k e' he => hGrows.filled k e' (hSpans.slot k e' he),
      fun d j hj => hGrows.index d j (hSpans.index d j hj), hSpans.owned.filledWith hb hi⟩

namespace Spans

variable (h : Spans P b) (hb : b.Sound)

include h hb

omit hb in
theorem empty_of_completes {es : List PoolEntry} {k : Nat} (hes : Completes es b)
    (hEmpty : es[k]? = some .empty) : b.entries[k]? = some (some .empty) := by
  obtain ⟨hLt, -⟩ := List.getElem?_eq_some_iff.mp hEmpty
  rw [hes.length_eq] at hLt
  cases hSlot : b.entries[k] with
  | some e =>
    have hFilled : b.entries[k]? = some (some e) := Array.getElem?_eq_some_iff.mpr ⟨hLt, hSlot⟩
    rw [hFilled, ← hes.filled k e hFilled, hEmpty]
  | none =>
    -- A slot without an entry belongs to a constant, which does not fit an empty slot.
    have hOpen : b.entries[k]? = some none := Array.getElem?_eq_some_iff.mpr ⟨hLt, hSlot⟩
    have hBehind : P.entries.size ≤ k := by
      by_contra hInside
      have hOld := h.slot k _ (Array.getElem?_eq_getElem (Nat.lt_of_not_le hInside))
      rw [hOpen] at hOld
      cases hOld
    obtain ⟨c, i, hi, hPlace⟩ := h.owned k none hBehind hOpen (by simp)
    obtain ⟨-, e, he, hEntry, -⟩ := hes.width c i hi
    rw [hPlace, Nat.add_sub_cancel, hEmpty] at he
    exact absurd (Option.some.inj he).symm hEntry

theorem empty_behind_entry {k : Nat} {e : PoolEntry} (he : b.entries[k]? = some (some e))
    (hWide : e.isWide = true) : b.entries[k + 1]? = some (some .empty) := by
  obtain ⟨es, hes⟩ := hb.completion
  exact h.empty_of_completes hes (hes.laid.empty_behind (hes.filled k e he) hWide)

/-- The slot behind that of a long or double is empty, even if the constant is not there yet. -/
theorem empty_behind_index (hi : b.index[c]? = some i) (hWide : c.isWide = true) :
    b.entries[i.toNat]? = some (some .empty) := by
  obtain ⟨es, hes⟩ := hb.completion
  obtain ⟨hPos, e, he, -, hWidth⟩ := hes.width c i hi
  have hNext := hes.laid.empty_behind he (hWidth.trans hWide)
  rw [Nat.sub_add_cancel hPos] at hNext
  exact h.empty_of_completes hes hNext

omit hb in
theorem index_le (hHolds : P.Holds c) (hi : b.index[c]? = some i) : i.toNat ≤ P.entries.size := by
  obtain ⟨j, hj, -⟩ := covers_ofPool c hHolds
  obtain ⟨e, he, -⟩ := (names_of_ofPool hj).entry
  obtain ⟨hPos, hSlot, -⟩ := Pool.entry_eq_ok.mp he
  obtain ⟨hLt, -⟩ := Array.getElem?_eq_some_iff.mp hSlot
  obtain rfl := Option.some.inj (hi.symm.trans (h.index c j hj))
  omega

end Spans

theorem Sound.not_empty (hb : b.Sound) (hi : b.index[c]? = some i) :
    b.entries[i.toNat - 1]? ≠ some (some .empty) := by
  obtain ⟨es, hes⟩ := hb.completion
  obtain ⟨-, e, he, hEntry, -⟩ := hes.width c i hi
  intro hEmpty
  exact hEntry (Option.some.inj (he.symm.trans (hes.filled _ _ hEmpty)))

/-- What a builder can be asked for. -/
inductive Request where
  /-- An index for a constant. -/
  | reserve (c : Constant)
  /-- An index that leads to a constant. -/
  | put (c : Constant)

def Request.constant : Request → Constant
  | reserve c | put c => c

def Request.answer : Request → Encoder UInt16
  | reserve c => PoolBuilder.reserve c
  | put c => PoolBuilder.constant c

/-- From `start` on, all requests of `log` were answered with the indices there, the last one first, and
have led to `b`. -/
inductive Answered (start : PoolBuilder) : List (Request × UInt16) → PoolBuilder → Prop
  | start : Answered start [] start
  | next {log : List (Request × UInt16)} {b b' : PoolBuilder} {r : Request} {i : UInt16}
      (h : Answered start log b) (hRun : r.answer b = .ok (i, b')) :
      Answered start ((r, i) :: log) b'

theorem index_of_reserve (h : reserve c b = .ok (i, b')) : b'.index[c]? = some i := by
  cases hKnown : b.index[c]? with
  | some j =>
    rw [reserve_known hKnown] at h
    cases h
    exact hKnown
  | none =>
    rw [reserve_new hKnown] at h
    exact (claim_index h).mpr (Or.inl ⟨rfl, rfl⟩)

theorem index_of_constant (hb : b.Sound) (h : constant c b = .ok (i, b')) :
    b'.index[c]? = some i ∧ b'.isFilled i = true := by
  obtain ⟨hi, hFilled, rfl⟩ | ⟨e, b₁, b₂, -, -, -, hb₂, hi, -, rfl⟩ := Encoder.constant_cases hb h
  · exact ⟨hi, hFilled⟩
  · exact ⟨hi, (filledWith_isFilled hb₂ hi).mpr (.inl rfl)⟩

/-- The index that was answered, and whether a slot has to hold the constant by now. -/
def Request.Served (r : Request) (i : UInt16) (b : PoolBuilder) : Prop :=
  b.index[r.constant]? = some i ∧ ∀ c, r = .put c → b.isFilled i = true

theorem Request.Served.grows {r : Request} {K : Constant → Prop} (h : r.Served i b)
    (hGrows : Grows K b b') : r.Served i b' :=
  ⟨hGrows.index _ _ h.1, fun c hc => hGrows.isFilled (h.2 c hc)⟩

theorem Request.answer_spec {r : Request} (hb : b.Sound) (hSpans : Spans P b)
    (h : r.answer b = .ok (i, b')) :
    b'.Sound ∧ Spans P b' ∧ Grows (fun _ => True) b b' ∧ r.Served i b' := by
  cases r with
  | reserve c =>
    obtain ⟨hb', hSpans'⟩ := Encoder.keeps_reserve stable_spans c b hb hSpans i b' h
    have hGrows := (Encoder.emits_reserve b hb i b' h).2.1
    exact ⟨hb', hSpans', hGrows.mono fun _ _ => trivial, index_of_reserve h, nofun⟩
  | put c =>
    obtain ⟨hb', hSpans'⟩ := Encoder.keeps_constant stable_spans c b hb hSpans i b' h
    have hGrows := (Encoder.emits_constant Constant.closed_univ trivial b hb i b' h).2.1
    obtain ⟨hIndex, hFilled⟩ := index_of_constant hb h
    exact ⟨hb', hSpans', hGrows, hIndex, fun _ _ => hFilled⟩

theorem Answered.spec {log : List (Request × UInt16)} (hP : P.Complete)
    (h : Answered (ofPool P) log b) :
    b.Sound ∧ Spans P b ∧ ∀ p ∈ log, p.1.Served p.2 b := by
  induction h with
  | start => exact ⟨sound_ofPool hP, spans_ofPool, nofun⟩
  | next h hRun ih =>
    obtain ⟨hb, hSpans, hServed⟩ := ih
    obtain ⟨hb', hSpans', hGrows, hNow⟩ := Request.answer_spec hb hSpans hRun
    exact ⟨hb', hSpans', List.forall_mem_cons.mpr ⟨hNow, fun p hp => (hServed p hp).grows hGrows⟩⟩

def startingFrom (seed : Option Pool) : PoolBuilder := seed.elim empty ofPool

def seedSize (seed : Option Pool) : Nat := seed.elim 0 fun P => P.entries.size

/-- What holds of the builder `b` that has answered the requests of `log`, starting from `seed`. -/
structure Registers (seed : Option Pool) (log : List (Request × UInt16)) (b : PoolBuilder) :
    Prop where
  /-- Requests for one constant, and only these, are answered with one index. -/
  index_eq_iff : ∀ r i r' i', (r, i) ∈ log → (r', i') ∈ log → (i = i' ↔ r.constant = r'.constant)
  constant_eq : ∀ c i, (.put c, i) ∈ log → b.pool.constant i = .ok c
  seed_slot : ∀ P ∈ seed, ∀ (k : Nat) e, P.entries[k]? = some e → b.entries[k]? = some (some e)
  /-- Behind them, no constant has two slots. -/
  once : ∀ c i j, seedSize seed < i.toNat → seedSize seed < j.toNat → b.pool.constant i = .ok c →
    b.pool.constant j = .ok c → i = j
  /-- Behind them, no constant has a slot that the seed has one for. -/
  absent : ∀ c i, seedSize seed < i.toNat → b.pool.constant i = .ok c →
    ∀ P ∈ seed, ∀ j, P.constant j ≠ .ok c
  empty_behind : ∀ (k : Nat) e, b.entries[k]? = some (some e) → e.isWide = true →
    b.entries[k + 1]? = some (some .empty)
  /-- The same holds for a slot that is only set aside. -/
  empty_reserved : ∀ r i, (r, i) ∈ log → r.constant.isWide = true →
    b.entries[i.toNat]? = some (some .empty)
  not_empty : ∀ r i, (r, i) ∈ log → b.entries[i.toNat - 1]? ≠ some (some .empty)
  inside : ∀ r i, (r, i) ∈ log → 0 < i.toNat ∧ i.toNat ≤ b.entries.size
  count_le : b.entries.size + 1 ≤ 65535
  /-- The number that is written is the number of slots and one more. -/
  count_eq : ∀ bytes, b.encode = .ok bytes → Bytes.toNatBE (bytes.take 2) = b.entries.size + 1

theorem startingFrom_eq (seed : Option Pool) : startingFrom seed = ofPool (seed.getD ⟨#[]⟩) := by
  cases seed with
  | none => simp [startingFrom, empty, ofPool]
  | some P => rfl

theorem seedSize_eq (seed : Option Pool) : seedSize seed = (seed.getD ⟨#[]⟩).entries.size := by
  cases seed <;> rfl

theorem complete_getD {seed : Option Pool} (hSeed : ∀ P ∈ seed, P.Complete) :
    (seed.getD ⟨#[]⟩).Complete := by
  cases seed with
  | none => exact ⟨Nat.zero_le _, .nil, nofun⟩
  | some P => exact hSeed P rfl

theorem count_of_encode {bytes : Bytes} (hb : b.Sound) (h : b.encode = .ok bytes) :
    Bytes.toNatBE (bytes.take 2) = b.entries.size + 1 := by
  obtain ⟨P, hEntries, hP, rfl⟩ := encode_eq_ok hb h
  have hSize : b.entries.size = P.entries.size := by rw [hEntries, Array.size_map]
  have hCount : (UInt16.ofNat (P.entries.size + 1)).toNat = P.entries.size + 1 := by
    have := hP.size_le
    rw [UInt16.toNat_ofNat', Nat.mod_eq_of_lt (by omega)]
  rw [Pool.encode, List.take_left' (Bytes.length_u2 _), Bytes.u2, Bytes.toNatBE_ofNatBE, hCount, hSize]
  exact Nat.mod_eq_of_lt (by have := hP.size_le; change _ < 65536; omega)

/-- Whatever requests were answered, starting from nothing or from a pool that was read, the builder is
a register of the constants. -/
theorem registers_of_answered {seed : Option Pool}
    (hSeed : ∀ P ∈ seed, ∃ bytes rest, Pool.decode bytes = .ok (P, rest))
    {log : List (Request × UInt16)} (h : Answered (startingFrom seed) log b) :
    Registers seed log b := by
  have hComplete : (seed.getD ⟨#[]⟩).Complete := complete_getD fun P hP => by
    obtain ⟨bytes, rest, hRead⟩ := hSeed P hP
    exact Pool.decode_eq_ok hRead
  have hGetD : ∀ P ∈ seed, seed.getD ⟨#[]⟩ = P := by
    rintro P rfl
    rfl
  rw [startingFrom_eq] at h
  obtain ⟨hb, hSpans, hServed⟩ := h.spec hComplete
  have hIndex : ∀ r i, (r, i) ∈ log → b.index[r.constant]? = some i :=
    fun r i hMem => (hServed (r, i) hMem).1
  have hBehind : ∀ c i, seedSize seed < i.toNat → b.pool.constant i = .ok c →
      b.index[c]? = some i := fun c i hi hNames =>
    hSpans.owned.index_of_names hb (seedSize_eq seed ▸ hi) (Pool.constant_eq_ok.mp hNames)
  constructor
  · intro r i r' i' hMem hMem'
    have hi := hIndex r i hMem
    have hi' := hIndex r' i' hMem'
    constructor
    · rintro rfl
      exact hb.injective _ _ i hi hi'
    · intro hSame
      rw [hSame] at hi
      exact Option.some.inj (hi.symm.trans hi')
  · intro c i hMem
    have hFilled := (hServed (.put c, i) hMem).2 c rfl
    exact Pool.constant_eq_ok.mpr (hb.named c i (hIndex _ i hMem) hFilled _ b.fitsIn_pool)
  · intro P hP k e he
    exact hSpans.slot k e (hGetD P hP ▸ he)
  · intro c i j hi hj hNames hNames'
    exact Option.some.inj ((hBehind c i hi hNames).symm.trans (hBehind c j hj hNames'))
  · intro c i hi hNames P hP j hHolds
    have hOld : (seed.getD ⟨#[]⟩).Holds c := ⟨j, Pool.constant_eq_ok.mp (hGetD P hP ▸ hHolds)⟩
    have hLe := hSpans.index_le hOld (hBehind c i hi hNames)
    rw [seedSize_eq] at hi
    omega
  · exact fun k e => hSpans.empty_behind_entry hb
  · exact fun r i hMem => hSpans.empty_behind_index hb (hIndex r i hMem)
  · exact fun r i hMem => hb.not_empty (hIndex r i hMem)
  · exact fun r i hMem => hb.index_bounds (hIndex r i hMem)
  · exact Nat.succ_le_succ hb.size_le
  · exact fun bytes => count_of_encode hb

/-- The name of the class lies behind the end of the pool, where a constant that is added comes to stand. -/
def danglingPool : Pool := ⟨#[.classRef 4]⟩

theorem registers_of_answered_dangling : ∃ b : PoolBuilder,
    Pool.decode [0, 2, 7, 0, 4] = .ok (danglingPool, []) ∧
      Answered (startingFrom (some danglingPool)) [(.put (.long 5), 2), (.put (.classRef "A"), 5),
        (.reserve (.long 5), 2)] b ∧
      Registers (some danglingPool) [(.put (.long 5), 2), (.put (.classRef "A"), 5),
        (.reserve (.long 5), 2)] b ∧
      b.pool.constant 1 = .ok (.classRef "A") ∧ b.pool.constant 5 = .ok (.classRef "A") := by
  have hRead : Pool.decode [0, 2, 7, 0, 4] = .ok (danglingPool, []) := rfl
  have hStart : startingFrom (some danglingPool) = ⟨#[some (.classRef 4)], ∅⟩ := by
    have hIndex : (ofPool danglingPool).index = ∅ := rfl
    have hEntries : (ofPool danglingPool).entries = #[some (.classRef 4)] := by
      simp [ofPool, danglingPool]
    rw [← hIndex, ← hEntries]
    rfl
  have hReserve : reserve (.long 5) ⟨#[some (.classRef 4)], ∅⟩ =
      .ok (2, ⟨#[some (.classRef 4), none, some .empty],
        (∅ : Std.HashMap Constant UInt16).insert (.long 5) 2⟩) :=
    (reserve_new (by simp)).trans rfl
  generalize hIndex : (∅ : Std.HashMap Constant UInt16).insert (.long 5) 2 = index at hReserve
  have hNoText : index[Constant.utf8 "A"]? = none := by simp [← hIndex]
  have hNoClass : (index.insert (.utf8 "A") 4)[Constant.classRef "A"]? = none := by simp [← hIndex]
  have hKnown : ((index.insert (.utf8 "A") 4).insert (.classRef "A") 5)[Constant.long 5]? =
      some 2 := by
    simp [← hIndex, Std.HashMap.getElem_insert]
  have hTextClaim : claim (.utf8 "A") ⟨#[some (.classRef 4), none, some .empty], index⟩ =
      .ok (4, ⟨#[some (.classRef 4), none, some .empty, none], index.insert (.utf8 "A") 4⟩) := rfl
  have hText : utf8 "A" ⟨#[some (.classRef 4), none, some .empty], index⟩ =
      .ok (4, ⟨#[some (.classRef 4), none, some .empty, some (.utf8 "A")],
        index.insert (.utf8 "A") 4⟩) := Encoder.intern_new hNoText rfl hTextClaim
  have hClassClaim : claim (.classRef "A")
      ⟨#[some (.classRef 4), none, some .empty, some (.utf8 "A")], index.insert (.utf8 "A") 4⟩ =
      .ok (5, ⟨#[some (.classRef 4), none, some .empty, some (.utf8 "A"), none],
        (index.insert (.utf8 "A") 4).insert (.classRef "A") 5⟩) := rfl
  have hClass : constant (.classRef "A") ⟨#[some (.classRef 4), none, some .empty], index⟩ =
      .ok (5, ⟨#[some (.classRef 4), none, some .empty, some (.utf8 "A"), some (.classRef 4)],
        (index.insert (.utf8 "A") 4).insert (.classRef "A") 5⟩) :=
    Encoder.intern_new (by simp [← hIndex]) (Stateful.bind_eq_ok.mpr ⟨4, _, hText, rfl⟩) hClassClaim
  generalize (index.insert (.utf8 "A") 4).insert (.classRef "A") 5 = index' at hKnown hClass
  have hMake : Encoder.build (.long 5)
      ⟨#[some (.classRef 4), none, some .empty, some (.utf8 "A"), some (.classRef 4)], index'⟩ =
      .ok (.long 5, ⟨#[some (.classRef 4), none, some .empty, some (.utf8 "A"),
        some (.classRef 4)], index'⟩) := rfl
  have hLong : constant (.long 5)
      ⟨#[some (.classRef 4), none, some .empty, some (.utf8 "A"), some (.classRef 4)], index'⟩ =
      .ok (2, ⟨#[some (.classRef 4), some (.long 5), some .empty, some (.utf8 "A"),
        some (.classRef 4)], index'⟩) :=
    intern_eq_ok.mpr (.reserved hKnown rfl hMake)
  rw [← hStart] at hReserve
  have hAnswered : Answered (startingFrom (some danglingPool)) [(.put (.long 5), 2),
      (.put (.classRef "A"), 5), (.reserve (.long 5), 2)] _ :=
    .next (.next (.next .start hReserve) hClass) hLong
  have hRegisters : Registers (some danglingPool) [(.put (.long 5), 2),
      (.put (.classRef "A"), 5), (.reserve (.long 5), 2)] _ :=
    registers_of_answered (fun P hP => ⟨_, _, Option.some.inj hP ▸ hRead⟩) hAnswered
  refine ⟨_, hRead, hAnswered, hRegisters, ?_, hRegisters.constant_eq _ 5 (by simp)⟩
  have hPool : pool ⟨#[some (.classRef 4), some (.long 5), some .empty, some (.utf8 "A"),
      some (.classRef 4)], index'⟩ =
      ⟨#[.classRef 4, .long 5, .empty, .utf8 "A", .classRef 4]⟩ := by simp [pool]
  rw [hPool]
  rfl

end PoolBuilder

end Renaming
