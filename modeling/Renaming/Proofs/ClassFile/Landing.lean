import Renaming.Proofs.ClassFile.Built

/-!
# Where the constants of `ldc` instructions land

If attributes are kept as bytes, their pool comes first, and the constants of `ldc` instructions that it
does not have get the slots behind it, in the order in which they are asked for. Whether these indices
fit one byte decides whether the class can be written: if all of them do, no `ldc` instruction stands in
the way, and if one does not, there is no file.
-/

namespace Renaming

open Encoder (Built)

namespace Pool

/-- The first index that leads to `c`. -/
def firstIndex (P : Pool) (c : Constant) : Option Nat :=
  ((List.range P.entries.size).find? fun k =>
    (P.constant (UInt16.ofNat (k + 1))).toOption = some c).map (· + 1)

/-- Those of `cs` that the pool does not have, each once, in order. -/
def newcomers (P : Pool) (cs : List Constant) : List Constant :=
  (cs.filter fun c => (P.firstIndex c).isNone).eraseDups

/-- The index that `c` gets if slots are set aside for `cs` behind the pool, one for each constant. -/
def landing (P : Pool) (cs : List Constant) (c : Constant) : Nat :=
  (P.firstIndex c).getD (P.entries.size + (P.newcomers cs).idxOf c + 1)

theorem le_of_firstIndex {P : Pool} {c : Constant} {n : Nat} (h : P.firstIndex c = some n) :
    n ≤ P.entries.size := by
  obtain ⟨k, hk, rfl⟩ := Option.map_eq_some_iff.mp h
  exact List.mem_range.mp (List.mem_of_find?_eq_some hk)

end Pool

namespace PoolBuilder

variable {P : Pool} {b b' : PoolBuilder} {c : Constant} {i : UInt16}

theorem getElem?_noteSlot (index : Std.HashMap Constant UInt16) (k : Nat) :
    (noteSlot P index k)[c]? = index[c]?.or
      (if (P.constant (UInt16.ofNat (k + 1))).toOption = some c then some (UInt16.ofNat (k + 1))
        else none) := by
  unfold noteSlot
  generalize UInt16.ofNat (k + 1) = i
  cases P.constant i with
  | error e => simp [Except.toOption]
  | ok d =>
    have hSlot : (Except.ok d : Except ReadError Constant).toOption = some c ↔ d = c := by
      simp [Except.toOption]
    simp only [note, Std.HashMap.getElem?_insertIfNew, hSlot, beq_iff_eq]
    by_cases hd : d = c
    · subst hd
      cases hKnown : index[d]? with
      | none => simp [Std.HashMap.mem_iff_isSome_getElem?, hKnown]
      | some j => simp [Std.HashMap.mem_iff_isSome_getElem?, hKnown]
    · simp [hd]

theorem getElem?_foldl_noteSlot (n : Nat) : ((List.range n).foldl (noteSlot P) ∅)[c]? =
    ((List.range n).find? fun k => (P.constant (UInt16.ofNat (k + 1))).toOption = some c).map
      fun k => UInt16.ofNat (k + 1) := by
  induction n with
  | zero => simp
  | succ n ih =>
    rw [List.range_succ, List.foldl_append, List.foldl_cons, List.foldl_nil, getElem?_noteSlot, ih,
      List.find?_append, Option.map_or, List.find?_singleton]
    congr 1
    split <;> simp_all

theorem getElem?_ofPool : (ofPool P).index[c]? = (P.firstIndex c).map UInt16.ofNat := by
  rw [Pool.firstIndex, Option.map_map]
  exact getElem?_foldl_noteSlot P.entries.size

def newcomers (b : PoolBuilder) (cs : List Constant) : List Constant :=
  (cs.filter fun c => b.index[c]?.isNone).eraseDups

theorem newcomers_ofPool (cs : List Constant) : (ofPool P).newcomers cs = P.newcomers cs := by
  simp [newcomers, Pool.newcomers, getElem?_ofPool]

theorem newcomers_of_knows {cs : List Constant} (h : b.index[c]? = some i) :
    b.newcomers (c :: cs) = b.newcomers cs := by
  simp [newcomers, h]

theorem newcomers_of_claim {cs : List Constant} (hNew : b.index[c]? = none)
    (hClaim : claim c b = .ok (i, b')) : b.newcomers (c :: cs) = c :: b'.newcomers cs := by
  have hStill (d : Constant) : b'.index[d]?.isNone = (!(d == c) && b.index[d]?.isNone) := by
    obtain ⟨-, -, rfl⟩ := claim_eq_ok hClaim
    rw [Std.HashMap.getElem?_insert]
    by_cases hd : d = c
    · simp [hd]
    · simp [hd, Ne.symm hd]
  simp only [newcomers, List.filter_cons, hNew, Option.isNone_none, if_true, List.eraseDups_cons,
    List.filter_filter, hStill]

theorem reserveAll_eq_ok {cs : List Constant} (h : reserveAll (c :: cs) b = .ok ((), b')) :
    ∃ i b₁, reserve c b = .ok (i, b₁) ∧ reserveAll cs b₁ = .ok ((), b') := by
  rw [reserveAll, List.forIn_cons] at h
  obtain ⟨step, b₁, hStep, hRest⟩ := Stateful.bind_eq_ok.mp h
  obtain ⟨i, b₂, hReserve, hDone⟩ := Stateful.bind_eq_ok.mp hStep
  obtain ⟨rfl, rfl⟩ := Stateful.pure_eq_ok.mp hDone
  exact ⟨i, b₁, hReserve, hRest⟩

theorem index_of_reserveAll {cs : List Constant} (hNarrow : ∀ c ∈ cs, c.isWide = false)
    (hRun : reserveAll cs b = .ok ((), b')) (hc : c ∈ cs ∨ (b.index[c]?).isSome) :
    ∃ i, b'.index[c]? = some i ∧ i.toNat = (b.index[c]?.map UInt16.toNat).getD
      (b.entries.size + (b.newcomers cs).idxOf c + 1) := by
  -- For every builder: a constant that is new takes the next slot, and those behind it are counted from
  -- there on.
  induction cs generalizing b with
  | nil =>
    obtain ⟨i, hi⟩ := Option.isSome_iff_exists.mp (hc.resolve_left List.not_mem_nil)
    cases hRun
    exact ⟨i, hi, by simp [hi]⟩
  | cons d cs ih =>
    obtain ⟨hFirst, hOthers⟩ := List.forall_mem_cons.mp hNarrow
    obtain ⟨j, b₁, hReserve, hRest⟩ := reserveAll_eq_ok hRun
    cases hKnown : b.index[d]? with
    | some k =>
      rw [reserve_known hKnown] at hReserve
      cases hReserve
      rw [newcomers_of_knows hKnown]
      refine ih hOthers hRest ?_
      rcases hc with hc | hc
      · rcases List.mem_cons.mp hc with rfl | hc
        · exact Or.inr (by simp [hKnown])
        · exact Or.inl hc
      · exact Or.inr hc
    | none =>
      rw [reserve_new hKnown] at hReserve
      have hValue := claim_index_value hReserve
      have hSize : b₁.entries.size = b.entries.size + 1 := by
        obtain ⟨-, -, rfl⟩ := claim_eq_ok hReserve
        simp [slotsFor, hFirst]
      rw [newcomers_of_claim hKnown hReserve]
      by_cases hcd : c = d
      · subst hcd
        have hNow : b₁.index[c]? = some j := (claim_index hReserve).mpr (Or.inl ⟨rfl, rfl⟩)
        obtain ⟨i, hi, hPlace⟩ := ih hOthers hRest (Or.inr (by simp [hNow]))
        refine ⟨i, hi, hPlace.trans ?_⟩
        simp [hNow, hKnown, hValue]
      · have hSame : b₁.index[c]? = b.index[c]? := by
          apply Option.ext
          intro k
          rw [claim_index hReserve]
          simp [hcd]
        have hMem : c ∈ cs ∨ (b₁.index[c]?).isSome := by
          rw [hSame]
          exact hc.imp_left fun hc => (List.mem_cons.mp hc).resolve_left hcd
        obtain ⟨i, hi, hPlace⟩ := ih hOthers hRest hMem
        refine ⟨i, hi, hPlace.trans ?_⟩
        rw [hSame, hSize, List.idxOf_cons_ne _ (Ne.symm hcd)]
        congr 1
        omega

/-- Behind a pool that is laid out, slots are set aside where the constants are said to land. -/
theorem index_of_landing {cs : List Constant} (hP : P.Complete)
    (hNarrow : ∀ c ∈ cs, c.isWide = false) (hRun : reserveAll cs (ofPool P) = .ok ((), b))
    (hc : c ∈ cs) : ∃ i, b.index[c]? = some i ∧ i.toNat = P.landing cs c := by
  obtain ⟨i, hi, hPlace⟩ := index_of_reserveAll hNarrow hRun (Or.inl hc)
  refine ⟨i, hi, hPlace.trans ?_⟩
  rw [newcomers_ofPool, getElem?_ofPool, Pool.landing]
  cases hFirst : P.firstIndex c with
  | none => simp [ofPool]
  | some n =>
    have hBound := Pool.le_of_firstIndex hFirst
    have hSize := hP.size_le
    simp [UInt16.toNat_ofNat', Nat.mod_eq_of_lt (show n < 65536 by omega)]

theorem landing_le_of_namesLow {cs : List Constant} (hP : P.Complete) (h : P.NamesLow c) :
    P.landing cs c ≤ 255 := by
  obtain ⟨j, hNames, hByte, -⟩ := h
  obtain ⟨i, hi, -⟩ := covers_ofPool c hNames.holds
  have hLe := index_le_of_ofPool hP hi hNames
  rw [getElem?_ofPool] at hi
  obtain ⟨n, hFirst, rfl⟩ := Option.map_eq_some_iff.mp hi
  have hBound := Pool.le_of_firstIndex hFirst
  have hSize := hP.size_le
  rw [UInt16.toNat_ofNat', Nat.mod_eq_of_lt (show n < 65536 by omega)] at hLe
  rw [Pool.landing, hFirst]
  exact hLe.trans hByte

end PoolBuilder

namespace Encoder

variable {α β : Type} {x : Encoder α} {v : Constant}

/-- The step of the writer does not succeed once `v` has an index of more than one byte. -/
def Blocked (v : Constant) (x : Encoder α) : Prop :=
  ∀ b : PoolBuilder, b.Sound → ∀ i, b.index[v]? = some i → 255 < i.toNat → ∀ r, x b ≠ .ok r

theorem Blocked.bind {f : α → Encoder β} (hx : Blocked v x) : Blocked v (x >>= f) := by
  rintro b hb i hi hHigh ⟨c, b'⟩ hRun
  obtain ⟨a, b₁, hFirst, -⟩ := Stateful.bind_eq_ok.mp hRun
  exact hx b hb i hi hHigh _ hFirst

theorem Built.before_blocked {f : α → Encoder β} (hx : Built WriteError.IsMisfit (fun _ => True) x)
    (hf : ∀ a, Blocked v (f a)) : Blocked v (x >>= f) := by
  rintro b hb i hi hHigh ⟨c, b'⟩ hRun
  obtain ⟨a, b₁, hFirst, hSecond⟩ := Stateful.bind_eq_ok.mp hRun
  obtain ⟨hb₁, hGrows, -⟩ := hx.emits b hb a b₁ hFirst
  exact hf a b₁ hb₁ i (hGrows.index v i hi) hHigh _ hSecond

theorem Blocked.unless {p : Prop} [Decidable p] {e : WriteError} (hx : Blocked v x) :
    Blocked v (if p then throw e else x) := by
  split
  · exact fun _ _ _ _ _ _ => nofun
  · exact hx

theorem blocked_list {γ : Type} {table : String} {item : γ → Encoder Bytes} {as : List γ} {a : γ}
    (ha : a ∈ as) (hBlocked : Blocked v (item a))
    (h : ∀ a ∈ as, Built WriteError.IsMisfit (fun _ => True) (item a)) :
    Blocked v (list table item as) := by
  have hMapM : Blocked v (as.mapM item) := by
    induction as with
    | nil => cases ha
    | cons first as ih =>
      obtain ⟨hFirst, hRest⟩ := List.forall_mem_cons.mp h
      rw [List.mapM_cons]
      rcases List.mem_cons.mp ha with rfl | ha
      · exact hBlocked.bind
      · exact hFirst.before_blocked fun _ => (ih ha hRest).bind
  exact built_length2.before_blocked fun _ => hMapM.bind.bind

end Encoder

open Encoder (Blocked)

variable {v : Constant}

namespace Instruction

theorem blocked_encode {i : Instruction} (h : i.Loads v) : Blocked v i.encode := by
  obtain ⟨offset, op, o⟩ := i
  obtain ⟨rfl, rfl⟩ := h
  rintro b hb k hk hHigh ⟨bytes, b'⟩ hRun
  obtain ⟨j, b₁, hIndex, hRun⟩ := Stateful.bind_eq_ok.mp hRun
  obtain rfl := Encoder.eq_of_constant hk hIndex
  have hWide : j > 255 := hHigh
  rw [if_pos rfl, if_pos hWide] at hRun
  cases hRun

theorem blocked_encodeFrom {is : List Instruction} {i : Instruction} (hi : i ∈ is)
    (h : i.Loads v) (offset : Nat) (pieces : List Bytes) :
    Blocked v (encodeFrom offset pieces is) := by
  induction is generalizing offset pieces with
  | nil => cases hi
  | cons first is ih =>
    refine Blocked.unless ?_
    rcases List.mem_cons.mp hi with rfl | hi
    · exact (blocked_encode h).bind
    · exact (built_encode (Or.inl fun _ he => he) fun _ _ => trivial).before_blocked
        fun bytes => ih hi _ _

end Instruction

namespace Attribute

theorem blocked_encode {body : Code Attribute} {i : Instruction} (hi : i ∈ body.instructions)
    (h : i.Loads v) : Blocked v (encode (code body)) := by
  obtain ⟨maxStack, maxLocals, instructions, handlers, attributes⟩ := body
  exact (Encoder.built_utf8 "Code").before_blocked fun _ =>
    (Instruction.blocked_encodeFrom hi h 0 []).bind

theorem blocked_encodeEach {as : List Attribute} {a : Attribute} (ha : a ∈ as)
    (h : Blocked v a.encode) : Blocked v (encodeEach as) := by
  induction as with
  | nil => cases ha
  | cons first as ih =>
    rw [encodeEach]
    rcases List.mem_cons.mp ha with rfl | ha
    · exact h.bind
    · exact (built_encode first fun body _ => body.admitted).before_blocked fun _ => (ih ha).bind

end Attribute

theorem Member.blocked_encode {m : Member} {body : Code Attribute} {i : Instruction}
    (hBody : .code body ∈ m.attributes) (hi : i ∈ body.instructions) (h : i.Loads v) :
    Blocked v m.encode := by
  have hAttributes : Blocked v (Attribute.encodeList m.attributes) :=
    Encoder.built_length2.before_blocked fun _ =>
      (Attribute.blocked_encodeEach hBody (Attribute.blocked_encode hi h)).bind
  exact (Encoder.built_utf8 m.name).before_blocked fun _ =>
    (Encoder.built_utf8 m.descriptor).before_blocked fun _ => hAttributes.bind

theorem ClassModel.blocked_encodeParts {c : ClassModel} (h : v ∈ c.ldcConstants) :
    Blocked v c.encodeParts := by
  obtain ⟨m, hm, body, hCode, i, hi, hLoads⟩ := mem_ldcConstants.mp h
  have hMethods : Blocked v (Encoder.list "methods" Member.encode c.methods) :=
    Encoder.blocked_list hm (Member.blocked_encode (code_mem hCode) hi hLoads)
      fun m _ => Member.built_encode fun body _ => body.admitted
  exact (Encoder.built_className c.name).before_blocked fun _ =>
    (Encoder.built_optional Encoder.built_className c.superName).before_blocked fun _ =>
    (Encoder.built_classes "interfaces" c.interfaces).before_blocked fun _ =>
    (Encoder.built_list fun m _ => Member.built_encode fun body _ => body.admitted).before_blocked
    fun _ => hMethods.bind

namespace Attribute

mutual

theorem bodiless_of_bodies (a : Attribute) (h : a.bodies = []) : a.Bodiless := by
  cases a with
  | code body => cases h
  | record components => exact .record (bodiless_of_bodiesOfComponents components h)
  | plain a => exact .plain a

theorem bodiless_of_bodiesOfEach (as : List Attribute) (h : bodiesOfEach as = []) :
    ∀ a ∈ as, a.Bodiless := by
  cases as with
  | nil => exact nofun
  | cons a as =>
    obtain ⟨hHead, hTail⟩ := List.append_eq_nil_iff.mp h
    exact List.forall_mem_cons.mpr ⟨bodiless_of_bodies a hHead, bodiless_of_bodiesOfEach as hTail⟩

theorem bodiless_of_bodiesOfComponents (cs : List (RecordComponent Attribute))
    (h : bodiesOfComponents cs = []) : ∀ c ∈ cs, ∀ a ∈ c.attributes, a.Bodiless := by
  cases cs with
  | nil => exact nofun
  | cons c cs =>
    obtain ⟨hHead, hTail⟩ := List.append_eq_nil_iff.mp h
    exact List.forall_mem_cons.mpr ⟨bodiless_of_bodiesOfEach c.attributes hHead,
      bodiless_of_bodiesOfComponents cs hTail⟩

end

theorem bodiless_iff {a : Attribute} : a.Bodiless ↔ a.bodies = [] := by
  refine ⟨fun h => ?_, bodiless_of_bodies a⟩
  induction h with
  | record _ ih =>
    rw [bodies, List.eq_nil_iff_forall_not_mem]
    intro body hBody
    obtain ⟨c, hc, a, ha, hBody⟩ := mem_bodiesOfComponents.mp hBody
    rw [ih c hc a ha] at hBody
    cases hBody
  | plain a => rfl

theorem Shallow.eq_code {a : Attribute} {body : Code Attribute} (h : a.Shallow)
    (hBody : body ∈ a.bodies) : a = code body := by
  cases a with
  | code outer =>
    rcases List.mem_cons.mp hBody with rfl | hInner
    · rfl
    · obtain ⟨a, ha, hInner⟩ := mem_bodiesOfEach.mp hInner
      rw [bodiless_iff.mp (h a ha)] at hInner
      cases hInner
  | record | plain =>
    rw [bodiless_iff.mp h] at hBody
    cases hBody

end Attribute

/-- What a class is written from: an empty pool, or the one of its attributes that are kept as bytes. -/
def PoolBuilder.startFrom (pool : Option Pool) : PoolBuilder := pool.elim empty ofPool

namespace ClassModel

variable {P : Pool} {c : ClassModel}

theorem BodiesInPlace.loads (h : c.BodiesInPlace) : ∀ body ∈ c.bodies,
    ∀ i ∈ body.instructions, ∀ v, i.Loads v → v ∈ c.ldcConstants := by
  intro body hBody i hi v hLoads
  rw [bodies, List.mem_append, List.mem_flatMap] at hBody
  rcases hBody with ⟨m, hm, hBody⟩ | hBody
  · obtain ⟨a, ha, hBody⟩ := Attribute.mem_bodiesOfEach.mp hBody
    rcases List.mem_append.mp hm with hm | hm
    · rw [Attribute.bodiless_iff.mp (h.fields m hm a ha)] at hBody
      cases hBody
    · obtain rfl := (h.methods m hm a ha).eq_code hBody
      exact h.loadsFrom m hm _ ha body rfl i hi v hLoads
  · obtain ⟨a, ha, hBody⟩ := Attribute.mem_bodiesOfEach.mp hBody
    rw [Attribute.bodiless_iff.mp (h.attributes a ha)] at hBody
    cases hBody

/-- If slots of one byte are set aside for all constants of `ldc` instructions, none of them stands in
the way of the writer. -/
theorem serialize_ne_of_reaches {pool : Option Pool} (hPool : c.verbatimPool = .ok pool)
    (hSound : (PoolBuilder.startFrom pool).Sound) (hPlace : c.BodiesInPlace)
    (hReaches : ∀ b, PoolBuilder.reserveAll c.ldcConstants (.startFrom pool) = .ok ((), b) →
      b.Reaches (· ∈ c.ldcConstants)) (i : UInt16) :
    c.serialize ≠ .error (.ldcIndexOverflow i) := by
  intro hFails
  rcases serialize_eq_error hFails with hMixed | hSlot | ⟨pool', hOk, hBody⟩
  · obtain ⟨name, hName⟩ := exists_mixedPools_of_verbatimPool hMixed
    cases hName
  · cases hSlot
  obtain rfl := Except.ok.inj (hOk.symm.trans hPool)
  have hReserve : Built WriteError.IsMisfit (fun _ => False)
      (PoolBuilder.reserveAll c.ldcConstants) := Encoder.built_reserveAll _
  have hParts : Built WriteError.IsMisfit (· ∈ c.ldcConstants) c.encodeParts :=
    built_encodeParts fun body hBody => ⟨Or.inl fun _ he => he, hPlace.loads body hBody⟩
  rw [encodeBody_eq] at hBody
  rcases Stateful.bind_eq_error.mp hBody with hFirst | ⟨u, b, hFirst, hSecond⟩
  · exact hReserve.loads (fun _ => id) hSound (fun _ hc => hc.elim) i hFirst
  · obtain ⟨hb, -, -⟩ := hReserve.emits _ hSound u b hFirst
    exact hParts.loads (fun _ => id) hb (hReaches b hFirst) i hSecond

theorem encodeBody_ne_ok {start : PoolBuilder} (hSound : start.Sound) {v : Constant}
    (hv : v ∈ c.ldcConstants) (hHigh : ∀ b, PoolBuilder.reserveAll c.ldcConstants start = .ok ((), b) →
      ∃ i, b.index[v]? = some i ∧ 255 < i.toNat) (result : Bytes × PoolBuilder) :
    c.encodeBody start ≠ .ok result := by
  intro hRun
  obtain ⟨u, b, hReserve, hParts⟩ := Stateful.bind_eq_ok.mp hRun
  obtain ⟨hb, -, -⟩ := (Encoder.built_reserveAll (E := WriteError.IsMisfit)
    (L := fun _ => True) _).emits _ hSound u b hReserve
  obtain ⟨i, hi, hLands⟩ := hHigh b hReserve
  exact blocked_encodeParts hv b hb i hi hLands result hParts

/-- If all constants of `ldc` instructions land on an index of one byte, none of them stands in the
way of the writer. -/
theorem serialize_ne_ldcIndexOverflow (hPool : c.verbatimPool = .ok (some P)) (hP : P.Complete)
    (hPlace : c.BodiesInPlace) (hNarrow : ∀ v ∈ c.ldcConstants, v.isWide = false)
    (hLow : ∀ v ∈ c.ldcConstants, P.landing c.ldcConstants v ≤ 255) (i : UInt16) :
    c.serialize ≠ .error (.ldcIndexOverflow i) := by
  refine serialize_ne_of_reaches hPool (PoolBuilder.sound_ofPool hP) hPlace (fun b hRun v hv => ?_) i
  obtain ⟨j, hj, hLands⟩ := PoolBuilder.index_of_landing hP hNarrow hRun hv
  exact ⟨j, hj, hLands ▸ hLow v hv⟩

/-- If one of them lands behind those indices, there is no file. -/
theorem exists_serialize_eq_error (hPool : c.verbatimPool = .ok (some P)) (hP : P.Complete)
    (hPlace : ∀ body ∈ c.bodies, body.InPlace) (hNarrow : ∀ v ∈ c.ldcConstants, v.isWide = false)
    {v : Constant} (hv : v ∈ c.ldcConstants) (hHigh : 255 < P.landing c.ldcConstants v) :
    ∃ e, c.serialize = .error e ∧ (e.IsOverflow ∨ ∃ i, e = .ldcIndexOverflow i) := by
  have hBuilt : Built (fun _ => False) (fun _ => True) c.encodeBody :=
    built_encodeBody fun body hBody => ⟨Or.inr (hPlace body hBody), fun _ _ _ _ => trivial⟩
  cases hBody : c.encodeBody (PoolBuilder.ofPool P) with
  | error e =>
    refine ⟨e, ?_, (hBuilt.raises _ e hBody).resolve_left id⟩
    exact Outcome.bind_eq_error.mpr (Or.inr ⟨_, hPool, Outcome.bind_eq_error.mpr (Or.inl hBody)⟩)
  | ok result =>
    refine absurd hBody (encodeBody_ne_ok (PoolBuilder.sound_ofPool hP) hv (fun b hRun => ?_) result)
    obtain ⟨i, hi, hLands⟩ := PoolBuilder.index_of_landing hP hNarrow hRun hv
    exact ⟨i, hi, hLands ▸ hHigh⟩

end ClassModel

end Renaming
