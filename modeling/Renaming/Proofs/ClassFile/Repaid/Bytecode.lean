import Renaming.Proofs.ClassFile.Budget
import Renaming.Proofs.ClassFile.Layout
import Renaming.Proofs.ClassFile.Supply

/-!
# Bytecode is repaid

An instruction takes as many bytes as its size says, both where it is read and where it is written,
so that the offsets of the instructions behind it stay what they were. What an `ldc` instruction
loads had an index of one byte, and so has to be given one again.
-/

namespace Renaming

open Decoder (Takes fixed_u1 fixed_u2 fixed_i1 fixed_i2 fixed_i4)
open Encoder (Runs Supplies)

/-- Operands without the `wide` byte fit one byte. -/
def Operand.Narrow : Operand → Prop
  | .localVar index false => index.toNat ≤ 255
  | .increment index delta false => index.toNat ≤ 255 ∧ -128 ≤ delta.toInt ∧ delta.toInt ≤ 127
  | _ => True

theorem Constant.isWide_of_pushesTwo {c : Constant} (h : c.pushesTwo = false) :
    c.isWide = false := by
  cases c <;> first | rfl | exact h

section Reading

variable {P : Pool} {op : UInt8} {offset : Nat}

/-- What is known of an instruction that was read from `n` bytes at `offset`. -/
structure Instruction.ReadFrom (P : Pool) (offset n : Nat) (i : Instruction) : Prop where
  place : i.offset = UInt32.ofNat offset
  size : offset < 0x100000000 → n = i.size
  narrow : i.operand.Narrow
  low : ∀ c, i.Loads c → P.NamesLow c

theorem Instruction.readFrom_of_ne {o : Operand} {n : Nat}
    (hSize : offset < 0x100000000 → n = size ⟨.ofNat offset, op, o⟩) (hNarrow : o.Narrow)
    (h : ∀ c, o ≠ .constant c) : ReadFrom P offset n ⟨.ofNat offset, op, o⟩ :=
  ⟨rfl, hSize, hNarrow, fun c hc => absurd hc.2 (h c)⟩

theorem Instruction.readFrom_of_size {o : Operand} {n : Nat}
    (hSize : n = size ⟨.ofNat offset, op, o⟩) (h : ∀ c, o ≠ .constant c) (hNarrow : o.Narrow) :
    ReadFrom P offset n ⟨.ofNat offset, op, o⟩ :=
  readFrom_of_ne (fun _ => hSize) hNarrow h

open Instruction in
theorem Operand.takes_decode {form : OperandForm} (hForm : OperandForm.ofOpcode op = some form) :
    Takes (decode P op offset form) fun n o =>
      Instruction.ReadFrom P offset (1 + n) ⟨.ofNat offset, op, o⟩ := by
  have hWord : offset < 0x100000000 → (UInt32.ofNat offset).toNat = offset := by
    intro hOffset
    rw [UInt32.toNat_ofNat', Nat.mod_eq_of_lt hOffset]
  cases form with
  | none => exact .pure (readFrom_of_size rfl (fun _ => Operand.noConfusion) trivial)
  | byte =>
    apply fixed_i1.bind
    exact fun _ => .pure (readFrom_of_size rfl (fun _ => Operand.noConfusion) trivial)
  | short | jump =>
    apply fixed_i2.bind
    exact fun _ => .pure (readFrom_of_size rfl (fun _ => Operand.noConfusion) trivial)
  | arrayType =>
    apply fixed_u1.bind
    exact fun _ => .pure (readFrom_of_size rfl (fun _ => Operand.noConfusion) trivial)
  | localVar =>
    refine fixed_u1.bind fun index =>
      .pure (readFrom_of_size rfl (fun _ => Operand.noConfusion) ?_)
    exact Nat.le_of_lt_succ index.toNat_lt
  | increment =>
    refine fixed_u1.bind fun index => fixed_i1.bind fun delta =>
      .pure (readFrom_of_size rfl (fun _ => Operand.noConfusion) ?_)
    refine ⟨Nat.le_of_lt_succ index.toNat_lt, ?_⟩
    rw [Int8.toInt_toInt16]
    exact ⟨delta.le_toInt, Int.le_of_lt_add_one delta.toInt_lt⟩
  | jumpWide =>
    apply fixed_i4.bind
    exact fun _ => .pure (readFrom_of_size rfl (fun _ => Operand.noConfusion) trivial)
  | ldc =>
    refine fixed_u1.bind fun index => .lookup fun c hc => ?_
    obtain ⟨hNames, -⟩ := Pool.loadable_eq_ok.mp hc
    have hLdc := Instruction.ofOpcode_eq_ldc hForm
    split
    · rw [Stateful.throw_bind]
      exact .throw
    · rename_i hSingle
      refine .pure ⟨rfl, fun _ => ?_, trivial, ?_⟩
      · simp [Instruction.size, hLdc]
      · rintro _ ⟨-, ⟨⟩⟩
        exact ⟨index.toUInt16, hNames, Nat.le_of_lt_succ index.toNat_lt,
          Constant.isWide_of_pushesTwo (Bool.eq_false_iff.mpr hSingle)⟩
  | ldcLong =>
    refine fixed_u2.bind fun index => .lookup fun c hc => ?_
    have hLong := Instruction.ofOpcode_eq_ldcLong hForm
    split
    · rw [Stateful.throw_bind]
      exact .throw
    · refine .pure ⟨rfl, fun _ => ?_, trivial, fun _ hLoads => absurd hLoads.1 hLong⟩
      simp [Instruction.size, hLong]
  | field | method | anyMethod | classRef =>
    apply fixed_u2.bind
    exact fun _ => .lookup fun _ _ =>
      .pure (readFrom_of_size rfl (fun _ => Operand.noConfusion) trivial)
  | invokeInterface =>
    exact fixed_u2.bind fun _ => fixed_u1.bind fun _ => fixed_u1.bind fun _ => .lookup
      fun _ _ => .pure (readFrom_of_size rfl (fun _ => Operand.noConfusion) trivial)
  | invokeDynamic =>
    refine fixed_u2.bind fun _ => fixed_u2.bind fun _ => .lookup fun c _ => ?_
    split
    · exact .pure (readFrom_of_size rfl (fun _ => Operand.noConfusion) trivial)
    · exact .throw
  | multiArray =>
    exact fixed_u2.bind fun _ => fixed_u1.bind fun _ => .lookup
      fun _ _ => .pure (readFrom_of_size rfl (fun _ => Operand.noConfusion) trivial)
  | tableSwitch =>
    refine (Decoder.fixed_take _).bind fun _ => fixed_i4.bind fun default => fixed_i4.bind
      fun low => fixed_i4.bind fun high => ?_
    split
    · rw [Stateful.throw_bind]
      exact .throw
    · apply (Decoder.takes_count_fixed fixed_i4 _).bind
      rintro _ offsets ⟨rfl, hLength⟩
      refine .pure (readFrom_of_ne (fun hOffset => ?_) trivial fun _ => Operand.noConfusion)
      simp only [Instruction.size, hWord hOffset, hLength]
      omega
  | lookupSwitch =>
    have hPair : Decoder.Fixed (do return (← Decoder.i4, ← Decoder.i4)) 8 :=
      fixed_i4.bind fun _ => fixed_i4.bind fun _ => .pure rfl
    refine (Decoder.fixed_take _).bind fun _ => fixed_i4.bind fun default => fixed_i4.bind
      fun pairs => ?_
    split
    · rw [Stateful.throw_bind]
      exact .throw
    · apply (Decoder.takes_count_fixed hPair _).bind
      rintro _ pairs ⟨rfl, hLength⟩
      refine .pure (readFrom_of_ne (fun hOffset => ?_) trivial fun _ => Operand.noConfusion)
      simp only [Instruction.size, hWord hOffset, hLength]
      omega
  | wide => exact .throw

variable (P op offset) in
open Instruction in
theorem Operand.takes_decodeWide :
    Takes (decodeWide op offset) fun n o =>
      Instruction.ReadFrom P offset (2 + n) ⟨.ofNat offset, op, o⟩ := by
  unfold decodeWide
  split
  · apply fixed_u2.bind
    exact fun _ => .pure (readFrom_of_size rfl (fun _ => Operand.noConfusion) trivial)
  · apply fixed_u2.bind
    exact fun _ => fixed_i2.bind fun _ =>
      .pure (readFrom_of_size rfl (fun _ => Operand.noConfusion) trivial)
  · exact .throw

theorem Instruction.takes_decode : Takes (decode P offset) (ReadFrom P offset) := by
  apply fixed_u1.bind
  intro op
  split
  · exact .throw
  · refine fixed_u1.bind fun widened => (Operand.takes_decodeWide P widened offset).bind
      fun n o ho => .pure ?_
    rw [← Nat.add_assoc]
    exact ho
  · rename_i hForm
    exact (Operand.takes_decode hForm).bind fun n o ho => .pure ho

theorem Instruction.takes_decode_pos : Takes (decode P offset) fun n _ => 0 < n := by
  apply fixed_u1.bind
  intro op
  split
  · exact .throw
  · exact fixed_u1.bind fun widened => (Operand.takes_decodeWide P widened offset).bind
      fun _ _ _ => .pure (by omega)
  · rename_i hForm
    exact (Operand.takes_decode (P := P) hForm).bind fun _ _ _ => .pure (by omega)

end Reading

namespace Instruction

/-- The instructions lie one behind the other from `offset` on, and what has one byte fits it. -/
def Laid : (offset : Nat) → List Instruction → Prop
  | _, [] => True
  | offset, i :: rest => i.offset.toNat = offset ∧ i.operand.Narrow ∧ Laid (offset + i.size) rest

def totalSize (is : List Instruction) : Nat := (is.map size).sum

variable {P : Pool} {L : Constant → Prop} {I : PoolBuilder → Prop} {code : Bytes}
  {is : List Instruction}

theorem namesLow_of_decodeAll (h : decodeAll P code = .ok is) :
    ∀ i ∈ is, ∀ c, i.Loads c → P.NamesLow c := by
  refine of_decodeAll (fun offset s i t hRun => ?_) h
  obtain ⟨n, -, hi⟩ := takes_decode s i t hRun
  exact hi.low

/-- What holds of no code, and of an instruction in front of code of which it holds, holds of all
code that is read. -/
theorem decodeFrom_induction {Q : Nat → List Instruction → Bytes → Prop}
    (hNil : ∀ offset, Q offset [] [])
    (hCons : ∀ offset s i r more, decode P offset s = .ok (i, r) → Q (offset + i.size) more r →
      Q offset (i :: more) s)
    {fuel offset : Nat} {done : List Instruction} {s t : Bytes} (hFuel : s.length ≤ fuel)
    (h : decodeFrom P fuel offset done s = .ok (is, t)) :
    ∃ more, is = done.reverse ++ more ∧ Q offset more s := by
  have hEnd {offset : Nat} {done : List Instruction} {s : Bytes} (hNone : s = [])
      (hDone : is = done.reverse) : ∃ more, is = done.reverse ++ more ∧ Q offset more s := by
    subst hNone
    exact ⟨[], by rw [hDone, List.append_nil], hNil offset⟩
  induction fuel generalizing offset done s with
  | zero =>
    exact hEnd (List.length_eq_zero_iff.mp (Nat.le_zero.mp hFuel)) (Stateful.pure_eq_ok.mp h).1
  | succ fuel ih =>
    rw [decodeFrom, Stateful.get_bind_apply] at h
    split at h
    · rename_i hEmpty
      exact hEnd (List.isEmpty_iff.mp hEmpty) (Stateful.pure_eq_ok.mp h).1
    · obtain ⟨i, r, hHead, hTail⟩ := Stateful.bind_eq_ok.mp h
      obtain ⟨n, hLength, hPos⟩ := takes_decode_pos s i r hHead
      obtain ⟨more, rfl, hMore⟩ := ih (by omega) hTail
      exact ⟨i :: more, by simp, hCons offset s i r more hHead hMore⟩

/-- From `offset` on the instructions are in place, as long as offsets have enough bytes. -/
def Fills (offset : Nat) (is : List Instruction) (code : Bytes) : Prop :=
  offset + code.length < 0x100000000 → Laid offset is ∧ totalSize is = code.length

theorem Fills.cons {offset : Nat} {s r : Bytes} {i : Instruction} {more : List Instruction}
    (hHead : decode P offset s = .ok (i, r)) (h : Fills (offset + i.size) more r) :
    Fills offset (i :: more) s := by
  intro hRoom
  obtain ⟨n, hLength, hRead⟩ := takes_decode s i r hHead
  obtain rfl := hRead.size (by omega)
  have hPlace : i.offset.toNat = offset := by
    rw [hRead.place, UInt32.toNat_ofNat', Nat.mod_eq_of_lt (by omega)]
  obtain ⟨hMore, hTotal⟩ := h (by omega)
  refine ⟨⟨hPlace, hRead.narrow, hMore⟩, ?_⟩
  rw [totalSize, List.map_cons, List.sum_cons, ← totalSize, hTotal, hLength]

theorem laid_of_decodeAll (h : decodeAll P code = .ok is) (hBound : code.length < 0x100000000) :
    Laid 0 is ∧ totalSize is = code.length := by
  obtain ⟨⟨_, t⟩, hRun, hIs⟩ := Outcome.map_eq_ok.mp h
  obtain ⟨more, hMore, hFills⟩ := decodeFrom_induction (fun _ _ => ⟨trivial, rfl⟩)
    (fun _ _ _ _ _ => Fills.cons) (Nat.le_refl _) hRun
  obtain rfl : is = more := hIs.symm.trans hMore
  exact hFills (by omega)

theorem length_of_encodeFrom {offset : Nat} {done : List Bytes} {b b' : PoolBuilder} {bs : Bytes}
    (h : encodeFrom offset done is b = .ok (bs, b')) :
    bs.length = done.flatten.length + totalSize is := by
  induction is generalizing offset done b with
  | nil =>
    obtain ⟨rfl, -⟩ := Stateful.pure_eq_ok.mp h
    simp [totalSize]
  | cons i is ih =>
    rw [encodeFrom] at h
    split at h
    · exact absurd h (Stateful.throw_ne_ok (s := b))
    · obtain ⟨bytes, _, hHead, h⟩ := Stateful.bind_eq_ok.mp h
      rw [ih h, List.flatten_cons, List.length_append, length_of_encode hHead, totalSize,
        totalSize, List.map_cons, List.sum_cons]
      omega

theorem length_of_encodeAll {b b' : PoolBuilder} {bs : Bytes}
    (h : encodeAll is b = .ok (bs, b')) : bs.length = totalSize is := by
  rw [length_of_encodeFrom h, List.flatten_nil, List.length_nil, Nat.zero_add]

variable (hI : Supplies P L I)

include hI

theorem runs_encode {i : Instruction} (hi : i.WellFormed P.Holds) (hNarrow : i.operand.Narrow)
    (hLoads : ∀ c, i.Loads c → L c) : Runs I i.encode fun bs => bs.length = i.size := by
  have hRun : Runs I i.encode fun _ => True := by
    obtain ⟨offset, op, o⟩ := i
    obtain ⟨form, hForm, hFits⟩ := hi
    dsimp only at hForm hFits hNarrow
    cases hFits with
    | none | byte | short | arrayType | jump | jumpWide | tableSwitch | lookupSwitch =>
      exact .pure trivial
    | localVar index wide =>
      cases wide with
      | true => exact .pure trivial
      | false => exact .guarded (Nat.not_lt.mpr hNarrow) (.pure trivial)
    | increment index delta wide =>
      cases wide with
      | true => exact .pure trivial
      | false =>
        obtain ⟨hIndex, hLow, hHigh⟩ := hNarrow
        have hFitsByte : ¬ (index > 255 || delta < -128 || delta > 127) = true := by
          simp only [Bool.or_eq_true, decide_eq_true_eq, not_or, gt_iff_lt, UInt16.lt_iff_toNat_lt,
            Int16.lt_iff_toInt_lt]
          exact ⟨⟨Nat.not_lt.mpr hIndex, Int.not_lt.mpr hLow⟩, Int.not_lt.mpr hHigh⟩
        exact .guarded hFitsByte (.pure trivial)
    | ldc hc _ _ | ldcLong hc _ _ =>
      refine (hI.constant _ hc).bind fun index hIndex => ?_
      split
      · rename_i hLdc
        exact .guarded (Nat.not_lt.mpr (hIndex (hLoads _ ⟨hLdc, rfl⟩))) (.pure trivial)
      · exact .pure trivial
    | field hr _ | method hr _ | anyMethod hr _ | invokeInterface _ hr _ =>
      exact (hI.constant _ hr).bind fun _ _ => .pure trivial
    | invokeDynamic hc | classRef hc | multiArray _ hc =>
      exact (hI.constant _ hc).bind fun _ _ => .pure trivial
  exact hRun.always fun _ _ _ => length_of_encode

theorem runs_encodeFrom {offset : Nat} (hLaid : Laid offset is)
    (hAll : ∀ i ∈ is, i.WellFormed P.Holds) (hLoads : ∀ i ∈ is, ∀ c, i.Loads c → L c)
    (pieces : List Bytes) : Runs I (encodeFrom offset pieces is) fun _ => True := by
  induction is generalizing offset pieces with
  | nil => exact .pure trivial
  | cons i is ih =>
    obtain ⟨hPlace, hNarrow, hLaid⟩ := hLaid
    obtain ⟨hFirst, hAll⟩ := List.forall_mem_cons.mp hAll
    obtain ⟨hFirstLoads, hLoads⟩ := List.forall_mem_cons.mp hLoads
    refine .guarded (not_not_intro hPlace) ?_
    refine (runs_encode hI hFirst hNarrow hFirstLoads).bind fun bytes hBytes => ?_
    rw [hBytes]
    exact ih hLaid hAll hLoads (bytes :: pieces)

theorem runs_of_decodeAll (h : decodeAll P code = .ok is) (hBound : code.length < 0x100000000)
    (hLoads : ∀ i ∈ is, ∀ c, i.Loads c → L c) :
    Runs I (encodeAll is) fun bs => bs.length = code.length := by
  obtain ⟨hLaid, hTotal⟩ := laid_of_decodeAll h hBound
  exact (runs_encodeFrom hI hLaid (wellFormed_of_decodeAll h) hLoads []).always fun _ _ _ hBytes =>
    (length_of_encodeAll hBytes).trans hTotal

end Instruction

end Renaming
