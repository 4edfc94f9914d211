import Renaming.ClassFile.Bytecode
import Renaming.Proofs.ClassFile.Encoder

/-!
# Instructions that are written can be read

`Operand.Fits` lists the operands of each form, with the constants they refer to. Reading yields
only such operands, and what is written for an instruction with one is as long as the instruction
says and is read back as that instruction, at the same offset.
-/

namespace Renaming

open Stateful

/-- The operands that can follow the opcode `op` if it has the given form. -/
inductive Operand.Fits (K : Constant → Prop) (op : UInt8) : OperandForm → Operand → Prop
  | none : Fits K op .none .none
  | byte (value) : Fits K op .byte (.byte value)
  | short (value) : Fits K op .short (.short value)
  | arrayType (code) : Fits K op .arrayType (.arrayType code)
  | localVar (index wide) : Fits K op .localVar (.localVar index wide)
  | increment (index delta wide) : Fits K op .increment (.increment index delta wide)
  | jump (delta) : Fits K op .jump (.jump delta)
  | jumpWide (delta) : Fits K op .jumpWide (.jumpWide delta)
  | ldc {c} (hc : K c) (hLoadable : c.isLoadable = true) (hSingle : c.pushesTwo = false) :
      Fits K op .ldc (.constant c)
  | ldcLong {c} (hc : K c) (hLoadable : c.isLoadable = true)
      (hWidth : c.pushesTwo = decide (op = opLdc2)) : Fits K op .ldcLong (.constant c)
  | field {r} (hr : K (.member r)) (hKind : r.kind ∈ [MemberKind.field]) :
      Fits K op .field (.member r)
  | method {r} (hr : K (.member r)) (hKind : r.kind ∈ [MemberKind.method]) :
      Fits K op .method (.member r)
  | anyMethod {r} (hr : K (.member r))
      (hKind : r.kind ∈ [MemberKind.method, MemberKind.interfaceMethod]) :
      Fits K op .anyMethod (.member r)
  | invokeInterface {r} (count) (hr : K (.member r))
      (hKind : r.kind ∈ [MemberKind.interfaceMethod]) :
      Fits K op .invokeInterface (.invokeInterface r count)
  | invokeDynamic {bootstrap callSite} (hc : K (.invokeDynamic bootstrap callSite)) :
      Fits K op .invokeDynamic (.invokeDynamic bootstrap callSite)
  | classRef {name} (hc : K (.classRef name)) : Fits K op .classRef (.classRef name)
  | multiArray {name} (dimensions) (hc : K (.classRef name)) :
      Fits K op .multiArray (.multiArray name dimensions)
  | tableSwitch {default low high offsets} (hOrder : ¬ high < low)
      (hCount : offsets.length = (high.toInt - low.toInt + 1).toNat) :
      Fits K op .tableSwitch (.tableSwitch default low high offsets)
  | lookupSwitch {default pairs} (hCount : pairs.length < 0x80000000) :
      Fits K op .lookupSwitch (.lookupSwitch default pairs)

def Instruction.WellFormed (K : Constant → Prop) (i : Instruction) : Prop :=
  ∃ form, OperandForm.ofOpcode i.opcode = some form ∧ i.operand.Fits K i.opcode form

/-- The instruction is an `ldc` that loads `c`. -/
def Instruction.Loads (i : Instruction) (c : Constant) : Prop :=
  i.opcode = opLdc ∧ i.operand = .constant c

theorem Instruction.WellFormed.loads {K : Constant → Prop} {i : Instruction} {c : Constant}
    (hi : i.WellFormed K) (h : i.Loads c) : K c := by
  obtain ⟨form, -, hFits⟩ := hi
  rw [h.2] at hFits
  cases hFits with
  | ldc hc | ldcLong hc => exact hc

namespace Pool

theorem memberOf_eq_ok {P : Pool} {kinds : List MemberKind} {i : UInt16} {r : MemberRef} :
    P.memberOf kinds i = .ok r ↔ P.Names i (.member r) ∧ r.kind ∈ kinds := by
  rw [memberOf, Outcome.bind_eq_ok]
  constructor
  · rintro ⟨r', hr, h⟩
    split at h
    · rename_i hKind
      cases h
      exact ⟨memberRef_eq_ok.mp hr, hKind⟩
    · cases h
  · rintro ⟨hr, hKind⟩
    exact ⟨r, memberRef_eq_ok.mpr hr, if_pos hKind⟩

theorem loadable_eq_ok {P : Pool} {i : UInt16} {c : Constant} :
    P.loadable i = .ok c ↔ P.Names i c ∧ c.isLoadable = true := by
  rw [loadable, Outcome.bind_eq_ok]
  constructor
  · rintro ⟨c', hc, h⟩
    split at h
    · rename_i hLoadable
      cases h
      exact ⟨constant_eq_ok.mp hc, hLoadable⟩
    · cases h
  · rintro ⟨hc, hLoadable⟩
    exact ⟨c, constant_eq_ok.mpr hc, if_pos hLoadable⟩

end Pool

namespace Operand

variable {P : Pool} {op : UInt8} {offset : Nat} {s t : Bytes} {o : Operand}

theorem fits_of_decode {form : OperandForm} (h : decode P op offset form s = .ok (o, t)) :
    o.Fits P.Holds op form := by
  cases form with
  | none =>
    obtain ⟨rfl, -⟩ := pure_eq_ok.mp h
    exact .none
  | byte =>
    obtain ⟨_, _, -, h⟩ := bind_eq_ok.mp h
    obtain ⟨rfl, -⟩ := pure_eq_ok.mp h
    exact .byte _
  | short =>
    obtain ⟨_, _, -, h⟩ := bind_eq_ok.mp h
    obtain ⟨rfl, -⟩ := pure_eq_ok.mp h
    exact .short _
  | arrayType =>
    obtain ⟨_, _, -, h⟩ := bind_eq_ok.mp h
    obtain ⟨rfl, -⟩ := pure_eq_ok.mp h
    exact .arrayType _
  | localVar =>
    obtain ⟨_, _, -, h⟩ := bind_eq_ok.mp h
    obtain ⟨rfl, -⟩ := pure_eq_ok.mp h
    exact .localVar _ _
  | increment =>
    obtain ⟨_, _, -, h⟩ := bind_eq_ok.mp h
    obtain ⟨_, _, -, h⟩ := bind_eq_ok.mp h
    obtain ⟨rfl, -⟩ := pure_eq_ok.mp h
    exact .increment _ _ _
  | jump =>
    obtain ⟨_, _, -, h⟩ := bind_eq_ok.mp h
    obtain ⟨rfl, -⟩ := pure_eq_ok.mp h
    exact .jump _
  | jumpWide =>
    obtain ⟨_, _, -, h⟩ := bind_eq_ok.mp h
    obtain ⟨rfl, -⟩ := pure_eq_ok.mp h
    exact .jumpWide _
  | ldc =>
    obtain ⟨index, _, -, h⟩ := bind_eq_ok.mp h
    obtain ⟨c, _, hc, h⟩ := bind_eq_ok.mp h
    obtain ⟨hNames, hLoadable⟩ := Pool.loadable_eq_ok.mp (lift_eq_ok.mp hc).1
    split at h
    · rw [throw_bind] at h
      exact absurd h throw_ne_ok
    · rename_i hSingle
      obtain ⟨rfl, -⟩ := pure_eq_ok.mp h
      exact .ldc hNames.holds hLoadable (Bool.eq_false_iff.mpr hSingle)
  | ldcLong =>
    obtain ⟨index, _, -, h⟩ := bind_eq_ok.mp h
    obtain ⟨c, _, hc, h⟩ := bind_eq_ok.mp h
    obtain ⟨hNames, hLoadable⟩ := Pool.loadable_eq_ok.mp (lift_eq_ok.mp hc).1
    split at h
    · rw [throw_bind] at h
      exact absurd h throw_ne_ok
    · rename_i hWidth
      obtain ⟨rfl, -⟩ := pure_eq_ok.mp h
      exact .ldcLong hNames.holds hLoadable (Decidable.not_not.mp hWidth)
  | field =>
    obtain ⟨index, _, -, h⟩ := bind_eq_ok.mp h
    obtain ⟨r, _, hr, h⟩ := bind_eq_ok.mp h
    obtain ⟨hNames, hKind⟩ := Pool.memberOf_eq_ok.mp (lift_eq_ok.mp hr).1
    obtain ⟨rfl, -⟩ := pure_eq_ok.mp h
    exact .field hNames.holds hKind
  | method =>
    obtain ⟨index, _, -, h⟩ := bind_eq_ok.mp h
    obtain ⟨r, _, hr, h⟩ := bind_eq_ok.mp h
    obtain ⟨hNames, hKind⟩ := Pool.memberOf_eq_ok.mp (lift_eq_ok.mp hr).1
    obtain ⟨rfl, -⟩ := pure_eq_ok.mp h
    exact .method hNames.holds hKind
  | anyMethod =>
    obtain ⟨index, _, -, h⟩ := bind_eq_ok.mp h
    obtain ⟨r, _, hr, h⟩ := bind_eq_ok.mp h
    obtain ⟨hNames, hKind⟩ := Pool.memberOf_eq_ok.mp (lift_eq_ok.mp hr).1
    obtain ⟨rfl, -⟩ := pure_eq_ok.mp h
    exact .anyMethod hNames.holds hKind
  | invokeInterface =>
    obtain ⟨index, _, -, h⟩ := bind_eq_ok.mp h
    obtain ⟨count, _, -, h⟩ := bind_eq_ok.mp h
    obtain ⟨_, _, -, h⟩ := bind_eq_ok.mp h
    obtain ⟨r, _, hr, h⟩ := bind_eq_ok.mp h
    obtain ⟨hNames, hKind⟩ := Pool.memberOf_eq_ok.mp (lift_eq_ok.mp hr).1
    obtain ⟨rfl, -⟩ := pure_eq_ok.mp h
    exact .invokeInterface count hNames.holds hKind
  | invokeDynamic =>
    obtain ⟨index, _, -, h⟩ := bind_eq_ok.mp h
    obtain ⟨_, _, -, h⟩ := bind_eq_ok.mp h
    obtain ⟨c, _, hc, h⟩ := bind_eq_ok.mp h
    have hNames := Pool.constant_eq_ok.mp (lift_eq_ok.mp hc).1
    cases c with
    | invokeDynamic bootstrap callSite =>
      obtain ⟨rfl, -⟩ := pure_eq_ok.mp h
      exact .invokeDynamic hNames.holds
    | _ => exact absurd h throw_ne_ok
  | classRef =>
    obtain ⟨index, _, -, h⟩ := bind_eq_ok.mp h
    obtain ⟨name, _, hName, h⟩ := bind_eq_ok.mp h
    obtain ⟨rfl, -⟩ := pure_eq_ok.mp h
    exact .classRef (Pool.className_eq_ok.mp (lift_eq_ok.mp hName).1).holds
  | multiArray =>
    obtain ⟨index, _, -, h⟩ := bind_eq_ok.mp h
    obtain ⟨dimensions, _, -, h⟩ := bind_eq_ok.mp h
    obtain ⟨name, _, hName, h⟩ := bind_eq_ok.mp h
    obtain ⟨rfl, -⟩ := pure_eq_ok.mp h
    exact .multiArray dimensions (Pool.className_eq_ok.mp (lift_eq_ok.mp hName).1).holds
  | tableSwitch =>
    obtain ⟨_, _, -, h⟩ := bind_eq_ok.mp h
    obtain ⟨default, _, -, h⟩ := bind_eq_ok.mp h
    obtain ⟨low, _, -, h⟩ := bind_eq_ok.mp h
    obtain ⟨high, _, -, h⟩ := bind_eq_ok.mp h
    split at h
    · rw [throw_bind] at h
      exact absurd h throw_ne_ok
    · rename_i hOrder
      obtain ⟨offsets, _, hOffsets, h⟩ := bind_eq_ok.mp h
      obtain ⟨rfl, -⟩ := pure_eq_ok.mp h
      exact .tableSwitch hOrder (Decoder.count_eq_ok hOffsets).1
  | lookupSwitch =>
    obtain ⟨_, _, -, h⟩ := bind_eq_ok.mp h
    obtain ⟨default, _, -, h⟩ := bind_eq_ok.mp h
    obtain ⟨count, _, -, h⟩ := bind_eq_ok.mp h
    split at h
    · rw [throw_bind] at h
      exact absurd h throw_ne_ok
    · obtain ⟨pairs, _, hPairs, h⟩ := bind_eq_ok.mp h
      obtain ⟨rfl, -⟩ := pure_eq_ok.mp h
      have hLength := (Decoder.count_eq_ok hPairs).1
      have hBound := count.toInt_lt
      exact .lookupSwitch (by omega)
  | wide => exact absurd h throw_ne_ok

theorem fits_of_decodeWide (h : decodeWide op offset s = .ok (o, t)) :
    ∃ form, OperandForm.ofOpcode op = some form ∧ o.Fits P.Holds op form := by
  unfold decodeWide at h
  cases hForm : OperandForm.ofOpcode op with
  | none =>
    rw [hForm] at h
    exact absurd h throw_ne_ok
  | some form =>
    rw [hForm] at h
    cases form with
    | localVar =>
      obtain ⟨_, _, -, h⟩ := bind_eq_ok.mp h
      obtain ⟨rfl, -⟩ := pure_eq_ok.mp h
      exact ⟨_, rfl, .localVar _ _⟩
    | increment =>
      obtain ⟨_, _, -, h⟩ := bind_eq_ok.mp h
      obtain ⟨_, _, -, h⟩ := bind_eq_ok.mp h
      obtain ⟨rfl, -⟩ := pure_eq_ok.mp h
      exact ⟨_, rfl, .increment _ _ _⟩
    | _ => exact absurd h throw_ne_ok

end Operand

namespace Instruction

variable {P : Pool} {s t : Bytes}

theorem wellFormed_of_decode {offset : Nat} {i : Instruction}
    (h : decode P offset s = .ok (i, t)) : i.WellFormed P.Holds := by
  obtain ⟨op, _, -, h⟩ := bind_eq_ok.mp h
  cases hForm : OperandForm.ofOpcode op with
  | none =>
    rw [hForm] at h
    exact absurd h throw_ne_ok
  | some form =>
    rw [hForm] at h
    cases form with
    | wide =>
      obtain ⟨widened, _, -, h⟩ := bind_eq_ok.mp h
      obtain ⟨o, _, hOperand, h⟩ := bind_eq_ok.mp h
      obtain ⟨rfl, -⟩ := pure_eq_ok.mp h
      exact Operand.fits_of_decodeWide hOperand
    | _ =>
      obtain ⟨o, _, hOperand, h⟩ := bind_eq_ok.mp h
      obtain ⟨rfl, -⟩ := pure_eq_ok.mp h
      exact ⟨_, hForm, Operand.fits_of_decode hOperand⟩

theorem of_decodeFrom {Q : Instruction → Prop}
    (hQ : ∀ offset s i t, decode P offset s = .ok (i, t) → Q i) {fuel offset : Nat}
    {done is : List Instruction} (hDone : ∀ i ∈ done, Q i)
    (h : decodeFrom P fuel offset done s = .ok (is, t)) : ∀ i ∈ is, Q i := by
  induction fuel generalizing offset done s with
  | zero =>
    obtain ⟨rfl, -⟩ := pure_eq_ok.mp h
    simpa using hDone
  | succ fuel ih =>
    rw [decodeFrom, get_bind_apply] at h
    split at h
    · obtain ⟨rfl, -⟩ := pure_eq_ok.mp h
      simpa using hDone
    · obtain ⟨i, _, hHead, h⟩ := bind_eq_ok.mp h
      exact ih (List.forall_mem_cons.mpr ⟨hQ _ _ _ _ hHead, hDone⟩) h

theorem of_decodeAll {Q : Instruction → Prop}
    (hQ : ∀ offset s i t, decode P offset s = .ok (i, t) → Q i) {is : List Instruction}
    (h : decodeAll P s = .ok is) : ∀ i ∈ is, Q i := by
  obtain ⟨⟨is', t⟩, hRun, rfl⟩ := Outcome.map_eq_ok.mp h
  exact of_decodeFrom hQ (by simp) hRun

theorem wellFormed_of_decodeAll {is : List Instruction} (h : decodeAll P s = .ok is) :
    ∀ i ∈ is, i.WellFormed P.Holds :=
  of_decodeAll (fun _ _ _ _ => wellFormed_of_decode) h

open Decoder in
theorem reads_plain {offset : Nat} {op : UInt8} {o : Operand} {form : OperandForm} {bs : Bytes}
    (hForm : OperandForm.ofOpcode op = some form) (hNarrow : form ≠ .wide)
    (h : Reads (Operand.decode P op offset form) bs o) :
    Reads (decode P offset) (op :: bs) ⟨UInt32.ofNat offset, op, o⟩ := by
  refine (reads_u1 op).bind ?_
  rw [hForm]
  cases form with
  | wide => exact absurd rfl hNarrow
  | _ => exact h.map fun o => (⟨UInt32.ofNat offset, op, o⟩ : Instruction)

open Decoder in
theorem reads_widened {offset : Nat} {op : UInt8} {o : Operand} {bs : Bytes}
    (h : Reads (Operand.decodeWide op offset) bs o) :
    Reads (decode P offset) (opWide :: op :: bs) ⟨UInt32.ofNat offset, op, o⟩ := by
  have hForm : OperandForm.ofOpcode opWide = some .wide := by decide
  refine (reads_u1 opWide).bind ?_
  rw [hForm]
  exact (reads_u1 op).bind (h.map fun o => (⟨UInt32.ofNat offset, op, o⟩ : Instruction))

/-- The bytes `bs` stand for the instruction `i` in a file with the pool `P`. -/
def Stored (P : Pool) (bs : Bytes) (i : Instruction) : Prop :=
  bs.length = i.size ∧ Decoder.Reads (decode P i.offset.toNat) bs i

theorem stored_plain {offset : UInt32} {op : UInt8} {o : Operand} {form : OperandForm} {bs : Bytes}
    (hForm : OperandForm.ofOpcode op = some form) (hNarrow : form ≠ .wide)
    (hLength : bs.length + 1 = size ⟨offset, op, o⟩)
    (h : Decoder.Reads (Operand.decode P op offset.toNat form) bs o) :
    Stored P (op :: bs) ⟨offset, op, o⟩ := by
  have hRead := reads_plain hForm hNarrow h
  rw [UInt32.ofNat_toNat] at hRead
  exact ⟨hLength, hRead⟩

theorem stored_widened {offset : UInt32} {op : UInt8} {o : Operand} {bs : Bytes}
    (hLength : bs.length + 2 = size ⟨offset, op, o⟩)
    (h : Decoder.Reads (Operand.decodeWide op offset.toNat) bs o) :
    Stored P (opWide :: op :: bs) ⟨offset, op, o⟩ := by
  have hRead := reads_widened (P := P) h
  rw [UInt32.ofNat_toNat] at hRead
  exact ⟨hLength, hRead⟩

theorem length_i4 (v : Int32) : (Bytes.i4 v).length = 4 := Bytes.length_u4 _

theorem length_flatMap_i4 (vs : List Int32) : (vs.flatMap Bytes.i4).length = 4 * vs.length := by
  induction vs with
  | nil => rfl
  | cons v vs ih =>
    rw [List.flatMap_cons, List.length_append, ih, length_i4, List.length_cons]
    omega

section Switch

variable {offset : UInt32} {op : UInt8} {default low high : Int32}

open Decoder

theorem stored_tableSwitch {offsets : List Int32}
    (hForm : OperandForm.ofOpcode op = some .tableSwitch) (hOrder : ¬ high < low)
    (hCount : offsets.length = (high.toInt - low.toInt + 1).toNat) :
    Stored P (op :: List.replicate (switchPadding offset.toNat) 0 ++
      ([default, low, high] ++ offsets).flatMap Bytes.i4)
      ⟨offset, op, .tableSwitch default low high offsets⟩ := by
  rw [List.cons_append]
  refine stored_plain hForm (by decide) ?_ ?_
  · rw [List.length_append, List.length_replicate, length_flatMap_i4, size]
    simp only [List.length_append, List.length_cons, List.length_nil]
    omega
  · refine (reads_take (List.length_replicate ..)).bind ?_
    refine (reads_i4 default).bind ((reads_i4 low).bind ((reads_i4 high).bind ?_))
    rw [if_neg hOrder, ← hCount]
    exact (reads_count_flatMap reads_i4 offsets).map fun v =>
      Operand.tableSwitch default low high v

def pair : Int32 × Int32 → Bytes := fun (key, offset) => Bytes.i4 key ++ Bytes.i4 offset

theorem length_flatMap_pair (ps : List (Int32 × Int32)) :
    (ps.flatMap pair).length = 8 * ps.length := by
  induction ps with
  | nil => rfl
  | cons p ps ih =>
    have hPair : (pair p).length = 8 := by
      rw [pair, List.length_append, length_i4, length_i4]
    rw [List.flatMap_cons, List.length_append, ih, hPair, List.length_cons]
    omega

theorem reads_pair (p : Int32 × Int32) : Reads (do return (← i4, ← i4)) (pair p) p :=
  (reads_i4 p.1).bind ((reads_i4 p.2).map fun v => (p.1, v))

theorem stored_lookupSwitch {pairs : List (Int32 × Int32)}
    (hForm : OperandForm.ofOpcode op = some .lookupSwitch) (hCount : pairs.length < 0x80000000) :
    Stored P (op :: List.replicate (switchPadding offset.toNat) 0 ++ Bytes.i4 default ++
      Bytes.u4 (UInt32.ofNat pairs.length) ++ pairs.flatMap pair)
      ⟨offset, op, .lookupSwitch default pairs⟩ := by
  have hValue : (Int32.ofNat pairs.length).toInt = pairs.length := Int32.toInt_ofNat_of_lt hCount
  have hPositive : ¬ Int32.ofNat pairs.length < 0 := by
    rw [Int32.lt_iff_toInt_lt, hValue]
    exact Int.not_lt.mpr (Int.natCast_nonneg _)
  have hWord : Bytes.u4 (UInt32.ofNat pairs.length) = Bytes.i4 (Int32.ofNat pairs.length) := rfl
  rw [hWord, List.cons_append, List.cons_append, List.cons_append, List.append_assoc,
    List.append_assoc]
  refine stored_plain hForm (by decide) ?_ ?_
  · simp only [List.length_append, List.length_replicate, length_i4, length_flatMap_pair, size]
    omega
  · refine (reads_take (List.length_replicate ..)).bind ?_
    refine (reads_i4 default).bind ((reads_i4 (Int32.ofNat pairs.length)).bind ?_)
    rw [if_neg hPositive, hValue, Int.toNat_natCast]
    exact (reads_count_flatMap reads_pair pairs).map fun v => Operand.lookupSwitch default v

end Switch

theorem ofOpcode_eq_ldc {op : UInt8} (h : OperandForm.ofOpcode op = some .ldc) : op = opLdc := by
  have hAll : ∀ n : Fin 256,
      OperandForm.ofOpcode (UInt8.ofFin n) = some .ldc → UInt8.ofFin n = opLdc := by
    decide +kernel
  exact hAll op.toFin h

theorem ofOpcode_eq_ldcLong {op : UInt8} (h : OperandForm.ofOpcode op = some .ldcLong) :
    op ≠ opLdc := by
  rintro rfl
  exact absurd h (by decide)

theorem toUInt16_toUInt8 {index : UInt16} (h : ¬ index > 255) :
    index.toUInt8.toUInt16 = index := by
  rw [← UInt16.toNat_inj, UInt8.toNat_toUInt16, UInt16.toNat_toUInt8]
  rw [gt_iff_lt, UInt16.lt_iff_toNat_lt] at h
  have hBound : index.toNat ≤ 255 := Nat.le_of_not_lt h
  omega

theorem toInt16_toInt8 {delta : Int16} (hLow : ¬ delta < -128) (hHigh : ¬ delta > 127) :
    delta.toInt8.toInt16 = delta := by
  rw [← Int16.toInt_inj, Int8.toInt_toInt16, Int16.toInt_toInt8]
  rw [Int16.lt_iff_toInt_lt] at hLow
  rw [gt_iff_lt, Int16.lt_iff_toInt_lt] at hHigh
  have hLow' : -128 ≤ delta.toInt := Int.not_lt.mp hLow
  have hHigh' : delta.toInt ≤ 127 := Int.not_lt.mp hHigh
  rw [Int.bmod_eq_of_le] <;> omega

variable {K : Constant → Prop}

open Decoder in
theorem emits_encode (hK : Constant.Closed K) {i : Instruction} (hi : i.WellFormed K) :
    Encoder.Emits K i.encode fun P bs => Stored P bs i := by
  obtain ⟨offset, op, o⟩ := i
  obtain ⟨form, hForm, hFits⟩ := hi
  dsimp only at hForm hFits
  cases hFits with
  | none => exact .pure fun P => stored_plain hForm (by decide) rfl (Reads.pure _)
  | byte value =>
    exact .pure fun P => stored_plain hForm (by decide) rfl ((reads_i1 value).map _)
  | short value =>
    exact .pure fun P => stored_plain hForm (by decide) rfl ((reads_i2 value).map _)
  | arrayType code =>
    exact .pure fun P => stored_plain hForm (by decide) rfl ((reads_u1 code).map _)
  | localVar index wide =>
    cases wide with
    | true =>
      refine .pure fun P => stored_widened rfl ?_
      unfold Operand.decodeWide
      rw [hForm]
      exact (reads_u2 index).map fun v => Operand.localVar v true
    | false =>
      refine .guarded fun hIndex => .pure fun P => stored_plain hForm (by decide) rfl ?_
      have hNarrow : index.toUInt8.toUInt16 = index := toUInt16_toUInt8 hIndex
      have hRead := (reads_u1 index.toUInt8).map fun v => Operand.localVar v.toUInt16 false
      rwa [hNarrow] at hRead
  | increment index delta wide =>
    cases wide with
    | true =>
      refine .pure fun P => stored_widened rfl ?_
      unfold Operand.decodeWide
      rw [hForm]
      refine (reads_u2 index).bind ?_
      exact (reads_i2 delta).map fun v => Operand.increment index v true
    | false =>
      refine .guarded fun hRange => .pure fun P => stored_plain hForm (by decide) rfl ?_
      simp only [Bool.or_eq_true, decide_eq_true_eq, not_or] at hRange
      obtain ⟨⟨hIndex, hLow⟩, hHigh⟩ := hRange
      have hNarrow : index.toUInt8.toUInt16 = index := toUInt16_toUInt8 hIndex
      have hDelta : delta.toInt8.toInt16 = delta := toInt16_toInt8 hLow hHigh
      refine (reads_u1 index.toUInt8).bind ?_
      rw [hNarrow]
      have hRead := (reads_i1 delta.toInt8).map fun v => Operand.increment index v.toInt16 false
      rwa [hDelta] at hRead
  | jump delta =>
    exact .pure fun P => stored_plain hForm (by decide) rfl ((reads_i2 delta).map _)
  | jumpWide delta =>
    exact .pure fun P => stored_plain hForm (by decide) rfl ((reads_i4 delta).map _)
  | @ldc c hc hLoadable hSingle =>
    refine (Encoder.emits_constant hK hc).bind fun index => ?_
    have hOp : op = opLdc := ofOpcode_eq_ldc hForm
    subst hOp
    rw [if_pos rfl]
    refine .guarded fun hIndex => .pure fun P hNames => stored_plain hForm (by decide) rfl ?_
    refine (reads_u1 index.toUInt8).bind ?_
    dsimp only
    rw [toUInt16_toUInt8 hIndex]
    refine Reads.lift_bind (Pool.loadable_eq_ok.mpr ⟨hNames, hLoadable⟩) ?_
    rw [hSingle]
    exact Reads.pure _
  | @ldcLong c hc hLoadable hWidth =>
    refine (Encoder.emits_constant hK hc).bind fun index => ?_
    have hOp : op ≠ opLdc := ofOpcode_eq_ldcLong hForm
    rw [if_neg hOp]
    refine .pure fun P hNames => stored_plain hForm (by decide) (by simp [size, hOp]) ?_
    refine (reads_u2 index).bind (Reads.lift_bind (Pool.loadable_eq_ok.mpr ⟨hNames, hLoadable⟩) ?_)
    rw [if_neg (Decidable.not_not.mpr hWidth)]
    exact Reads.pure _
  | @field r hr hKind =>
    refine (Encoder.emits_memberRef hK hr).bind fun index => .pure fun P hNames => ?_
    exact stored_plain hForm (by decide) rfl ((reads_u2 index).bind
      (Reads.lift_bind (Pool.memberOf_eq_ok.mpr ⟨hNames, hKind⟩) (Reads.pure _)))
  | @method r hr hKind =>
    refine (Encoder.emits_memberRef hK hr).bind fun index => .pure fun P hNames => ?_
    exact stored_plain hForm (by decide) rfl ((reads_u2 index).bind
      (Reads.lift_bind (Pool.memberOf_eq_ok.mpr ⟨hNames, hKind⟩) (Reads.pure _)))
  | @anyMethod r hr hKind =>
    refine (Encoder.emits_memberRef hK hr).bind fun index => .pure fun P hNames => ?_
    exact stored_plain hForm (by decide) rfl ((reads_u2 index).bind
      (Reads.lift_bind (Pool.memberOf_eq_ok.mpr ⟨hNames, hKind⟩) (Reads.pure _)))
  | @invokeInterface r count hr hKind =>
    refine (Encoder.emits_memberRef hK hr).bind fun index => .pure fun P hNames => ?_
    refine stored_plain hForm (by decide) rfl ((reads_u2 index).bind ?_)
    exact (reads_u1 count).bind ((reads_u1 0).bind
      (Reads.lift_bind (Pool.memberOf_eq_ok.mpr ⟨hNames, hKind⟩) (Reads.pure _)))
  | @invokeDynamic bootstrap callSite hc =>
    refine (Encoder.emits_constant hK hc).bind fun index => .pure fun P hNames => ?_
    refine stored_plain hForm (by decide) rfl ((reads_u2 index).bind ?_)
    exact (reads_u2 0).bind (Reads.lift_bind (Pool.constant_eq_ok.mpr hNames) (Reads.pure _))
  | @classRef name hc =>
    refine (Encoder.emits_className hK hc).bind fun index => .pure fun P hNames => ?_
    exact stored_plain hForm (by decide) rfl ((reads_u2 index).bind
      (Reads.lift_bind (Pool.className_eq_ok.mpr hNames) (Reads.pure _)))
  | @multiArray name dimensions hc =>
    refine (Encoder.emits_className hK hc).bind fun index => .pure fun P hNames => ?_
    refine stored_plain hForm (by decide) rfl ((reads_u2 index).bind ?_)
    exact (reads_u1 dimensions).bind
      (Reads.lift_bind (Pool.className_eq_ok.mpr hNames) (Reads.pure _))
  | @tableSwitch default low high offsets hOrder hCount =>
    exact .pure fun P => stored_tableSwitch hForm hOrder hCount
  | @lookupSwitch default pairs hCount => exact .pure fun P => stored_lookupSwitch hForm hCount

/-- The pieces written from `offset` on are read back by a reader that starts there. -/
theorem emits_encodeFrom (hK : Constant.Closed K) {is : List Instruction}
    (h : ∀ i ∈ is, i.WellFormed K) (offset : Nat) (done : List Bytes) :
    Encoder.Emits K (encodeFrom offset done is) fun P bs =>
      ∃ code, bs = done.reverse.flatten ++ code ∧ ∀ fuel before, code.length ≤ fuel →
        decodeFrom P fuel offset before code = .ok (before.reverse ++ is, []) := by
  induction is generalizing offset done with
  | nil =>
    refine .pure fun P => ⟨[], (List.append_nil _).symm, fun fuel before _ => ?_⟩
    rw [List.append_nil]
    cases fuel <;> rfl
  | cons i is ih =>
    obtain ⟨hHead, hTail⟩ := List.forall_mem_cons.mp h
    refine .guarded fun hOffset => (emits_encode hK hHead).bind fun bytes => ?_
    refine (ih hTail (offset + bytes.length) (bytes :: done)).imp fun P bs hRest hHeadStored => ?_
    obtain ⟨code, rfl, hCode⟩ := hRest
    obtain ⟨hLength, hRead⟩ := hHeadStored
    refine ⟨bytes ++ code, by simp, fun fuel before hFuel => ?_⟩
    rw [Decidable.not_not.mp hOffset] at hRead
    have hPos := i.size_pos
    rw [List.length_append] at hFuel
    cases fuel with
    | zero => omega
    | succ fuel =>
      have hNonempty : (bytes ++ code).isEmpty = false := by
        rw [List.isEmpty_eq_false_iff, ← List.length_pos_iff, List.length_append]
        omega
      rw [decodeFrom, get_bind_apply, hNonempty, if_neg Bool.false_ne_true, bind_eq_ok]
      refine ⟨i, code, hRead code, ?_⟩
      rw [← hLength, hCode fuel (i :: before) (by omega), List.reverse_cons, List.append_assoc]
      rfl

theorem emits_encodeAll (hK : Constant.Closed K) {is : List Instruction}
    (h : ∀ i ∈ is, i.WellFormed K) :
    Encoder.Emits K (encodeAll is) fun P bs => decodeAll P bs = .ok is := by
  refine (emits_encodeFrom hK h 0 []).imp fun P bs hRead => ?_
  obtain ⟨code, rfl, hCode⟩ := hRead
  rw [decodeAll, StateT.run'_eq, Outcome.map_eq_ok]
  exact ⟨_, hCode _ [] (Nat.le_refl _), rfl⟩

end Instruction

end Renaming
