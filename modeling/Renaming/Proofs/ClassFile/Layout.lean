import Renaming.Proofs.ClassFile.Bytecode

/-!
# The layout of bytecode

`Instruction.layout` says of each byte of an instruction what stands there: a byte that the
instruction fixes, a byte of an index into the constant pool, or filler that no reader looks at. The
layout is as long as the instruction says, and what is written fits it and has zeros for filler.
-/

namespace Renaming

/-- What stands at one place of an instruction. -/
inductive CodeByte where
  | fixed (value : UInt8)
  /-- A byte of an index into the constant pool. -/
  | index
  /-- Padding of a switch, or a reserved byte. -/
  | filler
deriving DecidableEq, Repr

namespace CodeByte

def Admits : CodeByte → UInt8 → Prop
  | fixed value, b => b = value
  | index, _ => True
  | filler, _ => True

def Writes : CodeByte → UInt8 → Prop
  | fixed value, b => b = value
  | index, _ => True
  | filler, b => b = 0

end CodeByte

/-- What stands at each place of the instruction. -/
def Instruction.layout (i : Instruction) : List CodeByte :=
  match i.operand with
  | .none => [i.opcode].map .fixed
  | .byte value => [i.opcode, value.toUInt8].map .fixed
  | .short value => (i.opcode :: Bytes.i2 value).map .fixed
  | .arrayType code => [i.opcode, code].map .fixed
  | .localVar index true => (opWide :: i.opcode :: Bytes.u2 index).map .fixed
  | .localVar index false => [i.opcode, index.toUInt8].map .fixed
  | .increment index delta true =>
    (opWide :: i.opcode :: (Bytes.u2 index ++ Bytes.i2 delta)).map .fixed
  | .increment index delta false => [i.opcode, index.toUInt8, delta.toInt8.toUInt8].map .fixed
  | .jump delta => (i.opcode :: Bytes.i2 delta).map .fixed
  | .jumpWide delta => (i.opcode :: Bytes.i4 delta).map .fixed
  | .constant _ => .fixed i.opcode :: List.replicate (if i.opcode = opLdc then 1 else 2) .index
  | .member _ | .classRef _ => [.fixed i.opcode, .index, .index]
  | .invokeInterface _ count => [.fixed i.opcode, .index, .index, .fixed count, .filler]
  | .invokeDynamic _ _ => [.fixed i.opcode, .index, .index, .filler, .filler]
  | .multiArray _ dimensions => [.fixed i.opcode, .index, .index, .fixed dimensions]
  | .tableSwitch default low high offsets =>
    .fixed i.opcode :: (List.replicate (switchPadding i.offset.toNat) .filler ++
      (([default, low, high] ++ offsets).flatMap Bytes.i4).map .fixed)
  | .lookupSwitch default pairs =>
    .fixed i.opcode :: (List.replicate (switchPadding i.offset.toNat) .filler ++
      (Bytes.i4 default ++ (Bytes.u4 (UInt32.ofNat pairs.length) ++
        pairs.flatMap Instruction.pair)).map .fixed)

abbrev Instruction.Fits (i : Instruction) (bs : Bytes) : Prop :=
  List.Forall₂ CodeByte.Admits i.layout bs

theorem Instruction.length_layout (i : Instruction) : i.layout.length = i.size := by
  obtain ⟨offset, op, o⟩ := i
  cases o with
  | localVar index wide | increment index delta wide => cases wide <;> rfl
  | constant value =>
    rw [layout, size, List.length_cons, List.length_replicate]
    split <;> rfl
  | tableSwitch default low high offsets =>
    simp only [layout, size, List.length_cons, List.length_append, List.length_replicate,
      List.length_map, length_flatMap_i4, List.length_nil]
    omega
  | lookupSwitch default pairs =>
    simp only [layout, size, List.length_cons, List.length_append, List.length_replicate,
      List.length_map, length_flatMap_pair, length_i4, Bytes.length_u4]
    omega
  | _ => rfl

theorem CodeByte.forall₂_fixed {R : CodeByte → UInt8 → Prop} (hR : ∀ b, R (.fixed b) b)
    (bs : Bytes) : List.Forall₂ R (bs.map .fixed) bs := by
  rw [List.forall₂_map_left_iff, List.forall₂_same]
  exact fun b _ => hR b

theorem CodeByte.admits_fixed (bs : Bytes) : List.Forall₂ Admits (bs.map .fixed) bs :=
  forall₂_fixed (fun _ => rfl) bs

theorem CodeByte.writes_fixed (bs : Bytes) : List.Forall₂ Writes (bs.map .fixed) bs :=
  forall₂_fixed (fun _ => rfl) bs

namespace Instruction

variable {b b' : PoolBuilder}

theorem writes_of_encode {i : Instruction} {bs : Bytes} (h : i.encode b = .ok (bs, b')) :
    List.Forall₂ CodeByte.Writes i.layout bs := by
  obtain ⟨offset, op, o⟩ := i
  have hPadding (n : Nat) : List.Forall₂ CodeByte.Writes (List.replicate n .filler)
      (List.replicate n 0) := by
    induction n with
    | zero => exact .nil
    | succ n ih => exact .cons rfl ih
  cases o with
  | none | byte | short | arrayType | jump | jumpWide =>
    obtain ⟨rfl, -⟩ := Stateful.pure_eq_ok.mp h
    exact CodeByte.writes_fixed _
  | localVar index wide | increment index delta wide =>
    cases wide with
    | true =>
      obtain ⟨rfl, -⟩ := Stateful.pure_eq_ok.mp h
      exact CodeByte.writes_fixed _
    | false =>
      dsimp only [encode] at h
      split at h
      · exact absurd h Stateful.throw_ne_ok
      · obtain ⟨rfl, -⟩ := Stateful.pure_eq_ok.mp h
        exact CodeByte.writes_fixed _
  | constant value =>
    obtain ⟨index, t, -, h⟩ := Stateful.bind_eq_ok.mp h
    split at h
    · rename_i hLdc
      split at h
      · exact absurd h (Stateful.throw_ne_ok (s := t))
      · obtain ⟨rfl, -⟩ := Stateful.pure_eq_ok.mp h
        rw [layout, if_pos hLdc]
        exact .cons rfl (.cons trivial .nil)
    · rename_i hLong
      obtain ⟨rfl, -⟩ := Stateful.pure_eq_ok.mp h
      rw [layout, if_neg hLong]
      exact .cons rfl (.cons trivial (.cons trivial .nil))
  | member | classRef =>
    obtain ⟨index, _, -, h⟩ := Stateful.bind_eq_ok.mp h
    obtain ⟨rfl, -⟩ := Stateful.pure_eq_ok.mp h
    exact .cons rfl (.cons trivial (.cons trivial .nil))
  | invokeInterface =>
    obtain ⟨index, _, -, h⟩ := Stateful.bind_eq_ok.mp h
    obtain ⟨rfl, -⟩ := Stateful.pure_eq_ok.mp h
    exact .cons rfl (.cons trivial (.cons trivial (.cons rfl (.cons rfl .nil))))
  | invokeDynamic =>
    obtain ⟨index, _, -, h⟩ := Stateful.bind_eq_ok.mp h
    obtain ⟨rfl, -⟩ := Stateful.pure_eq_ok.mp h
    exact .cons rfl (.cons trivial (.cons trivial (.cons rfl (.cons rfl .nil))))
  | multiArray =>
    obtain ⟨index, _, -, h⟩ := Stateful.bind_eq_ok.mp h
    obtain ⟨rfl, -⟩ := Stateful.pure_eq_ok.mp h
    exact .cons rfl (.cons trivial (.cons trivial (.cons rfl .nil)))
  | tableSwitch default low high offsets =>
    obtain ⟨rfl, -⟩ := Stateful.pure_eq_ok.mp h
    exact .cons rfl (List.rel_append (hPadding _) (CodeByte.writes_fixed _))
  | lookupSwitch default pairs =>
    obtain ⟨rfl, -⟩ := Stateful.pure_eq_ok.mp h
    rw [List.append_assoc, List.append_assoc]
    exact .cons rfl (List.rel_append (hPadding _) (CodeByte.writes_fixed _))

theorem length_of_encode {i : Instruction} {bs : Bytes} (h : i.encode b = .ok (bs, b')) :
    bs.length = i.size := by
  rw [← (writes_of_encode h).length_eq, length_layout]

end Instruction

end Renaming
