import Renaming.ClassFile.Instruction
import Renaming.ClassFile.PoolBuilder

/-!
# Bytecode

Instructions are read one after the other until the code ends. Writing puts each instruction where
its offset says, and fails if it would come to lie elsewhere.
-/

namespace Renaming

namespace Pool

def memberOf (pool : Pool) (kinds : List MemberKind) (index : UInt16) :
    Except ReadError MemberRef := do
  let r ← pool.memberRef index
  if r.kind ∈ kinds then return r else throw (.unexpectedConstant index .memberOfKind)

end Pool

namespace Operand

def decode (pool : Pool) (op : UInt8) (offset : Nat) : OperandForm → Decoder Operand
  | .none => return .none
  | .byte => return .byte (← Decoder.i1)
  | .short => return .short (← Decoder.i2)
  | .arrayType => return .arrayType (← Decoder.u1)
  | .localVar => return .localVar (← Decoder.u1).toUInt16 false
  | .increment => return .increment (← Decoder.u1).toUInt16 (← Decoder.i1).toInt16 false
  | .jump => return .jump (← Decoder.i2)
  | .jumpWide => return .jumpWide (← Decoder.i4)
  | .ldc => do
    let index := (← Decoder.u1).toUInt16
    let c ← pool.loadable index
    if c.pushesTwo then throw (.unexpectedConstant index .singleSlot)
    return .constant c
  | .ldcLong => do
    let index ← Decoder.u2
    let c ← pool.loadable index
    if c.pushesTwo ≠ (op = opLdc2 : Bool) then throw (.unexpectedConstant index .matchingWidth)
    return .constant c
  | .field => return .member (← pool.memberOf [.field] (← Decoder.u2))
  | .method => return .member (← pool.memberOf [.method] (← Decoder.u2))
  | .anyMethod => return .member (← pool.memberOf [.method, .interfaceMethod] (← Decoder.u2))
  | .invokeInterface => do
    let index ← Decoder.u2
    let count ← Decoder.u1
    let _reserved ← Decoder.u1
    return .invokeInterface (← pool.memberOf [.interfaceMethod] index) count
  | .invokeDynamic => do
    let index ← Decoder.u2
    let _reserved ← Decoder.u2
    match ← pool.constant index with
    | .invokeDynamic bootstrap callSite => return .invokeDynamic bootstrap callSite
    | _ => throw (.unexpectedConstant index .invokeDynamic)
  | .classRef => return .classRef (← pool.className (← Decoder.u2))
  | .multiArray => do
    let index ← Decoder.u2
    let dimensions ← Decoder.u1
    return .multiArray (← pool.className index) dimensions
  | .tableSwitch => do
    let _padding ← Decoder.take (switchPadding offset)
    let default ← Decoder.i4
    let low ← Decoder.i4
    let high ← Decoder.i4
    if high < low then throw (.invertedTable offset low high)
    let offsets ← Decoder.count (high.toInt - low.toInt + 1).toNat Decoder.i4
    return .tableSwitch default low high offsets
  | .lookupSwitch => do
    let _padding ← Decoder.take (switchPadding offset)
    let default ← Decoder.i4
    let pairs ← Decoder.i4
    if pairs < 0 then throw (.negativePairs offset pairs)
    return .lookupSwitch default
      (← Decoder.count pairs.toInt.toNat do return (← Decoder.i4, ← Decoder.i4))
  | .wide => throw (.invalidOpcode op offset)

def decodeWide (op : UInt8) (offset : Nat) : Decoder Operand :=
  match OperandForm.ofOpcode op with
  | some .localVar => return .localVar (← Decoder.u2) true
  | some .increment => return .increment (← Decoder.u2) (← Decoder.i2) true
  | _ => throw (.invalidOpcode op (offset + 1))

end Operand

namespace Instruction

def decode (pool : Pool) (offset : Nat) : Decoder Instruction := do
  let op ← Decoder.u1
  match OperandForm.ofOpcode op with
  | none => throw (.invalidOpcode op offset)
  | some .wide =>
    let widened ← Decoder.u1
    return ⟨UInt32.ofNat offset, widened, ← Operand.decodeWide widened offset⟩
  | some form => return ⟨UInt32.ofNat offset, op, ← Operand.decode pool op offset form⟩

/-- Reads instructions from `offset` to the end of the input, which takes no more than `fuel` of
them. The instructions before come last in `done`. -/
def decodeFrom (pool : Pool) : (fuel offset : Nat) → (done : List Instruction) →
    Decoder (List Instruction)
  | 0, _, done => return done.reverse
  | fuel + 1, offset, done => do
    if (← get).isEmpty then return done.reverse
    let i ← decode pool offset
    decodeFrom pool fuel (offset + i.size) (i :: done)

def decodeAll (pool : Pool) (code : Bytes) : Except ReadError (List Instruction) :=
  (decodeFrom pool code.length 0 []).run' code

/-- The stored form of one instruction. Operands without the `wide` byte have to fit one byte. -/
def encode (i : Instruction) : Encoder Bytes :=
  match i.operand with
  | .none => return [i.opcode]
  | .byte value => return [i.opcode, value.toUInt8]
  | .short value => return i.opcode :: Bytes.i2 value
  | .arrayType code => return [i.opcode, code]
  | .localVar index true => return opWide :: i.opcode :: Bytes.u2 index
  | .localVar index false =>
    if index > 255 then throw (.operandOutOfRange "local variable index")
    else return [i.opcode, index.toUInt8]
  | .increment index delta true => return opWide :: i.opcode :: Bytes.u2 index ++ Bytes.i2 delta
  | .increment index delta false =>
    if index > 255 || delta < -128 || delta > 127 then throw (.operandOutOfRange "iinc")
    else return [i.opcode, index.toUInt8, delta.toInt8.toUInt8]
  | .jump delta => return i.opcode :: Bytes.i2 delta
  | .jumpWide delta => return i.opcode :: Bytes.i4 delta
  | .constant value => do
    let index ← PoolBuilder.constant value
    if i.opcode = opLdc then
      if index > 255 then throw (.ldcIndexOverflow index)
      return [i.opcode, index.toUInt8]
    return i.opcode :: Bytes.u2 index
  | .member r => return i.opcode :: Bytes.u2 (← PoolBuilder.memberRef r)
  | .invokeInterface r count =>
    return i.opcode :: Bytes.u2 (← PoolBuilder.memberRef r) ++ [count, 0]
  | .invokeDynamic bootstrap callSite =>
    return i.opcode :: Bytes.u2 (← PoolBuilder.constant (.invokeDynamic bootstrap callSite)) ++
      [0, 0]
  | .classRef name => return i.opcode :: Bytes.u2 (← PoolBuilder.className name)
  | .multiArray name dimensions =>
    return i.opcode :: Bytes.u2 (← PoolBuilder.className name) ++ [dimensions]
  | .tableSwitch default low high offsets =>
    return i.opcode :: List.replicate (switchPadding i.offset.toNat) 0 ++
      ([default, low, high] ++ offsets).flatMap Bytes.i4
  | .lookupSwitch default pairs =>
    return i.opcode :: List.replicate (switchPadding i.offset.toNat) 0 ++
      Bytes.i4 default ++ Bytes.u4 (UInt32.ofNat pairs.length) ++
      pairs.flatMap fun (key, offset) => Bytes.i4 key ++ Bytes.i4 offset

def encodeFrom : (offset : Nat) → (done : List Bytes) → List Instruction → Encoder Bytes
  | _, done, [] => return done.reverse.flatten
  | offset, done, i :: rest => do
    if i.offset.toNat ≠ offset then throw (.instructionOffset i.offset offset)
    let bytes ← i.encode
    encodeFrom (offset + bytes.length) (bytes :: done) rest

def encodeAll (instructions : List Instruction) : Encoder Bytes :=
  encodeFrom 0 [] instructions

end Instruction

end Renaming
