import Renaming.ClassFile.Constant

/-!
# Instructions

An instruction keeps the offset it was read at and the width it was written with, so that replacing
a name in its operand never moves the code behind it. The opcode alone says which form of operand
follows it.
-/

namespace Renaming

inductive Operand where
  | none
  | byte (value : Int8)
  | short (value : Int16)
  | arrayType (code : UInt8)
  | localVar (index : UInt16) (wide : Bool)
  | increment (index : UInt16) (delta : Int16) (wide : Bool)
  | jump (delta : Int16)
  | jumpWide (delta : Int32)
  | constant (value : Constant)
  | member (reference : MemberRef)
  | invokeInterface (method : MemberRef) (count : UInt8)
  | invokeDynamic (bootstrap : UInt16) (callSite : NameAndType)
  | classRef (name : String)
  | multiArray (name : String) (dimensions : UInt8)
  | tableSwitch (default low high : Int32) (offsets : List Int32)
  | lookupSwitch (default : Int32) (pairs : List (Int32 × Int32))
deriving DecidableEq, Repr

structure Instruction where
  offset : UInt32
  /-- In a widened instruction this is the opcode after the `wide` byte. -/
  opcode : UInt8
  operand : Operand
deriving DecidableEq, Repr

def opLdc : UInt8 := 0x12

/-- The form of `ldc` for constants that take two slots of the stack. -/
def opLdc2 : UInt8 := 0x14

def opWide : UInt8 := 0xc4

/-- How many bytes make the operands after a switch opcode at `offset` start at a multiple of 4. -/
def switchPadding (offset : Nat) : Nat := (4 - (offset + 1) % 4) % 4

def Instruction.size (i : Instruction) : Nat :=
  match i.operand with
  | .none => 1
  | .byte _ | .arrayType _ => 2
  | .short _ | .jump _ | .member _ | .classRef _ => 3
  | .localVar _ wide => if wide then 4 else 2
  | .increment _ _ wide => if wide then 6 else 3
  | .jumpWide _ => 5
  | .constant _ => if i.opcode = opLdc then 2 else 3
  | .invokeInterface .. | .invokeDynamic .. => 5
  | .multiArray .. => 4
  | .tableSwitch _ _ _ offsets => 1 + switchPadding i.offset.toNat + 12 + 4 * offsets.length
  | .lookupSwitch _ pairs => 1 + switchPadding i.offset.toNat + 8 + 8 * pairs.length

theorem Instruction.size_pos (i : Instruction) : 0 < i.size := by
  unfold Instruction.size
  split <;> (try split) <;> omega

inductive OperandForm where
  | none | byte | short | arrayType | localVar | increment | jump | jumpWide
  | ldc | ldcLong | field | method | anyMethod | invokeInterface | invokeDynamic
  | classRef | multiArray | tableSwitch | lookupSwitch
  | wide
deriving DecidableEq, Repr

def OperandForm.ofOpcode (op : UInt8) : Option OperandForm :=
  if op = 0x10 then some .byte
  else if op = 0x11 then some .short
  else if op = 0x12 then some .ldc
  else if op = 0x13 || op = 0x14 then some .ldcLong
  else if (0x15 ≤ op && op ≤ 0x19) || (0x36 ≤ op && op ≤ 0x3a) || op = 0xa9 then some .localVar
  else if op = 0x84 then some .increment
  else if (0x99 ≤ op && op ≤ 0xa8) || op = 0xc6 || op = 0xc7 then some .jump
  else if op = 0xaa then some .tableSwitch
  else if op = 0xab then some .lookupSwitch
  else if 0xb2 ≤ op && op ≤ 0xb5 then some .field
  else if op = 0xb6 then some .method
  else if op = 0xb7 || op = 0xb8 then some .anyMethod
  else if op = 0xb9 then some .invokeInterface
  else if op = 0xba then some .invokeDynamic
  else if op = 0xbb || op = 0xbd || op = 0xc0 || op = 0xc1 then some .classRef
  else if op = 0xbc then some .arrayType
  else if op = 0xc4 then some .wide
  else if op = 0xc5 then some .multiArray
  else if op = 0xc8 || op = 0xc9 then some .jumpWide
  else if op < 0xc8 then some .none
  else Option.none

end Renaming
