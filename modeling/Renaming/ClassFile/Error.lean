import Renaming.Text.Hex
import Renaming.Text.ModifiedUtf8

/-!
# Failures of reading and writing a class file

Each failure is a value that names its cause; `message` holds the wording.
-/

namespace Renaming

inductive ExpectedConstant where
  | utf8 | classRef | module | package | nameAndType | memberReference | invokeDynamic | loadable
  | memberOfKind
  | singleSlot
  /-- A constant as wide as the form of `ldc` with a two-byte index says. -/
  | matchingWidth
  | matchingTag
deriving DecidableEq, Repr

def ExpectedConstant.text : ExpectedConstant → String
  | utf8 => "Utf8"
  | classRef => "Class"
  | module => "Module"
  | package => "Package"
  | nameAndType => "NameAndType"
  | memberReference => "member reference"
  | invokeDynamic => "InvokeDynamic"
  | loadable => "loadable constant"
  | memberOfKind => "member reference of the kind this instruction needs"
  | singleSlot => "single slot constant"
  | matchingWidth => "constant matching the ldc width"
  | matchingTag => "constant matching the element value tag"

inductive AttributeFault where
  | length (name : String)
  | verificationType (tag : UInt8)
  | frameType (tag : UInt8)
  | elementTag (tag : UInt8)
  | typeTarget (tag : UInt8)
  | bootstrapNotHandle
deriving DecidableEq, Repr

def AttributeFault.text : AttributeFault → String
  | length name => name
  | verificationType tag => s!"StackMapTable verification type {tag.toNat}"
  | frameType tag => s!"StackMapTable frame type {tag.toNat}"
  | elementTag tag => s!"element value tag {Char.ofNat tag.toNat}"
  | typeTarget tag => s!"type annotation target 0x{hex 2 tag.toNat}"
  | bootstrapNotHandle => "BootstrapMethods entry is not a method handle"

inductive ReadError where
  | unexpectedEof
  | invalidMagic (magic : UInt32)
  | unsupportedVersion (major minor : UInt16)
  /-- The declared size of the constant pool is zero or splits a two-slot entry. -/
  | invalidPoolCount (count : UInt16)
  | invalidPoolTag (tag : UInt8)
  | invalidIndex (index : UInt16)
  | unexpectedConstant (index : UInt16) (expected : ExpectedConstant)
  | invalidOpcode (opcode : UInt8) (offset : Nat)
  | invalidAttribute (fault : AttributeFault)
  | trailingBytes (count : Nat)
  | invalidUtf8 (fault : ModifiedUtf8.Fault)
  | invertedTable (offset : Nat) (low high : Int32)
  | negativePairs (offset : Nat) (count : Int32)
deriving DecidableEq, Repr

def ReadError.message : ReadError → String
  | unexpectedEof => "unexpected end of input"
  | invalidMagic magic => s!"invalid magic 0x{hex 8 magic.toNat}"
  | unsupportedVersion major minor => s!"unsupported class file version {major.toNat}.{minor.toNat}"
  | invalidPoolCount count => s!"constant pool count {count.toNat} is inconsistent with its entries"
  | invalidPoolTag tag => s!"invalid constant pool tag {tag.toNat}"
  | invalidIndex index => s!"invalid constant pool index {index.toNat}"
  | unexpectedConstant index expected =>
    s!"constant pool entry {index.toNat} is not a {expected.text}"
  | invalidOpcode opcode offset => s!"invalid opcode 0x{hex 2 opcode.toNat} at {offset}"
  | invalidAttribute fault => s!"attribute {fault.text} is inconsistent with its declared length"
  | trailingBytes count => s!"{count} trailing bytes after class file"
  | invalidUtf8 fault =>
    let len := match fault.errorLen with
      | none => "None"
      | some n => s!"Some({n})"
    "modified utf8 error: EncodingError \x7b error_len: " ++ len ++
      s!", valid_up_to: {fault.validUpTo} " ++ "\x7d"
  | invertedTable offset low high =>
    s!"malformed class file structure (tableswitch at {offset} has low {low.toInt} " ++
      s!"above high {high.toInt})"
  | negativePairs offset count =>
    s!"malformed class file structure (lookupswitch at {offset} has {count.toInt} pairs)"

inductive WriteError where
  | poolOverflow
  /-- A constant of an `ldc` instruction got an index that does not fit one byte. -/
  | ldcIndexOverflow (index : UInt16)
  | stringTooLong (bytes : Nat)
  | tooManyEntries (table : String)
  | instructionOffset (recorded : UInt32) (actual : Nat)
  | unfilledSlot
  | operandOutOfRange (operand : String)
  | mixedPools (name : String)
deriving DecidableEq, Repr

def WriteError.message : WriteError → String
  | poolOverflow => "constant pool exceeds 65535 entries"
  | ldcIndexOverflow index => s!"ldc operand landed at constant pool index {index.toNat}"
  | stringTooLong bytes => s!"string constant of {bytes} bytes is too long"
  | tooManyEntries table => s!"{table} has too many entries"
  | instructionOffset recorded actual =>
    s!"instruction recorded at offset {recorded.toNat} encodes at {actual}"
  | unfilledSlot => "constant reserved constant pool slot was never filled cannot be used here"
  | operandOutOfRange operand => s!"operand of {operand} is out of range"
  | mixedPools name =>
    s!"attribute {name} was read with a different constant pool than the rest of the class"

end Renaming
