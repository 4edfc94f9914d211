import Renaming.Binary.Decoder
import Renaming.ClassFile.Constant

/-!
# The constant pool of a class file

Reading a pool yields one `PoolEntry` for each slot; `Pool.constant` and its relatives follow the
indices. Index 0 leads nowhere, and neither does the second slot of a long or double.
-/

namespace Renaming

structure Pool where
  entries : Array PoolEntry
deriving DecidableEq, Repr

namespace PoolEntry

def decode : Decoder PoolEntry := do
  let tag ← Decoder.u1
  match tag with
  | 1 =>
    let bytes ← Decoder.take (← Decoder.u2).toNat
    match ModifiedUtf8.decode bytes with
    | .ok value => return .utf8 value
    | .error fault => throw (.invalidUtf8 fault)
  | 3 => return .integer (← Decoder.i4)
  | 4 => return .float (← Decoder.u4)
  | 5 => return .long (← Decoder.i8)
  | 6 => return .double (← Decoder.u8)
  | 7 => return .classRef (← Decoder.u2)
  | 8 => return .string (← Decoder.u2)
  | 9 => return .member .field (← Decoder.u2) (← Decoder.u2)
  | 10 => return .member .method (← Decoder.u2) (← Decoder.u2)
  | 11 => return .member .interfaceMethod (← Decoder.u2) (← Decoder.u2)
  | 12 => return .nameAndType (← Decoder.u2) (← Decoder.u2)
  | 15 => return .methodHandle (← Decoder.u1) (← Decoder.u2)
  | 16 => return .methodType (← Decoder.u2)
  | 17 => return .dynamic (← Decoder.u2) (← Decoder.u2)
  | 18 => return .invokeDynamic (← Decoder.u2) (← Decoder.u2)
  | 19 => return .module (← Decoder.u2)
  | 20 => return .package (← Decoder.u2)
  | tag => throw (.invalidPoolTag tag)

def encode : PoolEntry → Bytes
  | empty => []
  | utf8 value =>
    let bytes := ModifiedUtf8.encode value
    1 :: Bytes.u2 (UInt16.ofNat bytes.length) ++ bytes
  | integer value => 3 :: Bytes.i4 value
  | float bits => 4 :: Bytes.u4 bits
  | long value => 5 :: Bytes.i8 value
  | double bits => 6 :: Bytes.u8 bits
  | classRef name => 7 :: Bytes.u2 name
  | string value => 8 :: Bytes.u2 value
  | member .field owner value => 9 :: Bytes.u2 owner ++ Bytes.u2 value
  | member .method owner value => 10 :: Bytes.u2 owner ++ Bytes.u2 value
  | member .interfaceMethod owner value => 11 :: Bytes.u2 owner ++ Bytes.u2 value
  | nameAndType name descriptor => 12 :: Bytes.u2 name ++ Bytes.u2 descriptor
  | methodHandle kind reference => 15 :: kind :: Bytes.u2 reference
  | methodType descriptor => 16 :: Bytes.u2 descriptor
  | dynamic bootstrap value => 17 :: Bytes.u2 bootstrap ++ Bytes.u2 value
  | invokeDynamic bootstrap value => 18 :: Bytes.u2 bootstrap ++ Bytes.u2 value
  | module name => 19 :: Bytes.u2 name
  | package name => 20 :: Bytes.u2 name

end PoolEntry

namespace Pool

def decodeEntries (slots : Nat) : (fuel : Nat) → Array PoolEntry → Decoder (Array PoolEntry)
  | 0, entries => pure entries
  | fuel + 1, entries => do
    if entries.size < slots then
      let entry ← PoolEntry.decode
      let entries := entries.push entry
      decodeEntries slots fuel (if entry.isWide then entries.push .empty else entries)
    else
      return entries

/-- The stored count is one more than the number of slots, and a long or double in the last slot
would spill past it. -/
def decode : Decoder Pool := do
  let count ← Decoder.u2
  if count = 0 then throw (.invalidPoolCount 0)
  let slots := count.toNat - 1
  let entries ← decodeEntries slots slots #[]
  if entries.size ≠ slots then throw (.invalidPoolCount count)
  return ⟨entries⟩

def entry (pool : Pool) (index : UInt16) : Except ReadError PoolEntry :=
  if index = 0 then .error (.invalidIndex index)
  else match pool.entries[index.toNat - 1]? with
    | none | some .empty => .error (.invalidIndex index)
    | some entry => .ok entry

def utf8 (pool : Pool) (index : UInt16) : Except ReadError String := do
  match ← pool.entry index with
  | .utf8 value => return value
  | _ => throw (.unexpectedConstant index .utf8)

def className (pool : Pool) (index : UInt16) : Except ReadError String := do
  match ← pool.entry index with
  | .classRef name => pool.utf8 name
  | _ => throw (.unexpectedConstant index .classRef)

def moduleName (pool : Pool) (index : UInt16) : Except ReadError String := do
  match ← pool.entry index with
  | .module name => pool.utf8 name
  | _ => throw (.unexpectedConstant index .module)

def packageName (pool : Pool) (index : UInt16) : Except ReadError String := do
  match ← pool.entry index with
  | .package name => pool.utf8 name
  | _ => throw (.unexpectedConstant index .package)

/-- Where a reference may be missing, index 0 says that it is. -/
def optional {α : Type} (lookup : UInt16 → Except ReadError α) (index : UInt16) :
    Except ReadError (Option α) :=
  if index = 0 then .ok none else some <$> lookup index

def nameAndType (pool : Pool) (index : UInt16) : Except ReadError NameAndType := do
  match ← pool.entry index with
  | .nameAndType name descriptor => return ⟨← pool.utf8 name, ← pool.utf8 descriptor⟩
  | _ => throw (.unexpectedConstant index .nameAndType)

def memberRef (pool : Pool) (index : UInt16) : Except ReadError MemberRef := do
  match ← pool.entry index with
  | .member kind owner nameAndType =>
    let nameAndType ← pool.nameAndType nameAndType
    return ⟨kind, ← pool.className owner, nameAndType.name, nameAndType.descriptor⟩
  | _ => throw (.unexpectedConstant index .memberReference)

def constant (pool : Pool) (index : UInt16) : Except ReadError Constant := do
  match ← pool.entry index with
  | .empty => throw (.invalidIndex index)
  | .utf8 value => return .utf8 value
  | .integer value => return .integer value
  | .float bits => return .float bits
  | .long value => return .long value
  | .double bits => return .double bits
  | .classRef name => return .classRef (← pool.utf8 name)
  | .string value => return .string (← pool.utf8 value)
  | .member .. => return .member (← pool.memberRef index)
  | .nameAndType .. => return .nameAndType (← pool.nameAndType index)
  | .methodHandle kind reference => return .methodHandle kind (← pool.memberRef reference)
  | .methodType descriptor => return .methodType (← pool.utf8 descriptor)
  | .dynamic bootstrap value => return .dynamic bootstrap (← pool.nameAndType value)
  | .invokeDynamic bootstrap callSite =>
    return .invokeDynamic bootstrap (← pool.nameAndType callSite)
  | .module name => return .module (← pool.utf8 name)
  | .package name => return .package (← pool.utf8 name)

def loadable (pool : Pool) (index : UInt16) : Except ReadError Constant := do
  let c ← pool.constant index
  if c.isLoadable then return c else throw (.unexpectedConstant index .loadable)

end Pool

end Renaming
