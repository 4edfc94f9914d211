import Renaming.Binary.Word

/-!
# Constants

A `Constant` is an entry of the constant pool with every index replaced by what it leads to, and a
`PoolEntry` is the entry as the file stores it. Floating point values are kept as their bits, so
that equality of constants is equality of files.
-/

namespace Renaming

inductive MemberKind where
  | field | method | interfaceMethod
deriving DecidableEq, Hashable, Repr

structure MemberRef where
  kind : MemberKind
  owner : String
  name : String
  descriptor : String
deriving DecidableEq, Hashable, Repr

/-- A field reference has a colon before its descriptor, a method reference does not. -/
def MemberRef.text (r : MemberRef) : String :=
  match r.kind with
  | .field => s!"{r.owner}.{r.name}:{r.descriptor}"
  | .method | .interfaceMethod => s!"{r.owner}.{r.name}{r.descriptor}"

structure NameAndType where
  name : String
  descriptor : String
deriving DecidableEq, Hashable, Repr

inductive Constant where
  | utf8 (value : String)
  | integer (value : Int32)
  | float (bits : UInt32)
  | long (value : Int64)
  | double (bits : UInt64)
  | classRef (name : String)
  | string (value : String)
  | member (reference : MemberRef)
  | nameAndType (value : NameAndType)
  | methodHandle (kind : UInt8) (reference : MemberRef)
  | methodType (descriptor : String)
  | dynamic (bootstrap : UInt16) (value : NameAndType)
  | invokeDynamic (bootstrap : UInt16) (callSite : NameAndType)
  | module (name : String)
  | package (name : String)
deriving DecidableEq, Hashable, Repr

/-- A constant that takes two slots of the pool. -/
def Constant.isWide : Constant → Bool
  | .long _ | .double _ => true
  | _ => false

def Constant.isLoadable : Constant → Bool
  | .integer _ | .float _ | .long _ | .double _ | .classRef _ | .string _ | .methodHandle .. |
    .methodType _ | .dynamic .. => true
  | _ => false

/-- A constant that takes two slots of the operand stack. -/
def Constant.pushesTwo : Constant → Bool
  | .dynamic _ value => value.descriptor = "J" || value.descriptor = "D"
  | c => c.isWide

inductive PoolEntry where
  | empty
  | utf8 (value : String)
  | integer (value : Int32)
  | float (bits : UInt32)
  | long (value : Int64)
  | double (bits : UInt64)
  | classRef (name : UInt16)
  | string (value : UInt16)
  | member (kind : MemberKind) (owner nameAndType : UInt16)
  | nameAndType (name descriptor : UInt16)
  | methodHandle (kind : UInt8) (reference : UInt16)
  | methodType (descriptor : UInt16)
  | dynamic (bootstrap nameAndType : UInt16)
  | invokeDynamic (bootstrap nameAndType : UInt16)
  | module (name : UInt16)
  | package (name : UInt16)
deriving DecidableEq, Repr

def PoolEntry.isWide : PoolEntry → Bool
  | .long _ | .double _ => true
  | _ => false

end Renaming
