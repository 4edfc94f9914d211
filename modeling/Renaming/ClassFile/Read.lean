import Renaming.ClassFile.Attribute.Decode
import Renaming.ClassFile.Model

/-!
# Reading a class file

The file is taken apart completely before any index is followed, so that a file that ends too
early is reported as such whatever its indices are.
-/

namespace Renaming

structure RawMember where
  access : UInt16
  name : UInt16
  descriptor : UInt16
  attributes : List RawAttribute
deriving DecidableEq, Repr

structure RawClass where
  minor : UInt16
  major : UInt16
  pool : Pool
  access : UInt16
  name : UInt16
  superName : UInt16
  interfaces : List UInt16
  fields : List RawMember
  methods : List RawMember
  attributes : List RawAttribute
deriving DecidableEq, Repr

def classMagic : UInt32 := 0xcafebabe

/-- From major version 56 on, the minor version is 0 or marks a preview. -/
def supportedVersion (major minor : UInt16) : Bool :=
  45 ≤ major && major ≤ 69 && (major < 56 || minor = 0 || minor = 0xffff)

def RawMember.decode : Decoder RawMember :=
  return ⟨← Decoder.u2, ← Decoder.u2, ← Decoder.u2, ← RawAttribute.decodeList⟩

def RawClass.decode : Decoder RawClass := do
  let magic ← Decoder.u4
  if magic ≠ classMagic then throw (.invalidMagic magic)
  let minor ← Decoder.u2
  let major ← Decoder.u2
  if !supportedVersion major minor then throw (.unsupportedVersion major minor)
  let pool ← Pool.decode
  let access ← Decoder.u2
  let name ← Decoder.u2
  let superName ← Decoder.u2
  let interfaces ← Decoder.list Decoder.u2
  let fields ← Decoder.list RawMember.decode
  let methods ← Decoder.list RawMember.decode
  let attributes ← RawAttribute.decodeList
  return ⟨minor, major, pool, access, name, superName, interfaces, fields, methods, attributes⟩

def RawMember.resolve (pool : Pool) (m : RawMember) : Except ReadError Member :=
  return ⟨m.access, ← pool.utf8 m.name, ← pool.utf8 m.descriptor,
    ← m.attributes.mapM (Attribute.decode pool)⟩

/-- Follows the indices: of the supertypes, then the members, then the class itself. -/
def RawClass.resolve (c : RawClass) : Except ReadError ClassModel := do
  let interfaces ← c.interfaces.mapM c.pool.className
  let fields ← c.fields.mapM (RawMember.resolve c.pool)
  let methods ← c.methods.mapM (RawMember.resolve c.pool)
  let name ← c.pool.className c.name
  let superName ← Pool.optional c.pool.className c.superName
  let attributes ← c.attributes.mapM (Attribute.decode c.pool)
  return ⟨c.minor, c.major, c.access, name, superName, interfaces, fields, methods, attributes⟩

namespace ClassModel

def parse (bytes : Bytes) : Except ReadError ClassModel :=
  match RawClass.decode bytes with
  | .error e => .error e
  | .ok (raw, []) => raw.resolve
  | .ok (_, rest) => .error (.trailingBytes rest.length)

end ClassModel

end Renaming
