import Renaming.ClassFile.Attribute.Encode
import Renaming.ClassFile.Model
import Renaming.ClassFile.Read

/-!
# Writing a class file

Attributes that are kept as bytes refer to the constant pool they were read with, so that pool is
laid out first and all of them have to agree on it. Then slots are set aside for the constants of
`ldc` instructions, whose index has to fit one byte, and last come the constants in the order in
which the file refers to them.
-/

namespace Renaming

namespace Attribute

def verbatimHere (attributes : List Attribute) : List (String × Pool) :=
  attributes.filterMap fun
    | plain (.unknown name _ pool) => some (name, pool)
    | _ => none

mutual

def verbatimInside : List Attribute → List (String × Pool)
  | [] => []
  | code ⟨_, _, _, _, attributes⟩ :: rest =>
    verbatimInside rest ++ (verbatimHere attributes ++ verbatimInside attributes)
  | record components :: rest => verbatimInside rest ++ verbatimComponents components
  | plain _ :: rest => verbatimInside rest

def verbatimComponents : List (RecordComponent Attribute) → List (String × Pool)
  | [] => []
  | ⟨_, _, attributes⟩ :: rest =>
    verbatimComponents rest ++ (verbatimHere attributes ++ verbatimInside attributes)

end

def verbatim (attributes : List Attribute) : List (String × Pool) :=
  verbatimHere attributes ++ verbatimInside attributes

end Attribute

namespace ClassModel

/-- The attributes kept as bytes anywhere in a class: of methods, the last first, then of fields
likewise, then of the class. -/
def verbatim (c : ClassModel) : List (String × Pool) :=
  let members := c.fields ++ c.methods
  (c.attributes :: members.map Member.attributes).reverse.flatMap Attribute.verbatim

/-- The pool that the attributes kept as bytes agree on, if there are any. -/
def verbatimPool (c : ClassModel) : Except WriteError (Option Pool) :=
  match c.verbatim with
  | [] => .ok none
  | (_, pool) :: rest =>
    match rest.find? (fun other => other.2 ≠ pool) with
    | some (name, _) => .error (.mixedPools name)
    | none => .ok (some pool)

def ldcConstants (c : ClassModel) : List Constant :=
  c.methods.flatMap fun m => (m.code.elim [] Code.instructions).filterMap fun i =>
    match i.operand with
    | .constant value => if i.opcode = opLdc then some value else none
    | _ => none

end ClassModel

def Member.encode (m : Member) : Encoder Bytes :=
  return Bytes.u2 m.access ++ Bytes.u2 (← PoolBuilder.utf8 m.name) ++
    Bytes.u2 (← PoolBuilder.utf8 m.descriptor) ++ (← Attribute.encodeList m.attributes)

namespace ClassModel

def encodeBody (c : ClassModel) : Encoder Bytes := do
  for value in c.ldcConstants do
    let _index ← PoolBuilder.reserve value
  return Bytes.u2 c.access ++ Bytes.u2 (← PoolBuilder.className c.name) ++
    Bytes.u2 (← PoolBuilder.optional PoolBuilder.className c.superName) ++
    (← Encoder.classes "interfaces" c.interfaces) ++
    (← Encoder.list "fields" Member.encode c.fields) ++
    (← Encoder.list "methods" Member.encode c.methods) ++
    (← Attribute.encodeList c.attributes)

def serialize (c : ClassModel) : Except WriteError Bytes := do
  let start := (← c.verbatimPool).elim PoolBuilder.empty PoolBuilder.ofPool
  let (body, pool) ← c.encodeBody.run start
  return Bytes.u4 classMagic ++ Bytes.u2 c.minor ++ Bytes.u2 c.major ++ (← pool.encode) ++ body

end ClassModel

end Renaming
