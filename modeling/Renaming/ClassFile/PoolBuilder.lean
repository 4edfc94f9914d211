import Std.Data.HashMap
import Renaming.ClassFile.Pool

/-!
# Building a constant pool

A class is written by asking the builder for the index of each constant in turn. A constant that
was asked for before keeps its index. Slots can be set aside for a constant before its parts are
known, so that it gets a low index, and a whole pool can be laid out in advance.
-/

namespace Renaming

structure PoolBuilder where
  /-- The slots in order; `none` is one that is set aside and not yet filled. -/
  entries : Array (Option PoolEntry)
  index : Std.HashMap Constant UInt16

abbrev Encoder := StateT PoolBuilder (Except WriteError)

namespace PoolBuilder

def empty : PoolBuilder := ⟨#[], ∅⟩

def note (index : Std.HashMap Constant UInt16) (c : Constant) (i : UInt16) :
    Std.HashMap Constant UInt16 :=
  index.insertIfNew c i

/-- The builder that starts from all slots of `pool`. Of two equal constants the first counts. -/
def ofPool (pool : Pool) : PoolBuilder where
  entries := pool.entries.map some
  index := (List.range pool.entries.size).foldl (fun index i =>
    let i := UInt16.ofNat (i + 1)
    match pool.constant i with
    | .ok c => note index c i
    | .error _ => index) ∅

def isFilled (b : PoolBuilder) (i : UInt16) : Bool :=
  match b.entries[i.toNat - 1]? with
  | some (some _) => true
  | _ => false

/-- Sets aside the next slot for `c`, and a second one if `c` needs it. The stored count of a pool
is one more than its number of slots, and has two bytes. -/
def claim (c : Constant) : Encoder UInt16 := fun b =>
  let slots := if c.isWide then 2 else 1
  if b.entries.size + slots > 65534 then .error .poolOverflow
  else
    let i := UInt16.ofNat (b.entries.size + 1)
    let entries := b.entries.push none
    .ok (i, ⟨if c.isWide then entries.push (some .empty) else entries, b.index.insert c i⟩)

def reserve (c : Constant) : Encoder UInt16 := do
  match (← get).index[c]? with
  | some i => return i
  | none => claim c

def fill (i : UInt16) (entry : PoolEntry) : Encoder Unit :=
  modify fun b => { b with entries := b.entries.setIfInBounds (i.toNat - 1) (some entry) }

/-- The index of `c`, with `build` making the entry if no slot holds it yet. The entries that the
new one refers to come before it, except where its slot was set aside. -/
def intern (c : Constant) (build : Encoder PoolEntry) : Encoder UInt16 := do
  let known := (← get).index[c]?
  match known with
  | some i =>
    if (← get).isFilled i then return i
    fill i (← build)
    return i
  | none =>
    let entry ← build
    let i ← claim c
    fill i entry
    return i

def utf8 (value : String) : Encoder UInt16 :=
  intern (.utf8 value) do
    let length := (ModifiedUtf8.encode value).length
    if length > 65535 then throw (.stringTooLong length)
    return .utf8 value

def className (name : String) : Encoder UInt16 :=
  intern (.classRef name) do return .classRef (← utf8 name)

def moduleName (name : String) : Encoder UInt16 :=
  intern (.module name) do return .module (← utf8 name)

def packageName (name : String) : Encoder UInt16 :=
  intern (.package name) do return .package (← utf8 name)

def nameAndType (value : NameAndType) : Encoder UInt16 :=
  intern (.nameAndType value) do
    return .nameAndType (← utf8 value.name) (← utf8 value.descriptor)

def memberRef (r : MemberRef) : Encoder UInt16 :=
  intern (.member r) do
    return .member r.kind (← className r.owner) (← nameAndType ⟨r.name, r.descriptor⟩)

def constant (c : Constant) : Encoder UInt16 :=
  match c with
  | .utf8 value => utf8 value
  | .integer value => intern c (return .integer value)
  | .float bits => intern c (return .float bits)
  | .long value => intern c (return .long value)
  | .double bits => intern c (return .double bits)
  | .classRef name => className name
  | .string value => intern c do return .string (← utf8 value)
  | .member r => memberRef r
  | .nameAndType value => nameAndType value
  | .methodHandle kind reference =>
    intern c do return .methodHandle kind (← memberRef reference)
  | .methodType descriptor => intern c do return .methodType (← utf8 descriptor)
  | .dynamic bootstrap value =>
    intern c do return .dynamic bootstrap (← nameAndType value)
  | .invokeDynamic bootstrap callSite =>
    intern c do return .invokeDynamic bootstrap (← nameAndType callSite)
  | .module name => moduleName name
  | .package name => packageName name

def optional {α : Type} (index : α → Encoder UInt16) : Option α → Encoder UInt16
  | none => return 0
  | some a => index a

def encode (b : PoolBuilder) : Except WriteError Bytes := do
  let entries ← b.entries.toList.mapM fun
    | some entry => Except.ok entry.encode
    | none => Except.error WriteError.unfilledSlot
  return Bytes.u2 (UInt16.ofNat (b.entries.size + 1)) ++ entries.flatten

end PoolBuilder

namespace Encoder

def length2 {α : Type} (table : String) (xs : List α) : Encoder Bytes :=
  if xs.length > 65535 then throw (.tooManyEntries table)
  else return Bytes.u2 (UInt16.ofNat xs.length)

def length1 {α : Type} (table : String) (xs : List α) : Encoder Bytes :=
  if xs.length > 255 then throw (.tooManyEntries table)
  else return [UInt8.ofNat xs.length]

def each {α : Type} (item : α → Encoder Bytes) (xs : List α) : Encoder Bytes :=
  return (← xs.mapM item).flatten

def list {α : Type} (table : String) (item : α → Encoder Bytes) (xs : List α) : Encoder Bytes :=
  return (← length2 table xs) ++ (← each item xs)

def shortList {α : Type} (table : String) (item : α → Encoder Bytes) (xs : List α) :
    Encoder Bytes :=
  return (← length1 table xs) ++ (← each item xs)

end Encoder

end Renaming
