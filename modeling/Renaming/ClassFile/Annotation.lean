import Renaming.ClassFile.PoolBuilder

/-!
# Annotations

Element values nest: an annotation can hold annotations and arrays. Reading goes down at most as
many levels as there are bytes, since every level starts with a tag.
-/

namespace Renaming

inductive ElementValue where
  /-- A number or text; the tag is one of `BCDFIJSZs`. -/
  | const (tag : UInt8) (value : Constant)
  | enum (type name : String)
  | classLiteral (descriptor : String)
  | nested (type : String) (elements : List (String × ElementValue))
  | array (values : List ElementValue)
deriving Repr

structure Annotation where
  type : String
  elements : List (String × ElementValue)

/-- An annotation on a type. The target says which type it is, as the bytes of the file, none of
which is an index into the constant pool. -/
structure TypeAnnotation where
  target : Bytes
  annotation : Annotation

namespace ElementValue

mutual

def beq : ElementValue → ElementValue → Bool
  | const tag value, const tag' value' => tag == tag' && value == value'
  | enum type name, enum type' name' => type == type' && name == name'
  | classLiteral descriptor, classLiteral descriptor' => descriptor == descriptor'
  | nested type elements, nested type' elements' =>
    type == type' && beqElements elements elements'
  | array values, array values' => beqValues values values'
  | _, _ => false

def beqElements : List (String × ElementValue) → List (String × ElementValue) → Bool
  | [], [] => true
  | (name, value) :: rest, (name', value') :: rest' =>
    name == name' && beq value value' && beqElements rest rest'
  | _, _ => false

def beqValues : List ElementValue → List ElementValue → Bool
  | [], [] => true
  | value :: rest, value' :: rest' => beq value value' && beqValues rest rest'
  | _, _ => false

end

mutual

theorem beq_iff (v w : ElementValue) : beq v w = true ↔ v = w := by
  cases v with
  | const tag value => cases w <;> simp [beq]
  | enum type name => cases w <;> simp [beq]
  | classLiteral descriptor => cases w <;> simp [beq]
  | nested type elements =>
    cases w with
    | nested type' elements' => simp [beq, beqElements_iff elements elements']
    | _ => simp [beq]
  | array values =>
    cases w with
    | array values' => simp [beq, beqValues_iff values values']
    | _ => simp [beq]

theorem beqElements_iff (vs ws : List (String × ElementValue)) :
    beqElements vs ws = true ↔ vs = ws := by
  cases vs with
  | nil => cases ws <;> simp [beqElements]
  | cons v vs =>
    obtain ⟨name, value⟩ := v
    cases ws with
    | nil => simp [beqElements]
    | cons w ws =>
      obtain ⟨name', value'⟩ := w
      simp [beqElements, beq_iff value value', beqElements_iff vs ws, and_assoc]

theorem beqValues_iff (vs ws : List ElementValue) : beqValues vs ws = true ↔ vs = ws := by
  cases vs with
  | nil => cases ws <;> simp [beqValues]
  | cons v vs =>
    cases ws with
    | nil => simp [beqValues]
    | cons w ws => simp [beqValues, beq_iff v w, beqValues_iff vs ws]

end

end ElementValue

instance : DecidableEq ElementValue := fun v w =>
  decidable_of_iff (ElementValue.beq v w = true) (ElementValue.beq_iff v w)

deriving instance DecidableEq, Repr for Annotation
deriving instance DecidableEq, Repr for TypeAnnotation

namespace ElementValue

def fits (tag : Char) : Constant → Bool
  | .integer _ => tag ∈ ['B', 'C', 'I', 'S', 'Z']
  | .double _ => tag = 'D'
  | .float _ => tag = 'F'
  | .long _ => tag = 'J'
  | .utf8 _ => tag = 's'
  | _ => false

end ElementValue

def Annotation.decodeWith (pool : Pool) (value : Decoder ElementValue) : Decoder Annotation := do
  let type ← Decoder.u2
  let elements ← Decoder.list do
    let name ← Decoder.u2
    let value ← value
    return (← pool.utf8 name, value)
  return ⟨← pool.utf8 type, elements⟩

namespace ElementValue

def decodeWith (pool : Pool) (nested : Decoder ElementValue) : Decoder ElementValue := do
  let tag ← Decoder.u1
  match Char.ofNat tag.toNat with
  | 'e' =>
    let type ← Decoder.u2
    let name ← Decoder.u2
    return enum (← pool.utf8 type) (← pool.utf8 name)
  | 'c' => return classLiteral (← pool.utf8 (← Decoder.u2))
  | '@' =>
    let a ← Annotation.decodeWith pool nested
    return .nested a.type a.elements
  | '[' => return array (← Decoder.list nested)
  | letter =>
    if letter ∈ ['B', 'C', 'D', 'F', 'I', 'J', 'S', 'Z', 's'] then
      let index ← Decoder.u2
      let value ← pool.constant index
      if fits letter value then return const tag value
      throw (.unexpectedConstant index .matchingTag)
    else
      throw (.invalidAttribute (.elementTag tag))

def decodeTo (pool : Pool) : (depth : Nat) → Decoder ElementValue
  | 0 => throw .unexpectedEof
  | depth + 1 => decodeWith pool (decodeTo pool depth)

def decode (pool : Pool) : Decoder ElementValue := do
  decodeTo pool (← get).length

mutual

def encode : ElementValue → Encoder Bytes
  | const tag value => return tag :: Bytes.u2 (← PoolBuilder.constant value)
  | enum type name =>
    return 0x65 :: Bytes.u2 (← PoolBuilder.utf8 type) ++ Bytes.u2 (← PoolBuilder.utf8 name)
  | classLiteral descriptor => return 0x63 :: Bytes.u2 (← PoolBuilder.utf8 descriptor)
  | nested type elements => do
    let type ← PoolBuilder.utf8 type
    let count ← Encoder.length2 "annotation elements" elements
    return 0x40 :: Bytes.u2 type ++ count ++ (← encodeElements elements)
  | array values => do
    let count ← Encoder.length2 "element value array" values
    return 0x5b :: count ++ (← encodeValues values)

def encodeElements : List (String × ElementValue) → Encoder Bytes
  | [] => return []
  | (name, value) :: rest =>
    return Bytes.u2 (← PoolBuilder.utf8 name) ++ (← encode value) ++ (← encodeElements rest)

def encodeValues : List ElementValue → Encoder Bytes
  | [] => return []
  | value :: rest => return (← encode value) ++ (← encodeValues rest)

end

end ElementValue

namespace Annotation

def decode (pool : Pool) : Decoder Annotation := do
  decodeWith pool (ElementValue.decodeTo pool (← get).length)

/-- An annotation is stored like an element value that holds it, less the tag. -/
def encode (a : Annotation) : Encoder Bytes := do
  let type ← PoolBuilder.utf8 a.type
  let count ← Encoder.length2 "annotation elements" a.elements
  return Bytes.u2 type ++ count ++ (← ElementValue.encodeElements a.elements)

end Annotation

end Renaming
