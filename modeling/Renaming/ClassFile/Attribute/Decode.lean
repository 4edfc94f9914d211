import Renaming.ClassFile.Attribute
import Renaming.ClassFile.Bytecode

/-!
# Reading attributes

An attribute says how long it is, and its payload has to be used up exactly: a payload that is too
short or too long is a fault of the attribute, named after the innermost one that has it.
-/

namespace Renaming

structure RawAttribute where
  name : UInt16
  payload : Bytes
deriving DecidableEq, Repr

def RawAttribute.decode : Decoder RawAttribute := do
  let name ← Decoder.u2
  let length ← Decoder.u4
  return ⟨name, ← Decoder.take length.toNat⟩

def RawAttribute.decodeList : Decoder (List RawAttribute) := Decoder.list decode

def Decoder.exactly {α : Type} (name : String) (body : Decoder α) (payload : Bytes) :
    Except ReadError α :=
  match body payload with
  | .ok (a, []) => .ok a
  | .ok (_, _ :: _) | .error .unexpectedEof => .error (.invalidAttribute (.length name))
  | .error e => .error e

def ExceptionHandler.decode (pool : Pool) : Decoder ExceptionHandler := do
  let start ← Decoder.u2
  let stop ← Decoder.u2
  let handler ← Decoder.u2
  return ⟨start, stop, handler, ← Pool.optional pool.className (← Decoder.u2)⟩

def VerificationType.decode (pool : Pool) : Decoder VerificationType := do
  match ← Decoder.u1 with
  | 0 => return .top
  | 1 => return .integer
  | 2 => return .float
  | 3 => return .double
  | 4 => return .long
  | 5 => return .null
  | 6 => return .uninitializedThis
  | 7 => return .object (← pool.className (← Decoder.u2))
  | 8 => return .uninitialized (← Decoder.u2)
  | tag => throw (.invalidAttribute (.verificationType tag))

def StackMapFrame.decode (pool : Pool) : Decoder StackMapFrame := do
  let type := VerificationType.decode pool
  let tag ← Decoder.u1
  if tag < 64 then return .same tag
  else if tag < 128 then return .sameOne tag (← type)
  else if tag < 247 then throw (.invalidAttribute (.frameType tag))
  else
    let delta ← Decoder.u2
    if tag = 247 then return .sameOneExtended delta (← type)
    else if tag < 251 then return .chop tag delta
    else if tag = 251 then return .sameExtended delta
    else if tag < 255 then return .append tag delta (← Decoder.count (tag.toNat - 251) type)
    else return .full delta (← Decoder.list type) (← Decoder.list type)

def InnerClass.decode (pool : Pool) : Decoder InnerClass := do
  let inner ← Decoder.u2
  let outer ← Decoder.u2
  let name ← Decoder.u2
  let access ← Decoder.u2
  return ⟨← pool.className inner, ← Pool.optional pool.className outer,
    ← Pool.optional pool.utf8 name, access⟩

def LineNumber.decode : Decoder LineNumber :=
  return ⟨← Decoder.u2, ← Decoder.u2⟩

def LocalVariable.decode (pool : Pool) : Decoder LocalVariable := do
  let start ← Decoder.u2
  let length ← Decoder.u2
  let name ← Decoder.u2
  let descriptor ← Decoder.u2
  let index ← Decoder.u2
  return ⟨start, length, ← pool.utf8 name, ← pool.utf8 descriptor, index⟩

/-- The number of bytes that describe a target after its tag; two kinds of target begin with a
count of entries of six bytes each. -/
def TypeAnnotation.targetInfo (tag : UInt8) : Decoder Bytes :=
  if tag = 0x00 || tag = 0x01 || tag = 0x16 then Decoder.take 1
  else if (0x10 ≤ tag && tag ≤ 0x12) || tag = 0x17 || (0x42 ≤ tag && tag ≤ 0x46) then
    Decoder.take 2
  else if 0x13 ≤ tag && tag ≤ 0x15 then return []
  else if tag = 0x40 || tag = 0x41 then do
    let count ← Decoder.u2
    return Bytes.u2 count ++ (← Decoder.take (6 * count.toNat))
  else if 0x47 ≤ tag && tag ≤ 0x4b then Decoder.take 3
  else throw (.invalidAttribute (.typeTarget tag))

def TypeAnnotation.decode (pool : Pool) : Decoder TypeAnnotation := do
  let tag ← Decoder.u1
  let info ← targetInfo tag
  let pathLength ← Decoder.u1
  let path ← Decoder.take (2 * pathLength.toNat)
  return ⟨tag :: info ++ pathLength :: path, ← Annotation.decode pool⟩

def BootstrapMethod.decode (pool : Pool) : Decoder BootstrapMethod := do
  let index ← Decoder.u2
  let arguments ← Decoder.list do pool.loadable (← Decoder.u2)
  match ← pool.constant index with
  | .methodHandle kind reference => return ⟨.methodHandle kind reference, arguments⟩
  | _ => throw (.invalidAttribute .bootstrapNotHandle)

def MethodParameter.decode (pool : Pool) : Decoder MethodParameter := do
  let name ← Decoder.u2
  let access ← Decoder.u2
  return ⟨← Pool.optional pool.utf8 name, access⟩

def ModuleRequire.decode (pool : Pool) : Decoder ModuleRequire := do
  let module ← Decoder.u2
  let flags ← Decoder.u2
  let version ← Decoder.u2
  return ⟨← pool.moduleName module, flags, ← Pool.optional pool.utf8 version⟩

def ModuleExport.decode (pool : Pool) : Decoder ModuleExport := do
  let package ← Decoder.u2
  let flags ← Decoder.u2
  let targets ← Decoder.list do pool.moduleName (← Decoder.u2)
  return ⟨← pool.packageName package, flags, targets⟩

def ModuleProvide.decode (pool : Pool) : Decoder ModuleProvide := do
  let service ← Decoder.u2
  let implementations ← Decoder.list do pool.className (← Decoder.u2)
  return ⟨← pool.className service, implementations⟩

def ModuleInfo.decode (pool : Pool) : Decoder ModuleInfo := do
  let name ← Decoder.u2
  let flags ← Decoder.u2
  let version ← Decoder.u2
  let requires ← Decoder.list (ModuleRequire.decode pool)
  let exports ← Decoder.list (ModuleExport.decode pool)
  let opens ← Decoder.list (ModuleExport.decode pool)
  let uses ← Decoder.list do pool.className (← Decoder.u2)
  let provides ← Decoder.list (ModuleProvide.decode pool)
  return ⟨← pool.moduleName name, flags, ← Pool.optional pool.utf8 version,
    requires, exports, opens, uses, provides⟩

def PlainAttribute.body (pool : Pool) (name : String) : Option (Decoder PlainAttribute) :=
  let classes : Decoder (List String) := Decoder.list do pool.className (← Decoder.u2)
  let className : Decoder String := do pool.className (← Decoder.u2)
  let text : Decoder String := do pool.utf8 (← Decoder.u2)
  let annotations : Decoder (List Annotation) := Decoder.list <| Annotation.decode pool
  let typeAnnotations : Decoder (List TypeAnnotation) :=
    Decoder.list <| TypeAnnotation.decode pool
  match name with
  | "ConstantValue" => some (do return .constantValue (← pool.constant (← Decoder.u2)))
  | "StackMapTable" => some (.stackMapTable <$> Decoder.list (StackMapFrame.decode pool))
  | "Exceptions" => some (.exceptions <$> classes)
  | "InnerClasses" => some (.innerClasses <$> Decoder.list (InnerClass.decode pool))
  | "EnclosingMethod" => some do
    let owner ← Decoder.u2
    let method ← Decoder.u2
    let method ← Pool.optional pool.nameAndType method
    return .enclosingMethod (← pool.className owner) method
  | "Synthetic" => some (return .synthetic)
  | "Deprecated" => some (return .deprecated)
  | "Signature" => some (.signature <$> text)
  | "SourceFile" => some (.sourceFile <$> text)
  | "LineNumberTable" => some (.lineNumbers <$> Decoder.list LineNumber.decode)
  | "LocalVariableTable" => some (.localVariables <$> Decoder.list (LocalVariable.decode pool))
  | "LocalVariableTypeTable" =>
    some (.localVariableTypes <$> Decoder.list (LocalVariable.decode pool))
  | "RuntimeVisibleAnnotations" => some (.annotations .visible <$> annotations)
  | "RuntimeInvisibleAnnotations" => some (.annotations .invisible <$> annotations)
  | "RuntimeVisibleParameterAnnotations" =>
    some (.parameterAnnotations .visible <$> Decoder.shortList annotations)
  | "RuntimeInvisibleParameterAnnotations" =>
    some (.parameterAnnotations .invisible <$> Decoder.shortList annotations)
  | "RuntimeVisibleTypeAnnotations" =>
    some (.typeAnnotations .visible <$> typeAnnotations)
  | "RuntimeInvisibleTypeAnnotations" =>
    some (.typeAnnotations .invisible <$> typeAnnotations)
  | "AnnotationDefault" => some (.annotationDefault <$> ElementValue.decode pool)
  | "BootstrapMethods" => some (.bootstrapMethods <$> Decoder.list (BootstrapMethod.decode pool))
  | "MethodParameters" =>
    some (.methodParameters <$> Decoder.shortList (MethodParameter.decode pool))
  | "NestHost" => some (.nestHost <$> className)
  | "NestMembers" => some (.nestMembers <$> classes)
  | "PermittedSubclasses" => some (.permittedSubclasses <$> classes)
  | "Module" => some (.moduleInfo <$> ModuleInfo.decode pool)
  | "ModulePackages" =>
    some (.modulePackages <$> Decoder.list do pool.packageName (← Decoder.u2))
  | "ModuleMainClass" => some (.moduleMainClass <$> className)
  | _ => none

def Code.decodeWith {α : Type} (pool : Pool) (nested : RawAttribute → Except ReadError α) :
    Decoder (Code α) := do
  let maxStack ← Decoder.u2
  let maxLocals ← Decoder.u2
  let length ← Decoder.u4
  let instructions ← Instruction.decodeAll pool (← Decoder.take length.toNat)
  let handlers ← Decoder.list (ExceptionHandler.decode pool)
  let raw ← RawAttribute.decodeList
  return ⟨maxStack, maxLocals, instructions, handlers, ← raw.mapM (nested ·)⟩

def RecordComponent.decodeWith {α : Type} (pool : Pool)
    (nested : RawAttribute → Except ReadError α) : Decoder (RecordComponent α) := do
  let name ← Decoder.u2
  let descriptor ← Decoder.u2
  let raw ← RawAttribute.decodeList
  return ⟨← pool.utf8 name, ← pool.utf8 descriptor, ← raw.mapM (nested ·)⟩

namespace Attribute

def body (pool : Pool) (nested : RawAttribute → Except ReadError Attribute) (name : String) :
    Option (Decoder Attribute) :=
  if name = "Code" then some (code <$> Code.decodeWith pool nested)
  else if name = "Record" then
    some (record <$> Decoder.list (RecordComponent.decodeWith pool nested))
  else (PlainAttribute.body pool name).map (plain <$> ·)

/-- Reads an attribute inside which attributes nest less than `depth` deep. -/
def decodeTo (pool : Pool) : (depth : Nat) → RawAttribute → Except ReadError Attribute
  | 0, _ => .error .unexpectedEof
  | depth + 1, raw => do
    let name ← pool.utf8 raw.name
    match body pool (decodeTo pool depth) name with
    | some body => body.exactly name raw.payload
    | none => return plain (.unknown name raw.payload pool)

/-- Attributes inside a payload are shorter than it, so its length bounds the depth. -/
def decode (pool : Pool) (raw : RawAttribute) : Except ReadError Attribute :=
  decodeTo pool (raw.payload.length + 1) raw

end Attribute

end Renaming
