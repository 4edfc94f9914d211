import Renaming.ClassFile.Attribute
import Renaming.ClassFile.Bytecode

/-!
# Writing attributes

An attribute is stored as the index of its name, the length of its payload, and the payload. The
index of the name is asked for first.
-/

namespace Renaming

def Encoder.index (index : Encoder UInt16) : Encoder Bytes := Bytes.u2 <$> index

def ExceptionHandler.encode (h : ExceptionHandler) : Encoder Bytes :=
  return Bytes.u2 h.start ++ Bytes.u2 h.stop ++ Bytes.u2 h.handler ++
    Bytes.u2 (← PoolBuilder.optional PoolBuilder.className h.caught)

def VerificationType.encode : VerificationType → Encoder Bytes
  | top => return [0]
  | integer => return [1]
  | float => return [2]
  | double => return [3]
  | long => return [4]
  | null => return [5]
  | uninitializedThis => return [6]
  | object name => return 7 :: Bytes.u2 (← PoolBuilder.className name)
  | uninitialized offset => return 8 :: Bytes.u2 offset

def StackMapFrame.encode : StackMapFrame → Encoder Bytes
  | same tag => return [tag]
  | sameOne tag stack => return tag :: (← stack.encode)
  | sameOneExtended delta stack => return 247 :: Bytes.u2 delta ++ (← stack.encode)
  | chop tag delta => return tag :: Bytes.u2 delta
  | sameExtended delta => return 251 :: Bytes.u2 delta
  | append tag delta locals =>
    return tag :: Bytes.u2 delta ++ (← Encoder.each VerificationType.encode locals)
  | full delta locals stack =>
    return 255 :: Bytes.u2 delta ++
      (← Encoder.list "frame locals" VerificationType.encode locals) ++
      (← Encoder.list "frame stack" VerificationType.encode stack)

def InnerClass.encode (c : InnerClass) : Encoder Bytes :=
  return Bytes.u2 (← PoolBuilder.className c.inner) ++
    Bytes.u2 (← PoolBuilder.optional PoolBuilder.className c.outer) ++
    Bytes.u2 (← PoolBuilder.optional PoolBuilder.utf8 c.name) ++ Bytes.u2 c.access

def LineNumber.encode (l : LineNumber) : Bytes := Bytes.u2 l.start ++ Bytes.u2 l.line

def LocalVariable.encode (v : LocalVariable) : Encoder Bytes :=
  return Bytes.u2 v.start ++ Bytes.u2 v.length ++ Bytes.u2 (← PoolBuilder.utf8 v.name) ++
    Bytes.u2 (← PoolBuilder.utf8 v.descriptor) ++ Bytes.u2 v.index

def TypeAnnotation.encode (a : TypeAnnotation) : Encoder Bytes :=
  return a.target ++ (← a.annotation.encode)

def BootstrapMethod.encode (m : BootstrapMethod) : Encoder Bytes :=
  return Bytes.u2 (← PoolBuilder.constant m.method) ++
    (← Encoder.list "bootstrap arguments" (Encoder.index ∘ PoolBuilder.constant) m.arguments)

def MethodParameter.encode (p : MethodParameter) : Encoder Bytes :=
  return Bytes.u2 (← PoolBuilder.optional PoolBuilder.utf8 p.name) ++ Bytes.u2 p.access

def ModuleRequire.encode (r : ModuleRequire) : Encoder Bytes :=
  return Bytes.u2 (← PoolBuilder.moduleName r.module) ++ Bytes.u2 r.flags ++
    Bytes.u2 (← PoolBuilder.optional PoolBuilder.utf8 r.version)

/-- The targets are counted under the name of the table that the entry belongs to. -/
def ModuleExport.encode (table : String) (e : ModuleExport) : Encoder Bytes :=
  return Bytes.u2 (← PoolBuilder.packageName e.package) ++ Bytes.u2 e.flags ++
    (← Encoder.list table (Encoder.index ∘ PoolBuilder.moduleName) e.targets)

def Encoder.classes (table : String) (names : List String) : Encoder Bytes :=
  Encoder.list table (Encoder.index ∘ PoolBuilder.className) names

def ModuleProvide.encode (p : ModuleProvide) : Encoder Bytes :=
  return Bytes.u2 (← PoolBuilder.className p.service) ++
    (← Encoder.classes "module provides" p.implementations)

def ModuleInfo.encode (m : ModuleInfo) : Encoder Bytes :=
  return Bytes.u2 (← PoolBuilder.moduleName m.name) ++ Bytes.u2 m.flags ++
    Bytes.u2 (← PoolBuilder.optional PoolBuilder.utf8 m.version) ++
    (← Encoder.list "module requires" ModuleRequire.encode m.requires) ++
    (← Encoder.list "module exports" (ModuleExport.encode "module exports") m.exports) ++
    (← Encoder.list "module opens" (ModuleExport.encode "module opens") m.opens) ++
    (← Encoder.classes "module uses" m.uses) ++
    (← Encoder.list "module provides" ModuleProvide.encode m.provides)

def PlainAttribute.encode : PlainAttribute → Encoder Bytes
  | constantValue value => Encoder.index (PoolBuilder.constant value)
  | stackMapTable frames => Encoder.list "StackMapTable" StackMapFrame.encode frames
  | exceptions classes => Encoder.classes "Exceptions" classes
  | innerClasses entries => Encoder.list "InnerClasses" InnerClass.encode entries
  | enclosingMethod owner method =>
    return Bytes.u2 (← PoolBuilder.className owner) ++
      Bytes.u2 (← PoolBuilder.optional PoolBuilder.nameAndType method)
  | synthetic | deprecated => return []
  | signature text => Encoder.index (PoolBuilder.utf8 text)
  | sourceFile name => Encoder.index (PoolBuilder.utf8 name)
  | lineNumbers lines => Encoder.list "LineNumberTable" (fun l => return l.encode) lines
  | localVariables locals | localVariableTypes locals =>
    Encoder.list "LocalVariableTable" LocalVariable.encode locals
  | annotations _ as => Encoder.list "annotations" Annotation.encode as
  | parameterAnnotations _ parameters =>
    Encoder.shortList "parameter annotations" (Encoder.list "annotations" Annotation.encode)
      parameters
  | typeAnnotations _ as => Encoder.list "type annotations" TypeAnnotation.encode as
  | annotationDefault value => value.encode
  | bootstrapMethods methods => Encoder.list "BootstrapMethods" BootstrapMethod.encode methods
  | methodParameters parameters =>
    Encoder.shortList "MethodParameters" MethodParameter.encode parameters
  | nestHost name => Encoder.index (PoolBuilder.className name)
  | nestMembers classes => Encoder.classes "NestMembers" classes
  | permittedSubclasses classes => Encoder.classes "PermittedSubclasses" classes
  | moduleInfo info => info.encode
  | modulePackages packages =>
    Encoder.list "ModulePackages" (Encoder.index ∘ PoolBuilder.packageName) packages
  | moduleMainClass name => Encoder.index (PoolBuilder.className name)
  | unknown _ payload _ => return payload

namespace Attribute

def frame (name : UInt16) (payload : Bytes) : Encoder Bytes :=
  if payload.length ≥ 0x100000000 then throw (.tooManyEntries "attribute length")
  else return Bytes.u2 name ++ Bytes.u4 (UInt32.ofNat payload.length) ++ payload

mutual

def encode : Attribute → Encoder Bytes
  | code ⟨maxStack, maxLocals, instructions, handlers, attributes⟩ => do
    let name ← PoolBuilder.utf8 "Code"
    let bytecode ← Instruction.encodeAll instructions
    if bytecode.length ≥ 0x100000000 then throw (.tooManyEntries "code length")
    let handlers ← Encoder.list "exception table" ExceptionHandler.encode handlers
    let count ← Encoder.length2 "attributes" attributes
    let attributes ← encodeEach attributes
    frame name (Bytes.u2 maxStack ++ Bytes.u2 maxLocals ++
      Bytes.u4 (UInt32.ofNat bytecode.length) ++ bytecode ++ handlers ++ count ++ attributes)
  | record components => do
    let name ← PoolBuilder.utf8 "Record"
    let count ← Encoder.length2 "Record" components
    frame name (count ++ (← encodeComponents components))
  | plain a => do
    let name ← PoolBuilder.utf8 a.name
    frame name (← a.encode)

def encodeEach : List Attribute → Encoder Bytes
  | [] => return []
  | a :: rest => return (← encode a) ++ (← encodeEach rest)

def encodeComponents : List (RecordComponent Attribute) → Encoder Bytes
  | [] => return []
  | ⟨name, descriptor, attributes⟩ :: rest => do
    let name ← PoolBuilder.utf8 name
    let descriptor ← PoolBuilder.utf8 descriptor
    let count ← Encoder.length2 "attributes" attributes
    let attributes ← encodeEach attributes
    return Bytes.u2 name ++ Bytes.u2 descriptor ++ count ++ attributes ++
      (← encodeComponents rest)

end

def encodeList (attributes : List Attribute) : Encoder Bytes :=
  return (← Encoder.length2 "attributes" attributes) ++ (← encodeEach attributes)

end Attribute

end Renaming
