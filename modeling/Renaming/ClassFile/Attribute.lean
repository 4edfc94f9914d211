import Renaming.ClassFile.Annotation
import Renaming.ClassFile.Instruction

/-!
# Attributes

An attribute either has attributes inside, as code and records do, or is plain. An attribute of an
unknown name is kept as its bytes, together with the constant pool that its indices refer to.
-/

namespace Renaming

structure ExceptionHandler where
  start : UInt16
  stop : UInt16
  handler : UInt16
  /-- `none` catches everything. -/
  caught : Option String
deriving DecidableEq, Repr

inductive VerificationType where
  | top | integer | float | double | long | null | uninitializedThis
  | object (name : String)
  | uninitialized (offset : UInt16)
deriving DecidableEq, Repr

inductive StackMapFrame where
  | same (tag : UInt8)
  | sameOne (tag : UInt8) (stack : VerificationType)
  | sameOneExtended (delta : UInt16) (stack : VerificationType)
  | chop (tag : UInt8) (delta : UInt16)
  | sameExtended (delta : UInt16)
  | append (tag : UInt8) (delta : UInt16) (locals : List VerificationType)
  | full (delta : UInt16) (locals stack : List VerificationType)
deriving DecidableEq, Repr

structure InnerClass where
  inner : String
  outer : Option String
  name : Option String
  access : UInt16
deriving DecidableEq, Repr

structure LineNumber where
  start : UInt16
  line : UInt16
deriving DecidableEq, Repr

/-- In a table of types, the descriptor is a generic signature. -/
structure LocalVariable where
  start : UInt16
  length : UInt16
  name : String
  descriptor : String
  index : UInt16
deriving DecidableEq, Repr

structure BootstrapMethod where
  method : Constant
  arguments : List Constant
deriving DecidableEq, Repr

structure MethodParameter where
  name : Option String
  access : UInt16
deriving DecidableEq, Repr

structure ModuleRequire where
  module : String
  flags : UInt16
  version : Option String
deriving DecidableEq, Repr

/-- A package that a module exports or opens; no targets means every module. -/
structure ModuleExport where
  package : String
  flags : UInt16
  targets : List String
deriving DecidableEq, Repr

structure ModuleProvide where
  service : String
  implementations : List String
deriving DecidableEq, Repr

structure ModuleInfo where
  name : String
  flags : UInt16
  version : Option String
  requires : List ModuleRequire
  exports : List ModuleExport
  opens : List ModuleExport
  uses : List String
  provides : List ModuleProvide
deriving DecidableEq, Repr

inductive Visibility where
  | visible | invisible
deriving DecidableEq, Repr

inductive PlainAttribute where
  | constantValue (value : Constant)
  | stackMapTable (frames : List StackMapFrame)
  | exceptions (classes : List String)
  | innerClasses (entries : List InnerClass)
  | enclosingMethod (owner : String) (method : Option NameAndType)
  | synthetic
  | deprecated
  | signature (text : String)
  | sourceFile (name : String)
  | lineNumbers (lines : List LineNumber)
  | localVariables (locals : List LocalVariable)
  | localVariableTypes (locals : List LocalVariable)
  | annotations (visibility : Visibility) (annotations : List Annotation)
  | parameterAnnotations (visibility : Visibility) (parameters : List (List Annotation))
  | typeAnnotations (visibility : Visibility) (annotations : List TypeAnnotation)
  | annotationDefault (value : ElementValue)
  | bootstrapMethods (methods : List BootstrapMethod)
  | methodParameters (parameters : List MethodParameter)
  | nestHost (name : String)
  | nestMembers (classes : List String)
  | permittedSubclasses (classes : List String)
  | moduleInfo (info : ModuleInfo)
  | modulePackages (packages : List String)
  | moduleMainClass (name : String)
  | unknown (name : String) (payload : Bytes) (pool : Pool)
deriving DecidableEq

structure Code (α : Type) where
  maxStack : UInt16
  maxLocals : UInt16
  instructions : List Instruction
  handlers : List ExceptionHandler
  attributes : List α

structure RecordComponent (α : Type) where
  name : String
  descriptor : String
  attributes : List α

inductive Attribute where
  | code (body : Code Attribute)
  | record (components : List (RecordComponent Attribute))
  | plain (a : PlainAttribute)

def PlainAttribute.name : PlainAttribute → String
  | constantValue _ => "ConstantValue"
  | stackMapTable _ => "StackMapTable"
  | exceptions _ => "Exceptions"
  | innerClasses _ => "InnerClasses"
  | enclosingMethod .. => "EnclosingMethod"
  | synthetic => "Synthetic"
  | deprecated => "Deprecated"
  | signature _ => "Signature"
  | sourceFile _ => "SourceFile"
  | lineNumbers _ => "LineNumberTable"
  | localVariables _ => "LocalVariableTable"
  | localVariableTypes _ => "LocalVariableTypeTable"
  | annotations .visible _ => "RuntimeVisibleAnnotations"
  | annotations .invisible _ => "RuntimeInvisibleAnnotations"
  | parameterAnnotations .visible _ => "RuntimeVisibleParameterAnnotations"
  | parameterAnnotations .invisible _ => "RuntimeInvisibleParameterAnnotations"
  | typeAnnotations .visible _ => "RuntimeVisibleTypeAnnotations"
  | typeAnnotations .invisible _ => "RuntimeInvisibleTypeAnnotations"
  | annotationDefault _ => "AnnotationDefault"
  | bootstrapMethods _ => "BootstrapMethods"
  | methodParameters _ => "MethodParameters"
  | nestHost _ => "NestHost"
  | nestMembers _ => "NestMembers"
  | permittedSubclasses _ => "PermittedSubclasses"
  | moduleInfo _ => "Module"
  | modulePackages _ => "ModulePackages"
  | moduleMainClass _ => "ModuleMainClass"
  | unknown name .. => name

namespace Attribute

def name : Attribute → String
  | code _ => "Code"
  | record _ => "Record"
  | plain a => a.name

mutual

def beq : Attribute → Attribute → Bool
  | code ⟨stack, locals, instructions, handlers, attributes⟩,
    code ⟨stack', locals', instructions', handlers', attributes'⟩ =>
    stack == stack' && locals == locals' && instructions == instructions' &&
      handlers == handlers' && beqList attributes attributes'
  | record components, record components' => beqComponents components components'
  | plain a, plain a' => a == a'
  | _, _ => false

def beqList : List Attribute → List Attribute → Bool
  | [], [] => true
  | a :: rest, a' :: rest' => beq a a' && beqList rest rest'
  | _, _ => false

def beqComponents : List (RecordComponent Attribute) → List (RecordComponent Attribute) → Bool
  | [], [] => true
  | ⟨name, descriptor, attributes⟩ :: rest, ⟨name', descriptor', attributes'⟩ :: rest' =>
    name == name' && descriptor == descriptor' && beqList attributes attributes' &&
      beqComponents rest rest'
  | _, _ => false

end

mutual

theorem beq_iff (a b : Attribute) : beq a b = true ↔ a = b := by
  cases a with
  | code body =>
    obtain ⟨stack, locals, instructions, handlers, attributes⟩ := body
    cases b with
    | code body' =>
      obtain ⟨stack', locals', instructions', handlers', attributes'⟩ := body'
      simp [beq, beqList_iff attributes attributes', and_assoc]
    | _ => simp [beq]
  | record components =>
    cases b with
    | record components' => simp [beq, beqComponents_iff components components']
    | _ => simp [beq]
  | plain a => cases b <;> simp [beq]

theorem beqList_iff (as bs : List Attribute) : beqList as bs = true ↔ as = bs := by
  cases as with
  | nil => cases bs <;> simp [beqList]
  | cons a as =>
    cases bs with
    | nil => simp [beqList]
    | cons b bs => simp [beqList, beq_iff a b, beqList_iff as bs]

theorem beqComponents_iff (as bs : List (RecordComponent Attribute)) :
    beqComponents as bs = true ↔ as = bs := by
  cases as with
  | nil => cases bs <;> simp [beqComponents]
  | cons a as =>
    obtain ⟨name, descriptor, attributes⟩ := a
    cases bs with
    | nil => simp [beqComponents]
    | cons b bs =>
      obtain ⟨name', descriptor', attributes'⟩ := b
      simp [beqComponents, beqList_iff attributes attributes', beqComponents_iff as bs, and_assoc]

end

instance : DecidableEq Attribute := fun a b =>
  decidable_of_iff (beq a b = true) (beq_iff a b)

end Attribute

end Renaming
