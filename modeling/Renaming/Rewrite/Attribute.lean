import Renaming.Rewrite.Bytecode

/-!
# Rewriting attributes

Every attribute is rewritten to one of its own kind. What is kept as bytes stays as it is.
-/

namespace Renaming

/-- The simple name of a nested class: what follows the name of its outer class and a dollar sign
or, if its name does not start that way, what follows the last dollar sign. -/
def innerSimpleName? (inner : String) (outer : Option String) : Option String :=
  let simple := match outer.bind fun outer => Text.stripStart? (outer ++ "$") inner with
    | some simple => simple
    | none => Text.afterLast '$' (Text.afterLast '/' inner)
  if simple.isEmpty then none else some simple

namespace Site

def verificationType (s : Site) : VerificationType → Rewriting VerificationType
  | .object name => return .object (← s.classReference name)
  | type => return type

def stackMapFrame (s : Site) : StackMapFrame → Rewriting StackMapFrame
  | .sameOne tag stack => return .sameOne tag (← s.verificationType stack)
  | .sameOneExtended delta stack => return .sameOneExtended delta (← s.verificationType stack)
  | .append tag delta locals => return .append tag delta (← locals.mapM s.verificationType)
  | .full delta locals stack =>
    return .full delta (← locals.mapM s.verificationType) (← stack.mapM s.verificationType)
  | frame => return frame

/-- The simple name changes with the class that it belongs to; a class without one has none
afterwards. -/
def innerClass (s : Site) (c : InnerClass) : InnerClass :=
  let inner := s.className c.inner
  let outer := c.outer.map s.className
  let name := if inner = c.inner then c.name
    else c.name.map fun old => (innerSimpleName? inner outer).getD old
  ⟨inner, outer, name, c.access⟩

def enclosingMethod (s : Site) (owner : String) (m : NameAndType) : Rewriting NameAndType := do
  let name ← s.methodName ⟨owner, m.name, m.descriptor⟩
  return ⟨name, ← s.descriptor m.descriptor⟩

def sourceFile (s : Site) (name : String) : String :=
  match s.renamer.table.newClass? s.owner with
  | some new =>
    if s.renamer.rebuildSourceFile && new ≠ s.owner then
      Text.beforeFirst '$' (Text.afterLast '/' new) ++ ".java"
    else name
  | none => name

def localVariable (s : Site) (v : LocalVariable) : Rewriting LocalVariable := do
  match Descriptor.renameField s.renamer.table.newClass? v.descriptor with
  | .ok descriptor => return { v with descriptor }
  | .error e =>
    Rewriting.note (.variableTypeKept s.subject v.name e)
    return v

def localVariableType (s : Site) (v : LocalVariable) : Rewriting LocalVariable := do
  match SignatureKind.rename s.renamer.table.newClass? v.descriptor .ofField with
  | .ok descriptor => return { v with descriptor }
  | .error e =>
    Rewriting.note (.variableSignatureKept s.subject v.name e)
    return v

/-- The arguments are rewritten before the method. -/
def bootstrapMethod (s : Site) (m : BootstrapMethod) : Rewriting BootstrapMethod := do
  let arguments ← m.arguments.mapM s.constant
  return ⟨← s.constant m.method, arguments⟩

def moduleInfo (s : Site) (m : ModuleInfo) : ModuleInfo :=
  let moved (e : ModuleExport) : ModuleExport := { e with package := s.packageName e.package }
  { m with
    exports := m.exports.map moved
    opens := m.opens.map moved
    uses := m.uses.map s.className
    provides := m.provides.map fun p =>
      ⟨s.className p.service, p.implementations.map s.className⟩ }

def modulePackages (s : Site) (packages : List String) : List String :=
  packages.foldl (fun all package =>
    let moved := s.packageName package
    if all.contains moved then all else all ++ [moved]) packages

def takesNothing (descriptor : String) : Bool := (Text.stripStart? "()" descriptor).isSome

/-- The new name of an element of an annotation, which is a method of the annotation's type. If the
type does not declare it, the first entry of the table for such a method counts. -/
def elementName (s : Site) (type name : String) : Rewriting String := do
  let declared := (← Rewriting.ask (Hierarchy.lookup type)).bind fun c =>
    c.methods.find? fun m => m.name = name && takesNothing m.descriptor
  match declared with
  | some m => s.methodName ⟨type, name, m.descriptor⟩
  | none =>
    let entry := s.renamer.table.methodEntries.find? fun entry =>
      entry.1.owner = type && entry.1.name = name && takesNothing entry.1.descriptor
    return (entry.map Prod.snd).getD name

/-- The name of an enum constant is that of a field of its own type. -/
def enumConstant (s : Site) (type name : String) : Rewriting String :=
  match objectType? type with
  | some owner => s.fieldName ⟨owner, name, type⟩
  | none => return name

mutual

def elementValue (s : Site) : ElementValue → Rewriting ElementValue
  | .const tag value => return .const tag value
  | .enum type name => do
    let name ← s.enumConstant type name
    return .enum (← s.descriptor type) name
  | .classLiteral descriptor =>
    if descriptor = "V" then return .classLiteral descriptor
    else return .classLiteral (← s.descriptor descriptor)
  | .nested type elements => do
    let elements ← elementValues s (objectType? type) elements
    return .nested (← s.descriptor type) elements
  | .array values => return .array (← arrayValues s values)

def elementValues (s : Site) (type : Option String) :
    List (String × ElementValue) → Rewriting (List (String × ElementValue))
  | [] => return []
  | (name, value) :: rest => do
    let name ← match type with
      | some type => s.elementName type name
      | none => pure name
    let value ← elementValue s value
    return (name, value) :: (← elementValues s type rest)

def arrayValues (s : Site) : List ElementValue → Rewriting (List ElementValue)
  | [] => return []
  | value :: rest => do
    let value ← elementValue s value
    return value :: (← arrayValues s rest)

end

def annotated (s : Site) (a : Annotation) : Rewriting Annotation := do
  let elements ← s.elementValues (objectType? a.type) a.elements
  return ⟨← s.descriptor a.type, elements⟩

def plainAttribute (s : Site) (kind : SignatureKind) : PlainAttribute → Rewriting PlainAttribute
  | .stackMapTable frames => return .stackMapTable (← frames.mapM s.stackMapFrame)
  | .exceptions classes => return .exceptions (classes.map s.className)
  | .innerClasses entries => return .innerClasses (entries.map s.innerClass)
  | .enclosingMethod owner method => do
    let method ← method.mapM (s.enclosingMethod owner)
    return .enclosingMethod (s.className owner) method
  | .signature text => return .signature (← s.signature kind text)
  | .sourceFile name => return .sourceFile (s.sourceFile name)
  | .localVariables locals => return .localVariables (← locals.mapM s.localVariable)
  | .localVariableTypes locals =>
    return .localVariableTypes (← locals.mapM s.localVariableType)
  | .annotations visibility as => return .annotations visibility (← as.mapM s.annotated)
  | .parameterAnnotations visibility parameters =>
    return .parameterAnnotations visibility (← parameters.mapM (List.mapM s.annotated))
  | .typeAnnotations visibility as =>
    return .typeAnnotations visibility
      (← as.mapM fun a => return ⟨a.target, ← s.annotated a.annotation⟩)
  | .annotationDefault value => return .annotationDefault (← s.elementValue value)
  | .bootstrapMethods methods => return .bootstrapMethods (← methods.mapM s.bootstrapMethod)
  | .nestHost name => return .nestHost (s.className name)
  | .nestMembers classes => return .nestMembers (classes.map s.className)
  | .permittedSubclasses classes => return .permittedSubclasses (classes.map s.className)
  | .moduleInfo info => return .moduleInfo (s.moduleInfo info)
  | .modulePackages packages => return .modulePackages (s.modulePackages packages)
  | .moduleMainClass name => return .moduleMainClass (s.className name)
  | a => return a

def exceptionHandler (s : Site) (h : ExceptionHandler) : ExceptionHandler :=
  { h with caught := h.caught.map s.className }

def componentName (s : Site) (name descriptor : String) : String :=
  (s.renamer.newField? ⟨s.owner, name, descriptor⟩).getD name

mutual

def rewriteAttribute (s : Site) (kind : SignatureKind) : Attribute → Rewriting Attribute
  | .code ⟨maxStack, maxLocals, instructions, handlers, attributes⟩ => do
    let instructions ← instructions.mapM s.instruction
    let attributes ← rewriteAttributes s .ofField attributes
    return .code ⟨maxStack, maxLocals, instructions, handlers.map s.exceptionHandler, attributes⟩
  | .record components => return .record (← rewriteComponents s components)
  | .plain a => return .plain (← s.plainAttribute kind a)

def rewriteAttributes (s : Site) (kind : SignatureKind) :
    List Attribute → Rewriting (List Attribute)
  | [] => return []
  | a :: rest => do
    let a ← rewriteAttribute s kind a
    return a :: (← rewriteAttributes s kind rest)

def rewriteComponents (s : Site) :
    List (RecordComponent Attribute) → Rewriting (List (RecordComponent Attribute))
  | [] => return []
  | ⟨name, descriptor, attributes⟩ :: rest => do
    let newDescriptor ← s.descriptor descriptor
    let attributes ← rewriteAttributes s .ofField attributes
    let component := ⟨s.componentName name descriptor, newDescriptor, attributes⟩
    return component :: (← rewriteComponents s rest)

end

end Site

end Renaming
