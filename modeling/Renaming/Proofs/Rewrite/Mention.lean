import Mathlib.Data.List.Forall2
import Renaming.Rewrite.Class

/-!
# Mentions of classes and members

A mention is a text of a class file that names classes, together with the rule by which it does so.
Every part of a class lists its mentions in order. A constant as the value of a field is not among
them, as the rewriter leaves it alone, nor is what is kept as bytes.
-/

namespace Renaming

inductive Mention where
  | name (name : String)
  /-- A class name or an array type. -/
  | reference (text : String)
  | descriptor (text : String)
  /-- The descriptor of a class literal, which may be that of no value. -/
  | literal (text : String)
  | member (reference : MemberRef)
  | signature (kind : SignatureKind) (text : String)
  | localType (text : String)
  | localSignature (text : String)

/-- `b` is the mention `a` renamed, where members are renamed by `M`. The types of local variables
are only renamed for certain if `debug` holds. -/
inductive Mention.Renamed (f : ClassRenaming) (debug : Prop) (M : MemberRef → MemberRef → Prop) :
    (a b : Mention) → Prop
  | name (n : String) : Renamed f debug M (.name n) (.name (f.apply n))
  | reference {a b : String} (h : Descriptor.renameReference f a = .ok b) :
    Renamed f debug M (.reference a) (.reference b)
  | descriptor {a b : String} (h : Descriptor.rename f a = .ok b) :
    Renamed f debug M (.descriptor a) (.descriptor b)
  | nothing : Renamed f debug M (.literal "V") (.literal "V")
  | literal {a b : String} (h : Descriptor.rename f a = .ok b) :
    Renamed f debug M (.literal a) (.literal b)
  | member {a b : MemberRef} (h : M a b) : Renamed f debug M (.member a) (.member b)
  | signature {kind : SignatureKind} {a b : String} (h : kind.rename f a = .ok b) :
    Renamed f debug M (.signature kind a) (.signature kind b)
  | localType {a b : String} (h : debug → Descriptor.renameField f a = .ok b) :
    Renamed f debug M (.localType a) (.localType b)
  | localSignature {a b : String} (h : debug → SignatureKind.ofField.rename f a = .ok b) :
    Renamed f debug M (.localSignature a) (.localSignature b)

def Constant.mentions : Constant → List Mention
  | classRef name => [.reference name]
  | member r => [.member r]
  | nameAndType v => [.descriptor v.descriptor]
  | methodHandle _ r => [.member r]
  | methodType text => [.descriptor text]
  | dynamic _ v | invokeDynamic _ v => [.descriptor v.descriptor]
  | _ => []

def Operand.mentions : Operand → List Mention
  | constant c => c.mentions
  | member r | invokeInterface r _ => [.member r]
  | invokeDynamic _ v => [.descriptor v.descriptor]
  | classRef name | multiArray name _ => [.reference name]
  | _ => []

def Instruction.mentions (i : Instruction) : List Mention := i.operand.mentions

def ExceptionHandler.mentions (h : ExceptionHandler) : List Mention :=
  h.caught.toList.map .name

def VerificationType.mentions : VerificationType → List Mention
  | object name => [.reference name]
  | _ => []

def StackMapFrame.mentions : StackMapFrame → List Mention
  | sameOne _ stack | sameOneExtended _ stack => stack.mentions
  | append _ _ locals => locals.flatMap VerificationType.mentions
  | full _ locals stack =>
    locals.flatMap VerificationType.mentions ++ stack.flatMap VerificationType.mentions
  | _ => []

namespace ElementValue

mutual

def mentions : ElementValue → List Mention
  | const _ _ => []
  | enum type _ => [.descriptor type]
  | classLiteral text => [.literal text]
  | nested type elements => .descriptor type :: elementMentions elements
  | array values => listMentions values

def elementMentions : List (String × ElementValue) → List Mention
  | [] => []
  | (_, value) :: rest => mentions value ++ elementMentions rest

def listMentions : List ElementValue → List Mention
  | [] => []
  | value :: rest => mentions value ++ listMentions rest

end

end ElementValue

def Annotation.mentions (a : Annotation) : List Mention :=
  .descriptor a.type :: ElementValue.elementMentions a.elements

def InnerClass.mentions (c : InnerClass) : List Mention :=
  .name c.inner :: c.outer.toList.map .name

def BootstrapMethod.mentions (m : BootstrapMethod) : List Mention :=
  m.method.mentions ++ m.arguments.flatMap Constant.mentions

def ModuleInfo.mentions (m : ModuleInfo) : List Mention :=
  m.uses.map .name ++
    m.provides.flatMap fun p => .name p.service :: p.implementations.map .name

/-- The mentions in an attribute of something whose signatures are of the given kind. -/
def PlainAttribute.mentions (kind : SignatureKind) : PlainAttribute → List Mention
  | stackMapTable frames => frames.flatMap StackMapFrame.mentions
  | exceptions classes => classes.map .name
  | innerClasses entries => entries.flatMap InnerClass.mentions
  | enclosingMethod owner method =>
    .name owner :: method.toList.map fun m => .descriptor m.descriptor
  | signature text => [.signature kind text]
  | localVariables locals => locals.map fun v => .localType v.descriptor
  | localVariableTypes locals => locals.map fun v => .localSignature v.descriptor
  | annotations _ as => as.flatMap Annotation.mentions
  | parameterAnnotations _ parameters => parameters.flatMap (List.flatMap Annotation.mentions)
  | typeAnnotations _ as => as.flatMap fun a => a.annotation.mentions
  | annotationDefault value => value.mentions
  | bootstrapMethods methods => methods.flatMap BootstrapMethod.mentions
  | nestHost name => [.name name]
  | nestMembers classes => classes.map .name
  | permittedSubclasses classes => classes.map .name
  | moduleInfo info => info.mentions
  | moduleMainClass name => [.name name]
  | _ => []

namespace Attribute

mutual

def mentions (kind : SignatureKind) : Attribute → List Mention
  | code ⟨_, _, instructions, handlers, attributes⟩ =>
    instructions.flatMap Instruction.mentions ++ handlers.flatMap ExceptionHandler.mentions ++
      listMentions .ofField attributes
  | record components => componentMentions components
  | plain a => a.mentions kind

def listMentions (kind : SignatureKind) : List Attribute → List Mention
  | [] => []
  | a :: rest => mentions kind a ++ listMentions kind rest

def componentMentions : List (RecordComponent Attribute) → List Mention
  | [] => []
  | ⟨_, descriptor, attributes⟩ :: rest =>
    .descriptor descriptor :: listMentions .ofField attributes ++ componentMentions rest

end

end Attribute

def Member.mentions (kind : SignatureKind) (m : Member) : List Mention :=
  .descriptor m.descriptor :: Attribute.listMentions kind m.attributes

/-- The mentions in a class, from its name to its attributes. -/
def ClassModel.mentions (c : ClassModel) : List Mention :=
  .name c.name :: c.superName.toList.map .name ++ c.interfaces.map .name ++
    c.fields.flatMap (Member.mentions .ofField) ++ c.methods.flatMap (Member.mentions .ofMethod) ++
    c.attributes.flatMap (Attribute.mentions .ofClass)

end Renaming
