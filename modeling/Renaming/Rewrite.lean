import Renaming.ClassFile.Attribute
import Renaming.Renamer
import Renaming.Signature.Parse

/-!
# Rewriting names

The rules for a single name: of a class, in a descriptor, of a field or method that is referred to.
A reference is renamed like the declaration that it means. If there is none to be found it is
renamed like a declaration of the class that it names, and that is noted.
-/

namespace Renaming

structure RewriteState where
  hierarchy : Hierarchy
  newestDiagnostics : List Diagnostic

/-- Both the hierarchy and the diagnostics stay when a step fails. -/
abbrev Rewriting := ExceptT Failure (StateM RewriteState)

namespace Rewriting

def note (d : Diagnostic) : Rewriting Unit :=
  modify fun s => { s with newestDiagnostics := d :: s.newestDiagnostics }

def ask {α : Type} (question : Exploring α) : Rewriting α := fun s =>
  let (answer, hierarchy) := question.run s.hierarchy
  (answer, { s with hierarchy })

/-- Asks the hierarchy for a declaration; in a hierarchy with a cycle there is none. -/
def askDeclaration (question : Exploring (Option ClassModel)) : Rewriting (Option ClassModel) :=
  fun s =>
    match question.run s.hierarchy with
    | (.error (.hierarchyCycle _), hierarchy) => (.ok none, { s with hierarchy })
    | (answer, hierarchy) => (answer, { s with hierarchy })

end Rewriting

/-- The place of a name: a class, and in it the member or attribute that is being rewritten. -/
structure Site where
  renamer : Renamer
  owner : String
  bootstrapMethods : List BootstrapMethod
  subject : String

def objectType? (descriptor : String) : Option String :=
  (Text.stripStart? "L" descriptor).bind (Text.stripEnd? ";")

namespace Site

def className (s : Site) (name : String) : String := s.renamer.className name

def packageName (s : Site) (package : String) : String :=
  (s.renamer.table.newPackage? package).getD package

def classReference (s : Site) (reference : String) : Rewriting String :=
  match Descriptor.renameReference s.renamer.table.newClass? reference with
  | .ok new => return new
  | .error _ => throw (.descriptor s.subject reference)

def descriptor (s : Site) (text : String) : Rewriting String :=
  match Descriptor.rename s.renamer.table.newClass? text with
  | .ok new => return new
  | .error _ => throw (.descriptor s.subject text)

def signature (s : Site) (kind : SignatureKind) (text : String) : Rewriting String := do
  match kind.rename s.renamer.table.newClass? text with
  | .ok new => return new
  | .error e =>
    Rewriting.note (.signatureKept s.subject e)
    return text

/-- The name of a member whose reference has no declaration, with `new` its own entry. -/
def undeclared (s : Site) (kind : MemberKind) (key : MemberKey) (new : Option String) :
    Rewriting String := do
  match new with
  | none => return key.name
  | some new =>
    let reference : MemberRef := ⟨kind, key.owner, key.name, key.descriptor⟩
    Rewriting.note (.ambiguousReference reference.text new s.subject)
    return new

/-- The new name of a method that is referred to. Arrays and constructors keep theirs. -/
def methodName (s : Site) (key : MemberKey) : Rewriting String := do
  if Text.startsWith '[' key.owner || Text.startsWith '<' key.name then return key.name
  match ← Rewriting.askDeclaration (Hierarchy.methodOwner key) with
  | some c => return (s.renamer.newMethod? { key with owner := c.name }).getD key.name
  | none => s.undeclared .method key (s.renamer.newMethod? key)

def fieldName (s : Site) (key : MemberKey) : Rewriting String := do
  if Text.startsWith '[' key.owner then return key.name
  match ← Rewriting.askDeclaration (Hierarchy.fieldOwner key) with
  | some c => return (s.renamer.newField? { key with owner := c.name }).getD key.name
  | none => s.undeclared .field key (s.renamer.newField? key)

def memberRef (s : Site) (r : MemberRef) : Rewriting MemberRef := do
  let key : MemberKey := ⟨r.owner, r.name, r.descriptor⟩
  let name ← match r.kind with
    | .field => s.fieldName key
    | .method | .interfaceMethod => s.methodName key
  return ⟨r.kind, ← s.classReference r.owner, name, ← s.descriptor r.descriptor⟩

def nameAndType (s : Site) (v : NameAndType) : Rewriting NameAndType :=
  return ⟨v.name, ← s.descriptor v.descriptor⟩

def constant (s : Site) : Constant → Rewriting Constant
  | .classRef name => return .classRef (← s.classReference name)
  | .member r => return .member (← s.memberRef r)
  | .nameAndType v => return .nameAndType (← s.nameAndType v)
  | .methodHandle kind r => return .methodHandle kind (← s.memberRef r)
  | .methodType text => return .methodType (← s.descriptor text)
  | .dynamic bootstrap v => return .dynamic bootstrap (← s.nameAndType v)
  | .invokeDynamic bootstrap v => return .invokeDynamic bootstrap (← s.nameAndType v)
  | c => return c

end Site

end Renaming
