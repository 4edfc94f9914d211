import Renaming.ClassFile.Model
import Renaming.Clash
import Renaming.Descriptor
import Renaming.Failure
import Renaming.OrderedMap

/-!
# Tables of renames

A table says which classes, fields and methods get a new name. Members are entered under the names
that the classes have before renaming.
-/

namespace Renaming

structure RenameTable where
  classes : OrderedMap String String
  fields : OrderedMap MemberKey String
  methods : OrderedMap MemberKey String

namespace RenameTable

def empty : RenameTable := ⟨.empty, .empty, .empty⟩

def isEmpty (t : RenameTable) : Bool :=
  t.classes.isEmpty && t.fields.isEmpty && t.methods.isEmpty

/-- Adds an entry; an equal one may be there already, a different one for the same key is a
conflict. -/
def addEntry {κ : Type} [BEq κ] [Hashable κ] [LawfulBEq κ] [LawfulHashable κ]
    (entries : OrderedMap κ String) (key : κ) (new : String)
    (conflict : String → Ambiguity) : Except Failure (OrderedMap κ String) :=
  match entries.find? key with
  | some old => if old = new then .ok entries else .error (.ambiguousMapping (conflict old))
  | none => .ok (entries.push key new)

def addClass (t : RenameTable) (old new : String) : Except Failure RenameTable := do
  let classes ← addEntry t.classes old new fun first => .classTwice old first new
  return { t with classes }

def addField (t : RenameTable) (key : MemberKey) (new : String) : Except Failure RenameTable := do
  let fields ← addEntry t.fields key new fun first => .fieldTwice key first new
  return { t with fields }

/-- A method whose name starts with an angle bracket keeps it. -/
def addMethod (t : RenameTable) (key : MemberKey) (new : String) : Except Failure RenameTable := do
  if Text.startsWith '<' key.name && key.name ≠ new then
    throw (.ambiguousMapping (.reservedMethod key.owner key.name))
  let methods ← addEntry t.methods key new fun first => .methodTwice key first new
  return { t with methods }

def newClass? (t : RenameTable) : ClassRenaming := t.classes.find?

def newField? (t : RenameTable) (key : MemberKey) : Option String := t.fields.find? key

def newMethod? (t : RenameTable) (key : MemberKey) : Option String := t.methods.find? key

def methodEntries (t : RenameTable) : List (MemberKey × String) := t.methods.toList

def newMember? (t : RenameTable) (kind : MemberKind) (key : MemberKey) : Option String :=
  match kind with
  | .field => t.newField? key
  | .method | .interfaceMethod => t.newMethod? key

/-- The package that all renamed classes of `package` move to, if there is such a package and it is
another one. -/
def newPackage? (t : RenameTable) (package : String) : Option String :=
  match (t.classes.toList.filter (packageOf ·.1 = package)).map (packageOf ·.2) with
  | [] => none
  | target :: others =>
    if others.all (· = target) && target ≠ package then some target else none

def newDescriptor (t : RenameTable) (descriptor : String) : String :=
  match Descriptor.rename t.newClass? descriptor with
  | .ok new => new
  | .error _ => descriptor

/-- What a renamed member is known by, so that no two members of a class may share it. -/
def memberTarget (t : RenameTable) (entry : MemberKey × String) : String × String × String :=
  (entry.1.owner, entry.2, t.newDescriptor entry.1.descriptor)

def validate (t : RenameTable) : Except Failure Unit := do
  if let some ((first, _), (second, new)) := firstClash? Prod.snd t.classes.toList then
    throw (.ambiguousMapping (.classEntriesMeet first second new))
  if let some ((first, _), (second, new)) := firstClash? t.memberTarget t.fields.toList then
    throw (.ambiguousMapping (.fieldEntriesMeet first second new))
  if let some ((first, _), (second, new)) := firstClash? t.memberTarget t.methods.toList then
    throw (.ambiguousMapping (.methodEntriesMeet first second new))

end RenameTable

end Renaming
