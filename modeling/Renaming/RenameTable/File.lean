import Renaming.RenameTable
import Renaming.Text.Blank

/-!
# Mapping files

A mapping file has one entry a line, in columns between blanks:

    class a/A a/AA
    field a/A.count I total
    method a/A.run ()V runAA

What follows a `#` is a comment. The lines may come in any order, and the finished table has to be
valid.
-/

namespace Renaming

def hasEmptySegment : List Char → Bool
  | '/' :: '/' :: _ => true
  | _ :: rest => hasEmptySegment rest
  | [] => false

/-- A class name in the internal form: not empty, no empty first or last segment, no two slashes in
a row, and none of the characters that have a meaning in descriptors. -/
def isClassName (name : String) : Bool :=
  let cs := name.toList
  !cs.isEmpty && cs.head? ≠ some '/' && cs.getLast? ≠ some '/' && !hasEmptySegment cs &&
    cs.all fun c => c ∉ ['.', ';', '[', '<', '>']

def isMemberName (name : String) : Bool :=
  !name.isEmpty && name.toList.all fun c => c ∉ ['.', ';', '[', '/', '<', '>']

def isSpecialMethod (name : String) : Bool := name = "<init>" || name = "<clinit>"

namespace RenameTable

/-- The owner and name of a member; the last dot separates them. -/
def splitMember (member : String) : Except MappingFault (String × String) :=
  match Text.splitAtLast? '.' member with
  | some (owner, name) => if isClassName owner then .ok (owner, name) else .error .ownerAndName
  | none => .error .ownerAndName

inductive Entry where
  | ofClass (old new : String)
  | ofField (key : MemberKey) (new : String)
  | ofMethod (key : MemberKey) (new : String)
deriving DecidableEq, Repr

def Entry.parse : List String → Except MappingFault Entry
  | ["class", old, new] =>
    if isClassName old && isClassName new then .ok (ofClass old new) else .error .className
  | ["field", member, descriptor, new] => do
    let (owner, name) ← splitMember member
    if (FieldType.parse descriptor).toOption.isNone then throw .fieldDescriptor
    if !isMemberName name || !isMemberName new then throw .fieldName
    return ofField ⟨owner, name, descriptor⟩ new
  | ["method", member, descriptor, new] => do
    let (owner, name) ← splitMember member
    if (MethodDescriptor.parse descriptor).toOption.isNone then throw .methodDescriptor
    if !isSpecialMethod name && !(isMemberName name && isMemberName new) then throw .methodName
    return ofMethod ⟨owner, name, descriptor⟩ new
  | kind :: _ =>
    if kind = "class" || kind = "field" || kind = "method" then .error .columns
    else .error (.unknownKind kind)
  | [] => .error .columns

def add (t : RenameTable) : Entry → Except Failure RenameTable
  | .ofClass old new => t.addClass old new
  | .ofField key new => t.addField key new
  | .ofMethod key new => t.addMethod key new

def addLine (t : RenameTable) (line : String × Nat) : Except Failure RenameTable :=
  match Text.words (Text.beforeFirst '#' line.1) with
  | [] => .ok t
  | columns =>
    match Entry.parse columns with
    | .ok entry => t.add entry
    | .error fault => .error (.mappingLine line.2 fault)

def parse (text : String) : Except Failure RenameTable := do
  let t ← ((Text.lines text).zipIdx 1).foldlM addLine empty
  t.validate
  return t

end RenameTable

end Renaming
