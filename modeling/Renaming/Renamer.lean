import Renaming.OverrideGroups

/-!
# Renamers

A table of renames together with the groups of methods that override each other. A renamer is built
for a set of input classes, and only if no two of these classes, and no two members of one of them,
come to share a name.
-/

namespace Renaming

structure Renamer where
  table : RenameTable
  groups : OverrideGroups
  rebuildSourceFile : Bool

namespace Renamer

def className (r : Renamer) (name : String) : String := r.table.newClass?.apply name

def newField? (r : Renamer) (key : MemberKey) : Option String := r.table.newField? key

def newMethod? (r : Renamer) (key : MemberKey) : Option String := r.groups.newMethod? r.table key

def fieldTarget (r : Renamer) (owner : String) (m : Member) : String × String :=
  ((r.newField? ⟨owner, m.name, m.descriptor⟩).getD m.name, r.table.newDescriptor m.descriptor)

def methodTarget (r : Renamer) (owner : String) (m : Member) : String × String :=
  ((r.newMethod? ⟨owner, m.name, m.descriptor⟩).getD m.name, r.table.newDescriptor m.descriptor)

def checkMembers (r : Renamer) (c : ClassModel) : Except Failure Unit := do
  if let some (first, second) := firstClash? (r.fieldTarget c.name) c.fields then
    throw (.ambiguousMapping
      (.fieldsMeet c.name first.name second.name (r.fieldTarget c.name second).1))
  if let some (first, second) := firstClash? (r.methodTarget c.name) c.methods then
    throw (.ambiguousMapping
      (.methodsMeet c.name first.name second.name second.descriptor
        (r.methodTarget c.name second).1))

def distinctFrom (seen : Std.HashSet String) : List ClassModel → List ClassModel
  | [] => []
  | c :: rest =>
    if seen.contains c.name then distinctFrom seen rest
    else c :: distinctFrom (seen.insert c.name) rest

/-- Checks classes in order; `taken` has the old name for every new one given so far, and `isInput`
says which names belong to input classes. -/
def checkClasses (r : Renamer) (h : Hierarchy) (isInput : String → Bool)
    (taken : Std.HashMap String String) : List ClassModel → Except Failure Unit
  | [] => .ok ()
  | c :: rest => do
    let new := r.className c.name
    if let some other := taken[new]? then
      throw (.ambiguousMapping (.classesMeet other c.name new))
    if new ≠ c.name && !isInput new && h.onClasspath new then
      throw (.ambiguousMapping (.classTaken c.name new))
    r.checkMembers c
    checkClasses r h isInput (taken.insert new c.name) rest

def build (t : RenameTable) (classes : List ClassModel) (config : Config) : Exploring Renamer := do
  let r : Renamer := ⟨t, ← OverrideGroups.build t classes, config.rebuildSourceFile⟩
  let inputs := Std.HashSet.ofList (classes.map ClassModel.name)
  r.checkClasses (← get) inputs.contains ∅ (distinctFrom ∅ classes)
  return r

end Renamer

end Renaming
