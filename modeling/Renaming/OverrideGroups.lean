import Renaming.DisjointSet
import Renaming.Hierarchy
import Renaming.RenameTable

/-!
# Groups of methods that override each other

A call can end up in any declaration that overrides the one it names, so all declarations that
override each other have to get the same new name. For every input class, the first declaration of
a method on the way up from it is joined with the later ones that it overrides or implements, and
the groups are what hangs together.
-/

namespace Renaming

structure OverrideGroups where
  index : Std.HashMap MemberKey Nat
  group : Array Nat
  names : Std.HashMap Nat String
  cyclic : Std.HashMap String String

namespace OverrideGroups

structure Declaration where
  key : MemberKey
  packagePrivate : Bool
deriving DecidableEq, Repr

/-- The declarations of a class that take part: neither static nor private, and not constructors. -/
def declarations (c : ClassModel) : List Declaration :=
  (c.methods.filter fun m =>
    AccessFlags.isVirtual m.access && !Text.startsWith '<' m.name).map fun m =>
      ⟨⟨c.name, m.name, m.descriptor⟩, AccessFlags.isPackagePrivate m.access⟩

/-- Whether the first of two declarations on the way up overrides the other. One that only its
package sees has to do with its own package alone. -/
def overrides (first above : Declaration) : Bool :=
  (!first.packagePrivate && !above.packagePrivate) ||
    packageOf first.key.owner = packageOf above.key.owner

structure Builder where
  index : Std.HashMap MemberKey Nat
  keys : Array MemberKey
  sets : DisjointSet
  cyclic : Std.HashMap String String

namespace Builder

def empty : Builder := ⟨∅, #[], .empty, ∅⟩

def number (b : Builder) (key : MemberKey) : Nat × Builder :=
  match b.index[key]? with
  | some i => (i, b)
  | none =>
    let (i, sets) := b.sets.push
    (i, { b with index := b.index.insert key i, keys := b.keys.push key, sets })

def join (b : Builder) (first above : MemberKey) : Builder :=
  let (i, b) := b.number first
  let (j, b) := b.number above
  { b with sets := b.sets.union i j }

/-- Goes through declarations on the way up; `heads` has the first one of each name and
descriptor. -/
def addAll (b : Builder) (heads : Std.HashMap (String × String) Declaration) :
    List Declaration → Builder
  | [] => b
  | d :: rest =>
    let signature := (d.key.name, d.key.descriptor)
    match heads[signature]? with
    | none => addAll (b.number d.key).2 (heads.insert signature d) rest
    | some head => addAll (if overrides head d then b.join head.key d.key else b) heads rest

def addClass (b : Builder) (c : ClassModel) : Exploring Builder := fun h =>
  match (Hierarchy.ancestorsOf c.name).run h with
  | (.ok ancestors, h) =>
    let line := c :: ancestors.filterMap h.known?
    (.ok (b.addAll ∅ (line.flatMap declarations)), h)
  | (.error (.hierarchyCycle through), h) =>
    (.ok { b with cyclic := b.cyclic.insert c.name through }, h)
  | (.error e, h) => (.error e, h)

/-- Names the group of a declaration that the table renames. With the new name the declaration is
kept that brought it in. -/
def addName (t : RenameTable) (group : Array Nat)
    (names : Std.HashMap Nat (MemberKey × String)) (entry : MemberKey × Nat) :
    Except Failure (Std.HashMap Nat (MemberKey × String)) :=
  let (key, i) := entry
  match t.newMethod? key with
  | none => .ok names
  | some new =>
    let root := group.getD i i
    match names[root]? with
    | none => .ok (names.insert root (key, new))
    | some (other, existing) =>
      if existing = new then .ok names
      else .error (.ambiguousMapping (.overridesDiffer other key existing new))

def finish (b : Builder) (t : RenameTable) : Except Failure OverrideGroups := do
  let group := b.sets.roots
  let names ← b.keys.toList.zipIdx.foldlM (addName t group) ∅
  return ⟨b.index, group, names.map fun _ named => named.2, b.cyclic⟩

end Builder

def build (t : RenameTable) (classes : List ClassModel) : Exploring OverrideGroups := do
  let b ← classes.foldlM Builder.addClass Builder.empty
  b.finish t

def groupOf? (g : OverrideGroups) (key : MemberKey) : Option Nat :=
  g.index[key]?.map fun i => g.group.getD i i

/-- The new name of a declared method: that of its group, or its own entry if it is in none. -/
def newMethod? (g : OverrideGroups) (t : RenameTable) (key : MemberKey) : Option String :=
  match g.groupOf? key with
  | some group => g.names[group]?
  | none => t.newMethod? key

def sameGroup (g : OverrideGroups) (a b : MemberKey) : Bool :=
  match g.groupOf? a, g.groupOf? b with
  | some i, some j => i = j
  | _, _ => false

end OverrideGroups

end Renaming
