import Std.Data.HashSet
import Renaming.ClassFile.Read
import Renaming.ClassPath
import Renaming.Config
import Renaming.Diagnostic
import Renaming.MemberKey

/-!
# The class hierarchy

The classes known so far and how they are related. Input classes are put in at the start; any other
class is looked for on the class path when something first asks for it, and the answer is kept,
also when it is that there is no such class.

Every question is a computation that may find out about more classes. What it finds out stays
known if the question fails.
-/

namespace Renaming

structure Hierarchy where
  classpath : ClassPath
  timeout : Option Nat
  strict : Bool
  nodes : Std.HashMap String (Option ClassModel)
  children : Std.HashMap String (List String)
  ancestors : Std.HashMap String (List String)
  newestDiagnostics : List Diagnostic

abbrev Exploring := ExceptT Failure (StateM Hierarchy)

namespace Hierarchy

def ofClasspath (classpath : ClassPath) (config : Config) : Hierarchy where
  classpath := classpath
  timeout := config.classpathTimeout.map UInt64.toNat
  strict := config.failOnUnresolved
  nodes := ∅
  children := ∅
  ancestors := ∅
  newestDiagnostics := []

def diagnostics (h : Hierarchy) : List Diagnostic := h.newestDiagnostics.reverse

def known? (h : Hierarchy) (name : String) : Option ClassModel :=
  if Text.startsWith '[' name then none else h.nodes[name]?.getD none

def registerChildren (h : Hierarchy) (c : ClassModel) : Hierarchy :=
  let children := c.supertypes.foldl
    (fun children parent => children.alter parent fun known => some (c.name :: known.getD []))
    h.children
  { h with children }

def seed (h : Hierarchy) (c : ClassModel) : Hierarchy :=
  match h.nodes[c.name]? with
  | some _ => h
  | none => { h.registerChildren c with nodes := h.nodes.insert c.name (some c) }

/-- The file of a class, if the class path has one. A file that stalls counts as missing where
there is no limit to the time. -/
def fetch (h : Hierarchy) (name : String) : Except Missing (Option Bytes) :=
  match h.classpath.find? name with
  | none => .ok none
  | some (.bytes file) => .ok (some file)
  | some (.unreadable reason) => .error (.readFailed reason)
  | some .stalled =>
    match h.timeout with
    | some ms => .error (.timedOut ms)
    | none => .ok none

def load (h : Hierarchy) (name : String) : Except Missing ClassModel :=
  match h.fetch name with
  | .error cause => .error cause
  | .ok none => .error .notFound
  | .ok (some file) =>
    match ClassModel.parse file with
    | .error e => .error (.malformed e)
    | .ok c => if c.name = name then .ok c else .error (.otherClass c.name)

/-- Whether the class path has a file for a class. Asking leaves no trace. -/
def onClasspath (h : Hierarchy) (name : String) : Bool :=
  match h.fetch name with
  | .ok (some _) => true
  | _ => false

def lookup (name : String) : Exploring (Option ClassModel) := do
  if Text.startsWith '[' name then return none
  let h ← get
  match h.nodes[name]? with
  | some node => return node
  | none =>
    match h.load name with
    | .ok c =>
      set { h.registerChildren c with nodes := h.nodes.insert name (some c) }
      return some c
    | .error cause =>
      if h.strict then throw (.unresolved name cause)
      set { h with
        nodes := h.nodes.insert name none
        newestDiagnostics := .unresolved name cause :: h.newestDiagnostics }
      return none

/-- Visits `name` and its ancestors in depth; `path` leads to `name`, and `done` are the classes
from which no cycle is reachable. Since the path only grows by classes that exist, their number
bounds the depth. -/
def visit : (fuel : Nat) → (path : List String) → (done : Std.HashSet String) → (name : String) →
    Exploring (Std.HashSet String)
  | 0, _, _, name => throw (.hierarchyCycle name)
  | fuel + 1, path, done, name => do
    if done.contains name then return done
    if path.contains name then throw (.hierarchyCycle name)
    match ← lookup name with
    | none => return done.insert name
    | some c =>
      let done ← c.supertypes.foldlM (visit fuel (name :: path)) done
      return done.insert name

def reachable (name : String) : Exploring (Std.HashSet String) := do
  let h ← get
  visit (h.nodes.size + h.classpath.size + 1) [] ∅ name

def discover (seen : Std.HashSet String) (names : List String) :
    List String × Std.HashSet String :=
  names.foldl (fun (fresh, seen) name =>
    if seen.contains name then (fresh, seen) else (fresh ++ [name], seen.insert name)) ([], seen)

def sweep (next : String → List String) : (fuel : Nat) → (pending : List String) →
    (seen : Std.HashSet String) → List String
  | 0, _, _ => []
  | _ + 1, [], _ => []
  | fuel + 1, name :: pending, seen =>
    let (fresh, seen) := discover seen (next name)
    fresh ++ sweep next fuel (pending ++ fresh) seen

def parents (h : Hierarchy) (name : String) : List String :=
  (h.known? name).elim [] ClassModel.supertypes

/-- All supertypes of a class, the nearest first. A class that does not exist is listed, and has no
supertypes. -/
def ancestorsOf (name : String) : Exploring (List String) := do
  match (← get).ancestors[name]? with
  | some known => return known
  | none =>
    let all ← reachable name
    let found := sweep (← get).parents (all.size + 1) [name] ∅
    modify fun h => { h with ancestors := h.ancestors.insert name found }
    return found

def descendantsOf (h : Hierarchy) (name : String) : List String :=
  let fuel := h.children.fold (fun n _ names => n + names.length) 1
  (sweep (fun parent => h.children[parent]?.getD []) fuel [name] ∅).mergeSort
    (fun a b => !(b < a))

/-- The classes below the owner of a method that declare an override of it, sorted. A method that
only its package sees is overridden in its package alone. -/
def implementorsOf (method : MemberKey) : Exploring (List String) := do
  let some owner ← lookup method.owner | return []
  let some declared := owner.findMethod method.name method.descriptor | return []
  if !AccessFlags.isVirtual declared.access || Text.startsWith '<' method.name then return []
  let packagePrivate := AccessFlags.isPackagePrivate declared.access
  ((← get).descendantsOf method.owner).filterM fun name => do
    let some c ← lookup name | return false
    if packagePrivate && c.package ≠ owner.package then return false
    return (c.findMethod method.name method.descriptor).any (AccessFlags.isVirtual ·.access)

def methodOnLine (method descriptor : String) : (fuel : Nat) → (name : Option String) →
    Exploring (Option ClassModel)
  | 0, _ => return none
  | _, none => return none
  | fuel + 1, some name => do
    let some c ← lookup name | return none
    if (c.findMethod method descriptor).isSome then return some c
    methodOnLine method descriptor fuel c.superName

/-- The class whose declaration a method reference means: the first on the line of superclasses, or
else the first of the interfaces in the order of the ancestors. -/
def methodOwner (reference : MemberKey) : Exploring (Option ClassModel) := do
  let ancestors ← ancestorsOf reference.owner
  if let some c ← methodOnLine reference.name reference.descriptor (ancestors.length + 1)
      (some reference.owner) then
    return some c
  ancestors.findSomeM? fun name => do
    let some c ← lookup name | return none
    return if c.isInterface && (c.findMethod reference.name reference.descriptor).isSome
      then some c else none

/-- The first class that declares a field: the class itself, then what its interfaces lead to, then
what its superclass leads to. -/
def fieldAbove (field descriptor : String) : (fuel : Nat) → (name : String) →
    Exploring (Option ClassModel)
  | 0, _ => return none
  | fuel + 1, name => do
    let some c ← lookup name | return none
    if (c.findField field descriptor).isSome then return some c
    (c.interfaces ++ c.superName.toList).findSomeM? (fieldAbove field descriptor fuel)

def fieldOwner (reference : MemberKey) : Exploring (Option ClassModel) := do
  let all ← reachable reference.owner
  fieldAbove reference.name reference.descriptor (all.size + 1) reference.owner

end Hierarchy

end Renaming
