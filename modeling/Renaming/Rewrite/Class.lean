import Renaming.Rewrite.Attribute

/-!
# Rewriting classes

The fields, the methods and the attributes of a class are rewritten one by one. One with a
descriptor that is not well formed is kept as it is, and that is noted; everything else that goes
wrong makes the class fail.
-/

namespace Renaming

structure Rewritten where
  model : ClassModel
  diagnostics : List Diagnostic

def ClassModel.bootstrapMethods (c : ClassModel) : List BootstrapMethod :=
  (c.attributes.findSome? fun
    | .plain (.bootstrapMethods methods) => some methods
    | _ => none).getD []

/-- The result of a step, or what there was before if a descriptor made it fail. -/
def Rewriting.orKeep {α : Type} (old : α) (step : Rewriting α) : Rewriting α :=
  tryCatch step fun
    | .descriptor member text => do
      Rewriting.note (.memberKept member text)
      return old
    | e => throw e

namespace Site

def field (s : Site) (m : Member) : Rewriting Member := do
  let name := (s.renamer.newField? ⟨s.owner, m.name, m.descriptor⟩).getD m.name
  let descriptor ← s.descriptor m.descriptor
  return ⟨m.access, name, descriptor, ← s.rewriteAttributes .ofField m.attributes⟩

def method (s : Site) (m : Member) : Rewriting Member := do
  let name := (s.renamer.newMethod? ⟨s.owner, m.name, m.descriptor⟩).getD m.name
  let descriptor ← s.descriptor m.descriptor
  return ⟨m.access, name, descriptor, ← s.rewriteAttributes .ofMethod m.attributes⟩

def atMember (s : Site) (kind : MemberKind) (m : Member) : Site :=
  { s with subject := (MemberRef.mk kind s.owner m.name m.descriptor).text }

def rewriteClass (s : Site) (c : ClassModel) : Rewriting ClassModel := do
  let fields ← c.fields.mapM fun m => Rewriting.orKeep m ((s.atMember .field m).field m)
  let methods ← c.methods.mapM fun m => Rewriting.orKeep m ((s.atMember .method m).method m)
  let attributes ← c.attributes.mapM fun a => Rewriting.orKeep a (s.rewriteAttribute .ofClass a)
  return { c with
    name := s.className c.name
    superName := c.superName.map s.className
    interfaces := c.interfaces.map s.className
    fields, methods, attributes }

end Site

namespace Renamer

/-- Rewrites a class. One with a cycle among its supertypes is not rewritten. -/
def rewrite (r : Renamer) (c : ClassModel) : Exploring Rewritten := fun h =>
  match r.groups.cyclic[c.name]? with
  | some through => (.error (.hierarchyCycle through), h)
  | none =>
    let site : Site := ⟨r, c.name, c.bootstrapMethods, c.name⟩
    match (site.rewriteClass c).run ⟨h, []⟩ with
    | (.ok model, s) => (.ok ⟨model, s.newestDiagnostics.reverse⟩, s.hierarchy)
    | (.error e, s) => (.error e, s.hierarchy)

def rewriteAlone (t : RenameTable) (c : ClassModel) : Exploring Rewritten := do
  modify (Hierarchy.seed · c)
  (← build t [c] Config.standard).rewrite c

end Renamer

end Renaming
