import Renaming.Proofs.Hierarchy.Failures
import Renaming.Rewrite.Class

/-!
# The steps of a rewriting

Rewriting takes few kinds of steps: it finds a text malformed, notes a diagnostic, asks the hierarchy,
or keeps something as it is. What holds for these and for sequences of them holds for the rewriting of
a class; how it can fail is the first example.
-/

namespace Renaming

open Effectful

namespace Rewriting

/-- The computation is put together from the steps that rewriting takes. -/
inductive Composed : {α : Type} → Rewriting α → Prop
  | pure {α : Type} (a : α) : Composed (Pure.pure a)
  | bind {α β : Type} {x : Rewriting α} {f : α → Rewriting β} (hx : Composed x)
    (hf : ∀ a, Composed (f a)) : Composed (x >>= f)
  | malformed {α : Type} (subject text : String) :
    Composed (throw (.descriptor subject text) : Rewriting α)
  | note {d : Diagnostic} (hd : d.kind ≠ .unresolved) : Composed (note d)
  | lookup (name : String) : Composed (ask (Hierarchy.lookup name))
  | methodOwner (key : MemberKey) : Composed (askDeclaration (Hierarchy.methodOwner key))
  | fieldOwner (key : MemberKey) : Composed (askDeclaration (Hierarchy.fieldOwner key))
  | orKeep {α : Type} (old : α) {x : Rewriting α} (hx : Composed x) : Composed (orKeep old x)

namespace Composed

variable {α β : Type}

theorem map {x : Rewriting α} {g : α → β} (hx : Composed x) :
    Composed (x >>= fun a => Pure.pure (g a)) :=
  hx.bind fun a => .pure (g a)

theorem mapM {f : α → Rewriting β} (hf : ∀ a, Composed (f a)) (as : List α) :
    Composed (as.mapM f) := by
  induction as with
  | nil =>
    rw [List.mapM_nil]
    exact .pure []
  | cons a as ih =>
    rw [List.mapM_cons]
    exact (hf a).bind fun b => ih.map

theorem optionMapM {f : α → Rewriting β} (hf : ∀ a, Composed (f a)) (o : Option α) :
    Composed (o.mapM f) := by
  cases o with
  | none => exact .pure none
  | some a =>
    change Composed (some <$> f a)
    rw [map_eq_pure_bind]
    exact (hf a).map

end Composed

end Rewriting

namespace Site

open Rewriting

variable {s : Site}

theorem composed_classReference (text : String) : Composed (s.classReference text) := by
  rw [classReference]
  split
  · exact .pure _
  · exact .malformed s.subject text

theorem composed_descriptor (text : String) : Composed (s.descriptor text) := by
  rw [Site.descriptor]
  split
  · exact .pure _
  · exact .malformed s.subject text

theorem composed_signature (kind : SignatureKind) (text : String) :
    Composed (s.signature kind text) := by
  rw [signature]
  split
  · exact .pure _
  · exact (Composed.note Diagnostic.Kind.noConfusion).map

theorem composed_undeclared (kind : MemberKind) (key : MemberKey) (new : Option String) :
    Composed (s.undeclared kind key new) := by
  cases new with
  | none => exact .pure _
  | some new => exact (Composed.note Diagnostic.Kind.noConfusion).map

theorem composed_methodName (key : MemberKey) : Composed (s.methodName key) := by
  rw [methodName]
  split
  · exact .pure _
  · apply (Composed.methodOwner key).bind
    intro owner
    split
    · exact .pure _
    · exact composed_undeclared _ _ _

theorem composed_fieldName (key : MemberKey) : Composed (s.fieldName key) := by
  rw [fieldName]
  split
  · exact .pure _
  · apply (Composed.fieldOwner key).bind
    intro owner
    split
    · exact .pure _
    · exact composed_undeclared _ _ _

theorem composed_memberRef (r : MemberRef) : Composed (s.memberRef r) := by
  have hName : ∀ name, Composed (do
      return ⟨r.kind, ← s.classReference r.owner, name, ← s.descriptor r.descriptor⟩ :
        Rewriting MemberRef) := fun _ =>
    (composed_classReference r.owner).bind fun _ => (composed_descriptor r.descriptor).map
  rw [memberRef]
  dsimp only
  split
  · exact (composed_fieldName _).bind hName
  · exact (composed_methodName _).bind hName
  · exact (composed_methodName _).bind hName

theorem composed_nameAndType (v : NameAndType) : Composed (s.nameAndType v) :=
  (composed_descriptor v.descriptor).map

theorem composed_constant (c : Constant) : Composed (s.constant c) := by
  cases c with
  | classRef name => exact (composed_classReference name).map
  | member r => exact (composed_memberRef r).map
  | nameAndType v => exact (composed_nameAndType v).map
  | methodHandle kind r => exact (composed_memberRef r).map
  | methodType text => exact (composed_descriptor text).map
  | dynamic bootstrap v => exact (composed_nameAndType v).map
  | invokeDynamic bootstrap v => exact (composed_nameAndType v).map
  | _ => exact .pure _

theorem composed_callSite (bootstrap : UInt16) (v : NameAndType) :
    Composed (s.callSite bootstrap v) := by
  have hName : ∀ name, Composed (do
      return ⟨name, ← s.descriptor v.descriptor⟩ : Rewriting NameAndType) := fun _ =>
    (composed_descriptor v.descriptor).map
  rw [callSite]
  split
  · exact (composed_methodName _).bind hName
  · exact hName v.name

theorem composed_operand (o : Operand) : Composed (s.operand o) := by
  cases o with
  | constant c => exact (composed_constant c).map
  | member r => exact (composed_memberRef r).map
  | invokeInterface r count => exact (composed_memberRef r).map
  | invokeDynamic bootstrap v => exact (composed_callSite bootstrap v).map
  | classRef name => exact (composed_classReference name).map
  | multiArray name dimensions => exact (composed_classReference name).map
  | _ => exact .pure _

theorem composed_instruction (i : Instruction) : Composed (s.instruction i) :=
  (composed_operand i.operand).map

theorem composed_verificationType (t : VerificationType) : Composed (s.verificationType t) := by
  cases t with
  | object name => exact (composed_classReference name).map
  | _ => exact .pure _

theorem composed_stackMapFrame (frame : StackMapFrame) : Composed (s.stackMapFrame frame) := by
  cases frame with
  | sameOne tag stack => exact (composed_verificationType stack).map
  | sameOneExtended delta stack => exact (composed_verificationType stack).map
  | append tag delta types => exact (Composed.mapM composed_verificationType types).map
  | full delta types stack =>
    exact (Composed.mapM composed_verificationType types).bind fun _ =>
      (Composed.mapM composed_verificationType stack).map
  | _ => exact .pure _

theorem composed_enclosingMethod (owner : String) (m : NameAndType) :
    Composed (s.enclosingMethod owner m) :=
  (composed_methodName _).bind fun _ => (composed_descriptor m.descriptor).map

theorem composed_localVariable (v : LocalVariable) : Composed (s.localVariable v) := by
  rw [localVariable]
  split
  · exact .pure _
  · exact (Composed.note Diagnostic.Kind.noConfusion).map

theorem composed_localVariableType (v : LocalVariable) : Composed (s.localVariableType v) := by
  rw [localVariableType]
  split
  · exact .pure _
  · exact (Composed.note Diagnostic.Kind.noConfusion).map

theorem composed_bootstrapMethod (m : BootstrapMethod) : Composed (s.bootstrapMethod m) :=
  (Composed.mapM composed_constant m.arguments).bind fun _ => (composed_constant m.method).map

theorem composed_elementName (type name : String) : Composed (s.elementName type name) := by
  apply (Composed.lookup type).bind
  intro c
  dsimp only
  split
  · exact composed_methodName _
  · exact .pure _

theorem composed_enumConstant (type name : String) : Composed (s.enumConstant type name) := by
  rw [enumConstant]
  split
  · exact composed_fieldName _
  · exact .pure _

mutual

theorem composed_elementValue (v : ElementValue) : Composed (s.elementValue v) := by
  cases v with
  | const tag value =>
    rw [elementValue]
    exact .pure _
  | enum type name =>
    rw [elementValue]
    exact (composed_enumConstant type name).bind fun _ => (composed_descriptor type).map
  | classLiteral text =>
    rw [elementValue]
    split
    · exact .pure _
    · exact (composed_descriptor text).map
  | nested type elements =>
    rw [elementValue]
    exact (composed_elementValues (objectType? type) elements).bind fun _ =>
      (composed_descriptor type).map
  | array values =>
    rw [elementValue]
    exact (composed_arrayValues values).map

theorem composed_elementValues (type : Option String) (elements : List (String × ElementValue)) :
    Composed (s.elementValues type elements) := by
  cases elements with
  | nil =>
    rw [elementValues]
    exact .pure []
  | cons element rest =>
    obtain ⟨name, value⟩ := element
    have hRest : ∀ name, Composed (do
        let value ← s.elementValue value
        return (name, value) :: (← s.elementValues type rest)) := fun _ =>
      (composed_elementValue value).bind fun _ => (composed_elementValues type rest).map
    rw [elementValues.eq_def]
    cases type with
    | none => exact hRest name
    | some type => exact (composed_elementName type name).bind hRest

theorem composed_arrayValues (values : List ElementValue) : Composed (s.arrayValues values) := by
  cases values with
  | nil =>
    rw [arrayValues]
    exact .pure []
  | cons value rest =>
    rw [arrayValues]
    exact (composed_elementValue value).bind fun _ => (composed_arrayValues rest).map

end

theorem composed_annotated (a : Annotation) : Composed (s.annotated a) :=
  (composed_elementValues (objectType? a.type) a.elements).bind fun _ =>
    (composed_descriptor a.type).map

theorem composed_plainAttribute (kind : SignatureKind) (a : PlainAttribute) :
    Composed (s.plainAttribute kind a) := by
  cases a with
  | stackMapTable frames => exact (Composed.mapM composed_stackMapFrame frames).map
  | enclosingMethod owner method =>
    exact (Composed.optionMapM (composed_enclosingMethod owner) method).map
  | signature text => exact (composed_signature kind text).map
  | localVariables locals => exact (Composed.mapM composed_localVariable locals).map
  | localVariableTypes locals => exact (Composed.mapM composed_localVariableType locals).map
  | annotations visibility as => exact (Composed.mapM composed_annotated as).map
  | parameterAnnotations visibility parameters =>
    have hEach : ∀ as : List Annotation, Composed (as.mapM s.annotated) :=
      Composed.mapM composed_annotated
    exact (Composed.mapM hEach parameters).map
  | typeAnnotations visibility as =>
    have hEach : ∀ a : TypeAnnotation, Composed (do
        return ⟨a.target, ← s.annotated a.annotation⟩ : Rewriting TypeAnnotation) := fun a =>
      (composed_annotated a.annotation).map
    exact (Composed.mapM hEach as).map
  | annotationDefault value => exact (composed_elementValue value).map
  | bootstrapMethods methods => exact (Composed.mapM composed_bootstrapMethod methods).map
  | _ => exact .pure _

mutual

theorem composed_rewriteAttribute (kind : SignatureKind) (a : Attribute) :
    Composed (s.rewriteAttribute kind a) := by
  cases a with
  | code body =>
    obtain ⟨maxStack, maxLocals, instructions, handlers, attributes⟩ := body
    rw [rewriteAttribute]
    exact (Composed.mapM composed_instruction instructions).bind fun _ =>
      (composed_rewriteAttributes .ofField attributes).map
  | record components =>
    rw [rewriteAttribute]
    exact (composed_rewriteComponents components).map
  | plain a =>
    rw [rewriteAttribute]
    exact (composed_plainAttribute kind a).map

theorem composed_rewriteAttributes (kind : SignatureKind) (as : List Attribute) :
    Composed (s.rewriteAttributes kind as) := by
  cases as with
  | nil =>
    rw [rewriteAttributes]
    exact .pure []
  | cons a rest =>
    rw [rewriteAttributes]
    exact (composed_rewriteAttribute kind a).bind fun _ =>
      (composed_rewriteAttributes kind rest).map

theorem composed_rewriteComponents (components : List (RecordComponent Attribute)) :
    Composed (s.rewriteComponents components) := by
  cases components with
  | nil =>
    rw [rewriteComponents]
    exact .pure []
  | cons component rest =>
    obtain ⟨name, descriptor, attributes⟩ := component
    rw [rewriteComponents]
    exact (composed_descriptor descriptor).bind fun _ =>
      (composed_rewriteAttributes .ofField attributes).bind fun _ =>
        (composed_rewriteComponents rest).map

end

theorem composed_field (m : Member) : Composed (s.field m) :=
  (composed_descriptor m.descriptor).bind fun _ =>
    (composed_rewriteAttributes .ofField m.attributes).map

theorem composed_method (m : Member) : Composed (s.method m) :=
  (composed_descriptor m.descriptor).bind fun _ =>
    (composed_rewriteAttributes .ofMethod m.attributes).map

theorem composed_rewriteClass (c : ClassModel) : Composed (s.rewriteClass c) :=
  (Composed.mapM (fun m => (composed_field m).orKeep m) c.fields).bind fun _ =>
    (Composed.mapM (fun m => (composed_method m).orKeep m) c.methods).bind fun _ =>
      (Composed.mapM (fun a => (composed_rewriteAttribute .ofClass a).orKeep a) c.attributes).map

end Site

/-- The failures that rewriting a class may end in. -/
def Failure.FromRewriting (e : Failure) : Prop :=
  e.FromHierarchy ∨ ∃ subject text, e = .descriptor subject text

namespace Rewriting

theorem fromHierarchy_of_ask {α : Type} {q : Exploring α} (hq : Hierarchy.Answerable q)
    {s s' : RewriteState} {e : Failure} (hRun : (ask q).run s = (.error e, s')) :
    e.FromHierarchy := by
  rcases hAsk : q.run s.hierarchy with ⟨r, h⟩
  have hEq : (ask q).run s = (r, { s with hierarchy := h }) := by
    change ask q s = _
    rw [ask, hAsk]
  rw [hEq] at hRun
  cases hRun
  exact hq s.hierarchy e h hAsk

theorem fromHierarchy_of_askDeclaration {q : Exploring (Option ClassModel)}
    (hq : Hierarchy.Answerable q) {s s' : RewriteState} {e : Failure}
    (hRun : (askDeclaration q).run s = (.error e, s')) : e.FromHierarchy := by
  change askDeclaration q s = _ at hRun
  rw [askDeclaration] at hRun
  split at hRun
  · cases hRun
  · rename_i answer h _ hAsk
    cases hRun
    exact hq s.hierarchy e h hAsk

theorem Composed.fromRewriting {α : Type} {x : Rewriting α} (hx : Composed x) :
    ∀ {s e s'}, x.run s = (.error e, s') → e.FromRewriting := by
  induction hx with
  | pure a | note hd =>
    intro s e s' hRun
    cases hRun
  | bind _ _ ih ih' =>
    intro s e s' hRun
    rcases bind_run.mp hRun with ⟨a, s₁, -, hSecond⟩ | ⟨e', hFirst, hEq⟩
    · exact ih' a hSecond
    · cases hEq
      exact ih hFirst
  | malformed subject text =>
    intro s e s' hRun
    cases hRun
    exact Or.inr ⟨subject, text, rfl⟩
  | lookup name =>
    intro s e s' hRun
    exact Or.inl (fromHierarchy_of_ask (Hierarchy.answerable_lookup name) hRun)
  | methodOwner key =>
    intro s e s' hRun
    exact Or.inl (fromHierarchy_of_askDeclaration (Hierarchy.answerable_methodOwner key) hRun)
  | fieldOwner key =>
    intro s e s' hRun
    exact Or.inl (fromHierarchy_of_askDeclaration (Hierarchy.answerable_fieldOwner key) hRun)
  | orKeep old _ ih =>
    intro s e s' hRun
    rcases tryCatch_run.mp hRun with ⟨a, -, hEq⟩ | ⟨e', s₁, hStep, hHandler⟩
    · cases hEq
    · cases e' with
      | descriptor subject text => cases hHandler
      | _ =>
        cases hHandler
        exact ih hStep

end Rewriting

theorem Renamer.fromRewriting_of_rewrite {r : Renamer} {c : ClassModel} {h h' : Hierarchy}
    {e : Failure} (hRun : (r.rewrite c).run h = (.error e, h')) : e.FromRewriting := by
  change r.rewrite c h = _ at hRun
  rw [Renamer.rewrite] at hRun
  split at hRun
  · cases hRun
    exact Or.inl trivial
  · dsimp only at hRun
    split at hRun
    · cases hRun
    · rename_i e' s' hClass
      cases hRun
      exact (Site.composed_rewriteClass c).fromRewriting hClass

end Renaming
