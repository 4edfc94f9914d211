import Renaming.Proofs.Rewrite.Mention
import Renaming.Proofs.Rewrite.Run
import Renaming.Proofs.Rewrite.Steps

/-!
# Every mention is rewritten

Rewriting walks through a class and rewrites each mention in it by the rule of its kind, in place. The
walk asks the hierarchy for declarations, which an invariant of the hierarchy has to allow.
-/

namespace Renaming

open Rewriting

/-- The invariant outlives the questions that rewriting asks. -/
structure Hierarchy.Allows (I : Hierarchy → Prop) : Prop where
  lookup : ∀ h name, I h → I ((Hierarchy.lookup name).run h).2
  methodOwner : ∀ h key, I h → I ((Hierarchy.methodOwner key).run h).2
  fieldOwner : ∀ h key, I h → I ((Hierarchy.fieldOwner key).run h).2

theorem Rewriting.Composed.yields_any {α : Type} {x : Rewriting α} {I : Hierarchy → Prop}
    {Bad : Diagnostic → Prop} (hx : Composed x) (hI : Hierarchy.Allows I) :
    Yields I Bad x fun _ => True := by
  induction hx with
  | pure a => exact yields_pure trivial
  | bind _ _ ih ih' => exact yields_bind ih fun a => (ih' a).mono fun _ _ _ => trivial
  | malformed subject text => exact yields_throw
  | note _ =>
    intro s hs r s' hRun
    cases hRun
    exact ⟨hs, List.suffix_cons _ _, fun _ _ _ => trivial⟩
  | lookup name => exact yields_ask fun h hh => ⟨hI.lookup h name hh, fun _ _ => trivial⟩
  | methodOwner key =>
    exact yields_askDeclaration fun h hh =>
      ⟨hI.methodOwner h key hh, fun _ _ => trivial, fun _ _ => trivial⟩
  | fieldOwner key =>
    exact yields_askDeclaration fun h hh =>
      ⟨hI.fieldOwner h key hh, fun _ _ => trivial, fun _ _ => trivial⟩
  | orKeep old _ ih => exact yields_orKeep (fun _ _ => Or.inr trivial) ih

/-- A diagnostic about something that was not rewritten, where local variables only count if `debug`
holds. -/
def Diagnostic.Spoils (debug : Prop) (d : Diagnostic) : Prop :=
  d.kind = .descriptor ∨ (debug ∧ d.kind = .debug)

namespace Site

variable {s : Site} {I : Hierarchy → Prop} {debug : Prop} {M : MemberRef → MemberRef → Prop}

/-- Corresponding mentions are renamed by the table of the site. -/
def Corresponds (s : Site) (debug : Prop) (M : MemberRef → MemberRef → Prop) :
    List Mention → List Mention → Prop :=
  List.Forall₂ (Mention.Renamed s.renamer.table.newClass? debug M)

theorem corresponds_append {as bs as' bs' : List Mention} (h : s.Corresponds debug M as bs)
    (h' : s.Corresponds debug M as' bs') : s.Corresponds debug M (as ++ as') (bs ++ bs') :=
  List.rel_append h h'

theorem corresponds_flatMap {α : Type} {p : α → List Mention} {as bs : List α}
    (h : List.Forall₂ (fun a b => s.Corresponds debug M (p a) (p b)) as bs) :
    s.Corresponds debug M (as.flatMap p) (bs.flatMap p) :=
  List.rel_flatMap h fun _ _ hab => hab

theorem corresponds_map_name (names : List String) :
    s.Corresponds debug M (names.map .name) ((names.map s.className).map .name) := by
  rw [Corresponds, List.forall₂_map_left_iff, List.map_map, List.forall₂_map_right_iff]
  exact List.forall₂_same.mpr fun name _ => .name name

theorem corresponds_option_name (name : Option String) :
    s.Corresponds debug M (name.toList.map .name) ((name.map s.className).toList.map .name) := by
  cases name with
  | none => exact .nil
  | some name => exact .cons (.name name) .nil

section Names

variable {Bad : Diagnostic → Prop}

theorem yields_flatMap {α : Type} {p : α → List Mention} {f : α → Rewriting α} (as : List α)
    (hf : ∀ a, Yields I Bad (f a) fun b => s.Corresponds debug M (p a) (p b)) :
    Yields I Bad (as.mapM f) fun bs => s.Corresponds debug M (as.flatMap p) (bs.flatMap p) :=
  (yields_mapM fun a _ => hf a).mono fun _ h => corresponds_flatMap h

theorem yields_classReference (text : String) : Yields I Bad (s.classReference text) fun new =>
    Descriptor.renameReference s.renamer.table.newClass? text = .ok new := by
  rw [classReference]
  split
  · rename_i new hNew
    exact yields_pure hNew
  · exact yields_throw

theorem yields_descriptor (text : String) : Yields I Bad (s.descriptor text) fun new =>
    Descriptor.rename s.renamer.table.newClass? text = .ok new := by
  rw [Site.descriptor]
  split
  · rename_i new hNew
    exact yields_pure hNew
  · exact yields_throw

theorem yields_nameAndType (v : NameAndType) : Yields I Bad (s.nameAndType v) fun v' =>
    Descriptor.rename s.renamer.table.newClass? v.descriptor = .ok v'.descriptor :=
  yields_map (yields_descriptor v.descriptor) fun _ h => h

theorem yields_memberRef {a : MemberRef} {P : String → Prop}
    (hField : a.kind = .field → Yields I Bad (s.fieldName ⟨a.owner, a.name, a.descriptor⟩) P)
    (hMethod : a.kind ≠ .field → Yields I Bad (s.methodName ⟨a.owner, a.name, a.descriptor⟩) P) :
    Yields I Bad (s.memberRef a) fun b => b.kind = a.kind ∧
      Descriptor.renameReference s.renamer.table.newClass? a.owner = .ok b.owner ∧ P b.name ∧
        Descriptor.rename s.renamer.table.newClass? a.descriptor = .ok b.descriptor := by
  obtain ⟨kind, owner, name, descriptor⟩ := a
  have hRest : ∀ new, Yields I Bad
      (do return ⟨kind, ← s.classReference owner, new, ← s.descriptor descriptor⟩) fun b : MemberRef =>
        P new → b.kind = kind ∧
          Descriptor.renameReference s.renamer.table.newClass? owner = .ok b.owner ∧ P b.name ∧
            Descriptor.rename s.renamer.table.newClass? descriptor = .ok b.descriptor := by
    intro new
    refine yields_bind (yields_classReference owner) fun owner' => ?_
    exact yields_map (yields_descriptor descriptor) fun _ hDescriptor hOwner hName =>
      ⟨rfl, hOwner, hName, hDescriptor⟩
  cases kind with
  | field => exact yields_bind (hField rfl) hRest
  | method => exact yields_bind (hMethod MemberKind.noConfusion) hRest
  | interfaceMethod => exact yields_bind (hMethod MemberKind.noConfusion) hRest

theorem yields_callSite (hI : Hierarchy.Allows I) (bootstrap : UInt16) (v : NameAndType) :
    Yields I Bad (s.callSite bootstrap v) fun v' =>
      Descriptor.rename s.renamer.table.newClass? v.descriptor = .ok v'.descriptor := by
  have hDescriptor : ∀ name, Yields I Bad
      (do return ⟨name, ← s.descriptor v.descriptor⟩) fun v' : NameAndType =>
        Descriptor.rename s.renamer.table.newClass? v.descriptor = .ok v'.descriptor :=
    fun name => yields_map (yields_descriptor v.descriptor) fun _ h => h
  rw [callSite]
  split
  · refine yields_bind ((composed_methodName _).yields_any hI) fun name => ?_
    exact (hDescriptor name).mono fun _ h _ => h
  · exact hDescriptor v.name

theorem yields_enclosingMethod (hI : Hierarchy.Allows I) (owner : String) (m : NameAndType) :
    Yields I Bad (s.enclosingMethod owner m) fun m' =>
      Descriptor.rename s.renamer.table.newClass? m.descriptor = .ok m'.descriptor := by
  refine yields_bind ((composed_methodName _).yields_any hI) fun name => ?_
  exact yields_map (yields_descriptor m.descriptor) fun _ h _ => h

mutual

theorem yields_elementValue (hI : Hierarchy.Allows I) (v : ElementValue) :
    Yields I Bad (s.elementValue v) fun v' =>
      s.Corresponds debug M v.mentions v'.mentions := by
  cases v with
  | const tag value =>
    rw [elementValue]
    exact yields_pure .nil
  | enum type name =>
    rw [elementValue]
    refine yields_bind ((composed_enumConstant type name).yields_any hI) fun name => ?_
    exact yields_map (yields_descriptor type) fun _ h _ => .cons (.descriptor h) .nil
  | classLiteral text =>
    rw [elementValue]
    split
    · rename_i hVoid
      rw [hVoid]
      exact yields_pure (.cons .nothing .nil)
    · exact yields_map (yields_descriptor text) fun _ h => .cons (.literal h) .nil
  | nested type elements =>
    rw [elementValue]
    refine yields_bind (yields_elementValues hI (objectType? type) elements) fun elements' => ?_
    exact yields_map (yields_descriptor type) fun _ h hs => .cons (.descriptor h) hs
  | array values =>
    rw [elementValue]
    exact yields_map (yields_arrayValues hI values) fun _ h => h

theorem yields_elementValues (hI : Hierarchy.Allows I) (type : Option String)
    (elements : List (String × ElementValue)) :
    Yields I Bad (s.elementValues type elements) fun elements' =>
      s.Corresponds debug M (ElementValue.elementMentions elements)
        (ElementValue.elementMentions elements') := by
  cases elements with
  | nil =>
    rw [elementValues]
    exact yields_pure .nil
  | cons element rest =>
    obtain ⟨name, value⟩ := element
    have hRest : ∀ name, Yields I Bad (do
        let value ← s.elementValue value
        return (name, value) :: (← s.elementValues type rest)) fun elements' =>
          s.Corresponds debug M (ElementValue.elementMentions ((name, value) :: rest))
            (ElementValue.elementMentions elements') := by
      intro name
      refine yields_bind (yields_elementValue hI value) fun value' => ?_
      exact yields_map (yields_elementValues hI type rest) fun _ hs h => corresponds_append h hs
    rw [elementValues.eq_def]
    cases type with
    | none => exact hRest name
    | some type =>
      refine yields_bind ((composed_elementName type name).yields_any hI) fun name => ?_
      exact (hRest name).mono fun _ h _ => h

theorem yields_arrayValues (hI : Hierarchy.Allows I) (values : List ElementValue) :
    Yields I Bad (s.arrayValues values) fun values' =>
      s.Corresponds debug M (ElementValue.listMentions values)
        (ElementValue.listMentions values') := by
  cases values with
  | nil =>
    rw [arrayValues]
    exact yields_pure .nil
  | cons value rest =>
    rw [arrayValues]
    refine yields_bind (yields_elementValue hI value) fun value' => ?_
    exact yields_map (yields_arrayValues hI rest) fun _ hs h => corresponds_append h hs

end

theorem yields_annotated (hI : Hierarchy.Allows I) (a : Annotation) :
    Yields I Bad (s.annotated a) fun a' =>
      s.Corresponds debug M a.mentions a'.mentions := by
  have hElements : Yields I Bad (s.elementValues (objectType? a.type) a.elements) fun elements' =>
      s.Corresponds debug M (ElementValue.elementMentions a.elements)
        (ElementValue.elementMentions elements') := yields_elementValues hI _ _
  refine yields_bind hElements fun elements' => ?_
  exact yields_map (yields_descriptor a.type) fun _ h hs => .cons (.descriptor h) hs

theorem yields_verificationType (t : VerificationType) :
    Yields I Bad (s.verificationType t) fun t' => s.Corresponds debug M t.mentions t'.mentions := by
  cases t with
  | object name => exact yields_map (yields_classReference name) fun _ h => .cons (.reference h) .nil
  | _ => exact yields_pure .nil

theorem yields_stackMapFrame (frame : StackMapFrame) :
    Yields I Bad (s.stackMapFrame frame) fun frame' =>
      s.Corresponds debug M frame.mentions frame'.mentions := by
  cases frame with
  | sameOne tag stack => exact yields_map (yields_verificationType stack) fun _ h => h
  | sameOneExtended delta stack => exact yields_map (yields_verificationType stack) fun _ h => h
  | append tag delta types => exact yields_map (yields_flatMap types yields_verificationType) fun _ h => h
  | full delta types stack =>
    refine yields_bind (P := fun types' => s.Corresponds debug M
      (types.flatMap VerificationType.mentions) (types'.flatMap VerificationType.mentions))
      (yields_flatMap types yields_verificationType) fun types' => ?_
    exact yields_map (yields_flatMap stack yields_verificationType) fun _ hs h =>
      corresponds_append h hs
  | _ => exact yields_pure .nil

theorem corresponds_innerClass (c : InnerClass) :
    s.Corresponds debug M c.mentions (s.innerClass c).mentions :=
  .cons (.name c.inner) (corresponds_option_name c.outer)

theorem corresponds_exceptionHandler (h : ExceptionHandler) :
    s.Corresponds debug M h.mentions (s.exceptionHandler h).mentions :=
  corresponds_option_name h.caught

theorem corresponds_moduleInfo (m : ModuleInfo) :
    s.Corresponds debug M m.mentions (s.moduleInfo m).mentions := by
  refine corresponds_append (corresponds_map_name m.uses) (corresponds_flatMap ?_)
  rw [moduleInfo, List.forall₂_map_right_iff]
  exact List.forall₂_same.mpr fun p _ => .cons (.name p.service)
    (corresponds_map_name p.implementations)

theorem corresponds_map {α : Type} {p : α → List Mention} {f : α → α}
    (h : ∀ a, s.Corresponds debug M (p a) (p (f a))) (as : List α) :
    s.Corresponds debug M (as.flatMap p) ((as.map f).flatMap p) := by
  refine corresponds_flatMap ?_
  rw [List.forall₂_map_right_iff]
  exact List.forall₂_same.mpr fun a _ => h a

end Names

theorem yields_signature (kind : SignatureKind) (text : String) :
    Yields I (Diagnostic.Spoils debug) (s.signature kind text) fun new =>
      kind.rename s.renamer.table.newClass? text = .ok new := by
  rw [signature]
  split
  · rename_i new hNew
    exact yields_pure hNew
  · exact yields_note_bind (Or.inl (Or.inl rfl))

theorem yields_localVariable (v : LocalVariable) :
    Yields I (Diagnostic.Spoils debug) (s.localVariable v) fun v' =>
      debug → Descriptor.renameField s.renamer.table.newClass? v.descriptor = .ok v'.descriptor := by
  rw [localVariable]
  split
  · rename_i new hNew
    exact yields_pure fun _ => hNew
  · by_cases hDebug : debug
    · exact yields_note_bind (Or.inl (Or.inr ⟨hDebug, rfl⟩))
    · exact yields_note_bind (Or.inr fun h => absurd h hDebug)

theorem yields_localVariableType (v : LocalVariable) :
    Yields I (Diagnostic.Spoils debug) (s.localVariableType v) fun v' =>
      debug → SignatureKind.ofField.rename s.renamer.table.newClass? v.descriptor =
        .ok v'.descriptor := by
  rw [localVariableType]
  split
  · rename_i new hNew
    exact yields_pure fun _ => hNew
  · by_cases hDebug : debug
    · exact yields_note_bind (Or.inl (Or.inr ⟨hDebug, rfl⟩))
    · exact yields_note_bind (Or.inr fun h => absurd h hDebug)

section Walk

variable (hI : Hierarchy.Allows I)
  (hM : ∀ r, Yields I (Diagnostic.Spoils debug) (s.memberRef r) (M r))

include hM

theorem yields_constant (c : Constant) : Yields I (Diagnostic.Spoils debug) (s.constant c) fun c' =>
    s.Corresponds debug M c.mentions c'.mentions := by
  cases c with
  | classRef name => exact yields_map (yields_classReference name) fun _ h => .cons (.reference h) .nil
  | member r => exact yields_map (hM r) fun _ h => .cons (.member h) .nil
  | nameAndType v => exact yields_map (yields_nameAndType v) fun _ h => .cons (.descriptor h) .nil
  | methodHandle kind r => exact yields_map (hM r) fun _ h => .cons (.member h) .nil
  | methodType text => exact yields_map (yields_descriptor text) fun _ h => .cons (.descriptor h) .nil
  | dynamic bootstrap v =>
    exact yields_map (yields_nameAndType v) fun _ h => .cons (.descriptor h) .nil
  | invokeDynamic bootstrap v =>
    exact yields_map (yields_nameAndType v) fun _ h => .cons (.descriptor h) .nil
  | _ => exact yields_pure .nil

theorem yields_bootstrapMethod (m : BootstrapMethod) :
    Yields I (Diagnostic.Spoils debug) (s.bootstrapMethod m) fun m' =>
      s.Corresponds debug M m.mentions m'.mentions := by
  refine yields_bind (yields_mapM fun c _ => yields_constant hM c) fun arguments => ?_
  exact yields_map (yields_constant hM m.method) fun _ h hs =>
    corresponds_append h (corresponds_flatMap hs)

include hI

theorem yields_operand (o : Operand) : Yields I (Diagnostic.Spoils debug) (s.operand o) fun o' =>
    s.Corresponds debug M o.mentions o'.mentions := by
  cases o with
  | constant c => exact yields_map (yields_constant hM c) fun _ h => h
  | member r => exact yields_map (hM r) fun _ h => .cons (.member h) .nil
  | invokeInterface r count => exact yields_map (hM r) fun _ h => .cons (.member h) .nil
  | invokeDynamic bootstrap v =>
    exact yields_map (yields_callSite hI bootstrap v) fun _ h => .cons (.descriptor h) .nil
  | classRef name => exact yields_map (yields_classReference name) fun _ h => .cons (.reference h) .nil
  | multiArray name dimensions =>
    exact yields_map (yields_classReference name) fun _ h => .cons (.reference h) .nil
  | _ => exact yields_pure .nil

theorem yields_instruction (i : Instruction) :
    Yields I (Diagnostic.Spoils debug) (s.instruction i) fun i' =>
      s.Corresponds debug M i.mentions i'.mentions :=
  yields_map (yields_operand hI hM i.operand) fun _ h => h

theorem yields_plainAttribute (kind : SignatureKind) (a : PlainAttribute) :
    Yields I (Diagnostic.Spoils debug) (s.plainAttribute kind a) fun a' =>
      s.Corresponds debug M (a.mentions kind) (a'.mentions kind) := by
  cases a with
  | stackMapTable frames =>
    exact yields_map (yields_flatMap frames yields_stackMapFrame) fun _ h => h
  | exceptions classes => exact yields_pure (corresponds_map_name classes)
  | innerClasses entries => exact yields_pure (corresponds_map corresponds_innerClass entries)
  | enclosingMethod owner method =>
    refine yields_map (yields_optionMapM method (yields_enclosingMethod hI owner)) fun m' h => ?_
    cases h with
    | none => exact .cons (.name owner) .nil
    | some h => exact .cons (.name owner) (.cons (.descriptor h) .nil)
  | signature text => exact yields_map (yields_signature kind text) fun _ h => .cons (.signature h) .nil
  | localVariables locals =>
    refine yields_map (yields_mapM fun v _ => yields_localVariable v) fun locals' h => ?_
    exact List.rel_map (fun _ _ hv => .localType hv) h
  | localVariableTypes locals =>
    refine yields_map (yields_mapM fun v _ => yields_localVariableType v) fun locals' h => ?_
    exact List.rel_map (fun _ _ hv => .localSignature hv) h
  | annotations visibility as =>
    exact yields_map (yields_flatMap as (yields_annotated hI)) fun _ h => h
  | parameterAnnotations visibility parameters =>
    refine yields_map (yields_flatMap parameters fun as => ?_) fun _ h => h
    exact yields_flatMap as (yields_annotated hI)
  | typeAnnotations visibility as =>
    refine yields_map (yields_flatMap as fun a => ?_) fun _ h => h
    exact yields_map (yields_annotated hI a.annotation) fun _ h => h
  | annotationDefault value => exact yields_map (yields_elementValue hI value) fun _ h => h
  | bootstrapMethods methods =>
    exact yields_map (yields_flatMap methods (yields_bootstrapMethod hM)) fun _ h => h
  | nestHost name => exact yields_pure (.cons (.name name) .nil)
  | nestMembers classes => exact yields_pure (corresponds_map_name classes)
  | permittedSubclasses classes => exact yields_pure (corresponds_map_name classes)
  | moduleInfo info => exact yields_pure (corresponds_moduleInfo info)
  | moduleMainClass name => exact yields_pure (.cons (.name name) .nil)
  | _ => exact yields_pure .nil

end Walk

mutual

theorem yields_rewriteAttribute (hI : Hierarchy.Allows I)
    (hM : ∀ r, Yields I (Diagnostic.Spoils debug) (s.memberRef r) (M r)) (kind : SignatureKind)
    (a : Attribute) :
    Yields I (Diagnostic.Spoils debug) (s.rewriteAttribute kind a) fun a' =>
      s.Corresponds debug M (a.mentions kind) (a'.mentions kind) := by
  cases a with
  | code body =>
    obtain ⟨maxStack, maxLocals, instructions, handlers, attributes⟩ := body
    rw [rewriteAttribute]
    refine yields_bind (yields_flatMap instructions (yields_instruction hI hM)) fun instructions' => ?_
    refine yields_map (yields_rewriteAttributes hI hM .ofField attributes) fun attributes' h h' => ?_
    exact corresponds_append (corresponds_append h'
      (corresponds_map corresponds_exceptionHandler handlers)) h
  | record components =>
    rw [rewriteAttribute]
    exact yields_map (yields_rewriteComponents hI hM components) fun _ h => h
  | plain a =>
    rw [rewriteAttribute]
    exact yields_map (yields_plainAttribute hI hM kind a) fun _ h => h

theorem yields_rewriteAttributes (hI : Hierarchy.Allows I)
    (hM : ∀ r, Yields I (Diagnostic.Spoils debug) (s.memberRef r) (M r)) (kind : SignatureKind)
    (as : List Attribute) :
    Yields I (Diagnostic.Spoils debug) (s.rewriteAttributes kind as) fun as' =>
      s.Corresponds debug M (Attribute.listMentions kind as) (Attribute.listMentions kind as') := by
  cases as with
  | nil =>
    rw [rewriteAttributes]
    exact yields_pure .nil
  | cons a rest =>
    rw [rewriteAttributes]
    refine yields_bind (yields_rewriteAttribute hI hM kind a) fun a' => ?_
    exact yields_map (yields_rewriteAttributes hI hM kind rest) fun _ hs h => corresponds_append h hs

theorem yields_rewriteComponents (hI : Hierarchy.Allows I)
    (hM : ∀ r, Yields I (Diagnostic.Spoils debug) (s.memberRef r) (M r))
    (components : List (RecordComponent Attribute)) :
    Yields I (Diagnostic.Spoils debug) (s.rewriteComponents components) fun components' =>
      s.Corresponds debug M (Attribute.componentMentions components)
        (Attribute.componentMentions components') := by
  cases components with
  | nil =>
    rw [rewriteComponents]
    exact yields_pure .nil
  | cons component rest =>
    obtain ⟨name, descriptor, attributes⟩ := component
    rw [rewriteComponents]
    refine yields_bind (yields_descriptor descriptor) fun descriptor' => ?_
    refine yields_bind (yields_rewriteAttributes hI hM .ofField attributes) fun attributes' => ?_
    refine yields_map (yields_rewriteComponents hI hM rest) fun _ hs h hd => ?_
    exact corresponds_append (.cons (.descriptor hd) h) hs

end

/-- `m'` is the member `m` renamed to `name`, with its descriptor and attributes rewritten. -/
structure MemberRewritten (s : Site) (debug : Prop) (M : MemberRef → MemberRef → Prop)
    (kind : SignatureKind) (name : String) (m m' : Member) : Prop where
  access : m'.access = m.access
  name : m'.name = name
  descriptor : Descriptor.rename s.renamer.table.newClass? m.descriptor = .ok m'.descriptor
  mentions : s.Corresponds debug M (m.mentions kind) (m'.mentions kind)

/-- `c'` is the class `c` rewritten. -/
structure ClassRewritten (s : Site) (debug : Prop) (M : MemberRef → MemberRef → Prop)
    (c c' : ClassModel) : Prop where
  access : c'.access = c.access
  name : c'.name = s.className c.name
  superName : c'.superName = c.superName.map s.className
  interfaces : c'.interfaces = c.interfaces.map s.className
  fields : List.Forall₂ (fun m m' => MemberRewritten s debug M .ofField
    ((s.renamer.newField? ⟨s.owner, m.name, m.descriptor⟩).getD m.name) m m') c.fields c'.fields
  methods : List.Forall₂ (fun m m' => MemberRewritten s debug M .ofMethod
    ((s.renamer.newMethod? ⟨s.owner, m.name, m.descriptor⟩).getD m.name) m m') c.methods c'.methods
  attributes : s.Corresponds debug M (c.attributes.flatMap (Attribute.mentions .ofClass))
    (c'.attributes.flatMap (Attribute.mentions .ofClass))

theorem ClassRewritten.mentions {c c' : ClassModel} (h : ClassRewritten s debug M c c') :
    s.Corresponds debug M c.mentions c'.mentions := by
  rw [ClassModel.mentions, ClassModel.mentions, h.name, h.superName, h.interfaces]
  refine corresponds_append (corresponds_append (corresponds_append (corresponds_append ?_ ?_)
    (corresponds_flatMap ?_)) (corresponds_flatMap ?_)) h.attributes
  · exact .cons (.name c.name) (corresponds_option_name c.superName)
  · exact corresponds_map_name c.interfaces
  · exact h.fields.imp fun _ _ hm => hm.mentions
  · exact h.methods.imp fun _ _ hm => hm.mentions

section Class

variable (hI : Hierarchy.Allows I)
  (hM : ∀ subject r, Yields I (Diagnostic.Spoils debug)
    (Site.memberRef { s with subject := subject } r) (M r))

include hI hM

theorem yields_field (m : Member) :
    Yields I (Diagnostic.Spoils debug) (orKeep m ((s.atMember .field m).field m))
      (MemberRewritten s debug M .ofField
        ((s.renamer.newField? ⟨s.owner, m.name, m.descriptor⟩).getD m.name) m) := by
  refine yields_orKeep (fun _ _ => Or.inl (Or.inl rfl)) (yields_bind (yields_descriptor m.descriptor)
    fun descriptor => ?_)
  refine yields_map (yields_rewriteAttributes hI (hM _) .ofField m.attributes) fun _ hs h => ?_
  exact ⟨rfl, rfl, h, .cons (.descriptor h) hs⟩

theorem yields_method (m : Member) :
    Yields I (Diagnostic.Spoils debug) (orKeep m ((s.atMember .method m).method m))
      (MemberRewritten s debug M .ofMethod
        ((s.renamer.newMethod? ⟨s.owner, m.name, m.descriptor⟩).getD m.name) m) := by
  refine yields_orKeep (fun _ _ => Or.inl (Or.inl rfl)) (yields_bind (yields_descriptor m.descriptor)
    fun descriptor => ?_)
  refine yields_map (yields_rewriteAttributes hI (hM _) .ofMethod m.attributes) fun _ hs h => ?_
  exact ⟨rfl, rfl, h, .cons (.descriptor h) hs⟩

theorem yields_rewriteClass (c : ClassModel) :
    Yields I (Diagnostic.Spoils debug) (s.rewriteClass c) (ClassRewritten s debug M c) := by
  refine yields_bind (yields_mapM fun m _ => yields_field hI hM m) fun fields => ?_
  refine yields_bind (yields_mapM fun m _ => yields_method hI hM m) fun methods => ?_
  refine yields_map (yields_flatMap c.attributes fun a =>
    yields_orKeep (fun _ _ => Or.inl (Or.inl rfl))
      (yields_rewriteAttribute hI (hM s.subject) .ofClass a)) fun attributes hAttributes hMethods
        hFields => ?_
  exact ⟨rfl, rfl, rfl, rfl, hFields, hMethods, hAttributes⟩

end Class

end Site

/-- A class that is rewritten without anything being kept has all of its mentions rewritten. -/
theorem Renamer.rewrite_spec {r : Renamer} {c : ClassModel} {I : Hierarchy → Prop} {debug : Prop}
    {M : MemberRef → MemberRef → Prop} (hI : Hierarchy.Allows I)
    (hM : ∀ subject m, Yields I (Diagnostic.Spoils debug)
      (Site.memberRef { r.siteOf c with subject := subject } m) (M m))
    {h h' : Hierarchy} {w : Rewritten} (hh : I h) (hRun : (r.rewrite c).run h = (.ok w, h')) :
    I h' ∧ ((∀ d ∈ w.diagnostics, ¬ d.Spoils debug) →
      (r.siteOf c).ClassRewritten debug M c w.model) := by
  obtain ⟨-, notes, hClass, hNotes⟩ := rewrite_eq_ok.mp hRun
  obtain ⟨hh', -, hResult⟩ := Site.yields_rewriteClass hI hM c _ hh _ _ hClass
  refine ⟨hh', fun hClean => hResult w.model rfl fun d hd => hClean d ?_⟩
  rw [hNotes]
  exact List.mem_reverse.mpr hd

end Renaming
