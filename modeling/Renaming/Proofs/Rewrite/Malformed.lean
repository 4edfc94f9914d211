import Renaming.Proofs.Descriptor
import Renaming.Proofs.Rewrite.Mention
import Renaming.Proofs.Rewrite.Steps

/-!
# Malformed descriptors

Rewriting a member or an attribute reads every descriptor and every array type that is mentioned in it,
and fails exactly if one of these is malformed. The failure then names one that is, together with the
member or class that is being rewritten.
-/

namespace Renaming

open Effectful

namespace Descriptor

/-- The text is the descriptor of a field or of a method. -/
def IsValid (text : String) : Prop :=
  (∃ t : FieldType, t.WellFormed ∧ text = t.text) ∨
    ∃ d : MethodDescriptor, d.WellFormed ∧ text = d.text

/-- The text is the name of a class or the descriptor of an array. -/
def IsValidReference (text : String) : Prop :=
  Text.startsWith '[' text = true → ∃ t : FieldType, t.WellFormed ∧ text = t.text

variable {f : ClassRenaming} {text : String}

theorem exists_renameField_iff : (∃ new, renameField f text = .ok new) ↔
    ∃ t : FieldType, t.WellFormed ∧ text = t.text := by
  simp only [renameField_eq_ok, FieldType.parse_eq_ok]
  constructor
  · rintro ⟨-, t, ht, -⟩
    exact ⟨t, ht⟩
  · rintro ⟨t, ht⟩
    exact ⟨_, t, ht, rfl⟩

theorem exists_renameMethod_iff : (∃ new, renameMethod f text = .ok new) ↔
    ∃ d : MethodDescriptor, d.WellFormed ∧ text = d.text := by
  simp only [renameMethod_eq_ok, MethodDescriptor.parse_eq_ok]
  constructor
  · rintro ⟨-, d, hd, -⟩
    exact ⟨d, hd⟩
  · rintro ⟨d, hd⟩
    exact ⟨_, d, hd, rfl⟩

theorem exists_rename_iff : (∃ new, rename f text = .ok new) ↔ IsValid text := by
  rw [rename, IsValid]
  cases hStart : Text.startsWith '(' text with
  | true =>
    rw [if_pos rfl, exists_renameMethod_iff]
    refine ⟨Or.inr, fun h => h.resolve_left ?_⟩
    rintro ⟨t, -, rfl⟩
    rw [startsWith_paren_field] at hStart
    cases hStart
  | false =>
    rw [if_neg Bool.false_ne_true, exists_renameField_iff]
    refine ⟨Or.inl, fun h => h.resolve_right ?_⟩
    rintro ⟨d, -, rfl⟩
    rw [startsWith_paren_method] at hStart
    cases hStart

theorem exists_renameReference_iff : (∃ new, renameReference f text = .ok new) ↔
    IsValidReference text := by
  rw [renameReference, IsValidReference]
  cases Text.startsWith '[' text with
  | true =>
    rw [if_pos rfl, exists_renameField_iff]
    exact ⟨fun h _ => h, fun h => h rfl⟩
  | false =>
    rw [if_neg Bool.false_ne_true]
    exact ⟨fun _ h => absurd h Bool.false_ne_true, fun _ => ⟨_, rfl⟩⟩

theorem isValidReference_of_renameReference {new : String} (h : renameReference f text = .ok new) :
    IsValidReference text :=
  exists_renameReference_iff.mp ⟨new, h⟩

theorem not_isValidReference_of_renameReference {e : InvalidDescriptor}
    (h : renameReference f text = .error e) : ¬ IsValidReference text := by
  intro hValid
  obtain ⟨new, hNew⟩ := (exists_renameReference_iff (f := f)).mpr hValid
  rw [h] at hNew
  cases hNew

theorem isValid_of_rename {new : String} (h : rename f text = .ok new) : IsValid text :=
  exists_rename_iff.mp ⟨new, h⟩

theorem not_isValid_of_rename {e : InvalidDescriptor} (h : rename f text = .error e) :
    ¬ IsValid text := by
  intro hValid
  obtain ⟨new, hNew⟩ := (exists_rename_iff (f := f)).mpr hValid
  rw [h] at hNew
  cases hNew

end Descriptor

/-- The text is a descriptor or an array type of the mention, and malformed. Signatures and the types of
local variables are not counted. -/
inductive Mention.Breaks : Mention → String → Prop
  | reference {text : String} (h : ¬ Descriptor.IsValidReference text) : Breaks (.reference text) text
  | descriptor {text : String} (h : ¬ Descriptor.IsValid text) : Breaks (.descriptor text) text
  | literal {text : String} (hType : text ≠ "V") (h : ¬ Descriptor.IsValid text) :
    Breaks (.literal text) text
  | owner {r : MemberRef} (h : ¬ Descriptor.IsValidReference r.owner) : Breaks (.member r) r.owner
  | type {r : MemberRef} (h : ¬ Descriptor.IsValid r.descriptor) : Breaks (.member r) r.descriptor

/-- The text is malformed, and one of the mentions has it. -/
def Mention.Malformed (ms : List Mention) (text : String) : Prop := ∃ m ∈ ms, m.Breaks text

/-- Something was kept because of a descriptor. -/
def Diagnostic.ReportsKept (d : Diagnostic) : Prop := ∃ member text, d = .memberKept member text

namespace Mention

variable {text t : String} {m : Mention} {ms ms' : List Mention}

@[simp] theorem breaks_reference :
    (reference text).Breaks t ↔ t = text ∧ ¬ Descriptor.IsValidReference text := by
  constructor
  · intro h
    cases h with
    | reference h => exact ⟨rfl, h⟩
  · rintro ⟨rfl, h⟩
    exact .reference h

@[simp] theorem breaks_descriptor :
    (descriptor text).Breaks t ↔ t = text ∧ ¬ Descriptor.IsValid text := by
  constructor
  · intro h
    cases h with
    | descriptor h => exact ⟨rfl, h⟩
  · rintro ⟨rfl, h⟩
    exact .descriptor h

@[simp] theorem breaks_literal :
    (literal text).Breaks t ↔ t = text ∧ text ≠ "V" ∧ ¬ Descriptor.IsValid text := by
  constructor
  · intro h
    cases h with
    | literal hType h => exact ⟨rfl, hType, h⟩
  · rintro ⟨rfl, hType, h⟩
    exact .literal hType h

@[simp] theorem breaks_member {r : MemberRef} : (member r).Breaks t ↔
    t = r.owner ∧ ¬ Descriptor.IsValidReference r.owner ∨
      t = r.descriptor ∧ ¬ Descriptor.IsValid r.descriptor := by
  constructor
  · intro h
    cases h with
    | owner h => exact Or.inl ⟨rfl, h⟩
    | type h => exact Or.inr ⟨rfl, h⟩
  · rintro (⟨rfl, h⟩ | ⟨rfl, h⟩)
    · exact .owner h
    · exact .type h

@[simp] theorem not_breaks_name : ¬ (name text).Breaks t := nofun

@[simp] theorem not_breaks_signature {kind : SignatureKind} : ¬ (signature kind text).Breaks t := nofun

@[simp] theorem not_breaks_localType : ¬ (localType text).Breaks t := nofun

@[simp] theorem not_breaks_localSignature : ¬ (localSignature text).Breaks t := nofun

@[simp] theorem malformed_nil : ¬ Malformed [] t := by
  rintro ⟨m, hm, -⟩
  cases hm

@[simp] theorem malformed_cons : Malformed (m :: ms) t ↔ m.Breaks t ∨ Malformed ms t := by
  rw [Malformed, List.exists_mem_cons_iff]
  rfl

@[simp] theorem malformed_append : Malformed (ms ++ ms') t ↔ Malformed ms t ∨ Malformed ms' t := by
  simp only [Malformed, List.mem_append, or_and_right, exists_or]

@[simp] theorem malformed_flatMap {α : Type} {p : α → List Mention} {as : List α} :
    Malformed (as.flatMap p) t ↔ ∃ a ∈ as, Malformed (p a) t := by
  simp only [Malformed, List.mem_flatMap]
  constructor
  · rintro ⟨m, ⟨a, ha, hm⟩, hBreaks⟩
    exact ⟨a, ha, m, hm, hBreaks⟩
  · rintro ⟨a, ha, m, hm, hBreaks⟩
    exact ⟨m, ⟨a, ha, hm⟩, hBreaks⟩

@[simp] theorem malformed_map {α : Type} {p : α → Mention} {as : List α} :
    Malformed (as.map p) t ↔ ∃ a ∈ as, (p a).Breaks t := by
  simp [Malformed]

end Mention

namespace Site

variable {s : Site} {α β : Type} {B B' : String → Prop} {x : Rewriting α} {f : α → Rewriting β}

/-- The step looks for texts with `B`. If it succeeds there are none; if it fails because of a descriptor
this is one of them, and the failure is about the subject of the site. It notes nothing as kept. -/
structure Checks (s : Site) (B : String → Prop) (x : Rewriting α) : Prop where
  passes : ∀ {st a st'}, x.run st = (.ok a, st') → ∀ text, ¬ B text
  fails : ∀ {st subject text st'}, x.run st = (.error (.descriptor subject text), st') →
    subject = s.subject ∧ B text
  notes : ∀ {st r st'}, x.run st = (r, st') → ∃ notes,
    st'.newestDiagnostics = notes ++ st.newestDiagnostics ∧ ∀ d ∈ notes, ¬ d.ReportsKept

theorem Checks.congr (hx : s.Checks B x) (h : ∀ text, B' text ↔ B text) : s.Checks B' x := by
  obtain rfl : B' = B := funext fun text => propext (h text)
  exact hx

theorem checks_pure {a : α} (h : ∀ text, ¬ B text) : s.Checks B (pure a) where
  passes _ := h
  fails hRun := by cases hRun
  notes hRun := by
    cases hRun
    exact ⟨[], rfl, List.forall_mem_nil _⟩

theorem checks_throw {text : String} (h : B text) :
    s.Checks B (throw (.descriptor s.subject text) : Rewriting α) where
  passes hRun := by cases hRun
  fails hRun := by
    cases hRun
    exact ⟨rfl, h⟩
  notes hRun := by
    cases hRun
    exact ⟨[], rfl, List.forall_mem_nil _⟩

theorem checks_bind (hx : s.Checks B x) (hf : ∀ a, s.Checks B' (f a)) :
    s.Checks (fun text => B text ∨ B' text) (x >>= f) where
  passes hRun text hText := by
    rcases bind_run.mp hRun with ⟨a, s₁, hFirst, hSecond⟩ | ⟨e, -, hEq⟩
    · exact hText.elim (hx.passes hFirst text) ((hf a).passes hSecond text)
    · cases hEq
  fails hRun := by
    rcases bind_run.mp hRun with ⟨a, s₁, -, hSecond⟩ | ⟨e, hFirst, hEq⟩
    · exact ((hf a).fails hSecond).imp_right Or.inr
    · cases hEq
      exact (hx.fails hFirst).imp_right Or.inl
  notes hRun := by
    rcases bind_run.mp hRun with ⟨a, s₁, hFirst, hSecond⟩ | ⟨e, hFirst, -⟩
    · obtain ⟨notes, hNotes, hOther⟩ := hx.notes hFirst
      obtain ⟨notes', hNotes', hOther'⟩ := (hf a).notes hSecond
      refine ⟨notes' ++ notes, by rw [hNotes', hNotes, List.append_assoc], fun d hd => ?_⟩
      exact (List.mem_append.mp hd).elim (hOther' d) (hOther d)
    · exact hx.notes hFirst

theorem checks_map {g : α → β} (hx : s.Checks B x) : s.Checks B (x >>= fun a => pure (g a)) :=
  (checks_bind hx fun _ => checks_pure fun _ h => h).congr fun _ => (or_iff_left id).symm

theorem checks_mapM {f : α → Rewriting β} {B : α → String → Prop} (hf : ∀ a, s.Checks (B a) (f a))
    (as : List α) : s.Checks (fun text => ∃ a ∈ as, B a text) (as.mapM f) := by
  induction as with
  | nil =>
    rw [List.mapM_nil]
    exact checks_pure (by simp)
  | cons a as ih =>
    rw [List.mapM_cons]
    exact (checks_bind (hf a) fun b => checks_map ih).congr fun text => List.exists_mem_cons_iff ..

theorem checks_optionMapM {f : α → Rewriting β} {B : α → String → Prop}
    (hf : ∀ a, s.Checks (B a) (f a)) (o : Option α) :
    s.Checks (fun text => ∃ a ∈ o, B a text) (o.mapM f) := by
  cases o with
  | none => exact checks_pure (by simp)
  | some a =>
    change s.Checks _ (some <$> f a)
    rw [map_eq_pure_bind]
    exact (checks_map (hf a)).congr fun text => by simp

def Blind (s : Site) (x : Rewriting α) : Prop := s.Checks (fun _ => False) x

theorem blind_pure {a : α} : s.Blind (pure a) := checks_pure fun _ => id

theorem blind_bind (hx : s.Blind x) (hf : ∀ a, s.Checks B (f a)) : s.Checks B (x >>= f) :=
  (checks_bind hx hf).congr fun _ => (or_iff_right id).symm

theorem blind_note {d : Diagnostic} (hd : ∀ member text, d ≠ .memberKept member text) :
    s.Blind (Rewriting.note d) where
  passes _ _ := id
  fails hRun := by cases hRun
  notes hRun := by
    cases hRun
    refine ⟨[d], rfl, fun d' hd' => ?_⟩
    rw [List.mem_singleton.mp hd']
    rintro ⟨member, text, hKept⟩
    exact hd member text hKept

theorem blind_ask {q : Exploring α} (hq : Hierarchy.Answerable q) : s.Blind (Rewriting.ask q) where
  passes _ _ := id
  fails hRun := (Rewriting.fromHierarchy_of_ask hq hRun).elim
  notes hRun := by
    cases hRun
    exact ⟨[], rfl, List.forall_mem_nil _⟩

theorem blind_askDeclaration {q : Exploring (Option ClassModel)} (hq : Hierarchy.Answerable q) :
    s.Blind (Rewriting.askDeclaration q) where
  passes _ _ := id
  fails hRun := (Rewriting.fromHierarchy_of_askDeclaration hq hRun).elim
  notes {st r st'} hRun := by
    refine ⟨[], ?_, List.forall_mem_nil _⟩
    change Rewriting.askDeclaration q st = _ at hRun
    rw [Rewriting.askDeclaration] at hRun
    split at hRun <;> cases hRun <;> rfl

open Mention (Malformed)

theorem checks_classReference (text : String) :
    s.Checks (Malformed [.reference text]) (s.classReference text) := by
  rw [classReference]
  split
  · rename_i new hNew
    have hValid := Descriptor.isValidReference_of_renameReference hNew
    exact checks_pure (by simp [hValid])
  · rename_i e hFails
    have hInvalid := Descriptor.not_isValidReference_of_renameReference hFails
    exact checks_throw (by simp [hInvalid])

theorem checks_descriptor (text : String) :
    s.Checks (Malformed [.descriptor text]) (s.descriptor text) := by
  rw [Site.descriptor]
  split
  · rename_i new hNew
    have hValid := Descriptor.isValid_of_rename hNew
    exact checks_pure (by simp [hValid])
  · rename_i e hFails
    have hInvalid := Descriptor.not_isValid_of_rename hFails
    exact checks_throw (by simp [hInvalid])

theorem blind_signature (kind : SignatureKind) (text : String) : s.Blind (s.signature kind text) := by
  rw [signature]
  cases kind.rename s.renamer.table.newClass? text with
  | ok new => exact blind_pure
  | error e => exact blind_bind (blind_note fun _ _ => Diagnostic.noConfusion) fun _ => blind_pure

theorem blind_undeclared (kind : MemberKind) (key : MemberKey) (new : Option String) :
    s.Blind (s.undeclared kind key new) := by
  cases new with
  | none => exact blind_pure
  | some new => exact blind_bind (blind_note fun _ _ => Diagnostic.noConfusion) fun _ => blind_pure

theorem blind_methodName (key : MemberKey) : s.Blind (s.methodName key) := by
  rw [methodName]
  split
  · exact blind_pure
  · refine blind_bind (blind_askDeclaration (Hierarchy.answerable_methodOwner key)) fun owner => ?_
    split
    · exact blind_pure
    · exact blind_undeclared _ _ _

theorem blind_fieldName (key : MemberKey) : s.Blind (s.fieldName key) := by
  rw [fieldName]
  split
  · exact blind_pure
  · refine blind_bind (blind_askDeclaration (Hierarchy.answerable_fieldOwner key)) fun owner => ?_
    split
    · exact blind_pure
    · exact blind_undeclared _ _ _

theorem checks_memberRef (r : MemberRef) :
    s.Checks (Malformed [.member r]) (s.memberRef r) := by
  have hRest (name : String) : s.Checks (Malformed [.member r]) (do
      return ⟨r.kind, ← s.classReference r.owner, name, ← s.descriptor r.descriptor⟩ :
        Rewriting MemberRef) :=
    (checks_bind (checks_classReference r.owner) fun _ =>
      checks_map (checks_descriptor r.descriptor)).congr (by simp)
  rw [memberRef]
  dsimp only
  split
  · exact blind_bind (blind_fieldName _) hRest
  · exact blind_bind (blind_methodName _) hRest
  · exact blind_bind (blind_methodName _) hRest

theorem checks_nameAndType (v : NameAndType) :
    s.Checks (Malformed [.descriptor v.descriptor]) (s.nameAndType v) :=
  checks_map (checks_descriptor v.descriptor)

theorem checks_constant (c : Constant) : s.Checks (Malformed c.mentions) (s.constant c) := by
  cases c with
  | classRef name => exact checks_map (checks_classReference name)
  | member r => exact checks_map (checks_memberRef r)
  | nameAndType v => exact checks_map (checks_nameAndType v)
  | methodHandle kind r => exact checks_map (checks_memberRef r)
  | methodType text => exact checks_map (checks_descriptor text)
  | dynamic bootstrap v => exact checks_map (checks_nameAndType v)
  | invokeDynamic bootstrap v => exact checks_map (checks_nameAndType v)
  | _ => exact checks_pure fun _ => Mention.malformed_nil

theorem checks_callSite (bootstrap : UInt16) (v : NameAndType) :
    s.Checks (Malformed [.descriptor v.descriptor]) (s.callSite bootstrap v) := by
  have hRest (name : String) : s.Checks (Malformed [.descriptor v.descriptor])
      (do return ⟨name, ← s.descriptor v.descriptor⟩ : Rewriting NameAndType) :=
    checks_map (checks_descriptor v.descriptor)
  rw [callSite]
  split
  · exact blind_bind (blind_methodName _) hRest
  · exact hRest v.name

theorem checks_operand (o : Operand) : s.Checks (Malformed o.mentions) (s.operand o) := by
  cases o with
  | constant c => exact checks_map (checks_constant c)
  | member r => exact checks_map (checks_memberRef r)
  | invokeInterface r count => exact checks_map (checks_memberRef r)
  | invokeDynamic bootstrap v => exact checks_map (checks_callSite bootstrap v)
  | classRef name => exact checks_map (checks_classReference name)
  | multiArray name dimensions => exact checks_map (checks_classReference name)
  | _ => exact checks_pure fun _ => Mention.malformed_nil

theorem checks_instruction (i : Instruction) :
    s.Checks (Malformed i.mentions) (s.instruction i) :=
  checks_map (checks_operand i.operand)

theorem checks_verificationType (t : VerificationType) :
    s.Checks (Malformed t.mentions) (s.verificationType t) := by
  cases t with
  | object name => exact checks_map (checks_classReference name)
  | _ => exact checks_pure fun _ => Mention.malformed_nil

theorem checks_stackMapFrame (frame : StackMapFrame) :
    s.Checks (Malformed frame.mentions) (s.stackMapFrame frame) := by
  have hEach (types : List VerificationType) : s.Checks
      (Malformed (types.flatMap VerificationType.mentions)) (types.mapM s.verificationType) :=
    (checks_mapM checks_verificationType types).congr (by simp)
  cases frame with
  | sameOne tag stack => exact checks_map (checks_verificationType stack)
  | sameOneExtended delta stack => exact checks_map (checks_verificationType stack)
  | append tag delta types => exact checks_map (hEach types)
  | full delta types stack =>
    exact (checks_bind (hEach types) fun _ => checks_map (hEach stack)).congr
      (by simp [StackMapFrame.mentions])
  | _ => exact checks_pure fun _ => Mention.malformed_nil

theorem blind_elementName (type name : String) : s.Blind (s.elementName type name) := by
  refine blind_bind (blind_ask (Hierarchy.answerable_lookup type)) fun c => ?_
  dsimp only
  split
  · exact blind_methodName _
  · exact blind_pure

theorem blind_enumConstant (type name : String) : s.Blind (s.enumConstant type name) := by
  rw [enumConstant]
  split
  · exact blind_fieldName _
  · exact blind_pure

mutual

theorem checks_elementValue (v : ElementValue) :
    s.Checks (Malformed v.mentions) (s.elementValue v) := by
  cases v with
  | const tag value =>
    rw [elementValue]
    exact checks_pure fun _ => Mention.malformed_nil
  | enum type name =>
    rw [elementValue]
    exact blind_bind (blind_enumConstant type name) fun _ => checks_map (checks_descriptor type)
  | classLiteral text =>
    rw [elementValue]
    split
    · rename_i hVoid
      exact checks_pure (by simp [ElementValue.mentions, hVoid])
    · rename_i hType
      exact (checks_map (checks_descriptor text)).congr (by simp [ElementValue.mentions, hType])
  | nested type elements =>
    rw [elementValue]
    exact (checks_bind (checks_elementValues (objectType? type) elements) fun _ =>
      checks_map (checks_descriptor type)).congr (by simp [ElementValue.mentions, or_comm])
  | array values =>
    rw [elementValue]
    exact checks_map (checks_arrayValues values)

theorem checks_elementValues (type : Option String) (elements : List (String × ElementValue)) :
    s.Checks (Malformed (ElementValue.elementMentions elements)) (s.elementValues type elements) := by
  cases elements with
  | nil =>
    rw [elementValues]
    exact checks_pure fun _ => Mention.malformed_nil
  | cons element rest =>
    obtain ⟨name, value⟩ := element
    have hRest (name : String) :
        s.Checks (Malformed (ElementValue.elementMentions ((name, value) :: rest))) (do
          let value ← s.elementValue value
          return (name, value) :: (← s.elementValues type rest)) :=
      (checks_bind (checks_elementValue value) fun _ =>
        checks_map (checks_elementValues type rest)).congr (by simp [ElementValue.elementMentions])
    rw [elementValues.eq_def]
    cases type with
    | none => exact hRest name
    | some type => exact blind_bind (blind_elementName type name) hRest

theorem checks_arrayValues (values : List ElementValue) :
    s.Checks (Malformed (ElementValue.listMentions values)) (s.arrayValues values) := by
  cases values with
  | nil =>
    rw [arrayValues]
    exact checks_pure fun _ => Mention.malformed_nil
  | cons value rest =>
    rw [arrayValues]
    exact (checks_bind (checks_elementValue value) fun _ =>
      checks_map (checks_arrayValues rest)).congr (by simp [ElementValue.listMentions])

end

theorem checks_annotated (a : Annotation) : s.Checks (Malformed a.mentions) (s.annotated a) :=
  (checks_bind (checks_elementValues (objectType? a.type) a.elements) fun _ =>
    checks_map (checks_descriptor a.type)).congr (by simp [or_comm, Annotation.mentions])

theorem checks_enclosingMethod (owner : String) (m : NameAndType) :
    s.Checks (Malformed [.descriptor m.descriptor]) (s.enclosingMethod owner m) :=
  blind_bind (blind_methodName _) fun _ => checks_map (checks_descriptor m.descriptor)

theorem blind_localVariable (v : LocalVariable) : s.Blind (s.localVariable v) := by
  rw [localVariable]
  cases Descriptor.renameField s.renamer.table.newClass? v.descriptor with
  | ok descriptor => exact blind_pure
  | error e => exact blind_bind (blind_note fun _ _ => Diagnostic.noConfusion) fun _ => blind_pure

theorem blind_localVariableType (v : LocalVariable) : s.Blind (s.localVariableType v) := by
  rw [localVariableType]
  cases SignatureKind.rename s.renamer.table.newClass? v.descriptor .ofField with
  | ok descriptor => exact blind_pure
  | error e => exact blind_bind (blind_note fun _ _ => Diagnostic.noConfusion) fun _ => blind_pure

theorem checks_bootstrapMethod (m : BootstrapMethod) :
    s.Checks (Malformed m.mentions) (s.bootstrapMethod m) :=
  (checks_bind (checks_mapM checks_constant m.arguments) fun _ =>
    checks_map (checks_constant m.method)).congr (by simp [BootstrapMethod.mentions, or_comm])

theorem checks_plainAttribute (kind : SignatureKind) (a : PlainAttribute) :
    s.Checks (Malformed (a.mentions kind)) (s.plainAttribute kind a) := by
  cases a with
  | stackMapTable frames =>
    exact (checks_map (checks_mapM checks_stackMapFrame frames)).congr
      (by simp [PlainAttribute.mentions])
  | enclosingMethod owner method =>
    exact (checks_map (checks_optionMapM (checks_enclosingMethod owner) method)).congr
      (by simp [PlainAttribute.mentions])
  | signature text =>
    exact (checks_map (blind_signature kind text)).congr (by simp [PlainAttribute.mentions])
  | localVariables locals =>
    exact (checks_map (checks_mapM blind_localVariable locals)).congr (by simp [PlainAttribute.mentions])
  | localVariableTypes locals =>
    exact (checks_map (checks_mapM blind_localVariableType locals)).congr
      (by simp [PlainAttribute.mentions])
  | annotations visibility as =>
    exact (checks_map (checks_mapM checks_annotated as)).congr (by simp [PlainAttribute.mentions])
  | parameterAnnotations visibility parameters =>
    have hEach (as : List Annotation) := checks_mapM checks_annotated as (s := s)
    exact (checks_map (checks_mapM hEach parameters)).congr (by simp [PlainAttribute.mentions])
  | typeAnnotations visibility as =>
    have hEach (a : TypeAnnotation) : s.Checks (Malformed a.annotation.mentions) (do
        return ⟨a.target, ← s.annotated a.annotation⟩ : Rewriting TypeAnnotation) :=
      checks_map (checks_annotated a.annotation)
    exact (checks_map (checks_mapM hEach as)).congr (by simp [PlainAttribute.mentions])
  | annotationDefault value => exact checks_map (checks_elementValue value)
  | bootstrapMethods methods =>
    exact (checks_map (checks_mapM checks_bootstrapMethod methods)).congr
      (by simp [PlainAttribute.mentions])
  | _ => exact checks_pure (by simp [PlainAttribute.mentions, InnerClass.mentions, ModuleInfo.mentions])

mutual

theorem checks_rewriteAttribute (kind : SignatureKind) (a : Attribute) :
    s.Checks (Malformed (a.mentions kind)) (s.rewriteAttribute kind a) := by
  cases a with
  | code body =>
    obtain ⟨maxStack, maxLocals, instructions, handlers, attributes⟩ := body
    rw [rewriteAttribute]
    exact (checks_bind (checks_mapM checks_instruction instructions) fun _ =>
      checks_map (checks_rewriteAttributes .ofField attributes)).congr
        (by simp [Attribute.mentions, ExceptionHandler.mentions])
  | record components =>
    rw [rewriteAttribute]
    exact checks_map (checks_rewriteComponents components)
  | plain a =>
    rw [rewriteAttribute]
    exact checks_map (checks_plainAttribute kind a)

theorem checks_rewriteAttributes (kind : SignatureKind) (as : List Attribute) :
    s.Checks (Malformed (Attribute.listMentions kind as)) (s.rewriteAttributes kind as) := by
  cases as with
  | nil =>
    rw [rewriteAttributes]
    exact checks_pure fun _ => Mention.malformed_nil
  | cons a rest =>
    rw [rewriteAttributes]
    exact (checks_bind (checks_rewriteAttribute kind a) fun _ =>
      checks_map (checks_rewriteAttributes kind rest)).congr (by simp [Attribute.listMentions])

theorem checks_rewriteComponents (components : List (RecordComponent Attribute)) :
    s.Checks (Malformed (Attribute.componentMentions components))
      (s.rewriteComponents components) := by
  cases components with
  | nil =>
    rw [rewriteComponents]
    exact checks_pure fun _ => Mention.malformed_nil
  | cons component rest =>
    obtain ⟨name, descriptor, attributes⟩ := component
    rw [rewriteComponents]
    exact (checks_bind (checks_descriptor descriptor) fun _ =>
      checks_bind (checks_rewriteAttributes .ofField attributes) fun _ =>
        checks_map (checks_rewriteComponents rest)).congr
          (by simp [Attribute.componentMentions])

end

theorem checks_field (m : Member) : s.Checks (Malformed (m.mentions .ofField)) (s.field m) :=
  (checks_bind (checks_descriptor m.descriptor) fun _ =>
    checks_map (checks_rewriteAttributes .ofField m.attributes)).congr (by simp [Member.mentions])

theorem checks_method (m : Member) : s.Checks (Malformed (m.mentions .ofMethod)) (s.method m) :=
  (checks_bind (checks_descriptor m.descriptor) fun _ =>
    checks_map (checks_rewriteAttributes .ofMethod m.attributes)).congr (by simp [Member.mentions])

end Site

end Renaming
