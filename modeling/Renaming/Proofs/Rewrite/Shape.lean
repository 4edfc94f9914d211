import Renaming.Proofs.ClassFile.Shape
import Renaming.Proofs.Descriptor
import Renaming.Proofs.Rewrite.Run

/-!
# Rewriting keeps the shape of a class

Names are replaced by names, whatever they are, and everything else stays. So operands still fit their
opcodes, and a class that came from a file is rewritten to one that could have come from a file. The
one thing to be careful about is a dynamic constant, whose descriptor says how wide it is.
-/

namespace Renaming

open Effectful

theorem FieldType.chars_rename_eq_singleton {f : ClassRenaming} {t : FieldType} {c : Char} :
    (t.rename f).chars = [c] ↔ t.chars = [c] := by
  cases t with
  | base p => rfl
  | object name => simp [rename, chars]
  | array element => simp [rename, chars, chars_ne_nil]

/-- A descriptor of one letter is the only one that is renamed to it. -/
theorem Descriptor.rename_eq_letter {f : ClassRenaming} {a b : String} {c : Char} (hc : c ≠ '(')
    (h : rename f a = .ok b) : b = String.ofList [c] ↔ a = String.ofList [c] := by
  rw [rename] at h
  split at h
  · obtain ⟨d, hParse, rfl⟩ := renameMethod_eq_ok.mp h
    rw [(MethodDescriptor.parse_eq_ok.mp hParse).2, MethodDescriptor.text, MethodDescriptor.text,
      String.ofList_inj, String.ofList_inj, MethodDescriptor.chars, MethodDescriptor.chars]
    simp [hc.symm]
  · obtain ⟨t, hParse, rfl⟩ := renameField_eq_ok.mp h
    rw [(FieldType.parse_eq_ok.mp hParse).2, FieldType.text, FieldType.text, String.ofList_inj,
      String.ofList_inj, FieldType.chars_rename_eq_singleton]

/-- An instruction or a bootstrap method that can use the one constant can use the other. -/
structure Constant.Alike (c d : Constant) : Prop where
  isLoadable : d.isLoadable = c.isLoadable
  pushesTwo : d.pushesTwo = c.pushesTwo
  handle : ∀ kind r, c = .methodHandle kind r → ∃ r', d = .methodHandle kind r'

theorem Constant.Alike.refl (c : Constant) : c.Alike c := ⟨rfl, rfl, fun _ r h => ⟨r, h⟩⟩

namespace Site

open Rewriting

variable {s : Site} {P : Pool} {K : Constant → Prop}

theorem returns_descriptor (text : String) : Returns (s.descriptor text) fun new =>
    Descriptor.rename s.renamer.table.newClass? text = .ok new := by
  rw [Site.descriptor]
  split
  · rename_i new hNew
    exact returns_pure hNew
  · exact returns_throw

theorem returns_memberRef (r : MemberRef) : Returns (s.memberRef r) fun r' => r'.kind = r.kind := by
  have hRest : ∀ name, Returns (do
      return ⟨r.kind, ← s.classReference r.owner, name, ← s.descriptor r.descriptor⟩ :
        Rewriting MemberRef) fun r' => r'.kind = r.kind := fun name =>
    returns_bind returns_true fun _ _ => returns_map returns_true fun _ _ => rfl
  rw [memberRef]
  dsimp only
  split
  · exact returns_bind returns_true fun name _ => hRest name
  · exact returns_bind returns_true fun name _ => hRest name
  · exact returns_bind returns_true fun name _ => hRest name

theorem returns_constant (c : Constant) : Returns (s.constant c) c.Alike := by
  cases c with
  | classRef name =>
    exact returns_map returns_true fun _ _ => ⟨rfl, rfl, fun _ _ h => by cases h⟩
  | member r => exact returns_map returns_true fun _ _ => ⟨rfl, rfl, fun _ _ h => by cases h⟩
  | nameAndType v => exact returns_map returns_true fun _ _ => ⟨rfl, rfl, fun _ _ h => by cases h⟩
  | methodHandle kind r =>
    exact returns_map returns_true fun r' _ => ⟨rfl, rfl, fun _ _ h => by cases h; exact ⟨r', rfl⟩⟩
  | methodType text => exact returns_map returns_true fun _ _ => ⟨rfl, rfl, fun _ _ h => by cases h⟩
  | dynamic bootstrap v =>
    have hDescriptor : Returns (s.nameAndType v) fun v' =>
        Descriptor.rename s.renamer.table.newClass? v.descriptor = .ok v'.descriptor :=
      returns_map (returns_descriptor v.descriptor) fun _ h => h
    refine returns_map hDescriptor fun v' hv' => ⟨rfl, ?_, fun _ _ h => by cases h⟩
    have hLong : v'.descriptor = "J" ↔ v.descriptor = "J" :=
      Descriptor.rename_eq_letter (c := 'J') (by decide) hv'
    have hDouble : v'.descriptor = "D" ↔ v.descriptor = "D" :=
      Descriptor.rename_eq_letter (c := 'D') (by decide) hv'
    simp only [Constant.pushesTwo, hLong, hDouble]
  | invokeDynamic bootstrap v =>
    exact returns_map returns_true fun _ _ => ⟨rfl, rfl, fun _ _ h => by cases h⟩
  | _ => exact returns_pure (.refl _)

theorem returns_operand {op : UInt8} {form : OperandForm} {o : Operand}
    (ho : Operand.Fits K op form o) :
    Returns (s.operand o) (Operand.Fits anyConstant op form) := by
  have hShape := ho.shape
  cases ho with
  | ldc _ hLoadable hSingle =>
    exact returns_map (returns_constant _) fun c' hc' =>
      .ldc trivial (hc'.isLoadable.trans hLoadable) (hc'.pushesTwo.trans hSingle)
  | ldcLong _ hLoadable hWidth =>
    exact returns_map (returns_constant _) fun c' hc' =>
      .ldcLong trivial (hc'.isLoadable.trans hLoadable) (hc'.pushesTwo.trans hWidth)
  | field _ hKind =>
    exact returns_map (returns_memberRef _) fun r' hr' => .field trivial (hr' ▸ hKind)
  | method _ hKind =>
    exact returns_map (returns_memberRef _) fun r' hr' => .method trivial (hr' ▸ hKind)
  | anyMethod _ hKind =>
    exact returns_map (returns_memberRef _) fun r' hr' => .anyMethod trivial (hr' ▸ hKind)
  | invokeInterface count _ hKind =>
    exact returns_map (returns_memberRef _) fun r' hr' =>
      .invokeInterface count trivial (hr' ▸ hKind)
  | invokeDynamic _ => exact returns_map returns_true fun _ _ => .invokeDynamic trivial
  | classRef _ => exact returns_map returns_true fun _ _ => .classRef trivial
  | multiArray dimensions _ =>
    exact returns_map returns_true fun _ _ => .multiArray dimensions trivial
  | _ => exact returns_pure hShape

theorem returns_instruction {i : Instruction} (hi : i.WellFormed K) :
    Returns (s.instruction i) (Instruction.WellFormed anyConstant) := by
  obtain ⟨form, hForm, hFits⟩ := hi
  exact returns_map (returns_operand hFits) fun o ho => ⟨form, hForm, ho⟩

theorem returns_forall {α β : Type} {f : α → Rewriting β} {as : List α} {Q : β → Prop}
    (hf : ∀ a ∈ as, Returns (f a) Q) : Returns (as.mapM f) fun bs => ∀ b ∈ bs, Q b := by
  refine (returns_mapM (Q := fun _ b => Q b) hf).mono fun bs hAll => ?_
  clear hf
  induction hAll with
  | nil => exact fun _ hb => absurd hb List.not_mem_nil
  | cons hHead _ ih => exact List.forall_mem_cons.mpr ⟨hHead, ih⟩

theorem returns_stackMapFrame {f : StackMapFrame} (hf : f.WellFormed K) :
    Returns (s.stackMapFrame f) (StackMapFrame.WellFormed anyConstant) := by
  have hTypes : ∀ types : List VerificationType, ∀ v ∈ types, v.WellFormed anyConstant :=
    fun _ v _ => v.wellFormed_any
  have hShape := hf.shape
  cases f with
  | sameOne tag stack =>
    exact returns_map returns_true fun v _ => ⟨hf.1, hf.2.1, v.wellFormed_any⟩
  | sameOneExtended delta stack => exact returns_map returns_true fun v _ => v.wellFormed_any
  | append tag delta types =>
    have hLength : Returns (types.mapM s.verificationType) fun vs => vs.length = types.length :=
      (returns_mapM (Q := fun _ _ => True) fun _ _ => returns_true).mono fun _ hAll =>
        hAll.length_eq.symm
    exact returns_map hLength fun vs hvs =>
      ⟨hf.1, hf.2.1, hf.2.2.1, hvs.trans hf.2.2.2.1, hTypes vs⟩
  | full delta types stack =>
    exact returns_bind returns_true fun vs _ => returns_map returns_true fun vs' _ =>
      ⟨hTypes vs, hTypes vs'⟩
  | _ => exact returns_pure hShape

mutual

theorem returns_elementValue (v : ElementValue) (hv : v.WellFormed K) :
    Returns (s.elementValue v) (ElementValue.WellFormed anyConstant) := by
  cases v with
  | const tag value =>
    rw [elementValue]
    exact returns_pure hv.shape
  | enum type name =>
    rw [elementValue]
    exact returns_bind returns_true fun _ _ => returns_map returns_true fun _ _ =>
      .enum trivial trivial
  | classLiteral text =>
    rw [elementValue]
    split
    · exact returns_pure hv.shape
    · exact returns_map returns_true fun _ _ => .classLiteral trivial
  | nested type elements =>
    rw [elementValue]
    cases hv with
    | nested _ _ hValues =>
      exact returns_bind (returns_elementValues (objectType? type) elements hValues) fun es hes =>
        returns_map returns_true fun _ _ => .nested trivial (fun _ _ => trivial) hes
  | array values =>
    rw [elementValue]
    cases hv with
    | array hValues => exact returns_map (returns_arrayValues values hValues) fun _ hvs => .array hvs

theorem returns_elementValues (type : Option String) (elements : List (String × ElementValue))
    (hElements : ∀ e ∈ elements, e.2.WellFormed K) :
    Returns (s.elementValues type elements) fun es => ∀ e ∈ es, e.2.WellFormed anyConstant := by
  cases elements with
  | nil =>
    rw [elementValues]
    exact returns_pure fun _ he => absurd he List.not_mem_nil
  | cons element rest =>
    obtain ⟨name, value⟩ := element
    obtain ⟨hHead, hTail⟩ := List.forall_mem_cons.mp hElements
    have hRest : ∀ name, Returns (do
        let value ← s.elementValue value
        return (name, value) :: (← s.elementValues type rest))
          fun es => ∀ e ∈ es, e.2.WellFormed anyConstant := fun name =>
      returns_bind (returns_elementValue value hHead) fun _ hv =>
        returns_map (returns_elementValues type rest hTail) fun _ hes =>
          List.forall_mem_cons.mpr ⟨hv, hes⟩
    rw [elementValues.eq_def]
    cases type with
    | none => exact hRest name
    | some type => exact returns_bind returns_true fun name _ => hRest name

theorem returns_arrayValues (values : List ElementValue)
    (hValues : ∀ v ∈ values, v.WellFormed K) :
    Returns (s.arrayValues values) fun vs => ∀ v ∈ vs, v.WellFormed anyConstant := by
  cases values with
  | nil =>
    rw [arrayValues]
    exact returns_pure fun _ hv => absurd hv List.not_mem_nil
  | cons value rest =>
    obtain ⟨hHead, hTail⟩ := List.forall_mem_cons.mp hValues
    rw [arrayValues]
    exact returns_bind (returns_elementValue value hHead) fun _ hv =>
      returns_map (returns_arrayValues rest hTail) fun _ hvs => List.forall_mem_cons.mpr ⟨hv, hvs⟩

end

theorem returns_annotated {a : Annotation} (ha : a.WellFormed K) :
    Returns (s.annotated a) fun b => b.WellFormed anyConstant := by
  cases ha with
  | nested _ _ hValues =>
    exact returns_bind (returns_elementValues (objectType? a.type) a.elements hValues) fun _ hes =>
      returns_map returns_true fun _ _ => .nested trivial (fun _ _ => trivial) hes

theorem returns_bootstrapMethod {m : BootstrapMethod} (hm : m.WellFormed K) :
    Returns (s.bootstrapMethod m) (BootstrapMethod.WellFormed anyConstant) := by
  obtain ⟨kind, reference, hHandle⟩ := hm.handle
  have hArguments : Returns (m.arguments.mapM s.constant) fun cs =>
      ∀ c ∈ cs, c.isLoadable = true :=
    returns_forall fun c hc => (returns_constant c).mono fun c' hAlike =>
      hAlike.isLoadable.trans (hm.arguments c hc).2
  refine returns_bind hArguments fun cs hcs => returns_map (returns_constant m.method) ?_
  intro method hMethod
  obtain ⟨reference', hReference⟩ := hMethod.handle kind reference hHandle
  exact ⟨⟨kind, reference', hReference⟩, trivial, fun c hc => ⟨trivial, hcs c hc⟩⟩

theorem returns_plainAttribute (kind : SignatureKind) {a : PlainAttribute}
    (ha : a.WellFormed anyConstant) (hPool : a.withPool P = a) :
    Returns (s.plainAttribute kind a) fun b => b.WellFormed anyConstant ∧ b.withPool P = b := by
  have hPayload := ha.payload
  cases a with
  | stackMapTable frames =>
    exact returns_map (returns_forall fun f hf => returns_stackMapFrame (hPayload f hf))
      fun _ hAll => ⟨⟨trivial, hAll⟩, rfl⟩
  | exceptions classes => exact returns_pure ⟨⟨trivial, fun _ _ => trivial⟩, rfl⟩
  | innerClasses entries => exact returns_pure ⟨⟨trivial, fun c _ => c.wellFormed_any⟩, rfl⟩
  | enclosingMethod owner method =>
    exact returns_map returns_true fun _ _ => ⟨⟨trivial, trivial, fun _ _ => trivial⟩, rfl⟩
  | signature text => exact returns_map returns_true fun _ _ => ⟨⟨trivial, trivial⟩, rfl⟩
  | sourceFile name => exact returns_pure ⟨⟨trivial, trivial⟩, rfl⟩
  | localVariables entries =>
    exact returns_map returns_true fun _ _ => ⟨⟨trivial, fun v _ => v.wellFormed_any⟩, rfl⟩
  | localVariableTypes entries =>
    exact returns_map returns_true fun _ _ => ⟨⟨trivial, fun v _ => v.wellFormed_any⟩, rfl⟩
  | annotations visibility as =>
    exact returns_map (returns_forall fun a ha => returns_annotated (hPayload a ha))
      fun _ hAll => ⟨⟨trivial, hAll⟩, rfl⟩
  | parameterAnnotations visibility parameters =>
    exact returns_map (returns_forall fun as has => returns_forall fun a ha =>
      returns_annotated (hPayload as has a ha)) fun _ hAll => ⟨⟨trivial, hAll⟩, rfl⟩
  | typeAnnotations visibility as =>
    have hEach : ∀ a ∈ as, Returns (do
        return ⟨a.target, ← s.annotated a.annotation⟩ : Rewriting TypeAnnotation)
          fun b => b.WellFormed anyConstant := by
      intro a ha
      obtain ⟨hTarget, hAnnotation⟩ := hPayload a ha
      exact returns_map (returns_annotated hAnnotation) fun _ hNew => ⟨hTarget, hNew⟩
    exact returns_map (returns_forall hEach) fun _ hAll => ⟨⟨trivial, hAll⟩, rfl⟩
  | annotationDefault value =>
    exact returns_map (returns_elementValue value hPayload) fun _ hv => ⟨⟨trivial, hv⟩, rfl⟩
  | bootstrapMethods methods =>
    exact returns_map (returns_forall fun m hm => returns_bootstrapMethod (hPayload m hm))
      fun _ hAll => ⟨⟨trivial, hAll⟩, rfl⟩
  | nestHost name => exact returns_pure ⟨⟨trivial, trivial⟩, rfl⟩
  | nestMembers classes => exact returns_pure ⟨⟨trivial, fun _ _ => trivial⟩, rfl⟩
  | permittedSubclasses classes => exact returns_pure ⟨⟨trivial, fun _ _ => trivial⟩, rfl⟩
  | moduleInfo info => exact returns_pure ⟨⟨trivial, ModuleInfo.wellFormed_any _⟩, rfl⟩
  | modulePackages packages => exact returns_pure ⟨⟨trivial, fun _ _ => trivial⟩, rfl⟩
  | moduleMainClass name => exact returns_pure ⟨⟨trivial, trivial⟩, rfl⟩
  | _ => exact returns_pure ⟨ha, hPool⟩

mutual

theorem returns_rewriteAttribute (kind : SignatureKind) (a : Attribute) (ha : a.Shaped P) :
    Returns (s.rewriteAttribute kind a) (Attribute.Shaped P) := by
  obtain ⟨hWellFormed, hPool⟩ := ha
  cases hWellFormed with
  | @code body _ hInstructions _ hAttributes =>
    obtain ⟨maxStack, maxLocals, instructions, handlers, attributes⟩ := body
    have hPools : Attribute.withPoolEach P attributes = attributes :=
      congrArg Code.attributes (Attribute.code.inj hPool)
    have hEach : ∀ a ∈ attributes, a.Shaped P := fun a ha =>
      ⟨hAttributes a ha, Attribute.withPool_eq_of_each hPools a ha⟩
    rw [rewriteAttribute]
    refine returns_bind (returns_forall fun i hi => returns_instruction (hInstructions i hi)) ?_
    intro is his
    refine returns_map (returns_rewriteAttributes .ofField attributes hEach) fun as has => ?_
    refine ⟨.code trivial his (fun _ _ _ _ => trivial) fun a ha => (has a ha).wellFormed, ?_⟩
    rw [Attribute.withPool, Attribute.withPoolEach_eq_self fun a ha => (has a ha).withPool_eq]
  | @record components _ _ hAttributes =>
    have hPools := Attribute.withPoolEach_eq_of_components (Attribute.record.inj hPool)
    have hEach : ∀ c ∈ components, ∀ a ∈ c.attributes, a.Shaped P := fun c hc a ha =>
      ⟨hAttributes c hc a ha, Attribute.withPool_eq_of_each (hPools c hc) a ha⟩
    rw [rewriteAttribute]
    refine returns_map (returns_rewriteComponents components hEach) fun cs hcs => ?_
    refine ⟨.record trivial (fun _ _ => ⟨trivial, trivial⟩)
      fun c hc a ha => (hcs c hc a ha).wellFormed, ?_⟩
    rw [Attribute.withPool, Attribute.withPoolComponents_eq_self fun c hc =>
      Attribute.withPoolEach_eq_self fun a ha => (hcs c hc a ha).withPool_eq]
  | plain h =>
    rw [rewriteAttribute]
    refine returns_map (returns_plainAttribute kind h (Attribute.plain.inj hPool)) fun b hb => ?_
    exact ⟨.plain hb.1, congrArg Attribute.plain hb.2⟩

theorem returns_rewriteAttributes (kind : SignatureKind) (as : List Attribute)
    (has : ∀ a ∈ as, a.Shaped P) :
    Returns (s.rewriteAttributes kind as) fun bs => ∀ b ∈ bs, b.Shaped P := by
  cases as with
  | nil =>
    rw [rewriteAttributes]
    exact returns_pure fun _ hb => absurd hb List.not_mem_nil
  | cons a rest =>
    obtain ⟨hHead, hTail⟩ := List.forall_mem_cons.mp has
    rw [rewriteAttributes]
    exact returns_bind (returns_rewriteAttribute kind a hHead) fun _ hb =>
      returns_map (returns_rewriteAttributes kind rest hTail) fun _ hbs =>
        List.forall_mem_cons.mpr ⟨hb, hbs⟩

theorem returns_rewriteComponents (components : List (RecordComponent Attribute))
    (hComponents : ∀ c ∈ components, ∀ a ∈ c.attributes, a.Shaped P) :
    Returns (s.rewriteComponents components) fun cs => ∀ c ∈ cs, ∀ a ∈ c.attributes, a.Shaped P := by
  cases components with
  | nil =>
    rw [rewriteComponents]
    exact returns_pure fun _ hc => absurd hc List.not_mem_nil
  | cons component rest =>
    obtain ⟨name, descriptor, attributes⟩ := component
    obtain ⟨hHead, hTail⟩ := List.forall_mem_cons.mp hComponents
    rw [rewriteComponents]
    exact returns_bind returns_true fun _ _ =>
      returns_bind (returns_rewriteAttributes .ofField attributes hHead) fun _ has =>
        returns_map (returns_rewriteComponents rest hTail) fun _ hcs =>
          List.forall_mem_cons.mpr ⟨has, hcs⟩

end

theorem returns_field {m : Member} (hm : m.Shaped P) : Returns (s.field m) (Member.Shaped P) :=
  returns_bind returns_true fun _ _ =>
    returns_map (returns_rewriteAttributes .ofField m.attributes hm.attributes) fun _ has => ⟨has⟩

theorem returns_method {m : Member} (hm : m.Shaped P) : Returns (s.method m) (Member.Shaped P) :=
  returns_bind returns_true fun _ _ =>
    returns_map (returns_rewriteAttributes .ofMethod m.attributes hm.attributes) fun _ has => ⟨has⟩

theorem returns_rewriteClass {c : ClassModel} (hc : c.Shaped P) :
    Returns (s.rewriteClass c) (ClassModel.Shaped P) := by
  refine returns_bind (returns_forall fun m hm =>
    returns_orKeep (hc.fields m hm) (returns_field (hc.fields m hm))) fun fields hFields => ?_
  refine returns_bind (returns_forall fun m hm =>
    returns_orKeep (hc.methods m hm) (returns_method (hc.methods m hm))) fun methods hMethods => ?_
  refine returns_map (returns_forall fun a ha => returns_orKeep (hc.attributes a ha)
    (returns_rewriteAttribute .ofClass a (hc.attributes a ha))) fun attributes hAttributes => ?_
  exact ⟨hc.version, hFields, hMethods, hAttributes⟩

end Site

/-- A rewritten class has the shape that it had. -/
theorem Renamer.shaped_of_rewrite {r : Renamer} {P : Pool} {c : ClassModel} (hc : c.Shaped P)
    {h h' : Hierarchy} {rewritten : Rewritten}
    (hRun : (r.rewrite c).run h = (.ok rewritten, h')) :
    rewritten.model.Shaped P := by
  obtain ⟨-, notes, hClass, -⟩ := Renamer.rewrite_eq_ok.mp hRun
  exact Site.returns_rewriteClass hc _ _ _ hClass

end Renaming
