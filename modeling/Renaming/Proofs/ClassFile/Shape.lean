import Renaming.Proofs.ClassFile.RoundTrip

/-!
# The shape of a class

What a file has to do with a class is a matter of its shape once the constants are set aside: operands
fit their opcodes, stack map frames their tags and annotation values theirs. Whatever was read has the
shape of something that can be read, and this does not depend on the names in it.
-/

namespace Renaming

abbrev anyConstant : Constant → Prop := fun _ => True

variable {K : Constant → Prop}

theorem Operand.Fits.shape {op : UInt8} {form : OperandForm} {o : Operand}
    (h : Operand.Fits K op form o) : Operand.Fits anyConstant op form o := by
  cases h with
  | none => exact .none
  | byte value => exact .byte value
  | short value => exact .short value
  | arrayType code => exact .arrayType code
  | localVar index wide => exact .localVar index wide
  | increment index delta wide => exact .increment index delta wide
  | jump delta => exact .jump delta
  | jumpWide delta => exact .jumpWide delta
  | ldc _ hLoadable hSingle => exact .ldc trivial hLoadable hSingle
  | ldcLong _ hLoadable hWidth => exact .ldcLong trivial hLoadable hWidth
  | field _ hKind => exact .field trivial hKind
  | method _ hKind => exact .method trivial hKind
  | anyMethod _ hKind => exact .anyMethod trivial hKind
  | invokeInterface count _ hKind => exact .invokeInterface count trivial hKind
  | invokeDynamic _ => exact .invokeDynamic trivial
  | classRef _ => exact .classRef trivial
  | multiArray dimensions _ => exact .multiArray dimensions trivial
  | tableSwitch hOrder hCount => exact .tableSwitch hOrder hCount
  | lookupSwitch hCount => exact .lookupSwitch hCount

theorem Instruction.WellFormed.shape {i : Instruction} (h : i.WellFormed K) :
    i.WellFormed anyConstant := by
  obtain ⟨form, hForm, hFits⟩ := h
  exact ⟨form, hForm, hFits.shape⟩

theorem VerificationType.wellFormed_any (v : VerificationType) : v.WellFormed anyConstant := by
  cases v <;> trivial

theorem StackMapFrame.WellFormed.shape {f : StackMapFrame} (h : f.WellFormed K) :
    f.WellFormed anyConstant := by
  have hTypes : ∀ types : List VerificationType, ∀ v ∈ types, v.WellFormed anyConstant :=
    fun _ v _ => v.wellFormed_any
  cases f with
  | sameOne tag stack => exact ⟨h.1, h.2.1, stack.wellFormed_any⟩
  | sameOneExtended delta stack => exact stack.wellFormed_any
  | append tag delta types => exact ⟨h.1, h.2.1, h.2.2.1, h.2.2.2.1, hTypes types⟩
  | full delta types stack => exact ⟨hTypes types, hTypes stack⟩
  | _ => exact h

theorem ElementValue.WellFormed.shape {v : ElementValue} (h : v.WellFormed K) :
    v.WellFormed anyConstant := by
  induction h with
  | const hFits _ => exact .const hFits trivial
  | enum _ _ => exact .enum trivial trivial
  | classLiteral _ => exact .classLiteral trivial
  | nested _ _ _ ih => exact .nested trivial (fun _ _ => trivial) ih
  | array _ ih => exact .array ih

theorem Annotation.WellFormed.shape {a : Annotation} (h : a.WellFormed K) :
    a.WellFormed anyConstant :=
  ElementValue.WellFormed.shape h

theorem BootstrapMethod.WellFormed.shape {m : BootstrapMethod} (h : m.WellFormed K) :
    m.WellFormed anyConstant :=
  ⟨h.handle, trivial, fun c hc => ⟨trivial, (h.arguments c hc).2⟩⟩

theorem InnerClass.wellFormed_any (c : InnerClass) : c.WellFormed anyConstant :=
  ⟨trivial, fun _ _ => trivial, fun _ _ => trivial⟩

theorem LocalVariable.wellFormed_any (v : LocalVariable) : v.WellFormed anyConstant :=
  ⟨trivial, trivial⟩

theorem ModuleInfo.wellFormed_any (m : ModuleInfo) : m.WellFormed anyConstant where
  name := trivial
  version _ _ := trivial
  requires _ _ := ⟨trivial, fun _ _ => trivial⟩
  exports _ _ := ⟨trivial, fun _ _ => trivial⟩
  opens _ _ := ⟨trivial, fun _ _ => trivial⟩
  uses _ _ := trivial
  provides _ _ := ⟨trivial, fun _ _ => trivial⟩

theorem PlainAttribute.WellFormed.shape {a : PlainAttribute} (h : a.WellFormed K) :
    a.WellFormed anyConstant := by
  refine ⟨trivial, ?_⟩
  have hPayload := h.payload
  cases a with
  | constantValue value => trivial
  | stackMapTable frames => exact fun f hf => (hPayload f hf).shape
  | innerClasses entries => exact fun c _ => c.wellFormed_any
  | enclosingMethod owner method => exact ⟨trivial, fun _ _ => trivial⟩
  | localVariables entries => exact fun v _ => v.wellFormed_any
  | localVariableTypes entries => exact fun v _ => v.wellFormed_any
  | annotations visibility as => exact fun a ha => (hPayload a ha).shape
  | parameterAnnotations visibility parameters =>
    exact fun as has a ha => (hPayload as has a ha).shape
  | typeAnnotations visibility as =>
    intro a ha
    obtain ⟨hTarget, hAnnotation⟩ := hPayload a ha
    exact ⟨hTarget, hAnnotation.shape⟩
  | annotationDefault value => exact ElementValue.WellFormed.shape hPayload
  | bootstrapMethods methods => exact fun m hm => (hPayload m hm).shape
  | methodParameters parameters => exact fun _ _ _ _ => trivial
  | moduleInfo info => exact info.wellFormed_any
  | unknown name payload pool => exact hPayload
  | exceptions classes => exact fun _ _ => trivial
  | nestMembers classes => exact fun _ _ => trivial
  | permittedSubclasses classes => exact fun _ _ => trivial
  | modulePackages packages => exact fun _ _ => trivial
  | _ => trivial

theorem Attribute.WellFormed.shape {a : Attribute} (h : a.WellFormed K) :
    a.WellFormed anyConstant := by
  induction h with
  | code _ hInstructions _ _ ih =>
    exact .code trivial (fun i hi => (hInstructions i hi).shape) (fun _ _ _ _ => trivial) ih
  | record _ _ _ ih => exact .record trivial (fun _ _ => ⟨trivial, trivial⟩) ih
  | plain h => exact .plain h.shape

/-- The attribute has the shape of one that can be read, and what it keeps as bytes has the pool `P`. -/
structure Attribute.Shaped (P : Pool) (a : Attribute) : Prop where
  wellFormed : a.WellFormed anyConstant
  withPool_eq : a.withPool P = a

structure Member.Shaped (P : Pool) (m : Member) : Prop where
  attributes : ∀ a ∈ m.attributes, a.Shaped P

structure ClassModel.Shaped (P : Pool) (c : ClassModel) : Prop where
  version : supportedVersion c.major c.minor = true
  fields : ∀ m ∈ c.fields, m.Shaped P
  methods : ∀ m ∈ c.methods, m.Shaped P
  attributes : ∀ a ∈ c.attributes, a.Shaped P

theorem Attribute.withPool_eq_of_each {P : Pool} {as : List Attribute}
    (h : withPoolEach P as = as) : ∀ a ∈ as, a.withPool P = a := by
  induction as with
  | nil => exact fun _ ha => absurd ha List.not_mem_nil
  | cons a as ih =>
    obtain ⟨hHead, hTail⟩ := List.cons.inj h
    exact List.forall_mem_cons.mpr ⟨hHead, ih hTail⟩

theorem Attribute.withPoolEach_eq_of_components {P : Pool} {cs : List (RecordComponent Attribute)}
    (h : withPoolComponents P cs = cs) :
    ∀ c ∈ cs, withPoolEach P c.attributes = c.attributes := by
  induction cs with
  | nil => exact fun _ hc => absurd hc List.not_mem_nil
  | cons c cs ih =>
    obtain ⟨name, descriptor, attributes⟩ := c
    obtain ⟨hHead, hTail⟩ := List.cons.inj h
    exact List.forall_mem_cons.mpr ⟨congrArg RecordComponent.attributes hHead, ih hTail⟩

namespace ClassModel

variable {P : Pool}

theorem shaped_of_parse {bytes : Bytes} {c : ClassModel} (h : parse bytes = .ok c) :
    ∃ P : Pool, P.Complete ∧ c.Shaped P := by
  obtain ⟨P, hP, hc, hSelf⟩ := known_of_parse h
  have hPools := withPool_eq_self_iff.mp hSelf
  simp only [mem_verbatim] at hPools
  refine ⟨P, hP, hc.version, fun m hm => ⟨fun a ha => ?_⟩, fun m hm => ⟨fun a ha => ?_⟩,
    fun a ha => ?_⟩
  · exact ⟨((hc.fields m hm).attributes a ha).shape, Attribute.withPool_eq_of_each
      ((Attribute.withPoolEach_eq_self_iff _).mpr fun x hx => hPools x (Or.inr (Or.inl ⟨m, hm, hx⟩))) a ha⟩
  · exact ⟨((hc.methods m hm).attributes a ha).shape, Attribute.withPool_eq_of_each
      ((Attribute.withPoolEach_eq_self_iff _).mpr fun x hx => hPools x (Or.inr (Or.inr ⟨m, hm, hx⟩))) a ha⟩
  · exact ⟨(hc.attributes a ha).shape, Attribute.withPool_eq_of_each
      ((Attribute.withPoolEach_eq_self_iff _).mpr fun x hx => hPools x (Or.inl hx)) a ha⟩

/-- A class of such a shape is found in the file that is written for it, up to the pool of what it
keeps as bytes. That pool starts with the old one. -/
theorem Shaped.parse_serialize {c : ClassModel} (hc : c.Shaped P) (hP : P.Complete) {bytes : Bytes}
    (h : c.serialize = .ok bytes) :
    ∃ P' : Pool, parse bytes = .ok (c.withPool P') ∧ ∀ x ∈ c.verbatim, x.2 = P ∧
      ∀ (k : Nat) e, x.2.entries[k]? = some e → P'.entries[k]? = some e := by
  have hWellFormed : c.WellFormed anyConstant :=
    ⟨hc.version, trivial, fun _ _ => trivial, fun _ _ => trivial,
      fun m hm => ⟨trivial, trivial, fun a ha => ((hc.fields m hm).attributes a ha).wellFormed⟩,
      fun m hm => ⟨trivial, trivial, fun a ha => ((hc.methods m hm).attributes a ha).wellFormed⟩,
      fun a ha => (hc.attributes a ha).wellFormed⟩
  have hPools : ∀ x ∈ c.verbatim, x.2 = P := by
    refine withPool_eq_self_iff.mp ?_
    have hMembers : ∀ ms : List Member, (∀ m ∈ ms, m.Shaped P) → ms.map (Member.withPool P) = ms :=
      fun ms hms => map_eq_self_iff.mpr fun m hm => by
        rw [Member.withPool, Attribute.withPoolEach_eq_self fun a ha =>
          ((hms m hm).attributes a ha).withPool_eq]
    rw [withPool, hMembers _ hc.fields, hMembers _ hc.methods,
      Attribute.withPoolEach_eq_self fun a ha => (hc.attributes a ha).withPool_eq]
  obtain ⟨P', -, hParse, hVerbatim⟩ := parse_of_serialize Constant.closed_univ hWellFormed
    (fun x hx => hPools x hx ▸ hP) h
  exact ⟨P', hParse, fun x hx => ⟨hPools x hx, (hVerbatim x hx).1⟩⟩

end ClassModel

end Renaming
