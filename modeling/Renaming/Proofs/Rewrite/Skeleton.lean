import Renaming.Proofs.ClassFile.Placement
import Renaming.Proofs.Rewrite.Packages
import Renaming.Proofs.Rewrite.References
import Renaming.Proofs.Rewrite.Shape

/-!
# Rewriting changes names only

The skeleton of a class has a blank for every name, descriptor and signature that rewriting may replace.
What rewriting never touches is part of it: the names of local variables, parameters and modules, numbers
and texts, and what is kept as bytes. A class is rewritten to one with the same skeleton, except that a
list of the packages of a module may go on. As the skeleton says how long every instruction is, no method
body changes its length, and the writer never finds an instruction out of place.
-/

namespace Renaming

def blank (_ : String) : String := ""

def MemberRef.skeleton (r : MemberRef) : MemberRef :=
  ⟨r.kind, blank r.owner, blank r.name, blank r.descriptor⟩

def NameAndType.skeleton (v : NameAndType) : NameAndType := ⟨blank v.name, blank v.descriptor⟩

def Constant.skeleton : Constant → Constant
  | classRef name => classRef (blank name)
  | member r => member r.skeleton
  | nameAndType v => nameAndType v.skeleton
  | methodHandle kind r => methodHandle kind r.skeleton
  | methodType descriptor => methodType (blank descriptor)
  | dynamic bootstrap v => dynamic bootstrap v.skeleton
  | invokeDynamic bootstrap v => invokeDynamic bootstrap v.skeleton
  | c => c

def Operand.skeleton : Operand → Operand
  | constant c => constant c.skeleton
  | member r => member r.skeleton
  | invokeInterface r count => invokeInterface r.skeleton count
  | invokeDynamic bootstrap v => invokeDynamic bootstrap v.skeleton
  | classRef name => classRef (blank name)
  | multiArray name dimensions => multiArray (blank name) dimensions
  | o => o

def Instruction.skeleton (i : Instruction) : Instruction := { i with operand := i.operand.skeleton }

def ExceptionHandler.skeleton (h : ExceptionHandler) : ExceptionHandler :=
  { h with caught := h.caught.map blank }

def VerificationType.skeleton : VerificationType → VerificationType
  | object name => object (blank name)
  | type => type

def StackMapFrame.skeleton : StackMapFrame → StackMapFrame
  | sameOne tag stack => sameOne tag stack.skeleton
  | sameOneExtended delta stack => sameOneExtended delta stack.skeleton
  | append tag delta locals => append tag delta (locals.map VerificationType.skeleton)
  | full delta locals stack =>
    full delta (locals.map VerificationType.skeleton) (stack.map VerificationType.skeleton)
  | frame => frame

def InnerClass.skeleton (c : InnerClass) : InnerClass :=
  ⟨blank c.inner, c.outer.map blank, c.name.map blank, c.access⟩

def LocalVariable.skeleton (v : LocalVariable) : LocalVariable :=
  { v with descriptor := blank v.descriptor }

def BootstrapMethod.skeleton (m : BootstrapMethod) : BootstrapMethod :=
  ⟨m.method.skeleton, m.arguments.map Constant.skeleton⟩

def ModuleExport.skeleton (e : ModuleExport) : ModuleExport := { e with package := blank e.package }

def ModuleProvide.skeleton (p : ModuleProvide) : ModuleProvide :=
  ⟨blank p.service, p.implementations.map blank⟩

def ModuleInfo.skeleton (m : ModuleInfo) : ModuleInfo :=
  { m with
    exports := m.exports.map ModuleExport.skeleton
    opens := m.opens.map ModuleExport.skeleton
    uses := m.uses.map blank
    provides := m.provides.map ModuleProvide.skeleton }

namespace ElementValue

mutual

def skeleton : ElementValue → ElementValue
  | const tag value => const tag value
  | enum type name => enum (blank type) (blank name)
  | classLiteral descriptor => classLiteral (blank descriptor)
  | nested type elements => nested (blank type) (skeletonOfElements elements)
  | array values => array (skeletonOfValues values)

def skeletonOfElements : List (String × ElementValue) → List (String × ElementValue)
  | [] => []
  | (name, value) :: rest => (blank name, value.skeleton) :: skeletonOfElements rest

def skeletonOfValues : List ElementValue → List ElementValue
  | [] => []
  | value :: rest => value.skeleton :: skeletonOfValues rest

end

end ElementValue

def Annotation.skeleton (a : Annotation) : Annotation :=
  ⟨blank a.type, ElementValue.skeletonOfElements a.elements⟩

def TypeAnnotation.skeleton (a : TypeAnnotation) : TypeAnnotation :=
  ⟨a.target, a.annotation.skeleton⟩

/-- Packages keep their names, as rewriting adds new ones to them. -/
def PlainAttribute.skeleton : PlainAttribute → PlainAttribute
  | stackMapTable frames => stackMapTable (frames.map StackMapFrame.skeleton)
  | exceptions classes => exceptions (classes.map blank)
  | innerClasses entries => innerClasses (entries.map InnerClass.skeleton)
  | enclosingMethod owner method => enclosingMethod (blank owner) (method.map NameAndType.skeleton)
  | signature text => signature (blank text)
  | sourceFile name => sourceFile (blank name)
  | localVariables locals => localVariables (locals.map LocalVariable.skeleton)
  | localVariableTypes locals => localVariableTypes (locals.map LocalVariable.skeleton)
  | annotations visibility as => annotations visibility (as.map Annotation.skeleton)
  | parameterAnnotations visibility parameters =>
    parameterAnnotations visibility (parameters.map (List.map Annotation.skeleton))
  | typeAnnotations visibility as => typeAnnotations visibility (as.map TypeAnnotation.skeleton)
  | annotationDefault value => annotationDefault value.skeleton
  | bootstrapMethods methods => bootstrapMethods (methods.map BootstrapMethod.skeleton)
  | nestHost name => nestHost (blank name)
  | nestMembers classes => nestMembers (classes.map blank)
  | permittedSubclasses classes => permittedSubclasses (classes.map blank)
  | moduleInfo info => moduleInfo info.skeleton
  | moduleMainClass name => moduleMainClass (blank name)
  | a => a

namespace Attribute

mutual

def skeleton : Attribute → Attribute
  | code ⟨maxStack, maxLocals, instructions, handlers, attributes⟩ =>
    code ⟨maxStack, maxLocals, instructions.map Instruction.skeleton,
      handlers.map ExceptionHandler.skeleton, skeletonOfEach attributes⟩
  | record components => record (skeletonOfComponents components)
  | plain a => plain a.skeleton

def skeletonOfEach : List Attribute → List Attribute
  | [] => []
  | a :: rest => a.skeleton :: skeletonOfEach rest

def skeletonOfComponents : List (RecordComponent Attribute) → List (RecordComponent Attribute)
  | [] => []
  | ⟨name, descriptor, attributes⟩ :: rest =>
    ⟨blank name, blank descriptor, skeletonOfEach attributes⟩ :: skeletonOfComponents rest

end

end Attribute

def Member.skeleton (m : Member) : Member :=
  ⟨m.access, blank m.name, blank m.descriptor, Attribute.skeletonOfEach m.attributes⟩

def ClassModel.skeleton (c : ClassModel) : ClassModel :=
  ⟨c.minor, c.major, c.access, blank c.name, c.superName.map blank, c.interfaces.map blank,
    c.fields.map Member.skeleton, c.methods.map Member.skeleton,
    Attribute.skeletonOfEach c.attributes⟩

/-- The same attribute, or a list of packages with more at its end. -/
inductive PlainAttribute.GrowsTo : PlainAttribute → PlainAttribute → Prop
  | refl (a) : GrowsTo a a
  | packages (old more) : GrowsTo (modulePackages old) (modulePackages (old ++ more))

namespace Attribute

mutual

/-- The same attribute, except that lists of packages may go on, at any depth. -/
def GrowsTo : Attribute → Attribute → Prop
  | code ⟨maxStack, maxLocals, instructions, handlers, attributes⟩,
    code ⟨maxStack', maxLocals', instructions', handlers', attributes'⟩ =>
    (maxStack' = maxStack ∧ maxLocals' = maxLocals ∧ instructions' = instructions ∧
      handlers' = handlers) ∧ EachGrowsTo attributes attributes'
  | record components, record components' => ComponentsGrowTo components components'
  | plain a, plain a' => a.GrowsTo a'
  | _, _ => False

def EachGrowsTo : List Attribute → List Attribute → Prop
  | [], [] => True
  | a :: rest, a' :: rest' => a.GrowsTo a' ∧ EachGrowsTo rest rest'
  | _, _ => False

def ComponentsGrowTo :
    List (RecordComponent Attribute) → List (RecordComponent Attribute) → Prop
  | [], [] => True
  | ⟨name, descriptor, attributes⟩ :: rest, ⟨name', descriptor', attributes'⟩ :: rest' =>
    ((name' = name ∧ descriptor' = descriptor) ∧ EachGrowsTo attributes attributes') ∧
      ComponentsGrowTo rest rest'
  | _, _ => False

end

mutual

theorem GrowsTo.refl (a : Attribute) : a.GrowsTo a := by
  cases a with
  | code body => exact ⟨⟨rfl, rfl, rfl, rfl⟩, EachGrowsTo.refl body.attributes⟩
  | record components => exact ComponentsGrowTo.refl components
  | plain a => exact PlainAttribute.GrowsTo.refl a

theorem EachGrowsTo.refl (as : List Attribute) : EachGrowsTo as as := by
  cases as with
  | nil => trivial
  | cons a rest => exact ⟨GrowsTo.refl a, EachGrowsTo.refl rest⟩

theorem ComponentsGrowTo.refl (cs : List (RecordComponent Attribute)) : ComponentsGrowTo cs cs := by
  cases cs with
  | nil => trivial
  | cons c rest =>
    exact ⟨⟨⟨rfl, rfl⟩, EachGrowsTo.refl c.attributes⟩, ComponentsGrowTo.refl rest⟩

end

end Attribute

structure Member.GrowsTo (m m' : Member) : Prop where
  access_eq : m'.access = m.access
  name_eq : m'.name = m.name
  descriptor_eq : m'.descriptor = m.descriptor
  attributes : Attribute.EachGrowsTo m.attributes m'.attributes

/-- The same class, except that lists of packages may go on. -/
structure ClassModel.GrowsTo (c c' : ClassModel) : Prop where
  header_eq : { c' with fields := [], methods := [], attributes := [] } =
    { c with fields := [], methods := [], attributes := [] }
  fields : List.Forall₂ Member.GrowsTo c.fields c'.fields
  methods : List.Forall₂ Member.GrowsTo c.methods c'.methods
  attributes : Attribute.EachGrowsTo c.attributes c'.attributes

namespace Rewriting

variable {α β : Type} {g : α → β}

/-- The step changes nothing that `g` shows. -/
abbrev KeepsOf (g : α → β) (x : Rewriting α) (a : α) : Prop := Returns x fun a' => g a' = g a

theorem keepsOf_mapM {f : α → Rewriting α} {as : List α} (h : ∀ a ∈ as, KeepsOf g (f a) a) :
    KeepsOf (List.map g) (as.mapM f) as := by
  refine (returns_mapM (Q := fun a b => g b = g a) h).mono fun bs hAll => ?_
  clear h
  induction hAll with
  | nil => rfl
  | cons hHead _ ih => rw [List.map_cons, List.map_cons, hHead, ih]

theorem keepsOf_optionMapM {f : α → Rewriting α} {o : Option α} (h : ∀ a ∈ o, KeepsOf g (f a) a) :
    KeepsOf (Option.map g) (o.mapM f) o := by
  refine (returns_optionMapM (Q := fun a b => g b = g a) h).mono fun o' hAll => ?_
  cases hAll with
  | none => rfl
  | some hNew => exact congrArg some hNew

end Rewriting

theorem map_blank_map (f : String → String) (names : List String) :
    (names.map f).map blank = names.map blank := List.map_map

theorem optionMap_blank_map (f : String → String) (name : Option String) :
    (name.map f).map blank = name.map blank := Option.map_map ..

namespace Site

open Rewriting

variable {s : Site}

theorem keepsOf_memberRef (r : MemberRef) : KeepsOf MemberRef.skeleton (s.memberRef r) r :=
  (returns_memberRef r).mono fun r' hKind => by
    rw [MemberRef.skeleton, hKind]
    rfl

theorem keepsOf_constant (c : Constant) : KeepsOf Constant.skeleton (s.constant c) c := by
  cases c with
  | member r => exact returns_map (keepsOf_memberRef r) fun _ h => congrArg Constant.member h
  | methodHandle kind r =>
    exact returns_map (keepsOf_memberRef r) fun _ h => congrArg (Constant.methodHandle kind) h
  | classRef | nameAndType | methodType | dynamic | invokeDynamic =>
    exact returns_map returns_true fun _ _ => rfl
  | _ => exact returns_pure rfl

theorem keepsOf_operand (o : Operand) : KeepsOf Operand.skeleton (s.operand o) o := by
  cases o with
  | constant c => exact returns_map (keepsOf_constant c) fun _ h => congrArg Operand.constant h
  | member r => exact returns_map (keepsOf_memberRef r) fun _ h => congrArg Operand.member h
  | invokeInterface r count =>
    exact returns_map (keepsOf_memberRef r) fun _ h => congrArg (Operand.invokeInterface · count) h
  | invokeDynamic | classRef | multiArray => exact returns_map returns_true fun _ _ => rfl
  | _ => exact returns_pure rfl

theorem keepsOf_instruction (i : Instruction) :
    KeepsOf Instruction.skeleton (s.instruction i) i :=
  returns_map (keepsOf_operand i.operand) fun o h => by
    rw [Instruction.skeleton, Instruction.skeleton, h]

theorem keepsOf_verificationType (v : VerificationType) :
    KeepsOf VerificationType.skeleton (s.verificationType v) v := by
  cases v with
  | object name => exact returns_map returns_true fun _ _ => rfl
  | _ => exact returns_pure rfl

theorem keepsOf_stackMapFrame (f : StackMapFrame) :
    KeepsOf StackMapFrame.skeleton (s.stackMapFrame f) f := by
  have hTypes (types : List VerificationType) :
      KeepsOf (List.map VerificationType.skeleton) (types.mapM s.verificationType) types :=
    keepsOf_mapM fun v _ => keepsOf_verificationType v
  cases f with
  | sameOne tag stack =>
    exact returns_map (keepsOf_verificationType stack) fun _ h =>
      congrArg (StackMapFrame.sameOne tag) h
  | sameOneExtended delta stack =>
    exact returns_map (keepsOf_verificationType stack) fun _ h =>
      congrArg (StackMapFrame.sameOneExtended delta) h
  | append tag delta types =>
    exact returns_map (hTypes types) fun _ h => congrArg (StackMapFrame.append tag delta) h
  | full delta types stack =>
    exact returns_bind (hTypes types) fun _ h => returns_map (hTypes stack) fun _ h' =>
      congrArg₂ (StackMapFrame.full delta) h h'
  | _ => exact returns_pure rfl

theorem skeleton_innerClass (c : InnerClass) : (s.innerClass c).skeleton = c.skeleton := by
  rw [innerClass, InnerClass.skeleton, InnerClass.skeleton]
  dsimp only
  rw [optionMap_blank_map]
  split
  · rfl
  · rw [optionMap_blank_map]
    rfl

theorem keepsOf_localVariable (v : LocalVariable) :
    KeepsOf LocalVariable.skeleton (s.localVariable v) v := by
  rw [localVariable]
  split
  · exact returns_pure rfl
  · exact returns_bind returns_true fun _ _ => returns_pure rfl

theorem keepsOf_localVariableType (v : LocalVariable) :
    KeepsOf LocalVariable.skeleton (s.localVariableType v) v := by
  rw [localVariableType]
  split
  · exact returns_pure rfl
  · exact returns_bind returns_true fun _ _ => returns_pure rfl

theorem keepsOf_bootstrapMethod (m : BootstrapMethod) :
    KeepsOf BootstrapMethod.skeleton (s.bootstrapMethod m) m :=
  returns_bind (keepsOf_mapM fun c _ => keepsOf_constant c) fun _ hArguments =>
    returns_map (keepsOf_constant m.method) fun _ hMethod =>
      congrArg₂ BootstrapMethod.mk hMethod hArguments

theorem skeleton_moduleInfo (m : ModuleInfo) : (s.moduleInfo m).skeleton = m.skeleton := by
  have hExports (es : List ModuleExport) :
      (es.map fun e => { e with package := s.packageName e.package }).map ModuleExport.skeleton =
        es.map ModuleExport.skeleton := List.map_map
  have hProvides : (m.provides.map fun p => (⟨s.className p.service,
      p.implementations.map s.className⟩ : ModuleProvide)).map ModuleProvide.skeleton =
        m.provides.map ModuleProvide.skeleton := by
    rw [List.map_map]
    refine List.map_congr_left fun p _ => ?_
    exact congrArg (ModuleProvide.mk "") (map_blank_map s.className p.implementations)
  simp only [moduleInfo, ModuleInfo.skeleton, hExports, hProvides, map_blank_map]

theorem prefix_modulePackages (packages : List String) : packages <+: s.modulePackages packages := by
  obtain ⟨gained, hList, -⟩ := s.exists_modulePackages_eq packages
  rw [hList]
  exact List.prefix_append packages gained

mutual

theorem keepsOf_elementValue (v : ElementValue) :
    KeepsOf ElementValue.skeleton (s.elementValue v) v := by
  cases v with
  | const tag value =>
    rw [elementValue]
    exact returns_pure rfl
  | enum type name =>
    rw [elementValue]
    exact returns_bind returns_true fun _ _ => returns_map returns_true fun _ _ => rfl
  | classLiteral text =>
    rw [elementValue]
    split
    · exact returns_pure rfl
    · exact returns_map returns_true fun _ _ => rfl
  | nested type elements =>
    rw [elementValue]
    exact returns_bind (keepsOf_elementValues (objectType? type) elements) fun _ h =>
      returns_map returns_true fun _ _ => congrArg (ElementValue.nested "") h
  | array values =>
    rw [elementValue]
    exact returns_map (keepsOf_arrayValues values) fun _ h => congrArg ElementValue.array h

theorem keepsOf_elementValues (type : Option String) (elements : List (String × ElementValue)) :
    KeepsOf ElementValue.skeletonOfElements (s.elementValues type elements) elements := by
  cases elements with
  | nil =>
    rw [elementValues]
    exact returns_pure rfl
  | cons element rest =>
    obtain ⟨name, value⟩ := element
    have hRest : ∀ new, KeepsOf ElementValue.skeletonOfElements (do
        let value ← s.elementValue value
        return (new, value) :: (← s.elementValues type rest)) ((name, value) :: rest) := fun new =>
      returns_bind (keepsOf_elementValue value) fun _ hValue =>
        returns_map (keepsOf_elementValues type rest) fun _ hRest =>
          congrArg₂ List.cons (congrArg (Prod.mk "") hValue) hRest
    rw [elementValues.eq_def]
    cases type with
    | none => exact hRest name
    | some type => exact returns_bind returns_true fun new _ => hRest new

theorem keepsOf_arrayValues (values : List ElementValue) :
    KeepsOf ElementValue.skeletonOfValues (s.arrayValues values) values := by
  cases values with
  | nil =>
    rw [arrayValues]
    exact returns_pure rfl
  | cons value rest =>
    rw [arrayValues]
    exact returns_bind (keepsOf_elementValue value) fun _ hValue =>
      returns_map (keepsOf_arrayValues rest) fun _ hRest => congrArg₂ List.cons hValue hRest

end

theorem keepsOf_annotated (a : Annotation) : KeepsOf Annotation.skeleton (s.annotated a) a :=
  returns_bind (keepsOf_elementValues (objectType? a.type) a.elements) fun _ h =>
    returns_map returns_true fun _ _ => congrArg (fun es => (⟨"", es⟩ : Annotation)) h

theorem returns_grown_plainAttribute (kind : SignatureKind) (a : PlainAttribute) :
    Returns (s.plainAttribute kind a) fun b => a.skeleton.GrowsTo b.skeleton := by
  have hSame {x : Rewriting PlainAttribute} (hx : KeepsOf PlainAttribute.skeleton x a) :
      Returns x fun b => a.skeleton.GrowsTo b.skeleton := hx.mono fun _ h => h ▸ .refl _
  cases a with
  | modulePackages packages =>
    obtain ⟨more, hMore⟩ := prefix_modulePackages (s := s) packages
    refine returns_pure ?_
    rw [← hMore]
    exact .packages packages more
  | stackMapTable frames =>
    exact hSame (returns_map (keepsOf_mapM fun f _ => keepsOf_stackMapFrame f) fun _ h =>
      congrArg PlainAttribute.stackMapTable h)
  | exceptions classes =>
    exact hSame (returns_pure (congrArg PlainAttribute.exceptions (map_blank_map _ _)))
  | innerClasses entries =>
    refine hSame (returns_pure (congrArg PlainAttribute.innerClasses ?_))
    rw [List.map_map]
    exact List.map_congr_left fun c _ => skeleton_innerClass c
  | enclosingMethod owner method =>
    have hMethod (m : NameAndType) : KeepsOf NameAndType.skeleton (s.enclosingMethod owner m) m :=
      returns_true.mono fun _ _ => rfl
    exact hSame (returns_map (keepsOf_optionMapM fun m _ => hMethod m) fun _ h =>
      congrArg (PlainAttribute.enclosingMethod "") h)
  | signature text => exact hSame (returns_map returns_true fun _ _ => rfl)
  | localVariables entries =>
    exact hSame (returns_map (keepsOf_mapM fun v _ => keepsOf_localVariable v) fun _ h =>
      congrArg PlainAttribute.localVariables h)
  | localVariableTypes entries =>
    exact hSame (returns_map (keepsOf_mapM fun v _ => keepsOf_localVariableType v) fun _ h =>
      congrArg PlainAttribute.localVariableTypes h)
  | annotations visibility as =>
    exact hSame (returns_map (keepsOf_mapM fun a _ => keepsOf_annotated a) fun _ h =>
      congrArg (PlainAttribute.annotations visibility) h)
  | parameterAnnotations visibility parameters =>
    exact hSame (returns_map (keepsOf_mapM fun as _ => keepsOf_mapM fun a _ => keepsOf_annotated a)
      fun _ h => congrArg (PlainAttribute.parameterAnnotations visibility) h)
  | typeAnnotations visibility as =>
    have hEach (a : TypeAnnotation) : KeepsOf TypeAnnotation.skeleton
        (do return ⟨a.target, ← s.annotated a.annotation⟩) a :=
      returns_map (keepsOf_annotated a.annotation) fun _ h =>
        congrArg (fun annotation => (⟨a.target, annotation⟩ : TypeAnnotation)) h
    exact hSame (returns_map (keepsOf_mapM fun a _ => hEach a) fun _ h =>
      congrArg (PlainAttribute.typeAnnotations visibility) h)
  | annotationDefault value =>
    exact hSame (returns_map (keepsOf_elementValue value) fun _ h =>
      congrArg PlainAttribute.annotationDefault h)
  | bootstrapMethods methods =>
    exact hSame (returns_map (keepsOf_mapM fun m _ => keepsOf_bootstrapMethod m) fun _ h =>
      congrArg PlainAttribute.bootstrapMethods h)
  | nestMembers classes =>
    exact hSame (returns_pure (congrArg PlainAttribute.nestMembers (map_blank_map _ _)))
  | permittedSubclasses classes =>
    exact hSame (returns_pure (congrArg PlainAttribute.permittedSubclasses (map_blank_map _ _)))
  | moduleInfo info =>
    exact hSame (returns_pure (congrArg PlainAttribute.moduleInfo (skeleton_moduleInfo info)))
  | _ => exact hSame (returns_pure rfl)

theorem skeleton_exceptionHandler (h : ExceptionHandler) :
    (s.exceptionHandler h).skeleton = h.skeleton := by
  rw [exceptionHandler, ExceptionHandler.skeleton, ExceptionHandler.skeleton, optionMap_blank_map]

mutual

theorem returns_grown_attribute (kind : SignatureKind) (a : Attribute) :
    Returns (s.rewriteAttribute kind a) fun b => a.skeleton.GrowsTo b.skeleton := by
  cases a with
  | code body =>
    obtain ⟨maxStack, maxLocals, instructions, handlers, attributes⟩ := body
    have hHandlers : (handlers.map s.exceptionHandler).map ExceptionHandler.skeleton =
        handlers.map ExceptionHandler.skeleton := by
      rw [List.map_map]
      exact List.map_congr_left fun h _ => skeleton_exceptionHandler h
    rw [rewriteAttribute]
    exact returns_bind (keepsOf_mapM fun i _ => keepsOf_instruction i) fun _ hInstructions =>
      returns_map (returns_grown_attributes .ofField attributes) fun _ hAttributes =>
        ⟨⟨rfl, rfl, hInstructions, hHandlers⟩, hAttributes⟩
  | record components =>
    rw [rewriteAttribute]
    exact returns_map (returns_grown_components components) fun _ h => h
  | plain a =>
    rw [rewriteAttribute]
    exact returns_map (returns_grown_plainAttribute kind a) fun _ h => h

theorem returns_grown_attributes (kind : SignatureKind) (as : List Attribute) :
    Returns (s.rewriteAttributes kind as) fun bs =>
      Attribute.EachGrowsTo (Attribute.skeletonOfEach as) (Attribute.skeletonOfEach bs) := by
  cases as with
  | nil =>
    rw [rewriteAttributes]
    exact returns_pure trivial
  | cons a rest =>
    rw [rewriteAttributes]
    exact returns_bind (returns_grown_attribute kind a) fun _ hHead =>
      returns_map (returns_grown_attributes kind rest) fun _ hTail => ⟨hHead, hTail⟩

theorem returns_grown_components (cs : List (RecordComponent Attribute)) :
    Returns (s.rewriteComponents cs) fun ds => Attribute.ComponentsGrowTo
      (Attribute.skeletonOfComponents cs) (Attribute.skeletonOfComponents ds) := by
  cases cs with
  | nil =>
    rw [rewriteComponents]
    exact returns_pure trivial
  | cons c rest =>
    obtain ⟨name, descriptor, attributes⟩ := c
    rw [rewriteComponents]
    exact returns_bind returns_true fun _ _ =>
      returns_bind (returns_grown_attributes .ofField attributes) fun _ hAttributes =>
        returns_map (returns_grown_components rest) fun _ hRest => ⟨⟨⟨rfl, rfl⟩, hAttributes⟩, hRest⟩

end

theorem returns_grown_field (m : Member) :
    Returns (s.field m) fun m' => m.skeleton.GrowsTo m'.skeleton :=
  returns_bind returns_true fun _ _ =>
    returns_map (returns_grown_attributes .ofField m.attributes) fun _ h => ⟨rfl, rfl, rfl, h⟩

theorem returns_grown_method (m : Member) :
    Returns (s.method m) fun m' => m.skeleton.GrowsTo m'.skeleton :=
  returns_bind returns_true fun _ _ =>
    returns_map (returns_grown_attributes .ofMethod m.attributes) fun _ h => ⟨rfl, rfl, rfl, h⟩

theorem returns_grown_class (c : ClassModel) :
    Returns (s.rewriteClass c) fun c' => c.skeleton.GrowsTo c'.skeleton := by
  -- A member that cannot be rewritten is kept as it is.
  have hMember (m : Member) : m.skeleton.GrowsTo m.skeleton := ⟨rfl, rfl, rfl, .refl _⟩
  have hMembers {ms ms' : List Member}
      (h : List.Forall₂ (fun m m' : Member => m.skeleton.GrowsTo m'.skeleton) ms ms') :
      List.Forall₂ Member.GrowsTo (ms.map Member.skeleton) (ms'.map Member.skeleton) := by
    rwa [List.forall₂_map_left_iff, List.forall₂_map_right_iff]
  have hEach {as bs : List Attribute}
      (h : List.Forall₂ (fun a b : Attribute => a.skeleton.GrowsTo b.skeleton) as bs) :
      Attribute.EachGrowsTo (Attribute.skeletonOfEach as) (Attribute.skeletonOfEach bs) := by
    induction h with
    | nil => trivial
    | cons hHead _ ih => exact ⟨hHead, ih⟩
  refine returns_bind (returns_mapM fun m _ => returns_orKeep (hMember m) (returns_grown_field m))
    fun fields hFields => returns_bind (returns_mapM fun m _ =>
      returns_orKeep (hMember m) (returns_grown_method m)) fun methods hMethods =>
    returns_map (returns_mapM fun a _ => returns_orKeep (.refl _) (returns_grown_attribute .ofClass a))
      fun attributes hAttributes => ⟨?_, hMembers hFields, hMembers hMethods, hEach hAttributes⟩
  simp only [ClassModel.skeleton, optionMap_blank_map, map_blank_map]
  rfl

end Site

namespace Instruction

theorem size_skeleton (i : Instruction) : i.skeleton.size = i.size := by
  obtain ⟨offset, op, o⟩ := i
  cases o <;> rfl

theorem narrow_skeleton (o : Operand) : o.skeleton.Narrow ↔ o.Narrow := by
  cases o <;> rfl

theorem totalSize_skeleton (is : List Instruction) :
    totalSize (is.map skeleton) = totalSize is := by
  rw [totalSize, totalSize, List.map_map]
  exact congrArg List.sum (List.map_congr_left fun i _ => size_skeleton i)

theorem laid_skeleton (is : List Instruction) (offset : Nat) :
    Laid offset (is.map skeleton) ↔ Laid offset is := by
  induction is generalizing offset with
  | nil => rfl
  | cons i is ih =>
    rw [List.map_cons, Laid, Laid, ih, size_skeleton]
    exact and_congr_right fun _ => and_congr_left fun _ => narrow_skeleton i.operand

end Instruction

/-- The instructions of the one body have the skeletons of those of the other. -/
def Code.SameSkeleton (body body' : Code Attribute) : Prop :=
  body'.instructions.map Instruction.skeleton = body.instructions.map Instruction.skeleton

namespace Attribute

mutual

theorem GrowsTo.bodies (a b : Attribute) (h : a.skeleton.GrowsTo b.skeleton) :
    List.Forall₂ Code.SameSkeleton a.bodies b.bodies := by
  cases a with
  | code body =>
    cases b with
    | code body' =>
      obtain ⟨⟨-, -, hInstructions, -⟩, hAttributes⟩ := h
      exact .cons hInstructions (EachGrowsTo.bodies body.attributes body'.attributes hAttributes)
    | record | plain => cases h
  | record components =>
    cases b with
    | record components' => exact ComponentsGrowTo.bodies components components' h
    | code | plain => cases h
  | plain a =>
    cases b with
    | plain b => exact .nil
    | code | record => cases h

theorem EachGrowsTo.bodies (as bs : List Attribute)
    (h : EachGrowsTo (skeletonOfEach as) (skeletonOfEach bs)) :
    List.Forall₂ Code.SameSkeleton (bodiesOfEach as) (bodiesOfEach bs) := by
  cases as with
  | nil =>
    cases bs with
    | nil => exact .nil
    | cons b bs => cases h
  | cons a as =>
    cases bs with
    | nil => cases h
    | cons b bs => exact List.rel_append (GrowsTo.bodies a b h.1) (EachGrowsTo.bodies as bs h.2)

theorem ComponentsGrowTo.bodies (cs ds : List (RecordComponent Attribute))
    (h : ComponentsGrowTo (skeletonOfComponents cs) (skeletonOfComponents ds)) :
    List.Forall₂ Code.SameSkeleton (bodiesOfComponents cs) (bodiesOfComponents ds) := by
  cases cs with
  | nil =>
    cases ds with
    | nil => exact .nil
    | cons d ds => cases h
  | cons c cs =>
    cases ds with
    | nil => cases h
    | cons d ds =>
      obtain ⟨⟨-, hAttributes⟩, hRest⟩ := h
      exact List.rel_append (EachGrowsTo.bodies c.attributes d.attributes hAttributes)
        (ComponentsGrowTo.bodies cs ds hRest)

end

end Attribute

theorem ClassModel.forall₂_of_grown {ms ms' : List Member}
    (h : List.Forall₂ Member.GrowsTo (ms.map Member.skeleton) (ms'.map Member.skeleton)) :
    List.Forall₂ (fun m m' => Attribute.EachGrowsTo (Attribute.skeletonOfEach m.attributes)
      (Attribute.skeletonOfEach m'.attributes)) ms ms' := by
  rw [List.forall₂_map_left_iff, List.forall₂_map_right_iff] at h
  exact h.imp fun _ _ hGrows => hGrows.attributes

theorem ClassModel.GrowsTo.bodies {c c' : ClassModel} (h : c.skeleton.GrowsTo c'.skeleton) :
    List.Forall₂ Code.SameSkeleton c.bodies c'.bodies := by
  have hMembers {ms ms' : List Member}
      (hAll : List.Forall₂ Member.GrowsTo (ms.map Member.skeleton) (ms'.map Member.skeleton)) :
      List.Forall₂ (fun m m' : Member => List.Forall₂ Code.SameSkeleton
        (Attribute.bodiesOfEach m.attributes) (Attribute.bodiesOfEach m'.attributes)) ms ms' :=
    (forall₂_of_grown hAll).imp fun m m' hGrows => Attribute.EachGrowsTo.bodies _ _ hGrows
  exact List.rel_append (List.rel_flatMap (List.rel_append (hMembers h.fields) (hMembers h.methods))
    fun _ _ hBodies => hBodies) (Attribute.EachGrowsTo.bodies _ _ h.attributes)

/-- What the instructions of `body'` are written as has as many bytes as what those of `body` were read
from, and as what they are written as. -/
structure Code.SameLength (body body' : Code Attribute) : Prop where
  read : ∀ (P : Pool) (bytecode : Bytes), bytecode.length < 0x100000000 →
    Instruction.decodeAll P bytecode = .ok body.instructions → ∀ b bytes b',
      Instruction.encodeAll body'.instructions b = .ok (bytes, b') → bytes.length = bytecode.length
  written : ∀ b bytes b', Instruction.encodeAll body.instructions b = .ok (bytes, b') →
    ∀ d bytes' d', Instruction.encodeAll body'.instructions d = .ok (bytes', d') →
      bytes'.length = bytes.length

namespace Code.SameSkeleton

variable {body body' : Code Attribute}

theorem totalSize_eq (h : body.SameSkeleton body') :
    Instruction.totalSize body'.instructions = Instruction.totalSize body.instructions := by
  rw [← Instruction.totalSize_skeleton, h, Instruction.totalSize_skeleton]

theorem inPlace (h : body.SameSkeleton body') (hPlace : body.InPlace) : body'.InPlace := by
  rw [InPlace, ← Instruction.laid_skeleton, h, Instruction.laid_skeleton]
  exact hPlace

theorem sameLength (h : body.SameSkeleton body') : body.SameLength body' where
  read P bytecode hBound hRead b bytes b' hWrite := by
    rw [Instruction.length_of_encodeAll hWrite, h.totalSize_eq,
      (Instruction.laid_of_decodeAll hRead hBound).2]
  written b bytes b' hOld d bytes' d' hNew := by
    rw [Instruction.length_of_encodeAll hNew, h.totalSize_eq, Instruction.length_of_encodeAll hOld]

end Code.SameSkeleton

/-- A class that was read is rewritten to one with the same skeleton, up to packages added at the end of
a list. The writer finds all instructions of this one in place, and every method body keeps its length. -/
theorem Renamer.skeleton_of_rewrite {bytes : Bytes} {c : ClassModel}
    (hParse : ClassModel.parse bytes = .ok c) {r : Renamer} {h h' : Hierarchy} {w : Rewritten}
    (hRun : (r.rewrite c).run h = (.ok w, h')) :
    c.skeleton.GrowsTo w.model.skeleton ∧
      (∀ e, w.model.serialize = .error e → ¬ e.IsMisfit) ∧
      List.Forall₂ Code.SameLength c.bodies w.model.bodies := by
  obtain ⟨-, notes, hClass, -⟩ := rewrite_eq_ok.mp hRun
  have hGrows := Site.returns_grown_class c _ _ _ hClass
  have hBodies := ClassModel.GrowsTo.bodies hGrows
  have hPlace : ∀ body ∈ w.model.bodies, body.InPlace := by
    intro body' hBody'
    obtain ⟨body, hBody, hSame⟩ := Outcome.exists_of_mem hBodies body' hBody'
    exact hSame.inPlace (ClassModel.inPlace_of_parse hParse body hBody)
  exact ⟨hGrows, fun e => ClassModel.not_isMisfit_of_serialize hPlace,
    hBodies.imp fun _ _ hSame => hSame.sameLength⟩

theorem Renamer.skeleton_of_rewrite_caller : ∃ (r : Renamer) (h h' : Hierarchy),
    ClassModel.parse Capture.callerFile = .ok (Capture.caller "m") ∧
      (r.rewrite (Capture.caller "m")).run h = (.ok ⟨Capture.caller "n", []⟩, h') ∧
      (Capture.caller "m").skeleton.GrowsTo (Capture.caller "n").skeleton ∧
      (∀ e, (Capture.caller "n").serialize = .error e → ¬ e.IsMisfit) ∧
      List.Forall₂ Code.SameLength (Capture.caller "m").bodies (Capture.caller "n").bodies := by
  obtain ⟨r, h, h', -, -, hRun⟩ := Capture.exists_rewrite_caller
  exact ⟨r, h, h', Capture.parse_callerFile, hRun,
    skeleton_of_rewrite Capture.parse_callerFile hRun⟩

end Renaming
