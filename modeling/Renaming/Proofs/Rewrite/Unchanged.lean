import Renaming.Proofs.Rewrite.Identity
import Renaming.Proofs.Rewrite.Packages
import Renaming.Proofs.Rewrite.Run

/-!
# Classes that stay as they are

A renamer that gives back all old names rewrites every class to itself. What is malformed in a class
is kept, so this needs nothing from the class.
-/

namespace Renaming

open Effectful

namespace Rewriting

variable {α β : Type}

/-- The step gives back what it was given. -/
abbrev Keeps (x : Rewriting α) (a : α) : Prop := Returns x (· = a)

theorem keeps_map {x : Rewriting α} {a : α} {g : α → β} {b : β} (hx : Keeps x a) (hg : g a = b) :
    Keeps (x >>= fun a => pure (g a)) b :=
  returns_map hx fun _ ha => (congrArg g ha).trans hg

theorem keeps_bind {x : Rewriting α} {a : α} {f : α → Rewriting β} {b : β} (hx : Keeps x a)
    (hf : Keeps (f a) b) : Keeps (x >>= f) b :=
  returns_bind hx fun a' ha => by rw [ha]; exact hf

theorem keeps_mapM {f : α → Rewriting α} {as : List α} (hf : ∀ a ∈ as, Keeps (f a) a) :
    Keeps (as.mapM f) as :=
  (returns_mapM (Q := fun a b => b = a) hf).mono fun _ hAll =>
    (List.forall₂_eq_eq_eq ▸ hAll.flip : _)

theorem keeps_optionMapM {f : α → Rewriting α} {o : Option α} (hf : ∀ a ∈ o, Keeps (f a) a) :
    Keeps (o.mapM f) o := by
  refine (returns_optionMapM (Q := fun a b => b = a) hf).mono fun o' hAll => ?_
  cases hAll with
  | none => rfl
  | some h => rw [h]

end Rewriting

namespace Renamer.Identical

variable {r : Renamer}

theorem className_eq (hr : r.Identical) (name : String) : r.className name = name :=
  hr.table.newClass?.apply_eq name

theorem map_className (hr : r.Identical) (names : List String) : names.map r.className = names := by
  rw [funext hr.className_eq]
  exact List.map_id' names

theorem getD_newField? (hr : r.Identical) (key : MemberKey) :
    (r.newField? key).getD key.name = key.name := by
  cases hNew : r.newField? key with
  | none => rfl
  | some new => exact hr.table.newField?_eq hNew

theorem getD_newMethod? (hr : r.Identical) (key : MemberKey) :
    (r.newMethod? key).getD key.name = key.name := by
  cases hNew : r.newMethod? key with
  | none => rfl
  | some new => exact hr.newMethod?_eq key new hNew

end Renamer.Identical

namespace Site

open Rewriting

variable {s : Site}

theorem keeps_classReference (hs : s.renamer.Identical) (text : String) :
    Keeps (s.classReference text) text := by
  rw [classReference]
  split
  · rename_i new hNew
    exact returns_pure (Descriptor.renameReference_of_identical hs.table.newClass? hNew)
  · exact returns_throw

theorem keeps_descriptor (hs : s.renamer.Identical) (text : String) :
    Keeps (s.descriptor text) text := by
  rw [Site.descriptor]
  split
  · rename_i new hNew
    exact returns_pure (Descriptor.rename_of_identical hs.table.newClass? hNew)
  · exact returns_throw

theorem keeps_signature (hs : s.renamer.Identical) (kind : SignatureKind) (text : String) :
    Keeps (s.signature kind text) text := by
  rw [signature]
  split
  · rename_i new hNew
    exact returns_pure (SignatureKind.rename_of_identical hs.table.newClass? hNew)
  · exact returns_bind returns_true fun _ _ => returns_pure rfl

theorem keeps_undeclared {kind : MemberKind} {key : MemberKey} {new : Option String}
    (hNew : ∀ name ∈ new, name = key.name) : Keeps (s.undeclared kind key new) key.name := by
  cases new with
  | none => exact returns_pure rfl
  | some name => exact returns_bind returns_true fun _ _ => returns_pure (hNew name rfl)

theorem keeps_methodName (hs : s.renamer.Identical) (key : MemberKey) :
    Keeps (s.methodName key) key.name := by
  rw [methodName]
  split
  · exact returns_pure rfl
  · refine returns_bind returns_true fun owner _ => ?_
    split
    · exact returns_pure (hs.getD_newMethod? _)
    · exact keeps_undeclared (hs.newMethod?_eq key)

theorem keeps_fieldName (hs : s.renamer.Identical) (key : MemberKey) :
    Keeps (s.fieldName key) key.name := by
  rw [fieldName]
  split
  · exact returns_pure rfl
  · refine returns_bind returns_true fun owner _ => ?_
    split
    · exact returns_pure (hs.getD_newField? _)
    · exact keeps_undeclared fun _ hNew => hs.table.newField?_eq hNew

theorem keeps_memberRef (hs : s.renamer.Identical) (r : MemberRef) : Keeps (s.memberRef r) r := by
  have hRest : Keeps (do
      return ⟨r.kind, ← s.classReference r.owner, r.name, ← s.descriptor r.descriptor⟩ :
        Rewriting MemberRef) r :=
    keeps_bind (keeps_classReference hs r.owner) (keeps_map (keeps_descriptor hs r.descriptor) rfl)
  rw [memberRef]
  dsimp only
  split
  · exact keeps_bind (keeps_fieldName hs _) hRest
  · exact keeps_bind (keeps_methodName hs _) hRest
  · exact keeps_bind (keeps_methodName hs _) hRest

theorem keeps_nameAndType (hs : s.renamer.Identical) (v : NameAndType) :
    Keeps (s.nameAndType v) v :=
  keeps_map (keeps_descriptor hs v.descriptor) rfl

theorem keeps_constant (hs : s.renamer.Identical) (c : Constant) : Keeps (s.constant c) c := by
  cases c with
  | classRef name => exact keeps_map (keeps_classReference hs name) rfl
  | member r => exact keeps_map (keeps_memberRef hs r) rfl
  | nameAndType v => exact keeps_map (keeps_nameAndType hs v) rfl
  | methodHandle kind r => exact keeps_map (keeps_memberRef hs r) rfl
  | methodType text => exact keeps_map (keeps_descriptor hs text) rfl
  | dynamic bootstrap v => exact keeps_map (keeps_nameAndType hs v) rfl
  | invokeDynamic bootstrap v => exact keeps_map (keeps_nameAndType hs v) rfl
  | _ => exact returns_pure rfl

theorem name_of_lambdaMethod? {bootstrap : UInt16} {v : NameAndType} {key : MemberKey}
    (h : s.lambdaMethod? bootstrap v = some key) : key.name = v.name := by
  obtain ⟨entry, -, h⟩ := Option.bind_eq_some_iff.mp h
  split at h
  · dsimp only at h
    split at h
    · cases h
    · split at h
      · cases h
      · obtain ⟨argument, -, h⟩ := Option.bind_eq_some_iff.mp h
        split at h
        · obtain ⟨site, -, h⟩ := Option.bind_eq_some_iff.mp h
          obtain ⟨type, -, h⟩ := Option.bind_eq_some_iff.mp h
          split at h
          · cases h
            rfl
          · cases h
        · cases h
  · cases h

theorem keeps_callSite (hs : s.renamer.Identical) (bootstrap : UInt16) (v : NameAndType) :
    Keeps (s.callSite bootstrap v) v := by
  have hRest : Keeps (do return ⟨v.name, ← s.descriptor v.descriptor⟩ : Rewriting NameAndType) v :=
    keeps_map (keeps_descriptor hs v.descriptor) rfl
  rw [callSite]
  split
  · rename_i key hKey
    refine keeps_bind (keeps_methodName hs key) ?_
    rw [name_of_lambdaMethod? hKey]
    exact hRest
  · exact hRest

theorem keeps_operand (hs : s.renamer.Identical) (o : Operand) : Keeps (s.operand o) o := by
  cases o with
  | constant c => exact keeps_map (keeps_constant hs c) rfl
  | member r => exact keeps_map (keeps_memberRef hs r) rfl
  | invokeInterface r count => exact keeps_map (keeps_memberRef hs r) rfl
  | invokeDynamic bootstrap v => exact keeps_map (keeps_callSite hs bootstrap v) rfl
  | classRef name => exact keeps_map (keeps_classReference hs name) rfl
  | multiArray name dimensions => exact keeps_map (keeps_classReference hs name) rfl
  | _ => exact returns_pure rfl

theorem keeps_instruction (hs : s.renamer.Identical) (i : Instruction) :
    Keeps (s.instruction i) i :=
  keeps_map (keeps_operand hs i.operand) rfl

theorem keeps_verificationType (hs : s.renamer.Identical) (t : VerificationType) :
    Keeps (s.verificationType t) t := by
  cases t with
  | object name => exact keeps_map (keeps_classReference hs name) rfl
  | _ => exact returns_pure rfl

theorem keeps_stackMapFrame (hs : s.renamer.Identical) (frame : StackMapFrame) :
    Keeps (s.stackMapFrame frame) frame := by
  have hTypes : ∀ types : List VerificationType, Keeps (types.mapM s.verificationType) types :=
    fun types => keeps_mapM fun t _ => keeps_verificationType hs t
  cases frame with
  | sameOne tag stack => exact keeps_map (keeps_verificationType hs stack) rfl
  | sameOneExtended delta stack => exact keeps_map (keeps_verificationType hs stack) rfl
  | append tag delta types => exact keeps_map (hTypes types) rfl
  | full delta types stack => exact keeps_bind (hTypes types) (keeps_map (hTypes stack) rfl)
  | _ => exact returns_pure rfl

theorem innerClass_eq (hs : s.renamer.Identical) (c : InnerClass) : s.innerClass c = c := by
  rw [innerClass, funext (f := s.className) hs.className_eq]
  simp

theorem keeps_enclosingMethod (hs : s.renamer.Identical) (owner : String) (m : NameAndType) :
    Keeps (s.enclosingMethod owner m) m :=
  keeps_bind (keeps_methodName hs _) (keeps_map (keeps_descriptor hs m.descriptor) rfl)

theorem sourceFile_eq (hs : s.renamer.Identical) (name : String) : s.sourceFile name = name := by
  rw [sourceFile]
  split
  · rename_i new hNew
    rw [hs.table.newClass? s.owner new hNew]
    simp
  · rfl

theorem keeps_localVariable (hs : s.renamer.Identical) (v : LocalVariable) :
    Keeps (s.localVariable v) v := by
  rw [localVariable]
  split
  · rename_i new hNew
    rw [Descriptor.renameField_of_identical hs.table.newClass? hNew]
    exact returns_pure rfl
  · exact returns_bind returns_true fun _ _ => returns_pure rfl

theorem keeps_localVariableType (hs : s.renamer.Identical) (v : LocalVariable) :
    Keeps (s.localVariableType v) v := by
  rw [localVariableType]
  split
  · rename_i new hNew
    rw [SignatureKind.rename_of_identical hs.table.newClass? hNew]
    exact returns_pure rfl
  · exact returns_bind returns_true fun _ _ => returns_pure rfl

theorem keeps_bootstrapMethod (hs : s.renamer.Identical) (m : BootstrapMethod) :
    Keeps (s.bootstrapMethod m) m :=
  keeps_bind (keeps_mapM fun c _ => keeps_constant hs c) (keeps_map (keeps_constant hs m.method) rfl)

theorem packageName_eq (hs : s.renamer.Identical) (package : String) :
    s.packageName package = package := by
  rw [packageName, hs.table.newPackage?_eq_none]
  rfl

theorem moduleInfo_eq (hs : s.renamer.Identical) (m : ModuleInfo) : s.moduleInfo m = m := by
  rw [moduleInfo, funext (packageName_eq hs), funext (f := s.className) hs.className_eq]
  simp

theorem modulePackages_eq (hs : s.renamer.Identical) (packages : List String) :
    s.modulePackages packages = packages := by
  obtain ⟨gained, hList, -, hDisjoint, hMem⟩ := s.exists_modulePackages_eq packages
  have hNone : gained = [] := by
    rw [List.eq_nil_iff_forall_not_mem]
    intro target hGained
    refine hDisjoint ?_ hGained
    rcases (hMem target).mp (List.mem_append_right _ hGained) with hListed | ⟨package, hListed, rfl⟩
    · exact hListed
    · rwa [packageName_eq hs]
  rw [hList, hNone, List.append_nil]

theorem keeps_elementName (hs : s.renamer.Identical) (type name : String) :
    Keeps (s.elementName type name) name := by
  refine returns_bind returns_true fun c _ => ?_
  dsimp only
  split
  · exact keeps_methodName hs _
  · refine returns_pure ?_
    cases hFound : s.renamer.table.methodEntries.find? _ with
    | none => rfl
    | some entry =>
      have hName := List.find?_some hFound
      simp only [Bool.and_eq_true, decide_eq_true_eq] at hName
      exact (hs.table.methods entry (List.mem_of_find?_eq_some hFound)).trans hName.1.2

theorem keeps_enumConstant (hs : s.renamer.Identical) (type name : String) :
    Keeps (s.enumConstant type name) name := by
  rw [enumConstant]
  split
  · exact keeps_fieldName hs _
  · exact returns_pure rfl

mutual

theorem keeps_elementValue (hs : s.renamer.Identical) (v : ElementValue) :
    Keeps (s.elementValue v) v := by
  cases v with
  | const tag value =>
    rw [elementValue]
    exact returns_pure rfl
  | enum type name =>
    rw [elementValue]
    exact keeps_bind (keeps_enumConstant hs type name) (keeps_map (keeps_descriptor hs type) rfl)
  | classLiteral text =>
    rw [elementValue]
    split
    · exact returns_pure rfl
    · exact keeps_map (keeps_descriptor hs text) rfl
  | nested type elements =>
    rw [elementValue]
    exact keeps_bind (keeps_elementValues hs (objectType? type) elements)
      (keeps_map (keeps_descriptor hs type) rfl)
  | array values =>
    rw [elementValue]
    exact keeps_map (keeps_arrayValues hs values) rfl

theorem keeps_elementValues (hs : s.renamer.Identical) (type : Option String)
    (elements : List (String × ElementValue)) :
    Keeps (s.elementValues type elements) elements := by
  cases elements with
  | nil =>
    rw [elementValues]
    exact returns_pure rfl
  | cons element rest =>
    obtain ⟨name, value⟩ := element
    have hRest : Keeps (do
        let value ← s.elementValue value
        return (name, value) :: (← s.elementValues type rest)) ((name, value) :: rest) :=
      keeps_bind (keeps_elementValue hs value) (keeps_map (keeps_elementValues hs type rest) rfl)
    rw [elementValues.eq_def]
    cases type with
    | none => exact hRest
    | some type => exact keeps_bind (keeps_elementName hs type name) hRest

theorem keeps_arrayValues (hs : s.renamer.Identical) (values : List ElementValue) :
    Keeps (s.arrayValues values) values := by
  cases values with
  | nil =>
    rw [arrayValues]
    exact returns_pure rfl
  | cons value rest =>
    rw [arrayValues]
    exact keeps_bind (keeps_elementValue hs value) (keeps_map (keeps_arrayValues hs rest) rfl)

end

theorem keeps_annotated (hs : s.renamer.Identical) (a : Annotation) : Keeps (s.annotated a) a :=
  keeps_bind (keeps_elementValues hs (objectType? a.type) a.elements)
    (keeps_map (keeps_descriptor hs a.type) rfl)

theorem keeps_plainAttribute (hs : s.renamer.Identical) (kind : SignatureKind)
    (a : PlainAttribute) : Keeps (s.plainAttribute kind a) a := by
  have hAnnotations : ∀ as : List Annotation, Keeps (as.mapM s.annotated) as :=
    fun as => keeps_mapM fun a _ => keeps_annotated hs a
  cases a with
  | stackMapTable frames =>
    exact keeps_map (keeps_mapM fun frame _ => keeps_stackMapFrame hs frame) rfl
  | exceptions classes => exact returns_pure (congrArg _ (hs.map_className classes))
  | innerClasses entries =>
    refine returns_pure (congrArg PlainAttribute.innerClasses ?_)
    rw [funext (innerClass_eq hs)]
    exact List.map_id' entries
  | enclosingMethod owner method =>
    exact keeps_map (keeps_optionMapM fun m _ => keeps_enclosingMethod hs owner m)
      (congrArg (PlainAttribute.enclosingMethod · method) (hs.className_eq owner))
  | signature text => exact keeps_map (keeps_signature hs kind text) rfl
  | sourceFile name => exact returns_pure (congrArg _ (sourceFile_eq hs name))
  | localVariables entries =>
    exact keeps_map (keeps_mapM fun v _ => keeps_localVariable hs v) rfl
  | localVariableTypes entries =>
    exact keeps_map (keeps_mapM fun v _ => keeps_localVariableType hs v) rfl
  | annotations visibility as => exact keeps_map (hAnnotations as) rfl
  | parameterAnnotations visibility parameters =>
    exact keeps_map (keeps_mapM fun as _ => hAnnotations as) rfl
  | typeAnnotations visibility as =>
    exact keeps_map (keeps_mapM fun a _ => keeps_map (keeps_annotated hs a.annotation) rfl) rfl
  | annotationDefault value => exact keeps_map (keeps_elementValue hs value) rfl
  | bootstrapMethods methods =>
    exact keeps_map (keeps_mapM fun m _ => keeps_bootstrapMethod hs m) rfl
  | nestHost name => exact returns_pure (congrArg _ (hs.className_eq name))
  | nestMembers classes => exact returns_pure (congrArg _ (hs.map_className classes))
  | permittedSubclasses classes => exact returns_pure (congrArg _ (hs.map_className classes))
  | moduleInfo info => exact returns_pure (congrArg _ (moduleInfo_eq hs info))
  | modulePackages packages => exact returns_pure (congrArg _ (modulePackages_eq hs packages))
  | moduleMainClass name => exact returns_pure (congrArg _ (hs.className_eq name))
  | _ => exact returns_pure rfl

theorem exceptionHandler_eq (hs : s.renamer.Identical) (h : ExceptionHandler) :
    s.exceptionHandler h = h := by
  rw [exceptionHandler, funext (f := s.className) hs.className_eq]
  simp

mutual

theorem keeps_rewriteAttribute (hs : s.renamer.Identical) (kind : SignatureKind) (a : Attribute) :
    Keeps (s.rewriteAttribute kind a) a := by
  cases a with
  | code body =>
    obtain ⟨maxStack, maxLocals, instructions, handlers, attributes⟩ := body
    have hHandlers : handlers.map s.exceptionHandler = handlers := by
      rw [funext (exceptionHandler_eq hs)]
      exact List.map_id' handlers
    rw [rewriteAttribute, hHandlers]
    exact keeps_bind (keeps_mapM fun i _ => keeps_instruction hs i)
      (keeps_map (keeps_rewriteAttributes hs .ofField attributes) rfl)
  | record components =>
    rw [rewriteAttribute]
    exact keeps_map (keeps_rewriteComponents hs components) rfl
  | plain a =>
    rw [rewriteAttribute]
    exact keeps_map (keeps_plainAttribute hs kind a) rfl

theorem keeps_rewriteAttributes (hs : s.renamer.Identical) (kind : SignatureKind)
    (as : List Attribute) : Keeps (s.rewriteAttributes kind as) as := by
  cases as with
  | nil =>
    rw [rewriteAttributes]
    exact returns_pure rfl
  | cons a rest =>
    rw [rewriteAttributes]
    exact keeps_bind (keeps_rewriteAttribute hs kind a)
      (keeps_map (keeps_rewriteAttributes hs kind rest) rfl)

theorem keeps_rewriteComponents (hs : s.renamer.Identical)
    (components : List (RecordComponent Attribute)) :
    Keeps (s.rewriteComponents components) components := by
  cases components with
  | nil =>
    rw [rewriteComponents]
    exact returns_pure rfl
  | cons component rest =>
    obtain ⟨name, descriptor, attributes⟩ := component
    have hName : s.componentName name descriptor = name := hs.getD_newField? _
    rw [rewriteComponents, hName]
    exact keeps_bind (keeps_descriptor hs descriptor)
      (keeps_bind (keeps_rewriteAttributes hs .ofField attributes)
        (keeps_map (keeps_rewriteComponents hs rest) rfl))

end

theorem keeps_field (hs : s.renamer.Identical) (m : Member) : Keeps (s.field m) m :=
  keeps_bind (keeps_descriptor hs m.descriptor)
    (keeps_map (keeps_rewriteAttributes hs .ofField m.attributes)
      (congrArg (Member.mk m.access · m.descriptor m.attributes) (hs.getD_newField? _)))

theorem keeps_method (hs : s.renamer.Identical) (m : Member) : Keeps (s.method m) m :=
  keeps_bind (keeps_descriptor hs m.descriptor)
    (keeps_map (keeps_rewriteAttributes hs .ofMethod m.attributes)
      (congrArg (Member.mk m.access · m.descriptor m.attributes) (hs.getD_newMethod? _)))

theorem keeps_rewriteClass (hs : s.renamer.Identical) (c : ClassModel) :
    Keeps (s.rewriteClass c) c := by
  refine keeps_bind (keeps_mapM fun m _ => returns_orKeep rfl
    (keeps_field (s := s.atMember .field m) hs m)) ?_
  refine keeps_bind (keeps_mapM fun m _ => returns_orKeep rfl
    (keeps_method (s := s.atMember .method m) hs m)) ?_
  refine keeps_map
    (keeps_mapM fun a _ => returns_orKeep rfl (keeps_rewriteAttribute hs .ofClass a)) ?_
  rw [funext (f := s.className) hs.className_eq]
  simp

end Site

/-- A class that is rewritten with all its old names is the same afterwards. -/
theorem Renamer.Identical.model_eq {r : Renamer} (hr : r.Identical) {c : ClassModel}
    {h h' : Hierarchy} {rewritten : Rewritten}
    (hRun : (r.rewrite c).run h = (.ok rewritten, h')) : rewritten.model = c := by
  obtain ⟨-, notes, hClass, -⟩ := Renamer.rewrite_eq_ok.mp hRun
  exact Site.keeps_rewriteClass hr c _ _ _ hClass

end Renaming
