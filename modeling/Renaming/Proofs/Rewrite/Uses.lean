import Renaming.Proofs.Hierarchy.Declarers
import Renaming.Proofs.Rewrite.CleanRun

/-!
# Uses of members

Besides the references to members proper, the constants of enumerations in annotations and the call
sites of lambda expressions name members of classes. Every part of a class lists its uses in order,
and rewriting goes through them in place: each gets the name that goes with the declaration that is
found for it.
-/

namespace Renaming

open Effectful Hierarchy Rewriting

/-- A place that names a member. -/
inductive MemberUse where
  | member (reference : MemberRef)
  /-- The constant of an enumeration as the value of an element of an annotation. -/
  | enumConstant (type name : String)
  | callSite (bootstrap : UInt16) (site : NameAndType)

namespace MemberUse

def name : MemberUse → String
  | member r => r.name
  | enumConstant _ name => name
  | callSite _ site => site.name

/-- The descriptor of the member, where it stands with the name. That of a call site is another one. -/
def descriptor? : MemberUse → Option String
  | member r => some r.descriptor
  | enumConstant type _ => some type
  | callSite .. => none

/-- The use refers to a member of the given kind by the given key, in a class with the bootstrap
methods `methods`. A call site does so if it makes a lambda: it returns the interface whose method is
meant, and the first argument of its bootstrap method is the descriptor of that. -/
inductive Means (methods : List BootstrapMethod) : MemberUse → MemberKind → MemberKey → Prop
  | member (r : MemberRef) : Means methods (.member r) r.kind r.key
  | enumConstant {type owner : String} (name : String) (hType : type = "L" ++ owner ++ ";") :
    Means methods (.enumConstant type name) .field ⟨owner, name, type⟩
  | lambda {bootstrap : UInt16} {site : NameAndType} {m : BootstrapMethod} {kind : UInt8}
      {factory : MemberRef} {erased interface : String} {d : MethodDescriptor}
      (hEntry : methods[bootstrap.toNat]? = some m) (hFactory : m.method = .methodHandle kind factory)
      (hOwner : factory.owner = "java/lang/invoke/LambdaMetafactory")
      (hName : factory.name = "metafactory" ∨ factory.name = "altMetafactory")
      (hErased : m.arguments.head? = some (.methodType erased))
      (hSite : MethodDescriptor.parse site.descriptor = .ok d)
      (hReturn : d.returnType = some (.object interface)) :
    Means methods (.callSite bootstrap site) .method ⟨interface, site.name, erased⟩

variable {methods : List BootstrapMethod} {kind : MemberKind} {key : MemberKey}

theorem Means.descriptor_eq {u : MemberUse} (h : u.Means methods kind key) :
    ∀ d ∈ u.descriptor?, d = key.descriptor := by
  intro d hd
  cases h with
  | lambda => cases hd
  | _ =>
    cases hd
    rfl

end MemberUse

theorem objectType?_eq (owner : String) : objectType? ("L" ++ owner ++ ";") = some owner := by
  have hStart : Text.stripStart? "L" ("L" ++ owner ++ ";") = some (owner ++ ";") :=
    Text.stripStart?_eq_some.mpr (String.append_assoc ..)
  have hEnd : Text.stripEnd? ";" (owner ++ ";") = some owner := by
    rw [Text.stripEnd?, String.toList_append,
      if_pos (List.isSuffixOf_iff_suffix.mpr (List.suffix_append _ _)), List.length_append,
      Nat.add_sub_cancel, List.take_left, String.ofList_toList]
  rw [objectType?, hStart]
  exact hEnd

theorem Site.lambdaMethod?_of_means {s : Site} {bootstrap : UInt16} {site : NameAndType}
    {kind : MemberKind} {key : MemberKey}
    (h : (MemberUse.callSite bootstrap site).Means s.bootstrapMethods kind key) :
    kind = .method ∧ s.lambdaMethod? bootstrap site = some key := by
  cases h with
  | lambda hEntry hFactory hOwner hName hErased hSite hReturn =>
    refine ⟨rfl, ?_⟩
    rcases hName with hName | hName <;>
      simp [lambdaMethod?, lambdaFactory, hEntry, hFactory, hOwner, hName, hErased, hSite, hReturn,
        Except.toOption]

def Constant.uses : Constant → List MemberUse
  | member r | methodHandle _ r => [.member r]
  | _ => []

def Operand.uses : Operand → List MemberUse
  | constant c => c.uses
  | member r | invokeInterface r _ => [.member r]
  | invokeDynamic bootstrap site => [.callSite bootstrap site]
  | _ => []

def Instruction.uses (i : Instruction) : List MemberUse := i.operand.uses

namespace ElementValue

mutual

def uses : ElementValue → List MemberUse
  | enum type name => [.enumConstant type name]
  | nested _ elements => elementUses elements
  | array values => listUses values
  | _ => []

def elementUses : List (String × ElementValue) → List MemberUse
  | [] => []
  | (_, value) :: rest => uses value ++ elementUses rest

def listUses : List ElementValue → List MemberUse
  | [] => []
  | value :: rest => uses value ++ listUses rest

end

end ElementValue

def Annotation.uses (a : Annotation) : List MemberUse := ElementValue.elementUses a.elements

def BootstrapMethod.uses (m : BootstrapMethod) : List MemberUse :=
  m.method.uses ++ m.arguments.flatMap Constant.uses

/-- The method that encloses a class is one of the owner. -/
def PlainAttribute.uses : PlainAttribute → List MemberUse
  | enclosingMethod owner method =>
    method.toList.map fun m => .member ⟨.method, owner, m.name, m.descriptor⟩
  | annotations _ as => as.flatMap Annotation.uses
  | parameterAnnotations _ parameters => parameters.flatMap (List.flatMap Annotation.uses)
  | typeAnnotations _ as => as.flatMap fun a => a.annotation.uses
  | annotationDefault value => value.uses
  | bootstrapMethods methods => methods.flatMap BootstrapMethod.uses
  | _ => []

namespace Attribute

mutual

def uses : Attribute → List MemberUse
  | code ⟨_, _, instructions, _, attributes⟩ =>
    instructions.flatMap Instruction.uses ++ listUses attributes
  | record components => componentUses components
  | plain a => a.uses

def listUses : List Attribute → List MemberUse
  | [] => []
  | a :: rest => uses a ++ listUses rest

def componentUses : List (RecordComponent Attribute) → List MemberUse
  | [] => []
  | ⟨_, _, attributes⟩ :: rest => listUses attributes ++ componentUses rest

end

end Attribute

def Member.uses (m : Member) : List MemberUse := Attribute.listUses m.attributes

/-- The uses of members in a class: in its fields, in its methods and in its attributes. -/
def ClassModel.uses (c : ClassModel) : List MemberUse :=
  c.fields.flatMap Member.uses ++ c.methods.flatMap Member.uses ++ c.attributes.flatMap Attribute.uses

/-- Arrays keep the names of their members, and methods whose name starts with an angle bracket keep
it. -/
def MemberKey.keepsName (key : MemberKey) (kind : MemberKind) : Bool :=
  Text.startsWith '[' key.owner || (kind ≠ .field && Text.startsWith '<' key.name)

namespace Renamer

def newMember? (r : Renamer) (kind : MemberKind) (key : MemberKey) : Option String :=
  match kind with
  | .field => r.newField? key
  | .method | .interfaceMethod => r.newMethod? key

/-- A use that refers to `key` gets the name `new`: that of the declaration which the hierarchy `h`
finds for it. Where there is none but an entry for the key itself, a diagnostic is noted, which is not
one of the `Bad` ones. -/
structure NameRewritten (r : Renamer) (h : Hierarchy) (Bad : Diagnostic → Prop) (kind : MemberKind)
    (key : MemberKey) (new : String) : Prop where
  kept : key.keepsName kind = true → new = key.name
  declared : key.keepsName kind = false → ∀ d, h.declarer? kind key = some d →
    new = (r.newMember? kind { key with owner := d.name }).getD key.name
  undeclared : key.keepsName kind = false → h.declarer? kind key = none →
    new = (r.newMember? kind key).getD key.name ∧ ∀ entry, r.newMember? kind key = some entry →
      ∃ subject, ¬ Bad (.ambiguousReference
        (MemberRef.mk kind key.owner key.name key.descriptor).text entry subject)

/-- The use `u` is rewritten to `u'` in a class with the bootstrap methods `methods`. -/
structure UseRewritten (r : Renamer) (methods : List BootstrapMethod) (h : Hierarchy)
    (Bad : Diagnostic → Prop) (u u' : MemberUse) : Prop where
  descriptor : Option.Rel (fun a b => Descriptor.rename r.table.newClass? a = .ok b) u.descriptor?
    u'.descriptor?
  name : ∀ kind key, u.Means methods kind key → r.NameRewritten h Bad kind key u'.name

theorem UseRewritten.rename_descriptor {r : Renamer} {methods : List BootstrapMethod} {h : Hierarchy}
    {Bad : Diagnostic → Prop} {u u' : MemberUse} {kind : MemberKind} {key : MemberKey}
    (hUse : r.UseRewritten methods h Bad u u') (hMeans : u.Means methods kind key) :
    ∀ text ∈ u'.descriptor?, Descriptor.rename r.table.newClass? key.descriptor = .ok text := by
  intro text hText
  have hRel := hUse.descriptor
  rw [Option.mem_def.mp hText] at hRel
  cases hOld : u.descriptor? with
  | none =>
    rw [hOld] at hRel
    cases hRel
  | some old =>
    rw [hOld] at hRel
    cases hRel with
    | some hRename => exact hMeans.descriptor_eq old hOld ▸ hRename

end Renamer

namespace Site

variable {s : Site} {h : Hierarchy} {Bad : Diagnostic → Prop}

def Rewrites (s : Site) (h : Hierarchy) (Bad : Diagnostic → Prop) :
    List MemberUse → List MemberUse → Prop :=
  List.Forall₂ (s.renamer.UseRewritten s.bootstrapMethods h Bad)

section Names

variable {kind : MemberKind} {key : MemberKey}

theorem yields_askOwner (hh : h.Fits h.view) (kind : MemberKind) (key : MemberKey) :
    Yields (Fits h.view) Bad (askDeclaration (memberOwner kind key)) fun found =>
      h.declarer? kind key = found := by
  refine yields_askDeclaration fun h' hh' => ⟨?_, fun found hFound => ?_, fun through hCycle => ?_⟩
  · cases kind with
    | field => exact (allows_fits h.view).fieldOwner h' key hh'
    | method => exact (allows_fits h.view).methodOwner h' key hh'
    | interfaceMethod => exact (allows_fits h.view).methodOwner h' key hh'
  · rw [declarer?_congr hh hh', declarer?_of_ok hFound]
  · rw [declarer?_congr hh hh', declarer?_of_error hCycle]

theorem nameRewritten_of_kept (r : Renamer) (hKeeps : key.keepsName kind = true) :
    r.NameRewritten h Bad kind key key.name := by
  refine ⟨fun _ => rfl, fun hNot => ?_, fun hNot => ?_⟩
  · rw [hKeeps] at hNot
    cases hNot
  · rw [hKeeps] at hNot
    cases hNot

theorem nameRewritten_of_declared (r : Renamer) (hKeeps : key.keepsName kind = false) {d : ClassModel}
    (hFound : h.declarer? kind key = some d) :
    r.NameRewritten h Bad kind key
      ((r.newMember? kind { key with owner := d.name }).getD key.name) := by
  refine ⟨fun hKept => ?_, fun _ d' hd' => ?_, fun _ hNone => ?_⟩
  · rw [hKeeps] at hKept
    cases hKept
  · rw [hFound] at hd'
    cases hd'
    rfl
  · rw [hFound] at hNone
    cases hNone

theorem nameRewritten_of_undeclared {r : Renamer} (hKeeps : key.keepsName kind = false)
    (hNone : h.declarer? kind key = none) (hNoted : ∀ entry, r.newMember? kind key = some entry →
      ∃ subject, ¬ Bad (.ambiguousReference
        (MemberRef.mk kind key.owner key.name key.descriptor).text entry subject)) :
    r.NameRewritten h Bad kind key ((r.newMember? kind key).getD key.name) := by
  refine ⟨fun hKept => ?_, fun _ d hd => ?_, fun _ _ => ⟨rfl, hNoted⟩⟩
  · rw [hKeeps] at hKept
    cases hKept
  · rw [hNone] at hd
    cases hd

theorem yields_undeclared_use (hKeeps : key.keepsName kind = false) :
    Yields (Fits h.view) Bad (s.undeclared kind key (s.renamer.newMember? kind key)) fun new =>
      h.declarer? kind key = none → s.renamer.NameRewritten h Bad kind key new := by
  cases hEntry : s.renamer.newMember? kind key with
  | none =>
    refine yields_pure fun hNone => ?_
    have hName : s.renamer.NameRewritten h Bad kind key _ :=
      nameRewritten_of_undeclared hKeeps hNone fun entry hSome => by
        rw [hEntry] at hSome
        cases hSome
    rwa [hEntry] at hName
  | some new =>
    by_cases hBad : Bad (.ambiguousReference
        (MemberRef.mk kind key.owner key.name key.descriptor).text new s.subject)
    · exact yields_note_bind (Or.inl hBad)
    · refine yields_note_bind (Or.inr fun hNone => ?_)
      have hName := nameRewritten_of_undeclared hKeeps hNone fun entry hSome => by
        rw [hEntry, Option.some.injEq] at hSome
        exact ⟨s.subject, hSome ▸ hBad⟩
      rwa [hEntry] at hName

theorem yields_fieldName_use (hh : h.Fits h.view) (key : MemberKey) :
    Yields (Fits h.view) Bad (s.fieldName key) (s.renamer.NameRewritten h Bad .field key) := by
  have hKeeps : key.keepsName .field = Text.startsWith '[' key.owner := Bool.or_false _
  rw [fieldName]
  split
  · rename_i hArray
    exact yields_pure (nameRewritten_of_kept _ (hKeeps.trans hArray))
  · rename_i hArray
    rw [Bool.not_eq_true, ← hKeeps] at hArray
    refine yields_bind (yields_askOwner hh .field key) fun found => ?_
    cases found with
    | some d => exact yields_pure (nameRewritten_of_declared _ hArray)
    | none => exact yields_undeclared_use hArray

theorem yields_methodName_use (hh : h.Fits h.view) (kind : MemberKind) (hKind : kind ≠ .field)
    (key : MemberKey) :
    Yields (Fits h.view) Bad (s.methodName key) (s.renamer.NameRewritten h Bad kind key) := by
  have hMethod :
      Yields (Fits h.view) Bad (s.methodName key) (s.renamer.NameRewritten h Bad .method key) := by
    have hKeeps : key.keepsName .method =
        (Text.startsWith '[' key.owner || Text.startsWith '<' key.name) := rfl
    rw [methodName]
    split
    · rename_i hKept
      exact yields_pure (nameRewritten_of_kept _ (hKeeps.trans hKept))
    · rename_i hKept
      rw [Bool.not_eq_true, ← hKeeps] at hKept
      refine yields_bind (yields_askOwner hh .method key) fun found => ?_
      cases found with
      | some d => exact yields_pure (nameRewritten_of_declared _ hKept)
      | none => exact yields_undeclared_use hKept
  cases kind with
  | field => exact absurd rfl hKind
  | method => exact hMethod
  -- References to methods of classes and of interfaces are the same text and are looked up alike.
  | interfaceMethod => exact hMethod.mono fun _ hName => ⟨hName.kept, hName.declared, hName.undeclared⟩

end Names

theorem rewrites_append {us vs us' vs' : List MemberUse} (h₁ : s.Rewrites h Bad us us')
    (h₂ : s.Rewrites h Bad vs vs') : s.Rewrites h Bad (us ++ vs) (us' ++ vs') :=
  List.rel_append h₁ h₂

theorem rewrites_flatMap {α : Type} {p : α → List MemberUse} {as bs : List α}
    (hEach : List.Forall₂ (fun a b => s.Rewrites h Bad (p a) (p b)) as bs) :
    s.Rewrites h Bad (as.flatMap p) (bs.flatMap p) :=
  List.rel_flatMap hEach fun _ _ hab => hab

theorem yields_flatMap_uses {α : Type} {p : α → List MemberUse} {f : α → Rewriting α} (as : List α)
    (hf : ∀ a, Yields (Fits h.view) Bad (f a) fun b => s.Rewrites h Bad (p a) (p b)) :
    Yields (Fits h.view) Bad (as.mapM f) fun bs => s.Rewrites h Bad (as.flatMap p) (bs.flatMap p) :=
  (yields_mapM fun a _ => hf a).mono fun _ hEach => rewrites_flatMap hEach

theorem rewrites_member {a b : MemberRef}
    (hDescriptor : Descriptor.rename s.renamer.table.newClass? a.descriptor = .ok b.descriptor)
    (hName : s.renamer.NameRewritten h Bad a.kind a.key b.name) :
    s.Rewrites h Bad [.member a] [.member b] := by
  refine .cons ⟨.some hDescriptor, fun kind key hMeans => ?_⟩ .nil
  cases hMeans
  exact hName

section Walk

variable (hh : h.Fits h.view)

include hh

theorem yields_memberRef_use (a : MemberRef) : Yields (Fits h.view) Bad (s.memberRef a) fun b =>
    s.Rewrites h Bad [.member a] [.member b] := by
  refine (yields_memberRef (P := s.renamer.NameRewritten h Bad a.kind a.key) (fun hField => ?_)
    fun hMethod => yields_methodName_use hh a.kind hMethod a.key).mono fun b hb => ?_
  · rw [hField]
    exact yields_fieldName_use hh a.key
  · obtain ⟨-, -, hName, hDescriptor⟩ := hb
    exact rewrites_member hDescriptor hName

theorem yields_constant_uses (c : Constant) : Yields (Fits h.view) Bad (s.constant c) fun c' =>
    s.Rewrites h Bad c.uses c'.uses := by
  cases c with
  | classRef name => exact yields_map (yields_classReference name) fun _ _ => .nil
  | member r => exact yields_map (yields_memberRef_use hh r) fun _ hr => hr
  | nameAndType v => exact yields_map (yields_nameAndType v) fun _ _ => .nil
  | methodHandle kind r => exact yields_map (yields_memberRef_use hh r) fun _ hr => hr
  | methodType text => exact yields_map (yields_descriptor text) fun _ _ => .nil
  | dynamic bootstrap v => exact yields_map (yields_nameAndType v) fun _ _ => .nil
  | invokeDynamic bootstrap v => exact yields_map (yields_nameAndType v) fun _ _ => .nil
  | _ => exact yields_pure .nil

theorem yields_bootstrapMethod_uses (m : BootstrapMethod) :
    Yields (Fits h.view) Bad (s.bootstrapMethod m) fun m' => s.Rewrites h Bad m.uses m'.uses := by
  refine yields_bind (yields_mapM fun c _ => yields_constant_uses hh c) fun arguments => ?_
  exact yields_map (yields_constant_uses hh m.method) fun _ hMethod hArguments =>
    rewrites_append hMethod (rewrites_flatMap hArguments)

theorem yields_callSite_use (bootstrap : UInt16) (v : NameAndType) :
    Yields (Fits h.view) Bad (s.callSite bootstrap v) fun v' =>
      s.Rewrites h Bad [.callSite bootstrap v] [.callSite bootstrap v'] := by
  have hRest : ∀ new, Yields (Fits h.view) Bad (do return ⟨new, ← s.descriptor v.descriptor⟩)
      fun v' : NameAndType => (∀ key, s.lambdaMethod? bootstrap v = some key →
        s.renamer.NameRewritten h Bad .method key new) →
          s.Rewrites h Bad [.callSite bootstrap v] [.callSite bootstrap v'] := by
    refine fun new => yields_map (yields_descriptor v.descriptor) fun _ _ hName => ?_
    refine .cons ⟨.none, fun kind key hMeans => ?_⟩ .nil
    obtain ⟨rfl, hKey⟩ := lambdaMethod?_of_means hMeans
    exact hName key hKey
  rw [callSite]
  split
  · rename_i key hKey
    refine yields_bind (yields_methodName_use hh .method MemberKind.noConfusion key) fun new => ?_
    refine (hRest new).mono fun _ hUse hName => hUse fun key' hKey' => ?_
    rw [hKey, Option.some.injEq] at hKey'
    exact hKey' ▸ hName
  · rename_i hNone
    exact (hRest v.name).mono fun _ hUse => hUse fun key hKey => by
      rw [hNone] at hKey
      cases hKey

theorem yields_operand_uses (o : Operand) : Yields (Fits h.view) Bad (s.operand o) fun o' =>
    s.Rewrites h Bad o.uses o'.uses := by
  cases o with
  | constant c => exact yields_map (yields_constant_uses hh c) fun _ hc => hc
  | member r => exact yields_map (yields_memberRef_use hh r) fun _ hr => hr
  | invokeInterface r count => exact yields_map (yields_memberRef_use hh r) fun _ hr => hr
  | invokeDynamic bootstrap v => exact yields_map (yields_callSite_use hh bootstrap v) fun _ hv => hv
  | classRef name => exact yields_map (yields_classReference name) fun _ _ => .nil
  | multiArray name dimensions => exact yields_map (yields_classReference name) fun _ _ => .nil
  | _ => exact yields_pure .nil

theorem yields_instruction_uses (i : Instruction) : Yields (Fits h.view) Bad (s.instruction i)
    fun i' => s.Rewrites h Bad i.uses i'.uses :=
  yields_map (yields_operand_uses hh i.operand) fun _ ho => ho

theorem yields_enumConstant_use (type name : String) :
    Yields (Fits h.view) Bad (s.enumConstant type name) fun new =>
      ∀ owner, type = "L" ++ owner ++ ";" →
        s.renamer.NameRewritten h Bad .field ⟨owner, name, type⟩ new := by
  rw [enumConstant]
  split
  · rename_i owner hOwner
    refine (yields_fieldName_use hh _).mono fun new hName owner' hType => ?_
    rw [hType, objectType?_eq, Option.some.injEq] at hOwner
    exact hOwner ▸ hName
  · rename_i hNone
    refine yields_pure fun owner hType => ?_
    rw [hType, objectType?_eq] at hNone
    cases hNone

end Walk

mutual

theorem yields_elementValue_uses (hh : h.Fits h.view) (v : ElementValue) :
    Yields (Fits h.view) Bad (s.elementValue v) fun v' => s.Rewrites h Bad v.uses v'.uses := by
  cases v with
  | const tag value =>
    rw [elementValue]
    exact yields_pure .nil
  | enum type name =>
    rw [elementValue]
    refine yields_bind (yields_enumConstant_use hh type name) fun new => ?_
    refine yields_map (yields_descriptor type) fun _ hDescriptor hName => ?_
    refine .cons ⟨.some hDescriptor, fun kind key hMeans => ?_⟩ .nil
    cases hMeans with
    | enumConstant _ hType => exact hName _ hType
  | classLiteral text =>
    rw [elementValue]
    split
    · exact yields_pure .nil
    · exact yields_map (yields_descriptor text) fun _ _ => .nil
  | nested type elements =>
    rw [elementValue]
    refine yields_bind (yields_elementValues_uses hh (objectType? type) elements) fun elements' => ?_
    exact yields_map (yields_descriptor type) fun _ _ hElements => hElements
  | array values =>
    rw [elementValue]
    exact yields_map (yields_arrayValues_uses hh values) fun _ hValues => hValues

theorem yields_elementValues_uses (hh : h.Fits h.view) (type : Option String)
    (elements : List (String × ElementValue)) :
    Yields (Fits h.view) Bad (s.elementValues type elements) fun elements' =>
      s.Rewrites h Bad (ElementValue.elementUses elements) (ElementValue.elementUses elements') := by
  cases elements with
  | nil =>
    rw [elementValues]
    exact yields_pure .nil
  | cons element rest =>
    obtain ⟨name, value⟩ := element
    have hRest : ∀ name, Yields (Fits h.view) Bad (do
        let value ← s.elementValue value
        return (name, value) :: (← s.elementValues type rest)) fun elements' =>
          s.Rewrites h Bad (ElementValue.elementUses ((name, value) :: rest))
            (ElementValue.elementUses elements') := by
      intro name
      refine yields_bind (yields_elementValue_uses hh value) fun value' => ?_
      exact yields_map (yields_elementValues_uses hh type rest) fun _ hRest hValue =>
        rewrites_append hValue hRest
    rw [elementValues.eq_def]
    cases type with
    | none => exact hRest name
    | some type =>
      refine yields_bind ((composed_elementName type name).yields_any (allows_fits h.view))
        fun name => ?_
      exact (hRest name).mono fun _ hElements _ => hElements

theorem yields_arrayValues_uses (hh : h.Fits h.view) (values : List ElementValue) :
    Yields (Fits h.view) Bad (s.arrayValues values) fun values' =>
      s.Rewrites h Bad (ElementValue.listUses values) (ElementValue.listUses values') := by
  cases values with
  | nil =>
    rw [arrayValues]
    exact yields_pure .nil
  | cons value rest =>
    rw [arrayValues]
    refine yields_bind (yields_elementValue_uses hh value) fun value' => ?_
    exact yields_map (yields_arrayValues_uses hh rest) fun _ hRest hValue => rewrites_append hValue hRest

end

section Walk

variable (hh : h.Fits h.view)

include hh

theorem yields_annotated_uses (a : Annotation) :
    Yields (Fits h.view) Bad (s.annotated a) fun a' => s.Rewrites h Bad a.uses a'.uses := by
  refine yields_bind (yields_elementValues_uses hh (objectType? a.type) a.elements) fun elements' => ?_
  exact yields_map (yields_descriptor a.type) fun _ _ hElements => hElements

theorem yields_enclosingMethod_use (owner : String) (m : NameAndType) :
    Yields (Fits h.view) Bad (s.enclosingMethod owner m) fun m' => ∀ owner',
      s.Rewrites h Bad [.member ⟨.method, owner, m.name, m.descriptor⟩]
        [.member ⟨.method, owner', m'.name, m'.descriptor⟩] := by
  refine yields_bind (yields_methodName_use hh .method MemberKind.noConfusion _) fun new => ?_
  exact yields_map (yields_descriptor m.descriptor) fun _ hDescriptor hName owner' =>
    rewrites_member hDescriptor hName

theorem yields_plainAttribute_uses (kind : SignatureKind) (a : PlainAttribute) :
    Yields (Fits h.view) Bad (s.plainAttribute kind a) fun a' => s.Rewrites h Bad a.uses a'.uses := by
  have hAllows : Allows (Fits h.view) := allows_fits h.view
  cases a with
  | enclosingMethod owner method =>
    refine yields_map (yields_optionMapM method (yields_enclosingMethod_use hh owner))
      fun method' hMethod => ?_
    cases hMethod with
    | none => exact .nil
    | some hUse => exact hUse _
  | annotations visibility as =>
    exact yields_map (yields_flatMap_uses as (yields_annotated_uses hh)) fun _ hAll => hAll
  | parameterAnnotations visibility parameters =>
    exact yields_map (yields_flatMap_uses parameters fun as =>
      yields_flatMap_uses as (yields_annotated_uses hh)) fun _ hAll => hAll
  | typeAnnotations visibility as =>
    exact yields_map (yields_flatMap_uses as fun a =>
      yields_map (yields_annotated_uses hh a.annotation) fun _ ha => ha) fun _ hAll => hAll
  | annotationDefault value => exact yields_map (yields_elementValue_uses hh value) fun _ hv => hv
  | bootstrapMethods methods =>
    exact yields_map (yields_flatMap_uses methods (yields_bootstrapMethod_uses hh)) fun _ hAll => hAll
  | stackMapTable frames =>
    exact yields_map ((Composed.mapM composed_stackMapFrame frames).yields_any hAllows) fun _ _ => .nil
  | signature text =>
    exact yields_map ((composed_signature kind text).yields_any hAllows) fun _ _ => .nil
  | localVariables entries =>
    exact yields_map ((Composed.mapM composed_localVariable entries).yields_any hAllows) fun _ _ => .nil
  | localVariableTypes entries =>
    exact yields_map ((Composed.mapM composed_localVariableType entries).yields_any hAllows)
      fun _ _ => .nil
  | _ => exact yields_pure .nil

end Walk

mutual

theorem yields_rewriteAttribute_uses (hh : h.Fits h.view) (kind : SignatureKind) (a : Attribute) :
    Yields (Fits h.view) Bad (s.rewriteAttribute kind a) fun a' =>
      s.Rewrites h Bad a.uses a'.uses := by
  cases a with
  | code body =>
    obtain ⟨maxStack, maxLocals, instructions, handlers, attributes⟩ := body
    rw [rewriteAttribute]
    refine yields_bind (yields_flatMap_uses instructions (yields_instruction_uses hh))
      fun instructions' => ?_
    exact yields_map (yields_rewriteAttributes_uses hh .ofField attributes)
      fun _ hAttributes hInstructions => rewrites_append hInstructions hAttributes
  | record components =>
    rw [rewriteAttribute]
    exact yields_map (yields_rewriteComponents_uses hh components) fun _ hAll => hAll
  | plain a =>
    rw [rewriteAttribute]
    exact yields_map (yields_plainAttribute_uses hh kind a) fun _ ha => ha

theorem yields_rewriteAttributes_uses (hh : h.Fits h.view) (kind : SignatureKind)
    (as : List Attribute) :
    Yields (Fits h.view) Bad (s.rewriteAttributes kind as) fun as' =>
      s.Rewrites h Bad (Attribute.listUses as) (Attribute.listUses as') := by
  cases as with
  | nil =>
    rw [rewriteAttributes]
    exact yields_pure .nil
  | cons a rest =>
    rw [rewriteAttributes]
    refine yields_bind (yields_rewriteAttribute_uses hh kind a) fun a' => ?_
    exact yields_map (yields_rewriteAttributes_uses hh kind rest) fun _ hRest ha =>
      rewrites_append ha hRest

theorem yields_rewriteComponents_uses (hh : h.Fits h.view)
    (components : List (RecordComponent Attribute)) :
    Yields (Fits h.view) Bad (s.rewriteComponents components) fun components' =>
      s.Rewrites h Bad (Attribute.componentUses components)
        (Attribute.componentUses components') := by
  cases components with
  | nil =>
    rw [rewriteComponents]
    exact yields_pure .nil
  | cons component rest =>
    obtain ⟨name, descriptor, attributes⟩ := component
    rw [rewriteComponents]
    refine yields_bind (yields_descriptor descriptor) fun descriptor' => ?_
    refine yields_bind (yields_rewriteAttributes_uses hh .ofField attributes) fun attributes' => ?_
    exact yields_map (yields_rewriteComponents_uses hh rest) fun _ hRest hAttributes _ =>
      rewrites_append hAttributes hRest

end

section Class

variable (hh : h.Fits h.view) (hBad : ∀ member text, Bad (.memberKept member text))

include hh hBad

theorem yields_field_uses (m : Member) :
    Yields (Fits h.view) Bad (orKeep m ((s.atMember .field m).field m)) fun m' =>
      s.Rewrites h Bad m.uses m'.uses := by
  refine yields_orKeep (fun _ _ => Or.inl (hBad _ _)) (yields_bind
    (yields_descriptor m.descriptor) fun descriptor => ?_)
  exact yields_map (yields_rewriteAttributes_uses hh .ofField m.attributes) fun _ hAll _ => hAll

theorem yields_method_uses (m : Member) :
    Yields (Fits h.view) Bad (orKeep m ((s.atMember .method m).method m)) fun m' =>
      s.Rewrites h Bad m.uses m'.uses := by
  refine yields_orKeep (fun _ _ => Or.inl (hBad _ _)) (yields_bind
    (yields_descriptor m.descriptor) fun descriptor => ?_)
  exact yields_map (yields_rewriteAttributes_uses hh .ofMethod m.attributes) fun _ hAll _ => hAll

theorem yields_rewriteClass_uses (c : ClassModel) :
    Yields (Fits h.view) Bad (s.rewriteClass c) fun c' => s.Rewrites h Bad c.uses c'.uses := by
  refine yields_bind (yields_flatMap_uses c.fields (yields_field_uses hh hBad)) fun fields => ?_
  refine yields_bind (yields_flatMap_uses c.methods (yields_method_uses hh hBad)) fun methods => ?_
  refine yields_map (yields_flatMap_uses c.attributes fun a =>
    yields_orKeep (fun _ _ => Or.inl (hBad _ _)) (yields_rewriteAttribute_uses hh .ofClass a))
      fun attributes hAttributes hMethods hFields => ?_
  exact rewrites_append (rewrites_append hFields hMethods) hAttributes

end Class

end Site

end Renaming
