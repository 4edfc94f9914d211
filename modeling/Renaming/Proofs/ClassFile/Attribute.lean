import Renaming.Proofs.Binary.Takes
import Renaming.Proofs.ClassFile.Entry

/-!
# Attributes that are written can be read

An attribute of a known name is read back as it was. One that is kept as bytes is read back with
the pool of the new file in place of its own (`Attribute.withPool`), so it comes back unchanged
exactly when that is the pool it was read with. As with element values, the depth that a reader is
allowed exceeds the length of the payload, and this is all that the nesting needs.
-/

namespace Renaming

open Stateful Decoder

variable {P : Pool} {K : Constant → Prop} {s t : Bytes}

namespace PlainAttribute

/-- What is required of the contents of an attribute. -/
def WellFormedPayload (K : Constant → Prop) : PlainAttribute → Prop
  | constantValue value => K value
  | stackMapTable frames => ∀ f ∈ frames, f.WellFormed K
  | exceptions classes | nestMembers classes | permittedSubclasses classes =>
    ∀ n ∈ classes, K (.classRef n)
  | innerClasses entries => ∀ c ∈ entries, c.WellFormed K
  | enclosingMethod owner method => K (.classRef owner) ∧ ∀ v ∈ method, K (.nameAndType v)
  | synthetic | deprecated | lineNumbers _ => True
  | signature text | sourceFile text => K (.utf8 text)
  | localVariables vs | localVariableTypes vs => ∀ v ∈ vs, v.WellFormed K
  | annotations _ as => ∀ a ∈ as, a.WellFormed K
  | parameterAnnotations _ parameters => ∀ as ∈ parameters, ∀ a ∈ as, a.WellFormed K
  | typeAnnotations _ as => ∀ a ∈ as, a.WellFormed K
  | annotationDefault value => value.WellFormed K
  | bootstrapMethods methods => ∀ m ∈ methods, m.WellFormed K
  | methodParameters parameters => ∀ p ∈ parameters, p.WellFormed K
  | nestHost name | moduleMainClass name => K (.classRef name)
  | moduleInfo info => info.WellFormed K
  | modulePackages packages => ∀ n ∈ packages, K (.package n)
  | unknown name _ _ => name ≠ "Code" ∧ name ≠ "Record" ∧ ∀ P, body P name = none

structure WellFormed (K : Constant → Prop) (a : PlainAttribute) : Prop where
  name : K (.utf8 a.name)
  payload : a.WellFormedPayload K

def withPool (P : Pool) : PlainAttribute → PlainAttribute
  | unknown name payload _ => unknown name payload P
  | a => a

theorem body_isSome (P P' : Pool) (name : String) :
    (body P name).isSome = (body P' name).isSome := by
  unfold body
  dsimp only
  split
  all_goals simp only [Option.isSome]

theorem of_body {name : String} {d : Decoder PlainAttribute} {a : PlainAttribute}
    (hBody : body P name = some d) (h : d s = .ok (a, t)) :
    a.name = name ∧ a.WellFormedPayload P.Holds ∧ ∀ P', a.withPool P' = a := by
  unfold body at hBody
  dsimp only at hBody
  split at hBody
  -- One case for each name that `body` knows, in its order, and the last one for all others.
  case h_28 => cases hBody
  all_goals cases hBody
  case h_1 =>
    obtain ⟨i, _, -, h⟩ := bind_eq_ok.mp h
    obtain ⟨c, _, hc, h⟩ := bind_eq_ok.mp h
    obtain ⟨rfl, -⟩ := pure_eq_ok.mp h
    exact ⟨rfl, (Pool.constant_eq_ok.mp (lift_eq_ok.mp hc).1).holds, fun _ => rfl⟩
  case h_2 =>
    obtain ⟨frames, hFrames, rfl⟩ := map_eq_ok.mp h
    refine ⟨rfl, fun f hf => ?_, fun _ => rfl⟩
    obtain ⟨s', t', hItem⟩ := list_eq_ok hFrames f hf
    exact StackMapFrame.wellFormed_of_decode hItem
  case h_3 | h_23 | h_24 =>
    obtain ⟨classes, hClasses, rfl⟩ := map_eq_ok.mp h
    exact ⟨rfl, holds_of_classes hClasses, fun _ => rfl⟩
  case h_4 =>
    obtain ⟨entries, hEntries, rfl⟩ := map_eq_ok.mp h
    refine ⟨rfl, fun c hc => ?_, fun _ => rfl⟩
    obtain ⟨s', t', hItem⟩ := list_eq_ok hEntries c hc
    exact InnerClass.wellFormed_of_decode hItem
  case h_5 =>
    obtain ⟨i, _, -, h⟩ := bind_eq_ok.mp h
    obtain ⟨j, _, -, h⟩ := bind_eq_ok.mp h
    obtain ⟨method, _, hMethod, h⟩ := bind_eq_ok.mp h
    obtain ⟨owner, _, hOwner, h⟩ := bind_eq_ok.mp h
    obtain ⟨rfl, -⟩ := pure_eq_ok.mp h
    refine ⟨rfl, ⟨(Pool.className_eq_ok.mp (lift_eq_ok.mp hOwner).1).holds, ?_⟩, fun _ => rfl⟩
    intro v hv
    have hLookup := Pool.optional_eq_ok (lift_eq_ok.mp hMethod).1 v hv
    exact (Pool.nameAndType_eq_ok.mp hLookup).holds
  case h_6 | h_7 =>
    obtain ⟨rfl, -⟩ := pure_eq_ok.mp h
    exact ⟨rfl, trivial, fun _ => rfl⟩
  case h_8 | h_9 =>
    obtain ⟨text, hText, rfl⟩ := map_eq_ok.mp h
    obtain ⟨i, hi⟩ := reference_eq_ok hText
    exact ⟨rfl, (Pool.utf8_eq_ok.mp hi).holds, fun _ => rfl⟩
  case h_10 =>
    obtain ⟨lines, -, rfl⟩ := map_eq_ok.mp h
    exact ⟨rfl, trivial, fun _ => rfl⟩
  case h_11 | h_12 =>
    obtain ⟨vs, hVariables, rfl⟩ := map_eq_ok.mp h
    refine ⟨rfl, fun v hv => ?_, fun _ => rfl⟩
    obtain ⟨s', t', hItem⟩ := list_eq_ok hVariables v hv
    exact LocalVariable.wellFormed_of_decode hItem
  case h_13 | h_14 =>
    obtain ⟨as, hAnnotations, rfl⟩ := map_eq_ok.mp h
    refine ⟨rfl, fun a ha => ?_, fun _ => rfl⟩
    obtain ⟨s', t', hItem⟩ := list_eq_ok hAnnotations a ha
    exact Annotation.wellFormed_of_decode hItem
  case h_15 | h_16 =>
    obtain ⟨parameters, hParameters, rfl⟩ := map_eq_ok.mp h
    refine ⟨rfl, fun as has a ha => ?_, fun _ => rfl⟩
    obtain ⟨s', t', hList⟩ := shortList_eq_ok hParameters as has
    obtain ⟨s', t', hItem⟩ := list_eq_ok hList a ha
    exact Annotation.wellFormed_of_decode hItem
  case h_17 | h_18 =>
    obtain ⟨as, hAnnotations, rfl⟩ := map_eq_ok.mp h
    refine ⟨rfl, fun a ha => ?_, fun _ => rfl⟩
    obtain ⟨s', t', hItem⟩ := list_eq_ok hAnnotations a ha
    exact TypeAnnotation.wellFormed_of_decode hItem
  case h_19 =>
    obtain ⟨value, hValue, rfl⟩ := map_eq_ok.mp h
    exact ⟨rfl, ElementValue.wellFormed_of_decode hValue, fun _ => rfl⟩
  case h_20 =>
    obtain ⟨methods, hMethods, rfl⟩ := map_eq_ok.mp h
    refine ⟨rfl, fun m hm => ?_, fun _ => rfl⟩
    obtain ⟨s', t', hItem⟩ := list_eq_ok hMethods m hm
    exact BootstrapMethod.wellFormed_of_decode hItem
  case h_21 =>
    obtain ⟨parameters, hParameters, rfl⟩ := map_eq_ok.mp h
    refine ⟨rfl, fun p hp => ?_, fun _ => rfl⟩
    obtain ⟨s', t', hItem⟩ := shortList_eq_ok hParameters p hp
    exact MethodParameter.wellFormed_of_decode hItem
  case h_22 | h_27 =>
    obtain ⟨name, hName, rfl⟩ := map_eq_ok.mp h
    obtain ⟨i, hi⟩ := reference_eq_ok hName
    exact ⟨rfl, (Pool.className_eq_ok.mp hi).holds, fun _ => rfl⟩
  case h_25 =>
    obtain ⟨info, hInfo, rfl⟩ := map_eq_ok.mp h
    exact ⟨rfl, ModuleInfo.wellFormed_of_decode hInfo, fun _ => rfl⟩
  case h_26 =>
    obtain ⟨packages, hPackages, rfl⟩ := map_eq_ok.mp h
    refine ⟨rfl, fun n hn => ?_, fun _ => rfl⟩
    obtain ⟨s', t', hItem⟩ := list_eq_ok hPackages n hn
    obtain ⟨i, hi⟩ := reference_eq_ok hItem
    exact (Pool.packageName_eq_ok.mp hi).holds

/-- The bytes `bs` are the payload of `a`, read as its name asks for. -/
def Stored (P : Pool) (bs : Bytes) (a : PlainAttribute) : Prop :=
  (∃ d, body P a.name = some d ∧ Reads d bs a ∧ a.withPool P = a) ∨
    ∃ pool, a = unknown a.name bs pool ∧ body P a.name = none ∧ a.name ≠ "Code" ∧
      a.name ≠ "Record"

theorem emits_encode (hK : Constant.Closed K) {a : PlainAttribute} (ha : a.WellFormedPayload K) :
    Encoder.Emits K a.encode fun P bs => Stored P bs a := by
  have hKnown {x : Encoder Bytes} {d : Pool → Decoder PlainAttribute}
      (hBody : ∀ P, body P a.name = some (d P)) (hPool : ∀ P, a.withPool P = a)
      (hx : Encoder.Emits K x fun P bs => Reads (d P) bs a) :
      Encoder.Emits K x fun P bs => Stored P bs a :=
    hx.imp fun P bs hRead => Or.inl ⟨d P, hBody P, hRead, hPool P⟩
  cases a with
  | constantValue value =>
    refine hKnown (fun _ => rfl) (fun _ => rfl) ?_
    rw [PlainAttribute.encode, Encoder.index, map_eq_pure_bind]
    refine (Encoder.emits_constant hK ha).bind fun i => .pure fun P hi => ?_
    exact (reads_u2 i).bind (Reads.lift_bind (Pool.constant_eq_ok.mpr hi) (Reads.pure _))
  | stackMapTable frames =>
    refine hKnown (fun _ => rfl) (fun _ => rfl) ?_
    exact (Encoder.emits_list fun f hf => StackMapFrame.emits_encode hK (ha f hf)).imp
      fun P bs hRead => hRead.map stackMapTable
  | exceptions classes =>
    refine hKnown (fun _ => rfl) (fun _ => rfl) ?_
    exact (emits_classes hK ha).imp fun P bs hRead => hRead.map exceptions
  | innerClasses entries =>
    refine hKnown (fun _ => rfl) (fun _ => rfl) ?_
    exact (Encoder.emits_list fun c hc => InnerClass.emits_encode hK (ha c hc)).imp
      fun P bs hRead => hRead.map innerClasses
  | enclosingMethod owner method =>
    refine hKnown (fun _ => rfl) (fun _ => rfl) ?_
    refine (Encoder.emits_className hK ha.1).bind fun i => (emits_optionalNameAndType hK ha.2).bind
      fun j => .pure fun P hj hi => ?_
    refine (reads_u2 i).bind (Reads.of_eq ((reads_u2 j).bind ?_) (List.append_nil _).symm)
    exact Reads.lift_bind hj (Reads.lift_bind (Pool.className_eq_ok.mpr hi) (Reads.pure _))
  | synthetic | deprecated =>
    exact hKnown (fun _ => rfl) (fun _ => rfl) (.pure fun P => Reads.pure _)
  | signature text =>
    refine hKnown (fun _ => rfl) (fun _ => rfl) ?_
    exact (emits_utf8Index hK ha).imp fun P bs hRead => hRead.map signature
  | sourceFile name =>
    refine hKnown (fun _ => rfl) (fun _ => rfl) ?_
    exact (emits_utf8Index hK ha).imp fun P bs hRead => hRead.map sourceFile
  | lineNumbers lines =>
    refine hKnown (fun _ => rfl) (fun _ => rfl) ?_
    have hLines : ∀ l ∈ lines, Encoder.Emits K (return l.encode) fun _ bs =>
        Reads LineNumber.decode bs l := fun l _ => .pure fun _ => l.reads_decode
    exact (Encoder.emits_list hLines).imp fun P bs hRead => hRead.map lineNumbers
  | localVariables vs =>
    refine hKnown (fun _ => rfl) (fun _ => rfl) ?_
    exact (Encoder.emits_list fun v hv => LocalVariable.emits_encode hK (ha v hv)).imp
      fun P bs hRead => hRead.map localVariables
  | localVariableTypes vs =>
    refine hKnown (fun _ => rfl) (fun _ => rfl) ?_
    exact (Encoder.emits_list fun v hv => LocalVariable.emits_encode hK (ha v hv)).imp
      fun P bs hRead => hRead.map localVariableTypes
  | annotations visibility as =>
    exact hKnown (fun _ => by cases visibility <;> rfl) (fun _ => rfl)
      ((Encoder.emits_list fun a h => Annotation.emits_encode hK (ha a h)).imp
        fun P bs hRead => hRead.map (annotations visibility))
  | parameterAnnotations visibility parameters =>
    exact hKnown (fun _ => by cases visibility <;> rfl) (fun _ => rfl)
      ((Encoder.emits_shortList fun as has =>
        Encoder.emits_list fun a h => Annotation.emits_encode hK (ha as has a h)).imp
          fun P bs hRead => hRead.map (parameterAnnotations visibility))
  | typeAnnotations visibility as =>
    exact hKnown (fun _ => by cases visibility <;> rfl) (fun _ => rfl)
      ((Encoder.emits_list fun a h => TypeAnnotation.emits_encode hK (ha a h)).imp
        fun P bs hRead => hRead.map (typeAnnotations visibility))
  | annotationDefault value =>
    refine hKnown (fun _ => rfl) (fun _ => rfl) ?_
    exact (ElementValue.emits_decode hK ha).imp fun P bs hRead => hRead.map annotationDefault
  | bootstrapMethods methods =>
    refine hKnown (fun _ => rfl) (fun _ => rfl) ?_
    exact (Encoder.emits_list fun m hm => BootstrapMethod.emits_encode hK (ha m hm)).imp
      fun P bs hRead => hRead.map bootstrapMethods
  | methodParameters parameters =>
    refine hKnown (fun _ => rfl) (fun _ => rfl) ?_
    exact (Encoder.emits_shortList fun p hp => MethodParameter.emits_encode hK (ha p hp)).imp
      fun P bs hRead => hRead.map methodParameters
  | nestHost name =>
    refine hKnown (fun _ => rfl) (fun _ => rfl) ?_
    exact (emits_classIndex hK ha).imp fun P bs hRead => hRead.map nestHost
  | nestMembers classes =>
    refine hKnown (fun _ => rfl) (fun _ => rfl) ?_
    exact (emits_classes hK ha).imp fun P bs hRead => hRead.map nestMembers
  | permittedSubclasses classes =>
    refine hKnown (fun _ => rfl) (fun _ => rfl) ?_
    exact (emits_classes hK ha).imp fun P bs hRead => hRead.map permittedSubclasses
  | moduleInfo info =>
    refine hKnown (fun _ => rfl) (fun _ => rfl) ?_
    exact (ModuleInfo.emits_encode hK ha).imp fun P bs hRead => hRead.map moduleInfo
  | modulePackages packages =>
    refine hKnown (fun _ => rfl) (fun _ => rfl) ?_
    exact (Encoder.emits_list fun n hn => emits_index ((Encoder.emits_packageName hK (ha n hn)).imp
      fun _ _ => Pool.packageName_eq_ok.mpr)).imp fun P bs hRead => hRead.map modulePackages
  | moduleMainClass name =>
    refine hKnown (fun _ => rfl) (fun _ => rfl) ?_
    exact (emits_classIndex hK ha).imp fun P bs hRead => hRead.map moduleMainClass
  | unknown name payload pool =>
    exact .pure fun P => Or.inr ⟨pool, rfl, ha.2.2 P, ha.1, ha.2.1⟩

end PlainAttribute

section Nested

variable {nested : RawAttribute → Except ReadError Attribute}

structure Code.ReadWith (P : Pool) (nested : RawAttribute → Except ReadError Attribute)
    (body : Code Attribute) : Prop where
  instructions : ∃ bytecode : Bytes, bytecode.length < 0x100000000 ∧
    Instruction.decodeAll P bytecode = .ok body.instructions
  handlers : ∀ h ∈ body.handlers, h.WellFormed P.Holds
  attributes : ∀ a ∈ body.attributes, ∃ raw, nested raw = .ok a

theorem Code.readWith_of_decodeWith {body : Code Attribute}
    (h : Code.decodeWith P nested s = .ok (body, t)) : body.ReadWith P nested := by
  obtain ⟨maxStack, _, -, h⟩ := bind_eq_ok.mp h
  obtain ⟨maxLocals, _, -, h⟩ := bind_eq_ok.mp h
  obtain ⟨length, _, -, h⟩ := bind_eq_ok.mp h
  obtain ⟨bytecode, _, hBytecode, h⟩ := bind_eq_ok.mp h
  obtain ⟨instructions, _, hInstructions, h⟩ := bind_eq_ok.mp h
  obtain ⟨handlers, _, hHandlers, h⟩ := bind_eq_ok.mp h
  obtain ⟨raw, _, -, h⟩ := bind_eq_ok.mp h
  obtain ⟨attributes, _, hAttributes, h⟩ := bind_eq_ok.mp h
  obtain ⟨rfl, -⟩ := pure_eq_ok.mp h
  obtain ⟨_, -, rfl, hLength⟩ := takes_take _ _ _ _ hBytecode
  refine ⟨⟨bytecode, hLength ▸ length.toNat_lt, (lift_eq_ok.mp hInstructions).1⟩, fun c hc => ?_,
    fun a ha => ?_⟩
  · obtain ⟨s', t', hItem⟩ := list_eq_ok hHandlers c hc
    exact ExceptionHandler.wellFormed_of_decode hItem
  · obtain ⟨r, -, hr⟩ := Outcome.exists_of_mem (mapM_lift_eq_ok.mp hAttributes).1 a ha
    exact ⟨r, hr⟩

structure RecordComponent.ReadWith (P : Pool) (nested : RawAttribute → Except ReadError Attribute)
    (c : RecordComponent Attribute) : Prop where
  name : P.Holds (.utf8 c.name)
  descriptor : P.Holds (.utf8 c.descriptor)
  attributes : ∀ a ∈ c.attributes, ∃ raw, nested raw = .ok a

theorem RecordComponent.readWith_of_decodeWith {c : RecordComponent Attribute}
    (h : RecordComponent.decodeWith P nested s = .ok (c, t)) : c.ReadWith P nested := by
  obtain ⟨i, _, -, h⟩ := bind_eq_ok.mp h
  obtain ⟨j, _, -, h⟩ := bind_eq_ok.mp h
  obtain ⟨raw, _, -, h⟩ := bind_eq_ok.mp h
  obtain ⟨name, _, hName, h⟩ := bind_eq_ok.mp h
  obtain ⟨descriptor, _, hDescriptor, h⟩ := bind_eq_ok.mp h
  obtain ⟨attributes, _, hAttributes, h⟩ := bind_eq_ok.mp h
  obtain ⟨rfl, -⟩ := pure_eq_ok.mp h
  refine ⟨(Pool.utf8_eq_ok.mp (lift_eq_ok.mp hName).1).holds,
    (Pool.utf8_eq_ok.mp (lift_eq_ok.mp hDescriptor).1).holds, fun a ha => ?_⟩
  obtain ⟨r, -, hr⟩ := Outcome.exists_of_mem (mapM_lift_eq_ok.mp hAttributes).1 a ha
  exact ⟨r, hr⟩

end Nested

namespace Attribute

inductive WellFormed (K : Constant → Prop) : Attribute → Prop
  | code {body} (hName : K (.utf8 "Code")) (hInstructions : ∀ i ∈ body.instructions, i.WellFormed K)
      (hHandlers : ∀ h ∈ body.handlers, h.WellFormed K)
      (hAttributes : ∀ a ∈ body.attributes, WellFormed K a) : WellFormed K (.code body)
  | record {components} (hName : K (.utf8 "Record"))
      (hNames : ∀ c ∈ components, K (.utf8 c.name) ∧ K (.utf8 c.descriptor))
      (hAttributes : ∀ c ∈ components, ∀ a ∈ c.attributes, WellFormed K a) :
      WellFormed K (.record components)
  | plain {a} (h : a.WellFormed K) : WellFormed K (.plain a)

mutual

/-- The same attribute, with `P` as the pool of everything that is kept as bytes. -/
def withPool (P : Pool) : Attribute → Attribute
  | code ⟨maxStack, maxLocals, instructions, handlers, attributes⟩ =>
    code ⟨maxStack, maxLocals, instructions, handlers, withPoolEach P attributes⟩
  | record components => record (withPoolComponents P components)
  | plain a => plain (a.withPool P)

def withPoolEach (P : Pool) : List Attribute → List Attribute
  | [] => []
  | a :: rest => withPool P a :: withPoolEach P rest

def withPoolComponents (P : Pool) :
    List (RecordComponent Attribute) → List (RecordComponent Attribute)
  | [] => []
  | ⟨name, descriptor, attributes⟩ :: rest =>
    ⟨name, descriptor, withPoolEach P attributes⟩ :: withPoolComponents P rest

end

theorem withPoolEach_eq_self {as : List Attribute} (h : ∀ a ∈ as, a.withPool P = a) :
    withPoolEach P as = as := by
  induction as with
  | nil => rfl
  | cons a as ih =>
    obtain ⟨hHead, hTail⟩ := List.forall_mem_cons.mp h
    rw [withPoolEach, hHead, ih hTail]

theorem withPoolComponents_eq_self {cs : List (RecordComponent Attribute)}
    (h : ∀ c ∈ cs, withPoolEach P c.attributes = c.attributes) : withPoolComponents P cs = cs := by
  induction cs with
  | nil => rfl
  | cons c cs ih =>
    obtain ⟨hHead, hTail⟩ := List.forall_mem_cons.mp h
    obtain ⟨name, descriptor, attributes⟩ := c
    dsimp only at hHead
    rw [withPoolComponents, hHead, ih hTail]

theorem exactly_eq_ok {α : Type} {name : String} {d : Decoder α} {payload : Bytes} {a : α} :
    d.exactly name payload = .ok a ↔ d payload = .ok (a, []) := by
  unfold Decoder.exactly
  constructor
  · intro h
    split at h
    · rename_i h'
      cases h
      exact h'
    · cases h
    · cases h
    · cases h
  · intro h
    rw [h]

/-- How `a` was read from `raw`, with `nested` for the attributes inside. -/
inductive ReadFrom (P : Pool) (nested : RawAttribute → Except ReadError Attribute)
    (raw : RawAttribute) : Attribute → Prop
  | code {body} (hName : P.utf8 raw.name = .ok "Code")
      (h : Code.decodeWith P nested raw.payload = .ok (body, [])) :
      ReadFrom P nested raw (.code body)
  | record {components} (hName : P.utf8 raw.name = .ok "Record")
      (h : Decoder.list (RecordComponent.decodeWith P nested) raw.payload = .ok (components, [])) :
      ReadFrom P nested raw (.record components)
  | plain {name d a} (hName : P.utf8 raw.name = .ok name)
      (hBody : PlainAttribute.body P name = some d) (h : d raw.payload = .ok (a, [])) :
      ReadFrom P nested raw (.plain a)
  | unknown {name} (hName : P.utf8 raw.name = .ok name) (hCode : name ≠ "Code")
      (hRecord : name ≠ "Record") (hNone : PlainAttribute.body P name = none) :
      ReadFrom P nested raw (.plain (.unknown name raw.payload P))

theorem readFrom_of_decodeTo {depth : Nat} {raw : RawAttribute} {a : Attribute}
    (h : decodeTo P (depth + 1) raw = .ok a) : ReadFrom P (decodeTo P depth) raw a := by
  obtain ⟨name, hName, h⟩ := Outcome.bind_eq_ok.mp h
  cases hBody : body P (decodeTo P depth) name with
  | some d =>
    rw [hBody] at h
    have hRun := exactly_eq_ok.mp h
    unfold body at hBody
    split at hBody
    · rename_i hCode
      subst hCode
      cases hBody
      obtain ⟨code, hCode, rfl⟩ := map_eq_ok.mp hRun
      exact .code hName hCode
    split at hBody
    · rename_i hRecord
      subst hRecord
      cases hBody
      obtain ⟨components, hComponents, rfl⟩ := map_eq_ok.mp hRun
      exact .record hName hComponents
    · obtain ⟨d', hPlain, rfl⟩ := Option.map_eq_some_iff.mp hBody
      obtain ⟨a', ha', rfl⟩ := map_eq_ok.mp hRun
      exact .plain hName hPlain ha'
  | none =>
    rw [hBody] at h
    obtain rfl := Outcome.pure_eq_ok.mp h
    unfold body at hBody
    split at hBody
    · cases hBody
    split at hBody
    · cases hBody
    · rename_i hCode hRecord
      exact .unknown hName hCode hRecord (Option.map_eq_none_iff.mp hBody)

def Known (P : Pool) (a : Attribute) : Prop := a.WellFormed P.Holds ∧ a.withPool P = a

theorem known_of_mapM {nested : RawAttribute → Except ReadError Attribute}
    (hNested : ∀ raw a, nested raw = .ok a → Known P a) {raw : List RawAttribute}
    {as : List Attribute} (h : List.Forall₂ (fun r a => nested r = .ok a) raw as) :
    ∀ a ∈ as, Known P a := by
  intro a ha
  obtain ⟨r, -, hr⟩ := Outcome.exists_of_mem h a ha
  exact hNested r a hr

theorem known_code {nested : RawAttribute → Except ReadError Attribute}
    (hNested : ∀ raw a, nested raw = .ok a → Known P a) (hName : P.Holds (.utf8 "Code"))
    {body : Code Attribute} (h : Code.decodeWith P nested s = .ok (body, t)) :
    Known P (.code body) := by
  have hBody := Code.readWith_of_decodeWith h
  obtain ⟨bytecode, -, hInstructions⟩ := hBody.instructions
  have hKnown : ∀ a ∈ body.attributes, Known P a := fun a ha =>
    (hBody.attributes a ha).elim fun raw hRaw => hNested raw a hRaw
  refine ⟨.code hName (Instruction.wellFormed_of_decodeAll hInstructions) hBody.handlers
    fun a ha => (hKnown a ha).1, ?_⟩
  rw [withPool, withPoolEach_eq_self fun a ha => (hKnown a ha).2]

theorem known_record {nested : RawAttribute → Except ReadError Attribute}
    (hNested : ∀ raw a, nested raw = .ok a → Known P a) (hName : P.Holds (.utf8 "Record"))
    {components : List (RecordComponent Attribute)}
    (h : Decoder.list (RecordComponent.decodeWith P nested) s = .ok (components, t)) :
    Known P (.record components) := by
  have hEach : ∀ c ∈ components, c.ReadWith P nested := by
    intro c hc
    obtain ⟨s', t', hItem⟩ := list_eq_ok h c hc
    exact RecordComponent.readWith_of_decodeWith hItem
  have hKnown : ∀ c ∈ components, ∀ a ∈ c.attributes, Known P a := fun c hc a ha =>
    ((hEach c hc).attributes a ha).elim fun raw hRaw => hNested raw a hRaw
  refine ⟨.record hName (fun c hc => ⟨(hEach c hc).name, (hEach c hc).descriptor⟩)
    fun c hc a ha => (hKnown c hc a ha).1, ?_⟩
  rw [withPool, withPoolComponents_eq_self fun c hc =>
    withPoolEach_eq_self fun a ha => (hKnown c hc a ha).2]

theorem known_of_decodeTo {depth : Nat} {raw : RawAttribute} {a : Attribute}
    (h : decodeTo P depth raw = .ok a) : Known P a := by
  induction depth generalizing raw a with
  | zero => cases h
  | succ depth ih =>
    have hNested : ∀ raw a, decodeTo P depth raw = .ok a → Known P a := fun _ _ => ih
    cases readFrom_of_decodeTo h with
    | code hName hRead => exact known_code hNested (Pool.utf8_eq_ok.mp hName).holds hRead
    | record hName hRead => exact known_record hNested (Pool.utf8_eq_ok.mp hName).holds hRead
    | plain hName hBody hRead =>
      obtain ⟨rfl, hPayload, hPool⟩ := PlainAttribute.of_body hBody hRead
      exact ⟨.plain ⟨(Pool.utf8_eq_ok.mp hName).holds, hPayload⟩, congrArg plain (hPool P)⟩
    | @unknown name hName hCode hRecord hNone =>
      have hAll : ∀ P', PlainAttribute.body P' name = none := by
        intro P'
        rw [← Option.isNone_iff_eq_none, ← Option.not_isSome,
          PlainAttribute.body_isSome P' P, hNone]
        rfl
      exact ⟨.plain ⟨(Pool.utf8_eq_ok.mp hName).holds, hCode, hRecord, hAll⟩, rfl⟩

theorem known_of_decode {raw : RawAttribute} {a : Attribute} (h : decode P raw = .ok a) :
    Known P a := known_of_decodeTo h

/-- The bytes `bs` stand for `a`, read with `P` by every reader that may nest deep enough. -/
def Stored (P : Pool) (bs : Bytes) (a : Attribute) : Prop :=
  ∃ raw, Reads RawAttribute.decode bs raw ∧ raw.payload.length < bs.length ∧
    ∀ depth, raw.payload.length < depth → decodeTo P depth raw = .ok (a.withPool P)

theorem emits_frame {name : UInt16} {payload : Bytes} :
    Encoder.Emits K (frame name payload) fun _ bs =>
      Reads RawAttribute.decode bs ⟨name, payload⟩ ∧ payload.length < bs.length := by
  refine .guarded fun hLength => .pure fun P => ⟨?_, ?_⟩
  · have hWord : (UInt32.ofNat payload.length).toNat = payload.length := by
      rw [UInt32.toNat_ofNat', Nat.mod_eq_of_lt (Nat.lt_of_not_le hLength)]
    rw [List.append_assoc]
    refine (reads_u2 name).bind ((reads_u4 (UInt32.ofNat payload.length)).bind ?_)
    rw [hWord]
    exact (reads_take rfl).map fun v => (⟨name, v⟩ : RawAttribute)
  · have hName : (Bytes.u2 name).length = 2 := Bytes.length_u2 name
    rw [List.length_append, List.length_append, hName]
    omega

theorem exists_raws {pieces : List Bytes} {as : List Attribute}
    (h : List.Forall₂ (Stored P) pieces as) :
    ∃ raws, List.Forall₂ (Reads RawAttribute.decode) pieces raws ∧ raws.length = as.length ∧
      ∀ decode : RawAttribute → Except ReadError Attribute,
        (∀ raw a, raw.payload.length < pieces.flatten.length →
          (∀ depth, raw.payload.length < depth → decodeTo P depth raw = .ok a) →
            decode raw = .ok a) →
        List.Forall₂ (fun raw a => decode raw = .ok a) raws (withPoolEach P as) := by
  induction h with
  | nil => exact ⟨[], .nil, rfl, fun _ _ => .nil⟩
  | cons hHead _ ih =>
    obtain ⟨raw, hRead, hLength, hDecode⟩ := hHead
    obtain ⟨raws, hReads, hLengths, hDecodes⟩ := ih
    refine ⟨raw :: raws, .cons hRead hReads, congrArg (· + 1) hLengths, fun decode hAll => ?_⟩
    rw [List.flatten_cons, List.length_append] at hAll
    exact .cons (hAll raw _ (by omega) hDecode)
      (hDecodes decode fun raw a hShort => hAll raw a (by omega))

theorem reads_nested {pieces : List Bytes} {as : List Attribute}
    (h : List.Forall₂ (Stored P) pieces as) (hCount : as.length ≤ 65535) :
    ∃ raws, Reads RawAttribute.decodeList
        (Bytes.u2 (UInt16.ofNat as.length) ++ pieces.flatten) raws ∧
      ∀ depth, pieces.flatten.length ≤ depth →
        List.Forall₂ (fun raw a => decodeTo P depth raw = .ok a) raws (withPoolEach P as) := by
  obtain ⟨raws, hReads, hLengths, hDecodes⟩ := exists_raws h
  refine ⟨raws, ?_, fun depth hDepth => hDecodes _ fun raw a hShort hDecode =>
    hDecode depth (by omega)⟩
  rw [← hLengths]
  exact reads_list hReads (hLengths ▸ hCount)

theorem reads_table {pieces : List Bytes} {as : List Attribute}
    (h : List.Forall₂ (Stored P) pieces as) (hCount : as.length ≤ 65535) :
    ∃ raws, Reads RawAttribute.decodeList
        (Bytes.u2 (UInt16.ofNat as.length) ++ pieces.flatten) raws ∧
      List.Forall₂ (fun raw a => decode P raw = .ok a) raws (withPoolEach P as) := by
  obtain ⟨raws, hReads, hLengths, hDecodes⟩ := exists_raws h
  refine ⟨raws, ?_, hDecodes _ fun raw a _ hDecode => hDecode _ (Nat.lt_succ_self _)⟩
  rw [← hLengths]
  exact reads_list hReads (hLengths ▸ hCount)

theorem emits_encodeEach {as : List Attribute}
    (h : ∀ a ∈ as, Encoder.Emits K a.encode fun P bs => Stored P bs a) :
    Encoder.Emits K (encodeEach as) fun P bs =>
      ∃ pieces, List.Forall₂ (Stored P) pieces as ∧ bs = pieces.flatten := by
  induction as with
  | nil => exact .pure fun P => ⟨[], .nil, rfl⟩
  | cons a as ih =>
    obtain ⟨hHead, hTail⟩ := List.forall_mem_cons.mp h
    refine hHead.bind fun bs => (ih hTail).bind fun rest => .pure fun P hRest hBs => ?_
    obtain ⟨pieces, hPieces, rfl⟩ := hRest
    exact ⟨bs :: pieces, .cons hBs hPieces, rfl⟩

theorem emits_encodeComponents (hK : Constant.Closed K) {cs : List (RecordComponent Attribute)}
    (hNames : ∀ c ∈ cs, K (.utf8 c.name) ∧ K (.utf8 c.descriptor))
    (h : ∀ c ∈ cs, ∀ a ∈ c.attributes, Encoder.Emits K a.encode fun P bs => Stored P bs a) :
    Encoder.Emits K (encodeComponents cs) fun P bs =>
      ∃ pieces, (∀ depth, pieces.flatten.length ≤ depth →
        List.Forall₂ (Reads (RecordComponent.decodeWith P (decodeTo P depth))) pieces
          (withPoolComponents P cs)) ∧ bs = pieces.flatten := by
  induction cs with
  | nil => exact .pure fun P => ⟨[], fun _ _ => .nil, rfl⟩
  | cons c cs ih =>
    obtain ⟨name, descriptor, attributes⟩ := c
    obtain ⟨⟨hName, hDescriptor⟩, hNames⟩ := List.forall_mem_cons.mp hNames
    obtain ⟨hHead, hTail⟩ := List.forall_mem_cons.mp h
    refine (Encoder.emits_utf8 hK hName).bind fun i => (Encoder.emits_utf8 hK hDescriptor).bind
      fun j => Encoder.emits_length2.bind fun count => (emits_encodeEach hHead).bind fun bs =>
      (ih hNames hTail).bind fun rest => .pure fun P hRest hBs hCount hj hi => ?_
    obtain ⟨pieces, hPieces, rfl⟩ := hRest
    obtain ⟨inner, hInner, rfl⟩ := hBs
    obtain ⟨hCount, rfl⟩ := hCount
    obtain ⟨raws, hRaws, hDecodes⟩ := reads_nested hInner hCount
    refine ⟨(Bytes.u2 i ++ Bytes.u2 j ++ Bytes.u2 (UInt16.ofNat attributes.length) ++
      inner.flatten) :: pieces, fun depth hDepth => ?_, rfl⟩
    simp only [List.flatten_cons, List.length_append] at hDepth
    refine .cons ?_ (hPieces depth (by omega))
    simp only [List.append_assoc]
    refine (reads_u2 i).bind ((reads_u2 j).bind
      (Reads.of_eq (hRaws.bind ?_) (List.append_nil _).symm))
    refine Reads.lift_bind (Pool.utf8_eq_ok.mpr hi) (Reads.lift_bind (Pool.utf8_eq_ok.mpr hj) ?_)
    intro tail
    rw [List.nil_append, bind_eq_ok]
    exact ⟨_, tail, mapM_lift_eq_ok.mpr ⟨hDecodes depth (by omega), rfl⟩, rfl⟩

theorem decodeTo_succ {depth : Nat} {name : String} {raw : RawAttribute} {d : Decoder Attribute}
    {a : Attribute} (hName : P.Names raw.name (.utf8 name))
    (hBody : body P (decodeTo P depth) name = some d) (h : Reads d raw.payload a) :
    decodeTo P (depth + 1) raw = .ok a := by
  rw [decodeTo, Pool.utf8_eq_ok.mpr hName, Outcome.ok_bind]
  simp only [hBody]
  rw [exactly_eq_ok]
  have hRun := h []
  rwa [List.append_nil] at hRun

theorem stored_frame {i : UInt16} {name : String} {payload bs : Bytes} {a : Attribute}
    (hFrame : Reads RawAttribute.decode bs ⟨i, payload⟩ ∧ payload.length < bs.length)
    (hName : P.Names i (.utf8 name))
    (h : ∀ depth, payload.length ≤ depth →
      ∃ d, body P (decodeTo P depth) name = some d ∧ Reads d payload (a.withPool P)) :
    Stored P bs a := by
  refine ⟨_, hFrame.1, hFrame.2, fun depth hDepth => ?_⟩
  cases depth with
  | zero => cases hDepth
  | succ depth =>
    obtain ⟨d, hBody, hRead⟩ := h depth (Nat.le_of_lt_succ hDepth)
    exact decodeTo_succ hName hBody hRead

theorem emits_code (hK : Constant.Closed K) {code : Code Attribute} (hName : K (.utf8 "Code"))
    (hInstructions : ∀ i ∈ code.instructions, i.WellFormed K)
    (hHandlers : ∀ h ∈ code.handlers, h.WellFormed K)
    (hAttributes : ∀ a ∈ code.attributes, Encoder.Emits K a.encode fun P bs => Stored P bs a) :
    Encoder.Emits K (encode (.code code)) fun P bs => Stored P bs (.code code) := by
  obtain ⟨maxStack, maxLocals, instructions, handlers, attributes⟩ := code
  refine (Encoder.emits_utf8 hK hName).bind fun i =>
    (Instruction.emits_encodeAll hK hInstructions).bind fun bytecode =>
    .guarded fun hLength =>
    (Encoder.emits_list fun c hc => ExceptionHandler.emits_encode hK (hHandlers c hc)).bind
      fun handlerBytes => Encoder.emits_length2.bind fun count =>
    (emits_encodeEach hAttributes).bind fun bs =>
    emits_frame.imp fun P _ hFrame hBs hCount hHandlerBytes hBytecode hi => ?_
  obtain ⟨pieces, hPieces, rfl⟩ := hBs
  obtain ⟨hCount, rfl⟩ := hCount
  obtain ⟨raws, hRaws, hDecodes⟩ := reads_nested hPieces hCount
  refine stored_frame hFrame hi fun depth hDepth => ⟨_, rfl, ?_⟩
  have hWord : (UInt32.ofNat bytecode.length).toNat = bytecode.length := by
    rw [UInt32.toNat_ofNat', Nat.mod_eq_of_lt (Nat.lt_of_not_le hLength)]
  simp only [List.length_append] at hDepth
  simp only [List.append_assoc]
  refine Reads.map _ ((reads_u2 maxStack).bind ((reads_u2 maxLocals).bind
    ((reads_u4 (UInt32.ofNat bytecode.length)).bind ?_)))
  rw [hWord]
  refine (reads_take rfl).bind (Reads.lift_bind hBytecode (hHandlerBytes.bind
    (Reads.of_eq (hRaws.bind ?_) (List.append_nil _).symm)))
  intro tail
  rw [List.nil_append, bind_eq_ok]
  exact ⟨_, tail, mapM_lift_eq_ok.mpr ⟨hDecodes depth (by omega), rfl⟩, rfl⟩

theorem length_withPoolComponents (cs : List (RecordComponent Attribute)) :
    (withPoolComponents P cs).length = cs.length := by
  induction cs with
  | nil => rfl
  | cons c cs ih => rw [withPoolComponents, List.length_cons, ih, List.length_cons]

theorem emits_record (hK : Constant.Closed K) {cs : List (RecordComponent Attribute)}
    (hName : K (.utf8 "Record")) (hNames : ∀ c ∈ cs, K (.utf8 c.name) ∧ K (.utf8 c.descriptor))
    (hAttributes : ∀ c ∈ cs, ∀ a ∈ c.attributes,
      Encoder.Emits K a.encode fun P bs => Stored P bs a) :
    Encoder.Emits K (encode (.record cs)) fun P bs => Stored P bs (.record cs) := by
  refine (Encoder.emits_utf8 hK hName).bind fun i => Encoder.emits_length2.bind fun count =>
    (emits_encodeComponents hK hNames hAttributes).bind fun bs =>
    emits_frame.imp fun P _ hFrame hBs hCount hi => ?_
  obtain ⟨pieces, hPieces, rfl⟩ := hBs
  obtain ⟨hCount, rfl⟩ := hCount
  refine stored_frame hFrame hi fun depth hDepth => ⟨_, rfl, Reads.map _ ?_⟩
  rw [List.length_append] at hDepth
  rw [← length_withPoolComponents (P := P) cs] at hCount ⊢
  exact reads_list (hPieces depth (by omega)) hCount

theorem emits_plain (hK : Constant.Closed K) {a : PlainAttribute} (ha : a.WellFormed K) :
    Encoder.Emits K (encode (.plain a)) fun P bs => Stored P bs (.plain a) := by
  refine (Encoder.emits_utf8 hK ha.name).bind fun i => (PlainAttribute.emits_encode hK
    ha.payload).bind fun payload => emits_frame.imp fun P bs hFrame hPayload hi => ?_
  rcases hPayload with ⟨d, hBody, hRead, hPool⟩ | ⟨pool, hUnknown, hBody, hCode, hRecord⟩
  · refine stored_frame hFrame hi fun depth _ => ⟨plain <$> d, ?_, ?_⟩
    · have hNone : ∀ name, PlainAttribute.body P name = none → a.name ≠ name := by
        rintro _ hNone rfl
        rw [hBody] at hNone
        cases hNone
      rw [body, if_neg (hNone _ rfl), if_neg (hNone _ rfl), hBody]
      rfl
    · rw [withPool, hPool]
      exact hRead.map plain
  · refine ⟨_, hFrame.1, hFrame.2, fun depth hDepth => ?_⟩
    cases depth with
    | zero => cases hDepth
    | succ depth =>
      rw [decodeTo, Pool.utf8_eq_ok.mpr hi, Outcome.ok_bind]
      have hNone : body P (decodeTo P depth) a.name = none := by
        rw [body, if_neg hCode, if_neg hRecord, hBody]
        rfl
      simp only [hNone]
      rw [hUnknown]
      rfl

theorem emits_encode (hK : Constant.Closed K) {a : Attribute} (ha : a.WellFormed K) :
    Encoder.Emits K a.encode fun P bs => Stored P bs a := by
  induction ha with
  | code hName hInstructions hHandlers _ ih =>
    exact emits_code hK hName hInstructions hHandlers ih
  | record hName hNames _ ih => exact emits_record hK hName hNames ih
  | plain ha => exact emits_plain hK ha

end Attribute

end Renaming
