import Renaming.Proofs.ClassFile.Attribute
import Renaming.Proofs.ClassFile.Repaid.Annotation
import Renaming.Proofs.ClassFile.Repaid.Bytecode
import Renaming.Proofs.ClassFile.Repaid.Entry

/-!
# Attributes are repaid

An attribute is written with a payload as long as the one it was read from. Method bodies are only
followed where they are expected, directly among the attributes of a method, because the constants
of their `ldc` instructions have to be known in advance.
-/

namespace Renaming

open Decoder (Takes fixed_u2 fixed_u4)
open Encoder (Runs Repays Supplies repays_list repays_shortList repays_index)

variable {P : Pool} {L : Constant → Prop} {I : PoolBuilder → Prop} (hI : Supplies P L I)

include hI in
theorem PlainAttribute.repays {name : String} {d : Decoder PlainAttribute}
    (hBody : body P name = some d) : Repays I d encode := by
  have hAnnotation := Annotation.repays hI
  have hTyped := TypeAnnotation.repays hI
  unfold body at hBody
  dsimp only at hBody
  split at hBody
  case h_28 => cases hBody
  all_goals cases hBody
  case h_1 =>
    refine fixed_u2.bind fun i => .lookup fun c hc => .pure ?_
    exact Encoder.runs_index (hI.names (Pool.constant_eq_ok.mp hc))
  case h_2 => exact .map (repays_list _ (StackMapFrame.repays hI))
  case h_3 | h_23 | h_24 => exact .map (hI.repays_classes _)
  case h_4 => exact .map (repays_list _ (InnerClass.repays hI))
  case h_5 =>
    refine fixed_u2.bind fun _ => fixed_u2.bind fun _ => .lookup fun method hMethod => .lookup
      fun owner hOwner => .pure ?_
    exact (hI.className hOwner).bind fun i _ => (Supplies.optional hMethod fun _ =>
      hI.nameAndType).bind fun j _ => .pure (by simp)
  case h_6 | h_7 => exact .pure (.pure rfl)
  case h_8 | h_9 => exact .map (repays_index fun _ _ => hI.utf8)
  case h_10 => exact .map (repays_list _ LineNumber.repays)
  case h_11 | h_12 => exact .map (repays_list _ (LocalVariable.repays hI))
  case h_13 | h_14 => exact .map (repays_list _ hAnnotation)
  case h_15 | h_16 => exact .map (repays_shortList _ (repays_list _ hAnnotation))
  case h_17 | h_18 => exact .map (repays_list _ hTyped)
  case h_19 => exact .map (ElementValue.repays hI)
  case h_20 => exact .map (repays_list _ (BootstrapMethod.repays hI))
  case h_21 => exact .map (repays_shortList _ (MethodParameter.repays hI))
  case h_22 | h_27 => exact .map (repays_index fun _ _ => hI.className)
  case h_25 => exact .map (ModuleInfo.repays hI)
  case h_26 => exact .map (repays_list _ (repays_index fun _ _ => hI.packageName))

namespace Attribute

/-- There is no method body in the attribute, at any depth. -/
inductive Bodiless : Attribute → Prop
  | record {components} (h : ∀ c ∈ components, ∀ a ∈ c.attributes, Bodiless a) :
      Bodiless (.record components)
  | plain (a) : Bodiless (.plain a)

/-- There is no method body inside the attribute, which may be one itself. -/
def Shallow : Attribute → Prop
  | code body => ∀ a ∈ body.attributes, a.Bodiless
  | a => a.Bodiless

theorem Bodiless.shallow {a : Attribute} (h : a.Bodiless) : a.Shallow := by
  cases h with
  | record h => exact .record h
  | plain a => exact .plain a

def LoadsFrom (L : Constant → Prop) (a : Attribute) : Prop :=
  ∀ body, a = code body → ∀ i ∈ body.instructions, ∀ c, i.Loads c → L c

theorem Bodiless.loadsFrom {a : Attribute} (h : a.Bodiless) : a.LoadsFrom L := by
  rintro body rfl
  cases h

end Attribute

theorem RawAttribute.takes_decode : Takes decode fun n raw =>
    n = 6 + raw.payload.length ∧ raw.payload.length < 0x100000000 := by
  refine fixed_u2.bind fun name => fixed_u4.bind fun length => (Decoder.takes_take _).bind ?_
  rintro _ payload ⟨rfl, hLength⟩
  have hBound := length.toNat_lt
  exact .pure ⟨by simp [hLength]; omega, by simp [hLength]; omega⟩

namespace Attribute

theorem runs_frame {name : UInt16} {payload : Bytes} (h : payload.length < 0x100000000) :
    Runs I (frame name payload) fun bs => bs.length = 6 + payload.length := by
  refine .guarded (Nat.not_le.mpr h) (.pure ?_)
  simp
  omega

/-- What `decode` makes of a payload is written with a payload as long, if it is in `Q`. -/
def Refits (I : PoolBuilder → Prop) (Q : Attribute → Prop)
    (decode : RawAttribute → Except ReadError Attribute) : Prop :=
  ∀ raw a, decode raw = .ok a → raw.payload.length < 0x100000000 → Q a →
    Runs I a.encode fun bs => bs.length = 6 + raw.payload.length

section Table

variable {Q : Attribute → Prop} {decode : RawAttribute → Except ReadError Attribute}
  {ns : List Nat} {raws : List RawAttribute} {as : List Attribute}

theorem runs_encodeEach (hDecode : Refits I Q decode)
    (hRaws : List.Forall₂ (fun n (raw : RawAttribute) =>
      n = 6 + raw.payload.length ∧ raw.payload.length < 0x100000000) ns raws)
    (h : List.Forall₂ (fun raw a => decode raw = .ok a) raws as) (hAll : ∀ a ∈ as, Q a) :
    Runs I (encodeEach as) fun bs => bs.length = ns.sum := by
  induction h generalizing ns with
  | nil =>
    cases hRaws
    exact .pure rfl
  | @cons raw a raws as hHead _ ih =>
    cases hRaws with
    | cons hRaw hRaws =>
      obtain ⟨rfl, hBound⟩ := hRaw
      obtain ⟨hFirst, hRest⟩ := List.forall_mem_cons.mp hAll
      refine (hDecode raw a hHead hBound hFirst).bind fun bs hBs => (ih hRaws hRest).bind
        fun rest hRest => .pure ?_
      simp [hBs, hRest]

theorem takes_decodeList (hDecode : Refits I Q decode) :
    Takes RawAttribute.decodeList fun n raws => ∀ as,
      List.Forall₂ (fun raw a => decode raw = .ok a) raws as → (∀ a ∈ as, Q a) →
        as.length ≤ 65535 ∧ ∃ m, n = 2 + m ∧ Runs I (encodeEach as) fun bs => bs.length = m := by
  apply (Decoder.takes_list RawAttribute.takes_decode).imp
  rintro _ raws ⟨hLength, ns, hRaws, rfl⟩ as h hAll
  exact ⟨h.length_eq ▸ hLength, ns.sum, rfl, runs_encodeEach hDecode hRaws h hAll⟩

end Table

section Nested

variable {nested : RawAttribute → Except ReadError Attribute}

theorem namesLow_of_decode {raw : RawAttribute} {a : Attribute} (h : decode P raw = .ok a) :
    a.LoadsFrom P.NamesLow := by
  rintro body rfl
  cases readFrom_of_decodeTo h with
  | code _ hRead =>
    obtain ⟨bytecode, -, hInstructions⟩ := (Code.readWith_of_decodeWith hRead).instructions
    exact Instruction.namesLow_of_decodeAll hInstructions

include hI

theorem takes_code (hNested : Refits I Bodiless nested) (hName : P.Holds (.utf8 "Code")) :
    Takes (Code.decodeWith P nested) fun n body => n < 0x100000000 → (code body).Shallow →
      (code body).LoadsFrom L → Runs I (encode (.code body)) fun bs => bs.length = 6 + n := by
  have hHandlers := repays_list "exception table" (ExceptionHandler.repays hI)
  refine fixed_u2.bind fun maxStack => fixed_u2.bind fun maxLocals => fixed_u4.bind fun length =>
    (Decoder.takes_take _).bind ?_
  rintro _ bytecode ⟨rfl, hBytecode⟩
  refine .lookup fun instructions hInstructions => hHandlers.bind fun k handlers hHandlers =>
    (takes_decodeList hNested).bind fun n raws hRaws => .lookups fun attributes hAttributes =>
    .pure fun hBound hShallow hLoads => ?_
  obtain ⟨hCount, m, rfl, hEach⟩ := hRaws attributes hAttributes hShallow
  have hWord := length.toNat_lt
  refine (hI.constant _ hName).bind fun i _ => (Instruction.runs_of_decodeAll hI hInstructions
    (by omega) (hLoads _ rfl)).bind fun bs₁ h₁ => .guarded (by omega) ?_
  refine hHandlers.bind fun bs₂ h₂ => (Encoder.runs_length2 hCount).bind fun count hCount =>
    hEach.bind fun bs₃ h₃ => ?_
  refine (runs_frame ?_).imp fun bs hBs => hBs.trans ?_
  · simp [h₁, h₂, h₃, hCount, hBytecode]
    omega
  · simp [h₁, h₂, h₃, hCount, hBytecode]

theorem takes_component (hNested : Refits I Bodiless nested) :
    Takes (RecordComponent.decodeWith P nested) fun n c => (∀ a ∈ c.attributes, a.Bodiless) →
      ∀ cs m, Runs I (encodeComponents cs) (fun bs => bs.length = m) →
        Runs I (encodeComponents (c :: cs)) fun bs => bs.length = n + m := by
  refine fixed_u2.bind fun _ => fixed_u2.bind fun _ => (takes_decodeList hNested).bind
    fun n raws hRaws => .lookup fun name hName => .lookup fun descriptor hDescriptor => .lookups
    fun attributes hAttributes => .pure fun hBodiless cs m hRest => ?_
  obtain ⟨hCount, k, rfl, hEach⟩ := hRaws attributes hAttributes hBodiless
  refine (hI.utf8 hName).bind fun i _ => (hI.utf8 hDescriptor).bind fun j _ =>
    (Encoder.runs_length2 hCount).bind fun count hCount => hEach.bind fun bs hBs =>
    hRest.bind fun rest hRest => .pure ?_
  simp [hCount, hBs, hRest]
  omega

theorem takes_record (hNested : Refits I Bodiless nested) (hName : P.Holds (.utf8 "Record")) :
    Takes (Decoder.list (RecordComponent.decodeWith P nested)) fun n cs => n < 0x100000000 →
      (record cs).Shallow → Runs I (encode (.record cs)) fun bs => bs.length = 6 + n := by
  apply (Decoder.takes_list (takes_component hI hNested)).imp
  rintro _ cs ⟨hLength, ns, hComponents, rfl⟩ hBound ⟨hBodiless⟩
  have hAll : Runs I (encodeComponents cs) fun bs => bs.length = ns.sum := by
    clear hLength hBound
    induction hComponents with
    | nil => exact .pure rfl
    | cons hHead _ ih =>
      obtain ⟨hFirst, hRest⟩ := List.forall_mem_cons.mp hBodiless
      exact hHead hFirst _ _ (ih hRest)
  refine (hI.constant _ hName).bind fun i _ => (Encoder.runs_length2 hLength).bind
    fun count hCount => hAll.bind fun bs hBs => ?_
  refine (runs_frame ?_).imp fun out hOut => hOut.trans ?_
  · simpa [hCount, hBs] using hBound
  · simp [hCount, hBs]

theorem runs_plain {a : PlainAttribute} {n : Nat} (hBound : n < 0x100000000)
    (hName : P.Holds (.utf8 a.name)) (h : Runs I a.encode fun bs => bs.length = n) :
    Runs I (encode (.plain a)) fun bs => bs.length = 6 + n := by
  refine (hI.constant _ hName).bind fun i _ => h.bind fun bs hBs => ?_
  exact hBs ▸ runs_frame (hBs ▸ hBound)

theorem refits_succ {depth : Nat} (hNested : Refits I Bodiless (decodeTo P depth)) :
    Refits I (fun a => a.Shallow ∧ a.LoadsFrom L) (decodeTo P (depth + 1)) := by
  rintro raw a h hBound ⟨hShallow, hLoads⟩
  cases readFrom_of_decodeTo h with
  | code hName hRead =>
    have hHolds := (Pool.utf8_eq_ok.mp hName).holds
    obtain ⟨n, hLength, hWrite⟩ := takes_code hI hNested hHolds _ _ _ hRead
    obtain rfl : raw.payload.length = n := hLength
    exact hWrite hBound hShallow hLoads
  | record hName hRead =>
    have hHolds := (Pool.utf8_eq_ok.mp hName).holds
    obtain ⟨n, hLength, hWrite⟩ := takes_record hI hNested hHolds _ _ _ hRead
    obtain rfl : raw.payload.length = n := hLength
    exact hWrite hBound hShallow
  | plain hName hBody hRead =>
    obtain ⟨n, hLength, hWrite⟩ := PlainAttribute.repays hI hBody _ _ _ hRead
    obtain rfl : raw.payload.length = n := hLength
    obtain ⟨rfl, -⟩ := PlainAttribute.of_body hBody hRead
    exact runs_plain hI hBound (Pool.utf8_eq_ok.mp hName).holds hWrite
  | unknown hName => exact runs_plain hI hBound (Pool.utf8_eq_ok.mp hName).holds (.pure rfl)

theorem refits_decodeTo (depth : Nat) : Refits I Bodiless (decodeTo P depth) := by
  -- Nothing is loaded by an attribute without method bodies, so `L` does not matter below.
  induction depth with
  | zero => exact fun _ _ h => nomatch h
  | succ depth ih =>
    exact fun raw a h hBound hBodiless =>
      refits_succ hI ih raw a h hBound ⟨hBodiless.shallow, hBodiless.loadsFrom⟩

theorem refits_decode : Refits I (fun a => a.Shallow ∧ a.LoadsFrom L) (decode P) :=
  fun raw => refits_succ hI (refits_decodeTo hI raw.payload.length) raw

end Nested

end Attribute

end Renaming
