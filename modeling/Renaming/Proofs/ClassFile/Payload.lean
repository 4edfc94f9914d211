import Renaming.Proofs.Binary.Bounded
import Renaming.Proofs.ClassFile.Repaid.Attribute
import Renaming.Proofs.ClassFile.SelfDelimiting

/-!
# Payloads tell where they end

The payload of an attribute of a known name is read by a decoder that stops by itself. So a payload that
was read cannot be read if something of it is cut off or added, and the fault lies with the attribute
itself, not with one inside: attributes inside are only looked at when their frames have been read.
-/

namespace Renaming

open Decoder

variable {pool : Pool}

theorem Annotation.delimited_decodeWith {value : Decoder ElementValue}
    (h : Delimited value fun _ _ => True) :
    Delimited (decodeWith pool value) fun _ _ => True := by
  refine delimited_u2.next fun _ => (delimited_list (R := fun _ _ => True) ?_).next fun _ =>
    .lookup fun _ _ => .pure trivial
  exact delimited_u2.next fun _ => h.next fun _ => .lookup fun _ _ => .pure trivial

theorem Annotation.agree_decodeWith {n : Nat} {value value' : Decoder ElementValue}
    (hAgree : Agree n value value') (h : Delimited value fun _ _ => True) :
    Agree n (decodeWith pool value) (decodeWith pool value') := by
  have hItem : Agree n (do
      let name ← Decoder.u2
      let value ← value
      return (← pool.utf8 name, value)) (do
      let name ← Decoder.u2
      let value ← value'
      return (← pool.utf8 name, value)) :=
    .after fixed_u2 fun _ name _ _ => .last fun s hs => hAgree s (by omega)
  refine .after fixed_u2 fun _ type _ _ => .last ?_
  refine .list (fun s hs => hItem s (by omega)) (R := fun _ _ => True) ?_
  exact delimited_u2.next fun _ => h.next fun _ => .lookup fun _ _ => .pure trivial

namespace ElementValue

theorem delimited_decodeWith {nested : Decoder ElementValue}
    (h : Delimited nested fun _ _ => True) :
    Delimited (decodeWith pool nested) fun _ _ => True := by
  refine delimited_u1.next fun tag => ?_
  split
  · exact delimited_u2.next fun _ => delimited_u2.next fun _ => .lookup fun _ _ => .lookup
      fun _ _ => .pure trivial
  · exact delimited_u2.next fun _ => .lookup fun _ _ => .pure trivial
  · refine Delimited.next (R := fun _ _ => True) ?_ fun _ => .pure trivial
    exact Annotation.delimited_decodeWith h
  · exact (delimited_list h).next fun _ => .pure trivial
  · split
    · refine delimited_u2.next fun _ => .lookup fun value _ => ?_
      split
      · exact .pure trivial
      · exact .throw
    · exact .throw

/-- The tag takes a byte, so what is nested has the less input. -/
theorem agree_decodeWith {n : Nat} {nested nested' : Decoder ElementValue}
    (hAgree : Agree n nested nested') (h : Delimited nested fun _ _ => True) :
    Agree (n + 1) (decodeWith pool nested) (decodeWith pool nested') := by
  refine .after fixed_u1 fun m tag _ hm => ?_
  subst hm
  generalize Char.ofNat tag.toNat = letter
  split
  · exact .refl _
  · exact .refl _
  · refine Agree.last ?_
    exact Annotation.agree_decodeWith hAgree h
  · exact (hAgree.list h).last
  · exact .refl _

theorem delimited_decodeTo (depth : Nat) :
    Delimited (decodeTo pool depth) fun _ _ => True := by
  induction depth with
  | zero => exact .throw
  | succ depth ih => exact delimited_decodeWith ih

theorem agree_decodeTo {n m : Nat} (h : n ≤ m) :
    Agree n (decodeTo pool n) (decodeTo pool m) := by
  induction n generalizing m with
  | zero =>
    intro s hs
    obtain rfl := List.length_eq_zero_iff.mp (Nat.le_zero.mp hs)
    cases m <;> rfl
  | succ n ih =>
    cases m with
    | zero => cases h
    | succ m => exact agree_decodeWith (ih (Nat.le_of_succ_le_succ h)) (delimited_decodeTo n)

theorem agree_decode (n : Nat) : Agree n (decodeTo pool n) (decode pool) :=
  fun s hs => (agree_decodeTo hs s (Nat.le_refl _)).symm

theorem delimited_decode : Delimited (decode pool) fun _ _ => True :=
  .of_agree delimited_decodeTo agree_decode

end ElementValue

theorem Annotation.delimited_decode : Delimited (decode pool) fun _ _ => True := by
  have hLevel (n : Nat) : Delimited (decodeWith pool (ElementValue.decodeTo pool n))
      fun _ _ => True := delimited_decodeWith (ElementValue.delimited_decodeTo n)
  refine .of_agree hLevel fun n s hs => ?_
  have hDeeper : Agree s.length (decodeWith pool (ElementValue.decodeTo pool s.length))
      (decodeWith pool (ElementValue.decodeTo pool n)) :=
    agree_decodeWith (ElementValue.agree_decodeTo hs) (ElementValue.delimited_decodeTo s.length)
  exact (hDeeper s (Nat.le_refl _)).symm

theorem VerificationType.delimited_decode : Delimited (decode pool) fun _ _ => True := by
  refine delimited_u1.next fun tag => ?_
  split
  case h_8 => exact delimited_u2.next fun _ => .lookup fun _ _ => .pure trivial
  case h_9 => exact delimited_u2.next fun _ => .pure trivial
  case h_10 => exact .throw
  all_goals exact .pure trivial

theorem StackMapFrame.delimited_decode : Delimited (decode pool) fun _ _ => True := by
  have hType : Delimited (VerificationType.decode pool) fun _ _ => True :=
    VerificationType.delimited_decode
  have hTypes (k : Nat) : Delimited (Decoder.count k (VerificationType.decode pool))
      fun _ _ => True := (delimited_count hType k).imp fun _ _ _ => trivial
  refine delimited_u1.next fun tag => ?_
  split
  · exact .pure trivial
  split
  · exact hType.next fun _ => .pure trivial
  refine Delimited.guarded (p := tag < 247) fun _ => delimited_u2.next fun delta => ?_
  split
  · exact hType.next fun _ => .pure trivial
  split
  · exact .pure trivial
  split
  · exact .pure trivial
  split
  · exact (hTypes _).next fun _ => .pure trivial
  · exact (delimited_list hType).next fun _ => (delimited_list hType).next fun _ => .pure trivial

theorem Decoder.delimited_index {α : Type} {lookup : UInt16 → Except ReadError α} :
    Delimited (do lookup (← Decoder.u2)) fun _ _ => True :=
  delimited_u2.bind fun _ _ _ => .lift fun _ _ => trivial

theorem ExceptionHandler.delimited_decode : Delimited (decode pool) fun _ _ => True :=
  delimited_u2.next fun _ => delimited_u2.next fun _ => delimited_u2.next fun _ =>
    delimited_u2.next fun _ => .lookup fun _ _ => .pure trivial

theorem InnerClass.delimited_decode : Delimited (decode pool) fun _ _ => True :=
  delimited_u2.next fun _ => delimited_u2.next fun _ => delimited_u2.next fun _ =>
    delimited_u2.next fun _ => .lookup fun _ _ => .lookup fun _ _ => .lookup fun _ _ => .pure trivial

theorem LineNumber.delimited_decode : Delimited decode fun _ _ => True :=
  delimited_u2.next fun _ => delimited_u2.next fun _ => .pure trivial

theorem LocalVariable.delimited_decode : Delimited (decode pool) fun _ _ => True :=
  delimited_u2.next fun _ => delimited_u2.next fun _ => delimited_u2.next fun _ =>
    delimited_u2.next fun _ => delimited_u2.next fun _ => .lookup fun _ _ => .lookup fun _ _ =>
      .pure trivial

theorem TypeAnnotation.delimited_targetInfo (tag : UInt8) :
    Delimited (targetInfo tag) fun _ _ => True := by
  have hTake (k : Nat) : Delimited (Decoder.take k) fun _ _ => True :=
    (delimited_take k).imp fun _ _ _ => trivial
  unfold targetInfo
  split
  · exact hTake 1
  split
  · exact hTake 2
  split
  · exact .pure trivial
  split
  · exact delimited_u2.next fun count => (hTake (6 * count.toNat)).next fun _ => .pure trivial
  split
  · exact hTake 3
  · exact .throw

theorem TypeAnnotation.delimited_decode : Delimited (decode pool) fun _ _ => True :=
  delimited_u1.next fun tag => (delimited_targetInfo tag).next fun _ => delimited_u1.next fun _ =>
    (delimited_take _).next fun _ => Annotation.delimited_decode.next fun _ => .pure trivial

theorem BootstrapMethod.delimited_decode : Delimited (decode pool) fun _ _ => True := by
  refine delimited_u2.next fun _ => (delimited_list delimited_index).next fun _ =>
    .lookup fun method _ => ?_
  split
  · exact .pure trivial
  · exact .throw

theorem MethodParameter.delimited_decode : Delimited (decode pool) fun _ _ => True :=
  delimited_u2.next fun _ => delimited_u2.next fun _ => .lookup fun _ _ => .pure trivial

theorem ModuleRequire.delimited_decode : Delimited (decode pool) fun _ _ => True :=
  delimited_u2.next fun _ => delimited_u2.next fun _ => delimited_u2.next fun _ =>
    .lookup fun _ _ => .lookup fun _ _ => .pure trivial

theorem ModuleExport.delimited_decode : Delimited (decode pool) fun _ _ => True :=
  delimited_u2.next fun _ => delimited_u2.next fun _ => (delimited_list delimited_index).next
    fun _ => .lookup fun _ _ => .pure trivial

theorem ModuleProvide.delimited_decode : Delimited (decode pool) fun _ _ => True :=
  delimited_u2.next fun _ => (delimited_list delimited_index).next fun _ => .lookup fun _ _ =>
    .pure trivial

theorem ModuleInfo.delimited_decode : Delimited (decode pool) fun _ _ => True :=
  have hExports : Delimited (list (ModuleExport.decode pool)) fun _ _ => True :=
    delimited_list ModuleExport.delimited_decode
  delimited_u2.next fun _ => delimited_u2.next fun _ => delimited_u2.next fun _ =>
    (delimited_list ModuleRequire.delimited_decode).next fun _ => hExports.next fun _ =>
      hExports.next fun _ => (delimited_list delimited_index).next fun _ =>
        (delimited_list ModuleProvide.delimited_decode).next fun _ => .lookup fun _ _ =>
          .lookup fun _ _ => .pure trivial

theorem PlainAttribute.delimited_of_body {name : String} {d : Decoder PlainAttribute}
    (hBody : body pool name = some d) : Delimited d fun _ _ => True := by
  unfold body at hBody
  dsimp only at hBody
  split at hBody
  case h_28 => cases hBody
  all_goals cases hBody
  case h_1 => exact delimited_u2.next fun _ => .lookup fun _ _ => .pure trivial
  case h_2 => exact .map (delimited_list StackMapFrame.delimited_decode)
  case h_3 | h_23 | h_24 | h_26 => exact .map (delimited_list delimited_index)
  case h_4 => exact .map (delimited_list InnerClass.delimited_decode)
  case h_5 =>
    exact delimited_u2.next fun _ => delimited_u2.next fun _ => .lookup fun _ _ => .lookup
      fun _ _ => .pure trivial
  case h_6 | h_7 => exact .pure trivial
  case h_8 | h_9 | h_22 | h_27 => exact .map delimited_index
  case h_10 => exact .map (delimited_list LineNumber.delimited_decode)
  case h_11 | h_12 => exact .map (delimited_list LocalVariable.delimited_decode)
  case h_13 | h_14 => exact .map (delimited_list Annotation.delimited_decode)
  case h_15 | h_16 =>
    exact .map (delimited_shortList (delimited_list Annotation.delimited_decode))
  case h_17 | h_18 => exact .map (delimited_list TypeAnnotation.delimited_decode)
  case h_19 => exact .map ElementValue.delimited_decode
  case h_20 => exact .map (delimited_list BootstrapMethod.delimited_decode)
  case h_21 => exact .map (delimited_shortList MethodParameter.delimited_decode)
  case h_25 => exact .map ModuleInfo.delimited_decode

section Nested

variable {nested nested' : RawAttribute → Except ReadError Attribute}

theorem Code.delimited_decodeWith : Delimited (decodeWith pool nested) fun _ _ => True :=
  delimited_u2.next fun _ => delimited_u2.next fun _ => delimited_u4.next fun _ =>
    (delimited_take _).next fun _ => .lookup fun _ _ =>
      (delimited_list ExceptionHandler.delimited_decode).next fun _ =>
        RawAttribute.delimited_decodeList.next fun _ => .lookups fun _ => .pure trivial

theorem RecordComponent.delimited_decodeWith : Delimited (decodeWith pool nested) fun _ _ => True :=
  delimited_u2.next fun _ => delimited_u2.next fun _ => RawAttribute.delimited_decodeList.next
    fun _ => .lookup fun _ _ => .lookup fun _ _ => .lookups fun _ => .pure trivial

/-- A payload inside is shorter than the table that it was read with. -/
theorem RawAttribute.takes_decodeList :
    Takes decodeList fun n raws => ∀ raw ∈ raws, raw.payload.length < n := by
  apply (takes_list takes_decode).imp
  rintro _ raws ⟨-, ns, hRaws, rfl⟩ raw hRaw
  obtain ⟨m, hm, hLength, -⟩ := Outcome.exists_of_mem hRaws raw hRaw
  have hSum := List.single_le_sum (fun _ _ => Nat.zero_le _) m hm
  omega

section Agreement

variable {n : Nat} (h : ∀ raw : RawAttribute, raw.payload.length < n → nested raw = nested' raw)

include h

theorem Decoder.agree_attributes {α : Type} {m k : Nat} (hm : m ≤ n) {raws : List RawAttribute}
    (hRaws : ∀ raw ∈ raws, raw.payload.length < m) {f : List Attribute → Decoder α} :
    Agree k ((raws.mapM fun raw => (liftM (nested raw) : Decoder Attribute)) >>= f)
      ((raws.mapM fun raw => (liftM (nested' raw) : Decoder Attribute)) >>= f) := by
  have hSame : (raws.mapM fun raw => (liftM (nested raw) : Decoder Attribute)) =
      raws.mapM fun raw => (liftM (nested' raw) : Decoder Attribute) := by
    induction raws with
    | nil => rfl
    | cons raw raws ih =>
      obtain ⟨hHead, hTail⟩ := List.forall_mem_cons.mp hRaws
      rw [List.mapM_cons, List.mapM_cons, h raw (by omega), ih hTail]
  rw [hSame]
  exact .refl _

theorem Code.agree_decodeWith : Agree n (decodeWith pool nested) (decodeWith pool nested') := by
  have hHandlers := (delimited_list (d := ExceptionHandler.decode pool)
    ExceptionHandler.delimited_decode).takes
  refine .after fixed_u2 fun _ maxStack _ _ => .after fixed_u2 fun _ maxLocals _ _ =>
    .after fixed_u4 fun _ length _ _ => .after (takes_take _) fun _ bytecode _ _ => ?_
  refine .after (T := fun _ _ => True) (.lift fun _ _ => trivial) fun _ instructions _ _ =>
    .after hHandlers fun _ handlers _ _ => .after RawAttribute.takes_decodeList fun m raws hm hRaws => ?_
  exact agree_attributes h (by omega) hRaws

theorem RecordComponent.agree_decodeWith :
    Agree n (decodeWith pool nested) (decodeWith pool nested') := by
  refine .after fixed_u2 fun _ name _ _ => .after fixed_u2 fun _ descriptor _ _ =>
    .after RawAttribute.takes_decodeList fun m raws hm hRaws => ?_
  refine .after (T := fun _ _ => True) (.lift fun _ _ => trivial) fun _ name _ _ =>
    .after (T := fun _ _ => True) (.lift fun _ _ => trivial) fun _ descriptor _ _ => ?_
  exact agree_attributes h (by omega) hRaws

theorem Attribute.agree_body (name : String) :
    Option.Rel (Agree n) (body pool nested name) (body pool nested' name) := by
  unfold body
  split
  · exact .some (Code.agree_decodeWith h).map
  split
  · exact .some ((RecordComponent.agree_decodeWith h).list RecordComponent.delimited_decodeWith).map
  · cases PlainAttribute.body pool name with
    | none => exact .none
    | some d => exact .some (.refl _)

end Agreement

theorem Attribute.delimited_of_body {name : String} {d : Decoder Attribute}
    (hBody : body pool nested name = some d) : Delimited d fun _ _ => True := by
  unfold body at hBody
  split at hBody
  · cases hBody
    exact .map Code.delimited_decodeWith
  split at hBody
  · cases hBody
    exact .map (delimited_list RecordComponent.delimited_decodeWith)
  · obtain ⟨plain, hPlain, rfl⟩ := Option.map_eq_some_iff.mp hBody
    exact .map (PlainAttribute.delimited_of_body hPlain)

end Nested

namespace Attribute

theorem decodeTo_congr {raw : RawAttribute} {n m : Nat} (hn : raw.payload.length < n)
    (hm : raw.payload.length < m) : decodeTo pool n raw = decodeTo pool m raw := by
  induction n generalizing m raw with
  | zero => cases hn
  | succ n ih =>
    cases m with
    | zero => cases hm
    | succ m =>
      rw [decodeTo, decodeTo]
      cases pool.utf8 raw.name with
      | error e => rw [Outcome.error_bind, Outcome.error_bind]
      | ok name =>
        have hRel : Option.Rel (Agree raw.payload.length) (body pool (decodeTo pool n) name)
            (body pool (decodeTo pool m) name) :=
          agree_body (fun inner hInner => ih (by omega) (by omega)) name
        simp only [Outcome.ok_bind]
        generalize body pool (decodeTo pool n) name = old at hRel ⊢
        generalize body pool (decodeTo pool m) name = new at hRel ⊢
        cases hRel with
        | none => rfl
        | some hAgree => simp only [Decoder.exactly, hAgree raw.payload (Nat.le_refl _)]

/-- No depth is needed to say how an attribute is read: those inside are read in the same way. -/
theorem decode_of_body {raw : RawAttribute} {name : String} {d : Decoder Attribute}
    (hName : pool.utf8 raw.name = .ok name) (hBody : body pool (decode pool) name = some d) :
    decode pool raw = d.exactly name raw.payload := by
  have hRel : Option.Rel (Agree raw.payload.length)
      (body pool (decodeTo pool raw.payload.length) name) (body pool (decode pool) name) :=
    agree_body (fun inner hInner => decodeTo_congr hInner (Nat.lt_succ_self _)) name
  rw [decode, decodeTo, hName, Outcome.ok_bind]
  rw [hBody] at hRel
  generalize body pool (decodeTo pool raw.payload.length) name = old at hRel ⊢
  cases hRel with
  | some hAgree => simp only [Decoder.exactly, hAgree raw.payload (Nat.le_refl _)]

/-- The names of the attributes whose payload is decoded. One of any other name is kept as bytes. -/
def decodedNames : List String :=
  ["Code", "Record", "ConstantValue", "StackMapTable", "Exceptions", "InnerClasses",
    "EnclosingMethod", "Synthetic", "Deprecated", "Signature", "SourceFile", "LineNumberTable",
    "LocalVariableTable", "LocalVariableTypeTable", "RuntimeVisibleAnnotations",
    "RuntimeInvisibleAnnotations", "RuntimeVisibleParameterAnnotations",
    "RuntimeInvisibleParameterAnnotations", "RuntimeVisibleTypeAnnotations",
    "RuntimeInvisibleTypeAnnotations", "AnnotationDefault", "BootstrapMethods",
    "MethodParameters", "NestHost", "NestMembers", "PermittedSubclasses", "Module",
    "ModulePackages", "ModuleMainClass"]

theorem body_isSome_iff {nested : RawAttribute → Except ReadError Attribute} {name : String} :
    (body pool nested name).isSome ↔ name ∈ decodedNames := by
  unfold body
  split
  · rename_i hCode
    simp [decodedNames, hCode]
  split
  · rename_i hRecord
    simp [decodedNames, hRecord]
  rename_i hCode hRecord
  rw [Option.isSome_map]
  unfold PlainAttribute.body
  dsimp only
  split
  case h_28 => simp_all [decodedNames]
  all_goals simp [decodedNames]

/-- Let the payload of an attribute be decoded with success. If it is cut off anywhere, or anything is
put behind it, it cannot be decoded, and the fault is that of the attribute's own length. -/
theorem payload_delimits {raw : RawAttribute} {name : String} {a : Attribute}
    (hName : pool.utf8 raw.name = .ok name) (hDecoded : name ∈ decodedNames)
    (h : decode pool raw = .ok a) :
    (∀ front last, raw.payload = front ++ last → last ≠ [] →
        decode pool { raw with payload := front } = .error (.invalidAttribute (.length name))) ∧
      ∀ more, more ≠ [] → decode pool { raw with payload := raw.payload ++ more } =
        .error (.invalidAttribute (.length name)) := by
  obtain ⟨d, hBody⟩ := Option.isSome_iff_exists.mp (body_isSome_iff.mpr hDecoded)
  rw [decode_of_body hName hBody, exactly_eq_ok] at h
  obtain ⟨piece, hPiece, hRead, hCut, -⟩ := delimited_of_body hBody _ _ _ h
  rw [List.append_nil] at hPiece
  subst hPiece
  constructor
  · intro front last hSplit hLast
    have hFront : decode pool ⟨raw.name, front⟩ = d.exactly name front := decode_of_body hName hBody
    rw [hFront, Decoder.exactly, hCut front last hSplit hLast]
  · intro more hMore
    have hLonger : decode pool ⟨raw.name, raw.payload ++ more⟩ =
        d.exactly name (raw.payload ++ more) := decode_of_body hName hBody
    rw [hLonger, Decoder.exactly, hRead more]
    cases more with
    | nil => exact absurd rfl hMore
    | cons b more => rfl

def annotatedRecord : RawAttribute :=
  ⟨1, [0, 1, 0, 2, 0, 3, 0, 1, 0, 4, 0, 0, 0, 11, 0, 1, 0, 5, 0, 1, 0, 6, 99, 0, 3]⟩

def annotatedPool : Pool :=
  ⟨#[.utf8 "Record", .utf8 "x", .utf8 "I", .utf8 "RuntimeVisibleAnnotations", .utf8 "LA;", .utf8 "v"]⟩

theorem payload_delimits_annotatedRecord :
    annotatedPool.utf8 annotatedRecord.name = .ok "Record" ∧ "Record" ∈ decodedNames ∧
      decode annotatedPool annotatedRecord = .ok (.record
        [⟨"x", "I", [.plain (.annotations .visible [⟨"LA;", [("v", .classLiteral "I")]⟩])]⟩]) ∧
      decode annotatedPool ⟨1, annotatedRecord.payload.take 19⟩ =
        .error (.invalidAttribute (.length "Record")) ∧
      decode annotatedPool ⟨1, annotatedRecord.payload ++ [0]⟩ =
        .error (.invalidAttribute (.length "Record")) := by
  have hName : annotatedPool.utf8 annotatedRecord.name = .ok "Record" := by rfl
  have hDecoded : "Record" ∈ decodedNames := by decide
  have hDecode : decode annotatedPool annotatedRecord = .ok (.record
      [⟨"x", "I", [.plain (.annotations .visible [⟨"LA;", [("v", .classLiteral "I")]⟩])]⟩]) := by
    rfl
  obtain ⟨hCut, hMore⟩ := payload_delimits hName hDecoded hDecode
  have hSplit := (List.take_append_drop 19 annotatedRecord.payload).symm
  exact ⟨hName, hDecoded, hDecode, hCut _ _ hSplit (by decide), hMore [0] (by decide)⟩

end Attribute

end Renaming
