import Renaming.Proofs.ClassFile.Supply

/-!
# Annotations are repaid

A reader of element values that may go down one level more repays the bytes if the reader for the
values inside does.
-/

namespace Renaming

open Decoder (Takes fixed_u1 fixed_u2)
open Encoder (Runs Repays Supplies repays_list)

variable {P : Pool} {L : Constant → Prop} {I : PoolBuilder → Prop} (hI : Supplies P L I)

namespace ElementValue

theorem runs_encodeElements {ns : List Nat} {elements : List (String × ElementValue)}
    (h : List.Forall₂ (fun n e => Runs I (PoolBuilder.utf8 e.1) (fun _ => True) ∧
      Runs I e.2.encode fun bs => 2 + bs.length = n) ns elements) :
    Runs I (encodeElements elements) fun bs => bs.length = ns.sum := by
  induction h with
  | nil => exact .pure rfl
  | @cons n e ns elements hHead _ ih =>
    obtain ⟨name, value⟩ := e
    refine hHead.1.bind fun i _ => hHead.2.bind fun bs hBs => ih.bind fun rest hRest => .pure ?_
    simp [hRest, ← hBs, Nat.add_assoc]

theorem runs_encodeValues {ns : List Nat} {values : List ElementValue}
    (h : List.Forall₂ (fun n v => Runs I (encode v) fun bs => bs.length = n) ns values) :
    Runs I (encodeValues values) fun bs => bs.length = ns.sum := by
  induction h with
  | nil => exact .pure rfl
  | cons hHead _ ih =>
    refine hHead.bind fun bs hBs => ih.bind fun rest hRest => .pure ?_
    simp [hBs, hRest]

end ElementValue

include hI

theorem Annotation.repays_decodeWith {value : Decoder ElementValue}
    (hValue : Repays I value ElementValue.encode) : Repays I (decodeWith P value) encode := by
  have hElement : Takes (do
      let name ← Decoder.u2
      let value ← value
      return (← P.utf8 name, value)) fun n e => Runs I (PoolBuilder.utf8 e.1) (fun _ => True) ∧
        Runs I e.2.encode fun bs => 2 + bs.length = n := by
    refine fixed_u2.bind fun i => hValue.bind fun n v hv => .lookup fun name hName => .pure ?_
    exact ⟨hI.utf8 hName, hv.imp fun bs hBs => congrArg (2 + ·) hBs⟩
  refine fixed_u2.bind fun i => (Decoder.takes_list hElement).bind ?_
  rintro _ elements ⟨hLength, ns, hElements, rfl⟩
  refine .lookup fun type hType => .pure ?_
  refine (hI.utf8 hType).bind fun j _ => (Encoder.runs_length2 hLength).bind fun count hCount =>
    (ElementValue.runs_encodeElements hElements).bind fun bs hBs => .pure ?_
  simp [hCount, hBs]

namespace ElementValue

omit hI in
theorem encode_nested (a : Annotation) :
    encode (.nested a.type a.elements) = (fun bs => 0x40 :: bs) <$> a.encode := by
  simp [encode, Annotation.encode]

theorem repays_decodeWith {nested : Decoder ElementValue} (hNested : Repays I nested encode) :
    Repays I (decodeWith P nested) encode := by
  apply fixed_u1.bind
  intro tag
  split
  · refine fixed_u2.bind fun _ => fixed_u2.bind fun _ => .lookup fun type hType => .lookup
      fun name hName => .pure ?_
    exact (hI.utf8 hType).bind fun i _ => (hI.utf8 hName).bind fun j _ => .pure (by simp)
  · refine fixed_u2.bind fun _ => .lookup fun descriptor hDescriptor => .pure ?_
    exact (hI.utf8 hDescriptor).bind fun i _ => .pure (by simp)
  · have hAnnotation := Annotation.repays_decodeWith hI hNested
    apply hAnnotation.bind
    intro n a ha
    apply Takes.pure
    rw [encode_nested]
    exact (ha.imp fun bs hBs => by simp [hBs, Nat.add_comm]).map
  · apply (Decoder.takes_list hNested).bind
    rintro _ values ⟨hLength, ns, hValues, rfl⟩
    apply Takes.pure
    refine (Encoder.runs_length2 hLength).bind fun count hCount => (runs_encodeValues hValues).bind
      fun bs hBs => .pure ?_
    simp [hCount, hBs]
    omega
  · split
    · refine fixed_u2.bind fun _ => .lookup fun value hValue => ?_
      split
      · apply Takes.pure
        exact (hI.names (Pool.constant_eq_ok.mp hValue)).bind fun i _ => .pure (by simp)
      · exact .throw
    · exact .throw

theorem repays_decodeTo (depth : Nat) : Repays I (decodeTo P depth) encode := by
  induction depth with
  | zero => exact .throw
  | succ depth ih => exact repays_decodeWith hI ih

theorem repays : Repays I (decode P) encode := fun s => repays_decodeTo hI s.length s

end ElementValue

theorem Annotation.repays : Repays I (decode P) encode := fun s =>
  Annotation.repays_decodeWith hI (ElementValue.repays_decodeTo hI s.length) s

namespace TypeAnnotation

omit hI in
theorem takes_targetInfo (tag : UInt8) : Takes (targetInfo tag) fun n info => info.length = n := by
  have hTake (k : Nat) : Takes (Decoder.take k) fun n bs => bs.length = n :=
    (Decoder.takes_take k).imp fun n bs h => h.2.trans h.1.symm
  unfold targetInfo
  split
  · exact hTake 1
  split
  · exact hTake 2
  split
  · exact .pure rfl
  split
  · refine fixed_u2.bind fun count => (hTake _).bind fun n entries hEntries => .pure ?_
    simp [hEntries]
  split
  · exact hTake 3
  · exact .throw

theorem repays : Repays I (decode P) encode := by
  refine fixed_u1.bind fun tag => (takes_targetInfo tag).bind fun n info hInfo =>
    fixed_u1.bind fun count => (Decoder.takes_take _).bind ?_
  rintro _ path ⟨rfl, hPath⟩
  have hAnnotation := Annotation.repays hI
  refine hAnnotation.bind fun m a ha => .pure (ha.bind fun bs hBs => .pure ?_)
  simp [hInfo, hPath, hBs]
  omega

end TypeAnnotation

end Renaming
