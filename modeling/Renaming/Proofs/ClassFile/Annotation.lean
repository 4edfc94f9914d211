import Renaming.ClassFile.Annotation
import Renaming.Proofs.ClassFile.Encoder

/-!
# Annotations that are written can be read

Element values nest, and a reader goes down only so many levels. Since every level takes at least
one byte, the reader that is allowed as many levels as there are bytes never runs out of them, so
what is written for a value is read back at every depth from its length on.
-/

namespace Renaming

open Stateful

/-- The element values that can be read from a file whose pool holds the constants of `K`. -/
inductive ElementValue.WellFormed (K : Constant → Prop) : ElementValue → Prop
  | const {tag value} (hFits : fits (Char.ofNat tag.toNat) value = true) (hValue : K value) :
      WellFormed K (.const tag value)
  | enum {type name} (hType : K (.utf8 type)) (hName : K (.utf8 name)) :
      WellFormed K (.enum type name)
  | classLiteral {descriptor} (hDescriptor : K (.utf8 descriptor)) :
      WellFormed K (.classLiteral descriptor)
  | nested {type elements} (hType : K (.utf8 type)) (hNames : ∀ e ∈ elements, K (.utf8 e.1))
      (hValues : ∀ e ∈ elements, WellFormed K e.2) : WellFormed K (.nested type elements)
  | array {values} (hValues : ∀ v ∈ values, WellFormed K v) : WellFormed K (.array values)

def Annotation.WellFormed (K : Constant → Prop) (a : Annotation) : Prop :=
  ElementValue.WellFormed K (.nested a.type a.elements)

section Reading

variable {P : Pool} {s t : Bytes}

theorem Annotation.wellFormed_of_decodeWith {value : Decoder ElementValue} {a : Annotation}
    (hValue : ∀ s v t, value s = .ok (v, t) → v.WellFormed P.Holds)
    (h : decodeWith P value s = .ok (a, t)) : a.WellFormed P.Holds := by
  obtain ⟨i, _, -, h⟩ := bind_eq_ok.mp h
  obtain ⟨elements, _, hElements, h⟩ := bind_eq_ok.mp h
  obtain ⟨type, _, hType, h⟩ := bind_eq_ok.mp h
  obtain ⟨rfl, -⟩ := pure_eq_ok.mp h
  have hEach : ∀ e ∈ elements, P.Holds (.utf8 e.1) ∧ e.2.WellFormed P.Holds := by
    intro e he
    obtain ⟨s', t', hItem⟩ := Decoder.list_eq_ok hElements e he
    obtain ⟨j, _, -, hItem⟩ := bind_eq_ok.mp hItem
    obtain ⟨v, _, hv, hItem⟩ := bind_eq_ok.mp hItem
    obtain ⟨name, _, hName, hItem⟩ := bind_eq_ok.mp hItem
    obtain ⟨rfl, -⟩ := pure_eq_ok.mp hItem
    exact ⟨(Pool.utf8_eq_ok.mp (lift_eq_ok.mp hName).1).holds, hValue _ v _ hv⟩
  exact .nested (Pool.utf8_eq_ok.mp (lift_eq_ok.mp hType).1).holds (fun e he => (hEach e he).1)
    fun e he => (hEach e he).2

namespace ElementValue

theorem wellFormed_of_decodeWith {nested : Decoder ElementValue} {v : ElementValue}
    (hNested : ∀ s v t, nested s = .ok (v, t) → v.WellFormed P.Holds)
    (h : decodeWith P nested s = .ok (v, t)) : v.WellFormed P.Holds := by
  obtain ⟨tag, _, -, h⟩ := bind_eq_ok.mp h
  generalize hLetter : Char.ofNat tag.toNat = letter at h
  split at h
  · obtain ⟨i, _, -, h⟩ := bind_eq_ok.mp h
    obtain ⟨j, _, -, h⟩ := bind_eq_ok.mp h
    obtain ⟨type, _, hType, h⟩ := bind_eq_ok.mp h
    obtain ⟨name, _, hName, h⟩ := bind_eq_ok.mp h
    obtain ⟨rfl, -⟩ := pure_eq_ok.mp h
    exact .enum (Pool.utf8_eq_ok.mp (lift_eq_ok.mp hType).1).holds
      (Pool.utf8_eq_ok.mp (lift_eq_ok.mp hName).1).holds
  · obtain ⟨i, _, -, h⟩ := bind_eq_ok.mp h
    obtain ⟨descriptor, _, hDescriptor, h⟩ := bind_eq_ok.mp h
    obtain ⟨rfl, -⟩ := pure_eq_ok.mp h
    exact .classLiteral (Pool.utf8_eq_ok.mp (lift_eq_ok.mp hDescriptor).1).holds
  · obtain ⟨a, _, ha, h⟩ := bind_eq_ok.mp h
    obtain ⟨rfl, -⟩ := pure_eq_ok.mp h
    exact Annotation.wellFormed_of_decodeWith hNested ha
  · obtain ⟨values, _, hValues, h⟩ := bind_eq_ok.mp h
    obtain ⟨rfl, -⟩ := pure_eq_ok.mp h
    refine .array fun v hv => ?_
    obtain ⟨s', t', hItem⟩ := Decoder.list_eq_ok hValues v hv
    exact hNested s' v t' hItem
  · split at h
    · obtain ⟨i, _, -, h⟩ := bind_eq_ok.mp h
      obtain ⟨value, _, hValue, h⟩ := bind_eq_ok.mp h
      split at h
      · rename_i hFits
        rw [← hLetter] at hFits
        obtain ⟨rfl, -⟩ := pure_eq_ok.mp h
        exact .const hFits (Pool.constant_eq_ok.mp (lift_eq_ok.mp hValue).1).holds
      · exact absurd h throw_ne_ok
    · exact absurd h throw_ne_ok

theorem wellFormed_of_decodeTo {depth : Nat} {v : ElementValue}
    (h : decodeTo P depth s = .ok (v, t)) : v.WellFormed P.Holds := by
  induction depth generalizing s v t with
  | zero => exact absurd h throw_ne_ok
  | succ depth ih => exact wellFormed_of_decodeWith (fun _ _ _ => ih) h

theorem wellFormed_of_decode {v : ElementValue} (h : decode P s = .ok (v, t)) :
    v.WellFormed P.Holds := by
  rw [decode, get_bind_apply] at h
  exact wellFormed_of_decodeTo h

end ElementValue

theorem Annotation.wellFormed_of_decode {a : Annotation} (h : decode P s = .ok (a, t)) :
    a.WellFormed P.Holds := by
  rw [decode, get_bind_apply] at h
  exact wellFormed_of_decodeWith (fun _ _ _ => ElementValue.wellFormed_of_decodeTo) h

end Reading

/-- The bytes `bs` stand for `v`, for every reader that may go down as many levels. -/
def ElementValue.Stored (P : Pool) (bs : Bytes) (v : ElementValue) : Prop :=
  ∀ depth, bs.length ≤ depth → Decoder.Reads (decodeTo P depth) bs v

def ElementValue.StoredElement (P : Pool) (bs : Bytes) (e : String × ElementValue) : Prop :=
  ∃ (i : UInt16) (value : Bytes), bs = Bytes.u2 i ++ value ∧ P.Names i (.utf8 e.1) ∧
    ElementValue.Stored P value e.2

section Writing

variable {P : Pool} {K : Constant → Prop}

open Decoder in
theorem Annotation.reads_element {depth : Nat} {bs : Bytes} {e : String × ElementValue}
    (h : ElementValue.StoredElement P bs e) (hDepth : bs.length ≤ depth) :
    Reads (do
      let name ← Decoder.u2
      let value ← ElementValue.decodeTo P depth
      return (← P.utf8 name, value)) bs e := by
  obtain ⟨i, value, rfl, hName, hValue⟩ := h
  rw [List.length_append] at hDepth
  have hRead := (hValue depth (by omega)).bind (f := fun v => do return (← P.utf8 i, v))
    (Reads.lift_bind (Pool.utf8_eq_ok.mpr hName) (Reads.pure (e.1, e.2)))
  exact (reads_u2 i).bind (hRead.of_eq (List.append_nil _).symm)

theorem forall₂_of_length {α : Type} {T U : Bytes → α → Prop} {pieces : List Bytes} {as : List α}
    {n : Nat} (hPieces : List.Forall₂ T pieces as) (hLength : pieces.flatten.length ≤ n)
    (hTU : ∀ bs a, bs.length ≤ n → T bs a → U bs a) : List.Forall₂ U pieces as := by
  induction hPieces with
  | nil => exact .nil
  | cons hHead _ ih =>
    rw [List.flatten_cons, List.length_append] at hLength
    exact .cons (hTU _ _ (by omega) hHead) (ih (by omega))

open Decoder in
theorem Annotation.reads_decodeWith {depth : Nat} {i : UInt16} {pieces : List Bytes}
    {a : Annotation} (hType : P.Names i (.utf8 a.type))
    (hPieces : List.Forall₂ (ElementValue.StoredElement P) pieces a.elements)
    (hCount : a.elements.length ≤ 65535) (hDepth : pieces.flatten.length ≤ depth) :
    Reads (decodeWith P (ElementValue.decodeTo P depth))
      (Bytes.u2 i ++ (Bytes.u2 (UInt16.ofNat a.elements.length) ++ pieces.flatten)) a := by
  refine (reads_u2 i).bind ?_
  have hElements := reads_list (forall₂_of_length hPieces hDepth
    fun _ _ hLength h => reads_element h hLength) hCount
  refine (hElements.bind ?_).of_eq (List.append_nil _).symm
  exact Reads.lift_bind (Pool.utf8_eq_ok.mpr hType) (Reads.pure a)

namespace ElementValue

theorem emits_encodeElements (hK : Constant.Closed K) {elements : List (String × ElementValue)}
    (hNames : ∀ e ∈ elements, K (.utf8 e.1))
    (h : ∀ e ∈ elements, Encoder.Emits K e.2.encode fun P bs => Stored P bs e.2) :
    Encoder.Emits K (encodeElements elements) fun P bs =>
      ∃ pieces, List.Forall₂ (StoredElement P) pieces elements ∧ bs = pieces.flatten := by
  induction elements with
  | nil => exact .pure fun P => ⟨[], .nil, rfl⟩
  | cons e elements ih =>
    obtain ⟨name, value⟩ := e
    obtain ⟨hName, hNames⟩ := List.forall_mem_cons.mp hNames
    obtain ⟨hHead, hTail⟩ := List.forall_mem_cons.mp h
    refine (Encoder.emits_utf8 hK hName).bind fun i => hHead.bind fun bs =>
      (ih hNames hTail).bind fun rest => .pure fun P hRest hBs hi => ?_
    obtain ⟨pieces, hPieces, rfl⟩ := hRest
    exact ⟨(Bytes.u2 i ++ bs) :: pieces, .cons ⟨i, bs, rfl, hi, hBs⟩ hPieces, rfl⟩

theorem emits_encodeValues {values : List ElementValue}
    (h : ∀ v ∈ values, Encoder.Emits K v.encode fun P bs => Stored P bs v) :
    Encoder.Emits K (encodeValues values) fun P bs =>
      ∃ pieces, List.Forall₂ (Stored P) pieces values ∧ bs = pieces.flatten := by
  induction values with
  | nil => exact .pure fun P => ⟨[], .nil, rfl⟩
  | cons v values ih =>
    obtain ⟨hHead, hTail⟩ := List.forall_mem_cons.mp h
    refine hHead.bind fun bs => (ih hTail).bind fun rest => .pure fun P hRest hBs => ?_
    obtain ⟨pieces, hPieces, rfl⟩ := hRest
    exact ⟨bs :: pieces, .cons hBs hPieces, rfl⟩

open Decoder in
theorem stored_of_decodeWith {tag : UInt8} {bs : Bytes} {v : ElementValue}
    (h : ∀ depth, bs.length ≤ depth → Reads (decodeWith P (decodeTo P depth)) (tag :: bs) v) :
    Stored P (tag :: bs) v := by
  intro depth hDepth
  rw [List.length_cons] at hDepth
  cases depth with
  | zero => omega
  | succ depth => exact h depth (by omega)

/-- The tags of numbers and texts are none of those that have other values. -/
theorem mem_of_fits {letter : Char} {c : Constant} (h : fits letter c = true) :
    letter ∈ ['B', 'C', 'D', 'F', 'I', 'J', 'S', 'Z', 's'] := by
  cases c with
  | integer value =>
    have hSub : ['B', 'C', 'I', 'S', 'Z'] ⊆ ['B', 'C', 'D', 'F', 'I', 'J', 'S', 'Z', 's'] := by
      decide
    exact hSub (of_decide_eq_true h)
  | double | float | long | utf8 =>
    rw [of_decide_eq_true h]
    decide
  | _ => cases h

open Decoder in
theorem reads_const {depth : Nat} {tag : UInt8} {value : Constant} {i : UInt16}
    (hFits : fits (Char.ofNat tag.toNat) value = true) (hi : P.Names i value) :
    Reads (decodeWith P (decodeTo P depth)) (tag :: Bytes.u2 i) (.const tag value) := by
  refine (reads_u1 tag).bind ?_
  generalize Char.ofNat tag.toNat = letter at hFits ⊢
  have hRead : Reads (do
      let index ← Decoder.u2
      let value ← P.constant index
      if fits letter value then return const tag value
      throw (.unexpectedConstant index .matchingTag)) (Bytes.u2 i) (.const tag value) := by
    refine (reads_u2 i).bind (Reads.lift_bind (Pool.constant_eq_ok.mpr hi) ?_)
    rw [if_pos hFits]
    exact Reads.pure _
  have hLetter := mem_of_fits hFits
  simp only [List.mem_cons, List.not_mem_nil, or_false] at hLetter
  rcases hLetter with rfl | rfl | rfl | rfl | rfl | rfl | rfl | rfl | rfl <;> exact hRead

open Decoder in
theorem emits_encode (hK : Constant.Closed K) {v : ElementValue} (hv : v.WellFormed K) :
    Encoder.Emits K v.encode fun P bs => Stored P bs v := by
  induction hv with
  | @const tag value hFits hValue =>
    refine (Encoder.emits_constant hK hValue).bind fun i => .pure fun P hi => ?_
    exact stored_of_decodeWith fun depth _ => reads_const hFits hi
  | enum hType hName =>
    refine (Encoder.emits_utf8 hK hType).bind fun i => (Encoder.emits_utf8 hK hName).bind fun j =>
      .pure fun P hj hi => ?_
    refine stored_of_decodeWith fun depth _ => (reads_u1 0x65).bind ?_
    exact (reads_u2 i).bind ((reads_u2 j).bind (Reads.lift_bind (Pool.utf8_eq_ok.mpr hi)
      (Reads.lift_bind (Pool.utf8_eq_ok.mpr hj) (Reads.pure _))))
  | classLiteral hDescriptor =>
    refine (Encoder.emits_utf8 hK hDescriptor).bind fun i => .pure fun P hi => ?_
    refine stored_of_decodeWith fun depth _ => (reads_u1 0x63).bind ?_
    exact (reads_u2 i).bind (Reads.lift_bind (Pool.utf8_eq_ok.mpr hi) (Reads.pure _))
  | @nested type elements hType hNames _ ih =>
    refine (Encoder.emits_utf8 hK hType).bind fun i => Encoder.emits_length2.bind fun count =>
      (emits_encodeElements hK hNames ih).bind fun bs => .pure fun P hBs hCount hi => ?_
    obtain ⟨pieces, hPieces, rfl⟩ := hBs
    obtain ⟨hCount, rfl⟩ := hCount
    rw [List.cons_append, List.cons_append, List.append_assoc]
    refine stored_of_decodeWith fun depth hDepth => (reads_u1 0x40).bind ?_
    simp only [List.length_append] at hDepth
    have hRead := Annotation.reads_decodeWith (a := ⟨type, elements⟩) hi hPieces hCount
      (show pieces.flatten.length ≤ depth by omega)
    exact hRead.map fun a => ElementValue.nested a.type a.elements
  | @array values _ ih =>
    refine Encoder.emits_length2.bind fun count => (emits_encodeValues ih).bind fun bs =>
      .pure fun P hBs hCount => ?_
    obtain ⟨pieces, hPieces, rfl⟩ := hBs
    obtain ⟨hCount, rfl⟩ := hCount
    rw [List.cons_append]
    refine stored_of_decodeWith fun depth hDepth => (reads_u1 0x5b).bind ?_
    rw [List.length_append] at hDepth
    have hValues := reads_list (forall₂_of_length (n := depth) hPieces (by omega)
      fun _ _ hLength h => h depth hLength) hCount
    exact hValues.map ElementValue.array

end ElementValue

theorem Annotation.emits_encode (hK : Constant.Closed K) {a : Annotation} (ha : a.WellFormed K) :
    Encoder.Emits K a.encode fun P bs => Decoder.Reads (decode P) bs a := by
  cases ha with
  | nested hType hNames hValues =>
    refine (Encoder.emits_utf8 hK hType).bind fun i => Encoder.emits_length2.bind fun count =>
      (ElementValue.emits_encodeElements hK hNames
        fun e he => ElementValue.emits_encode hK (hValues e he)).bind fun bs =>
      .pure fun P hBs hCount hi => ?_
    obtain ⟨pieces, hPieces, rfl⟩ := hBs
    obtain ⟨hCount, rfl⟩ := hCount
    rw [List.append_assoc]
    intro rest
    rw [decode, get_bind_apply]
    refine Annotation.reads_decodeWith hi hPieces hCount ?_ rest
    simp only [List.length_append]
    omega

theorem ElementValue.emits_decode (hK : Constant.Closed K) {v : ElementValue}
    (hv : v.WellFormed K) :
    Encoder.Emits K v.encode fun P bs => Decoder.Reads (decode P) bs v := by
  refine (ElementValue.emits_encode hK hv).imp fun P bs hStored rest => ?_
  rw [decode, get_bind_apply]
  exact hStored _ (by simp) rest

end Writing

end Renaming
