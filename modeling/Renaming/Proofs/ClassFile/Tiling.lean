import Renaming.Proofs.Binary.Delimited
import Renaming.Proofs.ClassFile.Repaid.Bytecode

/-!
# Code that keeps its layout

What is read fits the layout of the instructions, which lie one behind the other. What is written fits
it too. So code that is read and written back stays where it was, and differs in nothing but indices
and filler.
-/

namespace Renaming

open Decoder

theorem switchPadding_ofNat (offset : Nat) :
    switchPadding (UInt32.ofNat offset).toNat = switchPadding offset := by
  rw [switchPadding, switchPadding, UInt32.toNat_ofNat']
  omega

theorem CodeByte.admits_filler {n : Nat} {bs : Bytes} (h : bs.length = n) :
    List.Forall₂ Admits (List.replicate n .filler) bs := by
  induction bs generalizing n with
  | nil =>
    subst h
    exact .nil
  | cons b bs ih =>
    subst h
    exact .cons trivial (ih rfl)

namespace Instruction

theorem ofOpcode_eq_wide {op : UInt8} (h : OperandForm.ofOpcode op = some .wide) :
    op = opWide := by
  have hAll : ∀ n : Fin 256,
      OperandForm.ofOpcode (UInt8.ofFin n) = some .wide → UInt8.ofFin n = opWide := by
    decide +kernel
  exact hAll op.toFin h

section Reading

variable {P : Pool} {op : UInt8} {offset : Nat}

theorem delimited_pair :
    Delimited (do return (← i4, ← i4)) fun bs p => bs = Instruction.pair p := by
  apply delimited_i4.bind
  rintro _ key rfl
  apply Delimited.last
  apply delimited_i4.imp
  rintro _ jump rfl
  rfl

theorem delimited_tableSwitch :
    Delimited (Operand.decode P op offset .tableSwitch) fun bs o =>
      Fits ⟨.ofNat offset, op, o⟩ (op :: bs) := by
  apply (delimited_take _).bind
  rintro pad _ ⟨rfl, hPad⟩
  apply delimited_i4.bind
  rintro _ default rfl
  apply delimited_i4.bind
  rintro _ low rfl
  apply delimited_i4.bind
  rintro _ high rfl
  split
  · rw [Stateful.throw_bind]
    exact .throw
  · apply Delimited.last
    apply (delimited_count_spelled delimited_i4 _).imp
    rintro _ offsets ⟨rfl, -⟩
    have hWords : Bytes.i4 default ++ (Bytes.i4 low ++ (Bytes.i4 high ++
        offsets.flatMap Bytes.i4)) = ([default, low, high] ++ offsets).flatMap Bytes.i4 := rfl
    dsimp only [Fits, layout]
    rw [hWords, switchPadding_ofNat]
    exact .cons rfl (List.rel_append (CodeByte.admits_filler hPad) (CodeByte.admits_fixed _))

theorem delimited_lookupSwitch :
    Delimited (Operand.decode P op offset .lookupSwitch) fun bs o =>
      Fits ⟨.ofNat offset, op, o⟩ (op :: bs) := by
  apply (delimited_take _).bind
  rintro pad _ ⟨rfl, hPad⟩
  apply delimited_i4.bind
  rintro _ default rfl
  apply delimited_i4.bind
  rintro _ pairCount rfl
  split
  · rw [Stateful.throw_bind]
    exact .throw
  · rename_i hPositive
    apply Delimited.last
    apply (delimited_count_spelled delimited_pair _).imp
    rintro _ pairs ⟨rfl, hLength⟩
    have hCount : Int32.ofNat pairs.length = pairCount := by
      rw [Int32.lt_iff_toInt_lt] at hPositive
      have hBound := pairCount.toInt_lt
      have hZero : (0 : Int32).toInt = 0 := rfl
      rw [← Int32.toInt_inj, Int32.toInt_ofNat_of_lt (by omega), hLength]
      omega
    have hWord : Bytes.u4 (UInt32.ofNat pairs.length) = Bytes.i4 (Int32.ofNat pairs.length) := rfl
    dsimp only [Fits, layout]
    rw [switchPadding_ofNat, hWord, hCount]
    exact .cons rfl (List.rel_append (CodeByte.admits_filler hPad) (CodeByte.admits_fixed _))

theorem delimited_operand {form : OperandForm} (hForm : OperandForm.ofOpcode op = some form) :
    Delimited (Operand.decode P op offset form) fun bs o =>
      Fits ⟨.ofNat offset, op, o⟩ (op :: bs) := by
  cases form with
  | none => exact .pure (CodeByte.admits_fixed [op])
  | byte =>
    apply Delimited.last
    apply delimited_i1.imp
    rintro _ value rfl
    exact CodeByte.admits_fixed [op, value.toUInt8]
  | short | jump =>
    apply Delimited.last
    apply delimited_i2.imp
    rintro _ value rfl
    exact CodeByte.admits_fixed (op :: Bytes.i2 value)
  | arrayType =>
    apply Delimited.last
    apply delimited_u1.imp
    rintro _ code rfl
    exact CodeByte.admits_fixed [op, code]
  | localVar =>
    apply Delimited.last
    apply delimited_u1.imp
    rintro _ index rfl
    have hIndex : index.toUInt16.toUInt8 = index := UInt8.toUInt8_toUInt16 index
    exact .cons rfl (.cons hIndex.symm .nil)
  | increment =>
    apply delimited_u1.bind
    rintro _ index rfl
    apply Delimited.last
    apply delimited_i1.imp
    rintro _ delta rfl
    have hIndex : index.toUInt16.toUInt8 = index := UInt8.toUInt8_toUInt16 index
    have hDelta : delta.toInt16.toInt8.toUInt8 = delta.toUInt8 := by rw [Int8.toInt8_toInt16]
    exact .cons rfl (.cons hIndex.symm (.cons hDelta.symm .nil))
  | jumpWide =>
    apply Delimited.last
    apply delimited_i4.imp
    rintro _ value rfl
    exact CodeByte.admits_fixed (op :: Bytes.i4 value)
  | ldc =>
    have hLdc := ofOpcode_eq_ldc hForm
    apply delimited_u1.bind
    rintro _ index rfl
    apply Delimited.lookup
    intro c _
    split
    · rw [Stateful.throw_bind]
      exact .throw
    · apply Delimited.pure
      rw [Fits, layout, if_pos hLdc]
      exact .cons rfl (.cons trivial .nil)
  | ldcLong =>
    have hLong := ofOpcode_eq_ldcLong hForm
    apply delimited_u2.bind
    rintro _ index rfl
    apply Delimited.lookup
    intro c _
    split
    · rw [Stateful.throw_bind]
      exact .throw
    · apply Delimited.pure
      rw [Fits, layout, if_neg hLong]
      exact .cons rfl (.cons trivial (.cons trivial .nil))
  | field | method | anyMethod | classRef =>
    apply delimited_u2.bind
    rintro _ index rfl
    apply Delimited.lookup
    intro _ _
    exact .pure (.cons rfl (.cons trivial (.cons trivial .nil)))
  | invokeInterface =>
    apply delimited_u2.bind
    rintro _ index rfl
    apply delimited_u1.bind
    rintro _ count rfl
    apply delimited_u1.bind
    rintro _ reserved rfl
    apply Delimited.lookup
    intro _ _
    exact .pure (.cons rfl (.cons trivial (.cons trivial (.cons rfl (.cons trivial .nil)))))
  | invokeDynamic =>
    apply delimited_u2.bind
    rintro _ index rfl
    apply delimited_u2.bind
    rintro _ reserved rfl
    apply Delimited.lookup
    intro c _
    split
    · exact .pure (.cons rfl (.cons trivial (.cons trivial (.cons trivial (.cons trivial .nil)))))
    · exact .throw
  | multiArray =>
    apply delimited_u2.bind
    rintro _ index rfl
    apply delimited_u1.bind
    rintro _ dimensions rfl
    apply Delimited.lookup
    intro _ _
    exact .pure (.cons rfl (.cons trivial (.cons trivial (.cons rfl .nil))))
  | tableSwitch => exact delimited_tableSwitch
  | lookupSwitch => exact delimited_lookupSwitch
  | wide => exact .throw

theorem delimited_wideOperand :
    Delimited (Operand.decodeWide op offset) fun bs o =>
      Fits ⟨.ofNat offset, op, o⟩ (opWide :: op :: bs) := by
  unfold Operand.decodeWide
  split
  · apply Delimited.last
    apply delimited_u2.imp
    rintro _ index rfl
    exact CodeByte.admits_fixed (opWide :: op :: Bytes.u2 index)
  · apply delimited_u2.bind
    rintro _ index rfl
    apply Delimited.last
    apply delimited_i2.imp
    rintro _ delta rfl
    exact CodeByte.admits_fixed (opWide :: op :: (Bytes.u2 index ++ Bytes.i2 delta))
  · exact .throw

theorem delimited_decode :
    Delimited (decode P offset) fun bs i => i.offset = .ofNat offset ∧ i.Fits bs := by
  apply delimited_u1.bind
  rintro _ op rfl
  split
  · exact .throw
  · rename_i hForm
    obtain rfl := ofOpcode_eq_wide hForm
    apply delimited_u1.bind
    rintro _ widened rfl
    apply Delimited.last
    apply delimited_wideOperand.imp
    intro bs o hFits
    exact ⟨rfl, hFits⟩
  · rename_i hForm
    apply Delimited.last
    apply (delimited_operand hForm).imp
    intro bs o hFits
    exact ⟨rfl, hFits⟩

end Reading

section Reading

variable {P : Pool} {is : List Instruction}

/-- The instructions lie one behind the other in code of this length. Offsets are numbers of four
bytes, which code in a class file does not exceed. -/
structure Tiles (is : List Instruction) (length : Nat) : Prop where
  total : totalSize is = length
  place : ∀ k (i : Instruction), is[k]? = some i → i.offset = .ofNat (totalSize (is.take k))
  exact : length ≤ 0x100000000 →
    ∀ k (i : Instruction), is[k]? = some i → i.offset.toNat = totalSize (is.take k)

/-- From `offset` on the code is made up of the instructions. -/
structure MadeUp (offset : Nat) (is : List Instruction) (code : Bytes) : Prop where
  place : ∀ k (i : Instruction), is[k]? = some i →
    i.offset = .ofNat (offset + totalSize (is.take k))
  fits : List.Forall₂ CodeByte.Admits (is.flatMap layout) code

theorem madeUp_nil (offset : Nat) : MadeUp offset [] [] where
  place := by
    intro k i hNone
    cases hNone
  fits := .nil

theorem MadeUp.cons {offset : Nat} {s r : Bytes} {i : Instruction} {more : List Instruction}
    (hHead : decode P offset s = .ok (i, r)) (h : MadeUp (offset + i.size) more r) :
    MadeUp offset (i :: more) s := by
  obtain ⟨bs, rfl, -, -, hPlace, hFits⟩ := delimited_decode _ i r hHead
  constructor
  case place =>
    rintro (_ | k) j hj
    · obtain rfl := Option.some.inj hj
      exact hPlace
    · rw [h.place k j hj, List.take_succ_cons, totalSize, totalSize, List.map_cons, List.sum_cons,
        Nat.add_assoc]
  case fits => exact List.rel_append hFits h.fits

theorem length_flatMap_layout (is : List Instruction) :
    (is.flatMap layout).length = totalSize is := by
  rw [List.length_flatMap, totalSize]
  congr 1
  exact List.map_congr_left fun i _ => i.length_layout

theorem take_append_cons_drop {k : Nat} {i : Instruction} (h : is[k]? = some i) :
    is.take k ++ i :: is.drop (k + 1) = is := by
  obtain ⟨hk, rfl⟩ := List.getElem?_eq_some_iff.mp h
  rw [← List.drop_eq_getElem_cons hk, List.take_append_drop]

theorem totalSize_take_add_le {k : Nat} {i : Instruction} (h : is[k]? = some i) :
    totalSize (is.take k) + i.size ≤ totalSize is := by
  have hTotal := congrArg totalSize (take_append_cons_drop h)
  rw [totalSize, List.map_append, List.sum_append, List.map_cons, List.sum_cons] at hTotal
  rw [totalSize]
  omega

theorem fits_of_decodeAll {code : Bytes} (h : decodeAll P code = .ok is) :
    Tiles is code.length ∧ List.Forall₂ CodeByte.Admits (is.flatMap layout) code := by
  obtain ⟨⟨_, t⟩, hRun, hIs⟩ := Outcome.map_eq_ok.mp h
  obtain ⟨more, hMore, hMade⟩ := decodeFrom_induction madeUp_nil
    (fun _ _ _ _ _ => MadeUp.cons) (Nat.le_refl _) hRun
  obtain rfl : is = more := hIs.symm.trans hMore
  have hTotal : totalSize is = code.length := by
    rw [← length_flatMap_layout, hMade.fits.length_eq]
  have hPlace : ∀ k (i : Instruction), is[k]? = some i →
      i.offset = .ofNat (totalSize (is.take k)) := by
    intro k i hi
    rw [hMade.place k i hi, Nat.zero_add]
  refine ⟨⟨hTotal, hPlace, fun hBound k i hi => ?_⟩, hMade.fits⟩
  have hEnd := totalSize_take_add_le hi
  have hPos := i.size_pos
  rw [hPlace k i hi, UInt32.toNat_ofNat', Nat.mod_eq_of_lt (by omega)]

end Reading

section Writing

variable {is : List Instruction} {b b' : PoolBuilder} {bytes : Bytes}

theorem writes_of_encodeFrom {offset : Nat} {done : List Bytes}
    (h : encodeFrom offset done is b = .ok (bytes, b')) :
    ∃ more, bytes = done.reverse.flatten ++ more ∧
      List.Forall₂ CodeByte.Writes (is.flatMap layout) more := by
  induction is generalizing offset done b with
  | nil =>
    obtain ⟨rfl, -⟩ := Stateful.pure_eq_ok.mp h
    exact ⟨[], (List.append_nil _).symm, .nil⟩
  | cons i is ih =>
    rw [encodeFrom] at h
    split at h
    · exact absurd h (Stateful.throw_ne_ok (s := b))
    · obtain ⟨piece, _, hHead, h⟩ := Stateful.bind_eq_ok.mp h
      obtain ⟨more, rfl, hMore⟩ := ih h
      refine ⟨piece ++ more, ?_, List.rel_append (writes_of_encode hHead) hMore⟩
      simp

theorem encodeFrom_append {offset : Nat} {done : List Bytes} {front rest : List Instruction}
    (h : encodeFrom offset done (front ++ rest) b = .ok (bytes, b')) :
    ∃ done' b₁, encodeFrom offset done front b = .ok (done'.reverse.flatten, b₁) ∧
      encodeFrom (offset + totalSize front) done' rest b₁ = .ok (bytes, b') := by
  induction front generalizing offset done b with
  | nil => exact ⟨done, b, rfl, h⟩
  | cons i front ih =>
    rw [List.cons_append, encodeFrom] at h
    split at h
    · exact absurd h (Stateful.throw_ne_ok (s := b))
    · rename_i hPlace
      obtain ⟨piece, b₁, hHead, h⟩ := Stateful.bind_eq_ok.mp h
      obtain ⟨done', b₂, hFront, hRest⟩ := ih h
      refine ⟨done', b₂, ?_, ?_⟩
      · rw [encodeFrom, if_neg hPlace]
        exact Stateful.bind_eq_ok.mpr ⟨piece, b₁, hHead, hFront⟩
      · rw [length_of_encode hHead, Nat.add_assoc] at hRest
        exact hRest

/-- The instruction at place `k` gives rise to as many of the bytes as its size says, from its
offset on: before them stands what is written for the instructions before. -/
structure LiesAt (is : List Instruction) (b : PoolBuilder) (bytes : Bytes) (k : Nat)
    (i : Instruction) : Prop where
  place : i.offset.toNat = totalSize (is.take k)
  room : i.offset.toNat + i.size ≤ bytes.length
  piece : ∃ b₁ b₂, encodeAll (is.take k) b = .ok (bytes.take i.offset.toNat, b₁) ∧
    i.encode b₁ = .ok ((bytes.drop i.offset.toNat).take i.size, b₂)

theorem liesAt_of_encodeAll (h : encodeAll is b = .ok (bytes, b')) {k : Nat} {i : Instruction}
    (hi : is[k]? = some i) : LiesAt is b bytes k i := by
  have hAll : encodeFrom 0 [] (is.take k ++ i :: is.drop (k + 1)) b = .ok (bytes, b') := by
    rw [take_append_cons_drop hi]
    exact h
  obtain ⟨done, b₁, hFront, hRest⟩ := encodeFrom_append hAll
  rw [encodeFrom, Nat.zero_add] at hRest
  split at hRest
  · exact absurd hRest (Stateful.throw_ne_ok (s := b₁))
  · rename_i hPlace
    obtain ⟨piece, b₂, hPiece, hRest⟩ := Stateful.bind_eq_ok.mp hRest
    obtain ⟨more, hBytes, -⟩ := writes_of_encodeFrom hRest
    have hPlace : i.offset.toNat = totalSize (is.take k) := Decidable.not_not.mp hPlace
    have hHead : done.reverse.flatten.length = i.offset.toNat := by
      rw [length_of_encodeAll hFront, hPlace]
    have hBytes : bytes = done.reverse.flatten ++ (piece ++ more) := by
      rw [hBytes]
      simp
    have hLength := length_of_encode hPiece
    refine ⟨hPlace, ?_, b₁, b₂, ?_, ?_⟩
    · rw [hBytes, List.length_append, List.length_append]
      omega
    · rw [hBytes, List.take_left' hHead]
      exact hFront
    · rw [hBytes, List.drop_left' hHead, List.take_left' hLength]
      exact hPiece

end Writing

/-- The second code is as long as the first, and differs from it at most in indices into the
constant pool and in filler, which becomes zero. -/
structure Relaid (is : List Instruction) (code bytes : Bytes) : Prop where
  length : bytes.length = code.length
  differ : ∀ p : Nat, bytes[p]? ≠ code[p]? →
    (is.flatMap layout)[p]? = some CodeByte.index ∨ (is.flatMap layout)[p]? = some CodeByte.filler
  filler : ∀ p : Nat, (is.flatMap layout)[p]? = some CodeByte.filler → bytes[p]? = some 0

theorem getElem?_of_forall₂ {α β : Type} {R : α → β → Prop} {as : List α} {bs : List β}
    (h : List.Forall₂ R as bs) {p : Nat} {a : α} (ha : as[p]? = some a) :
    ∃ b, bs[p]? = some b ∧ R a b := by
  induction h generalizing p with
  | nil => cases ha
  | @cons a' b as bs hHead _ ih =>
    cases p with
    | zero =>
      obtain rfl := Option.some.inj ha
      exact ⟨b, rfl, hHead⟩
    | succ p => exact ih ha

theorem relaid_of_layout {is : List Instruction} {code bytes : Bytes}
    (hRead : List.Forall₂ CodeByte.Admits (is.flatMap layout) code)
    (hWritten : List.Forall₂ CodeByte.Writes (is.flatMap layout) bytes) :
    Relaid is code bytes := by
  have hLength : bytes.length = code.length := by rw [← hWritten.length_eq, hRead.length_eq]
  constructor
  case length => exact hLength
  case differ =>
    intro p hDiffer
    cases hRole : (is.flatMap layout)[p]? with
    | none =>
      rw [List.getElem?_eq_none_iff, hRead.length_eq] at hRole
      rw [List.getElem?_eq_none hRole, List.getElem?_eq_none (hLength ▸ hRole)] at hDiffer
      exact absurd rfl hDiffer
    | some role =>
      cases role with
      | fixed value =>
        obtain ⟨_, hOld, rfl⟩ := getElem?_of_forall₂ hRead hRole
        obtain ⟨_, hNew, rfl⟩ := getElem?_of_forall₂ hWritten hRole
        exact absurd (hNew.trans hOld.symm) hDiffer
      | index => exact Or.inl rfl
      | filler => exact Or.inr rfl
  case filler =>
    intro p hRole
    obtain ⟨_, hNew, rfl⟩ := getElem?_of_forall₂ hWritten hRole
    exact hNew

/-- Code that is read is tiled by its instructions, and keeps its layout if it is written back. In
all code that is written, every instruction lies at its offset and has as many bytes as its size
says. -/
theorem keeps_layout (P : Pool) :
    (∀ code is, decodeAll P code = .ok is → Tiles is code.length ∧
      ∀ b bytes b', encodeAll is b = .ok (bytes, b') → Relaid is code bytes) ∧
    ∀ is b bytes b', encodeAll is b = .ok (bytes, b') → bytes.length = totalSize is ∧
      ∀ k i, is[k]? = some i → LiesAt is b bytes k i := by
  constructor
  · intro code is hRead
    obtain ⟨hTiles, hFits⟩ := fits_of_decodeAll hRead
    refine ⟨hTiles, fun b bytes b' hWritten => ?_⟩
    obtain ⟨more, rfl, hMore⟩ := writes_of_encodeFrom hWritten
    exact relaid_of_layout hFits hMore
  · intro is b bytes b' hWritten
    exact ⟨length_of_encodeAll hWritten, fun k i hi => liesAt_of_encodeAll hWritten hi⟩

def paddedCode : Bytes :=
  [0x00, 0xaa, 7, 7, 0, 0, 0, 20, 0, 0, 0, 1, 0, 0, 0, 1, 0, 0, 0, 20]

def paddedInstructions : List Instruction :=
  [⟨0, 0x00, .none⟩, ⟨1, 0xaa, .tableSwitch 20 1 1 [20]⟩]

def unpaddedCode : Bytes :=
  [0x00, 0xaa, 0, 0, 0, 0, 0, 20, 0, 0, 0, 1, 0, 0, 0, 1, 0, 0, 0, 20]

theorem keeps_layout_paddedCode :
    decodeAll ⟨#[]⟩ paddedCode = .ok paddedInstructions ∧
      encodeAll paddedInstructions .empty = .ok (unpaddedCode, .empty) ∧
      Tiles paddedInstructions 20 ∧ Relaid paddedInstructions paddedCode unpaddedCode ∧
      LiesAt paddedInstructions .empty unpaddedCode 1 ⟨1, 0xaa, .tableSwitch 20 1 1 [20]⟩ := by
  have hRead : decodeAll ⟨#[]⟩ paddedCode = .ok paddedInstructions := by rfl
  have hWritten : encodeAll paddedInstructions .empty = .ok (unpaddedCode, .empty) := by rfl
  obtain ⟨hTiles, hRelaid⟩ := (keeps_layout ⟨#[]⟩).1 _ _ hRead
  obtain ⟨-, hLies⟩ := (keeps_layout ⟨#[]⟩).2 _ _ _ _ hWritten
  exact ⟨hRead, hWritten, hTiles, hRelaid _ _ _ hWritten, hLies 1 _ rfl⟩

end Instruction

end Renaming
