import Renaming.Text.ModifiedUtf8

/-!
# Modified UTF-8 is a bijection onto its image

`Sequence bs c` lists the byte sequences of the encoding, each with the character it stands for and
with the conditions that rule out every other sequence. The decoder accepts exactly the sequences,
one after the other, and the encoder writes the only sequence of a character; the two round trips
follow. Where a fault is reported is not treated here.
-/

namespace Renaming.ModifiedUtf8

/-- The byte sequences of one character. -/
inductive Sequence : Bytes → Char → Prop
  | one {b : UInt8} (hPos : 0 < b.toNat) (hLow : b.toNat < 0x80) :
      Sequence [b] (Char.ofNat b.toNat)
  | two {b0 b1 : UInt8} (h0 : 0xC0 ≤ b0.toNat ∧ b0.toNat < 0xE0) (h1 : isTail b1 = true)
      (hn : (b0.toNat - 0xC0) * 64 + tailBits b1 = 0 ∨
        0x80 ≤ (b0.toNat - 0xC0) * 64 + tailBits b1) :
      Sequence [b0, b1] (Char.ofNat ((b0.toNat - 0xC0) * 64 + tailBits b1))
  | three {b0 b1 b2 : UInt8} (h0 : 0xE0 ≤ b0.toNat ∧ b0.toNat < 0xF0) (h1 : isTail b1 = true)
      (h2 : isTail b2 = true)
      (hn : 0x800 ≤ (b0.toNat - 0xE0) * 4096 + tailBits b1 * 64 + tailBits b2)
      (hScalar : (b0.toNat - 0xE0) * 4096 + tailBits b1 * 64 + tailBits b2 < 0xD800 ∨
        0xE000 ≤ (b0.toNat - 0xE0) * 4096 + tailBits b1 * 64 + tailBits b2) :
      Sequence [b0, b1, b2]
        (Char.ofNat ((b0.toNat - 0xE0) * 4096 + tailBits b1 * 64 + tailBits b2))
  | six {b1 b2 b4 b5 : UInt8} (h1 : 0xA0 ≤ b1.toNat ∧ b1.toNat < 0xB0) (h2 : isTail b2 = true)
      (h4 : 0xB0 ≤ b4.toNat ∧ b4.toNat < 0xC0) (h5 : isTail b5 = true) :
      Sequence [0xED, b1, b2, 0xED, b4, b5]
        (Char.ofNat (0x10000 + ((b1.toNat - 0xA0) * 64 + tailBits b2) * 1024 +
          ((b4.toNat - 0xB0) * 64 + tailBits b5)))

theorem isTail_iff {b : UInt8} : isTail b = true ↔ 0x80 ≤ b.toNat ∧ b.toNat < 0xC0 := by
  simp [isTail, UInt8.le_iff_toNat_le, UInt8.lt_iff_toNat_lt]

theorem toNat_byte {n : Nat} (h : n < 256) : (UInt8.ofNat n).toNat = n := by
  rw [UInt8.toNat_ofNat', Nat.mod_eq_of_lt h]

theorem byte_eq {b : UInt8} {n : Nat} (h : n = b.toNat) : UInt8.ofNat n = b := by
  subst h
  exact UInt8.ofNat_toNat

theorem toNat_ofNat {n : Nat} (h : n < 0xD800 ∨ (0xE000 ≤ n ∧ n < 0x110000)) :
    (Char.ofNat n).toNat = n := by
  have hv : n.isValidChar := by
    rcases h with h | ⟨h, h'⟩
    · exact Or.inl h
    · exact Or.inr ⟨by omega, h'⟩
  rw [Char.ofNat, dif_pos hv]
  exact UInt32.toNat_ofNatLT

theorem toNat_scalar (c : Char) : c.toNat < 0xD800 ∨ (0xE000 ≤ c.toNat ∧ c.toNat < 0x110000) := by
  rcases c.valid with h | ⟨h, h'⟩
  · exact Or.inl h
  · exact Or.inr ⟨h, h'⟩

theorem sequence_encodeChar (c : Char) : Sequence (encodeChar c) c := by
  have hScalar := toNat_scalar c
  have hc : Char.ofNat c.toNat = c := Char.ofNat_toNat c
  unfold encodeChar
  simp only
  -- In each form the payload of the bytes adds up to the number of the character again.
  generalize hn : c.toNat = n at hScalar hc
  split
  · rename_i h0
    have hZero := @Sequence.two 0xC0 0x80 (by decide) (by decide) (Or.inl (by decide))
    subst h0
    rwa [← hc]
  split
  · rename_i h0 h1
    have hb : (UInt8.ofNat n).toNat = n := toNat_byte (by omega)
    have hOne := @Sequence.one (UInt8.ofNat n) (by rw [hb]; omega) (by rw [hb]; omega)
    rwa [hb, hc] at hOne
  split
  · have hb0 : (UInt8.ofNat (0xC0 + n / 64)).toNat = 0xC0 + n / 64 := toNat_byte (by omega)
    have hb1 : (UInt8.ofNat (0x80 + n % 64)).toNat = 0x80 + n % 64 := toNat_byte (by omega)
    generalize UInt8.ofNat (0xC0 + n / 64) = b0 at hb0 ⊢
    generalize UInt8.ofNat (0x80 + n % 64) = b1 at hb1 ⊢
    have hv : (b0.toNat - 0xC0) * 64 + tailBits b1 = n := by unfold tailBits; omega
    have hTwo := @Sequence.two b0 b1 (by omega) (isTail_iff.mpr (by omega))
      (by omega)
    rwa [hv, hc] at hTwo
  split
  · have hb0 : (UInt8.ofNat (0xE0 + n / 4096)).toNat = 0xE0 + n / 4096 := toNat_byte (by omega)
    have hb1 : (UInt8.ofNat (0x80 + n / 64 % 64)).toNat = 0x80 + n / 64 % 64 :=
      toNat_byte (by omega)
    have hb2 : (UInt8.ofNat (0x80 + n % 64)).toNat = 0x80 + n % 64 := toNat_byte (by omega)
    generalize UInt8.ofNat (0xE0 + n / 4096) = b0 at hb0 ⊢
    generalize UInt8.ofNat (0x80 + n / 64 % 64) = b1 at hb1 ⊢
    generalize UInt8.ofNat (0x80 + n % 64) = b2 at hb2 ⊢
    have hv : (b0.toNat - 0xE0) * 4096 + tailBits b1 * 64 + tailBits b2 = n := by
      unfold tailBits
      omega
    have hThree := @Sequence.three b0 b1 b2 (by omega)
      (isTail_iff.mpr (by omega)) (isTail_iff.mpr (by omega)) (by omega) (by omega)
    rwa [hv, hc] at hThree
  · generalize hHigh : (n - 0x10000) / 1024 = high
    generalize hLow : (n - 0x10000) % 1024 = low
    have hb1 : (UInt8.ofNat (0xA0 + high / 64)).toNat = 0xA0 + high / 64 := toNat_byte (by omega)
    have hb2 : (UInt8.ofNat (0x80 + high % 64)).toNat = 0x80 + high % 64 := toNat_byte (by omega)
    have hb4 : (UInt8.ofNat (0xB0 + low / 64)).toNat = 0xB0 + low / 64 := toNat_byte (by omega)
    have hb5 : (UInt8.ofNat (0x80 + low % 64)).toNat = 0x80 + low % 64 := toNat_byte (by omega)
    generalize UInt8.ofNat (0xA0 + high / 64) = b1 at hb1 ⊢
    generalize UInt8.ofNat (0x80 + high % 64) = b2 at hb2 ⊢
    generalize UInt8.ofNat (0xB0 + low / 64) = b4 at hb4 ⊢
    generalize UInt8.ofNat (0x80 + low % 64) = b5 at hb5 ⊢
    have hv : 0x10000 + ((b1.toNat - 0xA0) * 64 + tailBits b2) * 1024 +
        ((b4.toNat - 0xB0) * 64 + tailBits b5) = n := by
      unfold tailBits
      omega
    have hSix := @Sequence.six b1 b2 b4 b5 (by omega)
      (isTail_iff.mpr (by omega)) (by omega) (isTail_iff.mpr (by omega))
    rwa [hv, hc] at hSix

theorem Sequence.eq_encodeChar {bs : Bytes} {c : Char} (h : Sequence bs c) : bs = encodeChar c := by
  cases h with
  | @one b hPos hLow =>
    unfold encodeChar
    rw [toNat_ofNat (Or.inl (by omega))]
    simp only
    rw [if_neg (by omega), if_pos (by omega), UInt8.ofNat_toNat]
  | @two b0 b1 h0 h1 hn =>
    rw [isTail_iff] at h1
    unfold encodeChar tailBits at *
    rw [toNat_ofNat (Or.inl (by omega))]
    simp only
    rcases hn with hn | hn
    · rw [if_pos hn, ← byte_eq (show 0xC0 = b0.toNat by omega),
        ← byte_eq (show 0x80 = b1.toNat by omega)]
      rfl
    · rw [if_neg (by omega), if_neg (by omega), if_pos (by omega)]
      rw [byte_eq (b := b0) (by omega), byte_eq (b := b1) (by omega)]
  | @three b0 b1 b2 h0 h1 h2 hn hScalar =>
    rw [isTail_iff] at h1 h2
    unfold encodeChar tailBits at *
    rw [toNat_ofNat (by omega)]
    simp only
    rw [if_neg (by omega), if_neg (by omega), if_neg (by omega), if_pos (by omega)]
    rw [byte_eq (b := b0) (by omega), byte_eq (b := b1) (by omega), byte_eq (b := b2) (by omega)]
  | @six b1 b2 b4 b5 h1 h2 h4 h5 =>
    rw [isTail_iff] at h2 h5
    unfold encodeChar tailBits
    rw [toNat_ofNat (by omega)]
    simp only
    rw [if_neg (by omega), if_neg (by omega), if_neg (by omega), if_neg (by omega)]
    rw [byte_eq (b := b1) (by omega), byte_eq (b := b2) (by omega), byte_eq (b := b4) (by omega),
      byte_eq (b := b5) (by omega)]

/-- No sequence has a zero byte in it, or a byte that starts a longer one in UTF-8. -/
theorem Sequence.bytes {bs : Bytes} {c : Char} (h : Sequence bs c) :
    ∀ b ∈ bs, 0 < b.toNat ∧ b.toNat < 0xF0 := by
  have hTail : ∀ {b : UInt8}, isTail b = true → 0 < b.toNat ∧ b.toNat < 0xF0 := by
    intro b hb
    have := isTail_iff.mp hb
    omega
  cases h with
  | one hPos hLow =>
    rw [List.forall_mem_singleton]
    omega
  | two h0 h1 hn =>
    rw [List.forall_mem_cons, List.forall_mem_singleton]
    exact ⟨by omega, hTail h1⟩
  | three h0 h1 h2 hn hScalar =>
    rw [List.forall_mem_cons, List.forall_mem_cons, List.forall_mem_singleton]
    exact ⟨by omega, hTail h1, hTail h2⟩
  | six h1 h2 h4 h5 =>
    have hMark : 0 < (0xED : UInt8).toNat ∧ (0xED : UInt8).toNat < 0xF0 := by decide
    simp only [List.forall_mem_cons]
    exact ⟨hMark, by omega, hTail h2, hMark, by omega, hTail h5, List.forall_mem_nil _⟩

theorem decodeFrom_sequence {bs : Bytes} {c : Char} (h : Sequence bs c) (pos : Nat)
    (done : List Char) (rest : Bytes) :
    decodeFrom pos done (bs ++ rest) = decodeFrom (pos + bs.length) (c :: done) rest := by
  cases h with
  | @one b hPos hLow =>
    have hb : b < 0x80 := UInt8.lt_iff_toNat_lt.mpr hLow
    have hb0 : b ≠ 0 := by rintro rfl; exact absurd hPos (by decide)
    rw [List.singleton_append, decodeFrom.eq_def]
    simp only [if_pos hb, if_neg hb0, List.length_singleton]
  | @two b0 b1 h0 h1 hn =>
    have hLow : ¬ b0 < 0x80 := by rw [UInt8.lt_iff_toNat_lt]; simp; omega
    have hTwo : (decide (0xC0 ≤ b0) && decide (b0 < 0xE0)) = true := by
      simp [UInt8.le_iff_toNat_le, UInt8.lt_iff_toNat_lt]; omega
    have hShort : ¬ (decide ((b0.toNat - 0xC0) * 64 + tailBits b1 < 0x80) &&
        decide ((b0.toNat - 0xC0) * 64 + tailBits b1 ≠ 0)) = true := by simp; omega
    rw [List.cons_append, List.singleton_append, decodeFrom.eq_def]
    simp only [if_neg hLow, if_pos hTwo, h1, Bool.not_true, Bool.false_eq_true, if_false,
      if_neg hShort, List.length_cons, List.length_nil]
  | @three b0 b1 b2 h0 h1 h2 hn hScalar =>
    have hLow : ¬ b0 < 0x80 := by rw [UInt8.lt_iff_toNat_lt]; simp; omega
    have hTwo : ¬ (decide (0xC0 ≤ b0) && decide (b0 < 0xE0)) = true := by
      simp [UInt8.le_iff_toNat_le, UInt8.lt_iff_toNat_lt]; omega
    have hThree : (decide (0xE0 ≤ b0) && decide (b0 < 0xF0)) = true := by
      simp [UInt8.le_iff_toNat_le, UInt8.lt_iff_toNat_lt]; omega
    have hSurrogate : ¬ (decide (b0 = 0xED) && decide (0xA0 ≤ b1) && decide (b1 < 0xB0)) = true := by
      rw [isTail_iff] at h1 h2
      simp [UInt8.le_iff_toNat_le, UInt8.lt_iff_toNat_lt, ← UInt8.toNat_inj]
      unfold tailBits at *
      omega
    have hShort : ¬ (decide ((b0.toNat - 0xE0) * 4096 + tailBits b1 * 64 + tailBits b2 < 0x800) ||
        decide (0xD800 ≤ (b0.toNat - 0xE0) * 4096 + tailBits b1 * 64 + tailBits b2) &&
        decide ((b0.toNat - 0xE0) * 4096 + tailBits b1 * 64 + tailBits b2 < 0xE000)) = true := by
      simp; omega
    simp only [List.cons_append, List.nil_append]
    rw [decodeFrom.eq_def]
    simp only [if_neg hLow, if_neg hTwo, if_pos hThree, if_neg hSurrogate, h1, h2, Bool.not_true,
      Bool.false_eq_true, if_false, if_neg hShort, List.length_cons, List.length_nil]
  | @six b1 b2 b4 b5 h1 h2 h4 h5 =>
    have hHigh : (decide True && decide (0xA0 ≤ b1) && decide (b1 < 0xB0)) = true := by
      simp [UInt8.le_iff_toNat_le, UInt8.lt_iff_toNat_lt]; omega
    have hLow : (decide (0xB0 ≤ b4) && decide (b4 < 0xC0)) = true := by
      simp [UInt8.le_iff_toNat_le, UInt8.lt_iff_toNat_lt]; omega
    have hFirst : ¬ (0xED : UInt8) < 0x80 := by decide
    have hTwo : ¬ (decide ((0xC0 : UInt8) ≤ 0xED) && decide ((0xED : UInt8) < 0xE0)) = true := by
      decide
    have hThree : (decide ((0xE0 : UInt8) ≤ 0xED) && decide ((0xED : UInt8) < 0xF0)) = true := by
      decide
    simp only [List.cons_append, List.nil_append]
    rw [decodeFrom.eq_def]
    simp only [if_neg hFirst, if_neg hTwo, if_pos hThree, if_pos hHigh, h2, h5, hLow, Bool.not_true,
      Bool.false_eq_true, if_false, ne_eq, not_true_eq_false, List.length_cons, List.length_nil]

theorem Sequence.extend {bs rest : Bytes} {c : Char} {done cs : List Char} (h : Sequence bs c)
    (hRest : ∃ more, cs = (c :: done).reverse ++ more ∧ rest = more.flatMap encodeChar) :
    ∃ more, cs = done.reverse ++ more ∧ bs ++ rest = more.flatMap encodeChar := by
  obtain ⟨more, rfl, rfl⟩ := hRest
  exact ⟨c :: more, by simp, by rw [h.eq_encodeChar, List.flatMap_cons]⟩

theorem decodeFrom_eq_ok {pos : Nat} {done cs : List Char} {bs : Bytes}
    (h : decodeFrom pos done bs = .ok cs) :
    ∃ more, cs = done.reverse ++ more ∧ bs = more.flatMap encodeChar := by
  fun_induction decodeFrom pos done bs with
  | case1 pos done =>
    cases h
    exact ⟨[], by simp, rfl⟩
  | case3 pos done b rest hLow hZero ih =>
    rw [UInt8.lt_iff_toNat_lt] at hLow
    rw [← UInt8.toNat_inj] at hZero
    exact (Sequence.one (Nat.pos_of_ne_zero hZero) hLow).extend (ih h)
  | case7 pos done b0 _ hTwo b1 rest n hTail hShort ih =>
    simp only [UInt8.le_iff_toNat_le, UInt8.lt_iff_toNat_lt, Bool.and_eq_true, decide_eq_true_eq,
      Bool.not_eq_true', Bool.not_eq_false] at hTwo hTail hShort
    exact (Sequence.two hTwo hTail (by simp [n] at hShort; omega)).extend (ih h)
  | case12 pos done b0 _ _ hThree b1 b2 hHigh b3 b4 b5 rest h2 h3 h4 h5 high low ih =>
    simp only [UInt8.le_iff_toNat_le, UInt8.lt_iff_toNat_lt, Bool.and_eq_true, decide_eq_true_eq,
      Bool.not_eq_true', Bool.not_eq_false, ne_eq, Decidable.not_not] at hHigh h2 h3 h4 h5
    obtain ⟨⟨rfl, hA⟩, hB⟩ := hHigh
    subst h3
    exact (Sequence.six ⟨hA, hB⟩ h2 h4 h5).extend (ih h)
  | case17 pos done b0 _ _ hThree b1 b2 rest hHigh n h1 h2 hShort ih =>
    simp only [UInt8.le_iff_toNat_le, UInt8.lt_iff_toNat_lt, Bool.and_eq_true, decide_eq_true_eq,
      Bool.not_eq_true', Bool.not_eq_false, Bool.or_eq_true] at hThree h1 h2 hShort
    exact (Sequence.three hThree h1 h2 (by omega) (by omega)).extend (ih h)
  | _ => cases h

theorem decodeFrom_encodeChars (pos : Nat) (done cs : List Char) :
    decodeFrom pos done (cs.flatMap encodeChar) = .ok (done.reverse ++ cs) := by
  induction cs generalizing pos done with
  | nil => simp [decodeFrom]
  | cons c cs ih =>
    rw [List.flatMap_cons, decodeFrom_sequence (sequence_encodeChar c), ih]
    simp

theorem decode_encode (s : String) : decode (encode s) = .ok s := by
  rw [decode, encode, decodeFrom_encodeChars]
  simp [Except.map]

/-- Decoding loses nothing: the bytes of a text are determined by the text. -/
theorem encode_eq_of_decode {bs : Bytes} {s : String} (h : decode bs = .ok s) : encode s = bs := by
  unfold decode at h
  cases hFrom : decodeFrom 0 [] bs with
  | error fault =>
    rw [hFrom] at h
    cases h
  | ok cs =>
    obtain ⟨more, rfl, rfl⟩ := decodeFrom_eq_ok hFrom
    rw [hFrom] at h
    cases h
    simp [encode]

theorem bytes_encode {s : String} {b : UInt8} (h : b ∈ encode s) : b ≠ 0 ∧ b < 0xF0 := by
  obtain ⟨c, -, hb⟩ := List.mem_flatMap.mp h
  obtain ⟨hPos, hLow⟩ := (sequence_encodeChar c).bytes b hb
  refine ⟨?_, UInt8.lt_iff_toNat_lt.mpr hLow⟩
  rintro rfl
  exact absurd hPos (by decide)

/-- Encoded texts are read back, without zero bytes and within the bytes of shorter sequences, and
nothing else is read. -/
theorem decode_exact (s : String) :
    decode (encode s) = .ok s ∧ (∀ b ∈ encode s, b ≠ 0 ∧ b < 0xF0) ∧
      ∀ bs, decode bs = .ok s → encode s = bs :=
  ⟨decode_encode s, fun _ => bytes_encode, fun _ => encode_eq_of_decode⟩

theorem decode_exact_mixed :
    decode [0xC0, 0x80, 0x41, 0xE2, 0x82, 0xAC, 0xED, 0xA0, 0xBD, 0xED, 0xB8, 0x80] =
        .ok "\x00A€😀" ∧
      encode "\x00A€😀" =
        [0xC0, 0x80, 0x41, 0xE2, 0x82, 0xAC, 0xED, 0xA0, 0xBD, 0xED, 0xB8, 0x80] ∧
      ((0xED : UInt8) ≠ 0 ∧ (0xED : UInt8) < 0xF0) := by
  have hDecode : decode [0xC0, 0x80, 0x41, 0xE2, 0x82, 0xAC, 0xED, 0xA0, 0xBD, 0xED, 0xB8, 0x80] =
      .ok "\x00A€😀" := rfl
  obtain ⟨-, hBytes, hOnly⟩ := decode_exact "\x00A€😀"
  have hEncode := hOnly _ hDecode
  exact ⟨hDecode, hEncode, hBytes 0xED (by rw [hEncode]; decide)⟩

end Renaming.ModifiedUtf8
