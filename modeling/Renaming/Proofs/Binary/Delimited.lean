import Mathlib.Data.List.Induction
import Renaming.Proofs.Binary.Decoder

/-!
# Where decoders stop

`Decoder.Delimited d R` says that whatever `d` reads stands at the front of the input as a piece that
tells by itself where it ends: `d` takes the same piece off every other input that starts with it, and
runs out of input on anything shorter. The relation `R` says how the piece is spelled.
-/

namespace Renaming

namespace Bytes

theorem ofNatBE_toNatBE (bs : Bytes) : ofNatBE bs.length (toNatBE bs) = bs := by
  induction bs using List.reverseRecOn with
  | nil => rfl
  | append_singleton bs b ih =>
    have hValue : toNatBE (bs ++ [b]) = 256 * toNatBE bs + b.toNat := by
      rw [toNatBE, List.foldl_append, ← toNatBE]
      rfl
    have hLow : b.toNat < 256 := b.toNat_lt
    have hFront : (256 * toNatBE bs + b.toNat) / 256 = toNatBE bs := by omega
    have hLast : UInt8.ofNat (256 * toNatBE bs + b.toNat) = b := by
      rw [← UInt8.toNat_inj, UInt8.toNat_ofNat']
      omega
    rw [List.length_append, List.length_singleton, ofNatBE, hValue, hFront, ih, hLast]

theorem toNatBE_lt (bs : Bytes) : toNatBE bs < range bs.length := by
  have hPos : ∀ n, 0 < range n := by
    intro n
    induction n with
    | zero => exact Nat.one_pos
    | succ n ih => exact Nat.mul_pos (by omega) ih
  have hValue := toNatBE_ofNatBE bs.length (toNatBE bs)
  rw [ofNatBE_toNatBE] at hValue
  rw [hValue]
  exact Nat.mod_lt _ (hPos _)

end Bytes

namespace Decoder

open Stateful

variable {α β : Type} {d : Decoder α} {R R' : Bytes → α → Prop} {S : Bytes → β → Prop}

/-- The decoder runs out of input on every beginning of `bs` that leaves something of it out. -/
def CutShort (d : Decoder α) (bs : Bytes) : Prop :=
  ∀ front last, bs = front ++ last → last ≠ [] → d front = .error .unexpectedEof

/-- Whatever `d` reads takes up a piece of the input that tells where it ends, and that is in the
relation `R` to the value. -/
def Delimited (d : Decoder α) (R : Bytes → α → Prop) : Prop :=
  ∀ s a t, d s = .ok (a, t) → ∃ bs, s = bs ++ t ∧ Reads d bs a ∧ CutShort d bs ∧ R bs a

theorem cutShort_nil (d : Decoder α) : CutShort d [] := by
  intro front last hSplit hLast
  exact absurd (List.append_eq_nil_iff.mp hSplit.symm).2 hLast

/-- What is cut off from two pieces is cut off from the first, or leaves the first whole. -/
theorem CutShort.bind {f : α → Decoder β} {bs cs : Bytes} {a : α} (hd : CutShort d bs)
    (hRead : Reads d bs a) (hf : CutShort (f a) cs) : CutShort (d >>= f) (bs ++ cs) := by
  intro front last hSplit hLast
  have hBehind : ∀ more, front = bs ++ more → cs = more ++ last →
      (d >>= f) front = .error .unexpectedEof := by
    intro more hFront hRest
    rw [hFront, bind_eq_error]
    exact Or.inr ⟨a, more, hRead more, hf more last hRest hLast⟩
  rcases List.append_eq_append_iff.mp hSplit with ⟨more, hFront, hRest⟩ | ⟨more, hFront, -⟩
  · exact hBehind more hFront hRest
  · by_cases hMore : more = []
    · subst hMore
      rw [List.append_nil] at hFront
      have hCut : cs = [] ++ last := by
        rw [hFront] at hSplit
        exact List.append_cancel_left hSplit
      exact hBehind [] (by rw [hFront, List.append_nil]) hCut
    · rw [bind_eq_error]
      exact Or.inl (hd front more hFront hMore)

namespace Delimited

theorem imp (h : Delimited d R) (hR : ∀ bs a, R bs a → R' bs a) : Delimited d R' := by
  intro s a t hRun
  obtain ⟨bs, hSplit, hRead, hCut, ha⟩ := h s a t hRun
  exact ⟨bs, hSplit, hRead, hCut, hR bs a ha⟩

theorem pure {a : α} (h : R [] a) : Delimited (Pure.pure a) R := by
  intro s b t hRun
  obtain ⟨rfl, rfl⟩ := pure_eq_ok.mp hRun
  exact ⟨[], rfl, .pure b, cutShort_nil _, h⟩

theorem bind {f : α → Decoder β} (hd : Delimited d R)
    (hf : ∀ bs a, R bs a → Delimited (f a) fun cs b => S (bs ++ cs) b) :
    Delimited (d >>= f) S := by
  intro s b t hRun
  obtain ⟨a, r, hHead, hTail⟩ := bind_eq_ok.mp hRun
  obtain ⟨bs, rfl, hRead, hCut, ha⟩ := hd s a r hHead
  obtain ⟨cs, rfl, hRead', hCut', hb⟩ := hf bs a ha r b t hTail
  exact ⟨bs ++ cs, (List.append_assoc ..).symm, hRead.bind hRead', hCut.bind hRead hCut', hb⟩

/-- Where the first step stops is enough to know where both do. -/
theorem next {f : α → Decoder β} (hd : Delimited d R) (hf : ∀ a, Delimited (f a) fun _ _ => True) :
    Delimited (d >>= f) fun _ _ => True := hd.bind fun _ a _ => hf a

theorem last {g : α → β} (h : Delimited d fun bs a => S bs (g a)) :
    Delimited (do return g (← d)) S := by
  apply h.bind
  intro bs a ha
  apply pure
  rwa [List.append_nil]

theorem map {g : α → β} (h : Delimited d fun bs a => S bs (g a)) : Delimited (g <$> d) S := by
  rw [map_eq_pure_bind]
  exact h.last

theorem throw {e : ReadError} : Delimited (MonadExcept.throw e : Decoder α) R :=
  fun _ _ _ hRun => absurd hRun throw_ne_ok

theorem guarded {p : Prop} [Decidable p] {e : ReadError} (h : ¬ p → Delimited d R) :
    Delimited (if p then MonadExcept.throw e else d) R := by
  split
  · exact throw
  · rename_i hp
    exact h hp

theorem lift {x : Except ReadError α} (h : ∀ a, x = .ok a → R [] a) :
    Delimited (liftM x : Decoder α) R := by
  intro s a t hRun
  obtain ⟨hx, rfl⟩ := lift_eq_ok.mp hRun
  exact ⟨[], rfl, .lift hx, cutShort_nil _, h a hx⟩

theorem lookup {x : Except ReadError α} {f : α → Decoder β}
    (h : ∀ a, x = .ok a → Delimited (f a) S) : Delimited (liftM x >>= f) S := by
  have hLift : Delimited (liftM x) fun bs a => bs = [] ∧ x = .ok a :=
    lift fun _ ha => ⟨rfl, ha⟩
  apply hLift.bind
  rintro _ a ⟨rfl, ha⟩
  exact h a ha

theorem lookups {γ : Type} {x : γ → Except ReadError α} {cs : List γ} {f : List α → Decoder β}
    (h : ∀ as, Delimited (f as) S) :
    Delimited ((cs.mapM fun c => (liftM (x c) : Decoder α)) >>= f) S := by
  have hLift : Delimited (cs.mapM fun c => (liftM (x c) : Decoder α)) fun bs _ => bs = [] := by
    intro s as t hRun
    obtain ⟨hAll, rfl⟩ := mapM_lift_eq_ok.mp hRun
    exact ⟨[], rfl, fun rest => mapM_lift_eq_ok.mpr ⟨hAll, rfl⟩, cutShort_nil _, rfl⟩
  apply hLift.bind
  rintro _ as rfl
  exact h as

end Delimited

theorem delimited_take (n : Nat) : Delimited (take n) fun bs a => bs = a ∧ bs.length = n := by
  intro s a t hRun
  obtain ⟨rfl, hLength⟩ := take_eq_ok.mp hRun
  refine ⟨a, rfl, reads_take hLength, ?_, rfl, hLength⟩
  intro front last hSplit hLast
  have hShort : (front.take n).length ≠ n := by
    have hPos := List.length_pos_iff.mpr hLast
    rw [hSplit, List.length_append] at hLength
    rw [List.length_take]
    omega
  rw [take]
  exact if_neg hShort

theorem delimited_word (n : Nat) :
    Delimited (word n) fun bs v => bs = Bytes.ofNatBE n v ∧ v < Bytes.range n := by
  apply Delimited.map
  apply (delimited_take n).imp
  rintro bs _ ⟨rfl, rfl⟩
  exact ⟨(Bytes.ofNatBE_toNatBE bs).symm, Bytes.toNatBE_lt bs⟩

theorem delimited_u1 : Delimited u1 fun bs v => bs = [v] := by
  apply Delimited.map
  apply (delimited_word 1).imp
  rintro _ v ⟨rfl, -⟩
  rfl

theorem delimited_u2 : Delimited u2 fun bs v => bs = Bytes.u2 v := by
  apply Delimited.map
  apply (delimited_word 2).imp
  rintro _ v ⟨rfl, hv⟩
  rw [Bytes.u2, UInt16.toNat_ofNat_of_lt' hv]

theorem delimited_u4 : Delimited u4 fun bs v => bs = Bytes.u4 v := by
  apply Delimited.map
  apply (delimited_word 4).imp
  rintro _ v ⟨rfl, hv⟩
  rw [Bytes.u4, UInt32.toNat_ofNat_of_lt' hv]

theorem delimited_u8 : Delimited u8 fun bs v => bs = Bytes.u8 v := by
  apply Delimited.map
  apply (delimited_word 8).imp
  rintro _ v ⟨rfl, hv⟩
  rw [Bytes.u8, UInt64.toNat_ofNat_of_lt' hv]

theorem delimited_i1 : Delimited i1 fun bs v => bs = [v.toUInt8] := by
  apply Delimited.map
  apply delimited_u1.imp
  rintro _ v rfl
  rw [UInt8.toUInt8_toInt8]

theorem delimited_i2 : Delimited i2 fun bs v => bs = Bytes.i2 v := by
  apply Delimited.map
  apply delimited_u2.imp
  rintro _ v rfl
  rw [Bytes.i2, UInt16.toUInt16_toInt16]

theorem delimited_i4 : Delimited i4 fun bs v => bs = Bytes.i4 v := by
  apply Delimited.map
  apply delimited_u4.imp
  rintro _ v rfl
  rw [Bytes.i4, UInt32.toUInt32_toInt32]

theorem delimited_i8 : Delimited i8 fun bs v => bs = Bytes.i8 v := by
  apply Delimited.map
  apply delimited_u8.imp
  rintro _ v rfl
  rw [Bytes.i8, UInt64.toUInt64_toInt64]

theorem delimited_countFrom (h : Delimited d R) (k : Nat) (done : List α) :
    Delimited (countFrom d k done) fun bs as => ∃ pieces more, as = done.reverse ++ more ∧
      bs = pieces.flatten ∧ more.length = k ∧ List.Forall₂ R pieces more := by
  induction k generalizing done with
  | zero => exact .pure ⟨[], [], (List.append_nil _).symm, rfl, rfl, .nil⟩
  | succ k ih =>
    apply h.bind
    intro bs a ha
    apply (ih (a :: done)).imp
    rintro _ as ⟨pieces, more, rfl, rfl, hLength, hAll⟩
    exact ⟨bs :: pieces, a :: more, by simp, rfl, by simp [hLength], .cons ha hAll⟩

theorem delimited_count (h : Delimited d R) (k : Nat) :
    Delimited (count k d) fun bs as =>
      ∃ pieces, bs = pieces.flatten ∧ as.length = k ∧ List.Forall₂ R pieces as := by
  apply (delimited_countFrom h k []).imp
  rintro _ _ ⟨pieces, more, rfl, rfl, hLength, hAll⟩
  exact ⟨pieces, rfl, hLength, hAll⟩

theorem delimited_count_spelled {g : α → Bytes} (h : Delimited d fun bs a => bs = g a) (k : Nat) :
    Delimited (count k d) fun bs as => bs = as.flatMap g ∧ as.length = k := by
  apply (delimited_count h k).imp
  rintro _ as ⟨pieces, rfl, hLength, hAll⟩
  refine ⟨?_, hLength⟩
  clear hLength
  induction hAll with
  | nil => rfl
  | cons hHead _ ih => rw [List.flatten_cons, List.flatMap_cons, hHead, ih]

theorem delimited_list (h : Delimited d R) : Delimited (list d) fun _ _ => True := by
  apply delimited_u2.bind
  intro _ k _
  exact (delimited_count h k.toNat).imp fun _ _ _ => trivial

theorem delimited_shortList (h : Delimited d R) : Delimited (shortList d) fun _ _ => True := by
  apply delimited_u1.bind
  intro _ k _
  exact (delimited_count h k.toNat).imp fun _ _ _ => trivial

end Decoder

end Renaming
