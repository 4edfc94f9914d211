import Mathlib.Algebra.GroupWithZero.Nat
import Renaming.Proofs.Binary.Decoder

/-!
# How much decoders take

`Decoder.Takes d R` says that a number of bytes and a value are in the relation `R` whenever `d`
takes that many bytes off its input and yields that value. It speaks of every input that can be
read, where `Decoder.Reads` speaks of one that is known.
-/

namespace Renaming

namespace Decoder

open Stateful

variable {α β : Type} {d : Decoder α} {R R' : Nat → α → Prop} {S : Nat → β → Prop}

/-- Whatever `d` reads, the number of bytes it takes and its value are in the relation `R`. -/
def Takes (d : Decoder α) (R : Nat → α → Prop) : Prop :=
  ∀ s a t, d s = .ok (a, t) → ∃ n, s.length = n + t.length ∧ R n a

/-- `d` always takes `k` bytes. -/
def Fixed (d : Decoder α) (k : Nat) : Prop := Takes d fun n _ => n = k

namespace Takes

theorem pure {a : α} (h : R 0 a) : Takes (Pure.pure a) R := by
  intro s b t hRun
  obtain ⟨rfl, rfl⟩ := pure_eq_ok.mp hRun
  exact ⟨0, (Nat.zero_add _).symm, h⟩

theorem bind {f : α → Decoder β} (hd : Takes d R)
    (hf : ∀ n a, R n a → Takes (f a) fun m b => S (n + m) b) : Takes (d >>= f) S := by
  intro s b t hRun
  obtain ⟨a, r, hHead, hTail⟩ := bind_eq_ok.mp hRun
  obtain ⟨n, hn, hR⟩ := hd s a r hHead
  obtain ⟨m, hm, hS⟩ := hf n a hR r b t hTail
  exact ⟨n + m, by omega, hS⟩

theorem imp (h : Takes d R) (hR : ∀ n a, R n a → R' n a) : Takes d R' := by
  intro s a t hRun
  obtain ⟨n, hn, ha⟩ := h s a t hRun
  exact ⟨n, hn, hR n a ha⟩

theorem map {g : α → β} (h : Takes d fun n a => S n (g a)) : Takes (g <$> d) S := by
  intro s b t hRun
  obtain ⟨a, ha, rfl⟩ := map_eq_ok.mp hRun
  exact h s a t ha

theorem throw {e : ReadError} : Takes (MonadExcept.throw e : Decoder α) R :=
  fun _ _ _ hRun => absurd hRun throw_ne_ok

theorem guarded {p : Prop} [Decidable p] {e : ReadError} (h : ¬ p → Takes d R) :
    Takes (if p then MonadExcept.throw e else d) R := by
  split
  · exact throw
  · rename_i hp
    exact h hp

theorem lift {x : Except ReadError α} (h : ∀ a, x = .ok a → R 0 a) :
    Takes (liftM x : Decoder α) R := by
  intro s a t hRun
  obtain ⟨hx, rfl⟩ := lift_eq_ok.mp hRun
  exact ⟨0, (Nat.zero_add _).symm, h a hx⟩

theorem lookup {x : Except ReadError α} {f : α → Decoder β} (h : ∀ a, x = .ok a → Takes (f a) S) :
    Takes ((liftM x : Decoder α) >>= f) S := by
  intro s b t hRun
  obtain ⟨a, r, hLift, hTail⟩ := bind_eq_ok.mp hRun
  obtain ⟨hx, rfl⟩ := lift_eq_ok.mp hLift
  exact h a hx r b t hTail

theorem lookups {γ : Type} {x : γ → Except ReadError α} {cs : List γ} {f : List α → Decoder β}
    (h : ∀ as, List.Forall₂ (fun c a => x c = .ok a) cs as → Takes (f as) S) :
    Takes ((cs.mapM fun c => (liftM (x c) : Decoder α)) >>= f) S := by
  intro s b t hRun
  obtain ⟨as, r, hLift, hTail⟩ := bind_eq_ok.mp hRun
  obtain ⟨hx, rfl⟩ := mapM_lift_eq_ok.mp hLift
  exact h as hx r b t hTail

end Takes

namespace Fixed

variable {k : Nat}

theorem map {g : α → β} (h : Fixed d k) : Fixed (g <$> d) k := Takes.map h

theorem bind {f : α → Decoder β} (hd : Fixed d k)
    (hf : ∀ a, Takes (f a) fun m b => S (k + m) b) : Takes (d >>= f) S := by
  apply Takes.bind hd
  rintro _ a rfl
  exact hf a

end Fixed

theorem takes_take (k : Nat) : Takes (take k) fun n bs => n = k ∧ bs.length = k := by
  intro s bs t h
  obtain ⟨rfl, hLength⟩ := take_eq_ok.mp h
  exact ⟨bs.length, List.length_append, hLength, hLength⟩

theorem fixed_take (k : Nat) : Fixed (take k) k := (takes_take k).imp fun _ _ h => h.1

theorem fixed_word (k : Nat) : Fixed (word k) k := (fixed_take k).map

theorem fixed_u1 : Fixed u1 1 := (fixed_word 1).map

theorem fixed_u2 : Fixed u2 2 := (fixed_word 2).map

theorem fixed_u4 : Fixed u4 4 := (fixed_word 4).map

theorem fixed_u8 : Fixed u8 8 := (fixed_word 8).map

theorem fixed_i1 : Fixed i1 1 := fixed_u1.map

theorem fixed_i2 : Fixed i2 2 := fixed_u2.map

theorem fixed_i4 : Fixed i4 4 := fixed_u4.map

theorem fixed_i8 : Fixed i8 8 := fixed_u8.map

theorem takes_countFrom (h : Takes d R) (k : Nat) (done : List α) :
    Takes (countFrom d k done) fun n as =>
      ∃ ns more, as = done.reverse ++ more ∧ more.length = k ∧ List.Forall₂ R ns more ∧
        n = ns.sum := by
  induction k generalizing done with
  | zero => exact .pure ⟨[], [], by simp, rfl, .nil, rfl⟩
  | succ k ih =>
    apply h.bind
    intro n a ha
    apply (ih (a :: done)).imp
    rintro m as ⟨ns, more, rfl, hLength, hAll, rfl⟩
    exact ⟨n :: ns, a :: more, by simp, by simp [hLength], .cons ha hAll, by simp⟩

theorem takes_count (h : Takes d R) (k : Nat) :
    Takes (count k d) fun n as => as.length = k ∧ ∃ ns, List.Forall₂ R ns as ∧ n = ns.sum := by
  apply (takes_countFrom h k []).imp
  rintro n as ⟨ns, more, rfl, hLength, hAll, rfl⟩
  exact ⟨by simpa using hLength, ns, by simpa using hAll, rfl⟩

theorem takes_count_fixed {k : Nat} (h : Fixed d k) (m : Nat) :
    Takes (count m d) fun n as => n = k * m ∧ as.length = m := by
  apply (takes_count h m).imp
  rintro _ as ⟨hLength, ns, hAll, rfl⟩
  refine ⟨?_, hLength⟩
  rw [← hLength]
  clear hLength
  induction hAll with
  | nil => simp
  | cons hHead _ ih => rw [List.sum_cons, hHead, ih, List.length_cons, Nat.mul_succ, Nat.add_comm]

theorem takes_list (h : Takes d R) :
    Takes (list d) fun n as => as.length ≤ 65535 ∧ ∃ ns, List.Forall₂ R ns as ∧ n = 2 + ns.sum := by
  apply fixed_u2.bind
  intro k
  apply (takes_count h k.toNat).imp
  rintro n as ⟨hLength, ns, hAll, rfl⟩
  have hBound := k.toNat_lt
  exact ⟨by omega, ns, hAll, rfl⟩

theorem takes_shortList (h : Takes d R) :
    Takes (shortList d) fun n as =>
      as.length ≤ 255 ∧ ∃ ns, List.Forall₂ R ns as ∧ n = 1 + ns.sum := by
  apply fixed_u1.bind
  intro k
  apply (takes_count h k.toNat).imp
  rintro n as ⟨hLength, ns, hAll, rfl⟩
  have hBound := k.toNat_lt
  exact ⟨by omega, ns, hAll, rfl⟩

end Decoder

end Renaming
