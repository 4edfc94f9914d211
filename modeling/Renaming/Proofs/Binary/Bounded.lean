import Renaming.Proofs.Binary.Delimited
import Renaming.Proofs.Binary.Takes

/-!
# Decoders on short inputs

A decoder that may only go down so many levels differs from one that may go further only on inputs that
are long enough to get there. `Decoder.Agree n d d'` says that two decoders do the same on every input of
at most `n` bytes. If a decoder agrees in this way with one for each depth, it stops where these do.
-/

namespace Renaming

namespace Decoder

open Stateful

variable {α β : Type} {n : Nat} {d d' : Decoder α} {R : Bytes → α → Prop}

theorem Delimited.takes (h : Delimited d R) : Takes d fun m a => ∃ bs, bs.length = m ∧ R bs a := by
  intro s a t hRun
  obtain ⟨bs, rfl, -, -, ha⟩ := h s a t hRun
  exact ⟨bs.length, List.length_append, bs, rfl, ha⟩

/-- The two decoders do the same on every input of at most `n` bytes. -/
def Agree (n : Nat) (d d' : Decoder α) : Prop := ∀ s : Bytes, s.length ≤ n → d s = d' s

namespace Agree

theorem refl (d : Decoder α) : Agree n d d := fun _ _ => rfl

/-- The second step has the less input, the more the first one takes. -/
theorem bind {T : Nat → α → Prop} {f f' : α → Decoder β} (hd : Agree n d d') (hTakes : Takes d T)
    (hf : ∀ m a, m ≤ n → T m a → Agree (n - m) (f a) (f' a)) : Agree n (d >>= f) (d' >>= f') := by
  intro s hs
  change (d s >>= fun r => f r.1 r.2) = (d' s >>= fun r => f' r.1 r.2)
  rw [← hd s hs]
  cases hRun : d s with
  | error e => rfl
  | ok r =>
    obtain ⟨a, t⟩ := r
    obtain ⟨m, hLength, ha⟩ := hTakes s a t hRun
    exact hf m a (by omega) ha t (by omega)

theorem after {T : Nat → α → Prop} {f f' : α → Decoder β} (hTakes : Takes d T)
    (hf : ∀ m a, m ≤ n → T m a → Agree (n - m) (f a) (f' a)) : Agree n (d >>= f) (d >>= f') :=
  bind (refl d) hTakes hf

theorem last {f : α → Decoder β} (hd : Agree n d d') : Agree n (d >>= f) (d' >>= f) := by
  intro s hs
  change (d s >>= fun r => f r.1 r.2) = (d' s >>= fun r => f r.1 r.2)
  rw [hd s hs]

theorem map {g : α → β} (hd : Agree n d d') : Agree n (g <$> d) (g <$> d') := by
  simp only [map_eq_pure_bind]
  exact hd.last

theorem countFrom (hd : Agree n d d') (h : Delimited d R) (k : Nat) (done : List α) :
    Agree n (countFrom d k done) (countFrom d' k done) := by
  induction k generalizing n done with
  | zero => exact refl _
  | succ k ih =>
    refine hd.bind h.takes fun m a _ _ => ih (fun s hs => hd s (by omega)) (a :: done)

theorem list (hd : Agree n d d') (h : Delimited d R) : Agree n (list d) (list d') :=
  after fixed_u2 fun _ k _ _ => countFrom (fun s hs => hd s (by omega)) h k.toNat []

end Agree

/-- A decoder that may go as deep as its input is long stops where the ones of a fixed depth do. -/
theorem Delimited.of_agree {level : Nat → Decoder α} (h : ∀ n, Delimited (level n) R)
    (hAgree : ∀ n, Agree n (level n) d) : Delimited d R := by
  intro s a t hRun
  obtain ⟨bs, rfl, -, hCut, ha⟩ := h s.length s a t ((hAgree _ s (Nat.le_refl _)).trans hRun)
  refine ⟨bs, rfl, fun rest => ?_, ?_, ha⟩
  · -- One depth serves for the input at hand and for the other one that starts with `bs`.
    obtain ⟨n, hOld, hNew⟩ : ∃ n, (bs ++ t).length ≤ n ∧ (bs ++ rest).length ≤ n :=
      ⟨max _ _, Nat.le_max_left .., Nat.le_max_right ..⟩
    obtain ⟨bs', hSplit, hRead, -, -⟩ := h n _ a t ((hAgree n _ hOld).trans hRun)
    obtain rfl := List.append_cancel_right hSplit
    exact (hAgree n _ hNew).symm.trans (hRead rest)
  · intro front last hSplit hLast
    have hShort : front.length ≤ (bs ++ t).length := by
      rw [hSplit, List.append_assoc, List.length_append]
      exact Nat.le_add_right ..
    exact (hAgree _ front hShort).symm.trans (hCut front last hSplit hLast)

end Decoder

end Renaming
