import Renaming.Binary.Decoder
import Renaming.Proofs.Outcome

/-!
# What decoders take

`Decoder.Reads d bs a` says that `d` takes exactly the bytes `bs` off any input that starts with
them, and yields `a`. Since the rest of the input is arbitrary, the rules for sequences and counted
lists compose without side conditions. In the other direction the lemmas on `= .ok` say what is
known of the items of a list that was read.
-/

namespace Renaming.Decoder

open Stateful

variable {α β : Type}

/-- `d` takes `bs` off any input that starts with it, and yields `a`. -/
def Reads (d : Decoder α) (bs : Bytes) (a : α) : Prop :=
  ∀ rest, d (bs ++ rest) = .ok (a, rest)

namespace Reads

theorem pure (a : α) : Reads (Pure.pure a) [] a := fun _ => rfl

theorem bind {d : Decoder α} {f : α → Decoder β} {bs cs : Bytes} {a : α} {b : β}
    (hd : Reads d bs a) (hf : Reads (f a) cs b) : Reads (d >>= f) (bs ++ cs) b := by
  intro rest
  rw [List.append_assoc, bind_eq_ok]
  exact ⟨a, cs ++ rest, hd _, hf rest⟩

theorem map {d : Decoder α} {bs : Bytes} {a : α} (g : α → β) (hd : Reads d bs a) :
    Reads (g <$> d) bs (g a) := by
  intro rest
  rw [map_eq_ok]
  exact ⟨a, hd rest, rfl⟩

theorem lift {x : Except ReadError α} {a : α} (hx : x = .ok a) :
    Reads (liftM x : Decoder α) [] a := by
  intro rest
  rw [lift_eq_ok]
  exact ⟨hx, rfl⟩

theorem lift_bind {x : Except ReadError α} {f : α → Decoder β} {bs : Bytes} {a : α} {b : β}
    (hx : x = .ok a) (hf : Reads (f a) bs b) : Reads ((liftM x : Decoder α) >>= f) bs b :=
  (lift hx).bind hf

theorem of_eq {d : Decoder α} {bs cs : Bytes} {a : α} (h : Reads d bs a) (hbs : cs = bs) :
    Reads d cs a := hbs ▸ h

end Reads

theorem reads_take {n : Nat} {bs : Bytes} (h : bs.length = n) : Reads (take n) bs bs := by
  intro rest
  subst h
  simp [take]

theorem take_eq_ok {n : Nat} {s t bs : Bytes} :
    take n s = .ok (bs, t) ↔ s = bs ++ t ∧ bs.length = n := by
  constructor
  · intro h
    unfold take at h
    dsimp only at h
    split at h
    · rename_i hn
      cases h
      exact ⟨(List.take_append_drop n s).symm, hn⟩
    · cases h
  · rintro ⟨rfl, hn⟩
    exact reads_take hn t

theorem reads_word {n v : Nat} (h : v < Bytes.range n) : Reads (word n) (Bytes.ofNatBE n v) v := by
  have hv : Bytes.toNatBE (Bytes.ofNatBE n v) = v := by
    rw [Bytes.toNatBE_ofNatBE, Nat.mod_eq_of_lt h]
  have hr : Reads (word n) (Bytes.ofNatBE n v) (Bytes.toNatBE (Bytes.ofNatBE n v)) :=
    (reads_take (Bytes.length_ofNatBE n v)).map Bytes.toNatBE
  rwa [hv] at hr

theorem reads_u1 (v : UInt8) : Reads u1 [v] v := by
  intro rest
  have hv : UInt8.ofNat v.toNat = v := UInt8.ofNat_toNat
  simp [u1, word, take, Functor.map, StateT.map, bind, Except.bind, Pure.pure, Except.pure,
    Bytes.toNatBE, hv]

theorem reads_u2 (v : UInt16) : Reads u2 (Bytes.u2 v) v := by
  have h := (reads_word (n := 2) (v := v.toNat) v.toNat_lt).map UInt16.ofNat
  rwa [UInt16.ofNat_toNat] at h

theorem reads_u4 (v : UInt32) : Reads u4 (Bytes.u4 v) v := by
  have h := (reads_word (n := 4) (v := v.toNat) v.toNat_lt).map UInt32.ofNat
  rwa [UInt32.ofNat_toNat] at h

theorem reads_u8 (v : UInt64) : Reads u8 (Bytes.u8 v) v := by
  have h := (reads_word (n := 8) (v := v.toNat) v.toNat_lt).map UInt64.ofNat
  rwa [UInt64.ofNat_toNat] at h

theorem reads_i1 (v : Int8) : Reads i1 [v.toUInt8] v := by
  have h := (reads_u1 v.toUInt8).map UInt8.toInt8
  rwa [Int8.toInt8_toUInt8] at h

theorem reads_i2 (v : Int16) : Reads i2 (Bytes.i2 v) v := by
  have h := (reads_u2 v.toUInt16).map UInt16.toInt16
  rwa [Int16.toInt16_toUInt16] at h

theorem reads_i4 (v : Int32) : Reads i4 (Bytes.i4 v) v := by
  have h := (reads_u4 v.toUInt32).map UInt32.toInt32
  rwa [Int32.toInt32_toUInt32] at h

theorem reads_i8 (v : Int64) : Reads i8 (Bytes.i8 v) v := by
  have h := (reads_u8 v.toUInt64).map UInt64.toInt64
  rwa [Int64.toInt64_toUInt64] at h

theorem reads_countFrom {item : Decoder α} {pieces : List Bytes} {as : List α}
    (h : List.Forall₂ (Reads item) pieces as) (done : List α) :
    Reads (countFrom item as.length done) pieces.flatten (done.reverse ++ as) := by
  induction h generalizing done with
  | nil => simpa [countFrom] using Reads.pure done.reverse
  | @cons bs a pieces as hd _ ih =>
    have ih := ih (a :: done)
    rw [List.reverse_cons, List.append_assoc, List.singleton_append] at ih
    exact hd.bind ih

theorem reads_count {item : Decoder α} {pieces : List Bytes} {as : List α}
    (h : List.Forall₂ (Reads item) pieces as) :
    Reads (count as.length item) pieces.flatten as := reads_countFrom h []

theorem reads_count_flatMap {item : Decoder α} {encode : α → Bytes}
    (h : ∀ a, Reads item (encode a) a) (as : List α) :
    Reads (count as.length item) (as.flatMap encode) as := by
  have hAll : List.Forall₂ (Reads item) (as.map encode) as := by
    rw [List.forall₂_map_left_iff]
    exact List.forall₂_same.mpr fun a _ => h a
  rw [List.flatMap_def]
  exact reads_count hAll

theorem countFrom_eq_ok {item : Decoder α} {n : Nat} {done as : List α} {s t : Bytes}
    (h : countFrom item n done s = .ok (as, t)) :
    ∃ more, as = done.reverse ++ more ∧ more.length = n ∧
      ∀ a ∈ more, ∃ s' t', item s' = .ok (a, t') := by
  induction n generalizing done s with
  | zero =>
    obtain ⟨rfl, -⟩ := pure_eq_ok.mp h
    exact ⟨[], by simp, rfl, by simp⟩
  | succ n ih =>
    obtain ⟨a, r, ha, hn⟩ := bind_eq_ok.mp h
    obtain ⟨more, rfl, hlen, hmore⟩ := ih hn
    refine ⟨a :: more, by simp, by simp [hlen], ?_⟩
    intro b hb
    rcases List.mem_cons.mp hb with rfl | hb
    · exact ⟨s, r, ha⟩
    · exact hmore b hb

theorem count_eq_ok {item : Decoder α} {n : Nat} {as : List α} {s t : Bytes}
    (h : count n item s = .ok (as, t)) :
    as.length = n ∧ ∀ a ∈ as, ∃ s' t', item s' = .ok (a, t') := by
  obtain ⟨more, rfl, hlen, hmore⟩ := countFrom_eq_ok h
  exact ⟨by simpa using hlen, by simpa using hmore⟩

theorem list_eq_ok {item : Decoder α} {as : List α} {s t : Bytes}
    (h : list item s = .ok (as, t)) : ∀ a ∈ as, ∃ s' t', item s' = .ok (a, t') := by
  obtain ⟨n, r, -, hcount⟩ := bind_eq_ok.mp h
  exact (count_eq_ok hcount).2

theorem shortList_eq_ok {item : Decoder α} {as : List α} {s t : Bytes}
    (h : shortList item s = .ok (as, t)) : ∀ a ∈ as, ∃ s' t', item s' = .ok (a, t') := by
  obtain ⟨n, r, -, hcount⟩ := bind_eq_ok.mp h
  exact (count_eq_ok hcount).2

theorem reads_list {item : Decoder α} {pieces : List Bytes} {as : List α}
    (h : List.Forall₂ (Reads item) pieces as) (hlen : as.length ≤ 65535) :
    Reads (list item) (Bytes.u2 (UInt16.ofNat as.length) ++ pieces.flatten) as := by
  have hn : (UInt16.ofNat as.length).toNat = as.length := by
    simp [UInt16.toNat_ofNat', Nat.mod_eq_of_lt (show as.length < 65536 by omega)]
  refine (reads_u2 _).bind ?_
  rw [hn]
  exact reads_count h

theorem reads_shortList {item : Decoder α} {pieces : List Bytes} {as : List α}
    (h : List.Forall₂ (Reads item) pieces as) (hlen : as.length ≤ 255) :
    Reads (shortList item) ([UInt8.ofNat as.length] ++ pieces.flatten) as := by
  have hn : (UInt8.ofNat as.length).toNat = as.length := by
    simp [UInt8.toNat_ofNat', Nat.mod_eq_of_lt (show as.length < 256 by omega)]
  refine (reads_u1 _).bind ?_
  rw [hn]
  exact reads_count h

end Renaming.Decoder
