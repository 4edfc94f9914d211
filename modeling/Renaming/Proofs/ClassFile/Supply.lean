import Renaming.Proofs.Binary.Takes
import Renaming.Proofs.ClassFile.Entry

/-!
# Writing what was read

`Encoder.Runs I x R` says that the step `x` of the writer succeeds from every pool builder in `I`,
stays in `I`, and yields a result in `R`. A set of builders is a supply of a pool that was read if
every constant of the pool can be asked for (`Encoder.Supplies`). From such a supply a writer repays
a reader (`Encoder.Repays`): it writes all that the reader yields, in as many bytes as were taken.
-/

namespace Renaming

namespace PoolBuilder

def pool (b : PoolBuilder) : Pool := ⟨b.entries.map (·.getD .empty)⟩

theorem fitsIn_pool (b : PoolBuilder) : b.FitsIn b.pool := by
  intro k e he
  simp [pool, he]

theorem filled_of_entry {b : PoolBuilder} {i : UInt16} {e : PoolEntry}
    (h : b.pool.entry i = .ok e) : b.entries[i.toNat - 1]? = some (some e) := by
  obtain ⟨-, hSlot, hEntry⟩ := Pool.entry_eq_ok.mp h
  simp only [pool, Array.getElem?_map, Option.map_eq_some_iff] at hSlot
  obtain ⟨slot, hSlot, rfl⟩ := hSlot
  cases slot with
  | none => exact absurd rfl hEntry
  | some e => exact hSlot

/-- What a slot that belongs to a constant leads to is that constant. -/
theorem Owned.index_of_names {b : PoolBuilder} {n : Nat} {c : Constant} {i : UInt16}
    (hOwned : b.Owned n) (hb : b.Sound) (hi : n < i.toNat) (h : b.pool.Names i c) :
    b.index[c]? = some i := by
  obtain ⟨e, he, -⟩ := h.entry
  have hFilled := filled_of_entry he
  obtain ⟨d, j, hj, hPlace⟩ := hOwned _ _ (by omega) hFilled
    (by simpa using (Pool.entry_eq_ok.mp he).2.2)
  have hij : j = i := UInt16.toNat_inj.mp (by omega)
  subst hij
  rwa [h.unique (hb.named d j hj (isFilled_iff.mpr ⟨e, hFilled⟩) _ b.fitsIn_pool)]

end PoolBuilder

namespace Encoder

open Decoder (Takes)

variable {α β : Type} {I : PoolBuilder → Prop} {x : Encoder α} {R R' : α → Prop} {S : β → Prop}

/-- From every builder in `I` the step `x` succeeds, with a result in `R`, and leads to one. -/
def Runs (I : PoolBuilder → Prop) (x : Encoder α) (R : α → Prop) : Prop :=
  ∀ b, I b → ∃ a b', x b = .ok (a, b') ∧ I b' ∧ R a

namespace Runs

theorem pure {a : α} (h : R a) : Runs I (Pure.pure a) R := fun b hb => ⟨a, b, rfl, hb, h⟩

theorem bind {f : α → Encoder β} (hx : Runs I x R) (hf : ∀ a, R a → Runs I (f a) S) :
    Runs I (x >>= f) S := by
  intro b hb
  obtain ⟨a, b', hRun, hb', hR⟩ := hx b hb
  obtain ⟨c, b'', hRun', hb'', hS⟩ := hf a hR b' hb'
  exact ⟨c, b'', Stateful.bind_eq_ok.mpr ⟨a, b', hRun, hRun'⟩, hb'', hS⟩

theorem imp (h : Runs I x R) (hR : ∀ a, R a → R' a) : Runs I x R' := by
  intro b hb
  obtain ⟨a, b', hRun, hb', ha⟩ := h b hb
  exact ⟨a, b', hRun, hb', hR a ha⟩

theorem always (h : Runs I x R) (hx : ∀ b a b', x b = .ok (a, b') → R' a) : Runs I x R' := by
  intro b hb
  obtain ⟨a, b', hRun, hb', -⟩ := h b hb
  exact ⟨a, b', hRun, hb', hx b a b' hRun⟩

theorem map {g : α → β} (h : Runs I x fun a => S (g a)) : Runs I (g <$> x) S := by
  rw [map_eq_pure_bind]
  exact h.bind fun a ha => .pure ha

theorem guarded {p : Prop} [Decidable p] {e : WriteError} (hp : ¬ p) (h : Runs I x R) :
    Runs I (if p then throw e else x) R := by
  rwa [if_neg hp]

end Runs

section Tables

variable {γ : Type} {table : String} {item : γ → Encoder Bytes} {as : List γ} {ns : List Nat}

theorem runs_length2 (h : as.length ≤ 65535) :
    Runs I (length2 table as) fun bs => bs.length = 2 :=
  .guarded (Nat.not_lt.mpr h) (.pure (Bytes.length_u2 _))

theorem runs_length1 (h : as.length ≤ 255) :
    Runs I (length1 table as) fun bs => bs.length = 1 :=
  .guarded (Nat.not_lt.mpr h) (.pure rfl)

theorem runs_each (h : List.Forall₂ (fun n a => Runs I (item a) fun bs => bs.length = n) ns as) :
    Runs I (each item as) fun bs => bs.length = ns.sum := by
  have hAll : Runs I (as.mapM item) fun pieces => pieces.flatten.length = ns.sum := by
    induction h with
    | nil => exact .pure rfl
    | cons hHead _ ih =>
      rw [List.mapM_cons]
      refine hHead.bind fun bs hBs => ih.bind fun pieces hPieces => .pure ?_
      rw [List.flatten_cons, List.length_append, hBs, hPieces, List.sum_cons]
  exact hAll.bind fun pieces hPieces => .pure hPieces

theorem runs_list (hLength : as.length ≤ 65535)
    (h : List.Forall₂ (fun n a => Runs I (item a) fun bs => bs.length = n) ns as) :
    Runs I (list table item as) fun bs => bs.length = 2 + ns.sum := by
  refine (runs_length2 hLength).bind fun count hCount => (runs_each h).bind fun bs hBs => .pure ?_
  rw [List.length_append, hCount, hBs]

theorem runs_shortList (hLength : as.length ≤ 255)
    (h : List.Forall₂ (fun n a => Runs I (item a) fun bs => bs.length = n) ns as) :
    Runs I (shortList table item as) fun bs => bs.length = 1 + ns.sum := by
  refine (runs_length1 hLength).bind fun count hCount => (runs_each h).bind fun bs hBs => .pure ?_
  rw [List.length_append, hCount, hBs]

end Tables

section Repays

variable {d : Decoder α} {item : α → Encoder Bytes}

/-- What `d` reads is written by `item` in as many bytes. -/
def Repays (I : PoolBuilder → Prop) (d : Decoder α) (item : α → Encoder Bytes) : Prop :=
  Takes d fun n a => Runs I (item a) fun bs => bs.length = n

theorem Repays.map {g : α → β} {item : β → Encoder Bytes} (h : Repays I d fun a => item (g a)) :
    Repays I (g <$> d) item := Takes.map h

theorem repays_list (table : String) (h : Repays I d item) :
    Repays I (Decoder.list d) (list table item) := by
  apply (Decoder.takes_list h).imp
  rintro _ as ⟨hLength, ns, hAll, rfl⟩
  exact runs_list hLength hAll

theorem repays_shortList (table : String) (h : Repays I d item) :
    Repays I (Decoder.shortList d) (shortList table item) := by
  apply (Decoder.takes_shortList h).imp
  rintro _ as ⟨hLength, ns, hAll, rfl⟩
  exact runs_shortList hLength hAll

theorem runs_index {index : Encoder UInt16} (h : Runs I index fun _ => True) :
    Runs I (Encoder.index index) fun bs => bs.length = 2 :=
  (h.imp fun i _ => Bytes.length_u2 i).map (S := fun bs : Bytes => bs.length = 2)

theorem repays_index {index : α → Encoder UInt16} {lookup : UInt16 → Except ReadError α}
    (h : ∀ i a, lookup i = .ok a → Runs I (index a) fun _ => True) :
    Repays I (do lookup (← Decoder.u2)) fun a => Encoder.index (index a) := by
  apply Decoder.fixed_u2.bind
  intro i
  apply Takes.lift
  intro a ha
  exact runs_index (h i a ha)

end Repays

/-- The constants of `P` can be asked for from every builder in `I`, and those of `L` have an index
of one byte. -/
structure Supplies (P : Pool) (L : Constant → Prop) (I : PoolBuilder → Prop) : Prop where
  constant : ∀ c, P.Holds c → Runs I (PoolBuilder.constant c) fun i => L c → i.toNat ≤ 255

namespace Supplies

variable {P : Pool} {L : Constant → Prop} (hI : Supplies P L I) {i : UInt16}

include hI

theorem names {c : Constant} (h : P.Names i c) :
    Runs I (PoolBuilder.constant c) fun _ => True :=
  (hI.constant c h.holds).imp fun _ _ => trivial

theorem utf8 {s : String} (h : P.utf8 i = .ok s) : Runs I (PoolBuilder.utf8 s) fun _ => True :=
  hI.names (Pool.utf8_eq_ok.mp h)

theorem className {s : String} (h : P.className i = .ok s) :
    Runs I (PoolBuilder.className s) fun _ => True :=
  hI.names (Pool.className_eq_ok.mp h)

theorem moduleName {s : String} (h : P.moduleName i = .ok s) :
    Runs I (PoolBuilder.moduleName s) fun _ => True :=
  hI.names (Pool.moduleName_eq_ok.mp h)

theorem packageName {s : String} (h : P.packageName i = .ok s) :
    Runs I (PoolBuilder.packageName s) fun _ => True :=
  hI.names (Pool.packageName_eq_ok.mp h)

theorem nameAndType {v : NameAndType} (h : P.nameAndType i = .ok v) :
    Runs I (PoolBuilder.nameAndType v) fun _ => True :=
  hI.names (Pool.nameAndType_eq_ok.mp h)

omit hI in
theorem optional {lookup : UInt16 → Except ReadError α} {index : α → Encoder UInt16} {a : Option α}
    (h : Pool.optional lookup i = .ok a)
    (hIndex : ∀ c, lookup i = .ok c → Runs I (index c) fun _ => True) :
    Runs I (PoolBuilder.optional index a) fun _ => True := by
  cases a with
  | none => exact .pure trivial
  | some c => exact hIndex c (Pool.optional_eq_ok h c rfl)

theorem optionalClass {a : Option String} (h : Pool.optional P.className i = .ok a) :
    Runs I (PoolBuilder.optional PoolBuilder.className a) fun _ => True :=
  optional h fun _ => hI.className

theorem optionalUtf8 {a : Option String} (h : Pool.optional P.utf8 i = .ok a) :
    Runs I (PoolBuilder.optional PoolBuilder.utf8 a) fun _ => True :=
  optional h fun _ => hI.utf8

theorem repays_classes (table : String) :
    Repays I (Decoder.list do P.className (← Decoder.u2)) (Encoder.classes table) :=
  repays_list table (repays_index fun _ _ => hI.className)

end Supplies

end Encoder

end Renaming
