import Mathlib.Data.Finset.Card
import Renaming.Proofs.ClassFile.Carried
import Renaming.Proofs.ClassFile.Landing

/-!
# How many constants `ldc` can load

In a class of which nothing is kept as bytes, the constants of `ldc` instructions get the first slots of
the pool. So what counts is only how many distinct ones there are: up to 255, each has an index of one
byte whatever else the class refers to, and if there are more, one of them has none.
-/

namespace Renaming

def Instruction.loaded? (i : Instruction) : Option Constant :=
  match i.operand with
  | .constant value => if i.opcode = opLdc then some value else none
  | _ => none

theorem Instruction.loaded?_eq_some {i : Instruction} {v : Constant} :
    i.loaded? = some v ↔ i.Loads v := by
  unfold loaded? Loads
  split
  · rename_i value hOperand
    simp [hOperand]
  · rename_i hOther
    simpa using fun _ => hOther v

theorem nodup_eraseDups {α : Type} [BEq α] [LawfulBEq α] (as : List α) : as.eraseDups.Nodup := by
  cases as with
  | nil => simp
  | cons a as =>
    rw [List.eraseDups_cons, List.nodup_cons]
    exact ⟨by simp [List.mem_eraseDups], nodup_eraseDups _⟩
termination_by as.length
decreasing_by exact Nat.lt_succ_of_le (List.length_filter_le _ _)

namespace PoolBuilder

/-- Slots that are set aside from nothing are numbered in the order of the requests. -/
theorem index_of_empty {b : PoolBuilder} {c : Constant} {cs : List Constant}
    (hNarrow : ∀ c ∈ cs, c.isWide = false) (hRun : reserveAll cs empty = .ok ((), b)) (hc : c ∈ cs) :
    ∃ i, b.index[c]? = some i ∧ i.toNat = cs.eraseDups.idxOf c + 1 := by
  obtain ⟨i, hi, hPlace⟩ := index_of_reserveAll hNarrow hRun (Or.inl hc)
  refine ⟨i, hi, hPlace.trans ?_⟩
  simp [empty, newcomers]

end PoolBuilder

namespace ClassModel

variable {c : ClassModel}

/-- The constants that the `ldc` instructions of a class load, in whichever method body they are. -/
def loaded (c : ClassModel) : Finset Constant :=
  ((c.bodies.flatMap Code.instructions).filterMap Instruction.loaded?).toFinset

theorem mem_loaded {v : Constant} :
    v ∈ c.loaded ↔ ∃ body ∈ c.bodies, ∃ i ∈ body.instructions, i.Loads v := by
  simp only [loaded, List.mem_toFinset, List.mem_filterMap, List.mem_flatMap,
    Instruction.loaded?_eq_some]
  constructor
  · rintro ⟨i, ⟨body, hBody, hi⟩, hLoads⟩
    exact ⟨body, hBody, i, hi, hLoads⟩
  · rintro ⟨body, hBody, i, hi, hLoads⟩
    exact ⟨i, ⟨body, hBody, hi⟩, hLoads⟩

/-- Slots are set aside for these constants and no others. -/
theorem BodiesInPlace.mem_loaded_iff (h : c.BodiesInPlace) {v : Constant} :
    v ∈ c.loaded ↔ v ∈ c.ldcConstants := by
  rw [mem_loaded]
  constructor
  · rintro ⟨body, hBody, i, hi, hLoads⟩
    exact h.loads body hBody i hi v hLoads
  · intro hv
    obtain ⟨m, hm, body, hCode, i, hi, hLoads⟩ := mem_ldcConstants.mp hv
    refine ⟨body, ?_, i, hi, hLoads⟩
    rw [bodies, List.mem_append, List.mem_flatMap]
    refine Or.inl ⟨m, List.mem_append_right _ hm, Attribute.mem_bodiesOfEach.mpr ?_⟩
    exact ⟨_, code_mem hCode, List.mem_cons_self⟩

theorem BodiesInPlace.card_loaded (h : c.BodiesInPlace) :
    c.loaded.card = c.ldcConstants.eraseDups.length := by
  rw [← List.toFinset_card_of_nodup (nodup_eraseDups c.ldcConstants)]
  congr 1
  ext v
  rw [h.mem_loaded_iff, List.mem_toFinset, List.mem_eraseDups]

theorem verbatimPool_of_not_contains
    (h : ∀ name payload P, ¬ c.Contains (.plain (.unknown name payload P))) :
    c.verbatimPool = .ok none := by
  have hNone : c.verbatim = [] := by
    rw [List.eq_nil_iff_forall_not_mem]
    rintro ⟨name, P⟩ hMem
    obtain ⟨payload, hContains⟩ := mem_verbatim_iff.mp hMem
    exact h name payload P hContains
  rw [verbatimPool, hNone]

/-- Let nothing be kept as bytes in a class with its method bodies in place, and let each constant that
it loads fit one slot. If they are at most 255, none of them stands in the way of the writer, however
many other constants there are. If they are more, there is no file. -/
theorem serialize_loaded (hPlace : c.BodiesInPlace)
    (hDecoded : ∀ name payload P, ¬ c.Contains (.plain (.unknown name payload P)))
    (hNarrow : ∀ v ∈ c.loaded, v.isWide = false) :
    (c.loaded.card ≤ 255 → ∀ i, c.serialize ≠ .error (.ldcIndexOverflow i)) ∧
      (255 < c.loaded.card → ∀ bytes, c.serialize ≠ .ok bytes) := by
  have hPool := verbatimPool_of_not_contains hDecoded
  have hNarrow' : ∀ v ∈ c.ldcConstants, v.isWide = false :=
    fun v hv => hNarrow v (hPlace.mem_loaded_iff.mpr hv)
  rw [hPlace.card_loaded]
  constructor
  · intro hFew
    refine serialize_ne_of_reaches hPool PoolBuilder.sound_empty hPlace fun b hRun v hv => ?_
    obtain ⟨i, hi, hRank⟩ := PoolBuilder.index_of_empty hNarrow' hRun hv
    have hLt := List.idxOf_lt_length_of_mem (List.mem_eraseDups.mpr hv)
    exact ⟨i, hi, by omega⟩
  · intro hMany bytes hSerialize
    -- The constant with 255 distinct ones before it has its slot behind the indices of one byte.
    have hv := List.mem_eraseDups.mp (List.getElem_mem hMany)
    have hRank := (nodup_eraseDups c.ldcConstants).idxOf_getElem 255 hMany
    obtain ⟨pool, hOk, hSerialize⟩ := Outcome.bind_eq_ok.mp hSerialize
    obtain ⟨result, hBody, -⟩ := Outcome.bind_eq_ok.mp hSerialize
    obtain rfl := Except.ok.inj (hOk.symm.trans hPool)
    refine encodeBody_ne_ok PoolBuilder.sound_empty hv (fun b hRun => ?_) result hBody
    obtain ⟨i, hi, hPlace⟩ := PoolBuilder.index_of_empty hNarrow' hRun hv
    exact ⟨i, hi, by omega⟩

def loadingBelow (n : Nat) : ClassModel :=
  ⟨0, 52, 0x21, "A", none, [], [], [⟨9, "m", "()V", [.code ⟨256, 0, (List.range n).map fun k =>
    ⟨UInt32.ofNat (2 * k), opLdc, .constant (.float (UInt32.ofNat k))⟩, [], []⟩]⟩], []⟩

theorem bodiesInPlace_loadingBelow (n : Nat) : (loadingBelow n).BodiesInPlace := by
  constructor
  · exact nofun
  · exact nofun
  · simp [loadingBelow, Attribute.Shallow]
  · simp [loadingBelow, Attribute.isBody]

theorem not_contains_loadingBelow (n : Nat) (name : String) (payload : Bytes) (P : Pool) :
    ¬ (loadingBelow n).Contains (.plain (.unknown name payload P)) := by
  intro hContains
  have hMem := mem_verbatim_iff.mpr ⟨payload, hContains⟩
  simp [verbatim, Attribute.verbatim, Attribute.verbatimHere, Attribute.verbatimInside,
    loadingBelow] at hMem

theorem loaded_loadingBelow (n : Nat) : (loadingBelow n).loaded =
    ((List.range n).map fun k => Constant.float (UInt32.ofNat k)).toFinset := by
  simp [loaded, bodies, Attribute.bodiesOfEach, Attribute.bodies, loadingBelow,
    List.filterMap_map, Function.comp_def, Instruction.loaded?]

theorem card_loadingBelow {n : Nat} (hn : n ≤ 65536) : (loadingBelow n).loaded.card = n := by
  rw [loaded_loadingBelow, List.toFinset_card_of_nodup, List.length_map, List.length_range]
  refine List.nodup_range.map_on fun j hj k hk hSame => ?_
  rw [List.mem_range] at hj hk
  have hWord := congrArg UInt32.toNat (Constant.float.inj hSame)
  rwa [UInt32.toNat_ofNat_of_lt' (by change j < 4294967296; omega),
    UInt32.toNat_ofNat_of_lt' (by change k < 4294967296; omega)] at hWord

theorem narrow_loadingBelow (n : Nat) : ∀ v ∈ (loadingBelow n).loaded, v.isWide = false := by
  rw [loaded_loadingBelow]
  intro v hv
  obtain ⟨k, -, rfl⟩ := List.mem_map.mp (List.mem_toFinset.mp hv)
  rfl

theorem serialize_loaded_atLimit :
    ((loadingBelow 255).BodiesInPlace ∧
      (∀ name payload P, ¬ (loadingBelow 255).Contains (.plain (.unknown name payload P))) ∧
      (∀ v ∈ (loadingBelow 255).loaded, v.isWide = false) ∧ (loadingBelow 255).loaded.card = 255 ∧
      ∀ i, (loadingBelow 255).serialize ≠ .error (.ldcIndexOverflow i)) ∧
    (loadingBelow 256).BodiesInPlace ∧
      (∀ name payload P, ¬ (loadingBelow 256).Contains (.plain (.unknown name payload P))) ∧
      (∀ v ∈ (loadingBelow 256).loaded, v.isWide = false) ∧ (loadingBelow 256).loaded.card = 256 ∧
      ∀ bytes, (loadingBelow 256).serialize ≠ .ok bytes := by
  have hLimit (n : Nat) := serialize_loaded (bodiesInPlace_loadingBelow n)
    (not_contains_loadingBelow n) (narrow_loadingBelow n)
  have hFew : (loadingBelow 255).loaded.card = 255 := card_loadingBelow (by decide)
  have hMany : (loadingBelow 256).loaded.card = 256 := card_loadingBelow (by decide)
  exact ⟨⟨bodiesInPlace_loadingBelow 255, not_contains_loadingBelow 255, narrow_loadingBelow 255,
    hFew, (hLimit 255).1 (by omega)⟩, bodiesInPlace_loadingBelow 256, not_contains_loadingBelow 256,
    narrow_loadingBelow 256, hMany, (hLimit 256).2 (by omega)⟩

end ClassModel

end Renaming
