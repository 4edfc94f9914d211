import Renaming.Proofs.ClassFile.Repaid.Attribute
import Renaming.Proofs.ClassFile.Reservation
import Renaming.Proofs.ClassFile.RoundTrip

/-!
# Whatever is read can be written

A class that was read from a file is written without an error, to a file that is no longer, if its
method bodies are where they belong. What follows the constant pool takes as many bytes as before.
The pool is the old one if it was laid out in advance, and otherwise stays within the budget that
the old one sets.
-/

namespace Renaming

open Decoder (Takes fixed_u2 fixed_u4)
open Encoder (Runs Supplies runs_list)

variable {P : Pool} {L : Constant → Prop} {I : PoolBuilder → Prop}

def Attribute.isBody : Attribute → Bool
  | code _ => true
  | record _ | plain _ => false

namespace ClassModel

/-- Method bodies are only found directly on methods, and no method has two. -/
structure BodiesInPlace (c : ClassModel) : Prop where
  attributes : ∀ a ∈ c.attributes, a.Bodiless
  fields : ∀ m ∈ c.fields, ∀ a ∈ m.attributes, a.Bodiless
  methods : ∀ m ∈ c.methods, ∀ a ∈ m.attributes, a.Shallow
  once : ∀ m ∈ c.methods, m.attributes.countP Attribute.isBody ≤ 1

end ClassModel

theorem Member.code_eq {m : Member} {body : Code Attribute}
    (hOnce : m.attributes.countP Attribute.isBody ≤ 1) (h : .code body ∈ m.attributes) :
    m.code = some body := by
  unfold Member.code
  generalize m.attributes = as at hOnce h
  induction as with
  | nil => cases h
  | cons a as ih =>
    cases a with
    | code first =>
      rw [List.countP_cons_of_pos rfl] at hOnce
      have hNone : as.countP Attribute.isBody = 0 := by omega
      rcases List.mem_cons.mp h with hFirst | hLater
      · cases hFirst
        rfl
      · exact absurd rfl (List.countP_eq_zero.mp hNone _ hLater)
    | record | plain =>
      rw [List.countP_cons_of_neg Bool.false_ne_true] at hOnce
      rcases List.mem_cons.mp h with hFirst | hLater
      · cases hFirst
      · exact ih hOnce hLater

section Resolved

variable {α β : Type} {d : Decoder α} {resolve : α → Except ReadError β} {item : β → Encoder Bytes}
  {Q : β → Prop}

theorem takes_resolved (table : String)
    (h : Takes d fun n raw => ∀ b, resolve raw = .ok b → Q b → Runs I (item b) (·.length = n)) :
    Takes (Decoder.list d) fun n raws => ∀ bs, raws.mapM resolve = .ok bs → (∀ b ∈ bs, Q b) →
      Runs I (Encoder.list table item bs) (·.length = n) := by
  apply (Decoder.takes_list h).imp
  rintro _ raws ⟨hLength, ns, hRaws, rfl⟩ bs hBs hAll
  rw [Outcome.mapM_eq_ok] at hBs
  apply runs_list (hBs.length_eq ▸ hLength)
  clear hLength
  induction hRaws generalizing bs with
  | nil =>
    cases hBs
    exact .nil
  | cons hRaw _ ih =>
    cases hBs with
    | cons hHead hTail =>
      obtain ⟨hFirst, hRest⟩ := List.forall_mem_cons.mp hAll
      exact .cons (hRaw _ hHead hFirst) (ih _ hTail hRest)

end Resolved

theorem Attribute.takes_attributes (hI : Supplies P L I) :
    Takes RawAttribute.decodeList fun n raws => ∀ as, raws.mapM (decode P) = .ok as →
      (∀ a ∈ as, a.Shallow ∧ a.LoadsFrom L) → Runs I (encodeList as) (·.length = n) := by
  apply (takes_decodeList (refits_decode hI)).imp
  intro _ raws h as hResolve hAll
  obtain ⟨hCount, m, rfl, hEach⟩ := h as (Outcome.mapM_eq_ok.mp hResolve) hAll
  refine (Encoder.runs_length2 hCount).bind fun count hCount => hEach.bind fun bs hBs => .pure ?_
  rw [List.length_append, hCount, hBs]

theorem RawMember.takes_decode (hI : Supplies P L I) :
    Takes decode fun n raw => ∀ m, raw.resolve P = .ok m →
      (∀ a ∈ m.attributes, a.Shallow ∧ a.LoadsFrom L) → Runs I m.encode (·.length = n) := by
  refine fixed_u2.bind fun access => fixed_u2.bind fun i => fixed_u2.bind fun j =>
    (Attribute.takes_attributes hI).bind fun n raws hRaws => .pure fun m hm hAll => ?_
  have hStands := resolve_eq_ok hm
  refine (hI.utf8 hStands.name).bind fun _ _ => (hI.utf8 hStands.descriptor).bind fun _ _ =>
    (hRaws _ hStands.attributes hAll).bind fun bs hBs => .pure ?_
  simp [hBs]

namespace ClassModel

def encodeParts (c : ClassModel) : Encoder Bytes :=
  return Bytes.u2 c.access ++ Bytes.u2 (← PoolBuilder.className c.name) ++
    Bytes.u2 (← PoolBuilder.optional PoolBuilder.className c.superName) ++
    (← Encoder.classes "interfaces" c.interfaces) ++
    (← Encoder.list "fields" Member.encode c.fields) ++
    (← Encoder.list "methods" Member.encode c.methods) ++
    (← Attribute.encodeList c.attributes)

theorem encodeBody_eq (c : ClassModel) :
    c.encodeBody = PoolBuilder.reserveAll c.ldcConstants >>= fun _ => c.encodeParts := rfl

end ClassModel

theorem RawClass.takes_decodeBody (hI : Supplies P L I) (minor major : UInt16) :
    Takes (decodeBody minor major P) fun n raw => ∀ c, raw.resolve = .ok c → c.BodiesInPlace →
      (∀ m ∈ c.methods, ∀ a ∈ m.attributes, a.LoadsFrom L) →
        Runs I c.encodeParts (·.length = n) := by
  have hMember := RawMember.takes_decode hI
  have hInterface : Takes Decoder.u2 fun n i => ∀ name, P.className i = .ok name → True →
      Runs I (Encoder.index (PoolBuilder.className name)) (·.length = n) := by
    apply fixed_u2.imp
    rintro _ i rfl name hName -
    exact Encoder.runs_index (hI.className hName)
  refine fixed_u2.bind fun access => fixed_u2.bind fun i => fixed_u2.bind fun j =>
    (takes_resolved "interfaces" hInterface).bind fun n₁ is hInterfaces =>
    (takes_resolved "fields" hMember).bind fun n₂ fields hFields =>
    (takes_resolved "methods" hMember).bind fun n₃ methods hMethods =>
    (Attribute.takes_attributes hI).bind fun n₄ raws hAttributes =>
    .pure fun c hc hPlace hLoads => ?_
  have hStands := resolve_eq_ok hc
  refine (hI.className hStands.name).bind fun _ _ => (hI.optionalClass hStands.superName).bind
    fun _ _ => (hInterfaces _ hStands.interfaces fun _ _ => trivial).bind fun bs₁ h₁ =>
    (hFields _ hStands.fields fun m hm a ha => ?_).bind fun bs₂ h₂ =>
    (hMethods _ hStands.methods fun m hm a ha => ?_).bind fun bs₃ h₃ =>
    (hAttributes _ hStands.attributes fun a ha => ?_).bind fun bs₄ h₄ => .pure ?_
  · have hBodiless := hPlace.fields m hm a ha
    exact ⟨hBodiless.shallow, hBodiless.loadsFrom⟩
  · exact ⟨hPlace.methods m hm a ha, hLoads m hm a ha⟩
  · have hBodiless := hPlace.attributes a ha
    exact ⟨hBodiless.shallow, hBodiless.loadsFrom⟩
  · simp [h₁, h₂, h₃, h₄]

namespace ClassModel

theorem namesLow_of_resolve {raw : RawClass} {c : ClassModel} (h : raw.resolve = .ok c) :
    ∀ value ∈ c.ldcConstants, raw.pool.NamesLow value := by
  intro value hValue
  obtain ⟨m, hm, body, hCode, i, hi, hLoads⟩ := mem_ldcConstants.mp hValue
  obtain ⟨rawMember, -, hMember⟩ :=
    Outcome.exists_of_mem (Outcome.mapM_eq_ok.mp (RawClass.resolve_eq_ok h).methods) m hm
  obtain ⟨rawAttribute, -, hDecode⟩ := Outcome.exists_of_mem
    (Outcome.mapM_eq_ok.mp (RawMember.resolve_eq_ok hMember).attributes) _ (code_mem hCode)
  exact Attribute.namesLow_of_decode hDecode body rfl i hi value hLoads

theorem BodiesInPlace.loadsFrom {c : ClassModel} (h : c.BodiesInPlace) :
    ∀ m ∈ c.methods, ∀ a ∈ m.attributes, a.LoadsFrom (· ∈ c.ldcConstants) := by
  rintro m hm _ ha body rfl i hi value hLoads
  exact mem_ldcConstants.mpr ⟨m, hm, body, Member.code_eq (h.once m hm) ha, i, hi, hLoads⟩

theorem exists_verbatimPool {c : ClassModel} (h : ∀ x ∈ c.verbatim, x.2 = P) :
    ∃ pool, c.verbatimPool = .ok pool := by
  unfold verbatimPool
  split
  · exact ⟨none, rfl⟩
  · rename_i name first rest hVerbatim
    rw [hVerbatim] at h
    obtain ⟨rfl, hRest⟩ := List.forall_mem_cons.mp h
    have hAgree : rest.find? (fun other => other.2 ≠ first) = none := by
      simpa [List.find?_eq_none] using fun a p hx => hRest (a, p) hx
    rw [hAgree]
    exact ⟨some first, rfl⟩

/-- If everything is written out with the same size after the slots are set aside, and the finished
pool is no larger, then so is the file. -/
theorem exists_serialize {c : ClassModel} {pool : Option Pool} {b : PoolBuilder} {k : Nat}
    (hPool : c.verbatimPool = .ok pool)
    (hReserve : PoolBuilder.reserveAll c.ldcConstants
      (pool.elim PoolBuilder.empty PoolBuilder.ofPool) = .ok ((), b))
    (hb : I b) (hParts : Runs I c.encodeParts (·.length = k))
    (hEncode : ∀ body b', c.encodeBody (pool.elim PoolBuilder.empty PoolBuilder.ofPool) =
      .ok (body, b') → I b' → ∃ bytes, b'.encode = .ok bytes ∧ bytes.length ≤ P.encode.length) :
    ∃ out, c.serialize = .ok out ∧ out.length ≤ 8 + P.encode.length + k := by
  obtain ⟨body, b', hRun, hb', hBody⟩ := hParts b hb
  have hAll : c.encodeBody (pool.elim PoolBuilder.empty PoolBuilder.ofPool) = .ok (body, b') := by
    rw [encodeBody_eq, Stateful.bind_eq_ok]
    exact ⟨(), b, hReserve, hRun⟩
  obtain ⟨bytes, hBytes, hLength⟩ := hEncode body b' hAll hb'
  refine ⟨_, Outcome.bind_eq_ok.mpr ⟨pool, hPool, Outcome.bind_eq_ok.mpr ⟨(body, b'), hAll,
    Outcome.bind_eq_ok.mpr ⟨bytes, hBytes, rfl⟩⟩⟩, ?_⟩
  simp [hBody]
  omega

theorem holds_of_encodeBody {K : Constant → Prop} (hK : Constant.Closed K) {c : ClassModel}
    (hc : c.WellFormed K) (hVerbatim : c.verbatim = []) {b b' : PoolBuilder} {body : Bytes}
    (hb : b.Sound) (h : c.encodeBody b = .ok (body, b')) :
    ∀ value ∈ c.ldcConstants, b'.pool.Holds value := by
  obtain ⟨-, -, hRead⟩ := emits_encodeBody hK hc b hb body b' h
  obtain ⟨raw, hReads, -, hResolve⟩ := hRead b'.pool b'.fitsIn_pool
  obtain ⟨-, -, hPool⟩ := RawClass.decodeBody_eq_ok (hReads [])
  -- What is written is read back as the same class, whose `ldc` instructions find their constants.
  rw [withPool_eq_self_iff.mpr (by simp [hVerbatim])] at hResolve
  intro value hValue
  obtain ⟨i, hi, -⟩ := namesLow_of_resolve hResolve value hValue
  exact hPool ▸ hi.holds

section Start

variable {c : ClassModel} {k : Nat} (hP : P.Complete)
  (hLow : ∀ value ∈ c.ldcConstants, P.NamesLow value)
  (hParts : ∀ I, Supplies P (· ∈ c.ldcConstants) I → Runs I c.encodeParts (·.length = k))

include hP hLow hParts

/-- If nothing is kept as bytes, the writer starts from an empty pool. -/
theorem exists_serialize_of_empty (hPool : c.verbatimPool = .ok none)
    (hc : c.WellFormed P.Holds) (hVerbatim : c.verbatim = []) :
    ∃ out, c.serialize = .ok out ∧ out.length ≤ 8 + P.encode.length + k := by
  obtain ⟨b, hReserve, hb⟩ := PoolBuilder.exists_stocked hP hLow
  have hRuns := hParts _ (PoolBuilder.supplies_stocked hP)
  refine exists_serialize hPool hReserve hb hRuns fun body b' hRun hb' => hb'.encode ?_
  exact holds_of_encodeBody P.closed_holds hc hVerbatim PoolBuilder.sound_empty hRun

/-- Otherwise it starts from the pool that was read, and adds nothing to it. -/
theorem exists_serialize_of_laid (hPool : c.verbatimPool = .ok (some P)) :
    ∃ out, c.serialize = .ok out ∧ out.length ≤ 8 + P.encode.length + k := by
  have hKnows : ∀ value ∈ c.ldcConstants, (PoolBuilder.ofPool P).Knows value := by
    intro value hValue
    obtain ⟨i, hi, -⟩ := hLow value hValue
    obtain ⟨j, hj, -⟩ := PoolBuilder.covers_ofPool value hi.holds
    exact ⟨j, hj⟩
  have hRuns := hParts _ (PoolBuilder.supplies_ofPool hP hLow)
  apply exists_serialize (I := (· = PoolBuilder.ofPool P)) hPool
    (PoolBuilder.reserveAll_of_knows hKnows) rfl hRuns
  rintro body _ - rfl
  exact ⟨_, PoolBuilder.encode_ofPool, Nat.le_refl _⟩

end Start

/-- Whatever is read can be written, in no more bytes. -/
theorem exists_serialize_of_parse {bytes : Bytes} {c : ClassModel} (h : parse bytes = .ok c)
    (hPlace : c.BodiesInPlace) :
    ∃ out, c.serialize = .ok out ∧ out.length ≤ bytes.length := by
  obtain ⟨raw, hRaw, hResolve⟩ := parse_eq_ok h
  obtain ⟨hVersion, s₁, s₂, hFile, hPool, hBody⟩ := RawClass.exists_parts hRaw
  have hComplete := Pool.decode_eq_ok hPool
  obtain ⟨_, hSplit, rfl⟩ := Pool.takes_decode _ _ _ hPool
  obtain ⟨hKnown, hSelf⟩ := RawClass.known_of_resolve hVersion hResolve
  have hSame := withPool_eq_self_iff.mp hSelf
  have hLow := namesLow_of_resolve hResolve
  have hParts : ∀ I, Supplies raw.pool (· ∈ c.ldcConstants) I →
      Runs I c.encodeParts (·.length = s₂.length) := by
    intro I hI
    obtain ⟨n, hLength, hRuns⟩ := RawClass.takes_decodeBody hI _ _ _ _ _ hBody
    obtain rfl : s₂.length = n := hLength
    exact hRuns c hResolve hPlace hPlace.loadsFrom
  rw [hFile, hSplit, ← Nat.add_assoc]
  -- Everything that is kept as bytes has the pool of the file, so that the writer can start.
  obtain ⟨pool, hStart⟩ := exists_verbatimPool hSame
  obtain ⟨rfl, hNone⟩ | ⟨P, rfl, hSome, hAll⟩ := verbatimPool_eq_ok hStart
  · exact exists_serialize_of_empty hComplete hLow hParts hStart hKnown hNone
  · obtain ⟨x, hx⟩ := List.exists_mem_of_ne_nil _ hSome
    obtain rfl : P = raw.pool := (hAll x hx).symm.trans (hSame x hx)
    exact exists_serialize_of_laid hComplete hLow hParts hStart

theorem bodiesInPlace_loadingClass : loadingClass.BodiesInPlace := by
  constructor
  · exact nofun
  · exact nofun
  · simp [loadingClass, loadingMethod, Attribute.Shallow]
  · simp [loadingClass, loadingMethod, Attribute.isBody]

theorem exists_serialize_of_parse_loadingFile :
    parse loadingFile = .ok loadingClass ∧ loadingClass.BodiesInPlace ∧
      ∃ out, loadingClass.serialize = .ok out ∧ out.length ≤ loadingFile.length :=
  ⟨parse_loadingFile, bodiesInPlace_loadingClass,
    exists_serialize_of_parse parse_loadingFile bodiesInPlace_loadingClass⟩

end ClassModel

end Renaming
