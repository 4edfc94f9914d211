import Renaming.Proofs.Binary.Takes
import Renaming.Proofs.ClassFile.Listing
import Renaming.Proofs.ClassFile.Verbatim

/-!
# Class files that are written can be read

What a class file holds is read back from the file that is written for it, up to the pool of the
attributes that are kept as bytes, which is now that of the new file. If the class was itself read
from a file, the new pool is the old one wherever this matters, so that a class is a fixed point of
writing and reading.
-/

namespace Renaming

open Stateful Decoder

variable {P : Pool} {K : Constant → Prop} {s t : Bytes}

namespace Member

structure WellFormed (K : Constant → Prop) (m : Member) : Prop where
  name : K (.utf8 m.name)
  descriptor : K (.utf8 m.descriptor)
  attributes : ∀ a ∈ m.attributes, a.WellFormed K

def withPool (P : Pool) (m : Member) : Member :=
  { m with attributes := Attribute.withPoolEach P m.attributes }

theorem withPool_eq_self_iff {m : Member} :
    m.withPool P = m ↔ Attribute.Uniform P m.attributes := by
  rw [← Attribute.withPoolEach_eq_self_iff]
  constructor
  · intro h
    exact congrArg attributes h
  · intro h
    rw [withPool, h]

end Member

theorem known_of_resolve {raw : List RawAttribute} {as : List Attribute}
    (h : raw.mapM (Attribute.decode P) = .ok as) : ∀ a ∈ as, Attribute.Known P a :=
  Attribute.known_of_mapM (fun _ _ => Attribute.known_of_decode) (Outcome.mapM_eq_ok.mp h)

/-- `raw` stands for the member `m` in a file with the pool `P`. -/
structure RawMember.StandsFor (P : Pool) (raw : RawMember) (m : Member) : Prop where
  access : m.access = raw.access
  name : P.utf8 raw.name = .ok m.name
  descriptor : P.utf8 raw.descriptor = .ok m.descriptor
  attributes : raw.attributes.mapM (Attribute.decode P) = .ok m.attributes

theorem RawMember.resolve_eq_ok {raw : RawMember} {m : Member} (h : raw.resolve P = .ok m) :
    raw.StandsFor P m := by
  obtain ⟨name, hName, h⟩ := Outcome.bind_eq_ok.mp h
  obtain ⟨descriptor, hDescriptor, h⟩ := Outcome.bind_eq_ok.mp h
  obtain ⟨attributes, hAttributes, h⟩ := Outcome.bind_eq_ok.mp h
  cases h
  exact ⟨rfl, hName, hDescriptor, hAttributes⟩

theorem Member.known_of_resolve {raw : RawMember} {m : Member} (h : raw.resolve P = .ok m) :
    m.WellFormed P.Holds ∧ m.withPool P = m := by
  have hStands := RawMember.resolve_eq_ok h
  have hKnown := Renaming.known_of_resolve hStands.attributes
  refine ⟨⟨(Pool.utf8_eq_ok.mp hStands.name).holds, (Pool.utf8_eq_ok.mp hStands.descriptor).holds,
    fun a ha => (hKnown a ha).1⟩, ?_⟩
  rw [withPool, Attribute.withPoolEach_eq_self fun a ha => (hKnown a ha).2]

theorem emits_encodeList (hK : Constant.Closed K) {as : List Attribute}
    (h : ∀ a ∈ as, a.WellFormed K) :
    Encoder.Emits K (Attribute.encodeList as) fun P bs =>
      ∃ raws, Reads RawAttribute.decodeList bs raws ∧
        raws.mapM (Attribute.decode P) = .ok (Attribute.withPoolEach P as) := by
  refine Encoder.emits_length2.bind fun count => (Attribute.emits_encodeEach fun a ha =>
    Attribute.emits_encode hK (h a ha)).bind fun bs => .pure fun P hBs hCount => ?_
  obtain ⟨pieces, hPieces, rfl⟩ := hBs
  obtain ⟨hCount, rfl⟩ := hCount
  obtain ⟨raws, hRaws, hDecodes⟩ := Attribute.reads_table hPieces hCount
  exact ⟨raws, hRaws, Outcome.mapM_eq_ok.mpr hDecodes⟩

namespace Member

def Stored (P : Pool) (bs : Bytes) (m : Member) : Prop :=
  ∃ raw, Reads RawMember.decode bs raw ∧ raw.resolve P = .ok (m.withPool P)

theorem emits_encode (hK : Constant.Closed K) {m : Member} (hm : m.WellFormed K) :
    Encoder.Emits K m.encode fun P bs => Stored P bs m := by
  refine (Encoder.emits_utf8 hK hm.name).bind fun i => (Encoder.emits_utf8 hK hm.descriptor).bind
    fun j => (emits_encodeList hK hm.attributes).bind fun bs => .pure fun P hBs hj hi => ?_
  obtain ⟨raws, hRaws, hResolve⟩ := hBs
  refine ⟨⟨m.access, i, j, raws⟩, ?_, ?_⟩
  · simp only [List.append_assoc]
    refine (reads_u2 m.access).bind ((reads_u2 i).bind ((reads_u2 j).bind ?_))
    exact hRaws.map fun v => (⟨m.access, i, j, v⟩ : RawMember)
  · rw [RawMember.resolve, Pool.utf8_eq_ok.mpr hi, Outcome.ok_bind, Pool.utf8_eq_ok.mpr hj,
      Outcome.ok_bind, hResolve]
    rfl

end Member

namespace ClassModel

structure WellFormed (K : Constant → Prop) (c : ClassModel) : Prop where
  version : supportedVersion c.major c.minor = true
  name : K (.classRef c.name)
  superName : ∀ n ∈ c.superName, K (.classRef n)
  interfaces : ∀ n ∈ c.interfaces, K (.classRef n)
  fields : ∀ m ∈ c.fields, m.WellFormed K
  methods : ∀ m ∈ c.methods, m.WellFormed K
  attributes : ∀ a ∈ c.attributes, a.WellFormed K

/-- The same class, with `P` as the pool of everything that is kept as bytes. -/
def withPool (P : Pool) (c : ClassModel) : ClassModel :=
  { c with
    fields := c.fields.map (Member.withPool P)
    methods := c.methods.map (Member.withPool P)
    attributes := Attribute.withPoolEach P c.attributes }

theorem map_eq_self_iff {α : Type} {f : α → α} {as : List α} :
    as.map f = as ↔ ∀ a ∈ as, f a = a := by
  induction as with
  | nil => simp
  | cons a as ih => simp [ih]

theorem mem_verbatim {c : ClassModel} {x : String × Pool} :
    x ∈ c.verbatim ↔ x ∈ Attribute.verbatim c.attributes ∨
      (∃ m ∈ c.fields, x ∈ Attribute.verbatim m.attributes) ∨
        ∃ m ∈ c.methods, x ∈ Attribute.verbatim m.attributes := by
  simp only [verbatim, List.mem_flatMap, List.mem_reverse, List.mem_cons, List.mem_map,
    List.mem_append, exists_eq_or_imp]
  constructor
  · rintro (h | ⟨_, ⟨m, hm | hm, rfl⟩, h⟩)
    · exact Or.inl h
    · exact Or.inr (Or.inl ⟨m, hm, h⟩)
    · exact Or.inr (Or.inr ⟨m, hm, h⟩)
  · rintro (h | ⟨m, hm, h⟩ | ⟨m, hm, h⟩)
    · exact Or.inl h
    · exact Or.inr ⟨_, ⟨m, Or.inl hm, rfl⟩, h⟩
    · exact Or.inr ⟨_, ⟨m, Or.inr hm, rfl⟩, h⟩

theorem withPool_eq_self_iff {c : ClassModel} :
    c.withPool P = c ↔ ∀ x ∈ c.verbatim, x.2 = P := by
  have hParts : c.withPool P = c ↔ c.fields.map (Member.withPool P) = c.fields ∧
      c.methods.map (Member.withPool P) = c.methods ∧
      Attribute.withPoolEach P c.attributes = c.attributes := by
    constructor
    · intro h
      exact ⟨congrArg fields h, congrArg methods h, congrArg attributes h⟩
    · rintro ⟨hFields, hMethods, hAttributes⟩
      rw [withPool, hFields, hMethods, hAttributes]
  rw [hParts, map_eq_self_iff, map_eq_self_iff, Attribute.withPoolEach_eq_self_iff]
  simp only [Member.withPool_eq_self_iff, Attribute.Uniform, mem_verbatim]
  constructor
  · rintro ⟨hFields, hMethods, hAttributes⟩ x (hx | ⟨m, hm, hx⟩ | ⟨m, hm, hx⟩)
    · exact hAttributes x hx
    · exact hFields m hm x hx
    · exact hMethods m hm x hx
  · intro h
    exact ⟨fun m hm x hx => h x (Or.inr (Or.inl ⟨m, hm, hx⟩)),
      fun m hm x hx => h x (Or.inr (Or.inr ⟨m, hm, hx⟩)), fun x hx => h x (Or.inl hx)⟩

end ClassModel

namespace RawClass

def decodeBody (minor major : UInt16) (pool : Pool) : Decoder RawClass := do
  let access ← Decoder.u2
  let name ← Decoder.u2
  let superName ← Decoder.u2
  let interfaces ← Decoder.list Decoder.u2
  let fields ← Decoder.list RawMember.decode
  let methods ← Decoder.list RawMember.decode
  let attributes ← RawAttribute.decodeList
  return ⟨minor, major, pool, access, name, superName, interfaces, fields, methods, attributes⟩

theorem decodeBody_eq_ok {minor major : UInt16} {c : RawClass}
    (h : decodeBody minor major P s = .ok (c, t)) :
    c.minor = minor ∧ c.major = major ∧ c.pool = P := by
  obtain ⟨access, _, -, h⟩ := bind_eq_ok.mp h
  obtain ⟨name, _, -, h⟩ := bind_eq_ok.mp h
  obtain ⟨superName, _, -, h⟩ := bind_eq_ok.mp h
  obtain ⟨interfaces, _, -, h⟩ := bind_eq_ok.mp h
  obtain ⟨fields, _, -, h⟩ := bind_eq_ok.mp h
  obtain ⟨methods, _, -, h⟩ := bind_eq_ok.mp h
  obtain ⟨attributes, _, -, h⟩ := bind_eq_ok.mp h
  obtain ⟨rfl, -⟩ := pure_eq_ok.mp h
  exact ⟨rfl, rfl, rfl⟩

theorem exists_parts {c : RawClass} (h : decode s = .ok (c, t)) :
    supportedVersion c.major c.minor = true ∧ ∃ s₁ s₂, s.length = 8 + s₁.length ∧
      Pool.decode s₁ = .ok (c.pool, s₂) ∧
        decodeBody c.minor c.major c.pool s₂ = .ok (c, t) := by
  obtain ⟨magic, _, hMagic, h⟩ := bind_eq_ok.mp h
  split at h
  · rw [throw_bind] at h
    exact absurd h throw_ne_ok
  obtain ⟨minor, _, hMinor, h⟩ := bind_eq_ok.mp h
  obtain ⟨major, _, hMajor, h⟩ := bind_eq_ok.mp h
  split at h
  · rw [throw_bind] at h
    exact absurd h throw_ne_ok
  rename_i hVersion
  obtain ⟨pool, _, hPool, h⟩ := bind_eq_ok.mp h
  obtain ⟨_, h₁, rfl⟩ := fixed_u4 _ _ _ hMagic
  obtain ⟨_, h₂, rfl⟩ := fixed_u2 _ _ _ hMinor
  obtain ⟨_, h₃, rfl⟩ := fixed_u2 _ _ _ hMajor
  obtain ⟨rfl, rfl, rfl⟩ := decodeBody_eq_ok h
  exact ⟨by simpa using hVersion, _, _, by omega, hPool, h⟩

theorem decode_eq_ok {c : RawClass} (h : decode s = .ok (c, t)) :
    supportedVersion c.major c.minor = true ∧ c.pool.Complete := by
  obtain ⟨hVersion, _, _, -, hPool, -⟩ := exists_parts h
  exact ⟨hVersion, Pool.decode_eq_ok hPool⟩

theorem reads_decode {minor major : UInt16} {bs : Bytes} {c : RawClass}
    (hVersion : supportedVersion major minor = true) (hPool : P.Complete)
    (h : Reads (decodeBody minor major P) bs c) :
    Reads decode (Bytes.u4 classMagic ++ (Bytes.u2 minor ++ (Bytes.u2 major ++
      (P.encode ++ bs)))) c := by
  refine (reads_u4 classMagic).bind ?_
  rw [if_neg (Decidable.not_not.mpr rfl)]
  refine (reads_u2 minor).bind ((reads_u2 major).bind ?_)
  rw [hVersion]
  exact (Pool.reads_decode hPool).bind h

/-- `raw` stands for the class `c`, with the indices into its pool followed. -/
structure StandsFor (raw : RawClass) (c : ClassModel) : Prop where
  minor : c.minor = raw.minor
  major : c.major = raw.major
  access : c.access = raw.access
  name : raw.pool.className raw.name = .ok c.name
  superName : Pool.optional raw.pool.className raw.superName = .ok c.superName
  interfaces : raw.interfaces.mapM raw.pool.className = .ok c.interfaces
  fields : raw.fields.mapM (RawMember.resolve raw.pool) = .ok c.fields
  methods : raw.methods.mapM (RawMember.resolve raw.pool) = .ok c.methods
  attributes : raw.attributes.mapM (Attribute.decode raw.pool) = .ok c.attributes

theorem resolve_eq_ok {raw : RawClass} {c : ClassModel} (h : raw.resolve = .ok c) :
    raw.StandsFor c := by
  obtain ⟨interfaces, hInterfaces, h⟩ := Outcome.bind_eq_ok.mp h
  obtain ⟨fields, hFields, h⟩ := Outcome.bind_eq_ok.mp h
  obtain ⟨methods, hMethods, h⟩ := Outcome.bind_eq_ok.mp h
  obtain ⟨name, hName, h⟩ := Outcome.bind_eq_ok.mp h
  obtain ⟨superName, hSuper, h⟩ := Outcome.bind_eq_ok.mp h
  obtain ⟨attributes, hAttributes, h⟩ := Outcome.bind_eq_ok.mp h
  cases h
  exact ⟨rfl, rfl, rfl, hName, hSuper, hInterfaces, hFields, hMethods, hAttributes⟩

theorem known_of_members {raw : List RawMember} {ms : List Member}
    (h : raw.mapM (RawMember.resolve P) = .ok ms) :
    ∀ m ∈ ms, m.WellFormed P.Holds ∧ m.withPool P = m := by
  intro m hm
  obtain ⟨rawMember, -, hMember⟩ := Outcome.exists_of_mem (Outcome.mapM_eq_ok.mp h) m hm
  exact Member.known_of_resolve hMember

theorem known_of_resolve {c : RawClass} {m : ClassModel}
    (hVersion : supportedVersion c.major c.minor = true) (h : c.resolve = .ok m) :
    m.WellFormed c.pool.Holds ∧ m.withPool c.pool = m := by
  have hStands := resolve_eq_ok h
  have hKnown := Renaming.known_of_resolve hStands.attributes
  have hField := known_of_members hStands.fields
  have hMethod := known_of_members hStands.methods
  have hInterface : ∀ n ∈ m.interfaces, c.pool.Holds (.classRef n) := by
    intro n hn
    obtain ⟨i, -, hi⟩ := Outcome.exists_of_mem (Outcome.mapM_eq_ok.mp hStands.interfaces) n hn
    exact (Pool.className_eq_ok.mp hi).holds
  rw [← hStands.major, ← hStands.minor] at hVersion
  refine ⟨⟨hVersion, (Pool.className_eq_ok.mp hStands.name).holds,
    holds_of_optionalClass hStands.superName, hInterface, fun m hm => (hField m hm).1,
    fun m hm => (hMethod m hm).1, fun a ha => (hKnown a ha).1⟩, ?_⟩
  have hFieldPools := ClassModel.map_eq_self_iff.mpr fun m hm => (hField m hm).2
  have hMethodPools := ClassModel.map_eq_self_iff.mpr fun m hm => (hMethod m hm).2
  rw [ClassModel.withPool, hFieldPools, hMethodPools,
    Attribute.withPoolEach_eq_self fun a ha => (hKnown a ha).2]

end RawClass

namespace ClassModel

theorem parse_eq_ok {bytes : Bytes} {m : ClassModel} (h : parse bytes = .ok m) :
    ∃ raw, RawClass.decode bytes = .ok (raw, []) ∧ raw.resolve = .ok m := by
  unfold parse at h
  split at h
  · cases h
  · rename_i raw hRaw
    exact ⟨raw, hRaw, h⟩
  · cases h

theorem known_of_parse {bytes : Bytes} {m : ClassModel} (h : parse bytes = .ok m) :
    ∃ P : Pool, P.Complete ∧ m.WellFormed P.Holds ∧ m.withPool P = m := by
  obtain ⟨raw, hRaw, hResolve⟩ := parse_eq_ok h
  obtain ⟨hVersion, hPool⟩ := RawClass.decode_eq_ok hRaw
  obtain ⟨hWellFormed, hSelf⟩ := RawClass.known_of_resolve hVersion hResolve
  exact ⟨raw.pool, hPool, hWellFormed, hSelf⟩

end ClassModel

namespace ClassModel

theorem code_mem {m : Member} {body : Code Attribute} (h : m.code = some body) :
    Attribute.code body ∈ m.attributes := by
  obtain ⟨a, ha, h⟩ := List.exists_of_findSome?_eq_some h
  cases a with
  | code body' => cases h; exact ha
  | record | plain => cases h

theorem mem_ldcConstants {c : ClassModel} {value : Constant} :
    value ∈ c.ldcConstants ↔
      ∃ m ∈ c.methods, ∃ body, m.code = some body ∧ ∃ i ∈ body.instructions, i.Loads value := by
  simp only [ldcConstants, List.mem_flatMap, List.mem_filterMap]
  constructor
  · rintro ⟨m, hm, i, hi, hValue⟩
    cases hCode : m.code with
    | none =>
      rw [hCode] at hi
      cases hi
    | some body =>
      rw [hCode] at hi
      refine ⟨m, hm, body, hCode, i, hi, ?_⟩
      split at hValue
      · rename_i hOperand
        obtain ⟨hLdc, rfl⟩ : i.opcode = opLdc ∧ _ = value := by simpa using hValue
        exact ⟨hLdc, hOperand⟩
      · cases hValue
  · rintro ⟨m, hm, body, hCode, i, hi, hLdc, hOperand⟩
    refine ⟨m, hm, i, by rwa [hCode], ?_⟩
    rw [hOperand]
    exact if_pos hLdc

theorem of_ldcConstants {c : ClassModel} (hc : c.WellFormed K) :
    ∀ value ∈ c.ldcConstants, K value := by
  intro value hValue
  obtain ⟨m, hm, body, hCode, i, hi, hLoads⟩ := mem_ldcConstants.mp hValue
  cases (hc.methods m hm).attributes _ (code_mem hCode) with
  | code _ hInstructions _ _ => exact (hInstructions i hi).loads hLoads

theorem emits_interfaces (hK : Constant.Closed K) {table : String} {names : List String}
    (h : ∀ n ∈ names, K (.classRef n)) :
    Encoder.Emits K (Encoder.classes table names) fun P bs =>
      ∃ is, Reads (Decoder.list Decoder.u2) bs is ∧ is.mapM P.className = .ok names := by
  have hAll : Encoder.Emits K (Encoder.classes table names) fun P bs => ∃ is,
      Reads (Decoder.list Decoder.u2) bs is ∧ is.mapM P.className = .ok (names.map id) := by
    refine Encoder.emits_resolved fun n hn => ?_
    rw [Function.comp_apply, Encoder.index, map_eq_pure_bind]
    exact (Encoder.emits_className hK (h n hn)).bind fun i => .pure fun P hi =>
      ⟨i, reads_u2 i, Pool.className_eq_ok.mpr hi⟩
  simpa only [List.map_id] using hAll

theorem emits_encodeBody (hK : Constant.Closed K) {c : ClassModel} (hc : c.WellFormed K) :
    Encoder.Emits K c.encodeBody fun P bs => ∃ raw,
      Reads (RawClass.decodeBody c.minor c.major P) bs raw ∧ raw.major = c.major ∧
        raw.resolve = .ok (c.withPool P) := by
  unfold encodeBody
  refine (Encoder.emits_reserveAll (of_ldcConstants hc)).bind fun _ =>
    (Encoder.emits_className hK hc.name).bind fun i =>
    (emits_optionalClass hK hc.superName).bind fun j =>
    (emits_interfaces hK hc.interfaces).bind fun interfaces =>
    (Encoder.emits_resolved fun m hm => Member.emits_encode hK (hc.fields m hm)).bind
      fun fields =>
    (Encoder.emits_resolved fun m hm => Member.emits_encode hK (hc.methods m hm)).bind
      fun methods => (emits_encodeList hK hc.attributes).bind fun attributes =>
    .pure fun P hAttributes hMethods hFields hInterfaces hj hi _ => ?_
  obtain ⟨is, hInterfaces, hIs⟩ := hInterfaces
  obtain ⟨rawFields, hFields, hRawFields⟩ := hFields
  obtain ⟨rawMethods, hMethods, hRawMethods⟩ := hMethods
  obtain ⟨rawAttributes, hAttributes, hRawAttributes⟩ := hAttributes
  refine ⟨⟨c.minor, c.major, P, c.access, i, j, is, rawFields, rawMethods, rawAttributes⟩,
    ?_, rfl, ?_⟩
  · simp only [List.append_assoc]
    refine (reads_u2 c.access).bind ((reads_u2 i).bind ((reads_u2 j).bind (hInterfaces.bind
      (hFields.bind (hMethods.bind ?_)))))
    exact hAttributes.map fun v =>
      (⟨c.minor, c.major, P, c.access, i, j, is, rawFields, rawMethods, v⟩ : RawClass)
  · rw [RawClass.resolve, hIs, Outcome.ok_bind, hRawFields, Outcome.ok_bind, hRawMethods,
      Outcome.ok_bind, Pool.className_eq_ok.mpr hi, Outcome.ok_bind, hj, Outcome.ok_bind,
      hRawAttributes]
    rfl

theorem verbatimPool_eq_ok {c : ClassModel} {pool : Option Pool} (h : c.verbatimPool = .ok pool) :
    (pool = none ∧ c.verbatim = []) ∨
      ∃ P, pool = some P ∧ c.verbatim ≠ [] ∧ ∀ x ∈ c.verbatim, x.2 = P := by
  unfold verbatimPool at h
  split at h
  · rename_i hNone
    cases h
    exact Or.inl ⟨rfl, hNone⟩
  · rename_i name P rest hSome
    split at h
    · cases h
    · rename_i hAgree
      cases h
      refine Or.inr ⟨P, rfl, by simp [hSome], ?_⟩
      rw [hSome]
      refine List.forall_mem_cons.mpr ⟨rfl, fun x hx => ?_⟩
      simpa using List.find?_eq_none.mp hAgree x hx

theorem sound_start {c : ClassModel} {pool : Option Pool} (hPools : ∀ x ∈ c.verbatim, x.2.Complete)
    (h : c.verbatimPool = .ok pool) :
    (pool.elim PoolBuilder.empty PoolBuilder.ofPool).Sound := by
  rcases verbatimPool_eq_ok h with ⟨rfl, -⟩ | ⟨P, rfl, hSome, hAll⟩
  · exact PoolBuilder.sound_empty
  · obtain ⟨x, hx⟩ := List.exists_mem_of_ne_nil _ hSome
    rw [← hAll x hx]
    exact PoolBuilder.sound_ofPool (hPools x hx)

/-- A written file holds the class it was written for, with its pool in place of those of the
attributes kept as bytes. It starts with their pool, and is no longer if that pool already has
everything. -/
theorem parse_of_serialize (hK : Constant.Closed K) {c : ClassModel} {bytes : Bytes}
    (hc : c.WellFormed K) (hPools : ∀ x ∈ c.verbatim, x.2.Complete)
    (h : c.serialize = .ok bytes) :
    ∃ P : Pool, P.Complete ∧ parse bytes = .ok (c.withPool P) ∧ ∀ x ∈ c.verbatim,
      (∀ (k : Nat) e, x.2.entries[k]? = some e → P.entries[k]? = some e) ∧
        ((PoolBuilder.ofPool x.2).Covers K → P = x.2) := by
  obtain ⟨start, hStart, h⟩ := Outcome.bind_eq_ok.mp h
  obtain ⟨⟨body, b⟩, hBody, h⟩ := Outcome.bind_eq_ok.mp h
  obtain ⟨poolBytes, hEncode, h⟩ := Outcome.bind_eq_ok.mp h
  cases h
  obtain ⟨hSound, hGrows, hRead⟩ := emits_encodeBody hK hc _ (sound_start hPools hStart) _ _ hBody
  obtain ⟨P, hEntries, hComplete, rfl⟩ := PoolBuilder.encode_eq_ok hSound hEncode
  have hFits := PoolBuilder.fitsIn_of_entries hEntries
  obtain ⟨raw, hRaw, -, hResolve⟩ := hRead P hFits
  refine ⟨P, hComplete, ?_, fun x hx => ?_⟩
  · have hFile := RawClass.reads_decode hc.version hComplete hRaw []
    rw [List.append_nil] at hFile
    simp only [List.append_assoc]
    rw [parse, hFile]
    exact hResolve
  · rcases verbatimPool_eq_ok hStart with ⟨-, hNone⟩ | ⟨P', rfl, -, hAll⟩
    · rw [hNone] at hx
      cases hx
    · cases hAll x hx
      refine ⟨fun k e he => hGrows.fitsIn hFits k e (PoolBuilder.ofPool_slot.mpr he),
        fun hCovers => ?_⟩
      have hSame : b = PoolBuilder.ofPool x.2 := hGrows.covered hCovers
      have hMap : P.entries.map some = x.2.entries.map some := by
        rw [← hEntries, hSame]
        rfl
      exact congrArg Pool.mk ((Array.map_inj_right fun _ _ => Option.some.inj).mp hMap)

/-- A class that was read and written is read again from the new file, and written to the same
bytes. -/
theorem parse_serialize_stable {bytes bytes' : Bytes} {m : ClassModel} (h : parse bytes = .ok m)
    (h' : m.serialize = .ok bytes') :
    parse bytes' = .ok m ∧ ∀ m', parse bytes' = .ok m' → m'.serialize = .ok bytes' := by
  have hParse : parse bytes' = .ok m := by
    obtain ⟨P, hP, hWellFormed, hSelf⟩ := known_of_parse h
    have hPools := withPool_eq_self_iff.mp hSelf
    obtain ⟨P', -, hRead, hVerbatim⟩ := parse_of_serialize P.closed_holds hWellFormed
      (fun x hx => hPools x hx ▸ hP) h'
    rw [hRead, withPool_eq_self_iff.mpr]
    intro x hx
    refine ((hVerbatim x hx).2 ?_).symm
    rw [hPools x hx]
    exact PoolBuilder.covers_ofPool
  refine ⟨hParse, fun m' hm' => ?_⟩
  rw [hParse] at hm'
  cases hm'
  exact h'

/-- A class whose only method loads a constant. -/
def loadingFile : Bytes :=
  [0xca, 0xfe, 0xba, 0xbe, 0, 0, 0, 52, 0, 7, 1, 0, 1, 65, 7, 0, 1, 1, 0, 1, 109,
    1, 0, 3, 40, 41, 86, 1, 0, 4, 67, 111, 100, 101, 3, 0, 0, 0, 7,
    0, 0x21, 0, 2, 0, 0, 0, 0, 0, 0, 0, 1, 0, 9, 0, 3, 0, 4, 0, 1,
    0, 5, 0, 0, 0, 16, 0, 1, 0, 0, 0, 0, 0, 4, 0x12, 6, 0x57, 0xb1, 0, 0, 0, 0, 0, 0]

def loadingMethod : Member :=
  ⟨9, "m", "()V", [.code ⟨1, 0,
    [⟨0, opLdc, .constant (.integer 7)⟩, ⟨2, 0x57, .none⟩, ⟨3, 0xb1, .none⟩], [], []⟩]⟩

def loadingClass : ClassModel := ⟨0, 52, 0x21, "A", none, [], [], [loadingMethod], []⟩

/-- The file that is written for it has the constant in the first slot. -/
def writtenFile : Bytes :=
  [0xca, 0xfe, 0xba, 0xbe, 0, 0, 0, 52, 0, 7, 3, 0, 0, 0, 7, 1, 0, 1, 65, 7, 0, 2, 1, 0, 1, 109,
    1, 0, 3, 40, 41, 86, 1, 0, 4, 67, 111, 100, 101, 0, 0x21, 0, 3, 0, 0, 0, 0, 0, 0, 0, 1, 0, 9, 0, 4,
    0, 5, 0, 1, 0, 6, 0, 0, 0, 16, 0, 1, 0, 0, 0, 0, 0, 4, 0x12, 1, 0x57, 0xb1, 0, 0, 0, 0, 0, 0]

theorem parse_loadingFile : parse loadingFile = .ok loadingClass := by rfl

theorem serialize_loadingClass : loadingClass.serialize = .ok writtenFile := by
  have hPool : loadingClass.verbatimPool = .ok none := by
    simp [verbatimPool, verbatim, Attribute.verbatim, Attribute.verbatimHere,
      Attribute.verbatimInside, loadingClass, loadingMethod]
  obtain ⟨b₁, hReserve, hb₁⟩ := PoolBuilder.lists_empty.reserve (c := .integer 7) rfl rfl (by decide)
  obtain ⟨b₂, hName, hb₂⟩ := hb₁.className (s := "A") rfl rfl (by decide) (by decide)
  obtain ⟨b₃, hMethod, hb₃⟩ := hb₂.utf8 (s := "m") rfl (by decide) (by simp)
  obtain ⟨b₄, hDescriptor, hb₄⟩ := hb₃.utf8 (s := "()V") rfl (by decide) (by simp)
  obtain ⟨b₅, hCode, hb₅⟩ := hb₄.utf8 (s := "Code") rfl (by decide) (by simp)
  obtain ⟨b₆, hLoad, hb₆⟩ := hb₅.intern_reserved (c := .integer 7) (i := 1) (e := .integer 7)
    (m := pure (.integer 7)) rfl rfl rfl
  have hLoop : PoolBuilder.reserveAll [.integer 7] PoolBuilder.empty = .ok ((), b₁) := by
    rw [PoolBuilder.reserveAll, List.forIn_cons]
    exact bind_eq_ok.mpr ⟨.yield (), b₁, bind_eq_ok.mpr ⟨_, b₁, hReserve, rfl⟩, rfl⟩
  have hLdc : Instruction.encode ⟨0, opLdc, .constant (.integer 7)⟩ b₅ = .ok ([0x12, 1], b₆) :=
    bind_eq_ok.mpr ⟨1, b₆, hLoad, rfl⟩
  have hInstructions : Instruction.encodeAll [⟨0, opLdc, .constant (.integer 7)⟩,
      ⟨2, 0x57, .none⟩, ⟨3, 0xb1, .none⟩] b₅ = .ok ([0x12, 1, 0x57, 0xb1], b₆) :=
    bind_eq_ok.mpr ⟨_, _, hLdc, rfl⟩
  have hBody : Attribute.encodeEach loadingMethod.attributes b₄ = .ok (_, b₆) :=
    bind_eq_ok.mpr ⟨_, _, bind_eq_ok.mpr ⟨_, b₅, hCode, bind_eq_ok.mpr ⟨_, b₆, hInstructions, rfl⟩⟩, rfl⟩
  have hAttributes : Attribute.encodeList loadingMethod.attributes b₄ = .ok (_, b₆) :=
    bind_eq_ok.mpr ⟨_, b₄, rfl, bind_eq_ok.mpr ⟨_, b₆, hBody, rfl⟩⟩
  have hMember : loadingMethod.encode b₂ = .ok (_, b₆) :=
    bind_eq_ok.mpr ⟨_, b₃, hMethod, bind_eq_ok.mpr ⟨_, b₄, hDescriptor,
      bind_eq_ok.mpr ⟨_, b₆, hAttributes, rfl⟩⟩⟩
  have hEach : Encoder.each Member.encode [loadingMethod] b₂ = .ok (_, b₆) :=
    bind_eq_ok.mpr ⟨_, b₆, (congrFun List.mapM_cons b₂).trans
      (bind_eq_ok.mpr ⟨_, b₆, hMember, rfl⟩), rfl⟩
  have hMethods : Encoder.list "methods" Member.encode [loadingMethod] b₂ = .ok (_, b₆) :=
    bind_eq_ok.mpr ⟨_, b₂, rfl, bind_eq_ok.mpr ⟨_, b₆, hEach, rfl⟩⟩
  have hAll : loadingClass.encodeBody PoolBuilder.empty = .ok (_, b₆) :=
    bind_eq_ok.mpr ⟨(), b₁, hLoop, bind_eq_ok.mpr ⟨_, b₂, hName, bind_eq_ok.mpr ⟨0, b₂, rfl,
      bind_eq_ok.mpr ⟨_, b₂, rfl, bind_eq_ok.mpr ⟨_, b₂, rfl, bind_eq_ok.mpr ⟨_, b₆, hMethods,
        bind_eq_ok.mpr ⟨_, b₆, rfl, rfl⟩⟩⟩⟩⟩⟩⟩
  have hEncode : b₆.encode = .ok _ := hb₆.encode_eq.trans rfl
  exact Outcome.bind_eq_ok.mpr ⟨none, hPool, Outcome.bind_eq_ok.mpr ⟨_, hAll,
    Outcome.bind_eq_ok.mpr ⟨_, hEncode, rfl⟩⟩⟩

theorem parse_serialize_stable_loadingClass :
    parse loadingFile = .ok loadingClass ∧ loadingClass.serialize = .ok writtenFile ∧
      parse writtenFile = .ok loadingClass ∧
        ∀ m', parse writtenFile = .ok m' → m'.serialize = .ok writtenFile :=
  ⟨parse_loadingFile, serialize_loadingClass,
    parse_serialize_stable parse_loadingFile serialize_loadingClass⟩

end ClassModel

end Renaming
