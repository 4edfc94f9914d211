import Renaming.Proofs.ClassFile.Built
import Renaming.Proofs.ClassFile.Repaid.Class

/-!
# Attributes kept as bytes keep their meaning

The payload of an attribute that is kept as bytes has indices into the pool that it was read with.
A file can honour this for one pool only, so a class is refused exactly if two such attributes have
different pools. Otherwise their pool is the beginning of the pool of the file, and each payload is
found unchanged at its place, however deep the attribute is nested. All of this is so for every
class model, well-formed or not.
-/

namespace Renaming

open Decoder (Reads reads_u2 reads_u4 reads_take)
open Encoder (Emits)

variable {P Q : Pool}

namespace Attribute

/-- The attribute `inner` is the given one or is found inside of it, at any depth. -/
inductive Contains : Attribute → Attribute → Prop
  | self {a : Attribute} : Contains a a
  | code {body : Code Attribute} {a inner : Attribute} (ha : a ∈ body.attributes)
      (h : Contains a inner) : Contains (code body) inner
  | record {components : List (RecordComponent Attribute)} {c : RecordComponent Attribute}
      {a inner : Attribute} (hc : c ∈ components) (ha : a ∈ c.attributes) (h : Contains a inner) :
      Contains (record components) inner

variable {p : PlainAttribute}

theorem contains_plain_iff {a : PlainAttribute} : (plain a).Contains (plain p) ↔ a = p := by
  constructor
  · intro h
    cases h
    rfl
  · rintro rfl
    exact .self

theorem contains_code_iff {body : Code Attribute} :
    (code body).Contains (plain p) ↔ ∃ a ∈ body.attributes, a.Contains (plain p) := by
  constructor
  · intro h
    cases h with
    | code ha h => exact ⟨_, ha, h⟩
  · rintro ⟨a, ha, h⟩
    exact .code ha h

theorem contains_record_iff {cs : List (RecordComponent Attribute)} :
    (record cs).Contains (plain p) ↔ ∃ c ∈ cs, ∃ a ∈ c.attributes, a.Contains (plain p) := by
  constructor
  · intro h
    cases h with
    | record hc ha h => exact ⟨_, hc, _, ha, h⟩
  · rintro ⟨c, hc, a, ha, h⟩
    exact .record hc ha h

mutual

/-- The search for attributes that are kept as bytes misses none. -/
theorem mem_verbatim_iff {name : String} (as : List Attribute) : (name, P) ∈ verbatim as ↔
    ∃ payload, ∃ a ∈ as, a.Contains (plain (.unknown name payload P)) := by
  cases as with
  | nil => simp [verbatim, verbatimHere, verbatimInside]
  | cons a as =>
    simp only [List.exists_mem_cons_iff, exists_or, ← mem_verbatim_iff as]
    cases a with
    | code body =>
      obtain ⟨maxStack, maxLocals, instructions, handlers, attributes⟩ := body
      simp only [mem_verbatim_code_cons, contains_code_iff, mem_verbatim_iff attributes]
    | record cs =>
      simp only [mem_verbatim_record_cons, contains_record_iff, mem_verbatim_component_iff cs]
    | plain a =>
      rw [mem_verbatim_plain_cons]
      simp only [contains_plain_iff]
      cases a <;> simp [verbatimHere, eq_comm]

theorem mem_verbatim_component_iff {name : String} (cs : List (RecordComponent Attribute)) :
    (∃ c ∈ cs, (name, P) ∈ verbatim c.attributes) ↔
      ∃ payload, ∃ c ∈ cs, ∃ a ∈ c.attributes, a.Contains (plain (.unknown name payload P)) := by
  cases cs with
  | nil => simp
  | cons c cs =>
    obtain ⟨componentName, descriptor, attributes⟩ := c
    simp only [List.exists_mem_cons_iff, exists_or, ← mem_verbatim_component_iff cs,
      mem_verbatim_iff attributes]

end

end Attribute

namespace ClassModel

variable {c : ClassModel}

/-- The attribute `inner` is found somewhere in the class, at any depth. -/
def Contains (c : ClassModel) (inner : Attribute) : Prop :=
  (∃ a ∈ c.attributes, a.Contains inner) ∨
    ∃ m ∈ c.fields ++ c.methods, ∃ a ∈ m.attributes, a.Contains inner

theorem mem_verbatim_iff {name : String} : (name, P) ∈ c.verbatim ↔
    ∃ payload, c.Contains (.plain (.unknown name payload P)) := by
  simp only [mem_verbatim, Attribute.mem_verbatim_iff, Contains, List.mem_append, exists_or]
  constructor
  · rintro (h | ⟨m, hm, payload, h⟩ | ⟨m, hm, payload, h⟩)
    · exact Or.inl h
    · exact Or.inr ⟨payload, m, Or.inl hm, h⟩
    · exact Or.inr ⟨payload, m, Or.inr hm, h⟩
  · rintro (h | ⟨payload, m, hm | hm, h⟩)
    · exact Or.inl h
    · exact Or.inr (Or.inl ⟨m, hm, payload, h⟩)
    · exact Or.inr (Or.inr ⟨m, hm, payload, h⟩)

/-- Two attributes of the class are kept as bytes with different pools. -/
def MixesPools (c : ClassModel) : Prop :=
  ∃ name payload P name' payload' P', c.Contains (.plain (.unknown name payload P)) ∧
    c.Contains (.plain (.unknown name' payload' P')) ∧ P ≠ P'

theorem verbatimPool_fails_iff :
    (∃ name, c.verbatimPool = .error (.mixedPools name)) ↔ c.MixesPools := by
  constructor
  · rintro ⟨name, hFails⟩
    by_contra hUniform
    have hSame : ∀ x ∈ c.verbatim, ∀ y ∈ c.verbatim, x.2 = y.2 := by
      rintro ⟨n, P⟩ hx ⟨n', P'⟩ hy
      obtain ⟨payload, hx⟩ := mem_verbatim_iff.mp hx
      obtain ⟨payload', hy⟩ := mem_verbatim_iff.mp hy
      by_contra hDiffer
      exact hUniform ⟨n, payload, P, n', payload', P', hx, hy, hDiffer⟩
    cases hVerbatim : c.verbatim with
    | nil =>
      rw [verbatimPool, hVerbatim] at hFails
      cases hFails
    | cons x rest =>
      rw [hVerbatim] at hSame
      obtain ⟨pool, hOk⟩ := exists_verbatimPool (P := x.2) fun y hy =>
        hSame y (hVerbatim ▸ hy) x List.mem_cons_self
      rw [hFails] at hOk
      cases hOk
  · rintro ⟨name, payload, P, name', payload', P', hx, hy, hDiffer⟩
    have hx := mem_verbatim_iff.mpr ⟨payload, hx⟩
    have hy := mem_verbatim_iff.mpr ⟨payload', hy⟩
    cases hPool : c.verbatimPool with
    | ok pool =>
      rcases verbatimPool_eq_ok hPool with ⟨-, hNone⟩ | ⟨R, -, -, hAll⟩
      · rw [hNone] at hx
        cases hx
      · exact absurd ((hAll _ hx).trans (hAll _ hy).symm) hDiffer
    | error e =>
      obtain ⟨name, rfl⟩ := exists_mixedPools_of_verbatimPool hPool
      exact ⟨name, rfl⟩

theorem built_encodeBody_of_any (c : ClassModel) :
    Encoder.Built WriteError.IsMisfit (fun _ => True) c.encodeBody :=
  built_encodeBody fun body _ => body.admitted

theorem serialize_mixes_iff :
    (∃ name, c.serialize = .error (.mixedPools name)) ↔ c.MixesPools := by
  rw [← verbatimPool_fails_iff]
  apply exists_congr
  intro name
  constructor
  · intro hFails
    rcases serialize_eq_error hFails with hPool | hSlot | ⟨pool, -, hBody⟩
    · exact hPool
    · cases hSlot
    · rcases c.built_encodeBody_of_any.raises _ _ hBody with hMisfit | hOverflow | ⟨i, hLdc⟩
      · exact hMisfit.elim
      · exact hOverflow.elim
      · cases hLdc
  · intro hPool
    rw [serialize, hPool]
    rfl

end ClassModel

def Code.decodeNested (pool : Pool) : Decoder (List RawAttribute) := do
  let _maxStack ← Decoder.u2
  let _maxLocals ← Decoder.u2
  let length ← Decoder.u4
  let _bytecode ← Decoder.take length.toNat
  let _handlers ← Decoder.list (ExceptionHandler.decode pool)
  RawAttribute.decodeList

def RecordComponent.decodeAll (pool : Pool) : Decoder (List (RecordComponent RawAttribute)) :=
  Decoder.list (decodeWith pool .ok)

namespace Attribute

mutual

/-- In a file with the pool `Q`, `raw` has the name of the attribute, and its payload is that of the
attribute if this is kept as bytes, or has such attributes inside at the same places. -/
def CarriedBy (Q : Pool) : Attribute → RawAttribute → Prop
  | code ⟨_, _, _, _, attributes⟩, raw => Q.Names raw.name (.utf8 "Code") ∧
    ∃ raws, Reads (Code.decodeNested Q) raw.payload raws ∧ EachCarriedBy Q attributes raws
  | record components, raw => Q.Names raw.name (.utf8 "Record") ∧
    ∃ raws, Reads (RecordComponent.decodeAll Q) raw.payload raws ∧
      ComponentsCarriedBy Q components raws
  | plain (.unknown name payload _), raw => Q.Names raw.name (.utf8 name) ∧ raw.payload = payload
  | plain a, raw => Q.Names raw.name (.utf8 a.name)

def EachCarriedBy (Q : Pool) : List Attribute → List RawAttribute → Prop
  | [], [] => True
  | a :: rest, raw :: raws => CarriedBy Q a raw ∧ EachCarriedBy Q rest raws
  | _, _ => False

def ComponentsCarriedBy (Q : Pool) :
    List (RecordComponent Attribute) → List (RecordComponent RawAttribute) → Prop
  | [], [] => True
  | ⟨name, descriptor, attributes⟩ :: rest, raw :: raws =>
    raw.name = name ∧ raw.descriptor = descriptor ∧ EachCarriedBy Q attributes raw.attributes ∧
      ComponentsCarriedBy Q rest raws
  | _, _ => False

end

/-- The bytes `bs` are a frame around something that carries the attribute. -/
def Framed (Q : Pool) (bs : Bytes) (a : Attribute) : Prop :=
  ∃ raw, Reads RawAttribute.decode bs raw ∧ CarriedBy Q a raw

def EachFramed (Q : Pool) (bs : Bytes) (as : List Attribute) : Prop :=
  ∃ pieces raws, bs = pieces.flatten ∧ List.Forall₂ (Reads RawAttribute.decode) pieces raws ∧
    raws.length = as.length ∧ EachCarriedBy Q as raws

theorem reads_framed {bs : Bytes} {as : List Attribute} (hCount : as.length ≤ 65535)
    (h : EachFramed Q bs as) : ∃ raws, EachCarriedBy Q as raws ∧
      Reads RawAttribute.decodeList (Bytes.u2 (UInt16.ofNat as.length) ++ bs) raws := by
  obtain ⟨pieces, raws, rfl, hReads, hLength, hCarried⟩ := h
  refine ⟨raws, hCarried, ?_⟩
  rw [← hLength]
  exact Decoder.reads_list hReads (hLength ▸ hCount)

mutual

theorem emits_framed (a : Attribute) :
    Emits (fun _ => True) a.encode fun Q bs => Framed Q bs a := by
  cases a with
  | code body =>
    obtain ⟨maxStack, maxLocals, instructions, handlers, attributes⟩ := body
    have hBytecode : Encoder.Built WriteError.IsMisfit (fun _ => True)
        (Instruction.encodeAll instructions) :=
      Instruction.built_encodeAll (Or.inl fun _ he => he) fun _ _ _ _ => trivial
    refine (Encoder.emits_utf8 Constant.closed_univ trivial).bind fun i =>
      hBytecode.emits.bind fun bytecode => .guarded fun hLength =>
      (Encoder.emits_list fun h _ => ExceptionHandler.emits_encode Constant.closed_univ ?_).bind
      fun handlerBytes => Encoder.emits_length2.bind fun count =>
      (emits_eachFramed attributes).bind fun bs =>
      emits_frame.imp fun Q _ hFrame hBs hCount hHandlers _ hi => ?_
    · exact fun _ _ => trivial
    · obtain ⟨hCount, rfl⟩ := hCount
      obtain ⟨raws, hCarried, hReads⟩ := reads_framed hCount hBs
      refine ⟨_, hFrame.1, hi, raws, ?_, hCarried⟩
      have hWord : (UInt32.ofNat bytecode.length).toNat = bytecode.length := by
        rw [UInt32.toNat_ofNat', Nat.mod_eq_of_lt (Nat.lt_of_not_le hLength)]
      simp only [List.append_assoc]
      refine (reads_u2 maxStack).bind ((reads_u2 maxLocals).bind
        ((reads_u4 (UInt32.ofNat bytecode.length)).bind ?_))
      rw [hWord]
      exact (reads_take rfl).bind (hHandlers.bind hReads)
  | record components =>
    refine (Encoder.emits_utf8 Constant.closed_univ trivial).bind fun i =>
      Encoder.emits_length2.bind fun count => (emits_componentsFramed components).bind fun bs =>
      emits_frame.imp fun Q _ hFrame hBs hCount hi => ?_
    obtain ⟨hCount, rfl⟩ := hCount
    obtain ⟨pieces, raws, rfl, hReads, hLength, hCarried⟩ := hBs
    refine ⟨_, hFrame.1, hi, raws, ?_, hCarried⟩
    rw [← hLength]
    exact Decoder.reads_list hReads (hLength ▸ hCount)
  | plain a =>
    refine (Encoder.emits_utf8 Constant.closed_univ trivial).bind fun i => ?_
    cases a with
    | unknown name payload pool =>
      exact emits_frame.imp fun Q _ hFrame hi => ⟨_, hFrame.1, hi, rfl⟩
    | _ =>
      exact (PlainAttribute.built_encode (E := WriteError.IsMisfit) (L := fun _ => True) _).emits.bind
        fun payload => emits_frame.imp fun Q _ hFrame _ hi => ⟨_, hFrame.1, hi⟩

theorem emits_eachFramed (as : List Attribute) :
    Emits (fun _ => True) (encodeEach as) fun Q bs => EachFramed Q bs as := by
  cases as with
  | nil => exact .pure fun Q => ⟨[], [], rfl, .nil, rfl, trivial⟩
  | cons a as =>
    refine (emits_framed a).bind fun bs => (emits_eachFramed as).bind fun rest =>
      .pure fun Q hRest hBs => ?_
    obtain ⟨raw, hRead, hCarried⟩ := hBs
    obtain ⟨pieces, raws, rfl, hReads, hLength, hAll⟩ := hRest
    exact ⟨bs :: pieces, raw :: raws, rfl, .cons hRead hReads, congrArg (· + 1) hLength,
      hCarried, hAll⟩

theorem emits_componentsFramed (cs : List (RecordComponent Attribute)) :
    Emits (fun _ => True) (encodeComponents cs) fun Q bs => ∃ pieces raws, bs = pieces.flatten ∧
      List.Forall₂ (Reads (RecordComponent.decodeWith Q .ok)) pieces raws ∧
      raws.length = cs.length ∧ ComponentsCarriedBy Q cs raws := by
  cases cs with
  | nil => exact .pure fun Q => ⟨[], [], rfl, .nil, rfl, trivial⟩
  | cons c cs =>
    obtain ⟨name, descriptor, attributes⟩ := c
    refine (Encoder.emits_utf8 Constant.closed_univ trivial).bind fun i =>
      (Encoder.emits_utf8 Constant.closed_univ trivial).bind fun j =>
      Encoder.emits_length2.bind fun count => (emits_eachFramed attributes).bind fun bs =>
      (emits_componentsFramed cs).bind fun rest => .pure fun Q hRest hBs hCount hj hi => ?_
    obtain ⟨hCount, rfl⟩ := hCount
    obtain ⟨raws, hCarried, hReads⟩ := reads_framed hCount hBs
    obtain ⟨pieces, components, rfl, hComponents, hLength, hAll⟩ := hRest
    refine ⟨_ :: pieces, ⟨name, descriptor, raws⟩ :: components, rfl, .cons ?_ hComponents,
      congrArg (· + 1) hLength, rfl, rfl, hCarried, hAll⟩
    simp only [List.append_assoc]
    refine (reads_u2 i).bind ((reads_u2 j).bind
      (Reads.of_eq (hReads.bind ?_) (List.append_nil _).symm))
    refine Reads.lift_bind (Pool.utf8_eq_ok.mpr hi) (Reads.lift_bind (Pool.utf8_eq_ok.mpr hj) ?_)
    intro tail
    rw [List.nil_append, Stateful.bind_eq_ok]
    have hSame : List.Forall₂ (fun raw raw' => Except.ok raw = (.ok raw' : Except ReadError _))
        raws raws := List.forall₂_same.mpr fun _ _ => rfl
    exact ⟨raws, tail, Stateful.mapM_lift_eq_ok.mpr ⟨hSame, rfl⟩, rfl⟩

end

theorem emits_carried (as : List Attribute) :
    Emits (fun _ => True) (encodeList as) fun Q bs =>
      ∃ raws, Reads RawAttribute.decodeList bs raws ∧ EachCarriedBy Q as raws := by
  refine Encoder.emits_length2.bind fun count => (emits_eachFramed as).bind fun bs =>
    .pure fun Q hBs hCount => ?_
  obtain ⟨hCount, rfl⟩ := hCount
  obtain ⟨raws, hCarried, hReads⟩ := reads_framed hCount hBs
  exact ⟨raws, hReads, hCarried⟩

end Attribute

structure Member.CarriedBy (Q : Pool) (m : Member) (raw : RawMember) : Prop where
  access : raw.access = m.access
  name : Q.Names raw.name (.utf8 m.name)
  descriptor : Q.Names raw.descriptor (.utf8 m.descriptor)
  attributes : Attribute.EachCarriedBy Q m.attributes raw.attributes

theorem Member.emits_carried (m : Member) :
    Emits (fun _ => True) m.encode fun Q bs =>
      ∃ raw, Reads RawMember.decode bs raw ∧ m.CarriedBy Q raw := by
  refine (Encoder.emits_utf8 Constant.closed_univ trivial).bind fun i =>
    (Encoder.emits_utf8 Constant.closed_univ trivial).bind fun j =>
    (Attribute.emits_carried m.attributes).bind fun bs => .pure fun Q hBs hj hi => ?_
  obtain ⟨raws, hRaws, hCarried⟩ := hBs
  refine ⟨⟨m.access, i, j, raws⟩, ?_, rfl, hi, hj, hCarried⟩
  simp only [List.append_assoc]
  refine (reads_u2 m.access).bind ((reads_u2 i).bind ((reads_u2 j).bind ?_))
  exact hRaws.map fun v => (⟨m.access, i, j, v⟩ : RawMember)

/-- The file `raw` is the class `c`, as far as bytes are kept. -/
structure ClassModel.CarriedBy (c : ClassModel) (raw : RawClass) : Prop where
  minor : raw.minor = c.minor
  major : raw.major = c.major
  access : raw.access = c.access
  name : raw.pool.Names raw.name (.classRef c.name)
  fields : List.Forall₂ (Member.CarriedBy raw.pool) c.fields raw.fields
  methods : List.Forall₂ (Member.CarriedBy raw.pool) c.methods raw.methods
  attributes : Attribute.EachCarriedBy raw.pool c.attributes raw.attributes

namespace ClassModel

theorem emits_carriedMembers {table : String} (ms : List Member) :
    Emits (fun _ => True) (Encoder.list table Member.encode ms) fun Q bs =>
      ∃ raws, Reads (Decoder.list RawMember.decode) bs raws ∧
        List.Forall₂ (Member.CarriedBy Q) ms raws := by
  refine Encoder.emits_length2.bind fun count =>
    (Encoder.emits_each fun m _ => m.emits_carried).bind fun bs => .pure fun Q hBs hCount => ?_
  obtain ⟨pieces, hPieces, rfl⟩ := hBs
  obtain ⟨hCount, rfl⟩ := hCount
  have hRaws : ∃ raws, List.Forall₂ (Reads RawMember.decode) pieces raws ∧
      List.Forall₂ (Member.CarriedBy Q) ms raws := by
    clear hCount
    induction hPieces with
    | nil => exact ⟨[], .nil, .nil⟩
    | cons hHead _ ih =>
      obtain ⟨raw, hRead, hCarried⟩ := hHead
      obtain ⟨raws, hReads, hAll⟩ := ih
      exact ⟨raw :: raws, .cons hRead hReads, .cons hCarried hAll⟩
  obtain ⟨raws, hReads, hCarried⟩ := hRaws
  refine ⟨raws, ?_, hCarried⟩
  rw [hCarried.length_eq] at hCount ⊢
  exact Decoder.reads_list hReads hCount

theorem emits_carried (c : ClassModel) :
    Emits (fun _ => True) c.encodeBody fun Q bs => ∃ raw : RawClass, raw.pool = Q ∧
      Reads (RawClass.decodeBody c.minor c.major Q) bs raw ∧ c.CarriedBy raw := by
  have hAll : ∀ n, (fun _ => True) (Constant.classRef n) := fun _ => trivial
  refine (Encoder.emits_reserveAll fun _ _ => trivial).bind fun _ =>
    (Encoder.emits_className Constant.closed_univ trivial).bind fun i =>
    (emits_optionalClass Constant.closed_univ fun n _ => hAll n).bind fun j =>
    (emits_interfaces Constant.closed_univ fun n _ => hAll n).bind fun interfaces =>
    (emits_carriedMembers c.fields).bind fun fields =>
    (emits_carriedMembers c.methods).bind fun methods =>
    (Attribute.emits_carried c.attributes).bind fun attributes =>
    .pure fun Q hAttributes hMethods hFields hInterfaces _ hi _ => ?_
  obtain ⟨is, hInterfaces, -⟩ := hInterfaces
  obtain ⟨rawFields, hFields, hRawFields⟩ := hFields
  obtain ⟨rawMethods, hMethods, hRawMethods⟩ := hMethods
  obtain ⟨rawAttributes, hAttributes, hRawAttributes⟩ := hAttributes
  refine ⟨⟨c.minor, c.major, Q, c.access, i, j, is, rawFields, rawMethods, rawAttributes⟩, rfl, ?_,
    rfl, rfl, rfl, hi, hRawFields, hRawMethods, hRawAttributes⟩
  simp only [List.append_assoc]
  refine (reads_u2 c.access).bind ((reads_u2 i).bind ((reads_u2 j).bind (hInterfaces.bind
    (hFields.bind (hMethods.bind ?_)))))
  exact hAttributes.map fun v =>
    (⟨c.minor, c.major, Q, c.access, i, j, is, rawFields, rawMethods, v⟩ : RawClass)

end ClassModel

/-- The bytes are those of the class file `raw`, of whatever version. -/
def RawClass.IsFile (raw : RawClass) (bytes : Bytes) : Prop :=
  bytes.take 8 = Bytes.u4 classMagic ++ Bytes.u2 raw.minor ++ Bytes.u2 raw.major ∧
    ∃ body, Pool.decode (bytes.drop 8) = .ok (raw.pool, body) ∧
      decodeBody raw.minor raw.major raw.pool body = .ok (raw, [])

theorem Pool.constant_of_prefix (h : P.entries.toList <+: Q.entries.toList) {i : UInt16}
    {k : Constant} (hk : P.constant i = .ok k) : Q.constant i = .ok k := by
  obtain ⟨added, hAdded⟩ := h
  rw [constant_eq_ok] at hk ⊢
  refine hk.mono fun j e he => ?_
  obtain ⟨hPos, hSlot, hEntry⟩ := entry_eq_ok.mp he
  refine entry_eq_ok.mpr ⟨hPos, ?_, hEntry⟩
  rw [← Array.getElem?_toList] at hSlot ⊢
  obtain ⟨hLt, -⟩ := List.getElem?_eq_some_iff.mp hSlot
  rw [← hAdded, List.getElem?_append_left hLt, hSlot]

namespace ClassModel

variable {c : ClassModel} {name : String} {payload : Bytes}

theorem verbatimPool_of_contains (hContains : c.Contains (.plain (.unknown name payload P)))
    {pool : Option Pool} (hPool : c.verbatimPool = .ok pool) : pool = some P := by
  have hMem := mem_verbatim_iff.mpr ⟨payload, hContains⟩
  rcases verbatimPool_eq_ok hPool with ⟨-, hNone⟩ | ⟨R, rfl, -, hAll⟩
  · rw [hNone] at hMem
    cases hMem
  · rw [← hAll _ hMem]

/-- The pool of the attributes that are kept as bytes is the beginning of that of the file. -/
theorem exists_file_of_serialize {bytes : Bytes} (h : c.serialize = .ok bytes)
    (hContains : c.Contains (.plain (.unknown name payload P))) (hP : P.Complete) :
    ∃ raw : RawClass, raw.IsFile bytes ∧ P.entries.toList <+: raw.pool.entries.toList ∧
      c.CarriedBy raw := by
  obtain ⟨pool, hPool, h⟩ := Outcome.bind_eq_ok.mp h
  obtain rfl := verbatimPool_of_contains hContains hPool
  obtain ⟨⟨body, b⟩, hBody, h⟩ := Outcome.bind_eq_ok.mp h
  obtain ⟨poolBytes, hEncode, h⟩ := Outcome.bind_eq_ok.mp h
  cases h
  obtain ⟨hSound, hGrows, hRead⟩ := c.emits_carried _ (PoolBuilder.sound_ofPool hP) _ _ hBody
  obtain ⟨Q, hEntries, hComplete, rfl⟩ := PoolBuilder.encode_eq_ok hSound hEncode
  have hFits := PoolBuilder.fitsIn_of_entries hEntries
  obtain ⟨raw, rfl, hReads, hCarried⟩ := hRead Q hFits
  have hHeader : (Bytes.u4 classMagic ++ Bytes.u2 c.minor ++ Bytes.u2 c.major).length = 8 := by
    simp
  refine ⟨raw, ⟨?_, body, ?_, ?_⟩, ?_, hCarried⟩
  · rw [hCarried.minor, hCarried.major, List.append_assoc _ _ body, List.take_left' hHeader]
  · rw [List.append_assoc _ _ body, List.drop_left' hHeader]
    exact Pool.reads_decode hComplete body
  · rw [hCarried.minor, hCarried.major]
    simpa using hReads []
  · refine List.prefix_iff_getElem?.mpr fun k hk => ?_
    have hSlot : P.entries[k]? = some P.entries.toList[k] := by
      rw [← Array.getElem?_toList, List.getElem?_eq_getElem hk]
    rw [Array.getElem?_toList]
    exact hGrows.fitsIn hFits k _ (PoolBuilder.ofPool_slot.mpr hSlot)

/-- A class is refused for its attributes that are kept as bytes exactly if two of them have
different pools, wherever they are. Otherwise their pool, if it can be that of a file, is the
beginning of the pool of the file, so that every index has the meaning that it had, and their
payloads are found unchanged where they belong. -/
theorem serialize_carries (c : ClassModel) :
    ((∃ name, c.serialize = .error (.mixedPools name)) ↔ c.MixesPools) ∧
      ∀ bytes name payload P, c.serialize = .ok bytes →
        c.Contains (.plain (.unknown name payload P)) → P.Complete →
          ∃ raw : RawClass, raw.IsFile bytes ∧ c.CarriedBy raw ∧
            P.entries.toList <+: raw.pool.entries.toList ∧
            ∀ i k, P.constant i = .ok k → raw.pool.constant i = .ok k := by
  refine ⟨serialize_mixes_iff, fun bytes name payload P hSerialize hContains hP => ?_⟩
  obtain ⟨raw, hFile, hPrefix, hCarried⟩ := exists_file_of_serialize hSerialize hContains hP
  exact ⟨raw, hFile, hCarried, hPrefix, fun i k => Pool.constant_of_prefix hPrefix⟩

def carriedPool : Pool := ⟨#[.utf8 "A", .classRef 1]⟩

def carryingClass : ClassModel :=
  ⟨0, 52, 0x21, "A", none, [], [], [], [.plain (.unknown "A" [0, 2] carriedPool)]⟩

theorem complete_carriedPool : carriedPool.Complete :=
  Pool.decode_eq_ok (s := [0, 3, 1, 0, 1, 65, 7, 0, 1]) (t := []) rfl

theorem exists_serialize_carryingClass : ∃ bytes, carryingClass.serialize = .ok bytes := by
  have hText : carriedPool.Names 1 (.utf8 "A") := .utf8 rfl
  obtain ⟨i, hi, hFilled⟩ := PoolBuilder.covers_ofPool _ hText.holds
  obtain ⟨j, hj, hFilled'⟩ :=
    PoolBuilder.covers_ofPool _ (Pool.Names.classRef (i := 2) rfl hText).holds
  have hPool : carryingClass.verbatimPool = .ok (some carriedPool) := by
    simp [verbatimPool, verbatim, Attribute.verbatim, Attribute.verbatimHere,
      Attribute.verbatimInside, carryingClass]
  have hName : PoolBuilder.className "A" (.ofPool carriedPool) = .ok (j, .ofPool carriedPool) :=
    PoolBuilder.intern_filled hj hFilled'
  have hUtf8 : PoolBuilder.utf8 "A" (.ofPool carriedPool) = .ok (i, .ofPool carriedPool) :=
    PoolBuilder.intern_filled hi hFilled
  have hEach : Attribute.encodeEach carryingClass.attributes (.ofPool carriedPool) =
      .ok (_, .ofPool carriedPool) :=
    Stateful.bind_eq_ok.mpr ⟨_, _, Stateful.bind_eq_ok.mpr ⟨i, _, hUtf8, rfl⟩, rfl⟩
  have hAttributes : Attribute.encodeList carryingClass.attributes (.ofPool carriedPool) =
      .ok (_, .ofPool carriedPool) :=
    Stateful.bind_eq_ok.mpr ⟨_, _, rfl, Stateful.bind_eq_ok.mpr ⟨_, _, hEach, rfl⟩⟩
  obtain ⟨body, hBody⟩ : ∃ body, carryingClass.encodeBody (.ofPool carriedPool) =
      .ok (body, .ofPool carriedPool) :=
    ⟨_, Stateful.bind_eq_ok.mpr ⟨(), _, rfl, Stateful.bind_eq_ok.mpr ⟨j, _, hName,
      Stateful.bind_eq_ok.mpr ⟨0, _, rfl, Stateful.bind_eq_ok.mpr ⟨_, _, rfl,
      Stateful.bind_eq_ok.mpr ⟨_, _, rfl, Stateful.bind_eq_ok.mpr ⟨_, _, rfl,
      Stateful.bind_eq_ok.mpr ⟨_, _, hAttributes, rfl⟩⟩⟩⟩⟩⟩⟩⟩
  exact ⟨_, Outcome.bind_eq_ok.mpr ⟨_, hPool, Outcome.bind_eq_ok.mpr ⟨_, hBody,
    Outcome.bind_eq_ok.mpr ⟨_, PoolBuilder.encode_ofPool, rfl⟩⟩⟩⟩

theorem serialize_carries_carryingClass :
    ∃ bytes, carryingClass.serialize = .ok bytes ∧
      carryingClass.Contains (.plain (.unknown "A" [0, 2] carriedPool)) ∧ carriedPool.Complete ∧
      ∃ raw : RawClass, raw.IsFile bytes ∧ carryingClass.CarriedBy raw ∧
        carriedPool.entries.toList <+: raw.pool.entries.toList ∧
        ∀ i k, carriedPool.constant i = .ok k → raw.pool.constant i = .ok k := by
  obtain ⟨bytes, hSerialize⟩ := exists_serialize_carryingClass
  have hContains : carryingClass.Contains (.plain (.unknown "A" [0, 2] carriedPool)) :=
    Or.inl ⟨_, List.mem_singleton_self _, .self⟩
  exact ⟨bytes, hSerialize, hContains, complete_carriedPool,
    (serialize_carries carryingClass).2 bytes "A" [0, 2] carriedPool hSerialize hContains
      complete_carriedPool⟩

end ClassModel

end Renaming
