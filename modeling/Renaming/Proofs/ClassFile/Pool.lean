import Renaming.ClassFile.Pool
import Renaming.Proofs.Binary.Decoder
import Renaming.Proofs.Outcome
import Renaming.Proofs.Text.ModifiedUtf8

/-!
# What the indices of a constant pool lead to

`Pool.Names P i c` says that following the index `i` through the pool `P` ends in the constant `c`.
The look-ups of the reader compute this relation, and it survives every extension of the pool,
which is what the writer relies on. `PoolEntry.Laid` describes the lists of slots that a file can
hold, and reading the stored form of such a list gives the list back.
-/

namespace Renaming

def NameAndType.parts (v : NameAndType) : List Constant := [.utf8 v.name, .utf8 v.descriptor]

def MemberRef.nameAndType (r : MemberRef) : NameAndType := ⟨r.name, r.descriptor⟩

def MemberRef.parts (r : MemberRef) : List Constant :=
  .classRef r.owner :: .utf8 r.owner :: .nameAndType r.nameAndType :: r.nameAndType.parts

namespace Constant

/-- Every constant that the entries of `c` lead to, other than `c`. -/
def parts : Constant → List Constant
  | .classRef s | .string s | .methodType s | .module s | .package s => [.utf8 s]
  | .nameAndType v => v.parts
  | .member r => r.parts
  | .methodHandle _ r => .member r :: r.parts
  | .dynamic _ v | .invokeDynamic _ v => .nameAndType v :: v.parts
  | .utf8 _ | .integer _ | .float _ | .long _ | .double _ => []

theorem not_mem_parts (c : Constant) : c ∉ c.parts := by
  cases c <;> simp [parts, NameAndType.parts, MemberRef.parts]

theorem parts_trans {c d e : Constant} (hd : d ∈ c.parts) (he : e ∈ d.parts) : e ∈ c.parts := by
  have hAll : ∀ d ∈ c.parts, ∀ e ∈ d.parts, e ∈ c.parts := by
    cases c <;> simp [parts, NameAndType.parts, MemberRef.parts]
  exact hAll d hd e he

theorem length_parts_lt {c d : Constant} (h : d ∈ c.parts) : d.parts.length < c.parts.length := by
  have hAll : ∀ d ∈ c.parts, d.parts.length < c.parts.length := by
    cases c <;> simp [parts, NameAndType.parts, MemberRef.parts]
  exact hAll d h

/-- A set of constants that holds the parts of its members. -/
def Closed (K : Constant → Prop) : Prop := ∀ c, K c → ∀ d ∈ c.parts, K d

theorem closed_univ : Closed fun _ => True := fun _ _ _ _ => trivial

theorem closed_parts (c : Constant) : Closed (· ∈ c.parts) := fun _ hd _ he => parts_trans hd he

def Within (c d : Constant) : Prop := d = c ∨ d ∈ c.parts

theorem Closed.of_within {K : Constant → Prop} (hK : Closed K) {c d : Constant} (hc : K c)
    (h : Within c d) : K d := by
  rcases h with rfl | h
  · exact hc
  · exact hK c hc d h

end Constant

namespace Pool

theorem entry_eq_ok {P : Pool} {i : UInt16} {e : PoolEntry} :
    P.entry i = .ok e ↔ 0 < i.toNat ∧ P.entries[i.toNat - 1]? = some e ∧ e ≠ .empty := by
  have hPos : 0 < i.toNat ↔ i ≠ 0 := by
    rw [Nat.pos_iff_ne_zero, ne_eq, ne_eq, ← UInt16.toNat_inj]
    rfl
  rw [hPos, entry]
  split
  · simp_all
  · split
    · simp_all
    · rename_i h
      rw [h]
      grind
    · rename_i e' hSome h
      rw [h]
      grind

/-- Following the index `i` through `P` ends in `c`. -/
inductive Names (P : Pool) : UInt16 → Constant → Prop
  | utf8 {i s} (h : P.entry i = .ok (.utf8 s)) : Names P i (.utf8 s)
  | integer {i v} (h : P.entry i = .ok (.integer v)) : Names P i (.integer v)
  | float {i v} (h : P.entry i = .ok (.float v)) : Names P i (.float v)
  | long {i v} (h : P.entry i = .ok (.long v)) : Names P i (.long v)
  | double {i v} (h : P.entry i = .ok (.double v)) : Names P i (.double v)
  | classRef {i j s} (h : P.entry i = .ok (.classRef j)) (hName : Names P j (.utf8 s)) :
      Names P i (.classRef s)
  | string {i j s} (h : P.entry i = .ok (.string j)) (hValue : Names P j (.utf8 s)) :
      Names P i (.string s)
  | nameAndType {i j k n d} (h : P.entry i = .ok (.nameAndType j k)) (hName : Names P j (.utf8 n))
      (hDescriptor : Names P k (.utf8 d)) : Names P i (.nameAndType ⟨n, d⟩)
  | member {i j k kind o n d} (h : P.entry i = .ok (.member kind j k))
      (hOwner : Names P j (.classRef o)) (hMember : Names P k (.nameAndType ⟨n, d⟩)) :
      Names P i (.member ⟨kind, o, n, d⟩)
  | methodHandle {i j kind r} (h : P.entry i = .ok (.methodHandle kind j))
      (hReference : Names P j (.member r)) : Names P i (.methodHandle kind r)
  | methodType {i j s} (h : P.entry i = .ok (.methodType j)) (hValue : Names P j (.utf8 s)) :
      Names P i (.methodType s)
  | dynamic {i j b v} (h : P.entry i = .ok (.dynamic b j)) (hValue : Names P j (.nameAndType v)) :
      Names P i (.dynamic b v)
  | invokeDynamic {i j b v} (h : P.entry i = .ok (.invokeDynamic b j))
      (hValue : Names P j (.nameAndType v)) : Names P i (.invokeDynamic b v)
  | module {i j s} (h : P.entry i = .ok (.module j)) (hName : Names P j (.utf8 s)) :
      Names P i (.module s)
  | package {i j s} (h : P.entry i = .ok (.package j)) (hName : Names P j (.utf8 s)) :
      Names P i (.package s)

theorem Names.mono {P P' : Pool} {i : UInt16} {c : Constant}
    (hEntry : ∀ i e, P.entry i = .ok e → P'.entry i = .ok e) (h : P.Names i c) : P'.Names i c := by
  induction h with
  | utf8 h => exact .utf8 (hEntry _ _ h)
  | integer h => exact .integer (hEntry _ _ h)
  | float h => exact .float (hEntry _ _ h)
  | long h => exact .long (hEntry _ _ h)
  | double h => exact .double (hEntry _ _ h)
  | classRef h _ ih => exact .classRef (hEntry _ _ h) ih
  | string h _ ih => exact .string (hEntry _ _ h) ih
  | nameAndType h _ _ ihName ihDescriptor =>
    exact .nameAndType (hEntry _ _ h) ihName ihDescriptor
  | member h _ _ ihOwner ihMember => exact .member (hEntry _ _ h) ihOwner ihMember
  | methodHandle h _ ih => exact .methodHandle (hEntry _ _ h) ih
  | methodType h _ ih => exact .methodType (hEntry _ _ h) ih
  | dynamic h _ ih => exact .dynamic (hEntry _ _ h) ih
  | invokeDynamic h _ ih => exact .invokeDynamic (hEntry _ _ h) ih
  | module h _ ih => exact .module (hEntry _ _ h) ih
  | package h _ ih => exact .package (hEntry _ _ h) ih

theorem Names.entry {P : Pool} {i : UInt16} {c : Constant} (h : P.Names i c) :
    ∃ e, P.entry i = .ok e ∧ e.isWide = c.isWide := by
  cases h <;> exact ⟨_, ‹P.entry i = _›, rfl⟩

theorem Names.pos {P : Pool} {i : UInt16} {c : Constant} (h : P.Names i c) : 0 < i.toNat := by
  obtain ⟨e, he, -⟩ := h.entry
  exact (entry_eq_ok.mp he).1

/-- The constants that some index of `P` leads to. -/
def Holds (P : Pool) (c : Constant) : Prop := ∃ i, P.Names i c

theorem Names.holds {P : Pool} {i : UInt16} {c : Constant} (h : P.Names i c) : P.Holds c := ⟨i, h⟩

theorem Names.holds_parts {P : Pool} {i : UInt16} {c : Constant} (h : P.Names i c) :
    ∀ d ∈ c.parts, P.Holds d := by
  induction h with
  | utf8 | integer | float | long | double => simp [Constant.parts]
  | classRef _ hs | string _ hs | methodType _ hs | module _ hs | package _ hs =>
    simpa [Constant.parts] using hs.holds
  | nameAndType _ hName hDescriptor =>
    simpa [Constant.parts, NameAndType.parts] using And.intro hName.holds hDescriptor.holds
  | member _ hOwner hMember ihOwner ihMember =>
    simp only [Constant.parts, MemberRef.parts, MemberRef.nameAndType, List.forall_mem_cons] at *
    exact ⟨hOwner.holds, ihOwner.1, hMember.holds, ihMember⟩
  | methodHandle _ hReference ih =>
    simpa [Constant.parts] using ⟨hReference.holds, ih⟩
  | dynamic _ hValue ih | invokeDynamic _ hValue ih =>
    simpa [Constant.parts] using ⟨hValue.holds, ih⟩

theorem closed_holds (P : Pool) : Constant.Closed P.Holds := fun _ ⟨_, h⟩ => h.holds_parts

variable {P : Pool} {i : UInt16}

theorem utf8_eq_ok {s : String} : P.utf8 i = .ok s ↔ P.Names i (.utf8 s) := by
  constructor
  · intro h
    obtain ⟨e, he, h⟩ := Outcome.bind_eq_ok.mp h
    cases e with
    | utf8 value => cases h; exact .utf8 he
    | _ => cases h
  · rintro (h | h)
    rw [utf8, h]
    rfl

theorem className_eq_ok {s : String} : P.className i = .ok s ↔ P.Names i (.classRef s) := by
  constructor
  · intro h
    obtain ⟨e, he, h⟩ := Outcome.bind_eq_ok.mp h
    cases e with
    | classRef j => exact .classRef he (utf8_eq_ok.mp h)
    | _ => cases h
  · intro h
    cases h with
    | classRef h hName =>
      rw [className, h]
      exact utf8_eq_ok.mpr hName

theorem moduleName_eq_ok {s : String} : P.moduleName i = .ok s ↔ P.Names i (.module s) := by
  constructor
  · intro h
    obtain ⟨e, he, h⟩ := Outcome.bind_eq_ok.mp h
    cases e with
    | module j => exact .module he (utf8_eq_ok.mp h)
    | _ => cases h
  · intro h
    cases h with
    | module h hName =>
      rw [moduleName, h]
      exact utf8_eq_ok.mpr hName

theorem packageName_eq_ok {s : String} : P.packageName i = .ok s ↔ P.Names i (.package s) := by
  constructor
  · intro h
    obtain ⟨e, he, h⟩ := Outcome.bind_eq_ok.mp h
    cases e with
    | package j => exact .package he (utf8_eq_ok.mp h)
    | _ => cases h
  · intro h
    cases h with
    | package h hName =>
      rw [packageName, h]
      exact utf8_eq_ok.mpr hName

theorem nameAndType_eq_ok {v : NameAndType} :
    P.nameAndType i = .ok v ↔ P.Names i (.nameAndType v) := by
  constructor
  · intro h
    obtain ⟨e, he, h⟩ := Outcome.bind_eq_ok.mp h
    cases e with
    | nameAndType j k =>
      obtain ⟨n, hn, h⟩ := Outcome.bind_eq_ok.mp h
      obtain ⟨d, hd, h⟩ := Outcome.bind_eq_ok.mp h
      cases h
      exact .nameAndType he (utf8_eq_ok.mp hn) (utf8_eq_ok.mp hd)
    | _ => cases h
  · intro h
    cases h with
    | nameAndType h hName hDescriptor =>
      rw [nameAndType, h, Outcome.ok_bind]
      exact Outcome.bind_eq_ok.mpr ⟨_, utf8_eq_ok.mpr hName,
        Outcome.bind_eq_ok.mpr ⟨_, utf8_eq_ok.mpr hDescriptor, rfl⟩⟩

theorem memberRef_eq_ok {r : MemberRef} : P.memberRef i = .ok r ↔ P.Names i (.member r) := by
  constructor
  · intro h
    obtain ⟨e, he, h⟩ := Outcome.bind_eq_ok.mp h
    cases e with
    | member kind j k =>
      obtain ⟨v, hv, h⟩ := Outcome.bind_eq_ok.mp h
      obtain ⟨o, ho, h⟩ := Outcome.bind_eq_ok.mp h
      cases h
      exact .member he (className_eq_ok.mp ho) (nameAndType_eq_ok.mp hv)
    | _ => cases h
  · intro h
    cases h with
    | member h hOwner hMember =>
      rw [memberRef, h, Outcome.ok_bind]
      exact Outcome.bind_eq_ok.mpr ⟨_, nameAndType_eq_ok.mpr hMember,
        Outcome.bind_eq_ok.mpr ⟨_, className_eq_ok.mpr hOwner, rfl⟩⟩

theorem constant_eq_ok {c : Constant} : P.constant i = .ok c ↔ P.Names i c := by
  constructor
  · intro h
    obtain ⟨e, he, h⟩ := Outcome.bind_eq_ok.mp h
    cases e with
    | empty => cases h
    | utf8 value => cases h; exact .utf8 he
    | integer value => cases h; exact .integer he
    | float value => cases h; exact .float he
    | long value => cases h; exact .long he
    | double value => cases h; exact .double he
    | classRef j =>
      obtain ⟨_, hs, h⟩ := Outcome.bind_eq_ok.mp h
      cases h
      exact .classRef he (utf8_eq_ok.mp hs)
    | string j =>
      obtain ⟨_, hs, h⟩ := Outcome.bind_eq_ok.mp h
      cases h
      exact .string he (utf8_eq_ok.mp hs)
    | member kind j k =>
      obtain ⟨_, hr, h⟩ := Outcome.bind_eq_ok.mp h
      cases h
      exact memberRef_eq_ok.mp hr
    | nameAndType j k =>
      obtain ⟨_, hv, h⟩ := Outcome.bind_eq_ok.mp h
      cases h
      exact nameAndType_eq_ok.mp hv
    | methodHandle kind j =>
      obtain ⟨_, hr, h⟩ := Outcome.bind_eq_ok.mp h
      cases h
      exact .methodHandle he (memberRef_eq_ok.mp hr)
    | methodType j =>
      obtain ⟨_, hs, h⟩ := Outcome.bind_eq_ok.mp h
      cases h
      exact .methodType he (utf8_eq_ok.mp hs)
    | dynamic b j =>
      obtain ⟨_, hv, h⟩ := Outcome.bind_eq_ok.mp h
      cases h
      exact .dynamic he (nameAndType_eq_ok.mp hv)
    | invokeDynamic b j =>
      obtain ⟨_, hv, h⟩ := Outcome.bind_eq_ok.mp h
      cases h
      exact .invokeDynamic he (nameAndType_eq_ok.mp hv)
    | module j =>
      obtain ⟨_, hs, h⟩ := Outcome.bind_eq_ok.mp h
      cases h
      exact .module he (utf8_eq_ok.mp hs)
    | package j =>
      obtain ⟨_, hs, h⟩ := Outcome.bind_eq_ok.mp h
      cases h
      exact .package he (utf8_eq_ok.mp hs)
  · intro h
    cases h with
    | utf8 h | integer h | float h | long h | double h => rw [constant, h]; rfl
    | classRef h hs | string h hs | methodType h hs | module h hs | package h hs =>
      rw [constant, h, Outcome.ok_bind]
      exact Outcome.bind_eq_ok.mpr ⟨_, utf8_eq_ok.mpr hs, rfl⟩
    | nameAndType h hn hd =>
      rw [constant, h, Outcome.ok_bind]
      exact Outcome.bind_eq_ok.mpr ⟨_, nameAndType_eq_ok.mpr (.nameAndType h hn hd), rfl⟩
    | member h ho hm =>
      rw [constant, h, Outcome.ok_bind]
      exact Outcome.bind_eq_ok.mpr ⟨_, memberRef_eq_ok.mpr (.member h ho hm), rfl⟩
    | methodHandle h hr =>
      rw [constant, h, Outcome.ok_bind]
      exact Outcome.bind_eq_ok.mpr ⟨_, memberRef_eq_ok.mpr hr, rfl⟩
    | dynamic h hv | invokeDynamic h hv =>
      rw [constant, h, Outcome.ok_bind]
      exact Outcome.bind_eq_ok.mpr ⟨_, nameAndType_eq_ok.mpr hv, rfl⟩

theorem Names.unique {c d : Constant} (hc : P.Names i c) (hd : P.Names i d) : c = d := by
  have h := (constant_eq_ok.mpr hc).symm.trans (constant_eq_ok.mpr hd)
  cases h
  rfl

end Pool

namespace PoolEntry

/-- Lists of slots in which every long or double, and nothing else, has an empty slot behind it. -/
inductive Laid : List PoolEntry → Prop
  | nil : Laid []
  | single {e es} (hEntry : e ≠ .empty) (hWide : e.isWide = false) (hTail : Laid es) :
      Laid (e :: es)
  | double {e es} (hWide : e.isWide = true) (hTail : Laid es) : Laid (e :: .empty :: es)

theorem Laid.append {es fs : List PoolEntry} (he : Laid es) (hf : Laid fs) : Laid (es ++ fs) := by
  induction he with
  | nil => exact hf
  | single hEntry hWide _ ih => exact .single hEntry hWide ih
  | double hWide _ ih => exact .double hWide ih

theorem Laid.of_narrow {es : List PoolEntry} (h : ∀ e ∈ es, e ≠ .empty ∧ e.isWide = false) :
    Laid es := by
  induction es with
  | nil => exact .nil
  | cons e es ih =>
    obtain ⟨⟨hEntry, hWide⟩, hTail⟩ := List.forall_mem_cons.mp h
    exact .single hEntry hWide (ih hTail)

theorem ne_empty_of_isWide {e : PoolEntry} (h : e.isWide = true) : e ≠ .empty := by
  rintro rfl
  cases h

theorem Laid.set {es : List PoolEntry} {k : Nat} {e old : PoolEntry} (h : Laid es)
    (hOld : es[k]? = some old) (hOldEntry : old ≠ .empty) (hEntry : e ≠ .empty)
    (hWidth : e.isWide = old.isWide) : Laid (es.set k e) := by
  induction h generalizing k with
  | nil => exact .nil
  | single hHead hWide hTail ih =>
    cases k with
    | zero =>
      cases hOld
      exact .single hEntry (hWidth.trans hWide) hTail
    | succ k => exact .single hHead hWide (ih hOld)
  | double hWide hTail ih =>
    match k with
    | 0 =>
      cases hOld
      exact .double (hWidth.trans hWide) hTail
    | 1 =>
      cases hOld
      exact absurd rfl hOldEntry
    | k + 2 => exact .double hWide (ih hOld)

theorem Laid.empty_behind {es : List PoolEntry} {k : Nat} {e : PoolEntry} (h : Laid es)
    (he : es[k]? = some e) (hWide : e.isWide = true) : es[k + 1]? = some .empty := by
  induction h generalizing k with
  | nil => cases he
  | single hHead hNarrow hTail ih =>
    cases k with
    | zero =>
      cases he
      rw [hNarrow] at hWide
      cases hWide
    | succ k => exact ih he
  | double hHead hTail ih =>
    match k with
    | 0 => rfl
    | 1 =>
      cases he
      cases hWide
    | k + 2 => exact ih he

def Short : PoolEntry → Prop
  | .utf8 s => (ModifiedUtf8.encode s).length ≤ 65535
  | _ => True

open Decoder in
theorem reads_decode {e : PoolEntry} (hEntry : e ≠ .empty) (hShort : e.Short) :
    Reads decode e.encode e := by
  have hTag {tag : UInt8} {d : UInt8 → Decoder PoolEntry} {bs : Bytes}
      (hd : Reads (d tag) bs e) : Reads (Decoder.u1 >>= d) (tag :: bs) e := (reads_u1 tag).bind hd
  cases e with
  | empty => exact absurd rfl hEntry
  | utf8 value =>
    refine hTag ((reads_u2 _).bind ?_)
    have hLength : (UInt16.ofNat (ModifiedUtf8.encode value).length).toNat =
        (ModifiedUtf8.encode value).length := by
      have hLt : (ModifiedUtf8.encode value).length < 65536 := Nat.lt_succ_of_le hShort
      rw [UInt16.toNat_ofNat', Nat.mod_eq_of_lt hLt]
    rw [hLength]
    refine ((reads_take rfl).bind ?_).of_eq (List.append_nil _).symm
    rw [ModifiedUtf8.decode_encode]
    exact Reads.pure _
  | integer value => exact hTag ((reads_i4 value).map _)
  | float bits => exact hTag ((reads_u4 bits).map _)
  | long value => exact hTag ((reads_i8 value).map _)
  | double bits => exact hTag ((reads_u8 bits).map _)
  | classRef name => exact hTag ((reads_u2 name).map _)
  | string value => exact hTag ((reads_u2 value).map _)
  | member kind owner value =>
    cases kind <;> exact hTag ((reads_u2 owner).bind ((reads_u2 value).map _))
  | nameAndType name descriptor =>
    exact hTag ((reads_u2 name).bind ((reads_u2 descriptor).map _))
  | methodHandle kind reference =>
    exact hTag ((reads_u1 kind).bind ((reads_u2 reference).map _))
  | methodType descriptor => exact hTag ((reads_u2 descriptor).map _)
  | dynamic bootstrap value =>
    exact hTag ((reads_u2 bootstrap).bind ((reads_u2 value).map _))
  | invokeDynamic bootstrap value =>
    exact hTag ((reads_u2 bootstrap).bind ((reads_u2 value).map _))
  | module name => exact hTag ((reads_u2 name).map _)
  | package name => exact hTag ((reads_u2 name).map _)

theorem decode_eq_ok {s t : Bytes} {e : PoolEntry} (h : decode s = .ok (e, t)) :
    e ≠ .empty ∧ e.Short := by
  obtain ⟨tag, s₁, -, h⟩ := Stateful.bind_eq_ok.mp h
  split at h
  case h_1 =>
    obtain ⟨n, s₂, -, h⟩ := Stateful.bind_eq_ok.mp h
    obtain ⟨bytes, s₃, hTake, h⟩ := Stateful.bind_eq_ok.mp h
    obtain ⟨-, hLength⟩ := Decoder.take_eq_ok.mp hTake
    cases hValue : ModifiedUtf8.decode bytes with
    | error fault =>
      rw [hValue] at h
      exact absurd h Stateful.throw_ne_ok
    | ok value =>
      rw [hValue] at h
      obtain ⟨rfl, -⟩ := Stateful.pure_eq_ok.mp h
      refine ⟨PoolEntry.noConfusion, ?_⟩
      rw [Short, ModifiedUtf8.encode_eq_of_decode hValue, hLength]
      exact Nat.le_of_lt_succ n.toNat_lt
  case h_18 => exact absurd h Stateful.throw_ne_ok
  all_goals
    simp only [Stateful.bind_eq_ok, Stateful.pure_eq_ok] at h
    grind [Short]

end PoolEntry

namespace Pool

open Decoder in
theorem reads_decodeEntries {es : List PoolEntry} (hLaid : PoolEntry.Laid es)
    (hShort : ∀ e ∈ es, e.Short) (slots fuel : Nat) (entries : Array PoolEntry)
    (hSlots : entries.size + es.length = slots) (hFuel : es.length ≤ fuel) :
    Reads (decodeEntries slots fuel entries) (es.map PoolEntry.encode).flatten
      (entries ++ es.toArray) := by
  induction hLaid generalizing fuel entries with
  | nil =>
    have hDone : ¬ entries.size < slots := by simp at hSlots; omega
    cases fuel with
    | zero => simpa [decodeEntries] using Reads.pure entries
    | succ fuel => simpa [decodeEntries, hDone] using Reads.pure entries
  | @single e es hEntry hWide _ ih =>
    obtain ⟨hHead, hTail⟩ := List.forall_mem_cons.mp hShort
    rw [List.length_cons] at hSlots hFuel
    cases fuel with
    | zero => omega
    | succ fuel =>
      have ih := ih hTail fuel (entries.push e) (by rw [Array.size_push]; omega) (by omega)
      rw [decodeEntries, if_pos (by omega)]
      refine (PoolEntry.reads_decode hEntry hHead).bind ?_
      rw [hWide]
      simpa using ih
  | @double e es hWide _ ih =>
    obtain ⟨hHead, hTail⟩ := List.forall_mem_cons.mp hShort
    rw [List.length_cons, List.length_cons] at hSlots hFuel
    cases fuel with
    | zero => omega
    | succ fuel =>
      have ih := ih (List.forall_mem_cons.mp hTail).2 fuel ((entries.push e).push .empty)
        (by rw [Array.size_push, Array.size_push]; omega) (by omega)
      rw [decodeEntries, if_pos (by omega)]
      refine (PoolEntry.reads_decode (PoolEntry.ne_empty_of_isWide hWide) hHead).bind ?_
      rw [hWide]
      simpa [PoolEntry.encode] using ih

theorem decodeEntries_eq_ok {slots fuel : Nat} {entries entries' : Array PoolEntry} {s t : Bytes}
    (h : decodeEntries slots fuel entries s = .ok (entries', t)) :
    ∃ es, entries'.toList = entries.toList ++ es ∧ PoolEntry.Laid es ∧ ∀ e ∈ es, e.Short := by
  induction fuel generalizing entries s with
  | zero =>
    obtain ⟨rfl, -⟩ := Stateful.pure_eq_ok.mp h
    exact ⟨[], by simp, .nil, by simp⟩
  | succ fuel ih =>
    rw [decodeEntries] at h
    split at h
    · obtain ⟨e, r, hEntry, h⟩ := Stateful.bind_eq_ok.mp h
      obtain ⟨hNonempty, hShort⟩ := PoolEntry.decode_eq_ok hEntry
      obtain ⟨es, hes, hLaid, hTail⟩ := ih h
      by_cases hWide : e.isWide = true
      · refine ⟨e :: .empty :: es, ?_, .double hWide hLaid, ?_⟩
        · simpa [hWide] using hes
        · simpa [PoolEntry.Short] using ⟨hShort, hTail⟩
      · refine ⟨e :: es, ?_, .single hNonempty (by simpa using hWide) hLaid, ?_⟩
        · simpa [hWide] using hes
        · simpa using ⟨hShort, hTail⟩
    · obtain ⟨rfl, -⟩ := Stateful.pure_eq_ok.mp h
      exact ⟨[], by simp, .nil, by simp⟩

/-- What holds of every pool that is read. -/
structure Complete (P : Pool) : Prop where
  size_le : P.entries.size ≤ 65534
  laid : PoolEntry.Laid P.entries.toList
  short : ∀ e ∈ P.entries.toList, e.Short

theorem decode_eq_ok {P : Pool} {s t : Bytes} (h : decode s = .ok (P, t)) : P.Complete := by
  obtain ⟨n, s₁, -, h⟩ := Stateful.bind_eq_ok.mp h
  dsimp only at h
  split at h
  · rw [Stateful.throw_bind] at h
    exact absurd h Stateful.throw_ne_ok
  obtain ⟨entries, s₂, hEntries, h⟩ := Stateful.bind_eq_ok.mp h
  obtain ⟨es, hes, hLaid, hShort⟩ := decodeEntries_eq_ok hEntries
  split at h
  · rw [Stateful.throw_bind] at h
    exact absurd h Stateful.throw_ne_ok
  · rename_i hn hSlots
    obtain ⟨rfl, -⟩ := Stateful.pure_eq_ok.mp h
    have hLt := n.toNat_lt
    have hSize : entries.size ≤ 65534 := by omega
    rw [List.nil_append] at hes
    subst hes
    exact ⟨hSize, hLaid, hShort⟩

def encode (P : Pool) : Bytes :=
  Bytes.u2 (UInt16.ofNat (P.entries.size + 1)) ++ (P.entries.toList.map PoolEntry.encode).flatten

theorem reads_decode {P : Pool} (h : P.Complete) : Decoder.Reads decode P.encode P := by
  have hSize := h.size_le
  have hCount : (UInt16.ofNat (P.entries.size + 1)).toNat = P.entries.size + 1 := by
    rw [UInt16.toNat_ofNat', Nat.mod_eq_of_lt (by omega)]
  have hNonzero : UInt16.ofNat (P.entries.size + 1) ≠ 0 := by
    rw [ne_eq, ← UInt16.toNat_inj, hCount]
    exact Nat.succ_ne_zero _
  have hEntries := reads_decodeEntries h.laid h.short P.entries.size P.entries.size #[] (by simp)
    (by simp)
  refine (Decoder.reads_u2 _).bind ?_
  dsimp only
  rw [if_neg hNonzero, hCount, Nat.add_sub_cancel]
  refine (hEntries.bind ?_).of_eq (List.append_nil _).symm
  have hAll : #[] ++ P.entries.toList.toArray = P.entries := by simp
  rw [hAll, if_neg (by simp)]
  exact Decoder.Reads.pure _

end Pool

end Renaming
