import Renaming.ClassFile.Attribute.Decode
import Renaming.ClassFile.Attribute.Encode
import Renaming.Proofs.ClassFile.Annotation
import Renaming.Proofs.ClassFile.Bytecode

/-!
# Table entries that are written can be read

The entries of the tables inside attributes: what can be read of each kind, and that what is
written for such an entry is read back as that entry.
-/

namespace Renaming

open Stateful Decoder

variable {P : Pool} {K : Constant → Prop} {s t : Bytes}

theorem Pool.optional_eq_ok {α : Type} {lookup : UInt16 → Except ReadError α} {i : UInt16}
    {a : Option α} (h : Pool.optional lookup i = .ok a) : ∀ c ∈ a, lookup i = .ok c := by
  unfold Pool.optional at h
  split at h
  · cases h
    simp
  · obtain ⟨c, hc, rfl⟩ := Outcome.map_eq_ok.mp h
    simpa using hc

theorem emits_optionalClass (hK : Constant.Closed K) {a : Option String}
    (h : ∀ c ∈ a, K (.classRef c)) :
    Encoder.Emits K (PoolBuilder.optional PoolBuilder.className a)
      fun P i => Pool.optional P.className i = .ok a :=
  Encoder.emits_optional fun c hc => (Encoder.emits_className hK (h c hc)).imp
    fun _ _ hi => ⟨hi.pos, Pool.className_eq_ok.mpr hi⟩

theorem emits_optionalUtf8 (hK : Constant.Closed K) {a : Option String}
    (h : ∀ c ∈ a, K (.utf8 c)) :
    Encoder.Emits K (PoolBuilder.optional PoolBuilder.utf8 a)
      fun P i => Pool.optional P.utf8 i = .ok a :=
  Encoder.emits_optional fun c hc => (Encoder.emits_utf8 hK (h c hc)).imp
    fun _ _ hi => ⟨hi.pos, Pool.utf8_eq_ok.mpr hi⟩

theorem emits_optionalNameAndType (hK : Constant.Closed K) {a : Option NameAndType}
    (h : ∀ c ∈ a, K (.nameAndType c)) :
    Encoder.Emits K (PoolBuilder.optional PoolBuilder.nameAndType a)
      fun P i => Pool.optional P.nameAndType i = .ok a :=
  Encoder.emits_optional fun c hc => (Encoder.emits_nameAndType hK (h c hc)).imp
    fun _ _ hi => ⟨hi.pos, Pool.nameAndType_eq_ok.mpr hi⟩

theorem holds_of_optionalClass {i : UInt16} {a : Option String}
    (h : Pool.optional P.className i = .ok a) : ∀ c ∈ a, P.Holds (.classRef c) :=
  fun c hc => (Pool.className_eq_ok.mp (Pool.optional_eq_ok h c hc)).holds

theorem holds_of_optionalUtf8 {i : UInt16} {a : Option String}
    (h : Pool.optional P.utf8 i = .ok a) : ∀ c ∈ a, P.Holds (.utf8 c) :=
  fun c hc => (Pool.utf8_eq_ok.mp (Pool.optional_eq_ok h c hc)).holds

section References

theorem reads_reference {α : Type} {lookup : UInt16 → Except ReadError α} {i : UInt16} {a : α}
    (h : lookup i = .ok a) : Reads (do lookup (← Decoder.u2)) (Bytes.u2 i) a := by
  refine Reads.of_eq (Reads.bind (reads_u2 i) ?_) (List.append_nil _).symm
  exact Reads.lift h

theorem reference_eq_ok {α : Type} {lookup : UInt16 → Except ReadError α} {a : α}
    (h : (do lookup (← Decoder.u2) : Decoder α) s = .ok (a, t)) : ∃ i, lookup i = .ok a := by
  obtain ⟨i, _, -, h⟩ := bind_eq_ok.mp h
  exact ⟨i, (lift_eq_ok.mp h).1⟩

theorem emits_index {α : Type} {index : Encoder UInt16}
    {lookup : Pool → UInt16 → Except ReadError α} {a : α}
    (h : Encoder.Emits K index fun P i => lookup P i = .ok a) :
    Encoder.Emits K (Encoder.index index) fun P bs =>
      Reads (do lookup P (← Decoder.u2)) bs a := by
  rw [Encoder.index, map_eq_pure_bind]
  exact h.bind fun i => .pure fun P hi => reads_reference hi

theorem emits_classIndex (hK : Constant.Closed K) {name : String} (h : K (.classRef name)) :
    Encoder.Emits K (Encoder.index (PoolBuilder.className name)) fun P bs =>
      Reads (do P.className (← Decoder.u2)) bs name :=
  emits_index ((Encoder.emits_className hK h).imp fun _ _ => Pool.className_eq_ok.mpr)

theorem emits_utf8Index (hK : Constant.Closed K) {text : String} (h : K (.utf8 text)) :
    Encoder.Emits K (Encoder.index (PoolBuilder.utf8 text)) fun P bs =>
      Reads (do P.utf8 (← Decoder.u2)) bs text :=
  emits_index ((Encoder.emits_utf8 hK h).imp fun _ _ => Pool.utf8_eq_ok.mpr)

theorem emits_classes (hK : Constant.Closed K) {table : String} {names : List String}
    (h : ∀ n ∈ names, K (.classRef n)) :
    Encoder.Emits K (Encoder.classes table names) fun P bs =>
      Reads (Decoder.list do P.className (← Decoder.u2)) bs names :=
  Encoder.emits_list fun n hn => emits_classIndex hK (h n hn)

theorem holds_of_classes {names : List String}
    (h : (Decoder.list do P.className (← Decoder.u2)) s = .ok (names, t)) :
    ∀ n ∈ names, P.Holds (.classRef n) := by
  intro n hn
  obtain ⟨s', t', hItem⟩ := Decoder.list_eq_ok h n hn
  obtain ⟨i, hi⟩ := reference_eq_ok hItem
  exact (Pool.className_eq_ok.mp hi).holds

end References

namespace ExceptionHandler

def WellFormed (K : Constant → Prop) (h : ExceptionHandler) : Prop :=
  ∀ c ∈ h.caught, K (.classRef c)

theorem wellFormed_of_decode {h : ExceptionHandler} (hRun : decode P s = .ok (h, t)) :
    h.WellFormed P.Holds := by
  obtain ⟨start, _, -, hRun⟩ := bind_eq_ok.mp hRun
  obtain ⟨stop, _, -, hRun⟩ := bind_eq_ok.mp hRun
  obtain ⟨handler, _, -, hRun⟩ := bind_eq_ok.mp hRun
  obtain ⟨i, _, -, hRun⟩ := bind_eq_ok.mp hRun
  obtain ⟨caught, _, hCaught, hRun⟩ := bind_eq_ok.mp hRun
  obtain ⟨rfl, -⟩ := pure_eq_ok.mp hRun
  exact holds_of_optionalClass (lift_eq_ok.mp hCaught).1

theorem emits_encode (hK : Constant.Closed K) {h : ExceptionHandler} (hh : h.WellFormed K) :
    Encoder.Emits K h.encode fun P bs => Reads (decode P) bs h := by
  refine (emits_optionalClass hK hh).bind fun i => .pure fun P hi => ?_
  simp only [List.append_assoc]
  exact (reads_u2 _).bind ((reads_u2 _).bind ((reads_u2 _).bind ((reads_u2 i).bind
    (Reads.lift_bind hi (Reads.pure h)))))

end ExceptionHandler

namespace VerificationType

def WellFormed (K : Constant → Prop) : VerificationType → Prop
  | object name => K (.classRef name)
  | _ => True

theorem wellFormed_of_decode {v : VerificationType} (h : decode P s = .ok (v, t)) :
    v.WellFormed P.Holds := by
  obtain ⟨tag, _, -, h⟩ := bind_eq_ok.mp h
  split at h
  case h_8 =>
    obtain ⟨i, _, -, h⟩ := bind_eq_ok.mp h
    obtain ⟨name, _, hName, h⟩ := bind_eq_ok.mp h
    obtain ⟨rfl, -⟩ := pure_eq_ok.mp h
    exact (Pool.className_eq_ok.mp (lift_eq_ok.mp hName).1).holds
  case h_9 =>
    obtain ⟨offset, _, -, h⟩ := bind_eq_ok.mp h
    obtain ⟨rfl, -⟩ := pure_eq_ok.mp h
    trivial
  case h_10 => exact absurd h throw_ne_ok
  all_goals
    obtain ⟨rfl, -⟩ := pure_eq_ok.mp h
    trivial

theorem emits_encode (hK : Constant.Closed K) {v : VerificationType} (hv : v.WellFormed K) :
    Encoder.Emits K v.encode fun P bs => Reads (decode P) bs v := by
  cases v with
  | object name =>
    refine (Encoder.emits_className hK hv).bind fun i => .pure fun P hi => ?_
    exact (reads_u1 7).bind ((reads_u2 i).bind
      (Reads.lift_bind (Pool.className_eq_ok.mpr hi) (Reads.pure _)))
  | uninitialized offset =>
    exact .pure fun P => (reads_u1 8).bind ((reads_u2 offset).map VerificationType.uninitialized)
  | top => exact .pure fun P => (reads_u1 0).bind (Reads.pure _)
  | integer => exact .pure fun P => (reads_u1 1).bind (Reads.pure _)
  | float => exact .pure fun P => (reads_u1 2).bind (Reads.pure _)
  | double => exact .pure fun P => (reads_u1 3).bind (Reads.pure _)
  | long => exact .pure fun P => (reads_u1 4).bind (Reads.pure _)
  | null => exact .pure fun P => (reads_u1 5).bind (Reads.pure _)
  | uninitializedThis => exact .pure fun P => (reads_u1 6).bind (Reads.pure _)

end VerificationType

namespace StackMapFrame

/-- The tags that stand for each kind of frame. -/
def WellFormed (K : Constant → Prop) : StackMapFrame → Prop
  | same tag => tag < 64
  | sameOne tag stack => ¬ tag < 64 ∧ tag < 128 ∧ stack.WellFormed K
  | sameOneExtended _ stack => stack.WellFormed K
  | chop tag _ => ¬ tag < 247 ∧ tag ≠ 247 ∧ tag < 251
  | sameExtended _ => True
  | append tag _ locals => ¬ tag < 251 ∧ tag ≠ 251 ∧ tag < 255 ∧
      locals.length = tag.toNat - 251 ∧ ∀ v ∈ locals, v.WellFormed K
  | full _ locals stack => (∀ v ∈ locals, v.WellFormed K) ∧ ∀ v ∈ stack, v.WellFormed K

theorem wellFormed_of_decode {f : StackMapFrame} (h : decode P s = .ok (f, t)) :
    f.WellFormed P.Holds := by
  obtain ⟨tag, _, -, h⟩ := bind_eq_ok.mp h
  split at h
  · rename_i hSame
    obtain ⟨rfl, -⟩ := pure_eq_ok.mp h
    exact hSame
  split at h
  · rename_i hSame hOne
    obtain ⟨v, _, hv, h⟩ := bind_eq_ok.mp h
    obtain ⟨rfl, -⟩ := pure_eq_ok.mp h
    exact ⟨hSame, hOne, VerificationType.wellFormed_of_decode hv⟩
  split at h
  · exact absurd h throw_ne_ok
  rename_i hHigh
  obtain ⟨delta, _, -, h⟩ := bind_eq_ok.mp h
  split at h
  · obtain ⟨v, _, hv, h⟩ := bind_eq_ok.mp h
    obtain ⟨rfl, -⟩ := pure_eq_ok.mp h
    exact VerificationType.wellFormed_of_decode hv
  rename_i hExtended
  split at h
  · rename_i hChop
    obtain ⟨rfl, -⟩ := pure_eq_ok.mp h
    exact ⟨hHigh, hExtended, hChop⟩
  rename_i hChop
  split at h
  · obtain ⟨rfl, -⟩ := pure_eq_ok.mp h
    trivial
  rename_i hSameExtended
  split at h
  · rename_i hAppend
    obtain ⟨locals, _, hLocals, h⟩ := bind_eq_ok.mp h
    obtain ⟨rfl, -⟩ := pure_eq_ok.mp h
    obtain ⟨hLength, hItems⟩ := count_eq_ok hLocals
    refine ⟨hChop, hSameExtended, hAppend, hLength, fun v hv => ?_⟩
    obtain ⟨s', t', hItem⟩ := hItems v hv
    exact VerificationType.wellFormed_of_decode hItem
  · obtain ⟨locals, _, hLocals, h⟩ := bind_eq_ok.mp h
    obtain ⟨stack, _, hStack, h⟩ := bind_eq_ok.mp h
    obtain ⟨rfl, -⟩ := pure_eq_ok.mp h
    refine ⟨fun v hv => ?_, fun v hv => ?_⟩
    · obtain ⟨s', t', hItem⟩ := list_eq_ok hLocals v hv
      exact VerificationType.wellFormed_of_decode hItem
    · obtain ⟨s', t', hItem⟩ := list_eq_ok hStack v hv
      exact VerificationType.wellFormed_of_decode hItem

theorem not_lt_of_not_lt {a b c : UInt8} (h : ¬ a < b) (hcb : c ≤ b) : ¬ a < c := by
  rw [UInt8.lt_iff_toNat_lt] at h ⊢
  rw [UInt8.le_iff_toNat_le] at hcb
  omega

theorem emits_encode (hK : Constant.Closed K) {f : StackMapFrame} (hf : f.WellFormed K) :
    Encoder.Emits K f.encode fun P bs => Reads (decode P) bs f := by
  cases f with
  | same tag =>
    refine .pure fun P => (reads_u1 tag).bind ?_
    have hSame : tag < 64 := hf
    rw [if_pos hSame]
    exact Reads.pure _
  | sameOne tag stack =>
    obtain ⟨hSame, hOne, hStack⟩ := hf
    refine (VerificationType.emits_encode hK hStack).bind fun bs => .pure fun P hBs => ?_
    refine (reads_u1 tag).bind ?_
    rw [if_neg hSame, if_pos hOne]
    exact hBs.map _
  | sameOneExtended delta stack =>
    refine (VerificationType.emits_encode hK hf).bind fun bs => .pure fun P hBs => ?_
    exact (reads_u1 247).bind ((reads_u2 delta).bind (hBs.map (sameOneExtended delta)))
  | chop tag delta =>
    obtain ⟨hHigh, hExtended, hChop⟩ := hf
    refine .pure fun P => (reads_u1 tag).bind ?_
    rw [if_neg (not_lt_of_not_lt hHigh (by decide)), if_neg (not_lt_of_not_lt hHigh (by decide)),
      if_neg hHigh]
    refine Reads.of_eq ((reads_u2 delta).bind ?_) (List.append_nil _).symm
    rw [if_neg hExtended, if_pos hChop]
    exact Reads.pure _
  | sameExtended delta =>
    exact .pure fun P => (reads_u1 251).bind ((reads_u2 delta).map sameExtended)
  | append tag delta locals =>
    obtain ⟨hChop, hSameExtended, hAppend, hLength, hLocals⟩ := hf
    refine (Encoder.emits_each fun v hv => VerificationType.emits_encode hK (hLocals v hv)).bind
      fun bs => .pure fun P hBs => ?_
    obtain ⟨pieces, hPieces, rfl⟩ := hBs
    rw [List.cons_append]
    have hExtended : tag ≠ 247 := by
      rintro rfl
      exact hChop (by decide)
    refine (reads_u1 tag).bind ?_
    rw [if_neg (not_lt_of_not_lt hChop (by decide)), if_neg (not_lt_of_not_lt hChop (by decide)),
      if_neg (not_lt_of_not_lt hChop (by decide))]
    refine (reads_u2 delta).bind ?_
    rw [if_neg hExtended, if_neg hChop, if_neg hSameExtended, if_pos hAppend, ← hLength]
    exact (reads_count hPieces).map (append tag delta)
  | full delta locals stack =>
    obtain ⟨hLocals, hStack⟩ := hf
    refine (Encoder.emits_list fun v hv => VerificationType.emits_encode hK (hLocals v hv)).bind
      fun bs => (Encoder.emits_list fun v hv => VerificationType.emits_encode hK (hStack v hv)).bind
      fun cs => .pure fun P hCs hBs => ?_
    rw [List.cons_append, List.cons_append, List.append_assoc]
    exact (reads_u1 255).bind ((reads_u2 delta).bind (hBs.bind (hCs.map (full delta locals))))

end StackMapFrame

namespace InnerClass

structure WellFormed (K : Constant → Prop) (c : InnerClass) : Prop where
  inner : K (.classRef c.inner)
  outer : ∀ n ∈ c.outer, K (.classRef n)
  name : ∀ n ∈ c.name, K (.utf8 n)

theorem wellFormed_of_decode {c : InnerClass} (h : decode P s = .ok (c, t)) :
    c.WellFormed P.Holds := by
  obtain ⟨_, _, -, h⟩ := bind_eq_ok.mp h
  obtain ⟨_, _, -, h⟩ := bind_eq_ok.mp h
  obtain ⟨_, _, -, h⟩ := bind_eq_ok.mp h
  obtain ⟨_, _, -, h⟩ := bind_eq_ok.mp h
  obtain ⟨inner, _, hInner, h⟩ := bind_eq_ok.mp h
  obtain ⟨outer, _, hOuter, h⟩ := bind_eq_ok.mp h
  obtain ⟨name, _, hName, h⟩ := bind_eq_ok.mp h
  obtain ⟨rfl, -⟩ := pure_eq_ok.mp h
  exact ⟨(Pool.className_eq_ok.mp (lift_eq_ok.mp hInner).1).holds,
    holds_of_optionalClass (lift_eq_ok.mp hOuter).1, holds_of_optionalUtf8 (lift_eq_ok.mp hName).1⟩

theorem emits_encode (hK : Constant.Closed K) {c : InnerClass} (hc : c.WellFormed K) :
    Encoder.Emits K c.encode fun P bs => Reads (decode P) bs c := by
  refine (Encoder.emits_className hK hc.inner).bind fun i => (emits_optionalClass hK hc.outer).bind
    fun j => (emits_optionalUtf8 hK hc.name).bind fun k => .pure fun P hk hj hi => ?_
  simp only [List.append_assoc]
  refine (reads_u2 i).bind ((reads_u2 j).bind ((reads_u2 k).bind ?_))
  refine Reads.of_eq ((reads_u2 c.access).bind ?_) (List.append_nil _).symm
  exact Reads.lift_bind (Pool.className_eq_ok.mpr hi) (Reads.lift_bind hj
    (Reads.lift_bind hk (Reads.pure c)))

end InnerClass

namespace LocalVariable

structure WellFormed (K : Constant → Prop) (v : LocalVariable) : Prop where
  name : K (.utf8 v.name)
  descriptor : K (.utf8 v.descriptor)

theorem wellFormed_of_decode {v : LocalVariable} (h : decode P s = .ok (v, t)) :
    v.WellFormed P.Holds := by
  obtain ⟨_, _, -, h⟩ := bind_eq_ok.mp h
  obtain ⟨_, _, -, h⟩ := bind_eq_ok.mp h
  obtain ⟨_, _, -, h⟩ := bind_eq_ok.mp h
  obtain ⟨_, _, -, h⟩ := bind_eq_ok.mp h
  obtain ⟨_, _, -, h⟩ := bind_eq_ok.mp h
  obtain ⟨name, _, hName, h⟩ := bind_eq_ok.mp h
  obtain ⟨descriptor, _, hDescriptor, h⟩ := bind_eq_ok.mp h
  obtain ⟨rfl, -⟩ := pure_eq_ok.mp h
  exact ⟨(Pool.utf8_eq_ok.mp (lift_eq_ok.mp hName).1).holds,
    (Pool.utf8_eq_ok.mp (lift_eq_ok.mp hDescriptor).1).holds⟩

theorem emits_encode (hK : Constant.Closed K) {v : LocalVariable} (hv : v.WellFormed K) :
    Encoder.Emits K v.encode fun P bs => Reads (decode P) bs v := by
  refine (Encoder.emits_utf8 hK hv.name).bind fun i => (Encoder.emits_utf8 hK hv.descriptor).bind
    fun j => .pure fun P hj hi => ?_
  simp only [List.append_assoc]
  refine (reads_u2 v.start).bind ((reads_u2 v.length).bind ((reads_u2 i).bind
    ((reads_u2 j).bind ?_)))
  refine Reads.of_eq ((reads_u2 v.index).bind ?_) (List.append_nil _).symm
  exact Reads.lift_bind (Pool.utf8_eq_ok.mpr hi) (Reads.lift_bind (Pool.utf8_eq_ok.mpr hj)
    (Reads.pure v))

end LocalVariable

theorem LineNumber.reads_decode (l : LineNumber) : Reads decode l.encode l :=
  (reads_u2 l.start).bind ((reads_u2 l.line).map fun v => (⟨l.start, v⟩ : LineNumber))

namespace TypeAnnotation

/-- The bytes of a target: a tag, what the tag asks for, and a counted path. -/
structure WellFormedTarget (target : Bytes) : Prop where
  shape : ∃ (tag : UInt8) (info : Bytes) (n : UInt8) (path : Bytes),
    target = tag :: (info ++ n :: path) ∧ Reads (targetInfo tag) info info ∧
      path.length = 2 * n.toNat

structure WellFormed (K : Constant → Prop) (a : TypeAnnotation) : Prop where
  target : WellFormedTarget a.target
  annotation : a.annotation.WellFormed K

def Copies (d : Decoder Bytes) : Prop := ∀ s bs t, d s = .ok (bs, t) → Reads d bs bs

theorem copies_take (n : Nat) : Copies (take n) :=
  fun _ _ _ h => reads_take (take_eq_ok.mp h).2

theorem copies_table :
    Copies (do let count ← Decoder.u2; return Bytes.u2 count ++ (← take (6 * count.toNat))) := by
  intro s bs t h
  obtain ⟨count, _, -, h⟩ := bind_eq_ok.mp h
  obtain ⟨entries, _, hEntries, h⟩ := bind_eq_ok.mp h
  obtain ⟨rfl, -⟩ := pure_eq_ok.mp h
  refine (reads_u2 count).bind ?_
  exact (reads_take (take_eq_ok.mp hEntries).2).map fun v => Bytes.u2 count ++ v

theorem copies_targetInfo (tag : UInt8) : Copies (targetInfo tag) := by
  unfold targetInfo
  split
  · exact copies_take 1
  split
  · exact copies_take 2
  split
  · intro s bs t h
    obtain ⟨rfl, -⟩ := pure_eq_ok.mp h
    exact Reads.pure []
  split
  · exact copies_table
  split
  · exact copies_take 3
  · intro s bs t h
    exact absurd h throw_ne_ok

theorem wellFormed_of_decode {a : TypeAnnotation} (h : decode P s = .ok (a, t)) :
    a.WellFormed P.Holds := by
  obtain ⟨tag, _, -, h⟩ := bind_eq_ok.mp h
  obtain ⟨info, _, hInfo, h⟩ := bind_eq_ok.mp h
  obtain ⟨n, _, -, h⟩ := bind_eq_ok.mp h
  obtain ⟨path, _, hPath, h⟩ := bind_eq_ok.mp h
  obtain ⟨value, _, hValue, h⟩ := bind_eq_ok.mp h
  obtain ⟨rfl, -⟩ := pure_eq_ok.mp h
  exact ⟨⟨tag, info, n, path, rfl, copies_targetInfo tag _ _ _ hInfo, (take_eq_ok.mp hPath).2⟩,
    Annotation.wellFormed_of_decode hValue⟩

theorem emits_encode (hK : Constant.Closed K) {a : TypeAnnotation} (ha : a.WellFormed K) :
    Encoder.Emits K a.encode fun P bs => Reads (decode P) bs a := by
  obtain ⟨target, annotation⟩ := a
  obtain ⟨⟨tag, info, n, path, hTarget, hInfo, hPath⟩, hAnnotation⟩ := ha
  dsimp only at hTarget
  subst hTarget
  have hEmits := Annotation.emits_encode hK hAnnotation
  refine hEmits.bind fun bs => .pure fun P hBs => ?_
  simp only [List.cons_append, List.append_assoc]
  refine (reads_u1 tag).bind (hInfo.bind ((reads_u1 n).bind ((reads_take hPath).bind ?_)))
  exact hBs.map fun v => (⟨tag :: info ++ n :: path, v⟩ : TypeAnnotation)

end TypeAnnotation

namespace BootstrapMethod

structure WellFormed (K : Constant → Prop) (m : BootstrapMethod) : Prop where
  handle : ∃ kind reference, m.method = .methodHandle kind reference
  method : K m.method
  arguments : ∀ c ∈ m.arguments, K c ∧ c.isLoadable = true

theorem wellFormed_of_decode {m : BootstrapMethod} (h : decode P s = .ok (m, t)) :
    m.WellFormed P.Holds := by
  obtain ⟨i, _, -, h⟩ := bind_eq_ok.mp h
  obtain ⟨arguments, _, hArguments, h⟩ := bind_eq_ok.mp h
  obtain ⟨c, _, hc, h⟩ := bind_eq_ok.mp h
  have hNames := Pool.constant_eq_ok.mp (lift_eq_ok.mp hc).1
  cases c with
  | methodHandle kind reference =>
    obtain ⟨rfl, -⟩ := pure_eq_ok.mp h
    refine ⟨⟨kind, reference, rfl⟩, hNames.holds, fun c hc => ?_⟩
    obtain ⟨s', t', hItem⟩ := list_eq_ok hArguments c hc
    obtain ⟨j, hj⟩ := reference_eq_ok hItem
    obtain ⟨hNames, hLoadable⟩ := Pool.loadable_eq_ok.mp hj
    exact ⟨hNames.holds, hLoadable⟩
  | _ => exact absurd h throw_ne_ok

theorem emits_encode (hK : Constant.Closed K) {m : BootstrapMethod} (hm : m.WellFormed K) :
    Encoder.Emits K m.encode fun P bs => Reads (decode P) bs m := by
  obtain ⟨kind, reference, hHandle⟩ := hm.handle
  have hArguments : ∀ c ∈ m.arguments, Encoder.Emits K (Encoder.index (PoolBuilder.constant c))
      fun P bs => Reads (do P.loadable (← Decoder.u2)) bs c := by
    intro c hc
    obtain ⟨hMem, hLoadable⟩ := hm.arguments c hc
    exact emits_index ((Encoder.emits_constant hK hMem).imp
      fun _ _ hi => Pool.loadable_eq_ok.mpr ⟨hi, hLoadable⟩)
  refine (Encoder.emits_constant hK hm.method).bind fun i => (Encoder.emits_list hArguments).bind
    fun bs => .pure fun P hBs hi => ?_
  refine (reads_u2 i).bind (Reads.of_eq (hBs.bind ?_) (List.append_nil _).symm)
  refine Reads.lift_bind (Pool.constant_eq_ok.mpr hi) ?_
  rw [hHandle]
  have hMethod : m = ⟨.methodHandle kind reference, m.arguments⟩ := by rw [← hHandle]
  exact (congrArg (Reads _ []) hMethod).mpr (Reads.pure _)

end BootstrapMethod

namespace MethodParameter

def WellFormed (K : Constant → Prop) (p : MethodParameter) : Prop :=
  ∀ n ∈ p.name, K (.utf8 n)

theorem wellFormed_of_decode {p : MethodParameter} (h : decode P s = .ok (p, t)) :
    p.WellFormed P.Holds := by
  obtain ⟨_, _, -, h⟩ := bind_eq_ok.mp h
  obtain ⟨_, _, -, h⟩ := bind_eq_ok.mp h
  obtain ⟨name, _, hName, h⟩ := bind_eq_ok.mp h
  obtain ⟨rfl, -⟩ := pure_eq_ok.mp h
  exact holds_of_optionalUtf8 (lift_eq_ok.mp hName).1

theorem emits_encode (hK : Constant.Closed K) {p : MethodParameter} (hp : p.WellFormed K) :
    Encoder.Emits K p.encode fun P bs => Reads (decode P) bs p := by
  refine (emits_optionalUtf8 hK hp).bind fun i => .pure fun P hi => ?_
  refine (reads_u2 i).bind (Reads.of_eq ((reads_u2 p.access).bind ?_) (List.append_nil _).symm)
  exact Reads.lift_bind hi (Reads.pure p)

end MethodParameter

namespace ModuleRequire

structure WellFormed (K : Constant → Prop) (r : ModuleRequire) : Prop where
  module : K (.module r.module)
  version : ∀ v ∈ r.version, K (.utf8 v)

theorem wellFormed_of_decode {r : ModuleRequire} (h : decode P s = .ok (r, t)) :
    r.WellFormed P.Holds := by
  obtain ⟨_, _, -, h⟩ := bind_eq_ok.mp h
  obtain ⟨_, _, -, h⟩ := bind_eq_ok.mp h
  obtain ⟨_, _, -, h⟩ := bind_eq_ok.mp h
  obtain ⟨module, _, hModule, h⟩ := bind_eq_ok.mp h
  obtain ⟨version, _, hVersion, h⟩ := bind_eq_ok.mp h
  obtain ⟨rfl, -⟩ := pure_eq_ok.mp h
  exact ⟨(Pool.moduleName_eq_ok.mp (lift_eq_ok.mp hModule).1).holds,
    holds_of_optionalUtf8 (lift_eq_ok.mp hVersion).1⟩

theorem emits_encode (hK : Constant.Closed K) {r : ModuleRequire} (hr : r.WellFormed K) :
    Encoder.Emits K r.encode fun P bs => Reads (decode P) bs r := by
  refine (Encoder.emits_moduleName hK hr.module).bind fun i =>
    (emits_optionalUtf8 hK hr.version).bind fun j => .pure fun P hj hi => ?_
  simp only [List.append_assoc]
  refine (reads_u2 i).bind ((reads_u2 r.flags).bind
    (Reads.of_eq ((reads_u2 j).bind ?_) (List.append_nil _).symm))
  exact Reads.lift_bind (Pool.moduleName_eq_ok.mpr hi) (Reads.lift_bind hj (Reads.pure r))

end ModuleRequire

namespace ModuleExport

structure WellFormed (K : Constant → Prop) (e : ModuleExport) : Prop where
  package : K (.package e.package)
  targets : ∀ n ∈ e.targets, K (.module n)

theorem wellFormed_of_decode {e : ModuleExport} (h : decode P s = .ok (e, t)) :
    e.WellFormed P.Holds := by
  obtain ⟨_, _, -, h⟩ := bind_eq_ok.mp h
  obtain ⟨_, _, -, h⟩ := bind_eq_ok.mp h
  obtain ⟨targets, _, hTargets, h⟩ := bind_eq_ok.mp h
  obtain ⟨package, _, hPackage, h⟩ := bind_eq_ok.mp h
  obtain ⟨rfl, -⟩ := pure_eq_ok.mp h
  refine ⟨(Pool.packageName_eq_ok.mp (lift_eq_ok.mp hPackage).1).holds, fun n hn => ?_⟩
  obtain ⟨s', t', hItem⟩ := list_eq_ok hTargets n hn
  obtain ⟨i, hi⟩ := reference_eq_ok hItem
  exact (Pool.moduleName_eq_ok.mp hi).holds

theorem emits_encode (hK : Constant.Closed K) {table : String} {e : ModuleExport}
    (he : e.WellFormed K) : Encoder.Emits K (e.encode table) fun P bs => Reads (decode P) bs e := by
  have hTargets : ∀ n ∈ e.targets, Encoder.Emits K (Encoder.index (PoolBuilder.moduleName n))
      fun P bs => Reads (do P.moduleName (← Decoder.u2)) bs n := fun n hn =>
    emits_index ((Encoder.emits_moduleName hK (he.targets n hn)).imp
      fun _ _ => Pool.moduleName_eq_ok.mpr)
  refine (Encoder.emits_packageName hK he.package).bind fun i => (Encoder.emits_list hTargets).bind
    fun bs => .pure fun P hBs hi => ?_
  simp only [List.append_assoc]
  refine (reads_u2 i).bind ((reads_u2 e.flags).bind
    (Reads.of_eq (hBs.bind ?_) (List.append_nil _).symm))
  exact Reads.lift_bind (Pool.packageName_eq_ok.mpr hi) (Reads.pure e)

end ModuleExport

namespace ModuleProvide

structure WellFormed (K : Constant → Prop) (p : ModuleProvide) : Prop where
  service : K (.classRef p.service)
  implementations : ∀ n ∈ p.implementations, K (.classRef n)

theorem wellFormed_of_decode {p : ModuleProvide} (h : decode P s = .ok (p, t)) :
    p.WellFormed P.Holds := by
  obtain ⟨_, _, -, h⟩ := bind_eq_ok.mp h
  obtain ⟨implementations, _, hImplementations, h⟩ := bind_eq_ok.mp h
  obtain ⟨service, _, hService, h⟩ := bind_eq_ok.mp h
  obtain ⟨rfl, -⟩ := pure_eq_ok.mp h
  exact ⟨(Pool.className_eq_ok.mp (lift_eq_ok.mp hService).1).holds,
    holds_of_classes hImplementations⟩

theorem emits_encode (hK : Constant.Closed K) {p : ModuleProvide} (hp : p.WellFormed K) :
    Encoder.Emits K p.encode fun P bs => Reads (decode P) bs p := by
  refine (Encoder.emits_className hK hp.service).bind fun i =>
    (emits_classes hK hp.implementations).bind fun bs => .pure fun P hBs hi => ?_
  refine (reads_u2 i).bind (Reads.of_eq (hBs.bind ?_) (List.append_nil _).symm)
  exact Reads.lift_bind (Pool.className_eq_ok.mpr hi) (Reads.pure p)

end ModuleProvide

namespace ModuleInfo

structure WellFormed (K : Constant → Prop) (m : ModuleInfo) : Prop where
  name : K (.module m.name)
  version : ∀ v ∈ m.version, K (.utf8 v)
  requires : ∀ r ∈ m.requires, r.WellFormed K
  exports : ∀ e ∈ m.exports, e.WellFormed K
  opens : ∀ e ∈ m.opens, e.WellFormed K
  uses : ∀ n ∈ m.uses, K (.classRef n)
  provides : ∀ p ∈ m.provides, p.WellFormed K

theorem wellFormed_of_decode {m : ModuleInfo} (h : decode P s = .ok (m, t)) :
    m.WellFormed P.Holds := by
  obtain ⟨_, _, -, h⟩ := bind_eq_ok.mp h
  obtain ⟨_, _, -, h⟩ := bind_eq_ok.mp h
  obtain ⟨_, _, -, h⟩ := bind_eq_ok.mp h
  obtain ⟨requires, _, hRequires, h⟩ := bind_eq_ok.mp h
  obtain ⟨exports, _, hExports, h⟩ := bind_eq_ok.mp h
  obtain ⟨opens, _, hOpens, h⟩ := bind_eq_ok.mp h
  obtain ⟨uses, _, hUses, h⟩ := bind_eq_ok.mp h
  obtain ⟨provides, _, hProvides, h⟩ := bind_eq_ok.mp h
  obtain ⟨name, _, hName, h⟩ := bind_eq_ok.mp h
  obtain ⟨version, _, hVersion, h⟩ := bind_eq_ok.mp h
  obtain ⟨rfl, -⟩ := pure_eq_ok.mp h
  refine ⟨(Pool.moduleName_eq_ok.mp (lift_eq_ok.mp hName).1).holds,
    holds_of_optionalUtf8 (lift_eq_ok.mp hVersion).1, fun r hr => ?_, fun e he => ?_,
    fun e he => ?_, holds_of_classes hUses, fun p hp => ?_⟩
  · obtain ⟨s', t', hItem⟩ := list_eq_ok hRequires r hr
    exact ModuleRequire.wellFormed_of_decode hItem
  · obtain ⟨s', t', hItem⟩ := list_eq_ok hExports e he
    exact ModuleExport.wellFormed_of_decode hItem
  · obtain ⟨s', t', hItem⟩ := list_eq_ok hOpens e he
    exact ModuleExport.wellFormed_of_decode hItem
  · obtain ⟨s', t', hItem⟩ := list_eq_ok hProvides p hp
    exact ModuleProvide.wellFormed_of_decode hItem

theorem emits_encode (hK : Constant.Closed K) {m : ModuleInfo} (hm : m.WellFormed K) :
    Encoder.Emits K m.encode fun P bs => Reads (decode P) bs m := by
  refine (Encoder.emits_moduleName hK hm.name).bind fun i =>
    (emits_optionalUtf8 hK hm.version).bind fun j =>
    (Encoder.emits_list fun r hr => ModuleRequire.emits_encode hK (hm.requires r hr)).bind
      fun requires =>
    (Encoder.emits_list fun e he => ModuleExport.emits_encode hK (hm.exports e he)).bind
      fun exports =>
    (Encoder.emits_list fun e he => ModuleExport.emits_encode hK (hm.opens e he)).bind fun opens =>
    (emits_classes hK hm.uses).bind fun uses =>
    (Encoder.emits_list fun p hp => ModuleProvide.emits_encode hK (hm.provides p hp)).bind
      fun provides => .pure fun P hProvides hUses hOpens hExports hRequires hj hi => ?_
  simp only [List.append_assoc]
  refine (reads_u2 i).bind ((reads_u2 m.flags).bind ((reads_u2 j).bind (hRequires.bind
    (hExports.bind (hOpens.bind (hUses.bind
      (Reads.of_eq (hProvides.bind ?_) (List.append_nil _).symm)))))))
  exact Reads.lift_bind (Pool.moduleName_eq_ok.mpr hi) (Reads.lift_bind hj (Reads.pure m))

end ModuleInfo

end Renaming
