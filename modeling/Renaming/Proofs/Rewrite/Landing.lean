import Renaming.Proofs.ClassFile.Carried
import Renaming.Proofs.ClassFile.Landing
import Renaming.Proofs.Rewrite.Agreement
import Renaming.Proofs.Rewrite.ClassNames
import Renaming.Proofs.Rewrite.Skeleton

/-!
# Loaded constants after rewriting

Rewriting keeps the attributes that are kept as bytes, and with them the pool that is laid out first. It
also keeps the places of method bodies. So all that matters for the `ldc` instructions of a rewritten
class is where its new constants land behind the old pool. Constants that were loaded before never
stand in the way.
-/

namespace Renaming

open Effectful Hierarchy Rewriting

namespace Attribute

theorem verbatimHere_cons (a : Attribute) (as : List Attribute) :
    verbatimHere (a :: as) = verbatimHere [a] ++ verbatimHere as :=
  List.filterMap_append (l := [a])

theorem verbatimHere_of_grown {a b : PlainAttribute} (h : a.skeleton.GrowsTo b.skeleton) :
    verbatimHere [plain b] = verbatimHere [plain a] := by
  have hSkeleton (p : PlainAttribute) : verbatimHere [plain p.skeleton] = verbatimHere [plain p] := by
    cases p <;> rfl
  rw [← hSkeleton a, ← hSkeleton b]
  generalize a.skeleton = old at h
  generalize b.skeleton = new at h
  cases h <;> rfl

theorem verbatimInside_cons (a : Attribute) (as : List Attribute) :
    verbatimInside (a :: as) = verbatimInside as ++ verbatimInside [a] := by
  cases a with
  | code body =>
    obtain ⟨maxStack, maxLocals, instructions, handlers, attributes⟩ := body
    simp [verbatimInside]
  | record | plain => simp [verbatimInside]

theorem verbatimInside_code (body : Code Attribute) : verbatimInside [code body] =
    verbatimHere body.attributes ++ verbatimInside body.attributes := by
  obtain ⟨maxStack, maxLocals, instructions, handlers, attributes⟩ := body
  simp [verbatimInside]

mutual

theorem GrowsTo.verbatim (a b : Attribute) (h : a.skeleton.GrowsTo b.skeleton) :
    verbatimHere [b] = verbatimHere [a] ∧ verbatimInside [b] = verbatimInside [a] := by
  cases a with
  | code body =>
    cases b with
    | code body' =>
      obtain ⟨-, hAttributes⟩ := h
      obtain ⟨hHere, hInside⟩ := EachGrowsTo.verbatim body.attributes body'.attributes hAttributes
      refine ⟨rfl, ?_⟩
      rw [verbatimInside_code, verbatimInside_code, hHere, hInside]
    | record | plain => cases h
  | record components =>
    cases b with
    | record components' =>
      refine ⟨rfl, ?_⟩
      simp only [verbatimInside, ComponentsGrowTo.verbatim components components' h]
    | code | plain => cases h
  | plain a =>
    cases b with
    | plain b => exact ⟨verbatimHere_of_grown h, by simp only [verbatimInside]⟩
    | code | record => cases h

theorem EachGrowsTo.verbatim (as bs : List Attribute)
    (h : EachGrowsTo (skeletonOfEach as) (skeletonOfEach bs)) :
    verbatimHere bs = verbatimHere as ∧ verbatimInside bs = verbatimInside as := by
  cases as with
  | nil =>
    cases bs with
    | nil => exact ⟨rfl, rfl⟩
    | cons b bs => cases h
  | cons a as =>
    cases bs with
    | nil => cases h
    | cons b bs =>
      obtain ⟨hHead, hTail⟩ := h
      obtain ⟨hHere, hInside⟩ := GrowsTo.verbatim a b hHead
      obtain ⟨hHere', hInside'⟩ := EachGrowsTo.verbatim as bs hTail
      rw [verbatimHere_cons, verbatimHere_cons a, hHere, hHere', verbatimInside_cons,
        verbatimInside_cons a, hInside, hInside']
      exact ⟨rfl, rfl⟩

theorem ComponentsGrowTo.verbatim (cs ds : List (RecordComponent Attribute))
    (h : ComponentsGrowTo (skeletonOfComponents cs) (skeletonOfComponents ds)) :
    verbatimComponents ds = verbatimComponents cs := by
  cases cs with
  | nil =>
    cases ds with
    | nil => rfl
    | cons d ds => cases h
  | cons c cs =>
    cases ds with
    | nil => cases h
    | cons d ds =>
      obtain ⟨⟨-, hAttributes⟩, hRest⟩ := h
      obtain ⟨hHere, hInside⟩ := EachGrowsTo.verbatim c.attributes d.attributes hAttributes
      rw [verbatimComponents, verbatimComponents, ComponentsGrowTo.verbatim cs ds hRest, hHere,
        hInside]

end

end Attribute

namespace ClassModel

variable {c c' : ClassModel}

theorem GrowsTo.verbatim (h : c.skeleton.GrowsTo c'.skeleton) : c'.verbatim = c.verbatim := by
  have hEach {as bs : List Attribute}
      (hGrows : Attribute.EachGrowsTo (Attribute.skeletonOfEach as) (Attribute.skeletonOfEach bs)) :
      Attribute.verbatim bs = Attribute.verbatim as := by
    obtain ⟨hHere, hInside⟩ := Attribute.EachGrowsTo.verbatim as bs hGrows
    rw [Attribute.verbatim, Attribute.verbatim, hHere, hInside]
  have hMembers {ms ms' : List Member}
      (hAll : List.Forall₂ Member.GrowsTo (ms.map Member.skeleton) (ms'.map Member.skeleton)) :
      ms'.map (fun m => Attribute.verbatim m.attributes) =
        ms.map fun m => Attribute.verbatim m.attributes := by
    have hPairs := forall₂_of_grown hAll
    clear hAll
    induction hPairs with
    | nil => rfl
    | cons hHead _ ih => rw [List.map_cons, List.map_cons, hEach hHead, ih]
  simp only [ClassModel.verbatim, List.flatMap_def, List.map_reverse, List.map_cons, List.map_map,
    List.map_append, Function.comp_def, hEach h.attributes, hMembers h.fields, hMembers h.methods]

end ClassModel

namespace Attribute

theorem forall₂_of_grown {as bs : List Attribute}
    (h : EachGrowsTo (skeletonOfEach as) (skeletonOfEach bs)) :
    List.Forall₂ (fun a b => a.skeleton.GrowsTo b.skeleton) as bs := by
  induction as generalizing bs with
  | nil =>
    cases bs with
    | nil => exact .nil
    | cons b bs => cases h
  | cons a as ih =>
    cases bs with
    | nil => cases h
    | cons b bs => exact .cons h.1 (ih h.2)

variable {a b : Attribute}

theorem GrowsTo.bodiless (h : a.skeleton.GrowsTo b.skeleton) (ha : a.Bodiless) : b.Bodiless := by
  have hBodies := GrowsTo.bodies a b h
  rw [bodiless_iff.mp ha, List.forall₂_nil_left_iff] at hBodies
  exact bodiless_iff.mpr hBodies

theorem GrowsTo.shallow (h : a.skeleton.GrowsTo b.skeleton) (ha : a.Shallow) : b.Shallow := by
  cases a with
  | code body =>
    cases b with
    | code body' =>
      obtain ⟨-, hInner⟩ := h
      intro b hb
      obtain ⟨a, hMem, hGrows⟩ := Outcome.exists_of_mem (forall₂_of_grown hInner) b hb
      exact hGrows.bodiless (ha a hMem)
    | record | plain => cases h
  | record | plain => exact (GrowsTo.bodiless h ha).shallow

theorem GrowsTo.isBody_eq (h : a.skeleton.GrowsTo b.skeleton) : b.isBody = a.isBody := by
  cases a <;> cases b <;> first | rfl | cases h

theorem EachGrowsTo.countP_isBody {as bs : List Attribute}
    (h : EachGrowsTo (skeletonOfEach as) (skeletonOfEach bs)) :
    bs.countP isBody = as.countP isBody := by
  have hPairs := forall₂_of_grown h
  clear h
  induction hPairs with
  | nil => rfl
  | cons hHead _ ih => rw [List.countP_cons, List.countP_cons, hHead.isBody_eq, ih]

end Attribute

namespace ClassModel

variable {c c' : ClassModel}

theorem GrowsTo.bodiesInPlace (h : c.skeleton.GrowsTo c'.skeleton) (hc : c.BodiesInPlace) :
    c'.BodiesInPlace where
  attributes b hb := by
    obtain ⟨a, ha, hGrows⟩ :=
      Outcome.exists_of_mem (Attribute.forall₂_of_grown h.attributes) b hb
    exact hGrows.bodiless (hc.attributes a ha)
  fields m' hm' b hb := by
    obtain ⟨m, hm, hEach⟩ := Outcome.exists_of_mem (forall₂_of_grown h.fields) m' hm'
    obtain ⟨a, ha, hGrows⟩ := Outcome.exists_of_mem (Attribute.forall₂_of_grown hEach) b hb
    exact hGrows.bodiless (hc.fields m hm a ha)
  methods m' hm' b hb := by
    obtain ⟨m, hm, hEach⟩ := Outcome.exists_of_mem (forall₂_of_grown h.methods) m' hm'
    obtain ⟨a, ha, hGrows⟩ := Outcome.exists_of_mem (Attribute.forall₂_of_grown hEach) b hb
    exact hGrows.shallow (hc.methods m hm a ha)
  once m' hm' := by
    obtain ⟨m, hm, hEach⟩ := Outcome.exists_of_mem (forall₂_of_grown h.methods) m' hm'
    rw [Attribute.EachGrowsTo.countP_isBody hEach]
    exact hc.once m hm

end ClassModel

theorem Constant.isWide_skeleton (v : Constant) : v.skeleton.isWide = v.isWide := by
  cases v <;> rfl

theorem Instruction.Loads.of_skeleton {i j : Instruction} {v : Constant} (hv : i.Loads v)
    (h : j.skeleton = i.skeleton) : ∃ u, j.Loads u ∧ u.skeleton = v.skeleton := by
  obtain ⟨offset, op, o⟩ := i
  obtain ⟨rfl, rfl⟩ := hv
  obtain ⟨offset', op', o'⟩ := j
  obtain ⟨-, rfl, hOperand⟩ := Instruction.mk.inj h
  cases o' with
  | constant u => exact ⟨u, ⟨rfl, rfl⟩, Operand.constant.inj hOperand⟩
  | _ => cases hOperand

namespace ClassModel

variable {c c' : ClassModel}

theorem code_mem_bodies {m : Member} {body : Code Attribute} (hm : m ∈ c.methods)
    (h : m.code = some body) : body ∈ c.bodies := by
  refine List.mem_append_left _ (List.mem_flatMap.mpr ⟨m, List.mem_append_right _ hm, ?_⟩)
  exact Attribute.mem_bodiesOfEach.mpr ⟨_, code_mem h, List.mem_cons_self⟩

theorem GrowsTo.ldcConstants (h : c.skeleton.GrowsTo c'.skeleton) (hc : c.BodiesInPlace) :
    ∀ v ∈ c'.ldcConstants, ∃ u ∈ c.ldcConstants, u.skeleton = v.skeleton := by
  intro v hv
  obtain ⟨m, hm, body', hCode, i, hi, hLoads⟩ := mem_ldcConstants.mp hv
  obtain ⟨body, hBody, hSame⟩ :=
    Outcome.exists_of_mem (GrowsTo.bodies h) body' (code_mem_bodies hm hCode)
  have hSkeleton := List.mem_map_of_mem (f := Instruction.skeleton) hi
  rw [hSame] at hSkeleton
  obtain ⟨j, hj, hEq⟩ := List.mem_map.mp hSkeleton
  obtain ⟨u, hOld, hShape⟩ := hLoads.of_skeleton hEq
  exact ⟨u, hc.loads body hBody j hj u hOld, hShape⟩

/-- All that is kept as bytes in a class that was read has the pool of its file. -/
theorem verbatimPool_of_parse {bytes : Bytes} (hParse : parse bytes = .ok c) {name : String}
    {payload : Bytes} {P : Pool} (hContains : c.Contains (.plain (.unknown name payload P))) :
    P.Complete ∧ c.verbatimPool = .ok (some P) ∧ ∀ v ∈ c.ldcConstants, P.NamesLow v := by
  obtain ⟨raw, hRaw, hResolve⟩ := parse_eq_ok hParse
  obtain ⟨hVersion, hComplete⟩ := RawClass.decode_eq_ok hRaw
  obtain ⟨-, hSelf⟩ := RawClass.known_of_resolve hVersion hResolve
  have hSame := withPool_eq_self_iff.mp hSelf
  obtain rfl : P = raw.pool := hSame _ (mem_verbatim_iff.mpr ⟨payload, hContains⟩)
  obtain ⟨pool, hPool⟩ := exists_verbatimPool hSame
  obtain rfl := verbatimPool_of_contains hContains hPool
  exact ⟨hComplete, hPool, namesLow_of_resolve hResolve⟩

end ClassModel

/-- Let a class that was read have an attribute that is kept as bytes, and its method bodies in place.
When it is rewritten, what it loaded before lands on an index of one byte. If everything that it loads
now does, no `ldc` instruction stands in the way of the writer, and otherwise there is no file. -/
theorem Renamer.landing_of_rewrite {bytes : Bytes} {c : ClassModel}
    (hParse : ClassModel.parse bytes = .ok c) {name : String} {payload : Bytes} {P : Pool}
    (hContains : c.Contains (.plain (.unknown name payload P))) (hPlace : c.BodiesInPlace)
    {r : Renamer} {h h' : Hierarchy} {w : Rewritten} (hRun : (r.rewrite c).run h = (.ok w, h')) :
    (∀ v ∈ c.ldcConstants, P.landing w.model.ldcConstants v ≤ 255) ∧
      ((∀ v ∈ w.model.ldcConstants, P.landing w.model.ldcConstants v ≤ 255) →
        ∀ i, w.model.serialize ≠ .error (.ldcIndexOverflow i)) ∧
      ((∃ v ∈ w.model.ldcConstants, 255 < P.landing w.model.ldcConstants v) →
        ∃ e, w.model.serialize = .error e ∧ (e.IsOverflow ∨ ∃ i, e = .ldcIndexOverflow i)) := by
  obtain ⟨-, notes, hClass, -⟩ := rewrite_eq_ok.mp hRun
  have hGrows := Site.returns_grown_class c _ _ _ hClass
  obtain ⟨hComplete, hPool, hLow⟩ := ClassModel.verbatimPool_of_parse hParse hContains
  have hNewPool : w.model.verbatimPool = .ok (some P) := by
    rw [ClassModel.verbatimPool, hGrows.verbatim]
    exact hPool
  have hNarrow : ∀ v ∈ w.model.ldcConstants, v.isWide = false := by
    intro v hv
    obtain ⟨u, hu, hShape⟩ := hGrows.ldcConstants hPlace v hv
    obtain ⟨-, -, -, hOld⟩ := hLow u hu
    rw [← v.isWide_skeleton, ← hShape, u.isWide_skeleton, hOld]
  refine ⟨fun v hv => PoolBuilder.landing_le_of_namesLow hComplete (hLow v hv), ?_, ?_⟩
  · exact ClassModel.serialize_ne_ldcIndexOverflow hNewPool hComplete (hGrows.bodiesInPlace hPlace)
      hNarrow
  · rintro ⟨v, hv, hHigh⟩
    refine ClassModel.exists_serialize_eq_error hNewPool hComplete (fun body' hBody' => ?_) hNarrow hv
      hHigh
    obtain ⟨body, hBody, hSame⟩ :=
      Outcome.exists_of_mem (ClassModel.GrowsTo.bodies hGrows) body' hBody'
    exact hSame.inPlace (ClassModel.inPlace_of_parse hParse body hBody)

namespace Crowded

/-- Everything that the class `C` refers to, whose initialiser loads the class `A`, and `n` empty texts. -/
def pool (n : Nat) : Pool :=
  ⟨.mk ([.utf8 "C", .classRef 1, .utf8 "A", .classRef 3, .utf8 "<clinit>", .utf8 "()V",
    .utf8 "Code", .utf8 "X"] ++ List.replicate n (.utf8 ""))⟩

def initialiser (n : Nat) (loaded : String) : Member :=
  ⟨8, "<clinit>", "()V", [.code ⟨1, 0, [⟨0, opLdc, .constant (.classRef loaded)⟩,
    ⟨2, 0x57, .none⟩, ⟨3, 0xb1, .none⟩], [], []⟩, .plain (.unknown "X" [] (pool n))]⟩

def loading (n : Nat) (loaded : String) : ClassModel :=
  ⟨0, 52, 0x21, "C", none, [], [], [initialiser n loaded], []⟩

def raw (n : Nat) : RawClass :=
  ⟨0, 52, pool n, 0x21, 2, 0, [], [], [⟨8, 5, 6, [⟨7, [0, 1, 0, 0, 0, 0, 0, 4, 0x12, 4, 0x57, 0xb1,
    0, 0, 0, 0]⟩, ⟨8, []⟩]⟩], []⟩

/-- What follows the pool. -/
def body : Bytes :=
  [0, 33, 0, 2, 0, 0, 0, 0, 0, 0, 0, 1, 0, 8, 0, 5, 0, 6, 0, 2, 0, 7, 0, 0, 0, 16, 0, 1, 0, 0,
    0, 0, 0, 4, 0x12, 4, 0x57, 0xb1, 0, 0, 0, 0, 0, 8, 0, 0, 0, 0, 0, 0]

def file (n : Nat) : Bytes :=
  Bytes.u4 classMagic ++ (Bytes.u2 0 ++ (Bytes.u2 52 ++ ((pool n).encode ++ body)))

variable {n : Nat}

theorem mem_pool {e : PoolEntry} (h : e ∈ (pool n).entries.toList) :
    e ∈ [PoolEntry.utf8 "C", .classRef 1, .utf8 "A", .classRef 3, .utf8 "<clinit>", .utf8 "()V",
      .utf8 "Code", .utf8 "X", .utf8 ""] := by
  rcases List.mem_append.mp h with hFirst | hRest
  · exact List.mem_append_left [.utf8 ""] hFirst
  · rw [List.eq_of_mem_replicate hRest]
    simp

theorem size_pool : (pool n).entries.size = n + 8 := by
  simp [pool]

theorem complete_pool (hn : n ≤ 65526) : (pool n).Complete := by
  have hEntries : ∀ e ∈ (pool n).entries.toList, (e ≠ .empty ∧ e.isWide = false) ∧ e.Short := by
    intro e he
    have hCases := mem_pool he
    simp only [List.mem_cons, List.not_mem_nil, or_false] at hCases
    rcases hCases with rfl | rfl | rfl | rfl | rfl | rfl | rfl | rfl | rfl <;>
      exact ⟨⟨PoolEntry.noConfusion, rfl⟩, by simp only [PoolEntry.Short]; try decide⟩
  refine ⟨?_, .of_narrow fun e he => (hEntries e he).1, fun e he => (hEntries e he).2⟩
  rw [size_pool]
  omega

theorem parse_file (hn : n ≤ 65526) : ClassModel.parse (file n) = .ok (loading n "A") := by
  have hRead : Decoder.Reads (RawClass.decodeBody 0 52 (pool n)) body (raw n) := fun tail => by rfl
  have hFile := RawClass.reads_decode (by decide) (complete_pool hn) hRead []
  rw [List.append_nil] at hFile
  rw [ClassModel.parse, file, hFile]
  rfl

theorem contains_loading (loaded : String) :
    (loading n loaded).Contains (.plain (.unknown "X" [] (pool n))) :=
  Or.inr ⟨_, List.mem_singleton_self _, _, List.mem_cons_of_mem _ (List.mem_singleton_self _), .self⟩

theorem bodiesInPlace_loading (loaded : String) : (loading n loaded).BodiesInPlace where
  attributes := nofun
  fields := nofun
  methods := by simp [loading, initialiser, Attribute.Shallow, Attribute.Bodiless.plain]
  once m hm := by
    obtain rfl := List.mem_singleton.mp hm
    exact Nat.le_refl 1

theorem not_holds_utf8 : ¬ (pool n).Holds (.utf8 "B") := by
  rintro ⟨i, hi⟩
  cases hi with
  | utf8 h =>
    obtain ⟨-, hSlot, -⟩ := Pool.entry_eq_ok.mp h
    have hCases := mem_pool (Array.mem_toList_iff.mpr (Array.mem_of_getElem? hSlot))
    simp at hCases

theorem not_holds_classRef : ¬ (pool n).Holds (.classRef "B") := by
  rintro ⟨i, hi⟩
  cases hi with
  | classRef _ hName => exact not_holds_utf8 hName.holds

section Reserved

open PoolBuilder

variable {b : PoolBuilder} {i : UInt16}

theorem grows_reserved (hn : n ≤ 65526)
    (hClaim : claim (.classRef "B") (ofPool (pool n)) = .ok (i, b)) :
    Grows (· = .classRef "B") (ofPool (pool n)) b :=
  grows_claim (sound_ofPool (complete_pool hn)) (index_of_not_holds not_holds_classRef) hClaim

theorem constant_run (hn : n ≤ 65526)
    (hClaim : claim (.classRef "B") (ofPool (pool n)) = .ok (i, b)) {v : Constant}
    (hv : (pool n).Holds v) : ∃ j, constant v b = .ok (j, b) := by
  obtain ⟨j, hj, hFilled⟩ := covers_ofPool v hv
  have hGrows := grows_reserved hn hClaim
  refine ⟨j, ?_⟩
  rw [Encoder.constant_eq_intern]
  exact intern_filled (hGrows.index v j hj) (hGrows.isFilled hFilled)

theorem className_run (hn : n ≤ 65524)
    (hClaim : claim (.classRef "B") (ofPool (pool n)) = .ok (i, b)) :
    ∃ b', className "B" b = .ok (i, b') := by
  have hText : b.index[Constant.utf8 "B"]? = none :=
    ((grows_reserved (by omega) hClaim).other_index _ Constant.noConfusion).trans
      (index_of_not_holds not_holds_utf8)
  have hSize : b.entries.size = n + 9 := by
    obtain ⟨-, -, rfl⟩ := claim_eq_ok hClaim
    simp [slotsFor, Constant.isWide, ofPool, size_pool]
  obtain ⟨j, b₁, hClaim'⟩ : ∃ j b₁, claim (.utf8 "B") b = .ok (j, b₁) :=
    ⟨_, _, if_neg (by simp [Constant.isWide, hSize]; omega)⟩
  have hUtf8 : utf8 "B" b = .ok (j, b₁.filledWith j (.utf8 "B")) :=
    Encoder.intern_new hText rfl hClaim'
  have hKnown : b.index[Constant.classRef "B"]? = some i :=
    (claim_index hClaim).mpr (Or.inl ⟨rfl, rfl⟩)
  exact ⟨_, intern_reserved hKnown (claim_unfilled hClaim)
    (Stateful.bind_eq_ok.mpr ⟨j, _, hUtf8, rfl⟩)⟩

theorem encode_initialiser (hn : n ≤ 65524)
    (hClaim : claim (.classRef "B") (ofPool (pool n)) = .ok (i, b)) (hHigh : 255 < i.toNat) :
    (initialiser n "B").encode b = .error (.ldcIndexOverflow i) := by
  obtain ⟨b', hLoad⟩ := className_run hn hClaim
  have hWide : i > 255 := hHigh
  have hLdc : Instruction.encode ⟨0, opLdc, .constant (.classRef "B")⟩ b =
      .error (.ldcIndexOverflow i) := by
    refine Stateful.bind_eq_error.mpr (Or.inr ⟨i, b', hLoad, ?_⟩)
    rw [if_pos rfl, if_pos hWide]
    rfl
  have hText (s : String) (j : UInt16) (h : (pool n).entry j = .ok (.utf8 s)) :
      ∃ k, utf8 s b = .ok (k, b) :=
    constant_run (by omega) hClaim (Pool.Names.utf8 h).holds
  obtain ⟨name, hName⟩ := hText "<clinit>" 5 rfl
  obtain ⟨descriptor, hDescriptor⟩ := hText "()V" 6 rfl
  obtain ⟨code, hCode⟩ := hText "Code" 7 rfl
  have hInstructions : Instruction.encodeAll [⟨0, opLdc, .constant (.classRef "B")⟩,
      ⟨2, 0x57, .none⟩, ⟨3, 0xb1, .none⟩] b = .error (.ldcIndexOverflow i) :=
    Stateful.bind_eq_error.mpr (Or.inl hLdc)
  have hBody : Attribute.encode (.code ⟨1, 0, [⟨0, opLdc, .constant (.classRef "B")⟩,
      ⟨2, 0x57, .none⟩, ⟨3, 0xb1, .none⟩], [], []⟩) b = .error (.ldcIndexOverflow i) :=
    Stateful.bind_eq_error.mpr (Or.inr ⟨code, b, hCode,
      Stateful.bind_eq_error.mpr (Or.inl hInstructions)⟩)
  have hAttributes : Attribute.encodeList (initialiser n "B").attributes b =
      .error (.ldcIndexOverflow i) :=
    Stateful.bind_eq_error.mpr (Or.inr ⟨_, b, rfl, Stateful.bind_eq_error.mpr (Or.inl
      (Stateful.bind_eq_error.mpr (Or.inl hBody)))⟩)
  exact Stateful.bind_eq_error.mpr (Or.inr ⟨name, b, hName, Stateful.bind_eq_error.mpr
    (Or.inr ⟨descriptor, b, hDescriptor, Stateful.bind_eq_error.mpr (Or.inl hAttributes)⟩)⟩)

end Reserved

/-- If the new name lands on an index of more than one byte, the class cannot be written. -/
theorem serialize_loading (hLow : 247 ≤ n) (hn : n ≤ 65524) :
    (loading n "B").serialize = .error (.ldcIndexOverflow (UInt16.ofNat (n + 9))) := by
  have hPool : (loading n "B").verbatimPool = .ok (some (pool n)) := by
    simp [ClassModel.verbatimPool, ClassModel.verbatim, Attribute.verbatim, Attribute.verbatimHere,
      Attribute.verbatimInside, loading, initialiser]
  have hSize : (PoolBuilder.ofPool (pool n)).entries.size = n + 8 := by
    simp [PoolBuilder.ofPool, size_pool]
  obtain ⟨i, b, hClaim⟩ : ∃ i b, PoolBuilder.claim (.classRef "B") (.ofPool (pool n)) = .ok (i, b) :=
    ⟨_, _, if_neg (by simp [Constant.isWide, hSize]; omega)⟩
  have hValue := PoolBuilder.claim_index_value hClaim
  rw [hSize] at hValue
  obtain rfl : i = UInt16.ofNat (n + 9) := by
    rw [← hValue, UInt16.ofNat_toNat]
  have hReserve : PoolBuilder.reserveAll (loading n "B").ldcConstants (.ofPool (pool n)) =
      .ok ((), b) := by
    have hNone : PoolBuilder.reserveAll [] b = .ok ((), b) := rfl
    exact PoolBuilder.reserveAll_cons
      ((PoolBuilder.reserve_new (PoolBuilder.index_of_not_holds not_holds_classRef)).trans hClaim) hNone
  obtain ⟨name, hName⟩ := constant_run (by omega) hClaim
    (Pool.Names.classRef (i := 2) rfl (.utf8 (s := "C") rfl)).holds
  have hMethod := encode_initialiser hn hClaim (by omega)
  have hEach : Encoder.each Member.encode [initialiser n "B"] b =
      .error (.ldcIndexOverflow (UInt16.ofNat (n + 9))) := by
    refine Stateful.bind_eq_error.mpr (Or.inl ?_)
    rw [List.mapM_cons]
    exact Stateful.bind_eq_error.mpr (Or.inl hMethod)
  have hMethods : Encoder.list "methods" Member.encode [initialiser n "B"] b =
      .error (.ldcIndexOverflow (UInt16.ofNat (n + 9))) :=
    Stateful.bind_eq_error.mpr (Or.inr ⟨_, b, rfl, Stateful.bind_eq_error.mpr (Or.inl hEach)⟩)
  have hParts : (loading n "B").encodeParts b =
      .error (.ldcIndexOverflow (UInt16.ofNat (n + 9))) :=
    Stateful.bind_eq_error.mpr (Or.inr ⟨name, b, hName, Stateful.bind_eq_error.mpr
      (Or.inr ⟨0, b, rfl, Stateful.bind_eq_error.mpr (Or.inr ⟨_, b, rfl, Stateful.bind_eq_error.mpr
      (Or.inr ⟨_, b, rfl, Stateful.bind_eq_error.mpr (Or.inl hMethods)⟩)⟩)⟩)⟩)
  refine Outcome.bind_eq_error.mpr (Or.inr ⟨_, hPool, Outcome.bind_eq_error.mpr (Or.inl ?_)⟩)
  exact Stateful.bind_eq_error.mpr (Or.inr ⟨(), b, hReserve, hParts⟩)

theorem rewrite_run {r : Renamer} {h h₁ : Hierarchy} {classpath : ClassPath} {config : Config}
    {classes : List ClassModel} (hr : r.BuiltFor classpath config classes h₁)
    (hTable : r.table = FieldHolder.table "B") (hCyclic : r.groups.cyclic = ∅) :
    (r.rewrite (loading n "A")).run h = (.ok ⟨loading n "B", []⟩, h) := by
  have hOld : r.className "C" = "C" := by
    rw [Renamer.className, hTable, ClassRenaming.apply, FieldHolder.newClass?_table]
    rfl
  have hReserved : Text.startsWith '<' (⟨"C", "<clinit>", "()V"⟩ : MemberKey).name = true := by decide
  have hName : (r.newMethod? ⟨"C", "<clinit>", "()V"⟩).getD "<clinit>" = "<clinit>" :=
    hr.newMethod?_special hReserved
  have hDescriptor : Descriptor.rename r.table.newClass? "()V" = .ok "()V" := rfl
  have hLoaded : ∀ s : Site, s.renamer = r → (s.classReference "A").run ⟨h, []⟩ =
      (.ok "B", ⟨h, []⟩) := by
    intro s hs
    rw [Site.classReference, hs, hTable, Descriptor.renameReference, if_neg (by decide),
      FieldHolder.apply_table]
    rfl
  have hInstructions : ∀ s : Site, s.renamer = r → ([⟨0, opLdc, .constant (.classRef "A")⟩,
      ⟨2, 0x57, .none⟩, ⟨3, 0xb1, .none⟩].mapM s.instruction).run ⟨h, []⟩ =
        (.ok [⟨0, opLdc, .constant (.classRef "B")⟩, ⟨2, 0x57, .none⟩, ⟨3, 0xb1, .none⟩],
          ⟨h, []⟩) := by
    intro s hs
    have hFirst : (s.instruction ⟨0, opLdc, .constant (.classRef "A")⟩).run ⟨h, []⟩ =
        (.ok ⟨0, opLdc, .constant (.classRef "B")⟩, ⟨h, []⟩) := by
      rw [Site.instruction, Site.operand, Site.constant, bind_assoc, bind_assoc,
        bind_run_of_ok (hLoaded s hs)]
      rfl
    rw [List.mapM_cons, bind_run_of_ok hFirst]
    rfl
  have hBody : ∀ s : Site, s.renamer = r →
      (s.rewriteAttributes .ofMethod (initialiser n "A").attributes).run ⟨h, []⟩ =
        (.ok (initialiser n "B").attributes, ⟨h, []⟩) := by
    intro s hs
    simp only [initialiser, Site.rewriteAttributes, Site.rewriteAttribute]
    rw [bind_assoc, bind_run_of_ok (hInstructions s hs)]
    rfl
  have hMethod : (((r.siteOf (loading n "A")).atMember .method (initialiser n "A")).method
      (initialiser n "A")).run ⟨h, []⟩ = (.ok (initialiser n "B"), ⟨h, []⟩) :=
    Site.method_run hName hDescriptor (hBody _ rfl)
  rw [Renamer.rewrite_run (by rw [hCyclic]; simp) rfl rfl rfl hMethod]
  simp [hOld, loading]

theorem exists_renamer (n : Nat) : ∃ r h, (Renamer.build r.table [loading n "A"] Config.standard).run
    (seeded ⟨[]⟩ Config.standard [loading n "A"]) = (.ok r, h) ∧
      r.table = FieldHolder.table "B" ∧
      ∀ h', (r.rewrite (loading n "A")).run h' = (.ok ⟨loading n "B", []⟩, h') := by
  have hDeclarations : OverrideGroups.declarations (loading n "A") = [] := by
    simp [OverrideGroups.declarations, loading, initialiser]
    decide
  obtain ⟨r, h, hBuild, hTable, hCyclic⟩ := Renamer.exists_build_alone
    (t := FieldHolder.table "B") (c := loading n "A")
    (by decide : Text.startsWith '[' "C" = false) rfl hDeclarations (fun r _ => by
      rw [Renamer.checkMembers_eq_ok]
      exact ⟨List.nodup_nil, List.nodup_singleton _⟩)
  rw [← hTable] at hBuild
  have hTableBuilt : r.table.Built := hTable ▸ RenameTable.built_withClass .empty "A" "B"
  have hr := Renamer.BuiltFor.of_seeded rfl (by simp) hTableBuilt hBuild
  exact ⟨r, h, hBuild, hTable, fun h' => rewrite_run hr hTable hCyclic⟩

theorem landing_of_rewrite_loading : ∃ (r : Renamer) (h h' : Hierarchy),
    ClassModel.parse (file 0) = .ok (loading 0 "A") ∧
      (loading 0 "A").Contains (.plain (.unknown "X" [] (pool 0))) ∧
      (loading 0 "A").BodiesInPlace ∧
      (r.rewrite (loading 0 "A")).run h = (.ok ⟨loading 0 "B", []⟩, h') ∧
      ∀ i, (loading 0 "B").serialize ≠ .error (.ldcIndexOverflow i) := by
  obtain ⟨r, h, -, -, hRun⟩ := exists_renamer 0
  have hParse : ClassModel.parse (file 0) = .ok (loading 0 "A") := parse_file (by decide)
  refine ⟨r, h, h, hParse, contains_loading "A", bodiesInPlace_loading "A", hRun h, ?_⟩
  refine (Renamer.landing_of_rewrite hParse (contains_loading "A") (bodiesInPlace_loading "A")
    (hRun h)).2.1 fun v hv => ?_
  obtain rfl := List.mem_singleton.mp hv
  decide

theorem loaded_too_far : ¬ ∀ (t : RenameTable) (bytes : Bytes) (c : ClassModel) (name : String)
    (payload : Bytes) (P : Pool) (h' : Hierarchy) (w : Rewritten),
    ClassModel.parse bytes = .ok c → c.Contains (.plain (.unknown name payload P)) →
      c.BodiesInPlace →
        (Renamer.rewriteAlone t c).run (ofClasspath ⟨[]⟩ Config.standard) = (.ok w, h') →
          ∀ i, w.model.serialize ≠ .error (.ldcIndexOverflow i) := by
  intro hAll
  obtain ⟨r, h, hBuild, hTable, hRun⟩ := exists_renamer 247
  have hAlone : (Renamer.rewriteAlone r.table (loading 247 "A")).run
      (ofClasspath ⟨[]⟩ Config.standard) = (.ok ⟨loading 247 "B", []⟩, h) := by
    change (Renamer.build r.table [loading 247 "A"] Config.standard >>= fun r' =>
      r'.rewrite (loading 247 "A")).run (seeded ⟨[]⟩ Config.standard [loading 247 "A"]) = _
    rw [bind_run_of_ok hBuild, hRun]
  exact hAll r.table (file 247) _ _ _ _ _ _ (parse_file (by decide)) (contains_loading "A")
    (bodiesInPlace_loading "A") hAlone _ (serialize_loading (by decide) (by decide))

end Crowded

end Renaming
