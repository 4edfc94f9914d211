import Renaming.Proofs.ClassFile.PoolBuilder

/-!
# A pool builder as lists

The slots of a pool builder and the indices that it has given out, as lists. They grow by what is asked
for, so that the pool of a given class can be read off.
-/

namespace Renaming.PoolBuilder

/-- What is in the slots, and the constants that have an index. -/
structure Lists (b : PoolBuilder) (slots : List (Option PoolEntry))
    (known : List (Constant × UInt16)) : Prop where
  entries_eq : b.entries = slots.toArray
  index_eq : ∀ c, b.index[c]? = known.lookup c

def place (slots : List (Option PoolEntry)) : UInt16 := .ofNat (slots.length + 1)

theorem lists_empty : Lists .empty [] [] := ⟨rfl, by simp [empty]⟩

variable {b b₁ : PoolBuilder} {slots slots₁ : List (Option PoolEntry)}
  {known known₁ : List (Constant × UInt16)} {c : Constant} {e : PoolEntry} {i : UInt16}
  {m : Encoder PoolEntry} {s : String}

theorem Lists.claim (hb : b.Lists slots known) (hNarrow : c.isWide = false)
    (hRoom : slots.length < 65534) :
    ∃ b', PoolBuilder.claim c b = .ok (place slots, b') ∧
      b'.Lists (slots ++ [none]) ((c, place slots) :: known) := by
  have hSize : b.entries.size = slots.length := by rw [hb.entries_eq, List.size_toArray]
  refine ⟨⟨b.entries.push none, b.index.insert c (place slots)⟩, ?_, ?_, fun d => ?_⟩
  · simp [PoolBuilder.claim, hNarrow, hSize, Nat.not_lt.mpr (Nat.succ_le_of_lt hRoom), place]
  · rw [hb.entries_eq, List.push_toArray]
  · rw [Std.HashMap.getElem?_insert, hb.index_eq, List.lookup_cons, BEq.comm]
    cases d == c <;> rfl

theorem Lists.filledWith (hb : b.Lists slots known) :
    (b.filledWith i e).Lists (slots.set (i.toNat - 1) (some e)) known :=
  ⟨by rw [PoolBuilder.filledWith, hb.entries_eq, List.setIfInBounds_toArray], hb.index_eq⟩

theorem Lists.reserve (hb : b.Lists slots known) (hNew : known.lookup c = none)
    (hNarrow : c.isWide = false) (hRoom : slots.length < 65534) :
    ∃ b', PoolBuilder.reserve c b = .ok (place slots, b') ∧
      b'.Lists (slots ++ [none]) ((c, place slots) :: known) := by
  rw [reserve_new ((hb.index_eq c).trans hNew)]
  exact hb.claim hNarrow hRoom

/-- The entry of a new constant comes behind what was asked for to make it. -/
theorem Lists.intern (hb : b.Lists slots known) (hNew : known.lookup c = none)
    (hMake : m b = .ok (e, b₁)) (hb₁ : b₁.Lists slots₁ known₁) (hNarrow : c.isWide = false)
    (hRoom : slots₁.length < 65534) :
    ∃ b', PoolBuilder.intern c m b = .ok (place slots₁, b') ∧
      b'.Lists (slots₁ ++ [some e]) ((c, place slots₁) :: known₁) := by
  obtain ⟨b₂, hClaim, hb₂⟩ := hb₁.claim hNarrow hRoom
  refine ⟨_, intern_eq_ok.mpr (.new ((hb.index_eq c).trans hNew) hMake hClaim), ?_⟩
  have hPlace : (place slots₁).toNat - 1 = slots₁.length := by
    rw [place, UInt16.toNat_ofNat', Nat.mod_eq_of_lt (by omega), Nat.add_sub_cancel]
  have hFilled : (slots₁ ++ [none]).set ((place slots₁).toNat - 1) (some e) = slots₁ ++ [some e] := by
    rw [hPlace, List.set_append_right _ _ (Nat.le_refl _), Nat.sub_self]
    rfl
  exact hFilled ▸ hb₂.filledWith

/-- The entry of a constant whose slot was set aside goes there. -/
theorem Lists.intern_reserved (hb : b.Lists slots known) (hKnown : known.lookup c = some i)
    (hOpen : slots[i.toNat - 1]? = some none) (hMake : m b = .ok (e, b)) :
    ∃ b', PoolBuilder.intern c m b = .ok (i, b') ∧
      b'.Lists (slots.set (i.toNat - 1) (some e)) known := by
  have hUnfilled : b.isFilled i = false := by
    simp [isFilled, hb.entries_eq, hOpen]
  exact ⟨_, intern_eq_ok.mpr (.reserved ((hb.index_eq c).trans hKnown) hUnfilled hMake),
    hb.filledWith⟩

theorem Lists.utf8 (hb : b.Lists slots known) (hNew : known.lookup (.utf8 s) = none)
    (hShort : (ModifiedUtf8.encode s).length ≤ 65535) (hRoom : slots.length < 65534) :
    ∃ b', PoolBuilder.utf8 s b = .ok (place slots, b') ∧
      b'.Lists (slots ++ [some (.utf8 s)]) ((.utf8 s, place slots) :: known) := by
  refine hb.intern hNew ?_ hb rfl hRoom
  simp [Nat.not_lt.mpr hShort]
  rfl

theorem Lists.className (hb : b.Lists slots known) (hNew : known.lookup (.classRef s) = none)
    (hText : known.lookup (.utf8 s) = none)
    (hShort : (ModifiedUtf8.encode s).length ≤ 65535) (hRoom : slots.length < 65533) :
    ∃ b', PoolBuilder.className s b = .ok (place (slots ++ [some (.utf8 s)]), b') ∧
      b'.Lists (slots ++ [some (.utf8 s)] ++ [some (.classRef (place slots))])
        ((.classRef s, place (slots ++ [some (.utf8 s)])) ::
          (.utf8 s, place slots) :: known) := by
  obtain ⟨b₁, hUtf8, hb₁⟩ := hb.utf8 hText hShort (by omega)
  refine hb.intern hNew (Stateful.bind_eq_ok.mpr ⟨_, _, hUtf8, rfl⟩) hb₁ rfl ?_
  rw [List.length_append, List.length_singleton]
  omega

theorem Lists.encode_eq (hb : b.Lists slots known) :
    b.encode = PoolBuilder.encode ⟨slots.toArray, ∅⟩ := by
  rw [PoolBuilder.encode, hb.entries_eq, PoolBuilder.encode]

end Renaming.PoolBuilder
