import Renaming.Text.Parser

/-!
# What parsers of text take

Each combinator is described by an equivalence: it yields a value and leaves the rest of the input
exactly if its parts do. A parser is read off these without unfolding any of them.
-/

namespace Renaming.Parser

variable {α β : Type} {p q : Parser α} {f : α → Parser β} {input rest : List Char} {a : α} {b : β}

theorem pure_eq_some {a' : α} : (pure a : Parser α) input = some (a', rest) ↔
    a' = a ∧ rest = input := by
  change some (a, input) = some (a', rest) ↔ _
  rw [Option.some.injEq, Prod.mk.injEq]
  exact ⟨fun ⟨h, h'⟩ => ⟨h.symm, h'.symm⟩, fun ⟨h, h'⟩ => ⟨h.symm, h'.symm⟩⟩

theorem bind_eq_some : (p >>= f) input = some (b, rest) ↔
    ∃ a mid, p input = some (a, mid) ∧ f a mid = some (b, rest) := by
  change ((p input).bind fun r => f r.1 r.2) = some (b, rest) ↔ _
  rw [Option.bind_eq_some_iff, Prod.exists]

theorem bind_eq_none (h : p input = none) : (p >>= f) input = none := by
  change ((p input).bind fun r => f r.1 r.2) = none
  rw [h]
  rfl

theorem map_eq_some {g : α → β} : (g <$> p) input = some (b, rest) ↔
    ∃ a, p input = some (a, rest) ∧ b = g a := by
  change ((p input).bind fun r => some (g r.1, r.2)) = some (b, rest) ↔ _
  simp only [Option.bind_eq_some_iff, Prod.exists, Option.some.injEq, Prod.mk.injEq]
  constructor
  · rintro ⟨a, mid, h, rfl, rfl⟩
    exact ⟨a, h, rfl⟩
  · rintro ⟨a, h, rfl⟩
    exact ⟨a, rest, h, rfl, rfl⟩

theorem seqRight_eq_some {r : Parser β} : (p *> r) input = some (b, rest) ↔
    ∃ a mid, p input = some (a, mid) ∧ r mid = some (b, rest) :=
  bind_eq_some (f := fun _ => r)

theorem orElse_eq_some : (p <|> q) input = some (a, rest) ↔
    p input = some (a, rest) ∨ (p input = none ∧ q input = some (a, rest)) := by
  change ((p input).orElse fun _ => q input) = some (a, rest) ↔ _
  cases p input <;> simp

theorem orElse_eq_none : (p <|> q) input = none ↔ p input = none ∧ q input = none := by
  change ((p input).orElse fun _ => q input) = none ↔ _
  cases p input <;> simp

theorem map_eq_none {g : α → β} : (g <$> p) input = none ↔ p input = none := by
  change ((p input).bind fun r => some (g r.1, r.2)) = none ↔ _
  cases p input <;> simp

theorem char_eq_some {c : Char} {u : Unit} : char c input = some (u, rest) ↔ input = c :: rest := by
  cases input with
  | nil => simp [char]
  | cons d input =>
    rw [char]
    split
    · rename_i h
      simp [h]
    · rename_i h
      simp [h]

theorem char_eq_none {c : Char} : char c input = none ↔ input.head? ≠ some c := by
  cases input with
  | nil => simp [char]
  | cons d input =>
    rw [char]
    split
    · rename_i h
      simp [h]
    · rename_i h
      simp [h]

theorem char_seqRight_eq_some {c : Char} : (char c *> p) input = some (a, rest) ↔
    ∃ mid, input = c :: mid ∧ p mid = some (a, rest) := by
  rw [seqRight_eq_some]
  simp only [char_eq_some]
  exact ⟨fun ⟨_, mid, h⟩ => ⟨mid, h⟩, fun ⟨mid, h⟩ => ⟨(), mid, h⟩⟩

theorem char_bind_eq_none {c : Char} {f : Unit → Parser α} (h : input.head? ≠ some c) :
    (char c >>= f) input = none :=
  bind_eq_none (char_eq_none.mpr h)

theorem char_seqRight_eq_none {c : Char} (h : input.head? ≠ some c) :
    (char c *> p) input = none :=
  char_bind_eq_none (f := fun _ => p) h

/-- A text that is read up to the first character in `stop`: it has none of them, and at least one
character. -/
def Token (stop : Char → Bool) (name : String) : Prop :=
  name.toList ≠ [] ∧ ∀ c ∈ name.toList, stop c = false

instance (stop : Char → Bool) (name : String) : Decidable (Token stop name) :=
  decidable_of_iff (name.toList ≠ [] ∧ name.toList.all (!stop ·)) (by simp [Token])

theorem Token.imp {stop stop' : Char → Bool} {name : String} (h : Token stop name)
    (hStop : ∀ c, stop c = false → stop' c = false) : Token stop' name :=
  ⟨h.1, fun c hc => hStop c (h.2 c hc)⟩

theorem takeWhile_stop {stop : Char → Bool} {front : List Char}
    (hFront : ∀ c ∈ front, stop c = false) (hRest : ∀ c ∈ rest.head?, stop c = true) :
    (front ++ rest).takeWhile (!stop ·) = front ∧ (front ++ rest).dropWhile (!stop ·) = rest := by
  have hAll : ∀ c ∈ front, (!stop c) = true := fun c hc => by rw [hFront c hc]; rfl
  rw [List.takeWhile_append_of_pos hAll, List.dropWhile_append_of_pos hAll]
  cases rest with
  | nil => simp
  | cons c rest =>
    have hc := hRest c rfl
    simp [hc]

theorem takeTill_eq_some {stop : Char → Bool} {name : String} :
    takeTill stop input = some (name, rest) ↔
      Token stop name ∧ input = name.toList ++ rest ∧ ∀ c ∈ rest.head?, stop c = true := by
  constructor
  · intro h
    unfold takeTill at h
    split at h
    · cases h
    · rename_i hSome
      rw [Option.some.injEq, Prod.mk.injEq] at h
      obtain ⟨rfl, rfl⟩ := h
      refine ⟨⟨?_, fun c hc => ?_⟩, ?_, fun c hc => ?_⟩
      · rw [String.toList_ofList]
        exact hSome
      · rw [String.toList_ofList] at hc
        simpa using List.all_eq_true.mp List.all_takeWhile c hc
      · rw [String.toList_ofList, List.takeWhile_append_dropWhile]
      · have hHead := List.head?_dropWhile_not (fun c => !stop c) input
        rw [hc] at hHead
        simpa using hHead
  · rintro ⟨⟨hSome, hFree⟩, rfl, hRest⟩
    obtain ⟨hTake, hDrop⟩ := takeWhile_stop hFree hRest
    unfold takeTill
    rw [hTake, hDrop]
    split
    · rename_i hNone
      exact absurd hNone hSome
    · rw [String.ofList_toList]

/-- The items follow each other in the input, and no further one does. -/
inductive Repeats (item : Parser α) : List α → List Char → List Char → Prop
  | done {rest : List Char} (h : item rest = none) : Repeats item [] rest rest
  | step {a : α} {as : List α} {input mid rest : List Char} (h : item input = some (a, mid))
    (hRest : Repeats item as mid rest) : Repeats item (a :: as) input rest

/-- The parser takes at least one character. -/
def Shrinks (p : Parser α) : Prop :=
  ∀ input a rest, p input = some (a, rest) → rest.length < input.length

variable {item : Parser α} {as : List α}

theorem manyFrom_eq_some (hItem : Shrinks item) {fuel : Nat} {done : List α}
    (hFuel : input.length ≤ fuel) : manyFrom item fuel done input = some (as, rest) ↔
      ∃ as', as = done.reverse ++ as' ∧ Repeats item as' input rest := by
  -- As every item takes a character, the fuel stays at least as long as what is left.
  induction fuel generalizing done input with
  | zero =>
    obtain rfl := List.eq_nil_of_length_eq_zero (Nat.le_zero.mp hFuel)
    have hNone : item [] = none := by
      cases h : item [] with
      | none => rfl
      | some r => exact absurd (hItem [] r.1 r.2 h) (Nat.not_lt_zero _)
    rw [manyFrom, Option.some.injEq, Prod.mk.injEq]
    constructor
    · rintro ⟨rfl, rfl⟩
      exact ⟨[], (List.append_nil _).symm, .done hNone⟩
    · rintro ⟨as', rfl, hRepeats⟩
      cases hRepeats with
      | done _ => exact ⟨(List.append_nil _).symm, rfl⟩
      | step h _ =>
        rw [hNone] at h
        cases h
  | succ fuel ih =>
    rw [manyFrom]
    cases h : item input with
    | none =>
      dsimp only
      rw [Option.some.injEq, Prod.mk.injEq]
      constructor
      · rintro ⟨rfl, rfl⟩
        exact ⟨[], (List.append_nil _).symm, .done h⟩
      · rintro ⟨as', rfl, hRepeats⟩
        cases hRepeats with
        | done _ => exact ⟨(List.append_nil _).symm, rfl⟩
        | step h' _ =>
          rw [h] at h'
          cases h'
    | some r =>
      obtain ⟨a, mid⟩ := r
      have hShort := hItem input a mid h
      dsimp only
      rw [ih (by omega)]
      constructor
      · rintro ⟨as', rfl, hRepeats⟩
        exact ⟨a :: as', by simp, .step h hRepeats⟩
      · rintro ⟨as', rfl, hRepeats⟩
        cases hRepeats with
        | done h' =>
          rw [h] at h'
          cases h'
        | step h' hRest =>
          rw [h] at h'
          cases h'
          exact ⟨_, by simp, hRest⟩

theorem many_eq_some (hItem : Shrinks item) :
    many item input = some (as, rest) ↔ Repeats item as input rest := by
  rw [many, manyFrom_eq_some hItem (Nat.le_refl _)]
  simp

theorem many1_eq_some (hItem : Shrinks item) :
    many1 item input = some (as, rest) ↔ as ≠ [] ∧ Repeats item as input rest := by
  rw [many1, bind_eq_some]
  simp only [many_eq_some hItem]
  constructor
  · rintro ⟨items, mid, hRepeats, h⟩
    cases items with
    | nil => cases h
    | cons a items =>
      obtain ⟨rfl, rfl⟩ := pure_eq_some.mp h
      exact ⟨List.cons_ne_nil _ _, hRepeats⟩
  · rintro ⟨hSome, hRepeats⟩
    refine ⟨as, rest, hRepeats, ?_⟩
    cases as with
    | nil => exact absurd rfl hSome
    | cons a as => exact pure_eq_some.mpr ⟨rfl, rfl⟩

theorem optional_eq_some {o : Option α} : optional p input = some (o, rest) ↔
    (∃ a, p input = some (a, rest) ∧ o = some a) ∨
      (p input = none ∧ o = none ∧ rest = input) := by
  rw [optional, orElse_eq_some, map_eq_some, map_eq_none, pure_eq_some]

theorem between_eq_some {left right : Char} : between left right p input = some (a, rest) ↔
    ∃ mid, input = left :: mid ∧ p mid = some (a, right :: rest) := by
  rw [between, bind_eq_some]
  simp only [bind_eq_some, char_eq_some, pure_eq_some]
  constructor
  · rintro ⟨_, mid, rfl, a', mid', h, _, _, rfl, rfl, rfl⟩
    exact ⟨mid, rfl, h⟩
  · rintro ⟨mid, rfl, h⟩
    exact ⟨(), mid, rfl, a, _, h, (), rest, rfl, rfl, rfl⟩

theorem between_eq_none {left right : Char} (h : input.head? ≠ some left) :
    between left right p input = none :=
  char_bind_eq_none h

theorem whole?_eq_some {text : String} : whole? p text = some a ↔
    p text.toList = some (a, []) := by
  unfold whole?
  split
  · rename_i h
    rw [h]
    simp
  · rename_i h
    constructor
    · intro h'
      cases h'
    · intro h'
      exact absurd h' (h a)

/-- What an item is written as. -/
structure Exact (item : Parser α) (W : α → Prop) (chars : α → List Char) : Prop where
  eq_some : ∀ {input a rest}, item input = some (a, rest) ↔ W a ∧ input = chars a ++ rest
  ne_nil : ∀ {a}, W a → chars a ≠ []

variable {W : α → Prop} {chars : α → List Char}

theorem Exact.shrinks (hItem : Exact item W chars) : Shrinks item := by
  intro input a rest h
  obtain ⟨ha, rfl⟩ := hItem.eq_some.mp h
  have hLength := List.length_pos_iff.mpr (hItem.ne_nil ha)
  rw [List.length_append]
  omega

theorem Exact.repeats_iff (hItem : Exact item W chars) : Repeats item as input rest ↔
    (∀ a ∈ as, W a) ∧ input = as.flatMap chars ++ rest ∧ item rest = none := by
  constructor
  · intro h
    induction h with
    | done h => exact ⟨fun a ha => absurd ha List.not_mem_nil, rfl, h⟩
    | step h _ ih =>
      obtain ⟨ha, rfl⟩ := hItem.eq_some.mp h
      obtain ⟨hAll, rfl, hNone⟩ := ih
      refine ⟨List.forall_mem_cons.mpr ⟨ha, hAll⟩, ?_, hNone⟩
      rw [List.flatMap_cons, List.append_assoc]
  · rintro ⟨hAll, rfl, hNone⟩
    induction as with
    | nil => exact .done hNone
    | cons a as ih =>
      obtain ⟨ha, hAll⟩ := List.forall_mem_cons.mp hAll
      refine .step (hItem.eq_some.mpr ⟨ha, ?_⟩) (ih hAll)
      rw [List.flatMap_cons, List.append_assoc]

end Renaming.Parser
