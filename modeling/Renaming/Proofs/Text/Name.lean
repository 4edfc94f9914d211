import Renaming.Proofs.Text.Parser

/-!
# Names

What may stand as a name is told by the characters that it must not hold. A path has such names between
its slashes.
-/

namespace Renaming.Text

open Renaming.Parser

/-- Not empty and free of the characters in `cs`. -/
def FreeOf (cs : List Char) (name : String) : Prop := name ≠ "" ∧ ∀ c ∈ name.toList, c ∉ cs

instance (cs : List Char) (name : String) : Decidable (FreeOf cs name) :=
  decidable_of_iff (name ≠ "" ∧ name.toList.all (· ∉ cs)) <| by
    rw [FreeOf, List.all_eq_true]
    simp only [decide_eq_true_eq]

theorem freeOf_iff_chars {cs : List Char} {name : String} :
    FreeOf cs name ↔ name.toList ≠ [] ∧ ∀ c ∈ name.toList, c ∉ cs := by
  rw [FreeOf, ne_eq, ← String.toList_inj]
  rfl

theorem freeOf_iff_token {stop : Char → Bool} {cs : List Char} (h : ∀ c, stop c = true ↔ c ∈ cs)
    {name : String} : FreeOf cs name ↔ Token stop name := by
  rw [freeOf_iff_chars, Token]
  simp only [← Bool.not_eq_true, h]

/-- Parts that satisfy `P`, with slashes between them. -/
def Path (P : String → Prop) (name : String) : Prop :=
  ∃ parts : List String, parts ≠ [] ∧ (∀ part ∈ parts, P part) ∧ name = "/".intercalate parts

variable {P : String → Prop} {name : String}

theorem toList_intercalate_cons (first second : String) (parts : List String) :
    ("/".intercalate (first :: second :: parts)).toList =
      first.toList ++ '/' :: ("/".intercalate (second :: parts)).toList := by
  simp [String.toList_intercalate]

theorem Path.token {stop : Char → Bool} (h : Path P name) (hPart : ∀ part, P part → Token stop part)
    (hSlash : stop '/' = false) : Token stop name := by
  obtain ⟨parts, hSome, hParts, rfl⟩ := h
  induction parts with
  | nil => exact absurd rfl hSome
  | cons first parts ih =>
    obtain ⟨hFirst, hParts⟩ := List.forall_mem_cons.mp hParts
    cases parts with
    | nil => exact hPart first hFirst
    | cons second parts =>
      rw [Token, toList_intercalate_cons]
      refine ⟨by simp, List.forall_mem_append.mpr ⟨(hPart first hFirst).2, ?_⟩⟩
      exact List.forall_mem_cons.mpr ⟨hSlash, (ih (List.cons_ne_nil _ _) hParts).2⟩

end Renaming.Text
