import Renaming.Text.Blank
import Renaming.Text.Split

/-!
# Lines and their words

A line ends in a newline, perhaps with a carriage return before it. What a line ends in is blank, so that
it says nothing about the words of the line.
-/

namespace Renaming.Text

section Pieces

variable {p : Char → Bool} {front cs : List Char}

theorem piecesFrom_append_stop {c : Char} (hc : p c = true) :
    piecesFrom p front (cs ++ [c]) = piecesFrom p front cs ++ [[]] := by
  induction cs generalizing front with
  | nil => simp [piecesFrom, hc]
  | cons d cs ih =>
    rw [List.cons_append, piecesFrom, piecesFrom]
    split
    · rw [ih, List.cons_append]
    · exact ih

theorem filter_piecesFrom_eq_nil :
    (piecesFrom p front cs).filter (· ≠ []) = [] ↔ front = [] ∧ ∀ c ∈ cs, p c = true := by
  induction cs generalizing front with
  | nil => simp [piecesFrom]
  | cons c cs ih =>
    rw [piecesFrom, List.forall_mem_cons]
    split
    · rename_i hc
      rw [List.filter_cons]
      cases front with
      | nil => simpa [hc] using @ih []
      | cons d front => simp
    · rename_i hc
      rw [ih]
      simp [hc]

end Pieces

theorem words_eq_nil_iff {s : String} : words s = [] ↔ ∀ c ∈ s.toList, isBlank c = true := by
  rw [words, List.map_eq_nil_iff, filter_piecesFrom_eq_nil, and_iff_right rfl]

theorem words_append_blank {s s' : String} {c : Char} (hc : isBlank c = true)
    (h : s'.toList = s.toList ++ [c]) : words s' = words s := by
  rw [words, words, h, piecesFrom_append_stop hc, List.filter_append]
  simp

/-- A line without the carriage return that ends it, if one does. -/
def withoutReturn (line : String) : String := (stripEnd? "\r" line).getD line

/-- The lines of a text without their ends; a last line may have none, and is then no line if it is
empty. -/
def endedLines (s : String) : List String :=
  (lines s).dropLast.map withoutReturn ++ (lines s).getLast?.toList.filter (· ≠ "")

theorem withoutReturn_cases (line : String) :
    withoutReturn line = line ∨ line.toList = (withoutReturn line).toList ++ ['\r'] := by
  rw [withoutReturn, stripEnd?]
  split
  · rename_i hEnd
    right
    obtain ⟨front, hFront⟩ := List.isSuffixOf_iff_suffix.mp hEnd
    rw [Option.getD_some, String.toList_ofList, ← hFront, List.length_append, Nat.add_sub_cancel,
      List.take_left]
    rfl
  · exact .inl rfl

end Renaming.Text
