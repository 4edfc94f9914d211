import Mathlib.Data.List.TakeWhile
import Renaming.Proofs.Text.Parser
import Renaming.Text.Blank
import Renaming.Text.Split

/-!
# Where text is cut

A cut at a last character is undone by putting the character back. A text starts with none of the
characters that it does not hold.
-/

namespace Renaming.Text

open Renaming.Parser

theorem splitAtLast?_eq_some {c : Char} {s before after : String} :
    splitAtLast? c s = some (before, after) ↔
      s.toList = before.toList ++ c :: after.toList ∧ c ∉ after.toList := by
  have hStop : (fun d : Char => decide (d ≠ c)) = fun d => !decide (d = c) := by
    funext d
    rw [decide_not]
  constructor
  · intro h
    unfold splitAtLast? at h
    dsimp only at h
    split at h
    · cases h
    · rename_i d front hDrop
      cases h
      have hHead := List.head?_dropWhile_not (fun d => decide (d ≠ c)) s.toList.reverse
      rw [hDrop] at hHead
      obtain rfl : d = c := by simpa using hHead
      have hBack := List.takeWhile_append_dropWhile (p := fun e => decide (e ≠ d))
        (l := s.toList.reverse)
      have hFree := List.all_eq_true.mp
        (List.all_takeWhile (p := fun e => decide (e ≠ d)) (l := s.toList.reverse))
      rw [hDrop] at hBack
      generalize s.toList.reverse.takeWhile (fun e => decide (e ≠ d)) = back at hBack hFree ⊢
      rw [String.toList_ofList, String.toList_ofList, List.mem_reverse]
      constructor
      · rw [← List.reverse_reverse s.toList, ← hBack, List.reverse_append, List.reverse_cons,
          List.append_assoc, List.singleton_append]
      · exact fun hMem => of_decide_eq_true (hFree d hMem) rfl
  · rintro ⟨hSplit, hFree⟩
    have hBack : s.toList.reverse = after.toList.reverse ++ c :: before.toList.reverse := by
      rw [hSplit, List.reverse_append, List.reverse_cons, List.append_assoc, List.singleton_append]
    have hAfter : ∀ d ∈ after.toList.reverse, decide (d = c) = false := by
      intro d hd
      rw [decide_eq_false_iff_not]
      rintro rfl
      exact hFree (List.mem_reverse.mp hd)
    have hHead : ∀ d ∈ (c :: before.toList.reverse).head?, decide (d = c) = true := by
      rintro d ⟨⟩
      exact decide_eq_true rfl
    obtain ⟨hTake, hDrop⟩ := takeWhile_stop hAfter hHead
    unfold splitAtLast?
    dsimp only
    rw [hBack, hStop, hTake, hDrop]
    simp

theorem splitAtLast?_eq_none {c : Char} {s : String} :
    splitAtLast? c s = none ↔ c ∉ s.toList := by
  constructor
  · intro h
    unfold splitAtLast? at h
    dsimp only at h
    split at h
    · rename_i hDrop
      rw [List.dropWhile_eq_nil_iff] at hDrop
      exact fun hMem => of_decide_eq_true (hDrop c (List.mem_reverse.mpr hMem)) rfl
    · cases h
  · intro h
    rw [Option.eq_none_iff_forall_ne_some]
    intro parts hSplit
    rw [(splitAtLast?_eq_some.mp hSplit).1] at h
    exact h (List.mem_append_right _ List.mem_cons_self)

theorem afterLast_of_notMem {c : Char} {s : String} (h : c ∉ s.toList) : afterLast c s = s := by
  rw [afterLast, splitAtLast?_eq_none.mpr h]
  rfl

theorem afterLast_of_split {c : Char} {s before after : String}
    (h : s.toList = before.toList ++ c :: after.toList) (hFree : c ∉ after.toList) :
    afterLast c s = after := by
  rw [afterLast, splitAtLast?_eq_some.mpr ⟨h, hFree⟩]
  rfl

/-- What comes behind a text and holds no `c` is behind its last `c`, too. -/
theorem afterLast_append {c : Char} (s : String) {t : String} (h : c ∉ t.toList) :
    afterLast c (s ++ t) = afterLast c s ++ t := by
  cases hSplit : splitAtLast? c s with
  | none =>
    rw [splitAtLast?_eq_none] at hSplit
    rw [afterLast_of_notMem hSplit, afterLast_of_notMem]
    rw [String.toList_append, List.mem_append, not_or]
    exact ⟨hSplit, h⟩
  | some parts =>
    obtain ⟨hParts, hFree⟩ := splitAtLast?_eq_some.mp hSplit
    rw [afterLast_of_split hParts hFree]
    have hWhole : (s ++ t).toList = parts.1.toList ++ c :: (parts.2 ++ t).toList := by
      rw [String.toList_append, hParts, String.toList_append, List.append_assoc, List.cons_append]
    refine afterLast_of_split hWhole ?_
    rw [String.toList_append, List.mem_append, not_or]
    exact ⟨hFree, h⟩

/-- What stands before a `c` does not matter for what is behind the last one. -/
theorem afterLast_append_separator {c : Char} {s separator t : String}
    (hSeparator : separator.toList = [c]) :
    afterLast c (s ++ separator ++ t) = afterLast c t := by
  have hWhole : (s ++ separator ++ t).toList = s.toList ++ c :: t.toList := by
    rw [String.toList_append, String.toList_append, hSeparator, List.append_assoc,
      List.singleton_append]
  cases hSplit : splitAtLast? c t with
  | none =>
    rw [splitAtLast?_eq_none] at hSplit
    rw [afterLast_of_split hWhole hSplit, afterLast_of_notMem hSplit]
  | some parts =>
    obtain ⟨hParts, hFree⟩ := splitAtLast?_eq_some.mp hSplit
    have hFront : (s ++ separator ++ t).toList =
        (s ++ separator ++ parts.1).toList ++ c :: parts.2.toList := by
      rw [hWhole, hParts, String.toList_append, String.toList_append, hSeparator, List.append_assoc,
        List.append_assoc, List.singleton_append]
    rw [afterLast_of_split hFront hFree, afterLast_of_split hParts hFree]

theorem stripStart?_eq_some {start s rest : String} :
    stripStart? start s = some rest ↔ s = start ++ rest := by
  rw [stripStart?]
  constructor
  · intro h
    split at h
    · rename_i hStart
      obtain ⟨after, hAfter⟩ := List.isPrefixOf_iff_prefix.mp hStart
      cases h
      rw [← String.toList_inj, String.toList_append, String.toList_ofList, ← hAfter,
        List.drop_left]
    · cases h
  · rintro rfl
    rw [String.toList_append, if_pos (List.isPrefixOf_iff_prefix.mpr (List.prefix_append _ _)),
      List.drop_left, String.ofList_toList]

theorem startsWith_of_notMem {c : Char} {s : String} (h : c ∉ s.toList) :
    startsWith c s = false := by
  rw [startsWith, decide_eq_false_iff_not]
  exact fun hHead => h (List.mem_of_mem_head? hHead)

end Renaming.Text
