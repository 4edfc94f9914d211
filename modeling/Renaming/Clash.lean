import Std.Data.HashMap

/-!
# Clashes

Two items clash if they have the same key. The search below answers the first item that clashes
with one before it, together with that one.
-/

namespace Renaming

variable {α κ : Type} [BEq κ] [Hashable κ]

def firstClashFrom (key : α → κ) (seen : Std.HashMap κ α) : List α → Option (α × α)
  | [] => none
  | a :: rest =>
    match seen[key a]? with
    | some earlier => some (earlier, a)
    | none => firstClashFrom key (seen.insert (key a) a) rest

/-- The first item that clashes with one before it, after that one. -/
def firstClash? (key : α → κ) (items : List α) : Option (α × α) := firstClashFrom key ∅ items

end Renaming
