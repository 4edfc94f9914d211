/-!
# Blanks and lines

The characters with the property `White_Space` separate words; the newline separates lines.
-/

namespace Renaming.Text

/-- The characters with the property `White_Space`. -/
def isBlank (c : Char) : Bool :=
  let n := c.toNat
  (0x09 ≤ n && n ≤ 0x0d) || n = 0x20 || n = 0x85 || n = 0xa0 || n = 0x1680 ||
    (0x2000 ≤ n && n ≤ 0x200a) || n = 0x2028 || n = 0x2029 || n = 0x202f || n = 0x205f || n = 0x3000

/-- The pieces between the characters that satisfy `p`; one more than there are such characters.
The piece before the first of them starts with `front` reversed. -/
def piecesFrom (p : Char → Bool) (front : List Char) : List Char → List (List Char)
  | [] => [front.reverse]
  | c :: rest =>
    if p c then front.reverse :: piecesFrom p [] rest else piecesFrom p (c :: front) rest

def words (s : String) : List String :=
  ((piecesFrom isBlank [] s.toList).filter (· ≠ [])).map String.ofList

def lines (s : String) : List String :=
  (piecesFrom (· = '\n') [] s.toList).map String.ofList

end Renaming.Text
