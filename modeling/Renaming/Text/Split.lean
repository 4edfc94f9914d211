/-!
# Cutting text

Text is cut at a character or after a fixed beginning. Everything is stated on lists of characters,
where the laws of lists apply.
-/

namespace Renaming.Text

def splitAtLast? (c : Char) (s : String) : Option (String × String) :=
  let back := s.toList.reverse
  match back.dropWhile (· ≠ c) with
  | [] => none
  | _ :: before =>
    some (String.ofList before.reverse, String.ofList (back.takeWhile (· ≠ c)).reverse)

/-- The part of `s` before the first `c`, or all of it. -/
def beforeFirst (c : Char) (s : String) : String :=
  String.ofList (s.toList.takeWhile (· ≠ c))

/-- The part of `s` after the last `c`, or all of it. -/
def afterLast (c : Char) (s : String) : String :=
  ((splitAtLast? c s).map Prod.snd).getD s

def stripStart? (start s : String) : Option String :=
  if start.toList.isPrefixOf s.toList then
    some (String.ofList (s.toList.drop start.toList.length))
  else none

def stripEnd? (stop s : String) : Option String :=
  if stop.toList.isSuffixOf s.toList then
    some (String.ofList (s.toList.take (s.toList.length - stop.toList.length)))
  else none

def startsWith (c : Char) (s : String) : Bool := s.toList.head? = some c

end Renaming.Text
