/-!
# Parsers of text

A parser takes characters off the front of its input. A failed parser takes nothing, so that an
alternative starts where it started.
-/

namespace Renaming

abbrev Parser := StateT (List Char) Option

namespace Parser

def char (c : Char) : Parser Unit := fun
  | d :: rest => if d = c then some ((), rest) else none
  | [] => none

def takeTill (stop : Char → Bool) : Parser String := fun input =>
  match input.takeWhile (!stop ·) with
  | [] => none
  | front => some (String.ofList front, input.dropWhile (!stop ·))

/-- At most `fuel` more items after those of `done` in reverse. -/
def manyFrom {α : Type} (item : Parser α) : (fuel : Nat) → (done : List α) → Parser (List α)
  | 0, done, input => some (done.reverse, input)
  | fuel + 1, done, input =>
    match item input with
    | none => some (done.reverse, input)
    | some (a, rest) => manyFrom item fuel (a :: done) rest

/-- As many items as there are. An item takes at least one character, so that their number is
bounded by the length of the input. -/
def many {α : Type} (item : Parser α) : Parser (List α) := fun input =>
  manyFrom item input.length [] input

def many1 {α : Type} (item : Parser α) : Parser (List α) := do
  match ← many item with
  | [] => failure
  | items => return items

def optional {α : Type} (item : Parser α) : Parser (Option α) :=
  some <$> item <|> pure none

def between {α : Type} (left right : Char) (item : Parser α) : Parser α := do
  char left
  let a ← item
  char right
  return a

def whole? {α : Type} (p : Parser α) (text : String) : Option α :=
  match p text.toList with
  | some (a, []) => some a
  | _ => none

end Parser

end Renaming
