import Renaming.Failure
import Renaming.Text.Parser

/-!
# Configuration

A configuration is written as JSON, either as an object with some of the four keys or as an array
of the first few values in the order of the fields. What is left out has its default.
-/

namespace Renaming

structure Config where
  workers : UInt64 := 0
  classpathTimeout : Option UInt64 := none
  rebuildSourceFile : Bool := false
  failOnUnresolved : Bool := false
deriving DecidableEq, Repr

namespace Config

def standard : Config where

inductive Setting where
  | workers | classpathTimeout | rebuildSourceFile | failOnUnresolved
deriving DecidableEq, Repr

def Setting.all : List Setting :=
  [.workers, .classpathTimeout, .rebuildSourceFile, .failOnUnresolved]

def Setting.key : Setting → String
  | workers => "workers"
  | classpathTimeout => "classpath_timeout_ms"
  | rebuildSourceFile => "rebuild_source_file_names"
  | failOnUnresolved => "fail_on_unresolved"

def skipBlanks : Parser Unit := fun input =>
  some ((), input.dropWhile fun c => c = ' ' || c = '\n' || c = '\t' || c = '\r')

def keyword (word : String) : Parser Unit := word.toList.forM Parser.char

def parseBool : Parser Bool :=
  (keyword "true" *> pure true) <|> (keyword "false" *> pure false)

/-- A natural number below 2⁶⁴ without a sign, superfluous zeros, fraction or exponent. -/
def parseNumber : Parser UInt64 := fun input =>
  let digits := input.takeWhile Char.isDigit
  let rest := input.dropWhile Char.isDigit
  let value := digits.foldl (fun n c => 10 * n + (c.toNat - '0'.toNat)) 0
  if digits.isEmpty || (digits.head? = some '0' && digits.length > 1) || value ≥ 0x10000000000000000 ||
      rest.head? = some '.' || rest.head? = some 'e' || rest.head? = some 'E' then none
  else some (UInt64.ofNat value, rest)

def hexDigit? (c : Char) : Option Nat :=
  if c.isDigit then some (c.toNat - '0'.toNat)
  else if 'a' ≤ c && c ≤ 'f' then some (c.toNat - 'a'.toNat + 10)
  else if 'A' ≤ c && c ≤ 'F' then some (c.toNat - 'A'.toNat + 10)
  else none

/-- The rest of a string that holds a key, after the characters of `done` in reverse. Keys consist
of letters and underscores, which of all escapes only the one by code can stand for. -/
def keyFrom (done : List Char) : List Char → Option (String × List Char)
  | '"' :: rest => some (String.ofList done.reverse, rest)
  | '\\' :: 'u' :: a :: b :: c :: d :: rest => do
    let code := 4096 * (← hexDigit? a) + 256 * (← hexDigit? b) + 16 * (← hexDigit? c) +
      (← hexDigit? d)
    keyFrom (Char.ofNat code :: done) rest
  | '\\' :: _ => none
  | c :: rest => keyFrom (c :: done) rest
  | [] => none

def parseSetting : Parser Setting := do
  Parser.char '"'
  let key ← keyFrom []
  match Setting.all.find? (·.key = key) with
  | some setting => return setting
  | none => failure

def parseValue (c : Config) : Setting → Parser Config
  | .workers => do return { c with workers := ← parseNumber }
  | .classpathTimeout => do
    let timeout ← some <$> parseNumber <|> (keyword "null" *> pure none)
    return { c with classpathTimeout := timeout }
  | .rebuildSourceFile => do return { c with rebuildSourceFile := ← parseBool }
  | .failOnUnresolved => do return { c with failOnUnresolved := ← parseBool }

def parseArray (c : Config) : List Setting → Parser Config
  | [] => failure
  | setting :: rest => do
    skipBlanks
    let c ← parseValue c setting
    skipBlanks
    (Parser.char ']' *> pure c) <|> (Parser.char ',' *> parseArray c rest)

/-- Keys out of `settings` with their values, up to the closing brace. Every key found is taken out
of the settings that are left, so that no key comes twice. -/
def parseObject : (fuel : Nat) → List Setting → Config → Parser Config
  | 0, _, _ => failure
  | fuel + 1, settings, c => do
    skipBlanks
    let setting ← parseSetting
    if setting ∉ settings then failure
    skipBlanks
    Parser.char ':'
    skipBlanks
    let c ← parseValue c setting
    skipBlanks
    (Parser.char '\x7d' *> pure c) <|>
      (Parser.char ',' *> parseObject fuel (settings.erase setting) c)

def parseBody (close : Char) (items : Parser Config) : Parser Config :=
  (skipBlanks *> Parser.char close *> pure standard) <|> items

def parseNext : Parser Config := do
  skipBlanks
  let c ← (Parser.char '[' *> parseBody ']' (parseArray standard Setting.all)) <|>
    (Parser.char '\x7b' *> parseBody '\x7d' (parseObject Setting.all.length Setting.all standard))
  skipBlanks
  return c

def parse (text : String) : Except Failure Config :=
  match Parser.whole? parseNext text with
  | some c => .ok c
  | none => .error .configuration

end Config

end Renaming
