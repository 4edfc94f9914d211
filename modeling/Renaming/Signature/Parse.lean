import Renaming.Signature

/-!
# Reading generic signatures

Types nest, so the parser of types is tied to itself with a depth. Every type takes a character
before a type inside it starts, and the length of the text is deep enough.
-/

namespace Renaming

namespace TypeSignature

def endsIdentifier (c : Char) : Bool :=
  c = '.' || c = ';' || c = '[' || c = '/' || c = '<' || c = '>' || c = ':'

def endsClassName (c : Char) : Bool := c = ';' || c = '<' || c = '.'

def parseIdentifier : Parser String := Parser.takeTill endsIdentifier

def parsePrimitive : Parser Primitive
  | [] => none
  | c :: rest => (Primitive.ofLetter? c).map (·, rest)

def parseArgument (reference : Parser TypeSignature) : Parser (TypeArgument TypeSignature) :=
  (Parser.char '*' *> pure .any) <|> (Parser.char '+' *> .upper <$> reference) <|>
    (Parser.char '-' *> .lower <$> reference) <|> .invariant <$> reference

def parseArguments (reference : Parser TypeSignature) :
    Parser (List (TypeArgument TypeSignature)) := do
  return (← Parser.optional
    (Parser.between '<' '>' (Parser.many1 (parseArgument reference)))).getD []

def parseInner (reference : Parser TypeSignature) : Parser (ClassTypePart TypeSignature) := do
  Parser.char '.'
  let name ← parseIdentifier
  return ⟨name, ← parseArguments reference⟩

def parseClassType (reference : Parser TypeSignature) : Parser ClassType := do
  Parser.char 'L'
  let name ← Parser.takeTill endsClassName
  let arguments ← parseArguments reference
  let inner ← Parser.many (parseInner reference)
  Parser.char ';'
  return ⟨⟨name, arguments⟩, inner⟩

def parseVar : Parser TypeSignature := do
  Parser.char 'T'
  let name ← parseIdentifier
  Parser.char ';'
  return var name

def parseAny (reference : Parser TypeSignature) : Parser TypeSignature :=
  base <$> parsePrimitive <|> reference

/-- A reference type with at most `depth` levels. -/
def parseReference : (depth : Nat) → Parser TypeSignature
  | 0 => failure
  | depth + 1 =>
    let nested := parseReference depth
    classType <$> parseClassType nested <|> parseVar <|>
      (Parser.char '[' *> array <$> parseAny nested)

def reference : Parser TypeSignature := fun input => parseReference input.length input

def parse (text : String) : Except InvalidSignature TypeSignature :=
  match Parser.whole? (parseAny reference) text with
  | some t => .ok t
  | none => .error ⟨text⟩

end TypeSignature

def ClassTypeOf.parseNext : Parser ClassType := TypeSignature.parseClassType TypeSignature.reference

namespace TypeParameter

def parseNext : Parser TypeParameter := do
  let name ← TypeSignature.parseIdentifier
  Parser.char ':'
  let classBound ← Parser.optional TypeSignature.reference
  let interfaceBounds ← Parser.many (Parser.char ':' *> TypeSignature.reference)
  return ⟨name, classBound, interfaceBounds⟩

def parseList : Parser (List TypeParameter) := do
  return (← Parser.optional (Parser.between '<' '>' (Parser.many1 parseNext))).getD []

end TypeParameter

namespace ClassSignature

def parseNext : Parser ClassSignature := do
  let typeParameters ← TypeParameter.parseList
  let superclass ← ClassTypeOf.parseNext
  let interfaces ← Parser.many ClassTypeOf.parseNext
  return ⟨typeParameters, superclass, interfaces⟩

def parse (text : String) : Except InvalidSignature ClassSignature :=
  match Parser.whole? parseNext text with
  | some s => .ok s
  | none => .error ⟨text⟩

end ClassSignature

namespace MethodSignature

def parseNext : Parser MethodSignature := do
  let any := TypeSignature.parseAny TypeSignature.reference
  let typeParameters ← TypeParameter.parseList
  let parameters ← Parser.between '(' ')' (Parser.many any)
  let returnType ← some <$> any <|> (Parser.char 'V' *> pure none)
  let throws ← Parser.many
    (Parser.char '^' *> (.classType <$> ClassTypeOf.parseNext <|> TypeSignature.parseVar))
  return ⟨typeParameters, parameters, returnType, throws⟩

def parse (text : String) : Except InvalidSignature MethodSignature :=
  match Parser.whole? parseNext text with
  | some s => .ok s
  | none => .error ⟨text⟩

end MethodSignature

inductive SignatureKind where
  | ofClass | ofMethod | ofField
deriving DecidableEq, Repr

def SignatureKind.rename (f : ClassRenaming) (text : String) :
    SignatureKind → Except InvalidSignature String
  | ofClass => return ((← ClassSignature.parse text).rename f).text
  | ofMethod => return ((← MethodSignature.parse text).rename f).text
  | ofField => return ((← TypeSignature.parse text).rename f).text

end Renaming
