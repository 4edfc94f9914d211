import Renaming.Text.Parser
import Renaming.Text.Split

/-!
# Descriptors

The types of fields and methods. `FieldType.parse` and `MethodDescriptor.parse` accept exactly
what `text` writes for types whose class names are not empty and free of the four characters that
end a name.
-/

namespace Renaming

inductive Primitive where
  | byte | char | double | float | int | long | short | boolean
deriving DecidableEq, Repr

namespace Primitive

def letter : Primitive → Char
  | byte => 'B'
  | char => 'C'
  | double => 'D'
  | float => 'F'
  | int => 'I'
  | long => 'J'
  | short => 'S'
  | boolean => 'Z'

def ofLetter? : Char → Option Primitive
  | 'B' => some byte
  | 'C' => some char
  | 'D' => some double
  | 'F' => some float
  | 'I' => some int
  | 'J' => some long
  | 'S' => some short
  | 'Z' => some boolean
  | _ => none

@[simp] theorem ofLetter?_letter (p : Primitive) : ofLetter? p.letter = some p := by
  cases p <;> rfl

theorem ofLetter?_eq_some_iff {c : Char} {p : Primitive} : ofLetter? c = some p ↔ p.letter = c := by
  refine ⟨fun h => ?_, fun h => h ▸ ofLetter?_letter p⟩
  unfold ofLetter? at h
  split at h <;> simp_all <;> subst h <;> rfl

end Primitive

/-- A renaming of classes; a class without an answer keeps its name. -/
abbrev ClassRenaming := String → Option String

def ClassRenaming.apply (f : ClassRenaming) (name : String) : String := (f name).getD name

inductive FieldType where
  | base (p : Primitive)
  | object (name : String)
  | array (element : FieldType)
deriving DecidableEq, Repr

structure MethodDescriptor where
  parameters : List FieldType
  /-- Absent if the method returns nothing. -/
  returnType : Option FieldType
deriving DecidableEq, Repr

structure InvalidDescriptor where
  text : String
deriving DecidableEq, Repr

def InvalidDescriptor.message (e : InvalidDescriptor) : String :=
  s!"invalid descriptor `{e.text}`"

namespace FieldType

def endsName (c : Char) : Bool := c = ';' || c = '.' || c = '[' || c = '<'

def chars : FieldType → List Char
  | base p => [p.letter]
  | object name => 'L' :: name.toList ++ [';']
  | array element => '[' :: element.chars

def text (t : FieldType) : String := String.ofList t.chars

def element : FieldType → FieldType
  | array inner => inner.element
  | t => t

def rename (f : ClassRenaming) : FieldType → FieldType
  | base p => base p
  | object name => object (f.apply name)
  | array element => array (element.rename f)

def parseName : Parser String := do
  let name ← Parser.takeTill endsName
  Parser.char ';'
  return name

def parseNext : Parser FieldType
  | [] => none
  | 'L' :: rest => (parseName rest).map fun (name, rest) => (object name, rest)
  | '[' :: rest => (parseNext rest).map fun (inner, rest) => (array inner, rest)
  | c :: rest => (Primitive.ofLetter? c).map fun p => (base p, rest)

def parse (text : String) : Except InvalidDescriptor FieldType :=
  match Parser.whole? parseNext text with
  | some t => .ok t
  | none => .error ⟨text⟩

end FieldType

namespace MethodDescriptor

def chars (d : MethodDescriptor) : List Char :=
  '(' :: d.parameters.flatMap FieldType.chars ++ ')' :: d.returnType.elim ['V'] FieldType.chars

def text (d : MethodDescriptor) : String := String.ofList d.chars

def classNames (d : MethodDescriptor) : List String :=
  (d.parameters ++ d.returnType.toList).filterMap fun t =>
    match t.element with
    | .object name => some name
    | _ => none

def rename (f : ClassRenaming) (d : MethodDescriptor) : MethodDescriptor :=
  ⟨d.parameters.map (FieldType.rename f), d.returnType.map (FieldType.rename f)⟩

def parseNext : Parser MethodDescriptor := do
  let parameters ← Parser.between '(' ')' (Parser.many FieldType.parseNext)
  let returnType ← some <$> FieldType.parseNext <|> (Parser.char 'V' *> pure none)
  return ⟨parameters, returnType⟩

def parse (text : String) : Except InvalidDescriptor MethodDescriptor :=
  match Parser.whole? parseNext text with
  | some d => .ok d
  | none => .error ⟨text⟩

end MethodDescriptor

namespace Descriptor

def renameField (f : ClassRenaming) (descriptor : String) : Except InvalidDescriptor String :=
  return ((← FieldType.parse descriptor).rename f).text

def renameMethod (f : ClassRenaming) (descriptor : String) : Except InvalidDescriptor String :=
  return ((← MethodDescriptor.parse descriptor).rename f).text

/-- Renames the classes in a descriptor; that of a method starts with a parenthesis. -/
def rename (f : ClassRenaming) (descriptor : String) : Except InvalidDescriptor String :=
  if Text.startsWith '(' descriptor then renameMethod f descriptor else renameField f descriptor

/-- Renames a reference to a class, which is a class name or the descriptor of an array. -/
def renameReference (f : ClassRenaming) (reference : String) : Except InvalidDescriptor String :=
  if Text.startsWith '[' reference then renameField f reference else .ok (f.apply reference)

end Descriptor

end Renaming
