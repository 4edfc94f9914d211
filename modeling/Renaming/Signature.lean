import Renaming.Descriptor

/-!
# Generic signatures

The types of the source language, with type arguments and type variables, as the `Signature` and
`LocalVariableTypeTable` attributes hold them. A class type names its outermost class in full and
every nested class by its simple name.
-/

namespace Renaming

/-- A type argument over types `τ`: any type, one type, or the types below or above a bound. -/
inductive TypeArgument (τ : Type) where
  | any
  | invariant (type : τ)
  | upper (bound : τ)
  | lower (bound : τ)

structure ClassTypePart (τ : Type) where
  name : String
  arguments : List (TypeArgument τ)

/-- The outermost class and, from outside in, the nested ones. -/
structure ClassTypeOf (τ : Type) where
  head : ClassTypePart τ
  inner : List (ClassTypePart τ)

inductive TypeSignature where
  | base (p : Primitive)
  | classType (c : ClassTypeOf TypeSignature)
  | var (name : String)
  | array (element : TypeSignature)

abbrev ClassType := ClassTypeOf TypeSignature

structure TypeParameter where
  name : String
  classBound : Option TypeSignature
  interfaceBounds : List TypeSignature

structure ClassSignature where
  typeParameters : List TypeParameter
  superclass : ClassType
  interfaces : List ClassType

structure MethodSignature where
  typeParameters : List TypeParameter
  parameters : List TypeSignature
  returnType : Option TypeSignature
  throws : List TypeSignature

structure InvalidSignature where
  text : String
deriving DecidableEq, Repr

def InvalidSignature.message (e : InvalidSignature) : String :=
  s!"invalid generic signature `{e.text}`"

def angled (isEmpty : Bool) (items : List Char) : List Char :=
  if isEmpty then [] else '<' :: items ++ ['>']

namespace TypeSignature

mutual

def chars : TypeSignature → List Char
  | base p => [p.letter]
  | classType ⟨⟨name, arguments⟩, inner⟩ =>
    'L' :: name.toList ++ angled arguments.isEmpty (argumentChars arguments) ++
      innerChars inner ++ [';']
  | var name => 'T' :: name.toList ++ [';']
  | array element => '[' :: element.chars

def argumentChars : List (TypeArgument TypeSignature) → List Char
  | [] => []
  | .any :: rest => '*' :: argumentChars rest
  | .invariant type :: rest => type.chars ++ argumentChars rest
  | .upper bound :: rest => '+' :: bound.chars ++ argumentChars rest
  | .lower bound :: rest => '-' :: bound.chars ++ argumentChars rest

def innerChars : List (ClassTypePart TypeSignature) → List Char
  | [] => []
  | ⟨name, arguments⟩ :: rest =>
    '.' :: name.toList ++ angled arguments.isEmpty (argumentChars arguments) ++ innerChars rest

end

def text (t : TypeSignature) : String := String.ofList t.chars

end TypeSignature

def ClassTypeOf.chars (c : ClassType) : List Char := (TypeSignature.classType c).chars

def TypeParameter.chars (p : TypeParameter) : List Char :=
  p.name.toList ++ ':' :: p.classBound.elim [] TypeSignature.chars ++
    p.interfaceBounds.flatMap fun bound => ':' :: bound.chars

def TypeParameter.listChars (ps : List TypeParameter) : List Char :=
  angled ps.isEmpty (ps.flatMap TypeParameter.chars)

namespace ClassSignature

def chars (s : ClassSignature) : List Char :=
  TypeParameter.listChars s.typeParameters ++ s.superclass.chars ++
    s.interfaces.flatMap ClassTypeOf.chars

def text (s : ClassSignature) : String := String.ofList s.chars

end ClassSignature

namespace MethodSignature

def chars (s : MethodSignature) : List Char :=
  TypeParameter.listChars s.typeParameters ++ '(' :: s.parameters.flatMap TypeSignature.chars ++
    ')' :: s.returnType.elim ['V'] TypeSignature.chars ++
    s.throws.flatMap fun type => '^' :: type.chars

def text (s : MethodSignature) : String := String.ofList s.chars

end MethodSignature

/-- The simple name of the nested class `nested` as seen from its outer class: what follows the
outer name and a dollar sign, or else the last segment. -/
def nestedSimpleName (outer nested : String) : String :=
  (Text.stripStart? (outer ++ "$") nested).getD (Text.afterLast '$' nested)

namespace TypeSignature

mutual

/-- Renames every class. A nested class is looked up under the name that joins it to the classes
around it with dollar signs. -/
def rename (f : ClassRenaming) : TypeSignature → TypeSignature
  | base p => base p
  | classType ⟨⟨name, arguments⟩, inner⟩ =>
    classType ⟨⟨f.apply name, renameArguments f arguments⟩, renameInner f name (f.apply name) inner⟩
  | var name => var name
  | array element => array (element.rename f)

def renameArguments (f : ClassRenaming) :
    List (TypeArgument TypeSignature) → List (TypeArgument TypeSignature)
  | [] => []
  | .any :: rest => .any :: renameArguments f rest
  | .invariant type :: rest => .invariant (type.rename f) :: renameArguments f rest
  | .upper bound :: rest => .upper (bound.rename f) :: renameArguments f rest
  | .lower bound :: rest => .lower (bound.rename f) :: renameArguments f rest

def renameInner (f : ClassRenaming) (old new : String) :
    List (ClassTypePart TypeSignature) → List (ClassTypePart TypeSignature)
  | [] => []
  | ⟨name, arguments⟩ :: rest =>
    let oldNested := old ++ "$" ++ name
    let newNested := (f oldNested).getD (new ++ "$" ++ name)
    ⟨nestedSimpleName new newNested, renameArguments f arguments⟩ ::
      renameInner f oldNested newNested rest

end

end TypeSignature

def ClassTypeOf.rename (f : ClassRenaming) (c : ClassType) : ClassType :=
  ⟨⟨f.apply c.head.name, TypeSignature.renameArguments f c.head.arguments⟩,
    TypeSignature.renameInner f c.head.name (f.apply c.head.name) c.inner⟩

def TypeParameter.rename (f : ClassRenaming) (p : TypeParameter) : TypeParameter :=
  ⟨p.name, p.classBound.map (TypeSignature.rename f),
    p.interfaceBounds.map (TypeSignature.rename f)⟩

def ClassSignature.rename (f : ClassRenaming) (s : ClassSignature) : ClassSignature :=
  ⟨s.typeParameters.map (TypeParameter.rename f), s.superclass.rename f,
    s.interfaces.map (ClassTypeOf.rename f)⟩

def MethodSignature.rename (f : ClassRenaming) (s : MethodSignature) : MethodSignature :=
  ⟨s.typeParameters.map (TypeParameter.rename f), s.parameters.map (TypeSignature.rename f),
    s.returnType.map (TypeSignature.rename f), s.throws.map (TypeSignature.rename f)⟩

end Renaming
