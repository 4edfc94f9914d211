import Renaming.ClassFile.AccessFlags
import Renaming.ClassFile.Attribute
import Renaming.Text.Split

/-!
# Class models

A class with every index of its constant pool replaced by what it leads to. Renaming builds a new
model and never changes one in place.
-/

namespace Renaming

structure Member where
  access : UInt16
  name : String
  descriptor : String
  attributes : List Attribute
deriving DecidableEq

structure ClassModel where
  minor : UInt16
  major : UInt16
  access : UInt16
  name : String
  /-- Absent for the root of the hierarchy and for module descriptions. -/
  superName : Option String
  interfaces : List String
  fields : List Member
  methods : List Member
  attributes : List Attribute
deriving DecidableEq

def packageOf (name : String) : String := ((Text.splitAtLast? '/' name).map Prod.fst).getD ""

namespace Member

/-- The body of a method; of several, the first. -/
def code (m : Member) : Option (Code Attribute) :=
  m.attributes.findSome? fun
    | .code body => some body
    | _ => none

def isNamed (name descriptor : String) (m : Member) : Bool :=
  m.name = name && m.descriptor = descriptor

end Member

namespace ClassModel

def isInterface (c : ClassModel) : Bool := AccessFlags.isInterface c.access

def package (c : ClassModel) : String := packageOf c.name

def supertypes (c : ClassModel) : List String := c.superName.toList ++ c.interfaces

def findField (c : ClassModel) (name descriptor : String) : Option Member :=
  c.fields.find? (Member.isNamed name descriptor)

def findMethod (c : ClassModel) (name descriptor : String) : Option Member :=
  c.methods.find? (Member.isNamed name descriptor)

def sourceFile (c : ClassModel) : Option String :=
  c.attributes.findSome? fun
    | .plain (.sourceFile name) => some name
    | _ => none

end ClassModel

end Renaming
