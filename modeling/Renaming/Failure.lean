import Renaming.ClassFile.Error
import Renaming.MemberKey

/-!
# Failures of renaming

What makes a whole renaming, or one of its files, fail. Each failure is a value that names its
cause; `message` holds the wording.
-/

namespace Renaming

inductive Ambiguity where
  | reservedMethod (owner name : String)
  | classTwice (name first second : String)
  | fieldTwice (key : MemberKey) (first second : String)
  | methodTwice (key : MemberKey) (first second : String)
  /-- Entries of the table that lead to the same name. -/
  | classEntriesMeet (first second new : String)
  | fieldEntriesMeet (first second : MemberKey) (new : String)
  | methodEntriesMeet (first second : MemberKey) (new : String)
  | overridesDiffer (first second : MemberKey) (firstNew secondNew : String)
  | classesMeet (first second new : String)
  | classTaken (name new : String)
  | fieldsMeet (owner first second new : String)
  | methodsMeet (owner first second descriptor new : String)
deriving DecidableEq, Repr

def Ambiguity.text : Ambiguity → String
  | reservedMethod owner name => s!"{owner}.{name} cannot be renamed"
  | classTwice name first second => s!"class {name} maps to both {first} and {second}"
  | fieldTwice key first second => s!"field {key.text} maps to both {first} and {second}"
  | methodTwice key first second => s!"method {key.text} maps to both {first} and {second}"
  | classEntriesMeet first second new => s!"classes {first} and {second} both map to {new}"
  | fieldEntriesMeet first second new =>
    s!"fields {first.text} and {second.text} both map to {new}"
  | methodEntriesMeet first second new =>
    s!"methods {first.text} and {second.text} both map to {new}"
  | overridesDiffer first second firstNew secondNew =>
    s!"{first.text} and {second.text} override each other but map to {firstNew} and {secondNew}"
  | classesMeet first second new => s!"classes {first} and {second} would both be named {new}"
  | classTaken name new =>
    s!"{name} would be renamed to {new}, which is already on the classpath"
  | fieldsMeet owner first second new =>
    s!"fields {owner}.{first} and {owner}.{second} would both be named {new}"
  | methodsMeet owner first second descriptor new =>
    s!"methods {owner}.{first} and {owner}.{second} {descriptor} would both be named {new}"

inductive MappingFault where
  | className | ownerAndName | fieldDescriptor | fieldName | methodDescriptor | methodName
  | unknownKind (kind : String)
  | columns
deriving DecidableEq, Repr

def MappingFault.text : MappingFault → String
  | className => "invalid class name"
  | ownerAndName => "expected owner.name"
  | fieldDescriptor => "invalid field descriptor"
  | fieldName => "invalid field name"
  | methodDescriptor => "invalid method descriptor"
  | methodName => "invalid method name"
  | unknownKind kind => s!"unknown entry kind `{kind}`"
  | columns => "wrong number of columns"

/-- A span of time in milliseconds, in seconds from one second on. -/
def durationText (ms : Nat) : String :=
  if ms = 0 then "0ns"
  else if ms < 1000 then s!"{ms}ms"
  else
    let fraction := (Nat.toDigits 10 (1000 + ms % 1000)).drop 1
    let digits := (fraction.reverse.dropWhile (· = '0')).reverse
    let point := if digits.isEmpty then "" else "."
    toString (ms / 1000) ++ point ++ String.ofList digits ++ "s"

inductive Missing where
  | notFound
  | otherClass (name : String)
  | malformed (e : ReadError)
  | readFailed (reason : String)
  | timedOut (ms : Nat)
deriving DecidableEq, Repr

def Missing.text : Missing → String
  | notFound => "not found on the classpath"
  | otherClass name => s!"class file declares {name}"
  | malformed e => s!"malformed class file: {e.message}"
  | readFailed reason => s!"read failed: {reason}"
  | timedOut ms => s!"load timed out after {durationText ms}"

inductive Failure where
  | malformedClassFile (id : String) (source : ReadError)
  | write (name : String) (source : WriteError)
  | ambiguousMapping (cause : Ambiguity)
  | mappingLine (line : Nat) (fault : MappingFault)
  | unresolved (name : String) (cause : Missing)
  | duplicateClass (name first : String)
  | hierarchyCycle (through : String)
  | descriptor (member text : String)
  | configuration
  | cancelled
deriving DecidableEq, Repr

def Failure.message : Failure → String
  | malformedClassFile id _ => s!"malformed class file {id}"
  | write name _ => s!"failed to write class {name}"
  | ambiguousMapping cause => s!"ambiguous mapping: {cause.text}"
  | mappingLine line fault => s!"invalid mapping at line {line}: {fault.text}"
  | unresolved name cause => s!"unresolved classpath entry {name}: {cause.text}"
  | duplicateClass name first => s!"class {name} is already defined by {first}"
  | hierarchyCycle through => s!"cyclic class hierarchy through {through}"
  | descriptor member text => s!"cannot rewrite `{text}` of {member}"
  | configuration => "invalid configuration"
  | cancelled => "remap run cancelled"

end Renaming
