import Renaming.Descriptor
import Renaming.Failure
import Renaming.Signature

/-!
# Diagnostics

What went wrong without making anything fail, in the order in which it was noticed.
-/

namespace Renaming

inductive Diagnostic where
  | unresolved (name : String) (cause : Missing)
  | memberKept (member descriptor : String)
  | signatureKept (subject : String) (e : InvalidSignature)
  | variableTypeKept (subject name : String) (e : InvalidDescriptor)
  | variableSignatureKept (subject name : String) (e : InvalidSignature)
  /-- A reference without a known declaration that was renamed all the same. -/
  | ambiguousReference (reference new subject : String)
deriving DecidableEq, Repr

namespace Diagnostic

inductive Kind where
  | unresolved | descriptor | debug | ambiguous
deriving DecidableEq, Repr

def Kind.text : Kind → String
  | unresolved => "unresolved"
  | descriptor => "descriptor"
  | debug => "debug"
  | ambiguous => "ambiguous"

def kind : Diagnostic → Kind
  | unresolved .. => .unresolved
  | memberKept .. | signatureKept .. => .descriptor
  | variableTypeKept .. | variableSignatureKept .. => .debug
  | ambiguousReference .. => .ambiguous

def about : Diagnostic → String
  | unresolved name _ => name
  | memberKept member _ => member
  | signatureKept subject _ => subject
  | variableTypeKept subject name _ | variableSignatureKept subject name _ =>
    s!"{subject} local {name}"
  | ambiguousReference reference _ _ => reference

def message : Diagnostic → String
  | unresolved _ cause => cause.text
  | memberKept _ descriptor => s!"cannot rewrite `{descriptor}`, left unchanged"
  | signatureKept _ e => s!"{e.message}, left unchanged"
  | variableTypeKept _ _ e => e.message
  | variableSignatureKept _ _ e => e.message
  | ambiguousReference _ new subject =>
    s!"no declaration in the known hierarchy, renamed to {new} from its own entry (in {subject})"

def text (d : Diagnostic) : String := s!"[{d.kind.text}] {d.about}: {d.message}"

end Diagnostic

end Renaming
