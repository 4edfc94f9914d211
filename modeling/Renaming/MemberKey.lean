/-!
# Member keys

A declared field or method is known by its owner, name and descriptor.
-/

namespace Renaming

structure MemberKey where
  owner : String
  name : String
  descriptor : String
deriving DecidableEq, Hashable, Repr

def MemberKey.text (k : MemberKey) : String := s!"{k.owner}.{k.name} {k.descriptor}"

end Renaming
