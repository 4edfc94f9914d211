import Std.Data.HashMap
import Renaming.Binary.Word

/-!
# Class paths

Where the classes come from that are referred to and not renamed themselves. A class path is a row
of layers, and the first layer that knows a class answers for it.
-/

namespace Renaming

inductive Stored where
  | bytes (file : Bytes)
  | unreadable (reason : String)
  | stalled
deriving DecidableEq, Repr

abbrev ClassLayer := Std.HashMap String Stored

structure ClassPath where
  layers : List ClassLayer

namespace ClassPath

def find? (p : ClassPath) (name : String) : Option Stored :=
  p.layers.findSome? (·[name]?)

/-- A bound on the number of classes that the path knows. -/
def size (p : ClassPath) : Nat := p.layers.foldr (fun layer n => layer.size + n) 0

end ClassPath

end Renaming
