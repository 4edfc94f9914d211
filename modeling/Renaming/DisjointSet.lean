/-!
# Disjoint sets

Numbers below `size` in disjoint classes. Every number has a parent, and the roots, which are their
own parents, stand for the classes. Of two roots that are joined the one of lower rank goes below
the other.
-/

namespace Renaming

structure DisjointSet where
  parent : Array Nat
  rank : Array Nat
deriving DecidableEq, Repr

namespace DisjointSet

def empty : DisjointSet := ⟨#[], #[]⟩

def size (s : DisjointSet) : Nat := s.parent.size

def parentOf (s : DisjointSet) (i : Nat) : Nat := s.parent.getD i i

def rankOf (s : DisjointSet) (i : Nat) : Nat := s.rank.getD i 0

def push (s : DisjointSet) : Nat × DisjointSet :=
  (s.size, ⟨s.parent.push s.size, s.rank.push 0⟩)

/-- The root above `i`, going up two parents at a time and leaving each number passed on its way
below its grandparent. -/
def findFrom : (fuel : Nat) → DisjointSet → (i : Nat) → Nat × DisjointSet
  | 0, s, i => (i, s)
  | fuel + 1, s, i =>
    if s.parentOf i = i then (i, s)
    else
      let above := s.parentOf (s.parentOf i)
      findFrom fuel { s with parent := s.parent.setIfInBounds i above } above

/-- The root of the class of `i`. No path to a root is longer than the number of elements. -/
def find (s : DisjointSet) (i : Nat) : Nat × DisjointSet := findFrom s.size s i

def union (s : DisjointSet) (i j : Nat) : DisjointSet :=
  let (a, s) := s.find i
  let (b, s) := s.find j
  if a = b then s
  else if s.rankOf a < s.rankOf b then { s with parent := s.parent.setIfInBounds a b }
  else if s.rankOf b < s.rankOf a then { s with parent := s.parent.setIfInBounds b a }
  else ⟨s.parent.setIfInBounds b a, s.rank.setIfInBounds a (s.rankOf a + 1)⟩

def roots (s : DisjointSet) : Array Nat :=
  ((List.range s.size).foldl (fun (roots, s) i =>
    let (root, s) := s.find i
    (roots.push root, s)) (#[], s)).1

end DisjointSet

end Renaming
