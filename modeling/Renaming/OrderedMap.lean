import Std.Data.HashMap

/-!
# Maps that keep the order of insertion

A list of entries gives the order and a hash map finds a key; `find?_eq_lookup` says that the two
agree.
-/

namespace Renaming

structure OrderedMap (κ β : Type) [BEq κ] [Hashable κ] [LawfulBEq κ] [LawfulHashable κ] where
  newestFirst : List (κ × β)
  index : Std.HashMap κ β
  index_eq : ∀ k, index[k]? = newestFirst.lookup k

namespace OrderedMap

variable {κ β : Type} [BEq κ] [Hashable κ] [LawfulBEq κ] [LawfulHashable κ]

def empty : OrderedMap κ β := ⟨[], ∅, by simp⟩

def find? (m : OrderedMap κ β) (k : κ) : Option β := m.index[k]?

/-- The entries, the oldest first. -/
def toList (m : OrderedMap κ β) : List (κ × β) := m.newestFirst.reverse

def isEmpty (m : OrderedMap κ β) : Bool := m.newestFirst.isEmpty

def push (m : OrderedMap κ β) (k : κ) (v : β) : OrderedMap κ β where
  newestFirst := (k, v) :: m.newestFirst
  index := m.index.insert k v
  index_eq a := by
    rw [Std.HashMap.getElem?_insert, List.lookup_cons, m.index_eq a]
    by_cases h : k = a
    · subst h
      simp
    · simp [beq_false_of_ne h, beq_false_of_ne (Ne.symm h)]

theorem find?_eq_lookup (m : OrderedMap κ β) (k : κ) : m.find? k = m.newestFirst.lookup k :=
  m.index_eq k

@[simp] theorem toList_push (m : OrderedMap κ β) (k : κ) (v : β) :
    (m.push k v).toList = m.toList ++ [(k, v)] := by
  simp [toList, push]

end OrderedMap

end Renaming
