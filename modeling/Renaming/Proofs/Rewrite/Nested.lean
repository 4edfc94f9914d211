import Renaming.Proofs.RenameTable
import Renaming.Proofs.Text.Split
import Renaming.Rewrite.Attribute

/-!
# Simple names of nested classes

The simple name of a member class is what its binary name has behind the name of the outer class and
a dollar sign. A class that moves to another package keeps it, unless its outer class gets a name
that makes another simple name of it. A local class has no outer class, and then everything behind
the last dollar sign is its new simple name, the number included.
-/

namespace Renaming

structure InnerClass.IsMember (c : InnerClass) (outer name : String) : Prop where
  outer_eq : c.outer = some outer
  name_eq : c.name = some name
  inner_eq : c.inner = outer ++ "$" ++ name
  simple : '/' ∉ name.toList

/-- An entry for a local class: the binary name has a number in front of the simple name. -/
structure InnerClass.IsLocal (c : InnerClass) (number name : String) : Prop where
  outer_eq : c.outer = none
  name_eq : c.name = some name
  inner_eq : ∃ around, c.inner = around ++ "$" ++ (number ++ name)
  number_ne : number ≠ ""
  digits : ∀ d ∈ number.toList, d.isDigit = true
  unnumbered : ∀ d ∈ name.toList.head?, d.isDigit = false
  simple : '/' ∉ name.toList

/-- A renamed class is in another package than before and is called the same there. -/
structure MovesOnly (old new : String) : Prop where
  package_ne : packageOf new ≠ packageOf old
  name_eq : Text.afterLast '/' new = Text.afterLast '/' old

/-- The end of a binary name, behind the package and the last dollar sign. -/
def lastSegment (name : String) : String := Text.afterLast '$' (Text.afterLast '/' name)

/-- What was found for a simple name, or the old one if nothing was. -/
def nonemptyOr (found old : String) : String := if found = "" then old else found

theorem nonemptyOr_self (name : String) : nonemptyOr name name = name := ite_id (c := name = "") name

theorem nonemptyOr_of_ne {found : String} (h : found ≠ "") (old : String) :
    nonemptyOr found old = found := if_neg h

theorem getD_nonempty (found old : String) :
    (if found.isEmpty then none else some found).getD old = nonemptyOr found old := by
  by_cases hEmpty : found = ""
  · rw [nonemptyOr, if_pos hEmpty, if_pos (String.isEmpty_iff.mpr hEmpty)]
    rfl
  · rw [nonemptyOr, if_neg hEmpty, if_neg fun h => hEmpty (String.isEmpty_iff.mp h)]
    rfl

theorem MovesOnly.ne {old new : String} (h : MovesOnly old new) : new ≠ old :=
  fun hSame => h.package_ne (congrArg packageOf hSame)

theorem MovesOnly.lastSegment_eq {old new : String} (h : MovesOnly old new) :
    lastSegment new = lastSegment old := by
  rw [lastSegment, h.name_eq, lastSegment]

theorem lastSegment_append (front : String) {back : String} (h : '/' ∉ back.toList) :
    lastSegment (front ++ "$" ++ back) = Text.afterLast '$' back := by
  have hDollar : '/' ∉ "$".toList := by decide
  rw [lastSegment, Text.afterLast_append (front ++ "$") h, Text.afterLast_append front hDollar,
    Text.afterLast_append_separator rfl]

theorem InnerClass.IsMember.lastSegment_eq {c : InnerClass} {outer name : String}
    (h : c.IsMember outer name) : lastSegment c.inner = Text.afterLast '$' name := by
  rw [h.inner_eq, lastSegment_append outer h.simple]

theorem InnerClass.IsLocal.notMem_number {c : InnerClass} {number name : String}
    (h : c.IsLocal number name) {d : Char} (hd : d.isDigit = false) : d ∉ number.toList :=
  fun hMem => Bool.false_ne_true (hd.symm.trans (h.digits d hMem))

theorem InnerClass.IsLocal.notMem_append {c : InnerClass} {number name : String}
    (h : c.IsLocal number name) {d : Char} (hd : d.isDigit = false) (hName : d ∉ name.toList) :
    d ∉ (number ++ name).toList := by
  rw [String.toList_append, List.mem_append, not_or]
  exact ⟨h.notMem_number hd, hName⟩

theorem InnerClass.IsLocal.lastSegment_eq {c : InnerClass} {number name : String}
    (h : c.IsLocal number name) : lastSegment c.inner = Text.afterLast '$' (number ++ name) := by
  obtain ⟨around, hInner⟩ := h.inner_eq
  rw [hInner, lastSegment_append around (h.notMem_append rfl h.simple)]

theorem innerSimpleName?_append (outer rest : String) :
    innerSimpleName? (outer ++ "$" ++ rest) (some outer) =
      if rest.isEmpty then none else some rest := by
  rw [innerSimpleName?, Option.bind_some, Text.stripStart?_eq_some.mpr rfl]

theorem ne_append_of_stripStart? {inner outer : String}
    (h : Text.stripStart? (outer ++ "$") inner = none) (rest : String) :
    inner ≠ outer ++ "$" ++ rest := by
  intro hStart
  cases h.symm.trans (Text.stripStart?_eq_some.mpr hStart)

theorem innerSimpleName?_apart {inner : String} {outer? : Option String}
    (hApart : ∀ outer, outer? = some outer → ∀ rest, inner ≠ outer ++ "$" ++ rest) :
    innerSimpleName? inner outer? =
      if (lastSegment inner).isEmpty then none else some (lastSegment inner) := by
  have hStrip : (outer?.bind fun outer => Text.stripStart? (outer ++ "$") inner) = none := by
    rw [Option.bind_eq_none_iff]
    intro outer hOuter
    rw [Option.eq_none_iff_forall_ne_some]
    exact fun rest h => hApart outer hOuter rest (Text.stripStart?_eq_some.mp h)
  rw [innerSimpleName?, hStrip]
  rfl

namespace Site

variable {s : Site} {c : InnerClass} {outer name rest : String}

theorem innerClass_name (hName : c.name = some name) (hNew : s.className c.inner ≠ c.inner) :
    (s.innerClass c).name =
      some ((innerSimpleName? (s.className c.inner) (c.outer.map s.className)).getD name) := by
  rw [innerClass, if_neg hNew, hName]
  rfl

theorem innerClass_name_of_start (hName : c.name = some name)
    (hNew : s.className c.inner ≠ c.inner) (hOuter : c.outer = some outer)
    (hStart : s.className c.inner = s.className outer ++ "$" ++ rest) :
    (s.innerClass c).name = some (nonemptyOr rest name) := by
  rw [innerClass_name hName hNew, hOuter, Option.map_some, hStart, innerSimpleName?_append,
    getD_nonempty]

theorem innerClass_name_of_apart (hName : c.name = some name)
    (hMoves : MovesOnly c.inner (s.className c.inner))
    (hApart : ∀ outer, c.outer = some outer →
      ∀ rest, s.className c.inner ≠ s.className outer ++ "$" ++ rest) :
    (s.innerClass c).name = some (nonemptyOr (lastSegment c.inner) name) := by
  have hOuters : ∀ new, c.outer.map s.className = some new →
      ∀ rest, s.className c.inner ≠ new ++ "$" ++ rest := by
    intro new hNew
    obtain ⟨outer, hOuter, rfl⟩ := Option.map_eq_some_iff.mp hNew
    exact hApart outer hOuter
  rw [innerClass_name hName hMoves.ne, innerSimpleName?_apart hOuters, getD_nonempty,
    hMoves.lastSegment_eq]

/-- Where the binary name of a class that only moves goes on behind the new name of the outer class,
what follows there is the simple name: the old one if the outer class moves along. Elsewhere it is
the last segment of the binary name, which for a member class is the end of the old simple name, and
for a local class is this with the number in front. -/
theorem simpleName_of_movesOnly {entries : List InnerClass} {i : Nat} (hEntry : entries[i]? = some c)
    (hMoves : MovesOnly c.inner (s.className c.inner)) (kind : SignatureKind)
    (state : RewriteState) : ∃ entries' c',
      (s.rewriteAttribute kind (.plain (.innerClasses entries))).run state =
        (.ok (.plain (.innerClasses entries')), state) ∧
      entries'[i]? = some c' ∧ c'.inner = s.className c.inner ∧
      c'.outer = c.outer.map s.className ∧
      (∀ outer name, c.IsMember outer name →
        (c'.inner = s.className outer ++ "$" ++ name → c'.name = some name) ∧
        ((∀ rest, c'.inner ≠ s.className outer ++ "$" ++ rest) →
          c'.name = some (nonemptyOr (Text.afterLast '$' name) name) ∧
          ('$' ∉ name.toList → c'.name = some name)) ∧
        ∀ rest, c'.inner = s.className outer ++ "$" ++ rest →
          c'.name = some (nonemptyOr rest name)) ∧
      ∀ number name, c.IsLocal number name →
        c'.name = some (nonemptyOr (Text.afterLast '$' (number ++ name)) name) ∧
        ('$' ∉ name.toList → c'.name = some (number ++ name)) := by
  refine ⟨entries.map s.innerClass, s.innerClass c, rfl, ?_, rfl, rfl, fun outer name hMember => ?_,
    fun number name hLocal => ?_⟩
  · rw [List.getElem?_map, hEntry]
    rfl
  · have hStart : ∀ rest, s.className c.inner = s.className outer ++ "$" ++ rest →
        (s.innerClass c).name = some (nonemptyOr rest name) :=
      fun _ => innerClass_name_of_start hMember.name_eq hMoves.ne hMember.outer_eq
    refine ⟨fun hAlong => ?_, fun hApart => ?_, hStart⟩
    · rw [hStart name hAlong, nonemptyOr_self]
    · have hApart' : ∀ o, c.outer = some o →
          ∀ rest, s.className c.inner ≠ s.className o ++ "$" ++ rest := by
        intro o ho
        obtain rfl : outer = o := Option.some.inj (hMember.outer_eq.symm.trans ho)
        exact hApart
      have hName := innerClass_name_of_apart hMember.name_eq hMoves hApart'
      rw [hMember.lastSegment_eq] at hName
      refine ⟨hName, fun hPlain => ?_⟩
      rw [hName, Text.afterLast_of_notMem hPlain, nonemptyOr_self]
  · have hAlone : ∀ o, c.outer = some o →
        ∀ rest, s.className c.inner ≠ s.className o ++ "$" ++ rest := by
      intro o ho
      cases hLocal.outer_eq.symm.trans ho
    have hName := innerClass_name_of_apart hLocal.name_eq hMoves hAlone
    rw [hLocal.lastSegment_eq] at hName
    refine ⟨hName, fun hPlain => ?_⟩
    have hNonempty : number ++ name ≠ "" := fun h =>
      hLocal.number_ne (String.append_eq_empty_iff.mp h).1
    rw [hName, Text.afterLast_of_notMem (hLocal.notMem_append rfl hPlain),
      nonemptyOr_of_ne hNonempty]

end Site

namespace NestedTwice

def site (entries : List (String × String)) : Site :=
  ⟨⟨.ofClasses entries, ⟨∅, #[], ∅, ∅⟩, false⟩, "T", [], "T"⟩

theorem className_site {entries : List (String × String)} {old new : String}
    (h : (entries.map Prod.fst).Nodup) (hEntry : (old, new) ∈ entries) :
    (site entries).className old = new := by
  have hNew : (site entries).renamer.table.newClass? old = some new :=
    (RenameTable.newClass?_ofClasses h).mpr hEntry
  rw [Site.className, Renamer.className, ClassRenaming.apply, hNew]
  rfl

def innermost : InnerClass := ⟨"a/X$Y$Z", some "a/X$Y", some "Z", 8⟩

def dollared : InnerClass := ⟨"a/O$L$M", some "a/O", some "L$M", 8⟩

def numbered : InnerClass := ⟨"a/O$1L", none, some "L", 8⟩

theorem isMember_innermost : innermost.IsMember "a/X$Y" "Z" := ⟨rfl, rfl, by decide, by decide⟩

theorem isMember_dollared : dollared.IsMember "a/O" "L$M" := ⟨rfl, rfl, by decide, by decide⟩

theorem isLocal_numbered : numbered.IsLocal "1" "L" :=
  ⟨rfl, rfl, ⟨"a/O", by decide⟩, by decide, by simp, by simp, by decide⟩

/-- Both classes move to another package, and the outer one of the member class goes elsewhere. -/
def apart : List (String × String) :=
  [("a/X$Y$Z", "b/X$Y$Z"), ("a/X$Y", "c/W"), ("a/O$1L", "b/O$1L")]

theorem simpleName_of_movesOnly_apart :
    innermost.IsMember "a/X$Y" "Z" ∧ numbered.IsLocal "1" "L" ∧
      MovesOnly innermost.inner ((site apart).className innermost.inner) ∧
      MovesOnly numbered.inner ((site apart).className numbered.inner) ∧
      ∃ entries' member loc,
        ((site apart).rewriteAttribute .ofClass (.plain (.innerClasses [innermost, numbered]))).run
            ⟨.ofClasspath ⟨[]⟩ Config.standard, []⟩ =
          (.ok (.plain (.innerClasses entries')), ⟨.ofClasspath ⟨[]⟩ Config.standard, []⟩) ∧
        entries'[0]? = some member ∧ member.inner = "b/X$Y$Z" ∧ member.outer = some "c/W" ∧
        member.name = some "Z" ∧
        entries'[1]? = some loc ∧ loc.inner = "b/O$1L" ∧ loc.outer = none ∧
        loc.name = some "1L" := by
  have hInner : (site apart).className "a/X$Y$Z" = "b/X$Y$Z" :=
    className_site (by decide) (by decide)
  have hOuter : (site apart).className "a/X$Y" = "c/W" := className_site (by decide) (by decide)
  have hNumbered : (site apart).className "a/O$1L" = "b/O$1L" :=
    className_site (by decide) (by decide)
  have hMember : MovesOnly innermost.inner ((site apart).className innermost.inner) :=
    hInner.symm ▸ ⟨by decide, by decide⟩
  have hLocal : MovesOnly numbered.inner ((site apart).className numbered.inner) :=
    hNumbered.symm ▸ ⟨by decide, by decide⟩
  have hFirst : [innermost, numbered][0]? = some innermost := rfl
  have hSecond : [innermost, numbered][1]? = some numbered := rfl
  obtain ⟨entries', member, hRun, hGet, hMemberInner, hMemberOuter, hMemberName, -⟩ :=
    Site.simpleName_of_movesOnly hFirst hMember .ofClass ⟨.ofClasspath ⟨[]⟩ Config.standard, []⟩
  obtain ⟨entries'', loc, hRun', hGet', hLocalInner, hLocalOuter, -, hLocalName⟩ :=
    Site.simpleName_of_movesOnly hSecond hLocal .ofClass ⟨.ofClasspath ⟨[]⟩ Config.standard, []⟩
  obtain rfl : entries' = entries'' := by
    cases hRun.symm.trans hRun'
    rfl
  have hNew : member.inner = "b/X$Y$Z" := hMemberInner.trans hInner
  have hApart : ∀ rest, member.inner ≠ (site apart).className "a/X$Y" ++ "$" ++ rest := by
    rw [hNew, hOuter]
    exact ne_append_of_stripStart? (by decide)
  refine ⟨isMember_innermost, isLocal_numbered, hMember, hLocal, entries', member, loc, hRun, hGet,
    hNew, hMemberOuter.trans ?_, ?_, hGet', hLocalInner.trans hNumbered, hLocalOuter, ?_⟩
  · exact congrArg some hOuter
  · exact ((hMemberName "a/X$Y" "Z" isMember_innermost).2.1 hApart).2 (by decide)
  · exact (hLocalName "1" "L" isLocal_numbered).2 (by decide)

/-- The class only moves, and has another simple name afterwards. -/
structure Misnamed (s : Site) (c : InnerClass) (old new : String) : Prop where
  moves : MovesOnly c.inner (s.className c.inner)
  name_eq : c.name = some old
  new_eq : (s.innerClass c).name = some new
  ne : new ≠ old

/-- The new name of the outer class comes in front of more than the simple name. -/
def swallowing : List (String × String) := [("a/X$Y$Z", "b/X$Y$Z"), ("a/X$Y", "b/X")]

/-- The member class stays behind its outer class. -/
def leaving : List (String × String) := [("a/O$L$M", "b/O$L$M"), ("a/O", "c/W")]

def moving : List (String × String) := [("a/O$1L", "b/O$1L")]

/-- A member class whose outer class gets the name of the class around it takes over what follows that
name. A member class with a dollar sign of its own loses what is in front of it when the outer class
goes elsewhere. A local class gets its number into its name, whatever else is renamed. -/
theorem simpleName_not_kept :
    (innermost.IsMember "a/X$Y" "Z" ∧ Misnamed (site swallowing) innermost "Z" "Y$Z") ∧
      (dollared.IsMember "a/O" "L$M" ∧
        Misnamed (site leaving) dollared "L$M" "M") ∧
      numbered.IsLocal "1" "L" ∧ Misnamed (site moving) numbered "L" "1L" := by
  refine ⟨⟨isMember_innermost, ?_⟩, ⟨isMember_dollared, ?_⟩, isLocal_numbered, ?_⟩
  · have hInner : (site swallowing).className innermost.inner = "b/X" ++ "$" ++ "Y$Z" :=
      className_site (by decide) (by decide)
    have hOuter : (site swallowing).className "a/X$Y" = "b/X" :=
      className_site (by decide) (by decide)
    have hMoves : MovesOnly innermost.inner ((site swallowing).className innermost.inner) :=
      hInner.symm ▸ ⟨by decide, by decide⟩
    have hStart : (site swallowing).className innermost.inner =
        (site swallowing).className "a/X$Y" ++ "$" ++ "Y$Z" := hOuter.symm ▸ hInner
    exact ⟨hMoves, rfl, Site.innerClass_name_of_start rfl hMoves.ne rfl hStart, by decide⟩
  · have hInner : (site leaving).className dollared.inner = "b/O$L$M" :=
      className_site (by decide) (by decide)
    have hOuter : (site leaving).className "a/O" = "c/W" := className_site (by decide) (by decide)
    have hMoves : MovesOnly dollared.inner ((site leaving).className dollared.inner) :=
      hInner.symm ▸ ⟨by decide, by decide⟩
    have hApart : ∀ outer, dollared.outer = some outer → ∀ rest,
        (site leaving).className dollared.inner ≠ (site leaving).className outer ++ "$" ++ rest := by
      rintro _ ⟨⟩
      rw [hInner, hOuter]
      exact ne_append_of_stripStart? (by decide)
    exact ⟨hMoves, rfl, Site.innerClass_name_of_apart rfl hMoves hApart, by decide⟩
  · have hInner : (site moving).className numbered.inner = "b/O$1L" :=
      className_site (by decide) (by decide)
    have hMoves : MovesOnly numbered.inner ((site moving).className numbered.inner) :=
      hInner.symm ▸ ⟨by decide, by decide⟩
    have hAlone : ∀ outer, numbered.outer = some outer → ∀ rest,
        (site moving).className numbered.inner ≠ (site moving).className outer ++ "$" ++ rest := by
      rintro _ ⟨⟩
    exact ⟨hMoves, rfl, Site.innerClass_name_of_apart rfl hMoves hAlone, by decide⟩

end NestedTwice

end Renaming
