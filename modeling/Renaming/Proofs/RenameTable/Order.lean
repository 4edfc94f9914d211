import Renaming.Proofs.RenameTable.Consistent

/-!
# The order of a mapping file

Two files with the same lines, in any order and any number, are accepted alike, and their tables give the
same answers. The package that another one moves to is searched for in the order of the entries, but the
answers for classes already tell which it is.
-/

namespace Renaming.RenameTable

variable {t t' : RenameTable} {text text' : String}

/-- Some class of the package gets a name in the package `moved`. -/
def MovesTo (t : RenameTable) (package moved : String) : Prop :=
  ∃ old new, t.newClass? old = some new ∧ packageOf old = package ∧ packageOf new = moved

/-- A package moves to another one if that is the only one that its classes move to. -/
theorem newPackage?_eq_some (ht : t.Distinct) {package target : String} :
    t.newPackage? package = some target ↔
      target ≠ package ∧ ∀ moved, t.MovesTo package moved ↔ moved = target := by
  have hTargets : ∀ moved, t.MovesTo package moved ↔
      moved ∈ (t.classes.toList.filter (packageOf ·.1 = package)).map (packageOf ·.2) := fun moved => by
    simp only [List.mem_map, List.mem_filter, Prod.exists, ht.classes.mem_toList_iff,
      decide_eq_true_eq, and_assoc]
    rfl
  simp only [hTargets, newPackage?]
  split
  · rename_i hNone
    rw [hNone]
    exact iff_of_false (by rintro ⟨⟩) fun h => List.not_mem_nil ((h.2 target).mpr rfl)
  · rename_i first others hSome
    rw [hSome]
    simp only [Bool.and_eq_true, List.all_eq_true, decide_eq_true_eq, Option.ite_none_right_eq_some,
      Option.some.injEq]
    constructor
    · rintro ⟨⟨hOthers, hOther⟩, rfl⟩
      refine ⟨hOther, fun moved => ?_⟩
      rw [List.mem_cons]
      exact or_iff_left_of_imp (hOthers moved)
    · rintro ⟨hOther, hAll⟩
      obtain rfl := (hAll first).mp List.mem_cons_self
      exact ⟨⟨fun moved h => (hAll moved).mp (List.mem_cons_of_mem first h), hOther⟩, rfl⟩

theorem newPackage?_congr (ht : t.Distinct) (ht' : t'.Distinct) (h : t.newClass? = t'.newClass?) :
    t.newPackage? = t'.newPackage? := by
  funext package
  refine Option.ext fun target => ?_
  rw [newPackage?_eq_some ht, newPackage?_eq_some ht']
  simp only [MovesTo, h]

/-- Both texts have the same lines, wherever and how often they stand. -/
def SameLines (text text' : String) : Prop :=
  ∀ line, line ∈ Text.endedLines text ↔ line ∈ Text.endedLines text'

theorem SameLines.symm (h : SameLines text text') : SameLines text' text := fun line => (h line).symm

theorem SameLines.says (h : SameLines text text') : Says text = Says text' := by
  funext e
  simp only [Says, h _]

theorem SameLines.consistent (h : SameLines text text') (hText : Consistent text) :
    Consistent text' where
  lines line hLine := hText.lines line ((h line).mpr hLine)
  once := h.says ▸ hText.once
  special := h.says ▸ hText.special
  classesApart := h.says ▸ hText.classesApart
  membersApart := by
    simpa only [RenamesClasses, KeepsApart, h.says] using hText.membersApart

theorem distinct_of_parse (h : parse text = .ok t) : t.Distinct := (built_of_parse h).distinct

/-- Neither the order of the lines nor their repetition makes a difference. -/
theorem parse_sameLines (h : SameLines text text') :
    ((∃ t, parse text = .ok t) ↔ ∃ t, parse text' = .ok t) ∧
    ∀ t t', parse text = .ok t → parse text' = .ok t' →
      t.newClass? = t'.newClass? ∧ t.newField? = t'.newField? ∧ t.newMethod? = t'.newMethod? ∧
        t.newMember? = t'.newMember? ∧ t.newPackage? = t'.newPackage? := by
  refine ⟨?_, fun t t' ht ht' => ?_⟩
  · rw [exists_parse_iff, exists_parse_iff]
    exact ⟨h.consistent, h.symm.consistent⟩
  · have hAnswers : ∀ e : Entry, t.answer? e.subject = some e.new ↔ t'.answer? e.subject = some e.new :=
      fun e => by rw [answer?_of_parse ht, answer?_of_parse ht', h.says]
    have hClass : t.newClass? = t'.newClass? := funext fun old => Option.ext fun new =>
      hAnswers (.ofClass old new)
    have hField : t.newField? = t'.newField? := funext fun key => Option.ext fun new =>
      hAnswers (.ofField key new)
    have hMethod : t.newMethod? = t'.newMethod? := funext fun key => Option.ext fun new =>
      hAnswers (.ofMethod key new)
    refine ⟨hClass, hField, hMethod, ?_,
      newPackage?_congr (distinct_of_parse ht) (distinct_of_parse ht') hClass⟩
    funext kind key
    cases kind with
    | field => exact congrFun hField key
    | method => exact congrFun hMethod key
    | interfaceMethod => exact congrFun hMethod key

namespace Swap

def shuffled : String := "field a/A.x Lb/B; y\nclass b/B a/A\n\nclass a/A b/B # and back\nclass b/B a/A"

theorem sameLines : SameLines file shuffled := by
  have hThere : ∀ line ∈ Text.endedLines file, line ∈ Text.endedLines shuffled := by decide +kernel
  have hBack : ∀ line ∈ Text.endedLines shuffled, line ∈ Text.endedLines file := by decide +kernel
  exact fun line => ⟨hThere line, hBack line⟩

theorem parse_sameLines_swap : ∃ t t', parse file = .ok t ∧ parse shuffled = .ok t' ∧
    t.newClass? = t'.newClass? ∧ t.newField? = t'.newField? ∧ t.newMethod? = t'.newMethod? ∧
      t.newMember? = t'.newMember? ∧ t.newPackage? = t'.newPackage? := by
  obtain ⟨t, ht⟩ := exists_parse_iff.mpr consistent
  obtain ⟨t', ht'⟩ := (parse_sameLines sameLines).1.mp ⟨t, ht⟩
  exact ⟨t, t', ht, ht', (parse_sameLines sameLines).2 t t' ht ht'⟩

end Swap

end Renaming.RenameTable
