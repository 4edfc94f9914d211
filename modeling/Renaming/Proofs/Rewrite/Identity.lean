import Renaming.Proofs.Descriptor
import Renaming.Proofs.RenameTable
import Renaming.Proofs.Renamer
import Renaming.Proofs.Rewrite.Run
import Renaming.Proofs.Signature.Substitution

/-!
# Renaming that changes nothing

If every entry of a table gives back the old name, every class is rewritten to itself, whatever it
looks like. This goes through all rules for a single name.
-/

namespace Renaming

open Effectful

namespace RenameTable

/-- Every entry gives back the old name. -/
structure Identical (t : RenameTable) : Prop where
  classes : ∀ e ∈ t.classes.toList, e.2 = e.1
  fields : ∀ e ∈ t.fields.toList, e.2 = e.1.name
  methods : ∀ e ∈ t.methods.toList, e.2 = e.1.name

namespace Identical

variable {t : RenameTable}

theorem newClass? (ht : t.Identical) : t.newClass?.Identical := fun _ _ h =>
  ht.classes _ (OrderedMap.mem_toList_of_find? h)

theorem newField?_eq (ht : t.Identical) {key : MemberKey} {new : String}
    (h : t.newField? key = some new) : new = key.name :=
  ht.fields _ (OrderedMap.mem_toList_of_find? h)

theorem newMethod?_eq (ht : t.Identical) {key : MemberKey} {new : String}
    (h : t.newMethod? key = some new) : new = key.name :=
  ht.methods _ (OrderedMap.mem_toList_of_find? h)

theorem newPackage?_eq_none (ht : t.Identical) (package : String) :
    t.newPackage? package = none := by
  rw [newPackage?]
  split
  · rfl
  · rename_i target others hTargets
    have hMem : target ∈ (t.classes.toList.filter (packageOf ·.1 = package)).map (packageOf ·.2) :=
      hTargets ▸ List.mem_cons_self
    obtain ⟨e, he, rfl⟩ := List.mem_map.mp hMem
    obtain ⟨hEntry, hPackage⟩ := List.mem_filter.mp he
    rw [if_neg]
    rw [ht.classes e hEntry, of_decide_eq_true hPackage]
    simp

end Identical

end RenameTable

namespace OverrideGroups

open Relation (EqvGen)

variable {t : RenameTable} {h h' : Hierarchy}

/-- Groups under construction only ever join methods of one name. -/
def Builder.JoinsNamesakes (b : Builder) : Prop :=
  ∃ K L, b.Sound K L ∧ ∀ k k', L k k' → k.name = k'.name

theorem name_eq_of_linkOf {ds : List Declaration} {k k' : MemberKey} (hLink : LinkOf ds k k') :
    k.name = k'.name := by
  obtain ⟨d, e, hLinked, rfl, rfl⟩ := hLink
  exact (congrArg Prod.fst hLinked.signature_eq).symm

theorem Builder.JoinsNamesakes.addClass {b b' : Builder} (hb : b.JoinsNamesakes) {c : ClassModel}
    (hRun : (b.addClass c).run h = (.ok b', h')) : b'.JoinsNamesakes := by
  obtain ⟨K, L, hSound, hNames⟩ := hb
  change b.addClass c h = _ at hRun
  rw [Builder.addClass] at hRun
  split at hRun
  · cases hRun
    exact ⟨_, _, hSound.addAll _, fun k k' hLink => hLink.elim (hNames k k') name_eq_of_linkOf⟩
  · cases hRun
    exact ⟨K, L, hSound.withCyclic _, hNames⟩
  · cases hRun

theorem Builder.joinsNamesakes_of_foldlM {b b' : Builder} (hb : b.JoinsNamesakes)
    {classes : List ClassModel}
    (hRun : (classes.foldlM Builder.addClass b).run h = (.ok b', h')) : b'.JoinsNamesakes := by
  induction classes generalizing b h with
  | nil =>
    cases hRun
    exact hb
  | cons c classes ih =>
    rw [List.foldlM_cons] at hRun
    rcases bind_run.mp hRun with ⟨b₁, h₁, hHead, hTail⟩ | ⟨e, -, hFails⟩
    · exact ih (hb.addClass hHead) hTail
    · cases hFails

theorem newMethod?_eq_of_identical {g : OverrideGroups} {classes : List ClassModel}
    (ht : t.Identical) (hRun : (build t classes).run h = (.ok g, h')) {key : MemberKey}
    {new : String} (hNew : g.newMethod? t key = some new) : new = key.name := by
  rcases bind_run.mp hRun with ⟨b, h₁, hBuilt, hFinish⟩ | ⟨e, -, hFails⟩
  · have hStart : Builder.empty.JoinsNamesakes :=
      ⟨_, _, Builder.sound_empty, fun _ _ hLink => hLink.elim⟩
    obtain ⟨K, L, hSound, hNames⟩ := Builder.joinsNamesakes_of_foldlM hStart hBuilt
    rw [lift_run, Prod.mk.injEq, Builder.finish_eq_finishIn] at hFinish
    have hComputes := computes_finishIn (t := t) hSound (List.Perm.refl _)
    rw [hFinish.1] at hComputes
    have hFine : ¬ Differ t L := fun hDiffer => by
      obtain ⟨why, hEq⟩ := hComputes.fails_iff.mpr hDiffer
      cases hEq
    obtain ⟨g', hEq, hDescribes⟩ := hComputes.succeeds hFine
    cases hEq
    have hRelated : ∀ k k', EqvGen L k k' → k.name = k'.name := fun k k' hLinks => by
      induction hLinks with
      | rel k k' hLink => exact hNames k k' hLink
      | refl k => rfl
      | symm k k' _ ih => exact ih.symm
      | trans k₁ k₂ k₃ _ _ ih ih' => exact ih.trans ih'
    by_cases hKey : K key
    · by_cases hSome : ∃ k' new', EqvGen L key k' ∧ t.newMethod? k' = some new'
      · obtain ⟨k', new', hLinks, hEntry⟩ := hSome
        rw [hDescribes.named key k' new' hKey hLinks hEntry, Option.some.injEq] at hNew
        rw [← hNew, ht.newMethod?_eq hEntry, hRelated key k' hLinks]
      · have hNone : ∀ k', EqvGen L key k' → t.newMethod? k' = none := fun k' hLinks =>
          Option.eq_none_iff_forall_ne_some.mpr fun new' hEntry => hSome ⟨k', new', hLinks, hEntry⟩
        rw [hDescribes.unnamed key hKey hNone] at hNew
        cases hNew
    · rw [hDescribes.other key hKey] at hNew
      exact ht.newMethod?_eq hNew
  · cases hFails

end OverrideGroups

namespace Renamer

/-- The renamer gives back all old names. -/
structure Identical (r : Renamer) : Prop where
  table : r.table.Identical
  newMethod?_eq : ∀ key new, r.newMethod? key = some new → new = key.name

theorem identical_of_build {t : RenameTable} (ht : t.Identical) {classes : List ClassModel}
    {config : Config} {h h' : Hierarchy} {r : Renamer}
    (hRun : (build t classes config).run h = (.ok r, h')) : r.Identical := by
  obtain ⟨rfl, h₁, hGroups⟩ := groups_of_build hRun
  exact ⟨ht, fun key new hNew => OverrideGroups.newMethod?_eq_of_identical ht hGroups hNew⟩

end Renamer

end Renaming
