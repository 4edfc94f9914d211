import Renaming.Proofs.RenameTable.Order
import Renaming.Rewrite.Attribute

/-!
# Packages that classes move to

A package has no entry of its own. It moves if all renamed classes in it move, and to one package. A
module keeps the packages that it lists and comes to list those that they move to as well.
-/

namespace Renaming

/-- Adding things to a list, each unless it is there already, leaves what is there in place and puts
each new thing once behind it. -/
theorem exists_foldl_addMissing {α β : Type} [BEq β] [LawfulBEq β] (f : α → β) (old : List β)
    (as : List α) : ∃ gained,
      as.foldl (fun all a => if all.contains (f a) then all else all ++ [f a]) old = old ++ gained ∧
      gained.Nodup ∧ old.Disjoint gained ∧
      ∀ b, b ∈ old ++ gained ↔ b ∈ old ∨ ∃ a ∈ as, f a = b := by
  induction as using List.reverseRecOn with
  | nil => exact ⟨[], by simp⟩
  | append_singleton as a ih =>
    obtain ⟨gained, hFold, hNodup, hDisjoint, hMem⟩ := ih
    rw [List.foldl_append, hFold, List.foldl_cons, List.foldl_nil]
    split
    · rename_i hThere
      rw [List.contains_iff_mem] at hThere
      refine ⟨gained, rfl, hNodup, hDisjoint, fun b => ?_⟩
      rw [hMem b]
      constructor
      · rintro (hOld | ⟨a', ha', rfl⟩)
        · exact .inl hOld
        · exact .inr ⟨a', List.mem_append_left _ ha', rfl⟩
      · rintro (hOld | ⟨a', ha', rfl⟩)
        · exact .inl hOld
        · rcases List.mem_append.mp ha' with ha' | ha'
          · exact .inr ⟨a', ha', rfl⟩
          · rw [List.mem_singleton.mp ha']
            exact (hMem (f a)).mp hThere
    · rename_i hMissing
      rw [List.contains_iff_mem, List.mem_append, not_or] at hMissing
      refine ⟨gained ++ [f a], List.append_assoc .., ?_, ?_, fun b => ?_⟩
      · exact hNodup.append (List.nodup_singleton _) (List.disjoint_singleton.mpr hMissing.2)
      · exact List.disjoint_append_right.mpr ⟨hDisjoint, List.disjoint_singleton.mpr hMissing.1⟩
      · rw [← List.append_assoc, List.mem_append, hMem b, List.mem_singleton, or_assoc]
        refine or_congr_right ?_
        rw [@eq_comm _ b]
        simp only [List.mem_append, List.mem_singleton, or_and_right, exists_or, exists_eq_left]

namespace Site

variable {s : Site}

theorem exists_modulePackages_eq (s : Site) (packages : List String) : ∃ gained,
    s.modulePackages packages = packages ++ gained ∧ gained.Nodup ∧ packages.Disjoint gained ∧
      ∀ target, target ∈ packages ++ gained ↔
        target ∈ packages ∨ ∃ package ∈ packages, s.packageName package = target :=
  exists_foldl_addMissing s.packageName packages packages

theorem exists_packageName_eq_iff (ht : s.renamer.table.Distinct) {packages : List String}
    {target : String} (hNew : target ∉ packages) :
    (∃ package ∈ packages, s.packageName package = target) ↔
      ∃ package ∈ packages, ∀ moved, s.renamer.table.MovesTo package moved ↔ moved = target := by
  refine exists_congr fun package => and_congr_right fun hListed => ?_
  have hOther : target ≠ package := fun h => hNew (h ▸ hListed)
  rw [← and_iff_right hOther (b := ∀ moved, s.renamer.table.MovesTo package moved ↔ moved = target),
    ← RenameTable.newPackage?_eq_some ht, packageName]
  cases s.renamer.table.newPackage? package with
  | none => exact iff_of_false hOther.symm (by rintro ⟨⟩)
  | some moved => rw [Option.getD_some, Option.some_inj]

/-- A module keeps its packages in their order and gains, each once, those that they move to. -/
theorem modulePackages_follow (ht : s.renamer.table.Distinct) (kind : SignatureKind)
    (packages : List String) (state : RewriteState) : ∃ gained,
      (s.rewriteAttribute kind (.plain (.modulePackages packages))).run state =
        (.ok (.plain (.modulePackages (packages ++ gained))), state) ∧
      gained.Nodup ∧ packages.Disjoint gained ∧
      ∀ target, target ∈ packages ++ gained ↔ target ∈ packages ∨
        ∃ package ∈ packages, ∀ moved, s.renamer.table.MovesTo package moved ↔ moved = target := by
  obtain ⟨gained, hList, hNodup, hDisjoint, hMem⟩ := s.exists_modulePackages_eq packages
  refine ⟨gained, ?_, hNodup, hDisjoint, fun target => ?_⟩
  · rw [← hList]
    rfl
  · rw [hMem target]
    by_cases hListed : target ∈ packages
    · exact iff_of_true (.inl hListed) (.inl hListed)
    · rw [or_iff_right hListed, or_iff_right hListed, exists_packageName_eq_iff ht hListed]

end Site

namespace SplitPackage

theorem movesTo_ofClasses {entries : List (String × String)} (h : (entries.map Prod.fst).Nodup)
    {package moved : String} : (RenameTable.ofClasses entries).MovesTo package moved ↔
      (package, moved) ∈ entries.map fun e => (packageOf e.1, packageOf e.2) := by
  simp only [RenameTable.MovesTo, RenameTable.newClass?_ofClasses h, List.mem_map, Prod.exists,
    Prod.mk.injEq]

/-- The classes of one package move to different packages, and those of two others to the same. -/
def entries : List (String × String) :=
  [("a/A", "b/A"), ("a/B", "c/B"), ("d/D", "e/D"), ("f/F", "e/F"), ("d/G", "e/G")]

def site : Site := ⟨⟨.ofClasses entries, ⟨∅, #[], ∅, ∅⟩, false⟩, "module-info", [], "module-info"⟩

theorem built_site : site.renamer.table.Built := RenameTable.built_ofClasses entries

theorem movesTo_site {package moved : String} : site.renamer.table.MovesTo package moved ↔
    (package, moved) ∈ [("a", "b"), ("a", "c"), ("d", "e"), ("f", "e"), ("d", "e")] := by
  have hPackages : (entries.map fun e => (packageOf e.1, packageOf e.2)) =
      [("a", "b"), ("a", "c"), ("d", "e"), ("f", "e"), ("d", "e")] := by decide
  rw [← hPackages]
  exact movesTo_ofClasses (by decide)

/-- The package that two others move to is gained once, those that one is split over not at all. -/
theorem modulePackages_follow_site : site.renamer.table.Distinct ∧ ∃ gained,
    (site.rewriteAttribute .ofClass (.plain (.modulePackages ["a", "d", "f"]))).run
        ⟨.ofClasspath ⟨[]⟩ Config.standard, []⟩ =
      (.ok (.plain (.modulePackages (["a", "d", "f"] ++ gained))),
        ⟨.ofClasspath ⟨[]⟩ Config.standard, []⟩) ∧ gained = ["e"] := by
  have hDistinct := built_site.distinct
  obtain ⟨gained, hRun, hNodup, hDisjoint, hMem⟩ := Site.modulePackages_follow hDistinct .ofClass
    ["a", "d", "f"] ⟨.ofClasspath ⟨[]⟩ Config.standard, []⟩
  refine ⟨hDistinct, gained, hRun, List.perm_singleton.mp ?_⟩
  refine (List.perm_ext_iff_of_nodup hNodup (List.nodup_singleton "e")).mpr fun target => ?_
  rw [List.mem_singleton]
  constructor
  · intro hGained
    have hNew : target ∉ ["a", "d", "f"] := fun hOld => hDisjoint hOld hGained
    obtain ⟨package, hPackage, hMoves⟩ :=
      ((hMem target).mp (List.mem_append_right _ hGained)).resolve_left hNew
    simp only [List.mem_cons, List.not_mem_nil, or_false] at hPackage
    rcases hPackage with rfl | rfl | rfl
    · have hFirst : "b" = target := (hMoves "b").mp (movesTo_site.mpr (by decide))
      have hSecond : "c" = target := (hMoves "c").mp (movesTo_site.mpr (by decide))
      exact absurd (hFirst.trans hSecond.symm) (by decide)
    · exact ((hMoves "e").mp (movesTo_site.mpr (by decide))).symm
    · exact ((hMoves "e").mp (movesTo_site.mpr (by decide))).symm
  · rintro rfl
    have hMoves : ∀ moved, site.renamer.table.MovesTo "f" moved ↔ moved = "e" := fun moved => by
      simp [movesTo_site]
    refine (List.mem_append.mp ((hMem "e").mpr (.inr ⟨"f", by decide, hMoves⟩))).resolve_left ?_
    decide

theorem modulePackages_site : site.modulePackages ["a"] = ["a"] := by
  have hStays : site.packageName "a" = "a" := by
    rw [Site.packageName, RenameTable.newPackage?,
      show site.renamer.table = .ofClasses entries from rfl,
      RenameTable.classes_ofClasses (by decide)]
    rfl
  simp [Site.modulePackages, hStays]

/-- A module does not come to list the packages of classes that leave its package for different
ones. -/
theorem modulePackages_not_gained : ¬ ∀ (s : Site) (kind : SignatureKind) (packages : List String)
    (state : RewriteState), s.renamer.table.Built →
      (∃ old new, s.renamer.table.newClass? old = some new ∧ packageOf old ∈ packages) →
      ∃ gained, (s.rewriteAttribute kind (.plain (.modulePackages packages))).run state =
          (.ok (.plain (.modulePackages (packages ++ gained))), state) ∧
        gained.Nodup ∧ packages.Disjoint gained ∧
        ∀ old new, s.renamer.table.newClass? old = some new → packageOf old ∈ packages →
          packageOf new ≠ "" → packageOf new ∈ packages ++ gained := by
  intro hAll
  have hEntry : site.renamer.table.newClass? "a/A" = some "b/A" :=
    (RenameTable.newClass?_ofClasses (by decide)).mpr (by decide)
  have hOld : packageOf "a/A" ∈ ["a"] := by decide
  obtain ⟨gained, hRun, -, -, hGained⟩ := hAll site .ofClass ["a"]
    ⟨.ofClasspath ⟨[]⟩ Config.standard, []⟩ built_site ⟨_, _, hEntry, hOld⟩
  have hResult : Attribute.plain (.modulePackages (site.modulePackages ["a"])) =
      .plain (.modulePackages (["a"] ++ gained)) := Except.ok.inj (congrArg Prod.fst hRun)
  rw [Attribute.plain.injEq, PlainAttribute.modulePackages.injEq, modulePackages_site] at hResult
  have hNew : packageOf "b/A" ∈ ["a"] := hResult ▸ hGained _ _ hEntry hOld (by decide)
  revert hNew
  decide

end SplitPackage

end Renaming
