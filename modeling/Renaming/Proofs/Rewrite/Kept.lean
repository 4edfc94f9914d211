import Renaming.Proofs.Rewrite.Collision
import Renaming.Proofs.Rewrite.Locality

/-!
# Members that are kept

The check of a renamer foresees the class in which every member is renamed. A member that is kept because
of a descriptor keeps its name as well, and this may be the name that another one gets: then two members
of the rewritten class cannot be told apart. Nothing else makes members of it indistinguishable.
-/

namespace Renaming

open Effectful Hierarchy Rewriting

/-- Each member either is what it was or has the name and descriptor that were foreseen for it. -/
def KeptOrNamed (target : Member → String × String) : List Member → List Member → Prop :=
  List.Forall₂ fun m m' => m' = m ∨ m'.identity = target m

/-- The member at place `i` was kept although it should have been renamed, and the one at place `j` was
renamed to its name and descriptor. -/
def MeetsKept (target : Member → String × String) (old new : List Member) (i j : Nat) : Prop :=
  ∃ m m' n, old[i]? = some m ∧ new[i]? = some m ∧ target m ≠ m.identity ∧
    old[j]? = some m' ∧ new[j]? = some n ∧ n.identity = target m' ∧ target m' = m.identity

theorem MeetsKept.identity_eq {target : Member → String × String} {old new : List Member} {i j : Nat}
    {a b : Member} (h : MeetsKept target old new i j) (ha : new[i]? = some a) (hb : new[j]? = some b) :
    a.identity = b.identity := by
  obtain ⟨m, m', n, -, hm, -, -, hn, hNamed, hSame⟩ := h
  rw [ha] at hm
  rw [hb] at hn
  cases hm
  cases hn
  rw [hNamed, hSame]

namespace KeptOrNamed

variable {target : Member → String × String} {old new : List Member} {i j : Nat} {a b : Member}

theorem exists_old (h : KeptOrNamed target old new) (ha : new[i]? = some a) :
    ∃ m, old[i]? = some m ∧ (a = m ∨ a.identity = target m) := by
  obtain ⟨hi, rfl⟩ := List.getElem?_eq_some_iff.mp ha
  have hi' : i < old.length := h.length_eq ▸ hi
  exact ⟨old[i], List.getElem?_eq_getElem hi', (List.forall₂_iff_get.mp h).2 i hi' hi⟩

end KeptOrNamed

theorem apply_ne_of_nodup {α β : Type} {f : α → β} {as : List α} {i j : Nat} {a b : α}
    (h : (as.map f).Nodup) (hij : i ≠ j) (ha : as[i]? = some a) (hb : as[j]? = some b) :
    f a ≠ f b := by
  obtain ⟨hi, rfl⟩ := List.getElem?_eq_some_iff.mp ha
  obtain ⟨hj, rfl⟩ := List.getElem?_eq_some_iff.mp hb
  intro hSame
  have hLength : (as.map f).length = as.length := List.length_map f
  have hEq : (as.map f)[i] = (as.map f)[j] := by
    rw [List.getElem_map, List.getElem_map, hSame]
  exact hij (h.getElem_inj_iff.mp hEq)

namespace KeptOrNamed

variable {target : Member → String × String} {old new : List Member} {i j : Nat} {a b : Member}

/-- If no two members are foreseen to have the same name and descriptor, two that have are one that was
kept and one that was renamed. -/
theorem identity_eq_iff (h : KeptOrNamed target old new) (hTargets : (old.map target).Nodup)
    (hTarget : ∀ m m' : Member, m.identity = m'.identity → target m = target m') (hij : i ≠ j)
    (ha : new[i]? = some a) (hb : new[j]? = some b) :
    a.identity = b.identity ↔ MeetsKept target old new i j ∨ MeetsKept target old new j i := by
  constructor
  · intro hSame
    obtain ⟨m, hm, hKept⟩ := h.exists_old ha
    obtain ⟨m', hm', hKept'⟩ := h.exists_old hb
    have hApart : target m ≠ target m' := apply_ne_of_nodup hTargets hij hm hm'
    rcases hKept with rfl | hNamed
    · rcases hKept' with rfl | hNamed'
      · exact absurd (hTarget a b hSame) hApart
      · have hMeets : target m' = a.identity := hNamed'.symm.trans hSame.symm
        exact Or.inl ⟨a, m', b, hm, ha, fun hStays => hApart (hStays.trans hMeets.symm), hm', hb,
          hNamed', hMeets⟩
    · rcases hKept' with rfl | hNamed'
      · have hMeets : target m = b.identity := hNamed.symm.trans hSame
        exact Or.inr ⟨b, m, a, hm', hb, fun hStays => hApart (hMeets.trans hStays.symm), hm, ha,
          hNamed, hMeets⟩
      · exact absurd (hNamed.symm.trans (hSame.trans hNamed')) hApart
  · rintro (hMeets | hMeets)
    · exact hMeets.identity_eq ha hb
    · exact (hMeets.identity_eq hb ha).symm

end KeptOrNamed

namespace Site

variable {s : Site}

theorem yields_keptOrNamed_field (m : Member) :
    Yields (fun _ => True) (fun _ => False) (orKeep m ((s.atMember .field m).field m))
      fun m' => m' = m ∨ m'.identity = s.renamer.fieldTarget s.owner m := by
  refine yields_orKeep (fun _ _ => Or.inr (Or.inl rfl)) ?_
  refine yields_bind (yields_descriptor m.descriptor) fun descriptor => ?_
  refine yields_map ((composed_rewriteAttributes .ofField m.attributes).yields_any
    Renamer.allows_true) fun attributes _ hNew => Or.inr ?_
  exact Prod.ext rfl (Renamer.newDescriptor_of_rename hNew).symm

theorem yields_keptOrNamed_method (m : Member) :
    Yields (fun _ => True) (fun _ => False) (orKeep m ((s.atMember .method m).method m))
      fun m' => m' = m ∨ m'.identity = s.renamer.methodTarget s.owner m := by
  refine yields_orKeep (fun _ _ => Or.inr (Or.inl rfl)) ?_
  refine yields_bind (yields_descriptor m.descriptor) fun descriptor => ?_
  refine yields_map ((composed_rewriteAttributes .ofMethod m.attributes).yields_any
    Renamer.allows_true) fun attributes _ hNew => Or.inr ?_
  exact Prod.ext rfl (Renamer.newDescriptor_of_rename hNew).symm

theorem yields_keptOrNamed (c : ClassModel) :
    Yields (fun _ => True) (fun _ => False) (s.rewriteClass c) fun c' =>
      KeptOrNamed (s.renamer.fieldTarget s.owner) c.fields c'.fields ∧
        KeptOrNamed (s.renamer.methodTarget s.owner) c.methods c'.methods := by
  refine yields_bind (yields_mapM fun m _ => yields_keptOrNamed_field m) fun fields => ?_
  refine yields_bind (yields_mapM fun m _ => yields_keptOrNamed_method m) fun methods => ?_
  refine yields_map ((Composed.mapM (fun a => (composed_rewriteAttribute .ofClass a).orKeep a)
    c.attributes).yields_any Renamer.allows_true) fun attributes _ hMethods hFields => ?_
  exact ⟨hFields, hMethods⟩

end Site

namespace Renamer

variable {r : Renamer} {t : RenameTable} {config : Config} {classes : List ClassModel}
  {h h₁ : Hierarchy}

theorem keptOrNamed_of_rewrite {c : ClassModel} {g g' : Hierarchy} {w : Rewritten}
    (hRun : (r.rewrite c).run g = (.ok w, g')) :
    KeptOrNamed (r.fieldTarget c.name) c.fields w.model.fields ∧
      KeptOrNamed (r.methodTarget c.name) c.methods w.model.methods := by
  obtain ⟨-, notes, hClass, -⟩ := rewrite_eq_ok.mp hRun
  obtain ⟨-, -, hMembers⟩ := Site.yields_keptOrNamed c ⟨g, []⟩ trivial _ _ hClass
  exact hMembers w.model rfl fun _ _ => id

/-- Two fields, or two methods, of a rewritten class share their name and descriptor exactly if one was
kept and the other was renamed to it, which the check of the renamer did not foresee. -/
theorem identity_eq_iff_meetsKept (hCoherent : h.Coherent)
    (hDistinct : (classes.map ClassModel.name).Nodup)
    (hBuild : (build t classes config).run h = (.ok r, h₁)) {c : ClassModel} (hc : c ∈ classes)
    {g g' : Hierarchy} {w : Rewritten} (hRun : (r.rewrite c).run g = (.ok w, g')) {i j : Nat}
    (hij : i ≠ j) {a b : Member} :
    (w.model.fields[i]? = some a → w.model.fields[j]? = some b →
      (a.identity = b.identity ↔ MeetsKept (r.fieldTarget c.name) c.fields w.model.fields i j ∨
        MeetsKept (r.fieldTarget c.name) c.fields w.model.fields j i)) ∧
    (w.model.methods[i]? = some a → w.model.methods[j]? = some b →
      (a.identity = b.identity ↔ MeetsKept (r.methodTarget c.name) c.methods w.model.methods i j ∨
        MeetsKept (r.methodTarget c.name) c.methods w.model.methods j i)) := by
  obtain ⟨-, -, hCheck⟩ := build_eq_ok hCoherent hDistinct hBuild
  obtain ⟨-, -, -, hMembers⟩ := checkClasses_eq_ok.mp hCheck
  obtain ⟨hFields, hMethods⟩ := checkMembers_eq_ok.mp (hMembers c hc)
  obtain ⟨hFields', hMethods'⟩ := keptOrNamed_of_rewrite hRun
  constructor
  · refine hFields'.identity_eq_iff hFields (fun m m' hSame => ?_) hij
    rw [Member.identity, Member.identity, Prod.mk.injEq] at hSame
    rw [fieldTarget, fieldTarget, hSame.1, hSame.2]
  · refine hMethods'.identity_eq_iff hMethods (fun m m' hSame => ?_) hij
    rw [Member.identity, Member.identity, Prod.mk.injEq] at hSame
    rw [methodTarget, methodTarget, hSame.1, hSame.2]

end Renamer

namespace SpoiltField

def shifting : String := "field A.x I y\nfield A.y I z"

theorem parse_shifting : RenameTable.parse shifting = .ok shiftingTable := by
  have hColumns : Text.words (Text.beforeFirst '#' "field A.x I y") = ["field", "A.x", "I", "y"] ∧
      Text.words (Text.beforeFirst '#' "field A.y I z") = ["field", "A.y", "I", "z"] := ⟨rfl, rfl⟩
  have hEntries : RenameTable.Entry.parse ["field", "A.x", "I", "y"] =
        .ok (.ofField ⟨"A", "x", "I"⟩ "y") ∧
      RenameTable.Entry.parse ["field", "A.y", "I", "z"] =
        .ok (.ofField ⟨"A", "y", "I"⟩ "z") := ⟨rfl, rfl⟩
  have hFirst : RenameTable.addLine .empty ("field A.x I y", 1) =
      .ok (RenameTable.empty.withField ⟨"A", "x", "I"⟩ "y") := by
    rw [RenameTable.addLine, hColumns.1]
    dsimp only
    rw [hEntries.1]
    exact RenameTable.addField_eq (RenameTable.newField?_empty _)
  have hSecond : RenameTable.addLine (RenameTable.empty.withField ⟨"A", "x", "I"⟩ "y")
      ("field A.y I z", 2) = .ok shiftingTable := by
    rw [RenameTable.addLine, hColumns.2]
    dsimp only
    rw [hEntries.2]
    exact RenameTable.addField_eq (newField?_first _)
  have hLines : (Text.lines shifting).zipIdx 1 = [("field A.x I y", 1), ("field A.y I z", 2)] := by
    rfl
  have hTable : shiftingTable = { RenameTable.empty with
      fields := (OrderedMap.empty.push ⟨"A", "x", "I"⟩ "y").push ⟨"A", "y", "I"⟩ "z" } := by
    rw [shiftingTable, RenameTable.withField_eq (newField?_first _),
      RenameTable.withField_eq (RenameTable.newField?_empty _)]
    rfl
  rw [RenameTable.parse, hLines, List.foldlM_cons, hFirst, Outcome.ok_bind, List.foldlM_cons, hSecond,
    hTable]
  simp [RenameTable.validate, firstClash?, firstClashFrom, OrderedMap.toList, OrderedMap.empty,
    OrderedMap.push, RenameTable.empty, RenameTable.memberTarget]
  rfl

theorem identity_eq_iff_meetsKept_spoilt : ∃ (r : Renamer) (h h' : Hierarchy),
    (Renamer.build shiftingTable [holder "x"] Config.standard).run
        (seeded ⟨[]⟩ Config.standard [holder "x"]) = (.ok r, h) ∧
      (r.rewrite (holder "x")).run h = (.ok ⟨holder "y", [.memberKept "A.y:I" "Q"]⟩, h') ∧
      MeetsKept (r.fieldTarget "A") (holder "x").fields (holder "y").fields 1 0 := by
  obtain ⟨r, h, hBuild, hTable, hCyclic⟩ := exists_renamer
  have hReached := reached_seeded ⟨[]⟩ Config.standard [holder "x"]
  have hRun := rewrite_run hTable hCyclic h
  refine ⟨r, h, h, hBuild, hRun, ?_⟩
  obtain ⟨hFields, -⟩ := Renamer.identity_eq_iff_meetsKept hReached.coherent.1 (by simp) hBuild
    List.mem_cons_self hRun (i := 1) (j := 0) (by decide) (a := spoilt "y") (b := ⟨2, "y", "I", []⟩)
  rcases (hFields rfl rfl).mp rfl with hMeets | hMeets
  · exact hMeets
  · obtain ⟨m, -, -, hOld, hNew, -⟩ := hMeets
    have hSame := hOld.trans hNew.symm
    simp [holder] at hSame

/-- A renamer that was accepted can thus make fields indistinguishable by keeping one of them. -/
theorem not_nodup_of_kept : ¬ ∀ (text : String) (t : RenameTable) (classes : List ClassModel)
    (r : Renamer) (h : Hierarchy), RenameTable.parse text = .ok t →
      (Renamer.build t classes Config.standard).run (seeded ⟨[]⟩ Config.standard classes) =
        (.ok r, h) →
      ∀ c ∈ classes, ∀ w h', (r.rewrite c).run h = (.ok w, h') →
        (∃ d ∈ w.diagnostics, d.ReportsKept) →
          (w.model.fields.map Member.identity).Nodup ∧
            (w.model.methods.map Member.identity).Nodup := by
  intro hAll
  obtain ⟨r, h, hBuild, hTable, hCyclic⟩ := exists_renamer
  obtain ⟨hFields, -⟩ := hAll shifting shiftingTable _ r h parse_shifting hBuild _
    List.mem_cons_self _ h (rewrite_run hTable hCyclic h) ⟨_, List.mem_cons_self, _, _, rfl⟩
  simp [holder, spoilt, Member.identity] at hFields

end SpoiltField

end Renaming
