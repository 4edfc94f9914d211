import Renaming.Proofs.Batch.Steps
import Renaming.Proofs.RenameTable
import Renaming.Proofs.Rewrite.Traversal

/-!
# Collisions

A renamer is refused, before anything is rewritten, if what comes out could not be told apart. The check
names classes and members by rules of its own, and foresees exactly what rewriting does with them: it
refuses nothing that would have been fine, and lets nothing through that would not.
-/

namespace Renaming

open Effectful Hierarchy

/-- What tells a member from the others of its kind in a class. -/
def Member.identity (m : Member) : String × String := (m.name, m.descriptor)

namespace Renamer

variable {r : Renamer} {t : RenameTable} {g : OverrideGroups} {config : Config}
  {classes : List ClassModel} {h h₁ : Hierarchy}

/-- Renaming would make classes, or members of a class, indistinguishable. -/
inductive Collides (r : Renamer) (h : Hierarchy) (classes : List ClassModel) : Prop
  /-- Two classes get the same name. -/
  | classes {c d : ClassModel} (hc : c ∈ classes) (hd : d ∈ classes) (hOther : c.name ≠ d.name)
    (hSame : r.className c.name = r.className d.name)
  /-- A class gets a new name that is on the class path and belongs to no input class. -/
  | taken {c : ClassModel} (hc : c ∈ classes) (hNew : r.className c.name ≠ c.name)
    (hOther : r.className c.name ∉ classes.map ClassModel.name)
    (hThere : h.onClasspath (r.className c.name) = true)
  | fields {c : ClassModel} (hc : c ∈ classes)
    (hSame : ¬ (c.fields.map (r.fieldTarget c.name)).Nodup)
  | methods {c : ClassModel} (hc : c ∈ classes)
    (hSame : ¬ (c.methods.map (r.methodTarget c.name)).Nodup)

/-- The rewritten classes can be told apart, in whichever states they were rewritten, and so can the
members of each that was rewritten without trouble. -/
structure Separates (r : Renamer) (classes : List ClassModel) : Prop where
  names : ∀ c ∈ classes, ∀ d ∈ classes, c.name ≠ d.name → ∀ h h' g g' w w',
    (r.rewrite c).run h = (.ok w, h') → (r.rewrite d).run g = (.ok w', g') →
      w.model.name ≠ w'.model.name
  members : ∀ c ∈ classes, ∀ h h' w, (r.rewrite c).run h = (.ok w, h') →
    (∀ n ∈ w.diagnostics, n.kind ≠ .descriptor) →
      (w.model.fields.map Member.identity).Nodup ∧ (w.model.methods.map Member.identity).Nodup

theorem pairwise_className_iff (hDistinct : (classes.map ClassModel.name).Nodup) :
    classes.Pairwise (fun c d => r.className c.name ≠ r.className d.name) ↔
      ∀ c ∈ classes, ∀ d ∈ classes, c.name ≠ d.name → r.className c.name ≠ r.className d.name := by
  constructor
  · intro hPairwise c hc d hd hOther hSame
    have hNodup : (classes.map fun c => r.className c.name).Nodup := List.pairwise_map.mpr hPairwise
    exact hOther (congrArg ClassModel.name (List.inj_on_of_nodup_map hNodup hc hd hSame))
  · intro hNames
    refine List.Nodup.pairwise_of_forall_ne (.of_map _ hDistinct) fun c hc d hd hNe => ?_
    exact hNames c hc d hd fun hName => hNe (List.inj_on_of_nodup_map hDistinct hc hd hName)

theorem checkClasses_eq_ok_iff (hDistinct : (classes.map ClassModel.name).Nodup) :
    r.checkClasses h (Std.HashSet.ofList (classes.map ClassModel.name)).contains ∅ classes =
      .ok () ↔ ¬ r.Collides h classes := by
  rw [checkClasses_eq_ok, pairwise_className_iff hDistinct]
  simp only [Std.HashSet.contains_ofList, List.contains_iff_mem, checkMembers_eq_ok]
  constructor
  · rintro ⟨-, hNames, hPath, hMembers⟩ hCollides
    cases hCollides with
    | classes hc hd hOther hSame => exact hNames _ hc _ hd hOther hSame
    | taken hc hNew hOther hThere =>
      rcases hPath _ hc with hSame | hInput | hFree
      · exact hNew hSame
      · exact hOther hInput
      · rw [hFree] at hThere
        cases hThere
    | fields hc hSame => exact hSame (hMembers _ hc).1
    | methods hc hSame => exact hSame (hMembers _ hc).2
  · intro hFine
    refine ⟨by simp, ?names, ?path, ?members⟩
    case names => exact fun c hc d hd hOther hSame => hFine (.classes hc hd hOther hSame)
    case path =>
      intro c hc
      by_contra hTaken
      simp only [not_or, Bool.not_eq_false] at hTaken
      exact hFine (.taken hc hTaken.1 hTaken.2.1 hTaken.2.2)
    case members =>
      exact fun c hc => ⟨by_contra fun hSame => hFine (.fields hc hSame),
        by_contra fun hSame => hFine (.methods hc hSame)⟩

theorem newDescriptor_of_rename {descriptor new : String}
    (hNew : Descriptor.rename t.newClass? descriptor = .ok new) :
    t.newDescriptor descriptor = new := by
  rw [RenameTable.newDescriptor, hNew]

theorem map_identity_of_rewritten {s : Site} {debug : Prop} {M : MemberRef → MemberRef → Prop}
    {kind : SignatureKind} {newName : Member → String} {members members' : List Member}
    (hMembers : List.Forall₂ (fun m m' => Site.MemberRewritten s debug M kind (newName m) m m')
      members members') : members'.map Member.identity =
        members.map fun m => (newName m, s.renamer.table.newDescriptor m.descriptor) := by
  induction hMembers with
  | nil => rfl
  | cons hHead _ ih =>
    rw [List.map_cons, List.map_cons, ih, newDescriptor_of_rename hHead.descriptor, Member.identity,
      hHead.name]

theorem allows_true : Allows fun _ => True where
  lookup _ _ _ := trivial
  methodOwner _ _ _ := trivial
  fieldOwner _ _ _ := trivial

theorem map_identity_of_rewrite {c : ClassModel} {h h' : Hierarchy} {w : Rewritten}
    (hRun : (r.rewrite c).run h = (.ok w, h')) (hClean : ∀ n ∈ w.diagnostics, n.kind ≠ .descriptor) :
    w.model.fields.map Member.identity = c.fields.map (r.fieldTarget c.name) ∧
      w.model.methods.map Member.identity = c.methods.map (r.methodTarget c.name) := by
  have hReference : ∀ subject m, Rewriting.Yields (fun _ => True) (Diagnostic.Spoils False)
      (Site.memberRef { r.siteOf c with subject := subject } m) fun _ => True :=
    fun _ m => (Site.composed_memberRef m).yields_any allows_true
  obtain ⟨-, hRewritten⟩ := rewrite_spec (M := fun _ _ => True) allows_true hReference trivial hRun
  have hClass := hRewritten fun n hn => by
    rintro (hKind | ⟨hFalse, -⟩)
    · exact hClean n hn hKind
    · exact hFalse
  exact ⟨(map_identity_of_rewritten hClass.fields).trans (List.map_congr_left fun _ _ => rfl),
    (map_identity_of_rewritten hClass.methods).trans (List.map_congr_left fun _ _ => rfl)⟩

theorem separates_of_not_collides (hFine : ¬ r.Collides h classes) : r.Separates classes := by
  refine ⟨?names, ?members⟩
  case names =>
    intro c hc d hd hOther _ _ _ _ w w' hRun hRun'
    rw [name_of_rewrite hRun, name_of_rewrite hRun']
    exact fun hSame => hFine (.classes hc hd hOther hSame)
  case members =>
    intro c hc _ _ w hRun hClean
    obtain ⟨hFields, hMethods⟩ := map_identity_of_rewrite hRun hClean
    rw [hFields, hMethods]
    exact ⟨by_contra fun hSame => hFine (.fields hc hSame),
      by_contra fun hSame => hFine (.methods hc hSame)⟩

/-- A renamer is refused as ambiguous exactly if there is a collision. Otherwise there is one, and what
it rewrites can be told apart. -/
theorem build_exact (hDistinct : (classes.map ClassModel.name).Nodup)
    (hGroups : (OverrideGroups.build t classes).run h = (.ok g, h₁)) :
    ((∃ why, ((build t classes config).run h).1 = .error (.ambiguousMapping why)) ↔
      Collides ⟨t, g, config.rebuildSourceFile⟩ h classes) ∧
    (¬ Collides ⟨t, g, config.rebuildSourceFile⟩ h classes →
      (build t classes config).run h = (.ok ⟨t, g, config.rebuildSourceFile⟩, h₁)) ∧
    ∀ r h', (build t classes config).run h = (.ok r, h') → r.Separates classes := by
  have hSteps := (OverrideGroups.composed_build t classes).steps h
  rw [hGroups] at hSteps
  rw [build_run config hDistinct hGroups, checkClasses_congr hSteps.fetch_eq]
  generalize hRenamer : Renamer.mk t g config.rebuildSourceFile = r
  have hExact := checkClasses_eq_ok_iff (r := r) (h := h) hDistinct
  cases hCheck : r.checkClasses h (Std.HashSet.ofList (classes.map ClassModel.name)).contains ∅
      classes with
  | ok _ =>
    have hFine := hExact.mp hCheck
    refine ⟨⟨?_, fun hCollides => absurd hCollides hFine⟩, fun _ => rfl, ?_⟩
    · rintro ⟨why, hError⟩
      cases hError
    · intro r' h' hRun
      cases hRun
      exact separates_of_not_collides hFine
  | error e =>
    rw [hCheck] at hExact
    have hCollides : r.Collides h classes := by
      by_contra hFine
      cases hExact.mpr hFine
    obtain ⟨why, rfl⟩ := checkClasses_eq_error hCheck
    refine ⟨⟨fun _ => hCollides, fun _ => ⟨why, rfl⟩⟩, fun hFine => absurd hCollides hFine, ?_⟩
    intro r' h' hRun
    cases hRun

def twoFields : ClassModel :=
  ⟨0, 52, 0x21, "A", none, [], [⟨2, "x", "I", []⟩, ⟨2, "y", "I", []⟩], [], []⟩

def meetingTable : RenameTable :=
  (RenameTable.empty.addField ⟨"A", "x", "I"⟩ "y").toOption.getD .empty

theorem newField?_meetingTable (key : MemberKey) :
    meetingTable.newField? key = if ⟨"A", "x", "I"⟩ = key then some "y" else none := by
  rw [meetingTable, RenameTable.addField, RenameTable.addEntry, RenameTable.empty]
  dsimp only
  rw [OrderedMap.find?_empty]
  change (OrderedMap.empty.push ⟨"A", "x", "I"⟩ "y").find? key = _
  rw [OrderedMap.find?_push, OrderedMap.find?_empty]
  simp

theorem build_exact_twoFields : ∃ why, ((build meetingTable [twoFields] Config.standard).run
    (seeded ⟨[]⟩ Config.standard [twoFields])).1 = .error (.ambiguousMapping why) := by
  obtain ⟨g, h₁, hGroups, -⟩ := exists_groups_alone (t := meetingTable) (c := twoFields) (by decide)
    rfl rfl
  refine (build_exact (by simp) hGroups).1.mpr (.fields List.mem_cons_self ?_)
  simp [twoFields, fieldTarget, newField?, newField?_meetingTable]

end Renamer

end Renaming
