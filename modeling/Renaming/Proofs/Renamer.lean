import Renaming.Proofs.Clash
import Renaming.Proofs.OverrideGroups.Partition
import Renaming.Renamer

/-!
# What a renamer makes sure of

A renamer is only built if its input classes get different names, none gets the name of a class on the
class path, and no two fields and no two methods of a class get the same name and descriptor.
-/

namespace Renaming

open Effectful Hierarchy

namespace OverrideGroups

theorem keeps_addClass (b : Builder) (c : ClassModel) : Keeps (b.addClass c) := by
  intro h hc
  have hExtends := keeps_ancestorsOf c.name h hc
  change h.Extends (b.addClass c h).2
  rw [Builder.addClass]
  rcases hRun : (ancestorsOf c.name).run h with ⟨r, h'⟩
  rw [hRun] at hExtends
  cases r with
  | ok ancestors => exact hExtends
  | error e => cases e <;> exact hExtends

theorem keeps_build (t : RenameTable) (classes : List ClassModel) : Keeps (build t classes) := by
  refine keeps_bind (keeps_foldlM keeps_addClass classes .empty) fun b => ?_
  intro h hc
  rw [lift_run]
  exact .refl hc

end OverrideGroups

namespace Renamer

variable {r : Renamer} {h h' : Hierarchy} {t : RenameTable} {classes : List ClassModel}

theorem distinctFrom_eq_self {seen : Std.HashSet String}
    (hSeen : ∀ c ∈ classes, c.name ∉ seen) (hDistinct : (classes.map ClassModel.name).Nodup) :
    distinctFrom seen classes = classes := by
  induction classes generalizing seen with
  | nil => rfl
  | cons c classes ih =>
    obtain ⟨hHead, hTail⟩ := List.forall_mem_cons.mp hSeen
    rw [List.map_cons, List.nodup_cons] at hDistinct
    rw [distinctFrom, if_neg fun hMem => hHead (Std.HashSet.mem_iff_contains.mpr hMem)]
    congr 1
    refine ih (fun d hd hMem => ?_) hDistinct.2
    rcases Std.HashSet.mem_insert.mp hMem with hEq | hMem
    · exact hDistinct.1 (eq_of_beq hEq ▸ List.mem_map_of_mem hd)
    · exact hTail d hd hMem

theorem checkMembers_eq_error {c : ClassModel} {e : Failure} (hCheck : r.checkMembers c = .error e) :
    ∃ why, e = .ambiguousMapping why := by
  rw [checkMembers] at hCheck
  split at hCheck
  · cases hCheck
    exact ⟨_, rfl⟩
  · split at hCheck
    · cases hCheck
      exact ⟨_, rfl⟩
    · cases hCheck

theorem checkMembers_eq_ok {c : ClassModel} : r.checkMembers c = .ok () ↔
    (c.fields.map (r.fieldTarget c.name)).Nodup ∧ (c.methods.map (r.methodTarget c.name)).Nodup := by
  rw [← firstClash?_eq_none, ← firstClash?_eq_none, checkMembers]
  cases hFields : firstClash? (r.fieldTarget c.name) c.fields with
  | some clash =>
    constructor
    · intro hCheck
      cases hCheck
    · rintro ⟨hNone, -⟩
      cases hNone
  | none =>
    cases hMethods : firstClash? (r.methodTarget c.name) c.methods with
    | some clash =>
      constructor
      · intro hCheck
        cases hCheck
      · rintro ⟨-, hNone⟩
        cases hNone
    | none => exact ⟨fun _ => ⟨rfl, rfl⟩, fun _ => rfl⟩

section CheckClasses

variable {isInput : String → Bool} {taken : Std.HashMap String String}

theorem checkClasses_cons_eq_ok {c : ClassModel} :
    r.checkClasses h isInput taken (c :: classes) = .ok () ↔
      taken[r.className c.name]? = none ∧
        (r.className c.name = c.name ∨ isInput (r.className c.name) = true ∨
          h.onClasspath (r.className c.name) = false) ∧
        r.checkMembers c = .ok () ∧
        r.checkClasses h isInput (taken.insert (r.className c.name) c.name) classes = .ok () := by
  conv_lhs => unfold checkClasses
  dsimp only
  cases hTaken : taken[r.className c.name]? with
  | some other =>
    constructor
    · intro hCheck
      cases hCheck
    · rintro ⟨hNone, -⟩
      cases hNone
  | none =>
    dsimp only
    split
    · rename_i hPath
      simp only [ne_eq, Bool.and_eq_true, decide_eq_true_eq, Bool.not_eq_true'] at hPath
      obtain ⟨⟨hNew, hInput⟩, hThere⟩ := hPath
      constructor
      · intro hCheck
        cases hCheck
      · rintro ⟨-, hFree, -⟩
        simp [hNew, hInput, hThere] at hFree
    · rename_i hPath
      have hFree : r.className c.name = c.name ∨ isInput (r.className c.name) = true ∨
          h.onClasspath (r.className c.name) = false := by
        by_cases hSame : r.className c.name = c.name
        · exact Or.inl hSame
        · cases hInput : isInput (r.className c.name) with
          | true => exact Or.inr (Or.inl rfl)
          | false => exact Or.inr (Or.inr (by simpa [hSame, hInput] using hPath))
      refine Outcome.bind_eq_ok.trans ⟨?_, ?_⟩
      · rintro ⟨_, hMembers, hRest⟩
        exact ⟨rfl, hFree, hMembers, hRest⟩
      · rintro ⟨-, -, hMembers, hRest⟩
        exact ⟨(), hMembers, hRest⟩

/-- The check passes if new names meet neither each other nor, without being that of an input class, the
class path, and no members of a class meet. The order of the classes does not matter. -/
theorem checkClasses_eq_ok : r.checkClasses h isInput taken classes = .ok () ↔
    (∀ c ∈ classes, taken[r.className c.name]? = none) ∧
      classes.Pairwise (fun c d => r.className c.name ≠ r.className d.name) ∧
        (∀ c ∈ classes, r.className c.name = c.name ∨ isInput (r.className c.name) = true ∨
          h.onClasspath (r.className c.name) = false) ∧
          ∀ c ∈ classes, r.checkMembers c = .ok () := by
  induction classes generalizing taken with
  | nil => simp [checkClasses]
  | cons c classes ih =>
    rw [checkClasses_cons_eq_ok, ih, List.pairwise_cons]
    simp only [getElem?_insert_eq_none, forall₂_and, List.forall_mem_cons]
    tauto

theorem checkClasses_eq_error {e : Failure}
    (hCheck : r.checkClasses h isInput taken classes = .error e) :
    ∃ why, e = .ambiguousMapping why := by
  induction classes generalizing taken with
  | nil => cases hCheck
  | cons c classes ih =>
    unfold checkClasses at hCheck
    dsimp only at hCheck
    split at hCheck
    · cases hCheck
      exact ⟨_, rfl⟩
    · split at hCheck
      · cases hCheck
        exact ⟨_, rfl⟩
      · cases hMembers : r.checkMembers c with
        | error e' =>
          rw [hMembers] at hCheck
          cases hCheck
          exact checkMembers_eq_error hMembers
        | ok _ =>
          rw [hMembers] at hCheck
          exact ih hCheck

end CheckClasses

theorem build_run (config : Config) {g : OverrideGroups} {h₁ : Hierarchy}
    (hDistinct : (classes.map ClassModel.name).Nodup)
    (hGroups : (OverrideGroups.build t classes).run h = (.ok g, h₁)) :
    (build t classes config).run h =
      ((checkClasses ⟨t, g, config.rebuildSourceFile⟩ h₁
        (Std.HashSet.ofList (classes.map ClassModel.name)).contains ∅ classes).map
          fun _ => ⟨t, g, config.rebuildSourceFile⟩, h₁) := by
  rw [build, bind_run_of_ok hGroups, get_bind_run,
    distinctFrom_eq_self (fun _ _ => Std.HashSet.not_mem_empty) hDistinct]
  cases checkClasses ⟨t, g, config.rebuildSourceFile⟩ h₁
    (Std.HashSet.ofList (classes.map ClassModel.name)).contains ∅ classes <;> rfl

theorem build_eq_ok {config : Config} (hc : h.Coherent)
    (hDistinct : (classes.map ClassModel.name).Nodup)
    (hRun : (build t classes config).run h = (.ok r, h')) :
    h.Extends h' ∧ r.table = t ∧
      r.checkClasses h' (Std.HashSet.ofList (classes.map ClassModel.name)).contains ∅ classes =
        .ok () := by
  rcases bind_run.mp hRun with ⟨g, h₁, hGroups, -⟩ | ⟨e, -, hFails⟩
  · have hExtends := OverrideGroups.keeps_build t classes h hc
    rw [hGroups] at hExtends
    rw [build_run config hDistinct hGroups] at hRun
    cases hCheck : checkClasses ⟨t, g, config.rebuildSourceFile⟩ h₁
        (Std.HashSet.ofList (classes.map ClassModel.name)).contains ∅ classes with
    | ok _ =>
      rw [hCheck] at hRun
      cases hRun
      exact ⟨hExtends, rfl, hCheck⟩
    | error e =>
      rw [hCheck] at hRun
      cases hRun
  · cases hFails

theorem groups_of_build {config : Config} (hRun : (build t classes config).run h = (.ok r, h')) :
    r.table = t ∧ ∃ h₁, (OverrideGroups.build t classes).run h = (.ok r.groups, h₁) := by
  rcases bind_run.mp hRun with ⟨g, h₁, hGroups, hRest⟩ | ⟨e, -, hFails⟩
  · rw [get_bind_run] at hRest
    rcases bind_run.mp hRest with ⟨_, h₂, -, hPure⟩ | ⟨e, -, hFails⟩
    · cases hPure
      exact ⟨rfl, h₁, hGroups⟩
    · cases hFails
  · cases hFails

/-- The ancestors of the classes were asked for. -/
def AskedAbove (h : Hierarchy) (classes : List ClassModel) (h' : Hierarchy) : Prop :=
  ∀ c ∈ classes, ∀ as, h.view.Ancestors c.name as → ∀ x ∈ as, h'.Asked x

theorem addClass_run_plain (hc : h.Coherent) (hLenient : h.strict = false)
    (hPlain : ∀ c ∈ classes, OverrideGroups.Above h.view c []) :
    ∃ h', (classes.foldlM OverrideGroups.Builder.addClass .empty).run h = (.ok .empty, h') ∧
      h.Extends h' ∧ AskedAbove h classes h' := by
  induction classes generalizing h with
  | nil => exact ⟨h, rfl, .refl hc, List.forall_mem_nil _⟩
  | cons c classes ih =>
    obtain ⟨⟨as, hGrounded, hAncestors, hNone⟩, hRest⟩ := List.forall_mem_cons.mp hPlain
    obtain ⟨h₁, hAdd, hExtends, hAsked⟩ :=
      OverrideGroups.Builder.addClass_run hc hLenient .empty hGrounded hAncestors
    rw [← hNone] at hAdd
    obtain ⟨h₂, hAll, hExtends', hAsked'⟩ := ih hExtends.coherent (hExtends.strict_eq.trans hLenient)
      (hExtends.view_eq ▸ hRest)
    refine ⟨h₂, by rw [List.foldlM_cons, bind_run_of_ok hAdd]; exact hAll, hExtends.trans hExtends',
      List.forall_mem_cons.mpr ⟨fun as' hOther x hx => ?_, fun d hd as' hOther => ?_⟩⟩
    · exact hExtends'.asked x (hAsked x (hAncestors.unique hOther ▸ hx))
    · exact hAsked' d hd as' (hExtends.view_eq ▸ hOther)

/-- Classes that neither declare nor inherit a method that could be overridden make up no groups. -/
theorem exists_groups_plain (hc : h.Coherent) (hLenient : h.strict = false)
    (hPlain : ∀ c ∈ classes, OverrideGroups.Above h.view c []) :
    ∃ g h', (OverrideGroups.build t classes).run h = (.ok g, h') ∧ h.Extends h' ∧
      AskedAbove h classes h' ∧ g.cyclic = ∅ ∧ ∀ key, g.newMethod? t key = t.newMethod? key := by
  obtain ⟨h', hAdd, hExtends, hAsked⟩ := addClass_run_plain hc hLenient hPlain
  obtain ⟨g, hFinish, hCyclic, hOther⟩ : ∃ g,
      OverrideGroups.Builder.empty.finish t = .ok g ∧ g.cyclic = ∅ ∧
        ∀ key, g.newMethod? t key = t.newMethod? key :=
    ⟨_, rfl, rfl, fun key => by
      simp [OverrideGroups.newMethod?, OverrideGroups.groupOf?, OverrideGroups.Builder.empty]⟩
  refine ⟨g, h', ?_, hExtends, hAsked, hCyclic, hOther⟩
  rw [OverrideGroups.build, bind_run_of_ok hAdd, hFinish]
  rfl

/-- They get a renamer for any table that gives them different names which are not on the class path,
if none of their members meet. -/
theorem exists_build_plain {classpath : ClassPath}
    (hPlain : ∀ c ∈ classes,
      OverrideGroups.Above (seeded classpath Config.standard classes).view c [])
    (hDistinct : (classes.map ClassModel.name).Nodup)
    (hApart : classes.Pairwise fun c d => t.newClass?.apply c.name ≠ t.newClass?.apply d.name)
    (hFree : ∀ c ∈ classes,
      (seeded classpath Config.standard classes).onClasspath (t.newClass?.apply c.name) = false)
    (hMembers : ∀ c ∈ classes, ∀ r : Renamer, r.table = t → r.checkMembers c = .ok ()) :
    ∃ r h', (build t classes Config.standard).run (seeded classpath Config.standard classes) =
        (.ok r, h') ∧ (seeded classpath Config.standard classes).Extends h' ∧
      AskedAbove (seeded classpath Config.standard classes) classes h' ∧
      r.table = t ∧ r.groups.cyclic = ∅ ∧ ∀ key, r.newMethod? key = t.newMethod? key := by
  obtain ⟨hc, hStrict⟩ := (reached_seeded classpath Config.standard classes).coherent
  obtain ⟨g, h', hGroups, hExtends, hAsked, hCyclic, hOther⟩ :=
    exists_groups_plain (t := t) hc hStrict hPlain
  have hCheck : checkClasses ⟨t, g, false⟩ h'
      (Std.HashSet.ofList (classes.map ClassModel.name)).contains ∅ classes = .ok () := by
    refine checkClasses_eq_ok.mpr ⟨fun c _ => by simp, hApart, fun c hMem => ?_,
      fun c hMem => hMembers c hMem _ rfl⟩
    rw [onClasspath, hExtends.fetch_eq]
    exact Or.inr (Or.inr (hFree c hMem))
  refine ⟨⟨t, g, false⟩, h', ?_, hExtends, hAsked, rfl, hCyclic, hOther⟩
  have hConfig : Config.standard.rebuildSourceFile = false := rfl
  rw [build_run Config.standard hDistinct hGroups, hConfig, hCheck]
  rfl

theorem onClasspath_empty (classes : List ClassModel) (name : String) :
    (seeded ⟨[]⟩ Config.standard classes).onClasspath name = false := by
  rw [onClasspath, seeded, fetch_foldl_seed]
  rfl

section Alone

variable {c : ClassModel} (hName : Text.startsWith '[' c.name = false) (hTop : c.supertypes = [])
  (hMethods : OverrideGroups.declarations c = [])

include hName hTop hMethods

theorem plain_of_alone :
    ∀ d ∈ [c], OverrideGroups.Above (seeded ⟨[]⟩ Config.standard [c]).view d [] := by
  rw [List.forall_mem_singleton]
  have hView : (seeded ⟨[]⟩ Config.standard [c]).view c.name = some c :=
    view_seeded_of_mem (by simp) (by simp) hName
  have hParents : (seeded ⟨[]⟩ Config.standard [c]).view.parents c.name = [] :=
    (View.parents_of_some hView).trans hTop
  exact hMethods ▸ OverrideGroups.above_of_top hParents

theorem exists_groups_alone : ∃ g h',
    (OverrideGroups.build t [c]).run (seeded ⟨[]⟩ Config.standard [c]) = (.ok g, h') ∧
      (seeded ⟨[]⟩ Config.standard [c]).Extends h' ∧ g.cyclic = ∅ := by
  obtain ⟨hc, hStrict⟩ := (reached_seeded ⟨[]⟩ Config.standard [c]).coherent
  obtain ⟨g, h', hGroups, hExtends, -, hCyclic, -⟩ :=
    exists_groups_plain (t := t) hc hStrict (plain_of_alone hName hTop hMethods)
  exact ⟨g, h', hGroups, hExtends, hCyclic⟩

theorem exists_build_alone (hMembers : ∀ r : Renamer, r.table = t → r.checkMembers c = .ok ()) :
    ∃ r h', (build t [c] Config.standard).run (seeded ⟨[]⟩ Config.standard [c]) = (.ok r, h') ∧
      r.table = t ∧ r.groups.cyclic = ∅ := by
  obtain ⟨r, h', hBuild, -, -, hTable, hCyclic, -⟩ :=
    exists_build_plain (t := t) (plain_of_alone hName hTop hMethods) (List.nodup_singleton _)
      (List.pairwise_singleton _ _) (fun _ _ => onClasspath_empty _ _)
      (List.forall_mem_singleton.mpr hMembers)
  exact ⟨r, h', hBuild, hTable, hCyclic⟩

end Alone

end Renamer

end Renaming
