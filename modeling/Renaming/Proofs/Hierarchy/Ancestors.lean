import Renaming.Proofs.Hierarchy.BreadthFirst
import Renaming.Proofs.Hierarchy.Memory

/-!
# Ancestors

Asking for the ancestors of a class fails exactly if some way up from it leads onto a cycle. If it does
not fail, the list has everything above the class, the nearest first, and no bound on the number of
steps was felt on the way.
-/

namespace Renaming

namespace View

variable {v : View} {name : String}

/-- A way up from the class leads onto a cycle. -/
def MeetsCycle (v : View) (name : String) : Prop :=
  ∃ x, (x = name ∨ v.Above x name) ∧ v.Above x x

theorem MeetsCycle.of_parent {parent : String} (h : v.MeetsCycle parent)
    (hParent : parent ∈ v.parents name) : v.MeetsCycle name := by
  obtain ⟨x, hx, hCycle⟩ := h
  refine ⟨x, Or.inr ?_, hCycle⟩
  rcases hx with rfl | hx
  · exact .single hParent
  · exact hx.tail hParent

theorem meetsCycle_of_self {c : ClassModel} (h : v name = some c) (hSelf : name ∈ c.supertypes) :
    v.MeetsCycle name :=
  ⟨name, Or.inl rfl, .single (by rwa [parents_of_some h])⟩

theorem Grounded.not_meetsCycle (h : v.Grounded name) : ¬ v.MeetsCycle name := by
  rintro ⟨x, rfl | hx, hCycle⟩
  · exact h.not_above_self hCycle
  · exact Grounded.not_above_self (h.inv_of_transGen hx) hCycle

/-- A visit that may go deep enough fails only where it comes back to a class on its path. -/
theorem meetsCycle_of_visit {n fuel : Nat} {path : List String} {done : Std.HashSet String}
    {e : Failure} (hBound : v.Bounded n) (hNodup : path.Nodup)
    (hExists : ∀ x ∈ path, (v x).isSome) (hPath : ∀ x ∈ path, v.Above name x)
    (hFuel : n < fuel + path.length) (h : v.visit fuel path done name = .error e) :
    v.MeetsCycle name := by
  induction fuel generalizing path done name e with
  | zero => exact absurd (hBound path hNodup hExists) (by omega)
  | succ fuel ih =>
    rw [visit] at h
    split at h
    · cases h
    split at h
    · rename_i hOn
      exact ⟨name, Or.inl rfl, hPath name (List.contains_iff_mem.mp hOn)⟩
    rename_i hNew
    split at h
    · cases h
    · rename_i c hSome
      -- The failure comes from a direct supertype, which is visited with a longer path.
      obtain ⟨d, parent, hParent, hFails⟩ : ∃ d, ∃ parent ∈ c.supertypes,
          ∃ e', v.visit fuel (name :: path) d parent = .error e' := by
        rcases Outcome.bind_eq_error.mp h with hFold | ⟨_, -, hDone⟩
        · obtain ⟨d, parent, hParent, hFails⟩ := Outcome.foldlM_eq_error hFold
          exact ⟨d, parent, hParent, e, hFails⟩
        · cases hDone
      obtain ⟨e', hFails⟩ := hFails
      rw [← parents_of_some hSome] at hParent
      apply MeetsCycle.of_parent _ hParent
      apply ih _ _ _ _ hFails
      · exact List.nodup_cons.mpr ⟨by simpa using hNew, hNodup⟩
      · exact List.forall_mem_cons.mpr ⟨by rw [hSome]; rfl, hExists⟩
      · exact List.forall_mem_cons.mpr ⟨.single hParent, fun x hx => (hPath x hx).head hParent⟩
      · rw [List.length_cons]
        omega

theorem grounded_iff {n : Nat} (hBound : v.Bounded n) : v.Grounded name ↔ ¬ v.MeetsCycle name := by
  constructor
  · exact Grounded.not_meetsCycle
  · intro hNone
    cases hVisit : v.visit (n + 1) [] ∅ name with
    | error e =>
      exact absurd (meetsCycle_of_visit hBound List.nodup_nil (List.forall_mem_nil _)
        (List.forall_mem_nil _) (Nat.lt_succ_self n) hVisit) hNone
    | ok done =>
      obtain ⟨hClosed, -, hName⟩ := visit_eq_ok (closed_empty v) hVisit
      exact hClosed.grounded name (hName name (List.mem_singleton.mpr rfl))

/-- All that is said of a list of ancestors. -/
structure ListsAbove (v : View) (name : String) (as : List String) : Prop where
  mem_iff : ∀ x, x ∈ as ↔ v.Above x name
  nodup : as.Nodup
  not_self : name ∉ as
  nearest_first : as.Pairwise (NoFarther v.parents name)
  /-- The list goes through the supertypes of the class and then of each listed class in turn, the
  superclass before the interfaces, and leaves out what came up before. -/
  discovered : as = ((name :: as).flatMap fun x =>
    (v x).elim [] fun c => c.superName.toList ++ c.interfaces).eraseDups

theorem Grounded.listsAbove (h : v.Grounded name) {as : List String}
    (hListed : v.Ancestors name as) : v.ListsAbove name as where
  mem_iff := Hierarchy.mem_ancestors hListed
  nodup := hListed.nodup List.nodup_nil
  not_self hSelf := h.not_above_self ((Hierarchy.mem_ancestors hListed name).mp hSelf)
  nearest_first := hListed.nearest_first
  discovered := hListed.discovered

end View

namespace Hierarchy

open Effectful

variable {classpath : ClassPath} {config : Config} {h h' : Hierarchy} {name : String}

theorem listed_of_ancestorsOf {as : List String} (hRun : (ancestorsOf name).run h = (.ok as, h')) :
    h'.ancestors[name]? = some as := by
  cases hKnown : h.ancestors[name]? with
  | some known =>
    rw [ancestorsOf_of_known hKnown] at hRun
    cases hRun
    exact hKnown
  | none =>
    rcases hReach : (reachable name).run h with ⟨_ | all, h₁⟩
    · rw [ancestorsOf_of_unreachable hKnown hReach] at hRun
      cases hRun
    · rw [ancestorsOf_of_reachable hKnown hReach] at hRun
      cases hRun
      simp

theorem Fits.ancestorsOf {v : View} (hh : h.Fits v) (name : String) :
    ∃ answer h', (ancestorsOf name).run h = (answer, h') ∧ h.Extends h' ∧
      ((∃ as, answer = .ok as ∧ ¬ v.MeetsCycle name ∧ v.ListsAbove name as) ∨
        ∃ through, answer = .error (.hierarchyCycle through) ∧ v.MeetsCycle name) := by
  obtain ⟨answer, h', hRun, hExtends, hSpec⟩ := ancestorsOf_spec hh.coherent name
  have hGrounded : h.view.Grounded name ↔ ¬ h.view.MeetsCycle name :=
    View.grounded_iff h.bounded_view
  rw [hh.view_eq] at hGrounded hSpec
  refine ⟨answer, h', hRun, hExtends, ?_⟩
  rcases hSpec with ⟨as, rfl, hName, hListed, -⟩ | ⟨through, rfl, hNot⟩ | ⟨hStrict, -⟩
  · exact Or.inl ⟨as, rfl, hGrounded.mp hName, hName.listsAbove hListed⟩
  · exact Or.inr ⟨through, rfl, not_not.mp (mt hGrounded.mpr hNot)⟩
  · rw [hh.lenient] at hStrict
    cases hStrict

/-- A lenient hierarchy lists the ancestors of a class unless it meets a cycle on the way up. Neither the
visit nor the walk would do anything else if it could take more steps. -/
theorem ancestorsOf_exact (hReached : Reached classpath config h)
    (hLenient : config.failOnUnresolved = false) (name : String) :
    ∃ answer h', (ancestorsOf name).run h = (answer, h') ∧
      ((∃ through, answer = .error (.hierarchyCycle through)) ↔ h.view.MeetsCycle name) ∧
      (¬ h.view.MeetsCycle name → ∃ as, answer = .ok as ∧ h.view.ListsAbove name as) ∧
      (∀ fuel, h.nodes.size + h.classpath.size < fuel →
        (visit fuel [] ∅ name).run h = (reachable name).run h) ∧
      ∀ as, answer = .ok as → ∀ fuel, as.length < fuel → sweep h'.parents fuel [name] ∅ = as := by
  have hh := hReached.fits hLenient
  obtain ⟨answer, h', hRun, hExtends, hAnswer⟩ := hh.ancestorsOf name
  refine ⟨answer, h', hRun, ?fails, ?lists, ?visit, ?walk⟩
  case fails =>
    constructor
    · rintro ⟨through, rfl⟩
      rcases hAnswer with ⟨as, hOk, -⟩ | ⟨_, -, hCycle⟩
      · cases hOk
      · exact hCycle
    · intro hCycle
      rcases hAnswer with ⟨_, -, hNone, -⟩ | ⟨through, rfl, -⟩
      · exact absurd hCycle hNone
      · exact ⟨through, rfl⟩
  case lists =>
    intro hNone
    rcases hAnswer with ⟨as, rfl, -, hLists⟩ | ⟨_, -, hCycle⟩
    · exact ⟨as, rfl, hLists⟩
    · exact absurd hCycle hNone
  case visit =>
    intro fuel hFuel
    rw [reachable, get_bind_run]
    exact visit_run_congr h.bounded_view h.bounded_view List.nodup_nil (List.forall_mem_nil _) hFuel
      (Nat.lt_succ_self _) hh
  case walk =>
    rintro as rfl fuel hFuel
    exact sweep_of_listed hExtends.coherent (listed_of_ancestorsOf hRun) hFuel

def leaf : ClassModel := ⟨0, 52, 0x21, "Leaf", some "Top", ["Side", "Top"], [], [], []⟩

def ring : ClassModel := ⟨0, 52, 0x21, "Ring", some "Ring", [], [], [], []⟩

def leafAndRing : Hierarchy := seeded ⟨[]⟩ Config.standard [leaf, ring]

theorem view_leafAndRing : leafAndRing.view "Leaf" = some leaf ∧
    leafAndRing.view "Ring" = some ring ∧ leafAndRing.view "Top" = none ∧
    leafAndRing.view "Side" = none := by
  have hDistinct : ([leaf, ring].map ClassModel.name).Nodup := by decide
  constructor
  · exact view_seeded_of_mem (c := leaf) hDistinct (by simp) (by decide)
  constructor
  · exact view_seeded_of_mem (c := ring) hDistinct (by simp) (by decide)
  constructor
  · exact view_seeded_of_not_mem (by decide) (by decide)
  · exact view_seeded_of_not_mem (by decide) (by decide)

theorem not_above_missing {x y : String} (hx : x = "Top" ∨ x = "Side") :
    ¬ leafAndRing.view.Above y x := by
  have hNone : leafAndRing.view x = none := by
    rcases hx with rfl | rfl
    · exact view_leafAndRing.2.2.1
    · exact view_leafAndRing.2.2.2
  intro hAbove
  obtain ⟨z, -, hz⟩ := Relation.TransGen.tail'_iff.mp hAbove
  rw [View.parents, hNone] at hz
  cases hz

theorem above_leaf {x : String} (hx : leafAndRing.view.Above x "Leaf") : x = "Top" ∨ x = "Side" := by
  obtain ⟨y, hWay, hy⟩ := Relation.TransGen.tail'_iff.mp hx
  have hy : y = "Top" ∨ y = "Side" := by
    rw [View.parents_of_some view_leafAndRing.1] at hy
    simp [leaf, ClassModel.supertypes] at hy
    tauto
  rcases Relation.reflTransGen_iff_eq_or_transGen.mp hWay with rfl | hWay
  · exact hy
  · exact absurd hWay (not_above_missing hy)

theorem not_meetsCycle_leaf : ¬ leafAndRing.view.MeetsCycle "Leaf" := by
  rintro ⟨x, rfl | hx, hCycle⟩
  · exact absurd (above_leaf hCycle) (by decide)
  · exact not_above_missing (above_leaf hx) hCycle

theorem meetsCycle_ring : leafAndRing.view.MeetsCycle "Ring" :=
  View.meetsCycle_of_self view_leafAndRing.2.1 (by decide)

theorem eq_of_listsAbove_leaf {as : List String} (h : leafAndRing.view.ListsAbove "Leaf" as) :
    as = ["Top", "Side"] := by
  have hRest : (as.flatMap fun x => (leafAndRing.view x).elim [] fun c =>
      c.superName.toList ++ c.interfaces) = [] := by
    rw [List.flatMap_eq_nil_iff]
    intro x hx
    rcases above_leaf ((h.mem_iff x).mp hx) with rfl | rfl
    · rw [view_leafAndRing.2.2.1]
      rfl
    · rw [view_leafAndRing.2.2.2]
      rfl
  have hFound := h.discovered
  rw [List.flatMap_cons, hRest, view_leafAndRing.1] at hFound
  rw [hFound]
  rfl

theorem ancestorsOf_exact_leafAndRing :
    Reached ⟨[]⟩ Config.standard leafAndRing ∧ Config.standard.failOnUnresolved = false ∧
      ((ancestorsOf "Leaf").run leafAndRing).1 = .ok ["Top", "Side"] ∧
      ∃ through, ((ancestorsOf "Ring").run leafAndRing).1 = .error (.hierarchyCycle through) := by
  have hReached : Reached ⟨[]⟩ Config.standard leafAndRing := reached_seeded _ _ _
  have hLenient : Config.standard.failOnUnresolved = false := by rfl
  refine ⟨hReached, hLenient, ?_, ?_⟩
  · obtain ⟨answer, h', hRun, -, hLists, -⟩ := ancestorsOf_exact hReached hLenient "Leaf"
    obtain ⟨as, rfl, hAs⟩ := hLists not_meetsCycle_leaf
    rw [hRun, eq_of_listsAbove_leaf hAs]
  · obtain ⟨answer, h', hRun, hFails, -⟩ := ancestorsOf_exact hReached hLenient "Ring"
    rw [hRun]
    exact hFails.mpr meetsCycle_ring

end Hierarchy

end Renaming
