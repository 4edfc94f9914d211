import Renaming.Proofs.Hierarchy.Descendants
import Renaming.Proofs.Hierarchy.Noted
import Renaming.Proofs.Hierarchy.Settled

/-!
# What a hierarchy holds on to

A hierarchy keeps the classes it looked up, the ancestors it listed, the children of each class and the
diagnostics, each changed by other operations than the rest. Whatever requests were made, and in
whichever order, they fit together: an answer about a class is final, ancestors are what they would be if
they were listed now, every class is registered once for each time it names a supertype, and a missing
class is noted once.
-/

namespace Renaming

open Effectful

namespace Hierarchy

variable {h h' : Hierarchy} {name : String} {classpath : ClassPath} {config : Config}

/-- Everything that can be asked of a hierarchy. -/
inductive Request where
  | operate (o : Operation)
  | descendantsOf (name : String)
  | onClasspath (name : String)

def Request.apply (h : Hierarchy) : Request → Hierarchy
  | operate o => o.apply h
  | descendantsOf _ => h
  | onClasspath _ => h

def after (h : Hierarchy) (requests : List Request) : Hierarchy := requests.foldl Request.apply h

theorem Reached.after (hReached : Reached classpath config h) (requests : List Request) :
    Reached classpath config (h.after requests) := by
  induction requests generalizing h with
  | nil => exact hReached
  | cons request requests ih =>
    refine ih (h := request.apply h) ?_
    cases request with
    | operate o =>
      obtain ⟨operations, rfl⟩ := hReached
      exact ⟨operations ++ [o], List.foldl_append⟩
    | descendantsOf name => exact hReached
    | onClasspath name => exact hReached

theorem reached_after (classpath : ClassPath) (config : Config) (requests : List Request) :
    Reached classpath config ((ofClasspath classpath config).after requests) :=
  Reached.after ⟨[], rfl⟩ requests

/-- The answer to a lookup of the class is known. -/
def Holds (h : Hierarchy) (name : String) (node : Option ClassModel) : Prop :=
  h.Asked name ∧ h.view name = node

theorem Holds.lookup {node : Option ClassModel} (hHolds : h.Holds name node) :
    (lookup name).run h = (.ok node, h) := by
  rw [lookup_of_asked hHolds.1, hHolds.2]

theorem holds_of_lookup (hc : h.Coherent) {node : Option ClassModel}
    (hRun : (Hierarchy.lookup name).run h = (.ok node, h')) : h'.Holds name node := by
  obtain ⟨r, h₁, hSpec, hExtends, hAnswer⟩ := lookup_spec hc name
  rw [hRun] at hSpec
  cases hSpec
  rcases hAnswer with ⟨hNode, hAsked⟩ | ⟨-, e, he⟩
  · cases hNode
    exact ⟨hAsked, congrFun hExtends.view_eq name⟩
  · cases he

theorem Holds.apply {node : Option ClassModel} (hc : h.Coherent) (hHolds : h.Holds name node)
    (o : Operation) : (o.apply h).Holds name node := by
  obtain ⟨hAsked, hView⟩ := hHolds
  rcases o.seeds_or_asks with ⟨c, rfl⟩ | ho
  · exact ⟨hAsked.seed c, (view_seed_of_asked c hAsked).trans hView⟩
  · have hExtends := ho.extends hc
    exact ⟨hExtends.asked name hAsked, (congrFun hExtends.view_eq name).trans hView⟩

theorem Holds.after {node : Option ClassModel} (hc : h.Coherent) (hHolds : h.Holds name node)
    (requests : List Request) : (h.after requests).Holds name node := by
  induction requests generalizing h with
  | nil => exact hHolds
  | cons request requests ih =>
    cases request with
    | operate o => exact ih (hc.apply o) (hHolds.apply hc o)
    | descendantsOf _ => exact ih hc hHolds
    | onClasspath _ => exact ih hc hHolds

def unlisted (h : Hierarchy) : Hierarchy := { h with ancestors := ∅ }

theorem Coherent.unlisted (hc : h.Coherent) : h.unlisted.Coherent where
  named := hc.named
  grounded _ _ hKnown := by simp [Hierarchy.unlisted] at hKnown
  listed _ _ hKnown := by simp [Hierarchy.unlisted] at hKnown
  asked _ _ hKnown := by simp [Hierarchy.unlisted] at hKnown

theorem sweep_of_listed (hc : h.Coherent) {as : List String} (hKnown : h.ancestors[name]? = some as)
    {fuel : Nat} (hFuel : as.length < fuel) : sweep h.parents fuel [name] ∅ = as := by
  obtain ⟨hName, hAll⟩ := hc.asked name as hKnown
  have hListed : View.Sweeps h.parents [name] [] as := by
    refine (hc.listed name as hKnown).congr fun x hx => parents_of_asked ?_
    rcases hx with hx | hx
    · rwa [List.mem_singleton.mp hx]
    · exact hAll x hx
  obtain ⟨hFirst, hRest⟩ := hListed.closed
  have hSweep : View.Sweeps h.parents [name] [] ([] ++ sweep h.parents fuel [name] ∅) :=
    View.sweeps_sweep (fun x hx => (hRest x hx).resolve_left List.not_mem_nil) hFirst
      (List.forall_mem_nil _) List.nodup_nil (fun x => by simp) (by simp; omega)
  exact hSweep.unique hListed

theorem reachable_of_listed (hc : h.Coherent) {as : List String}
    (hKnown : h.ancestors[name]? = some as) :
    ∃ all, (reachable name).run h.unlisted = (.ok all, h.unlisted) := by
  obtain ⟨hName, hAll⟩ := hc.asked name as hKnown
  have hVisit : (reachable name).run h.unlisted =
      (h.view.visit (h.nodes.size + h.classpath.size + 1) [] ∅ name, h.unlisted) := by
    rw [reachable, get_bind_run]
    exact visit_of_asked (h := h.unlisted) (S := fun x => x ∈ name :: as)
      (List.forall_mem_cons.mpr ⟨hName, hAll⟩) (hc.listed name as hKnown).closed List.mem_cons_self
  have hNone : ∀ {p : String → Prop}, ∀ x ∈ ([] : List String), p x := by simp
  obtain ⟨all, hDone⟩ := View.visit_of_grounded h.bounded_view List.nodup_nil hNone hNone
    (hc.grounded name as hKnown) (Nat.lt_succ_self _)
  exact ⟨all, by rw [hVisit, hDone]⟩

/-- Listing the ancestors of a class again gives the same, and asks for nothing new. -/
theorem ancestorsOf_of_listed (hc : h.Coherent) {as : List String}
    (hKnown : h.ancestors[name]? = some as) : (ancestorsOf name).run h.unlisted =
      (.ok as, { h.unlisted with ancestors := h.unlisted.ancestors.insert name as }) := by
  obtain ⟨all, hReach⟩ := reachable_of_listed hc hKnown
  obtain ⟨r, h₁, hRun, -, hSpec⟩ := reachable_spec hc.unlisted name
  rw [hReach] at hRun
  cases hRun
  have hFound : sweep h.unlisted.parents (all.size + 1) [name] ∅ = as := by
    rcases hSpec with ⟨all', hAll, -, hClosed, hName, hAsked⟩ | ⟨_, hError, -⟩ | ⟨-, _, hError⟩
    · cases hAll
      exact (ancestors_of_sweep hClosed hName hAsked).1.unique (hc.listed name as hKnown)
    · cases hError
    · cases hError
  have hNew : h.unlisted.ancestors[name]? = none := by simp [unlisted]
  rw [ancestorsOf_of_reachable hNew hReach, hFound]

def misses (h : Hierarchy) (name : String) : List Diagnostic :=
  h.diagnostics.filter fun d => d.kind = .unresolved ∧ d.about = name

/-- No class is noted twice, since what is noted of it is why it cannot be loaded. -/
theorem Told.length_misses_le (ht : h.Told) (name : String) : (h.misses name).length ≤ 1 := by
  have hNodup : (h.misses name).Nodup := (List.nodup_reverse.mpr ht.nodup).filter _
  have hCause : ∀ d ∈ h.misses name, ∃ cause, d = .unresolved name cause ∧
      h.load name = .error cause := by
    intro d hd
    obtain ⟨hd, hAbout⟩ := List.mem_filter.mp hd
    obtain ⟨x, cause, rfl, -, -, hLoad⟩ := (ht.mem_iff d).mp (List.mem_reverse.mp hd)
    obtain rfl : x = name := (of_decide_eq_true hAbout).2
    exact ⟨cause, rfl, hLoad⟩
  have hSame : ∀ d ∈ h.misses name, ∀ d' ∈ h.misses name, d = d' := by
    intro d hd d' hd'
    obtain ⟨cause, rfl, hLoad⟩ := hCause d hd
    obtain ⟨cause', rfl, hLoad'⟩ := hCause d' hd'
    cases hLoad.symm.trans hLoad'
    rfl
  cases hMisses : h.misses name with
  | nil => exact Nat.zero_le 1
  | cons d rest =>
    have hSubset : h.misses name ⊆ [d] := fun d' hd' =>
      List.mem_singleton.mpr (hSame d' hd' d (hMisses ▸ List.mem_cons_self))
    rw [← hMisses]
    exact (hNodup.subperm hSubset).length_le

theorem Reached.newestDiagnostics_of_strict (hReached : Reached classpath config h)
    (hStrict : config.failOnUnresolved = true) : h.newestDiagnostics = [] := by
  have hBoth : h.strict = true ∧ h.newestDiagnostics = [] := by
    refine hReached.invariant (P := fun h => h.strict = true ∧ h.newestDiagnostics = [])
      ⟨hStrict, rfl⟩ (fun {h} hh c => ?_) fun hh hStep => ?_
    · unfold seed
      split <;> exact hh
    · cases hStep with
      | found => exact hh
      | missed _ _ _ hLenient =>
        rw [hh.1] at hLenient
        cases hLenient
      | listed => exact hh
  exact hBoth.2

/-- All that a hierarchy keeps fits together. -/
structure Remembers (classpath : ClassPath) (config : Config) (h : Hierarchy) : Prop where
  /-- A class that was found, or found to be missing, stays so, and is not looked for again. -/
  final : ∀ name node h₁, (lookup name).run h = (.ok node, h₁) → ∀ later : List Request,
    (lookup name).run (h₁.after later) = (.ok node, h₁.after later)
  walked : ∀ (name : String) (as : List String), h.ancestors[name]? = some as →
    ∀ fuel, as.length < fuel → sweep h.parents fuel [name] ∅ = as
  /-- If nothing was listed, the same ancestors would be listed, and nothing would be looked up. -/
  relisted : ∀ (name : String) (as : List String), h.ancestors[name]? = some as →
    (ancestorsOf name).run h.unlisted =
      (.ok as, { h.unlisted with ancestors := h.unlisted.ancestors.insert name as })
  registered : ∀ (name : String) (c : ClassModel), h.nodes[name]? = some (some c) → c.name = name ∧
    ∀ parent, (h.children[parent]?.getD []).count name = c.supertypes.count parent
  stored : ∀ name, h.onClasspath name = (ofClasspath classpath config).onClasspath name ∧
    h.after [.onClasspath name] = h
  /-- A lenient hierarchy notes each missing class once, and a strict one notes nothing. -/
  noted : if config.failOnUnresolved then h.diagnostics = []
    else ∀ name, (h.misses name).length ≤ 1

/-- After any requests in any order, a hierarchy remembers what it answered. -/
theorem remembers_after (classpath : ClassPath) (config : Config) (requests : List Request) :
    Remembers classpath config ((ofClasspath classpath config).after requests) := by
  have hReached := reached_after classpath config requests
  generalize (ofClasspath classpath config).after requests = h at hReached
  obtain ⟨hc, -⟩ := hReached.coherent
  refine ⟨?final, ?walked, ?relisted, ?registered, ?stored, ?noted⟩
  case final =>
    intro name node h₁ hRun later
    have hExtends := keeps_lookup name h hc
    rw [hRun] at hExtends
    exact ((holds_of_lookup hc hRun).after hExtends.coherent later).lookup
  case walked => exact fun name as hKnown fuel hFuel => sweep_of_listed hc hKnown hFuel
  case relisted => exact fun name as hKnown => ancestorsOf_of_listed hc hKnown
  case registered =>
    intro name c hNode
    refine ⟨hc.named name c hNode, fun parent => ?_⟩
    rw [hReached.registered parent name, hNode]
    rfl
  case stored =>
    intro name
    refine ⟨?_, rfl⟩
    rw [onClasspath, onClasspath, hReached.fixed.1]
  case noted =>
    split
    · rename_i hStrict
      rw [diagnostics, hReached.newestDiagnostics_of_strict hStrict]
      rfl
    · exact hReached.told.length_misses_le

end Hierarchy

end Renaming
