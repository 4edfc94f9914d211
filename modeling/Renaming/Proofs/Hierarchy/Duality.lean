import Renaming.Proofs.Hierarchy.Ancestors

/-!
# Up and down

Once the ancestors of a class are listed, every class on the way up was asked for, so that all the links
between them are registered for the way down, and they stay so. From then on the class is below exactly
the classes that are listed above it, whatever is asked or put in. Only a class with the name of an array
type would be below another one without having it above.
-/

namespace Renaming

open Effectful

namespace Hierarchy

variable {h h' : Hierarchy} {name : String}

/-- The request puts in no class that has the name of an array type. -/
def Request.SeedsNoArray : Request → Prop
  | operate (.seed c) => Text.startsWith '[' c.name = false
  | _ => True

theorem ArrayFree.apply (hFree : h.ArrayFree) {request : Request} (hNames : request.SeedsNoArray) :
    (request.apply h).ArrayFree := by
  cases request with
  | operate o =>
    rcases o.seeds_or_asks with ⟨c, rfl⟩ | hAsks
    · exact hFree.seed hNames
    · exact (hAsks.steps h).invariant ArrayFree.step hFree
  | descendantsOf name => exact hFree
  | onClasspath name => exact hFree

theorem ArrayFree.after (hFree : h.ArrayFree) {requests : List Request}
    (hNames : ∀ request ∈ requests, request.SeedsNoArray) : (h.after requests).ArrayFree := by
  induction requests generalizing h with
  | nil => exact hFree
  | cons request requests ih =>
    obtain ⟨hFirst, hRest⟩ := List.forall_mem_cons.mp hNames
    exact ih (hFree.apply hFirst) hRest

/-- Every class on the ways up from a class was asked for, and these are its ancestors. -/
structure Lists (h : Hierarchy) (name : String) (as : List String) : Prop where
  listed : h.view.Ancestors name as
  asked : ∀ x ∈ name :: as, h.Asked x

theorem lists_of_ancestorsOf (hc : h.Coherent) {as : List String}
    (hRun : (ancestorsOf name).run h = (.ok as, h')) : h'.Lists name as := by
  have hExtends := keeps_ancestorsOf name h hc
  rw [hRun] at hExtends
  have hKnown := listed_of_ancestorsOf hRun
  obtain ⟨hName, hAll⟩ := hExtends.coherent.asked name as hKnown
  exact ⟨hExtends.coherent.listed name as hKnown, List.forall_mem_cons.mpr ⟨hName, hAll⟩⟩

theorem Lists.after {as : List String} (hc : h.Coherent) (hLists : h.Lists name as)
    (requests : List Request) : (h.after requests).Lists name as := by
  have hSame : ∀ x ∈ name :: as, (h.after requests).Holds x (h.view x) := fun x hx =>
    Holds.after hc ⟨hLists.asked x hx, rfl⟩ requests
  refine ⟨hLists.listed.congr fun x hx => ?_, fun x hx => (hSame x hx).1⟩
  have hMem : x ∈ name :: as := by
    rcases hx with hx | hx
    · rw [List.mem_singleton.mp hx]
      exact List.mem_cons_self
    · exact List.mem_cons_of_mem name hx
  rw [View.parents, View.parents, (hSame x hMem).2]

theorem links_of_asked {parent kid : String} (hAsked : h.Asked kid)
    (hParent : parent ∈ h.view.parents kid) : h.Links parent kid := by
  cases hKid : h.view kid with
  | none =>
    rw [View.parents, hKid] at hParent
    cases hParent
  | some c =>
    rw [View.parents_of_some hKid] at hParent
    cases hName : Text.startsWith '[' kid with
    | true =>
      rw [view_of_array h hName] at hKid
      cases hKid
    | false =>
      rcases hAsked with hArray | hKnown
      · rw [hName] at hArray
        cases hArray
      · obtain ⟨node, hNode⟩ := Option.isSome_iff_exists.mp hKnown
        rw [view_of_node hName hNode] at hKid
        exact ⟨c, hKid ▸ hNode, hParent⟩

theorem Lists.links {as : List String} (hLists : h.Lists name as) {x : String} (hx : x ∈ as) :
    Relation.TransGen h.Links x name := by
  have hUp := (View.Sweeps.mem_iff hLists.listed x).mp hx
  induction hUp with
  | single hParent => exact .single (links_of_asked (hLists.asked name List.mem_cons_self) hParent)
  | @tail y x hWay hParent ih =>
    have hy : y ∈ as := (View.Sweeps.mem_iff hLists.listed y).mpr hWay
    exact .head (links_of_asked (hLists.asked y (List.mem_cons_of_mem name hy)) hParent) (ih hy)

theorem Lists.mem_iff {as : List String} (hLists : h.Lists name as) (hRegistered : h.Registered)
    (hFree : h.ArrayFree) (x : String) : x ∈ as ↔ name ∈ h.descendantsOf x := by
  rw [mem_descendantsOf hRegistered]
  constructor
  · exact hLists.links
  · intro hBelow
    exact (mem_ancestors hLists.listed x).mpr (above_of_links hFree hBelow)

/-- From when its ancestors are listed, a class is below exactly these. No way down goes on for ever,
even where there are cycles. -/
theorem ancestors_iff_descendants (classpath : ClassPath) (config : Config) :
    (∀ (before after : List Request) (name : String) (as : List String) (h : Hierarchy),
      (∀ request ∈ before ++ after, request.SeedsNoArray) →
      (ancestorsOf name).run ((ofClasspath classpath config).after before) = (.ok as, h) →
      ∀ x, x ∈ as ↔ name ∈ (h.after after).descendantsOf x) ∧
    ∀ (requests : List Request) (name : String), ∃ found,
      View.Sweeps (fun parent =>
        ((ofClasspath classpath config).after requests).children[parent]?.getD []) [name] [] found ∧
      ((ofClasspath classpath config).after requests).descendantsOf name =
        found.mergeSort (fun a b => !(b < a)) := by
  constructor
  · intro before after name as h hNames hRun
    obtain ⟨hBefore, hAfter⟩ := List.forall_mem_append.mp hNames
    have hStart := reached_after classpath config before
    have hFree := (arrayFree_ofClasspath classpath config).after hBefore
    have hAsk : h = Request.apply ((ofClasspath classpath config).after before)
        (.operate (.ancestorsOf name)) := by
      rw [Request.apply, Operation.apply, hRun]
    have hReached : Reached classpath config h := by
      rw [hAsk]
      exact hStart.after [.operate (.ancestorsOf name)]
    have hFree : h.ArrayFree := by
      rw [hAsk]
      exact hFree.apply trivial
    have hLists := lists_of_ancestorsOf hStart.coherent.1 hRun
    exact (hLists.after hReached.coherent.1 after).mem_iff (hReached.after after).registered
      (hFree.after hAfter)
  · exact fun requests name => exists_sweeps_children _ name

theorem ancestors_iff_descendants_leafAndRing :
    ∃ h, (ancestorsOf "Leaf").run ((ofClasspath ⟨[]⟩ Config.standard).after
        [.operate (.seed leaf), .operate (.seed ring)]) = (.ok ["Top", "Side"], h) ∧
      (∀ request ∈ ([.operate (.seed leaf), .operate (.seed ring)] ++
        [.operate (.lookup "Ring")] : List Request), request.SeedsNoArray) ∧
      "Leaf" ∈ (h.after [.operate (.lookup "Ring")]).descendantsOf "Side" ∧
      "Leaf" ∉ (h.after [.operate (.lookup "Ring")]).descendantsOf "Ring" := by
  have hFits : leafAndRing.Fits leafAndRing.view := fits_seeded ⟨[]⟩ [leaf, ring] rfl
  obtain ⟨answer, h, hRun, -, hAnswer⟩ := hFits.ancestorsOf "Leaf"
  have hOk : answer = .ok ["Top", "Side"] := by
    rcases hAnswer with ⟨as, rfl, -, hAs⟩ | ⟨_, -, hCycle⟩
    · rw [eq_of_listsAbove_leaf hAs]
    · exact absurd hCycle not_meetsCycle_leaf
  rw [hOk] at hRun
  have hNames : ∀ request ∈ ([.operate (.seed leaf), .operate (.seed ring)] ++
      [.operate (.lookup "Ring")] : List Request), request.SeedsNoArray := by
    have hLeaf : Text.startsWith '[' leaf.name = false := by decide
    have hRing : Text.startsWith '[' ring.name = false := by decide
    simp [Request.SeedsNoArray, hLeaf, hRing]
  have hDual := (ancestors_iff_descendants ⟨[]⟩ Config.standard).1 _ _ _ _ _ hNames hRun
  exact ⟨h, hRun, hNames, (hDual "Side").mp (by decide), mt (hDual "Ring").mpr (by decide)⟩

end Hierarchy

end Renaming
