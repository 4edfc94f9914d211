import Renaming.Proofs.Hierarchy.Lookup
import Renaming.Proofs.Hierarchy.Steps

/-!
# The way down

A hierarchy enters every class that it gets to know as a child of its supertypes, so the children of a
class are the known classes that name it as a supertype. What can be reached by going down from a class
is what has it above it, as far as the classes in between are known and are no arrays.
-/

namespace Renaming

open Effectful

namespace Hierarchy

variable {h h' : Hierarchy}

/-- The class `kid` is known, and `parent` is one of its direct supertypes. -/
def Links (h : Hierarchy) (parent kid : String) : Prop :=
  ∃ c, h.nodes[kid]? = some (some c) ∧ parent ∈ c.supertypes

/-- A known class is a child of another one as often as it names it as a direct supertype, and no
other class is. -/
def Registered (h : Hierarchy) : Prop :=
  ∀ parent kid, (h.children[parent]?.getD []).count kid =
    (h.nodes[kid]?.getD none).elim 0 fun c : ClassModel => c.supertypes.count parent

/-- The children of a class are the known classes that have it as a direct supertype. -/
theorem Registered.mem_iff (hh : h.Registered) (parent kid : String) :
    kid ∈ h.children[parent]?.getD [] ↔ h.Links parent kid := by
  rw [← List.count_pos_iff, hh parent kid, Links]
  rcases h.nodes[kid]? with _ | _ | c
  · simp
  · simp
  · simp [List.count_pos_iff]

theorem count_children_registerChildren (h : Hierarchy) (c : ClassModel) (parent kid : String) :
    ((h.registerChildren c).children[parent]?.getD []).count kid =
      (h.children[parent]?.getD []).count kid +
        if kid = c.name then c.supertypes.count parent else 0 := by
  have hFold : ∀ (supertypes : List String) (children : Std.HashMap String (List String)),
      ((supertypes.foldl (fun children parent =>
        children.alter parent fun known => some (c.name :: known.getD [])) children)[parent]?.getD
          []).count kid = (children[parent]?.getD []).count kid +
            if kid = c.name then supertypes.count parent else 0 := by
    intro supertypes
    induction supertypes with
    | nil => simp
    | cons next supertypes ih =>
      intro children
      rw [List.foldl_cons, ih, Std.HashMap.getElem?_alter, List.count_cons]
      by_cases hNext : next = parent
      · subst hNext
        by_cases hKid : kid = c.name
        · subst hKid
          simp only [BEq.rfl, if_true, Option.getD_some, List.count_cons]
          omega
        · simp [hKid, Ne.symm hKid]
      · simp [hNext]
  exact hFold c.supertypes h.children

theorem Registered.insert (hh : h.Registered) {c : ClassModel} (hNew : h.nodes[c.name]? = none)
    (hChildren : h'.children = (h.registerChildren c).children)
    (hNodes : h'.nodes = h.nodes.insert c.name (some c)) : h'.Registered := by
  intro parent kid
  rw [hChildren, count_children_registerChildren, hh parent kid, hNodes, Std.HashMap.getElem?_insert]
  by_cases hKid : c.name = kid
  · subst hKid
    simp [hNew]
  · rw [if_neg (mt eq_of_beq hKid), if_neg (Ne.symm hKid), Nat.add_zero]

theorem Registered.step (hh : h.Registered) (hStep : Step h h') : h'.Registered := by
  cases hStep with
  | @found name c hName hNew hLoad =>
    have hSame := name_of_load hLoad
    subst hSame
    exact hh.insert hNew rfl rfl
  | @missed name cause hName hNew hLoad hLenient =>
    intro parent kid
    have hNode : (h.nodes.insert name none)[kid]?.getD none = h.nodes[kid]?.getD none := by
      rw [Std.HashMap.getElem?_insert]
      by_cases hKid : name = kid
      · subst hKid
        simp [hNew]
      · rw [if_neg (mt eq_of_beq hKid)]
    exact (hh parent kid).trans (by rw [hNode])
  | listed => exact hh

theorem Registered.seed (hh : h.Registered) (c : ClassModel) : (h.seed c).Registered := by
  unfold Hierarchy.seed
  split
  · exact hh
  · rename_i hNew
    exact hh.insert hNew rfl rfl

theorem registered_ofClasspath (classpath : ClassPath) (config : Config) :
    (ofClasspath classpath config).Registered := by
  intro parent kid
  simp [ofClasspath]

theorem Reached.registered {classpath : ClassPath} {config : Config}
    (hReached : Reached classpath config h) : h.Registered :=
  hReached.invariant (registered_ofClasspath classpath config) (fun hh c => hh.seed c)
    Registered.step

theorem Registered.steps (hh : h.Registered) (hSteps : Steps h h') : h'.Registered :=
  hSteps.invariant Registered.step hh

theorem Step.node (hStep : Step h h') {name : String} {node : Option ClassModel}
    (hNode : h.nodes[name]? = some node) : h'.nodes[name]? = some node := by
  have hInsert : ∀ {new : String} {found : Option ClassModel}, h.nodes[new]? = none →
      (h.nodes.insert new found)[name]? = some node := by
    intro new found hNew
    rw [Std.HashMap.getElem?_insert, if_neg, hNode]
    intro hEq
    rw [eq_of_beq hEq, hNode] at hNew
    cases hNew
  cases hStep with
  | found _ hNew => exact hInsert hNew
  | missed _ hNew => exact hInsert hNew
  | listed => exact hNode

theorem Steps.node (hSteps : Steps h h') {name : String} {node : Option ClassModel}
    (hNode : h.nodes[name]? = some node) : h'.nodes[name]? = some node :=
  hSteps.invariant (P := fun h' => h'.nodes[name]? = some node) (fun hKnown hStep =>
    hStep.node hKnown) hNode

theorem fold_length (m : Std.HashMap String (List String)) (n : Nat) :
    m.fold (fun n _ names => n + names.length) n = n + (m.toList.flatMap Prod.snd).length := by
  rw [Std.HashMap.fold_eq_foldl_toList, List.length_flatMap]
  generalize m.toList = entries
  induction entries generalizing n with
  | nil => rfl
  | cons entry entries ih =>
    rw [List.foldl_cons, ih, List.map_cons, List.sum_cons, Nat.add_assoc]

/-- The walk down is never cut short, whatever the children of each class are. -/
theorem exists_sweeps_children (h : Hierarchy) (name : String) :
    ∃ found, View.Sweeps (fun parent => h.children[parent]?.getD []) [name] [] found ∧
      h.descendantsOf name = found.mergeSort (fun a b => !(b < a)) := by
  have hKids : ∀ parent : String, ∀ kid ∈ h.children[parent]?.getD [],
      kid ∈ h.children.toList.flatMap Prod.snd := by
    intro parent kid hKid
    cases hParent : h.children[parent]? with
    | none =>
      rw [hParent] at hKid
      cases hKid
    | some kids =>
      rw [hParent] at hKid
      exact List.mem_flatMap.mpr
        ⟨(parent, kids), Std.HashMap.mem_toList_iff_getElem?_eq_some.mpr hParent, hKid⟩
  have hSweep : View.Sweeps (fun parent => h.children[parent]?.getD []) [name] []
      ([] ++ sweep (fun parent => h.children[parent]?.getD [])
        (h.children.fold (fun n _ names => n + names.length) 1) [name] ∅) :=
    View.sweeps_sweep (fun x _ => hKids x) (fun x _ => hKids x) (List.forall_mem_nil _)
      List.nodup_nil (fun x => by simp) (by simp [fold_length])
  exact ⟨_, hSweep, rfl⟩

theorem mem_descendantsOf (hh : h.Registered) {name kid : String} :
    kid ∈ h.descendantsOf name ↔ Relation.TransGen h.Links name kid := by
  have hNext : (fun parent kid : String => kid ∈ h.children[parent]?.getD []) = h.Links := by
    funext parent kid
    exact propext (hh.mem_iff parent kid)
  obtain ⟨found, hSweep, hFound⟩ := h.exists_sweeps_children name
  rw [hFound, List.mem_mergeSort, ← hNext]
  exact hSweep.mem_iff kid

/-- No class is known under the name of an array type. -/
def ArrayFree (h : Hierarchy) : Prop :=
  ∀ name, Text.startsWith '[' name = true → h.nodes[name]? = none

theorem ArrayFree.insert (hFree : h.ArrayFree) {new : String} {found : Option ClassModel}
    (hNew : Text.startsWith '[' new = false) :
    ∀ name, Text.startsWith '[' name = true → (h.nodes.insert new found)[name]? = none := by
  intro name hName
  rw [Std.HashMap.getElem?_insert, if_neg]
  · exact hFree name hName
  · intro hEq
    rw [eq_of_beq hEq, hName] at hNew
    cases hNew

theorem ArrayFree.step (hFree : h.ArrayFree) (hStep : Step h h') : h'.ArrayFree := by
  cases hStep with
  | found hName => exact hFree.insert hName
  | missed hName => exact hFree.insert hName
  | listed => exact hFree

theorem ArrayFree.seed (hFree : h.ArrayFree) {c : ClassModel}
    (hName : Text.startsWith '[' c.name = false) : (h.seed c).ArrayFree := by
  unfold Hierarchy.seed
  split
  · exact hFree
  · exact hFree.insert hName

theorem arrayFree_ofClasspath (classpath : ClassPath) (config : Config) :
    (ofClasspath classpath config).ArrayFree := by
  intro name _
  simp [ofClasspath]

theorem arrayFree_seeded (classpath : ClassPath) (config : Config) {classes : List ClassModel}
    (hNames : ∀ c ∈ classes, Text.startsWith '[' c.name = false) :
    (seeded classpath config classes).ArrayFree := by
  have hFree := arrayFree_ofClasspath classpath config
  rw [seeded]
  generalize ofClasspath classpath config = h at hFree
  induction classes generalizing h with
  | nil => exact hFree
  | cons c classes ih =>
    obtain ⟨hFirst, hRest⟩ := List.forall_mem_cons.mp hNames
    exact ih hRest _ (hFree.seed hFirst)

theorem above_of_links (hFree : h.ArrayFree) {name kid : String}
    (hBelow : Relation.TransGen h.Links name kid) : h.view.Above name kid := by
  refine Relation.TransGen.mono ?_ _ _ hBelow
  rintro parent kid ⟨c, hNode, hParent⟩
  cases hName : Text.startsWith '[' kid with
  | true =>
    rw [hFree kid hName] at hNode
    cases hNode
  | false =>
    rw [View.parents_of_some (view_of_node hName hNode)]
    exact hParent

theorem mem_ancestors {v : View} {name : String} {as : List String}
    (hListed : v.Ancestors name as) (x : String) : x ∈ as ↔ v.Above x name := by
  rw [View.Sweeps.mem_iff hListed x, View.Above, ← Relation.transGen_swap]

/-- Questions lead from one hierarchy to the other. -/
def Questioned (h h' : Hierarchy) : Prop :=
  ∃ operations : List Operation, (∀ o ∈ operations, o.Asks) ∧ operations.foldl Operation.apply h = h'

theorem Questioned.steps (hAsked : Questioned h h') : Steps h h' := by
  obtain ⟨operations, hAsks, rfl⟩ := hAsked
  induction operations generalizing h with
  | nil => exact .refl
  | cons o operations ih =>
    obtain ⟨hFirst, hRest⟩ := List.forall_mem_cons.mp hAsks
    exact (hFirst.steps h).trans (ih hRest)

theorem Questioned.extends (hAsked : Questioned h h') (hc : h.Coherent) : h.Extends h' := by
  obtain ⟨operations, hAsks, rfl⟩ := hAsked
  induction operations generalizing h with
  | nil => exact .refl hc
  | cons o operations ih =>
    obtain ⟨hFirst, hRest⟩ := List.forall_mem_cons.mp hAsks
    have hExtends := hFirst.extends hc
    exact hExtends.trans (ih hExtends.coherent hRest)

theorem Questioned.reached {classpath : ClassPath} {config : Config}
    (hAsked : Questioned h h') (hReached : Reached classpath config h) :
    Reached classpath config h' := by
  obtain ⟨operations, rfl⟩ := hReached
  obtain ⟨more, -, rfl⟩ := hAsked
  exact ⟨operations ++ more, List.foldl_append⟩

section Implementors

variable {v : View}

theorem Answers.run {α : Type} {x : Exploring α} {a : α} (hx : Answers v x a) (hh : h.Fits v) :
    x.run h = (.ok a, (x.run h).2) := by
  obtain ⟨h', hRun, -⟩ := hx h hh.coherent hh.lenient hh.view_eq
  rw [hRun]

theorem answers_filterM {α : Type} {f : α → Exploring Bool} {g : α → Bool}
    (hf : ∀ a, Answers v (f a) (g a)) (as : List α) : Answers v (as.filterM f) (as.filter g) := by
  have hAux : ∀ kept, Answers v (as.filterAuxM f kept) ((as.filter g).reverse ++ kept) := by
    induction as with
    | nil => exact fun kept => answers_pure kept
    | cons a as ih =>
      intro kept
      rw [List.filterAuxM]
      apply answers_bind (hf a)
      cases hKeep : g a with
      | true =>
        rw [List.filter_cons_of_pos hKeep, List.reverse_cons, List.append_assoc]
        exact ih (a :: kept)
      | false =>
        rw [List.filter_cons_of_neg (Bool.eq_false_iff.mp hKeep)]
        exact ih kept
  rw [List.filterM]
  apply answers_bind (hAux [])
  rw [List.append_nil, List.reverse_reverse]
  exact answers_pure (as.filter g)

/-- The class of the given name declares a method that overrides what `owner` declares with
`access`, as far as packages go. -/
def overridden (v : View) (owner : ClassModel) (access : UInt16) (method : MemberKey)
    (name : String) : Bool :=
  match v name with
  | none => false
  | some c =>
    if AccessFlags.isPackagePrivate access && c.package ≠ owner.package then false
    else (c.findMethod method.name method.descriptor).any (AccessFlags.isVirtual ·.access)

theorem overridden_eq_true {owner : ClassModel} {access : UInt16} {method : MemberKey}
    {name : String} : overridden v owner access method name = true ↔
      ∃ c m, v name = some c ∧
        (AccessFlags.isPackagePrivate access = true → c.package = owner.package) ∧
        c.findMethod method.name method.descriptor = some m ∧
        AccessFlags.isVirtual m.access = true := by
  rw [overridden]
  cases v name with
  | none => simp
  | some c =>
    have hAny : (c.findMethod method.name method.descriptor).any (AccessFlags.isVirtual ·.access) =
        true ↔ ∃ m, c.findMethod method.name method.descriptor = some m ∧
          AccessFlags.isVirtual m.access = true := Option.any_eq_true ..
    by_cases hPackage : c.package = owner.package <;> simp [hPackage, hAny]

/-- The implementors of a method that takes part in overriding are the classes below its owner, as they
are known once the owner is, that declare an override. -/
theorem implementorsOf_spec (hh : h.Fits v) (hRegistered : h.Registered) (method : MemberKey) :
    ∃ names h₁ h', (implementorsOf method).run h = (.ok names, h') ∧ h.Extends h₁ ∧ Steps h h₁ ∧
      ∀ name, name ∈ names ↔ ∃ owner declared, v method.owner = some owner ∧
        owner.findMethod method.name method.descriptor = some declared ∧
        AccessFlags.isVirtual declared.access = true ∧
        Text.startsWith '<' method.name = false ∧
        Relation.TransGen h₁.Links method.owner name ∧
        overridden v owner declared.access method name = true := by
  obtain ⟨h₁, hLookup, hExtends⟩ := answers_lookup method.owner h hh.coherent hh.lenient hh.view_eq
  have hSteps := steps_lookup h method.owner
  rw [hLookup] at hSteps
  rw [implementorsOf, bind_run_of_ok hLookup]
  cases hOwner : v method.owner with
  | none => exact ⟨[], h₁, h₁, rfl, hExtends, hSteps, by simp⟩
  | some owner =>
    dsimp only
    cases hMethod : owner.findMethod method.name method.descriptor with
    | none => exact ⟨[], h₁, h₁, rfl, hExtends, hSteps, by simp [hMethod]⟩
    | some declared =>
      dsimp only
      split
      · rename_i hNot
        refine ⟨[], h₁, h₁, rfl, hExtends, hSteps, fun name => ?_⟩
        simp only [List.not_mem_nil, false_iff]
        rintro ⟨owner', declared', hOwner', hMethod', hVirtual, hName, -⟩
        cases hOwner'
        rw [hMethod] at hMethod'
        cases hMethod'
        simp [hVirtual, hName] at hNot
      · rename_i hTakesPart
        simp only [Bool.or_eq_true, Bool.not_eq_true', not_or, Bool.not_eq_true,
          Bool.not_eq_false] at hTakesPart
        refine ⟨(h₁.descendantsOf method.owner).filter
          (overridden v owner declared.access method), h₁, _, get_bind_run.trans
            ((answers_filterM (fun name => ?_) _).run (hh.extends hExtends)),
            hExtends, hSteps, fun name => ?_⟩
        · apply answers_bind (answers_lookup name)
          rw [overridden]
          cases v name with
          | none => exact answers_pure false
          | some c =>
            dsimp only
            split
            · exact answers_pure false
            · exact answers_pure _
        · rw [List.mem_filter, mem_descendantsOf (hRegistered.steps hSteps)]
          constructor
          · rintro ⟨hBelow, hOverridden⟩
            exact ⟨owner, declared, rfl, hMethod, hTakesPart.1, hTakesPart.2, hBelow, hOverridden⟩
          · rintro ⟨owner', declared', hOwner', hMethod', -, -, hBelow, hOverridden⟩
            cases hOwner'
            rw [hMethod] at hMethod'
            cases hMethod'
            exact ⟨hBelow, hOverridden⟩

end Implementors

end Hierarchy

end Renaming
