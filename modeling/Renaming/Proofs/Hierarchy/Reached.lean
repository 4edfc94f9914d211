import Mathlib.Data.List.Nodup
import Renaming.Proofs.Hierarchy.Steps

/-!
# Hierarchies in use

Classes are put into a hierarchy and questions are asked in any order. Whatever came before, the
hierarchy is coherent: what it remembers is what its view says.
-/

namespace Renaming

open Effectful

namespace Hierarchy

variable {h : Hierarchy}

theorem keeps_ancestorsOf (name : String) : Keeps (ancestorsOf name) := by
  intro h hc
  obtain ⟨r, h', hRun, hExtends, -⟩ := ancestorsOf_spec hc name
  rw [hRun]
  exact hExtends

theorem keeps_methodOnLine (method descriptor : String) (fuel : Nat) (name : Option String) :
    Keeps (methodOnLine method descriptor fuel name) := by
  induction fuel generalizing name with
  | zero =>
    rw [methodOnLine]
    exact keeps_pure none
  | succ fuel ih =>
    cases name with
    | none =>
      rw [methodOnLine]
      · exact keeps_pure none
      · exact Nat.noConfusion
    | some name =>
      rw [methodOnLine]
      refine keeps_bind (keeps_lookup name) fun node => ?_
      split
      · split
        · exact keeps_pure _
        · exact ih _
      · exact keeps_pure none

theorem keeps_methodOwner (reference : MemberKey) : Keeps (methodOwner reference) := by
  refine keeps_bind (keeps_ancestorsOf reference.owner) fun ancestors => ?_
  refine keeps_bind (keeps_methodOnLine _ _ _ _) fun onLine => ?_
  split
  · exact keeps_pure _
  · refine keeps_findSomeM? (fun name => keeps_bind (keeps_lookup name) fun node => ?_) ancestors
    split <;> exact keeps_pure _

theorem keeps_fieldAbove (field descriptor : String) (fuel : Nat) (name : String) :
    Keeps (fieldAbove field descriptor fuel name) := by
  induction fuel generalizing name with
  | zero =>
    rw [fieldAbove]
    exact keeps_pure none
  | succ fuel ih =>
    rw [fieldAbove]
    refine keeps_bind (keeps_lookup name) fun node => ?_
    split
    · split
      · exact keeps_pure _
      · exact keeps_findSomeM? ih _
    · exact keeps_pure none

theorem keeps_fieldOwner (reference : MemberKey) : Keeps (fieldOwner reference) :=
  keeps_bind (keeps_reachable reference.owner) fun _ => keeps_fieldAbove _ _ _ _

theorem keeps_implementorsOf (method : MemberKey) : Keeps (implementorsOf method) := by
  refine keeps_bind (keeps_lookup method.owner) fun owner => ?_
  split
  · split
    · split
      · exact keeps_pure []
      · refine keeps_get_bind fun h => keeps_filterM (fun name => ?_) _
        refine keeps_bind (keeps_lookup name) fun node => ?_
        split
        · split <;> exact keeps_pure _
        · exact keeps_pure _
    · exact keeps_pure []
  · exact keeps_pure []

theorem coherent_ofClasspath (classpath : ClassPath) (config : Config) :
    (ofClasspath classpath config).Coherent where
  named _ _ h := by simp [ofClasspath] at h
  grounded _ _ h := by simp [ofClasspath] at h
  listed _ _ h := by simp [ofClasspath] at h
  asked _ _ h := by simp [ofClasspath] at h

theorem view_seed_of_asked (c : ClassModel) {name : String} (ha : h.Asked name) :
    (h.seed c).view name = h.view name := by
  cases hName : Text.startsWith '[' name with
  | true => rw [view_of_array h hName, view_of_array _ hName]
  | false =>
    rcases ha with ha | ha
    · rw [hName] at ha
      cases ha
    · obtain ⟨node, hNode⟩ := Option.isSome_iff_exists.mp ha
      rw [view_of_node hName hNode]
      refine view_of_node hName ?_
      unfold seed
      split
      · exact hNode
      · rename_i hNew
        rw [Std.HashMap.getElem?_insert, if_neg]
        · exact hNode
        · intro hEq
          rw [eq_of_beq hEq, hNode] at hNew
          cases hNew

theorem Asked.seed (c : ClassModel) {name : String} (ha : h.Asked name) :
    (h.seed c).Asked name := by
  refine ha.imp_right fun ha => ?_
  unfold Hierarchy.seed
  split
  · exact ha
  · rw [Std.HashMap.getElem?_insert]
    split
    · rfl
    · exact ha

theorem ancestors_seed (c : ClassModel) : (h.seed c).ancestors = h.ancestors := by
  unfold seed
  split <;> rfl

theorem nodes_seed {c d : ClassModel} {name : String}
    (hNode : (h.seed c).nodes[name]? = some (some d)) :
    h.nodes[name]? = some (some d) ∨ (name = c.name ∧ d = c) := by
  unfold seed at hNode
  split at hNode
  · exact Or.inl hNode
  · rw [Std.HashMap.getElem?_insert] at hNode
    split at hNode
    · rename_i hEq
      cases hNode
      exact Or.inr ⟨(eq_of_beq hEq).symm, rfl⟩
    · exact Or.inl hNode

theorem Coherent.seed (hc : h.Coherent) (c : ClassModel) : (h.seed c).Coherent := by
  have hParents : ∀ x, h.Asked x → (h.seed c).view.parents x = h.view.parents x := by
    intro x hx
    rw [View.parents, View.parents, view_seed_of_asked c hx]
  refine ⟨?named, ?grounded, ?listed, ?asked⟩
  case named =>
    intro name d hNode
    rcases nodes_seed hNode with hOld | ⟨rfl, rfl⟩
    · exact hc.named name d hOld
    · rfl
  case grounded =>
    intro name as hKnown
    rw [ancestors_seed] at hKnown
    obtain ⟨hName, hAll⟩ := hc.asked name as hKnown
    have hSweep := hc.listed name as hKnown
    obtain ⟨hFirst, hRest⟩ := hSweep.closed
    refine (hc.grounded name as hKnown).map (S := fun x => x = name ∨ x ∈ as) (g := id)
      (Or.inl rfl) ?_ ?_
    · rintro x (rfl | hx) y hy
      · exact Or.inr (hFirst x List.mem_cons_self y hy)
      · exact Or.inr (((hRest x hx).resolve_left List.not_mem_nil) y hy)
    · rintro x (rfl | hx)
      · rw [List.map_id, id, hParents x hName]
      · rw [List.map_id, id, hParents x (hAll x hx)]
  case listed =>
    intro name as hKnown
    rw [ancestors_seed] at hKnown
    obtain ⟨hName, hAll⟩ := hc.asked name as hKnown
    refine (hc.listed name as hKnown).congr fun x hx => hParents x ?_
    rcases hx with hx | hx
    · rwa [List.mem_singleton.mp hx]
    · exact hAll x hx
  case asked =>
    intro name as hKnown
    rw [ancestors_seed] at hKnown
    obtain ⟨hName, hAll⟩ := hc.asked name as hKnown
    exact ⟨hName.seed c, fun x hx => (hAll x hx).seed c⟩

/-- What can be done with a hierarchy. -/
inductive Operation where
  | seed (c : ClassModel)
  | lookup (name : String)
  | ancestorsOf (name : String)
  | implementorsOf (method : MemberKey)
  | methodOwner (reference : MemberKey)
  | fieldOwner (reference : MemberKey)

def Operation.apply (h : Hierarchy) : Operation → Hierarchy
  | seed c => h.seed c
  | lookup name => ((Hierarchy.lookup name).run h).2
  | ancestorsOf name => ((Hierarchy.ancestorsOf name).run h).2
  | implementorsOf method => ((Hierarchy.implementorsOf method).run h).2
  | methodOwner reference => ((Hierarchy.methodOwner reference).run h).2
  | fieldOwner reference => ((Hierarchy.fieldOwner reference).run h).2

/-- The operation puts no class in. -/
def Operation.Asks : Operation → Prop
  | seed _ => False
  | _ => True

theorem Operation.seeds_or_asks (o : Operation) : (∃ c, o = seed c) ∨ o.Asks := by
  cases o with
  | seed c => exact Or.inl ⟨c, rfl⟩
  | _ => exact Or.inr trivial

theorem Operation.Asks.steps {o : Operation} (ho : o.Asks) (h : Hierarchy) : Steps h (o.apply h) := by
  cases o with
  | seed c => exact ho.elim
  | lookup name => exact steps_lookup h name
  | ancestorsOf name => exact (composed_ancestorsOf name).steps h
  | implementorsOf method => exact (composed_implementorsOf method).steps h
  | methodOwner reference => exact (composed_methodOwner reference).steps h
  | fieldOwner reference => exact (composed_fieldOwner reference).steps h

theorem Operation.Asks.extends {o : Operation} (ho : o.Asks) (hc : h.Coherent) :
    h.Extends (o.apply h) := by
  cases o with
  | seed c => exact ho.elim
  | lookup name => exact keeps_lookup name h hc
  | ancestorsOf name => exact keeps_ancestorsOf name h hc
  | implementorsOf method => exact keeps_implementorsOf method h hc
  | methodOwner reference => exact keeps_methodOwner reference h hc
  | fieldOwner reference => exact keeps_fieldOwner reference h hc

theorem Coherent.apply (hc : h.Coherent) (o : Operation) : (o.apply h).Coherent := by
  rcases o.seeds_or_asks with ⟨c, rfl⟩ | ho
  · exact hc.seed c
  · exact (ho.extends hc).coherent

/-- The hierarchy comes about by operations on an empty one. -/
def Reached (classpath : ClassPath) (config : Config) (h : Hierarchy) : Prop :=
  ∃ operations : List Operation, operations.foldl Operation.apply (ofClasspath classpath config) = h

section Reached

variable {classpath : ClassPath} {config : Config}

theorem Reached.invariant {P : Hierarchy → Prop} (hReached : Reached classpath config h)
    (hStart : P (ofClasspath classpath config)) (hSeed : ∀ {h}, P h → ∀ c, P (h.seed c))
    (hStep : ∀ {h h'}, P h → Step h h' → P h') : P h := by
  obtain ⟨operations, rfl⟩ := hReached
  generalize ofClasspath classpath config = h at hStart ⊢
  induction operations generalizing h with
  | nil => exact hStart
  | cons o operations ih =>
    rcases o.seeds_or_asks with ⟨c, rfl⟩ | ho
    · exact ih _ (hSeed hStart c)
    · exact ih _ ((ho.steps h).invariant hStep hStart)

theorem Reached.fixed (hReached : Reached classpath config h) :
    h.fetch = (ofClasspath classpath config).fetch ∧ h.strict = config.failOnUnresolved := by
  refine hReached.invariant (P := fun h =>
    h.fetch = (ofClasspath classpath config).fetch ∧ h.strict = config.failOnUnresolved)
    ⟨rfl, rfl⟩ (fun {h} hh c => ?_) fun hh hStep => ?_
  · unfold seed
    split <;> exact hh
  · cases hStep <;> exact hh

theorem Reached.coherent (hReached : Reached classpath config h) :
    h.Coherent ∧ h.strict = config.failOnUnresolved := by
  refine ⟨?_, hReached.fixed.2⟩
  obtain ⟨operations, rfl⟩ := hReached
  have hc := coherent_ofClasspath classpath config
  generalize ofClasspath classpath config = h at hc ⊢
  induction operations generalizing h with
  | nil => exact hc
  | cons o operations ih => exact ih (o.apply h) (hc.apply o)

end Reached

/-- A hierarchy with input classes that nothing was asked of. -/
def seeded (classpath : ClassPath) (config : Config) (classes : List ClassModel) : Hierarchy :=
  classes.foldl seed (ofClasspath classpath config)

theorem reached_seeded (classpath : ClassPath) (config : Config) (classes : List ClassModel) :
    Reached classpath config (seeded classpath config classes) :=
  ⟨classes.map .seed, List.foldl_map⟩

theorem newestDiagnostics_seeded (classpath : ClassPath) (config : Config)
    (classes : List ClassModel) : (seeded classpath config classes).newestDiagnostics = [] := by
  have hFold : ∀ h : Hierarchy,
      (classes.foldl seed h).newestDiagnostics = h.newestDiagnostics := by
    induction classes with
    | nil => exact fun h => rfl
    | cons c classes ih =>
      intro h
      rw [List.foldl_cons, ih, seed]
      cases h.nodes[c.name]? <;> rfl
  exact hFold (ofClasspath classpath config)

theorem fetch_foldl_seed (classes : List ClassModel) :
    (classes.foldl seed h).fetch = h.fetch := by
  induction classes generalizing h with
  | nil => rfl
  | cons c classes ih =>
    rw [List.foldl_cons, ih]
    unfold seed
    split <;> rfl

theorem node_foldl_seed (classes : List ClassModel) (name : String) :
    (classes.foldl seed h).nodes[name]? =
      (h.nodes[name]?).or ((classes.find? fun c => c.name = name).map some) := by
  induction classes generalizing h with
  | nil => simp
  | cons c classes ih =>
    rw [List.foldl_cons, ih, List.find?_cons]
    unfold seed
    split
    · rename_i node hNode
      by_cases hName : c.name = name
      · subst hName
        simp [hNode]
      · simp [hName]
    · rename_i hNode
      rw [Std.HashMap.getElem?_insert]
      by_cases hName : c.name = name
      · subst hName
        simp [hNode]
      · simp [hName]

/-- An input class is found under its name, and everything else on the class path. -/
theorem view_seeded {classpath : ClassPath} {config : Config} (classes : List ClassModel)
    {name : String} (hName : Text.startsWith '[' name = false) :
    (seeded classpath config classes).view name =
      (classes.find? fun c => c.name = name).or
        ((ofClasspath classpath config).load name).toOption := by
  have hNode := node_foldl_seed (h := ofClasspath classpath config) classes name
  have hEmpty : (ofClasspath classpath config).nodes[name]? = none := by simp [ofClasspath]
  rw [hEmpty, Option.none_or] at hNode
  rw [seeded]
  cases hFind : classes.find? fun c => c.name = name with
  | some c =>
    rw [hFind] at hNode
    rw [view_of_node hName hNode]
    rfl
  | none =>
    rw [hFind] at hNode
    rw [view_of_load hName hNode, load_congr (fetch_foldl_seed classes)]
    rfl

theorem find?_name_of_mem {classes : List ClassModel}
    (hDistinct : (classes.map ClassModel.name).Nodup) {c : ClassModel} (hc : c ∈ classes) :
    (classes.find? fun d => d.name = c.name) = some c := by
  cases hFind : classes.find? fun d => d.name = c.name with
  | none =>
    have hNone := List.find?_eq_none.mp hFind c hc
    simp at hNone
  | some d =>
    have hSame : d.name = c.name := by simpa using List.find?_some hFind
    rw [List.inj_on_of_nodup_map hDistinct (List.mem_of_find?_eq_some hFind) hc hSame]

theorem node_seeded_of_mem {classpath : ClassPath} {config : Config} {classes : List ClassModel}
    (hDistinct : (classes.map ClassModel.name).Nodup) {c : ClassModel} (hc : c ∈ classes) :
    (seeded classpath config classes).nodes[c.name]? = some (some c) := by
  have hEmpty : (ofClasspath classpath config).nodes[c.name]? = none := by simp [ofClasspath]
  rw [seeded, node_foldl_seed, hEmpty, Option.none_or, find?_name_of_mem hDistinct hc]
  rfl

theorem view_seeded_of_mem {classpath : ClassPath} {config : Config} {classes : List ClassModel}
    (hDistinct : (classes.map ClassModel.name).Nodup) {c : ClassModel} (hc : c ∈ classes)
    (hName : Text.startsWith '[' c.name = false) :
    (seeded classpath config classes).view c.name = some c :=
  view_of_node hName (node_seeded_of_mem hDistinct hc)

theorem view_seeded_of_not_mem {classpath : ClassPath} {config : Config}
    {classes : List ClassModel} {name : String} (hName : Text.startsWith '[' name = false)
    (hNew : name ∉ classes.map ClassModel.name) :
    (seeded classpath config classes).view name =
      ((ofClasspath classpath config).load name).toOption := by
  have hFind : classes.find? (fun c => c.name = name) = none := by
    refine List.find?_eq_none.mpr fun c hc hSame => hNew ?_
    rw [← of_decide_eq_true hSame]
    exact List.mem_map_of_mem hc
  rw [view_seeded classes hName, hFind, Option.none_or]

end Hierarchy

end Renaming
