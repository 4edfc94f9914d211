import Renaming.Proofs.Hierarchy.View

/-!
# What a hierarchy remembers

A hierarchy that is asked loads classes and keeps what it finds. The view of a hierarchy says what it
would answer for each name, and no question changes it: what is remembered is what would be found
again. A strict hierarchy answers the same as a lenient one, as long as it answers.
-/

namespace Renaming

open Effectful

namespace Hierarchy

variable {h h' : Hierarchy} {name : String} {α β : Type}

/-- The class that the hierarchy has for a name, or would find if it was asked. -/
def view (h : Hierarchy) : View := fun name =>
  if Text.startsWith '[' name then none
  else match h.nodes[name]? with
    | some node => node
    | none => (h.load name).toOption

/-- There is nothing left to find out about a name. -/
def Asked (h : Hierarchy) (name : String) : Prop :=
  Text.startsWith '[' name = true ∨ (h.nodes[name]?).isSome

structure Coherent (h : Hierarchy) : Prop where
  named : ∀ name (c : ClassModel), h.nodes[name]? = some (some c) → c.name = name
  grounded : ∀ name as, h.ancestors[name]? = some as → h.view.Grounded name
  listed : ∀ name as, h.ancestors[name]? = some as → h.view.Ancestors name as
  asked : ∀ name as, h.ancestors[name]? = some as → h.Asked name ∧ ∀ x ∈ as, h.Asked x

/-- `h'` knows more than `h`, and gives the same answers. -/
structure Extends (h h' : Hierarchy) : Prop where
  view_eq : h'.view = h.view
  strict_eq : h'.strict = h.strict
  fetch_eq : h'.fetch = h.fetch
  asked : ∀ name, h.Asked name → h'.Asked name
  coherent : h'.Coherent

/-- A question that does not change any answer. -/
def Keeps (x : Exploring α) : Prop := ∀ h : Hierarchy, h.Coherent → h.Extends (x.run h).2

namespace Extends

theorem refl (hc : h.Coherent) : h.Extends h := ⟨rfl, rfl, rfl, fun _ ha => ha, hc⟩

theorem trans {h'' : Hierarchy} (he : h.Extends h') (he' : h'.Extends h'') : h.Extends h'' where
  view_eq := he'.view_eq.trans he.view_eq
  strict_eq := he'.strict_eq.trans he.strict_eq
  fetch_eq := he'.fetch_eq.trans he.fetch_eq
  asked name ha := he'.asked name (he.asked name ha)
  coherent := he'.coherent

end Extends

theorem view_of_array (h : Hierarchy) (hName : Text.startsWith '[' name = true) :
    h.view name = none := by
  rw [view, if_pos hName]

theorem view_of_node (hName : Text.startsWith '[' name = false) {node : Option ClassModel}
    (hNode : h.nodes[name]? = some node) : h.view name = node := by
  rw [view, hName, if_neg Bool.false_ne_true, hNode]

theorem view_of_load (hName : Text.startsWith '[' name = false) (hNode : h.nodes[name]? = none) :
    h.view name = (h.load name).toOption := by
  rw [view, hName, if_neg Bool.false_ne_true, hNode]

theorem known_of_asked (ha : h.Asked name) : h.known? name = h.view name := by
  cases hName : Text.startsWith '[' name with
  | true => rw [known?, if_pos hName, view_of_array h hName]
  | false =>
    rcases ha with ha | ha
    · rw [hName] at ha
      cases ha
    · obtain ⟨node, hNode⟩ := Option.isSome_iff_exists.mp ha
      rw [known?, hName, if_neg Bool.false_ne_true, view_of_node hName hNode, hNode]
      rfl

theorem parents_of_asked (ha : h.Asked name) : h.parents name = h.view.parents name := by
  rw [parents, known_of_asked ha, View.parents]

theorem load_congr (hFetch : h'.fetch = h.fetch) : h'.load = h.load := by
  funext name
  rw [load, load, hFetch]

theorem name_of_load {c : ClassModel} (hLoad : h.load name = .ok c) : c.name = name := by
  unfold load at hLoad
  split at hLoad
  · cases hLoad
  · cases hLoad
  · split at hLoad
    · cases hLoad
    · split at hLoad
      · rename_i hName
        cases hLoad
        exact hName
      · cases hLoad

theorem Coherent.name_of_view (hc : h.Coherent) {c : ClassModel} (hView : h.view name = some c) :
    c.name = name := by
  cases hName : Text.startsWith '[' name with
  | true =>
    rw [view_of_array h hName] at hView
    cases hView
  | false =>
    cases hNode : h.nodes[name]? with
    | some node =>
      rw [view_of_node hName hNode] at hView
      exact hc.named name c (hView ▸ hNode)
    | none =>
      rw [view_of_load hName hNode] at hView
      cases hLoad : h.load name with
      | error e =>
        rw [hLoad] at hView
        cases hView
      | ok c' =>
        rw [hLoad] at hView
        cases hView
        exact name_of_load hLoad

theorem bounded_view (h : Hierarchy) : h.view.Bounded (h.nodes.size + h.classpath.size) := by
  intro path hNodup hExists
  have hSubset : path ⊆ h.nodes.keys ++ h.classpath.layers.flatMap (·.keys) := by
    intro x hx
    obtain ⟨c, hc⟩ := Option.isSome_iff_exists.mp (hExists x hx)
    rw [List.mem_append]
    cases hNode : h.nodes[x]? with
    | some node =>
      exact Or.inl (Std.HashMap.mem_keys.mpr (Std.HashMap.mem_iff_isSome_getElem?.mpr
        (by rw [hNode]; rfl)))
    | none =>
      cases hName : Text.startsWith '[' x with
      | true =>
        rw [view_of_array h hName] at hc
        cases hc
      | false =>
        rw [view_of_load hName hNode] at hc
        cases hFind : h.classpath.find? x with
        | none =>
          rw [load, fetch, hFind] at hc
          cases hc
        | some stored =>
          obtain ⟨layer, hLayer, hStored⟩ := List.exists_of_findSome?_eq_some hFind
          refine Or.inr (List.mem_flatMap.mpr ⟨layer, hLayer, Std.HashMap.mem_keys.mpr ?_⟩)
          exact Std.HashMap.mem_iff_isSome_getElem?.mpr (by rw [hStored]; rfl)
  have hLength := (hNodup.subperm hSubset).length_le
  have hLayers : (h.classpath.layers.flatMap (·.keys)).length = h.classpath.size := by
    rw [List.length_flatMap, ClassPath.size, ← List.foldr_map]
    simp only [Std.HashMap.length_keys]
    rfl
  rw [List.length_append, Std.HashMap.length_keys, hLayers] at hLength
  exact hLength

theorem extends_of_insert (hc : h.Coherent) (hFetch : h'.fetch = h.fetch)
    (hStrict : h'.strict = h.strict)
    (hAncestors : h'.ancestors = h.ancestors) (hNew : h.nodes[name]? = none)
    (hNodes : h'.nodes = h.nodes.insert name (h.load name).toOption) : h.Extends h' := by
  have hNode : ∀ x, h'.nodes[x]? =
      if name = x then some (h.load name).toOption else h.nodes[x]? := by
    intro x
    rw [hNodes, Std.HashMap.getElem?_insert]
    simp only [beq_iff_eq]
  -- What is entered now is what the view had for the name all along.
  have hView : h'.view = h.view := by
    funext x
    cases hArray : Text.startsWith '[' x with
    | true => rw [view_of_array h hArray, view_of_array h' hArray]
    | false =>
      rw [view, view, hArray, hNode, load_congr hFetch]
      by_cases hEq : name = x
      · subst hEq
        rw [if_pos rfl, hNew]
      · rw [if_neg hEq]
  have hAsked : ∀ x, h.Asked x → h'.Asked x := by
    intro x hx
    refine hx.imp_right fun hx => ?_
    rw [hNode]
    split
    · rfl
    · exact hx
  refine ⟨hView, hStrict, hFetch, hAsked, ?named, ?grounded, ?listed, ?asked⟩
  case named =>
    intro x c hx
    rw [hNode] at hx
    split at hx
    · rename_i hEq
      subst hEq
      cases hLoad : h.load name with
      | error e =>
        rw [hLoad] at hx
        cases hx
      | ok c' =>
        rw [hLoad] at hx
        cases hx
        exact name_of_load hLoad
    · exact hc.named x c hx
  case grounded =>
    intro x as hx
    rw [hView]
    exact hc.grounded x as (hAncestors ▸ hx)
  case listed =>
    intro x as hx
    rw [hView]
    exact hc.listed x as (hAncestors ▸ hx)
  case asked =>
    intro x as hx
    obtain ⟨hSelf, hAll⟩ := hc.asked x as (hAncestors ▸ hx)
    exact ⟨hAsked x hSelf, fun y hy => hAsked y (hAll y hy)⟩

/-- Looking a class up answers with the view, and fails only in a strict hierarchy. -/
theorem lookup_spec (hc : h.Coherent) (name : String) :
    ∃ r h', (lookup name).run h = (r, h') ∧ h.Extends h' ∧
      ((r = .ok (h.view name) ∧ h'.Asked name) ∨ (h.strict = true ∧ ∃ e, r = .error e)) := by
  cases hName : Text.startsWith '[' name with
  | true =>
    refine ⟨.ok none, h, ?_, .refl hc, Or.inl ⟨?_, Or.inl hName⟩⟩
    · rw [lookup, if_pos hName]
      rfl
    · rw [view_of_array h hName]
  | false =>
    rw [lookup, hName, if_neg Bool.false_ne_true, get_bind_run]
    cases hNode : h.nodes[name]? with
    | some node =>
      refine ⟨.ok node, h, rfl, .refl hc, Or.inl ⟨?_, Or.inr (by rw [hNode]; rfl)⟩⟩
      rw [view_of_node hName hNode]
    | none =>
      cases hLoad : h.load name with
      | ok c =>
        have hNodes : h.nodes.insert name (some c) =
            h.nodes.insert name (h.load name).toOption := by rw [hLoad]; rfl
        refine ⟨.ok (some c), _, rfl, extends_of_insert hc rfl rfl rfl hNode hNodes,
          Or.inl ⟨?_, Or.inr ?_⟩⟩
        · rw [view_of_load hName hNode, hLoad]
          rfl
        · simp
      | error cause =>
        cases hStrict : h.strict with
        | true => exact ⟨.error (.unresolved name cause), h, rfl, .refl hc, Or.inr ⟨rfl, _, rfl⟩⟩
        | false =>
          have hNodes : h.nodes.insert name none =
              h.nodes.insert name (h.load name).toOption := by rw [hLoad]; rfl
          refine ⟨.ok none, _, rfl, extends_of_insert hc rfl hStrict.symm rfl hNode hNodes,
            Or.inl ⟨?_, Or.inr ?_⟩⟩
          · rw [view_of_load hName hNode, hLoad]
            rfl
          · simp

section Keeps

variable {x : Exploring α} {f : α → Exploring β}

theorem keeps_pure (a : α) : Keeps (pure a : Exploring α) := fun _ hc => .refl hc

theorem keeps_throw (e : Failure) : Keeps (throw e : Exploring α) := fun _ hc => .refl hc

theorem keeps_bind (hx : Keeps x) (hf : ∀ a, Keeps (f a)) : Keeps (x >>= f) := by
  intro h hc
  rcases hRun : (x >>= f).run h with ⟨r, h'⟩
  rcases bind_run.mp hRun with ⟨a, h₁, hFirst, hSecond⟩ | ⟨e, hFirst, -⟩
  · have hExtends := hx h hc
    rw [hFirst] at hExtends
    have hExtends' := hf a h₁ hExtends.coherent
    rw [hSecond] at hExtends'
    exact hExtends.trans hExtends'
  · have hExtends := hx h hc
    rw [hFirst] at hExtends
    exact hExtends

theorem keeps_unless {p : Prop} [Decidable p] {e : Failure} (hx : Keeps x) :
    Keeps (do
      if p then throw e
      x) := by
  split
  · exact keeps_bind (keeps_throw e) fun _ => hx
  · exact hx

theorem keeps_get_bind {f : Hierarchy → Exploring α} (hf : ∀ h, Keeps (f h)) :
    Keeps (get >>= f) := fun h hc => hf h h hc

theorem keeps_lookup (name : String) : Keeps (lookup name) := by
  intro h hc
  obtain ⟨r, h', hRun, hExtends, -⟩ := lookup_spec hc name
  rw [hRun]
  exact hExtends

theorem keeps_foldlM {f : β → α → Exploring β} (hf : ∀ b a, Keeps (f b a)) (as : List α) (b : β) :
    Keeps (as.foldlM f b) := by
  induction as generalizing b with
  | nil => exact keeps_pure b
  | cons a as ih =>
    rw [List.foldlM_cons]
    exact keeps_bind (hf b a) fun b' => ih b'

theorem keeps_findSomeM? {f : α → Exploring (Option β)} (hf : ∀ a, Keeps (f a)) (as : List α) :
    Keeps (as.findSomeM? f) := by
  induction as with
  | nil => exact keeps_pure none
  | cons a as ih =>
    rw [List.findSomeM?]
    refine keeps_bind (hf a) fun b => ?_
    split
    · exact keeps_pure _
    · exact ih

theorem keeps_filterM {f : α → Exploring Bool} (hf : ∀ a, Keeps (f a)) (as : List α) :
    Keeps (as.filterM f) := by
  have hAux : ∀ kept, Keeps (as.filterAuxM f kept) := by
    induction as with
    | nil => exact fun kept => keeps_pure kept
    | cons a as ih =>
      intro kept
      rw [List.filterAuxM]
      exact keeps_bind (hf a) fun b => ih _
  rw [List.filterM]
  exact keeps_bind (hAux []) fun kept => keeps_pure _

theorem keeps_visit (fuel : Nat) (path : List String) (done : Std.HashSet String) (name : String) :
    Keeps (visit fuel path done name) := by
  induction fuel generalizing path done name with
  | zero => exact keeps_throw _
  | succ fuel ih =>
    rw [visit]
    split
    · exact keeps_pure _
    refine keeps_unless (p := path.contains name = true) (keeps_bind (keeps_lookup name) fun node => ?_)
    split
    · exact keeps_pure _
    · exact keeps_bind (keeps_foldlM (fun b a => ih _ b a) _ _) fun _ => keeps_pure _

theorem keeps_reachable (name : String) : Keeps (reachable name) :=
  keeps_get_bind fun _ => keeps_visit _ _ _ _

end Keeps

/-- From a coherent hierarchy with the view `v`, the question yields `answer`. A strict hierarchy may
fail instead, and asks for everything that it puts in. -/
def Follows (v : View) (strict : Bool) (x : Exploring (Std.HashSet String))
    (done : Std.HashSet String) (answer : Except Failure (Std.HashSet String)) : Prop :=
  ∀ h : Hierarchy, h.Coherent → h.view = v → h.strict = strict → ∀ r h', x.run h = (r, h') →
    (strict = false ∨ ∃ d, r = .ok d) →
      r = answer ∧ ∀ d, r = .ok d → ∀ y ∈ d, y ∈ done ∨ h'.Asked y

theorem follows_pure (v : View) (strict : Bool) (done : Std.HashSet String) :
    Follows v strict (pure done) done (.ok done) := by
  intro h _ _ _ r h' hRun _
  cases hRun
  refine ⟨rfl, fun d hd y hy => Or.inl ?_⟩
  cases hd
  exact hy

theorem follows_foldlM {v : View} {strict : Bool}
    {f : Std.HashSet String → String → Exploring (Std.HashSet String)}
    {g : Std.HashSet String → String → Except Failure (Std.HashSet String)}
    (hKeeps : ∀ done name, Keeps (f done name))
    (hf : ∀ done name, Follows v strict (f done name) done (g done name)) (names : List String)
    (done : Std.HashSet String) :
    Follows v strict (names.foldlM f done) done (names.foldlM g done) := by
  induction names generalizing done with
  | nil => exact follows_pure v strict done
  | cons name names ih =>
    intro h hc hView hStrict r h' hRun hAnswered
    rw [List.foldlM_cons] at hRun ⊢
    rcases bind_run.mp hRun with ⟨d, h₁, hFirst, hSecond⟩ | ⟨e, hFirst, rfl⟩
    · have hExtends := hKeeps done name h hc
      rw [hFirst] at hExtends
      obtain ⟨hHead, hHeadAsked⟩ := hf done name h hc hView hStrict _ _ hFirst (Or.inr ⟨d, rfl⟩)
      obtain ⟨hTail, hTailAsked⟩ := ih d h₁ hExtends.coherent (hExtends.view_eq.trans hView)
        (hExtends.strict_eq.trans hStrict) r h' hSecond hAnswered
      rw [← hHead]
      refine ⟨hTail, fun d' hd' y hy => ?_⟩
      rcases hTailAsked d' hd' y hy with hOld | hNew
      · refine (hHeadAsked d rfl y hOld).imp_right fun hAsked => ?_
        have hExtends' := keeps_foldlM hKeeps names d h₁ hExtends.coherent
        rw [hSecond] at hExtends'
        exact hExtends'.asked y hAsked
      · exact Or.inr hNew
    · obtain ⟨hHead, -⟩ := hf done name h hc hView hStrict _ _ hFirst hAnswered
      rw [← hHead]
      exact ⟨rfl, fun d hd => by cases hd⟩

theorem run_of_lookup_bind {h h' : Hierarchy} {f : Option ClassModel → Exploring α}
    {r : Except Failure α} (hc : h.Coherent) (hRun : (lookup name >>= f).run h = (r, h'))
    (hAnswered : h.strict = false ∨ ∃ a, r = .ok a) :
    ∃ h₁, h.Extends h₁ ∧ h₁.Asked name ∧ (f (h.view name)).run h₁ = (r, h') := by
  obtain ⟨r₁, h₁, hLookup, hExtends, hAnswer⟩ := lookup_spec hc name
  rcases hAnswer with ⟨rfl, hAsked⟩ | ⟨hStrict, e, rfl⟩
  · rw [bind_run_of_ok hLookup] at hRun
    exact ⟨h₁, hExtends, hAsked, hRun⟩
  · rcases bind_run.mp hRun with ⟨node, h₂, hFirst, -⟩ | ⟨e', hFirst, rfl⟩
    · rw [hLookup] at hFirst
      cases hFirst
    · rcases hAnswered with hFalse | ⟨a, ha⟩
      · rw [hStrict] at hFalse
        cases hFalse
      · cases ha

theorem follows_insert {v : View} {strict : Bool} {x : Exploring (Std.HashSet String)}
    {done : Std.HashSet String} {answer : Except Failure (Std.HashSet String)} (hKeeps : Keeps x)
    (hx : Follows v strict x done answer) {h h' : Hierarchy} (hc : h.Coherent) (hView : h.view = v)
    (hStrict : h.strict = strict) (hAsked : h.Asked name) {r : Except Failure (Std.HashSet String)}
    (hRun : (x >>= fun d => pure (d.insert name)).run h = (r, h'))
    (hAnswered : strict = false ∨ ∃ d, r = .ok d) :
    r = (answer >>= fun d => pure (d.insert name)) ∧
      ∀ d, r = .ok d → ∀ y ∈ d, y ∈ done ∨ h'.Asked y := by
  rcases bind_run.mp hRun with ⟨d, h₁, hFirst, hLast⟩ | ⟨e, hFirst, rfl⟩
  · obtain ⟨rfl, hAbove⟩ := hx h hc hView hStrict _ _ hFirst (Or.inr ⟨d, rfl⟩)
    have hExtends := hKeeps h hc
    rw [hFirst] at hExtends
    cases hLast
    refine ⟨rfl, fun d' hd' y hy => ?_⟩
    cases hd'
    rcases Std.HashSet.mem_insert.mp hy with hEq | hOld
    · cases eq_of_beq hEq
      exact Or.inr (hExtends.asked name hAsked)
    · exact hAbove d rfl y hOld
  · obtain ⟨rfl, -⟩ := hx h hc hView hStrict _ _ hFirst hAnswered
    exact ⟨rfl, fun d hd => by cases hd⟩

theorem follows_visit (v : View) (strict : Bool) (fuel : Nat) (path : List String)
    (done : Std.HashSet String) (name : String) :
    Follows v strict (visit fuel path done name) done (v.visit fuel path done name) := by
  induction fuel generalizing path done name with
  | zero =>
    intro h _ _ _ r h' hRun _
    cases hRun
    exact ⟨rfl, fun d hd => by cases hd⟩
  | succ fuel ih =>
    intro h hc hView hStrict r h' hRun hAnswered
    rw [visit] at hRun
    rw [View.visit]
    split at hRun
    · rename_i hDone
      rw [if_pos hDone]
      exact follows_pure v strict done h hc hView hStrict r h' hRun hAnswered
    rename_i hNew
    rw [if_neg hNew]
    split at hRun
    · rename_i hPath
      rw [if_pos hPath]
      cases hRun
      exact ⟨rfl, fun d hd => by cases hd⟩
    rename_i hPath
    rw [if_neg hPath]
    -- From here on both visits look at the same class.
    obtain ⟨h₁, hExtends, hAsked, hRest⟩ := run_of_lookup_bind hc hRun (hStrict ▸ hAnswered)
    rw [hView] at hRest
    have hView₁ := hExtends.view_eq.trans hView
    have hStrict₁ := hExtends.strict_eq.trans hStrict
    cases hNode : v name with
    | none =>
      rw [hNode] at hRest
      exact follows_insert (keeps_pure done) (follows_pure v strict done) hExtends.coherent hView₁
        hStrict₁ hAsked hRest hAnswered
    | some c =>
      rw [hNode] at hRest
      have hAbove := follows_foldlM (fun d n => keeps_visit fuel (name :: path) d n)
        (fun d n => ih (name :: path) d n) c.supertypes done
      exact follows_insert (keeps_foldlM (fun d n => keeps_visit fuel (name :: path) d n) _ _) hAbove
        hExtends.coherent hView₁ hStrict₁ hAsked hRest hAnswered

/-- A visit from the top succeeds on grounded classes, and a strict hierarchy may fail for another
reason. -/
theorem reachable_spec (hc : h.Coherent) (name : String) :
    ∃ r h', (reachable name).run h = (r, h') ∧ h.Extends h' ∧
      ((∃ all, r = .ok all ∧ h.view.Grounded name ∧ h.view.Closed all ∧ name ∈ all ∧
          ∀ x ∈ all, h'.Asked x) ∨
        (∃ through, r = .error (.hierarchyCycle through) ∧ ¬ h.view.Grounded name) ∨
          h.strict = true ∧ ∃ e, r = .error e) := by
  rcases hRun : (reachable name).run h with ⟨r, h'⟩
  have hExtends := keeps_reachable name h hc
  rw [hRun] at hExtends
  refine ⟨r, h', rfl, hExtends, ?_⟩
  have hFollows := follows_visit h.view h.strict (h.nodes.size + h.classpath.size + 1) [] ∅ name h hc
    rfl rfl r h' hRun
  cases r with
  | ok all =>
    obtain ⟨hVisit, hAsked⟩ := hFollows (Or.inr ⟨all, rfl⟩)
    obtain ⟨hClosed, -, hName⟩ := View.visit_eq_ok (View.closed_empty _) hVisit.symm
    have hMem := hName name (List.mem_singleton.mpr rfl)
    refine Or.inl ⟨all, rfl, hClosed.grounded name hMem, hClosed, hMem, fun x hx => ?_⟩
    rcases hAsked all rfl x hx with hNone | hAsked
    · exact absurd hNone Std.HashSet.not_mem_empty
    · exact hAsked
  | error e =>
    cases hStrict : h.strict with
    | true => exact Or.inr (Or.inr ⟨rfl, e, rfl⟩)
    | false =>
      obtain ⟨hVisit, -⟩ := hFollows (Or.inl hStrict)
      obtain ⟨through, rfl⟩ := View.visit_error hVisit.symm
      refine Or.inr (Or.inl ⟨through, rfl, fun hGrounded => ?_⟩)
      have hNone : ∀ {p : String → Prop}, ∀ x ∈ ([] : List String), p x := by simp
      obtain ⟨done, hDone⟩ : ∃ done, h.view.visit (h.nodes.size + h.classpath.size + 1) [] ∅ name =
          .ok done := View.visit_of_grounded h.bounded_view List.nodup_nil hNone hNone hGrounded
        (Nat.lt_succ_self _)
      rw [hDone] at hVisit
      cases hVisit

theorem ancestors_of_sweep {all : Std.HashSet String} (hClosed : h.view.Closed all)
    (hName : name ∈ all) (hAsked : ∀ x ∈ all, h.Asked x) :
    h.view.Ancestors name (sweep h.parents (all.size + 1) [name] ∅) ∧
      ∀ x ∈ sweep h.parents (all.size + 1) [name] ∅, x ∈ all := by
  have hParents : ∀ x ∈ all, h.view.parents x = h.parents x := fun x hx =>
    (parents_of_asked (hAsked x hx)).symm
  have hList : ∀ x, x ∈ all.toList ↔ x ∈ all := fun x => Std.HashSet.mem_toList
  have hNext : ∀ x ∈ all.toList, ∀ y ∈ h.parents x, y ∈ all.toList := by
    intro x hx y hy
    rw [hList] at hx ⊢
    rw [← hParents x hx] at hy
    exact hClosed.parents x hx y hy
  have hStart : ∀ x ∈ [name], x ∈ all.toList := by
    intro x hx
    rw [List.mem_singleton.mp hx]
    exact (hList name).mpr hName
  have hNone : ∀ x ∈ ([] : List String), x ∈ all.toList := fun _ hx => absurd hx List.not_mem_nil
  have hSweep : View.Sweeps h.parents [name] []
      ([] ++ sweep h.parents (all.size + 1) [name] ∅) :=
    View.sweeps_sweep hNext (fun x hx => hNext x (hStart x hx)) hNone List.nodup_nil
      (fun x => by simp) (by simp [Std.HashSet.length_toList, Nat.add_comm])
  rw [List.nil_append] at hSweep
  have hSubset := hSweep.forall_mem hNext hStart hNone
  refine ⟨hSweep.congr fun x hx => hParents x ?_, fun x hx => (hList x).mp (hSubset x hx)⟩
  rw [← hList]
  exact hx.elim (hStart x) (hSubset x)

theorem extends_of_ancestors (hc : h.Coherent) {as : List String} (hGrounded : h.view.Grounded name)
    (hListed : h.view.Ancestors name as) (hName : h.Asked name) (hAsked : ∀ x ∈ as, h.Asked x) :
    h.Extends { h with ancestors := h.ancestors.insert name as } := by
  have hCases : ∀ {x : String} {bs : List String}, (h.ancestors.insert name as)[x]? = some bs →
      (name = x ∧ as = bs) ∨ h.ancestors[x]? = some bs := by
    intro x bs hx
    rw [Std.HashMap.getElem?_insert] at hx
    split at hx
    · rename_i hEq
      exact Or.inl ⟨eq_of_beq hEq, Option.some.inj hx⟩
    · exact Or.inr hx
  refine ⟨rfl, rfl, rfl, fun _ ha => ha, hc.named, ?_, ?_, ?_⟩
  · intro x bs hx
    rcases hCases hx with ⟨rfl, rfl⟩ | hx
    · exact hGrounded
    · exact hc.grounded x bs hx
  · intro x bs hx
    rcases hCases hx with ⟨rfl, rfl⟩ | hx
    · exact hListed
    · exact hc.listed x bs hx
  · intro x bs hx
    rcases hCases hx with ⟨rfl, rfl⟩ | hx
    · exact ⟨hName, hAsked⟩
    · exact hc.asked x bs hx

theorem ancestorsOf_of_known {as : List String} (hKnown : h.ancestors[name]? = some as) :
    (ancestorsOf name).run h = (.ok as, h) := by
  rw [ancestorsOf, get_bind_run, hKnown]
  rfl

theorem ancestorsOf_of_reachable (hNew : h.ancestors[name]? = none) {all : Std.HashSet String}
    (hRun : (reachable name).run h = (.ok all, h')) : (ancestorsOf name).run h =
      (.ok (sweep h'.parents (all.size + 1) [name] ∅), { h' with
        ancestors := h'.ancestors.insert name (sweep h'.parents (all.size + 1) [name] ∅) }) := by
  rw [ancestorsOf, get_bind_run, hNew]
  dsimp only
  rw [bind_run_of_ok hRun]
  rfl

theorem ancestorsOf_of_unreachable (hNew : h.ancestors[name]? = none) {e : Failure}
    (hRun : (reachable name).run h = (.error e, h')) : (ancestorsOf name).run h = (.error e, h') := by
  rw [ancestorsOf, get_bind_run, hNew]
  exact bind_run_of_error hRun

theorem ancestorsOf_spec (hc : h.Coherent) (name : String) :
    ∃ r h', (ancestorsOf name).run h = (r, h') ∧ h.Extends h' ∧
      ((∃ as, r = .ok as ∧ h.view.Grounded name ∧ h.view.Ancestors name as ∧
          h'.Asked name ∧ ∀ x ∈ as, h'.Asked x) ∨
        (∃ through, r = .error (.hierarchyCycle through) ∧ ¬ h.view.Grounded name) ∨
          h.strict = true ∧ ∃ e, r = .error e) := by
  cases hKnown : h.ancestors[name]? with
  | some as =>
    exact ⟨.ok as, h, ancestorsOf_of_known hKnown, .refl hc, Or.inl ⟨as, rfl,
      hc.grounded name as hKnown, hc.listed name as hKnown, hc.asked name as hKnown⟩⟩
  | none =>
    obtain ⟨r, h', hRun, hExtends, hAnswer⟩ := reachable_spec hc name
    rcases hAnswer with ⟨all, rfl, hGrounded, hClosed, hName, hAsked⟩ | hCycle | hStrict
    · rw [← hExtends.view_eq] at hGrounded hClosed
      obtain ⟨hListed, hSubset⟩ := ancestors_of_sweep hClosed hName hAsked
      have hExtends' := extends_of_ancestors hExtends.coherent hGrounded hListed
        (hAsked name hName) fun x hx => hAsked x (hSubset x hx)
      refine ⟨_, _, ancestorsOf_of_reachable hKnown hRun, hExtends.trans hExtends',
        Or.inl ⟨_, rfl, ?_⟩⟩
      rw [← hExtends.view_eq]
      exact ⟨hGrounded, hListed, hAsked name hName, fun x hx => hAsked x (hSubset x hx)⟩
    · obtain ⟨through, rfl, hNot⟩ := hCycle
      exact ⟨_, h', ancestorsOf_of_unreachable hKnown hRun, hExtends,
        Or.inr (Or.inl ⟨through, rfl, hNot⟩)⟩
    · obtain ⟨hTrue, e, rfl⟩ := hStrict
      exact ⟨_, h', ancestorsOf_of_unreachable hKnown hRun, hExtends,
        Or.inr (Or.inr ⟨hTrue, e, rfl⟩)⟩

end Hierarchy

end Renaming
