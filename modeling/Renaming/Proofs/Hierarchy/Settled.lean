import Renaming.Proofs.Hierarchy.Lookup
import Renaming.Proofs.Hierarchy.Steps

/-!
# Questions that do not depend on the past

What a lenient hierarchy answers, and which classes it asks for in order to answer, depends on its view
alone. What was asked before, and in which order, makes no difference: a class that is known need not be
loaded again, ancestors that were listed before are the ones that would be listed now, and the number
of steps that a visit may take, which grows with what is known, always suffices.
-/

namespace Renaming

open Effectful

namespace Hierarchy

variable {v : View} {h h₀ : Hierarchy} {name : String} {α β : Type}

/-- In every lenient hierarchy with the view `v` the question ends in `r` and asks for the classes of
`T`, as far as they were not asked for before. -/
def Settles (v : View) (x : Exploring α) (r : Except Failure α) (T : String → Prop) : Prop :=
  ∀ h : Hierarchy, h.Fits v → ∃ h', x.run h = (r, h') ∧ h.Extends h' ∧
    ∀ name, h'.Asked name ↔ h.Asked name ∨ T name

def Settled (v : View) (x : Exploring α) : Prop := ∃ r T, Settles v x r T

section Settles

variable {x y : Exploring α} {f : α → Exploring β} {T T' : String → Prop}

theorem Settles.congr {r : Except Failure α} (hx : Settles v x r T)
    (hSame : ∀ h : Hierarchy, h.Fits v → y.run h = x.run h) : Settles v y r T := by
  intro h hh
  rw [hSame h hh]
  exact hx h hh

theorem settles_const (r : Except Failure α) : Settles v (fun h => (r, h)) r fun _ => False :=
  fun h hh => ⟨h, rfl, .refl hh.coherent, fun _ => (or_iff_left not_false).symm⟩

theorem settled_pure (a : α) : Settled v (pure a : Exploring α) := ⟨.ok a, _, settles_const _⟩

theorem settled_error (e : Failure) : Settled v (throw e : Exploring α) :=
  ⟨.error e, _, settles_const _⟩

theorem settles_lift (e : Except Failure α) :
    Settles v (liftM e : Exploring α) e fun _ => False :=
  (settles_const e).congr fun _ _ => lift_run

theorem Settles.bind {a : α} {r : Except Failure β} (hx : Settles v x (.ok a) T)
    (hf : Settles v (f a) r T') : Settles v (x >>= f) r fun name => T name ∨ T' name := by
  intro h hh
  obtain ⟨h₁, hFirst, hExtends, hAsked⟩ := hx h hh
  obtain ⟨h₂, hSecond, hExtends', hAsked'⟩ := hf h₁ (hh.extends hExtends)
  refine ⟨h₂, (bind_run_of_ok hFirst).trans hSecond, hExtends.trans hExtends', fun name => ?_⟩
  rw [hAsked', hAsked, or_assoc]

theorem Settles.bind_error {e : Failure} (hx : Settles v x (.error e) T) :
    Settles v (x >>= f) (.error e) T := by
  intro h hh
  obtain ⟨h₁, hFirst, hRest⟩ := hx h hh
  exact ⟨h₁, bind_run_of_error hFirst, hRest⟩

theorem settled_bind (hx : Settled v x) (hf : ∀ a, Settled v (f a)) : Settled v (x >>= f) := by
  obtain ⟨r, T, hx⟩ := hx
  cases r with
  | error e => exact ⟨.error e, T, hx.bind_error⟩
  | ok a =>
    obtain ⟨r, T', hf⟩ := hf a
    exact ⟨r, _, hx.bind hf⟩

theorem Settles.answered {r : Except Failure α} (g : Except Failure α → Except Failure β)
    (hx : Settles v x r T) : Settles v (Exploring.answered g x) (g r) T := by
  intro h hh
  obtain ⟨h', hRun, hRest⟩ := hx h hh
  exact ⟨h', by rw [Exploring.answered_run, hRun], hRest⟩

theorem settled_guarded {p : Prop} [Decidable p] {e : Failure} (hx : Settled v x) :
    Settled v (do
      if p then throw e
      x) := by
  split
  · exact settled_bind (settled_error e) fun _ => hx
  · exact hx

theorem settled_foldlM {f : β → α → Exploring β} (hf : ∀ b a, Settled v (f b a)) (as : List α)
    (b : β) : Settled v (as.foldlM f b) := by
  induction as generalizing b with
  | nil => exact settled_pure b
  | cons a as ih =>
    rw [List.foldlM_cons]
    exact settled_bind (hf b a) ih

theorem settled_findSomeM? {f : α → Exploring (Option β)} (hf : ∀ a, Settled v (f a))
    (as : List α) : Settled v (as.findSomeM? f) := by
  induction as with
  | nil => exact settled_pure none
  | cons a as ih =>
    rw [List.findSomeM?]
    apply settled_bind (hf a)
    intro b
    split
    · exact settled_pure _
    · exact ih

theorem settles_mapM {f : α → Exploring β} {g : α → β} {T : α → String → Prop} {as : List α}
    (hf : ∀ a ∈ as, Settles v (f a) (.ok (g a)) (T a)) :
    Settles v (as.mapM f) (.ok (as.map g)) fun name => ∃ a ∈ as, T a name := by
  induction as with
  | nil =>
    intro h hh
    exact ⟨h, rfl, .refl hh.coherent, fun name => by simp⟩
  | cons a as ih =>
    obtain ⟨hHead, hTail⟩ := List.forall_mem_cons.mp hf
    intro h hh
    obtain ⟨h₁, hFirst, hExtends, hAsked⟩ := hHead h hh
    obtain ⟨h₂, hRest, hExtends', hAsked'⟩ := ih hTail h₁ (hh.extends hExtends)
    refine ⟨h₂, mapM_cons_run.mpr ⟨g a, h₁, as.map g, hFirst, hRest, rfl⟩,
      hExtends.trans hExtends', fun name => ?_⟩
    rw [hAsked', hAsked, or_assoc]
    simp only [List.mem_cons, exists_eq_or_imp]

end Settles

/-- Lenient hierarchies that differ at most in the order in which they were asked. -/
structure Twins (v : View) (h h' : Hierarchy) : Prop where
  fits : h.Fits v
  fits' : h'.Fits v
  fetch_eq : h'.fetch = h.fetch
  asked_iff : ∀ name, h'.Asked name ↔ h.Asked name

theorem Settles.twins {x x' : Exploring α} {r r' : Except Failure α} {T : String → Prop}
    {h' : Hierarchy} (hx : Settles v x r T) (hx' : Settles v x' r' T) (ht : Twins v h h') :
    ∃ h₁ h₁', x.run h = (r, h₁) ∧ x'.run h' = (r', h₁') ∧ Twins v h₁ h₁' := by
  obtain ⟨h₁, hRun, hExtends, hAsked⟩ := hx h ht.fits
  obtain ⟨h₁', hRun', hExtends', hAsked'⟩ := hx' h' ht.fits'
  refine ⟨h₁, h₁', hRun, hRun', ht.fits.extends hExtends, ht.fits'.extends hExtends', ?_, ?_⟩
  · rw [hExtends'.fetch_eq, hExtends.fetch_eq, ht.fetch_eq]
  · intro name
    rw [hAsked', hAsked, ht.asked_iff]

theorem lookup_of_asked (ha : h.Asked name) : (lookup name).run h = (.ok (h.view name), h) := by
  cases hName : Text.startsWith '[' name with
  | true =>
    rw [lookup, if_pos hName, view_of_array h hName]
    rfl
  | false =>
    rcases ha with ha | ha
    · rw [hName] at ha
      cases ha
    · obtain ⟨node, hNode⟩ := Option.isSome_iff_exists.mp ha
      rw [lookup, hName, if_neg Bool.false_ne_true, get_bind_run, hNode, view_of_node hName hNode]
      rfl

theorem asked_of_lookup {x : String} (hx : ((lookup name).run h).2.Asked x) :
    h.Asked x ∨ x = name := by
  have hInsert : ∀ {node : Option ClassModel},
      (Text.startsWith '[' x = true ∨ ((h.nodes.insert name node)[x]?).isSome) →
        h.Asked x ∨ x = name := by
    rintro node (hArray | hNode)
    · exact Or.inl (Or.inl hArray)
    · rw [Std.HashMap.getElem?_insert] at hNode
      split at hNode
      · rename_i hEq
        exact Or.inr (eq_of_beq hEq).symm
      · exact Or.inl (Or.inr hNode)
  rw [lookup] at hx
  split at hx
  · exact Or.inl hx
  · rw [get_bind_run] at hx
    cases hNode : h.nodes[name]? with
    | some node =>
      rw [hNode] at hx
      exact Or.inl hx
    | none =>
      rw [hNode] at hx
      cases hLoad : h.load name with
      | ok c =>
        rw [hLoad] at hx
        exact hInsert hx
      | error cause =>
        rw [hLoad] at hx
        cases hStrict : h.strict with
        | true =>
          rw [hStrict] at hx
          exact Or.inl hx
        | false =>
          rw [hStrict] at hx
          exact hInsert hx

theorem settles_lookup (name : String) : Settles v (lookup name) (.ok (v name)) (· = name) := by
  intro h hh
  obtain ⟨r, h', hRun, hExtends, hAnswer⟩ := lookup_spec hh.coherent name
  rcases hAnswer with ⟨rfl, hName⟩ | ⟨hStrict, -⟩
  · rw [hh.view_eq] at hRun
    refine ⟨h', hRun, hExtends, fun x => ⟨fun hx => ?_, ?_⟩⟩
    · exact asked_of_lookup (by rwa [hRun])
    · rintro (hx | rfl)
      · exact hExtends.asked x hx
      · exact hName
  · rw [hh.lenient] at hStrict
    cases hStrict

theorem settled_visit (fuel : Nat) (path : List String) (done : Std.HashSet String)
    (name : String) : Settled v (visit fuel path done name) := by
  induction fuel generalizing path done name with
  | zero => exact settled_error _
  | succ fuel ih =>
    rw [visit]
    split
    · exact settled_pure _
    apply settled_guarded (p := path.contains name = true)
    apply settled_bind ⟨_, _, settles_lookup name⟩
    intro node
    split
    · exact settled_pure _
    · exact settled_bind (settled_foldlM (ih _) _ done) fun _ => settled_pure _

theorem foldlM_run_congr {f g : β → α → Exploring β} (hKeeps : ∀ b a, Keeps (g b a))
    (hSame : ∀ b a (h : Hierarchy), h.Fits v → (f b a).run h = (g b a).run h) (as : List α) (b : β)
    (hh : h.Fits v) : (as.foldlM f b).run h = (as.foldlM g b).run h := by
  induction as generalizing b h with
  | nil => rfl
  | cons a as ih =>
    rw [List.foldlM_cons, List.foldlM_cons]
    apply bind_run_congr (hSame b a h hh)
    intro b' h' hRun
    have hExtends := hKeeps b a h hh.coherent
    rw [hRun] at hExtends
    exact ih b' (hh.extends hExtends)

/-- A visit that may go deeper than any path is never stopped for want of fuel, so two of them do the
same. -/
theorem visit_run_congr {n n' fuel fuel' : Nat} {path : List String} {done : Std.HashSet String}
    (hBound : v.Bounded n) (hBound' : v.Bounded n') (hNodup : path.Nodup)
    (hExists : ∀ x ∈ path, (v x).isSome) (hFuel : n < fuel + path.length)
    (hFuel' : n' < fuel' + path.length) (hh : h.Fits v) :
    (visit fuel path done name).run h = (visit fuel' path done name).run h := by
  induction fuel generalizing fuel' path done name h with
  | zero => exact absurd (hBound path hNodup hExists) (by omega)
  | succ fuel ih =>
    cases fuel' with
    | zero => exact absurd (hBound' path hNodup hExists) (by omega)
    | succ fuel' =>
      rw [visit, visit]
      split
      · rfl
      split
      · rfl
      rename_i hNew
      apply bind_run_congr rfl
      intro node h₁ hLookup
      obtain ⟨h₂, hRun, hExtends, -⟩ := settles_lookup name h hh
      rw [hRun] at hLookup
      cases hLookup
      cases hNode : v name with
      | none => rfl
      | some c =>
        -- The path gets longer by a class that exists and is not on it.
        have hPath : (name :: path).Nodup := by
          apply List.nodup_cons.mpr
          exact ⟨by simpa using hNew, hNodup⟩
        have hFound : ∀ x ∈ name :: path, (v x).isSome :=
          List.forall_mem_cons.mpr ⟨by rw [hNode]; rfl, hExists⟩
        apply bind_run_congr
        · apply foldlM_run_congr (fun done x => keeps_visit fuel' _ done x) _ _ _
            (hh.extends hExtends)
          intro done x h hh
          apply ih hPath hFound _ _ hh
          · rw [List.length_cons]
            omega
          · rw [List.length_cons]
            omega
        · exact fun _ _ _ => rfl

theorem settled_reachable (hh₀ : h₀.Fits v) (name : String) : Settled v (reachable name) := by
  obtain ⟨r, T, hVisit⟩ :=
    settled_visit (v := v) (h₀.nodes.size + h₀.classpath.size + 1) [] ∅ name
  refine ⟨r, T, hVisit.congr fun h hh => ?_⟩
  have hBound := hh.view_eq ▸ h.bounded_view
  have hBound₀ := hh₀.view_eq ▸ h₀.bounded_view
  exact get_bind_run.trans (visit_run_congr hBound hBound₀ List.nodup_nil (List.forall_mem_nil _)
    (Nat.lt_succ_self _) (Nat.lt_succ_self _) hh)

/-- A visit among classes that were asked for before, with all their supertypes, changes nothing and
ends as the visit of the view does. -/
theorem visit_of_asked {S : String → Prop} (hAsked : ∀ x, S x → h.Asked x)
    (hClosed : ∀ x, S x → ∀ y ∈ h.view.parents x, S y) {fuel : Nat} {path : List String}
    {done : Std.HashSet String} (hName : S name) :
    (visit fuel path done name).run h = (h.view.visit fuel path done name, h) := by
  induction fuel generalizing path done name with
  | zero => rfl
  | succ fuel ih =>
    have hFold : ∀ (names : List String) (done : Std.HashSet String), (∀ x ∈ names, S x) →
        (names.foldlM (visit fuel (name :: path)) done).run h =
          (names.foldlM (h.view.visit fuel (name :: path)) done, h) := by
      intro names
      induction names with
      | nil => exact fun done _ => rfl
      | cons x names ihNames =>
        intro done hNames
        obtain ⟨hHead, hTail⟩ := List.forall_mem_cons.mp hNames
        have hFirst : (visit fuel (name :: path) done x).run h =
            (h.view.visit fuel (name :: path) done x, h) := ih hHead
        rw [List.foldlM_cons, List.foldlM_cons]
        cases hVisit : h.view.visit fuel (name :: path) done x with
        | ok done' =>
          rw [bind_run_of_ok (hVisit ▸ hFirst)]
          exact ihNames done' hTail
        | error e =>
          rw [bind_run_of_error (hVisit ▸ hFirst)]
          rfl
    rw [visit, View.visit]
    split
    · rfl
    split
    · rfl
    rw [bind_run_of_ok (lookup_of_asked (hAsked name hName))]
    cases hNode : h.view name with
    | none => rfl
    | some c =>
      have hUp := hFold c.supertypes done (View.parents_of_some hNode ▸ hClosed name hName)
      dsimp only
      cases hAbove : c.supertypes.foldlM (h.view.visit fuel (name :: path)) done with
      | ok done' =>
        rw [bind_run_of_ok (hAbove ▸ hUp)]
        rfl
      | error e =>
        rw [bind_run_of_error (hAbove ▸ hUp)]
        rfl

theorem Settles.grounded_iff {r : Except Failure (Std.HashSet String)} {T : String → Prop}
    (hReach : Settles v (reachable name) r T) (hh : h.Fits v) :
    (∃ all, r = .ok all) ↔ v.Grounded name := by
  obtain ⟨h₁, hRun, -⟩ := hReach h hh
  obtain ⟨r', h', hRun', -, hSpec⟩ := reachable_spec hh.coherent name
  rw [hRun] at hRun'
  cases hRun'
  rw [hh.view_eq, hh.lenient] at hSpec
  rcases hSpec with ⟨all, hAll, hName, -⟩ | ⟨through, rfl, hCycle⟩ | ⟨hStrict, -⟩
  · exact ⟨fun _ => hName, fun _ => ⟨all, hAll⟩⟩
  · refine ⟨?_, fun hName => absurd hName hCycle⟩
    rintro ⟨all, hAll⟩
    cases hAll
  · cases hStrict

/-- Ancestors that are remembered are those that a visit would find, and the visit would ask for no
class anew. -/
theorem settled_ancestorsOf (hh₀ : h₀.Fits v) (name : String) : Settled v (ancestorsOf name) := by
  obtain ⟨r, T, hReach⟩ := settled_reachable hh₀ name
  have hGrounded := hReach.grounded_iff hh₀
  cases r with
  | error e =>
    refine ⟨.error e, T, fun h hh => ?_⟩
    obtain ⟨h₁, hRun, hRest⟩ := hReach h hh
    cases hKnown : h.ancestors[name]? with
    | some as =>
      have hName := hh.coherent.grounded name as hKnown
      rw [hh.view_eq] at hName
      obtain ⟨all, hAll⟩ := hGrounded.mpr hName
      cases hAll
    | none => exact ⟨h₁, ancestorsOf_of_unreachable hKnown hRun, hRest⟩
  | ok all =>
    have hName := hGrounded.mp ⟨all, rfl⟩
    obtain ⟨-, as, -, hListed, -⟩ := exists_lookupOrder hh₀.coherent hh₀.lenient
      (hh₀.view_eq ▸ hName)
    rw [hh₀.view_eq] at hListed
    refine ⟨.ok as, T, fun h hh => ?_⟩
    obtain ⟨h₁, hRun, -, hAsked⟩ := hReach h hh
    obtain ⟨h', hRun', hExtends⟩ := answers_ancestorsOf hName hListed h hh.coherent hh.lenient
      hh.view_eq
    refine ⟨h', hRun', hExtends, ?_⟩
    cases hKnown : h.ancestors[name]? with
    | some known =>
      obtain ⟨hSelf, hAbove⟩ := hh.coherent.asked name known hKnown
      have hClosed := (hh.coherent.listed name known hKnown).closed
      have hAll : ∀ x ∈ name :: known, h.Asked x := List.forall_mem_cons.mpr ⟨hSelf, hAbove⟩
      have hStays : ((reachable name).run h).2 = h := by
        rw [reachable, get_bind_run]
        exact congrArg Prod.snd (visit_of_asked hAll hClosed List.mem_cons_self)
      rw [hRun] at hStays
      rw [ancestorsOf_of_known hKnown] at hRun'
      cases hRun'
      cases hStays
      exact hAsked
    | none =>
      rw [ancestorsOf_of_reachable hKnown hRun] at hRun'
      cases hRun'
      exact hAsked

theorem settled_methodOnLine (method descriptor : String) (fuel : Nat) (name : Option String) :
    Settled v (methodOnLine method descriptor fuel name) := by
  induction fuel generalizing name with
  | zero =>
    rw [methodOnLine]
    exact settled_pure none
  | succ fuel ih =>
    cases name with
    | none =>
      rw [methodOnLine]
      · exact settled_pure none
      · exact Nat.noConfusion
    | some name =>
      rw [methodOnLine]
      apply settled_bind ⟨_, _, settles_lookup name⟩
      intro node
      split
      · split
        · exact settled_pure _
        · exact ih _
      · exact settled_pure none

theorem settled_methodOwner (hh₀ : h₀.Fits v) (reference : MemberKey) :
    Settled v (methodOwner reference) := by
  apply settled_bind (settled_ancestorsOf hh₀ reference.owner)
  intro ancestors
  apply settled_bind (settled_methodOnLine _ _ _ _)
  intro onLine
  split
  · exact settled_pure _
  · apply settled_findSomeM?
    intro name
    apply settled_bind ⟨_, _, settles_lookup name⟩
    intro node
    split <;> exact settled_pure _

theorem settled_fieldAbove (field descriptor : String) (fuel : Nat) (name : String) :
    Settled v (fieldAbove field descriptor fuel name) := by
  induction fuel generalizing name with
  | zero =>
    rw [fieldAbove]
    exact settled_pure none
  | succ fuel ih =>
    rw [fieldAbove]
    apply settled_bind ⟨_, _, settles_lookup name⟩
    intro node
    split
    · split
      · exact settled_pure _
      · exact settled_findSomeM? ih _
    · exact settled_pure none

theorem settled_fieldOwner (hh₀ : h₀.Fits v) (reference : MemberKey) :
    Settled v (fieldOwner reference) :=
  settled_bind (settled_reachable hh₀ reference.owner) fun _ => settled_fieldAbove _ _ _ _

end Hierarchy

end Renaming
