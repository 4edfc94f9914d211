import Renaming.Proofs.Hierarchy.Lookup
import Renaming.Proofs.OverrideGroups.Builder

/-!
# Groups of overriding methods are the least ones

The groups that are built for input classes are the classes of the least equivalence that contains
the links on all ways up from them. This holds for any order of the input classes and for any order
in which the groups are named, and a conflict is found exactly if two methods that hang together have
different new names.
-/

namespace Renaming.OverrideGroups

open Relation (EqvGen)
open Effectful Hierarchy

def declarationsAbove (v : View) (c : ClassModel) (ancestors : List String) : List Declaration :=
  (c :: ancestors.filterMap v).flatMap declarations

/-- The declarations on the way up from `c` are `ds`. -/
def Above (v : View) (c : ClassModel) (ds : List Declaration) : Prop :=
  ∃ ancestors, v.Grounded c.name ∧ v.Ancestors c.name ancestors ∧
    ds = declarationsAbove v c ancestors

theorem Above.unique {v : View} {c : ClassModel} {ds ds' : List Declaration} (h : Above v c ds)
    (h' : Above v c ds') : ds = ds' := by
  obtain ⟨as, -, hAncestors, rfl⟩ := h
  obtain ⟨as', -, hAncestors', rfl⟩ := h'
  rw [hAncestors.unique hAncestors']

theorem above_of_top {v : View} {c : ClassModel} (hTop : v.parents c.name = []) :
    Above v c (declarations c) := by
  obtain ⟨hGrounded, hAncestors⟩ := View.ancestors_of_top hTop
  exact ⟨[], hGrounded, hAncestors, (List.flatMap_singleton ..).symm⟩

theorem above_of_parent {v : View} {c : ClassModel} {parent : String}
    (hParents : v.parents c.name = [parent]) (hTop : v.parents parent = []) :
    Above v c (declarations c ++ (v parent).elim [] declarations) := by
  obtain ⟨hGrounded, hAncestors⟩ := View.ancestors_of_parent hParents hTop
  refine ⟨[parent], hGrounded, hAncestors, ?_⟩
  rw [declarationsAbove]
  cases hParent : v parent <;> simp [hParent]

namespace Builder

variable {b : Builder} {K : MemberKey → Prop} {L : MemberKey → MemberKey → Prop} {h : Hierarchy}

theorem addClass_run (hc : h.Coherent) (hLenient : h.strict = false) (b : Builder) {c : ClassModel}
    {as : List String} (hGrounded : h.view.Grounded c.name) (hListed : h.view.Ancestors c.name as) :
    ∃ h', (b.addClass c).run h = (.ok (b.addAll ∅ (declarationsAbove h.view c as)), h') ∧
      h.Extends h' ∧ ∀ x ∈ as, h'.Asked x := by
  obtain ⟨r, h', hRun, hExtends, hAnswer⟩ := ancestorsOf_spec hc c.name
  rcases hAnswer with ⟨as', rfl, -, hListed', -, hAsked⟩ | ⟨through, -, hCycle⟩ | ⟨hStrict, -⟩
  · cases hListed.unique hListed'
    have hKnown : as.filterMap h'.known? = as.filterMap h.view := by
      refine List.filterMap_congr fun x hx => ?_
      rw [known_of_asked (hAsked x hx), hExtends.view_eq]
    refine ⟨h', ?_, hExtends, hAsked⟩
    change b.addClass c h = _
    rw [addClass, hRun]
    dsimp only
    rw [hKnown]
    rfl
  · exact absurd hGrounded hCycle
  · rw [hLenient] at hStrict
    cases hStrict

theorem addClass_spec (hc : h.Coherent) (hLenient : h.strict = false) (hb : b.Sound K L)
    (c : ClassModel) : ∃ b' h', (b.addClass c).run h = (.ok b', h') ∧ h.Extends h' ∧
      b'.Sound (fun k => K k ∨ ∃ ds, Above h.view c ds ∧ KeyOf ds k)
        (fun k k' => L k k' ∨ ∃ ds, Above h.view c ds ∧ LinkOf ds k k') := by
  obtain ⟨r, h', hRun, hExtends, hAnswer⟩ := ancestorsOf_spec hc c.name
  rcases hAnswer with ⟨as, -, hGrounded, hListed, -⟩ | ⟨through, rfl, hCycle⟩ | ⟨hStrict, -⟩
  · obtain ⟨h₁, hAdd, hExtends₁, -⟩ := addClass_run hc hLenient b hGrounded hListed
    refine ⟨b.addAll ∅ (declarationsAbove h.view c as), h₁, hAdd, hExtends₁, ?_⟩
    have hAbove : ∀ ds, Above h.view c ds ↔ ds = declarationsAbove h.view c as := fun ds =>
      ⟨fun hds => hds.unique ⟨as, hGrounded, hListed, rfl⟩, fun hds =>
        ⟨as, hGrounded, hListed, hds⟩⟩
    simp only [hAbove, exists_eq_left]
    exact hb.addAll _
  · refine ⟨{ b with cyclic := b.cyclic.insert c.name through }, h', ?_, hExtends, ?_⟩
    · change b.addClass c h = _
      rw [addClass, hRun]
    · have hNone : ∀ ds, ¬ Above h.view c ds := fun ds ⟨as, hGrounded, _⟩ => hCycle hGrounded
      refine (hb.congr (fun k => or_iff_left ?_) fun k k' => or_iff_left ?_).withCyclic _
      · exact fun ⟨ds, hds, _⟩ => hNone ds hds
      · exact fun ⟨ds, hds, _⟩ => hNone ds hds
  · rw [hLenient] at hStrict
    cases hStrict

theorem foldlM_addClass (hc : h.Coherent) (hLenient : h.strict = false) (hb : b.Sound K L)
    (classes : List ClassModel) :
    ∃ b' h', (classes.foldlM addClass b).run h = (.ok b', h') ∧ h.Extends h' ∧
      b'.Sound (fun k => K k ∨ ∃ c ∈ classes, ∃ ds, Above h.view c ds ∧ KeyOf ds k)
        (fun k k' => L k k' ∨ ∃ c ∈ classes, ∃ ds, Above h.view c ds ∧ LinkOf ds k k') := by
  induction classes generalizing b K L h with
  | nil =>
    refine ⟨b, h, rfl, .refl hc, hb.congr (fun k => or_iff_left ?_) fun k k' => or_iff_left ?_⟩
    · exact fun ⟨c, hMem, _⟩ => List.not_mem_nil hMem
    · exact fun ⟨c, hMem, _⟩ => List.not_mem_nil hMem
  | cons c classes ih =>
    obtain ⟨b₁, h₁, hFirst, hExtends, hb₁⟩ := addClass_spec hc hLenient hb c
    obtain ⟨b₂, h₂, hSecond, hExtends', hb₂⟩ := ih hExtends.coherent
      (hExtends.strict_eq.trans hLenient) hb₁
    refine ⟨b₂, h₂, ?_, hExtends.trans hExtends', ?_⟩
    · rw [List.foldlM_cons]
      exact bind_run.mpr (Or.inl ⟨b₁, h₁, hFirst, hSecond⟩)
    · simp only [hExtends.view_eq] at hb₂
      refine hb₂.congr (fun k => ?_) fun k k' => ?_
      · rw [or_assoc]
        simp only [List.mem_cons, exists_eq_or_imp]
      · rw [or_assoc]
        simp only [List.mem_cons, exists_eq_or_imp]

section Naming

variable {t : RenameTable} {group : Array Nat} {entries done : List (MemberKey × Nat)}
  {names : Std.HashMap Nat (MemberKey × String)}

def Conflict (t : RenameTable) (group : Array Nat) (entries : List (MemberKey × Nat)) : Prop :=
  ∃ e ∈ entries, ∃ e' ∈ entries, group.getD e.2 e.2 = group.getD e'.2 e'.2 ∧
    ∃ new new', t.newMethod? e.1 = some new ∧ t.newMethod? e'.1 = some new' ∧ new ≠ new'

/-- The groups of `entries` have the names that the table gives to their members. -/
structure Named (t : RenameTable) (group : Array Nat) (entries : List (MemberKey × Nat))
    (names : Std.HashMap Nat (MemberKey × String)) : Prop where
  complete : ∀ e ∈ entries, ∀ new, t.newMethod? e.1 = some new →
    ∃ k, names[group.getD e.2 e.2]? = some (k, new)
  sound : ∀ (root : Nat) k new, names[root]? = some (k, new) →
    ∃ i, (k, i) ∈ entries ∧ group.getD i i = root ∧ t.newMethod? k = some new

theorem Named.not_conflict (h : Named t group entries names) : ¬ Conflict t group entries := by
  rintro ⟨e, he, e', he', hGroup, new, new', hNew, hNew', hNe⟩
  obtain ⟨k, hk⟩ := h.complete e he new hNew
  obtain ⟨k', hk'⟩ := h.complete e' he' new' hNew'
  rw [hGroup, hk'] at hk
  cases hk
  exact hNe rfl

theorem Named.known (h : Named t group done names) {e : MemberKey × Nat}
    (he : ∀ new, t.newMethod? e.1 = some new → ∃ k, names[group.getD e.2 e.2]? = some (k, new)) :
    Named t group (done ++ [e]) names where
  complete e' he' new hNew := by
    rcases List.mem_append.mp he' with he' | he'
    · exact h.complete e' he' new hNew
    · cases List.mem_singleton.mp he'
      exact he new hNew
  sound root k new hk := by
    obtain ⟨i, hi, hRoot, hNew⟩ := h.sound root k new hk
    exact ⟨i, List.mem_append_left _ hi, hRoot, hNew⟩

theorem Named.insert (h : Named t group done names) {key : MemberKey} {i : Nat} {new : String}
    (hNew : t.newMethod? key = some new) (hNone : names[group.getD i i]? = none) :
    Named t group (done ++ [(key, i)]) (names.insert (group.getD i i) (key, new)) := by
  have hIndex : ∀ root : Nat, (names.insert (group.getD i i) (key, new))[root]? =
      if group.getD i i = root then some (key, new) else names[root]? := by
    intro root
    rw [Std.HashMap.getElem?_insert]
    simp only [beq_iff_eq]
  refine ⟨fun e he new' hNew' => ?_, fun root k new' hk => ?_⟩
  · rw [hIndex]
    rcases List.mem_append.mp he with he | he
    · obtain ⟨k, hk⟩ := h.complete e he new' hNew'
      split
      · rename_i hRoot
        rw [← hRoot, hNone] at hk
        cases hk
      · exact ⟨k, hk⟩
    · cases List.mem_singleton.mp he
      rw [hNew] at hNew'
      cases hNew'
      exact ⟨key, if_pos rfl⟩
  · rw [hIndex] at hk
    split at hk
    · rename_i hRoot
      cases hk
      exact ⟨i, List.mem_append_right _ (List.mem_singleton.mpr rfl), hRoot, hNew⟩
    · obtain ⟨j, hj, hRoot, hOld⟩ := h.sound root k new' hk
      exact ⟨j, List.mem_append_left _ hj, hRoot, hOld⟩

theorem addName_spec (h : Named t group done names) (e : MemberKey × Nat) :
    (∃ names', addName t group names e = .ok names' ∧ Named t group (done ++ [e]) names') ∨
      ∃ why, addName t group names e = .error (.ambiguousMapping why) ∧
        Conflict t group (done ++ [e]) := by
  obtain ⟨key, i⟩ := e
  rw [addName]
  cases hNew : t.newMethod? key with
  | none =>
    refine Or.inl ⟨names, rfl, h.known fun new hSome => ?_⟩
    rw [hNew] at hSome
    cases hSome
  | some new =>
    dsimp only
    cases hKnown : names[group.getD i i]? with
    | none => exact Or.inl ⟨_, rfl, h.insert hNew hKnown⟩
    | some known =>
      obtain ⟨other, existing⟩ := known
      dsimp only
      split
      · rename_i hSame
        refine Or.inl ⟨names, rfl, h.known fun new' hNew' => ⟨other, ?_⟩⟩
        rw [hNew, Option.some.injEq] at hNew'
        rw [hKnown, hSame, hNew']
      · rename_i hNe
        obtain ⟨j, hj, hRoot, hOld⟩ := h.sound _ other existing hKnown
        exact Or.inr ⟨_, rfl, (other, j), List.mem_append_left _ hj, (key, i),
          List.mem_append_right _ (List.mem_singleton.mpr rfl), hRoot, existing, new, hOld, hNew, hNe⟩

theorem foldlM_addName (h : Named t group done names) (entries : List (MemberKey × Nat)) :
    (∃ names', entries.foldlM (addName t group) names = .ok names' ∧
        Named t group (done ++ entries) names') ∨
      ∃ why, entries.foldlM (addName t group) names = .error (.ambiguousMapping why) ∧
        Conflict t group (done ++ entries) := by
  induction entries generalizing done names with
  | nil =>
    rw [List.append_nil]
    exact Or.inl ⟨names, rfl, h⟩
  | cons e entries ih =>
    rw [List.foldlM_cons, List.append_cons]
    rcases addName_spec h e with ⟨names', hRun, h'⟩ | ⟨why, hRun, hConflict⟩
    · rw [hRun]
      exact ih h'
    · rw [hRun]
      obtain ⟨x, hx, y, hy, hRest⟩ := hConflict
      exact Or.inr ⟨why, rfl, x, List.mem_append_left _ hx, y, List.mem_append_left _ hy, hRest⟩

def finishIn (b : Builder) (t : RenameTable) (entries : List (MemberKey × Nat)) :
    Except Failure OverrideGroups := do
  let names ← entries.foldlM (addName t b.sets.roots) ∅
  return ⟨b.index, b.sets.roots, names.map fun _ named => named.2, b.cyclic⟩

theorem finish_eq_finishIn (b : Builder) (t : RenameTable) :
    b.finish t = b.finishIn t b.keys.toList.zipIdx := rfl

end Naming

end Builder

section Groups

variable {t : RenameTable} {K : MemberKey → Prop} {L : MemberKey → MemberKey → Prop}

/-- Two methods that hang together have different new names. -/
def Differ (t : RenameTable) (L : MemberKey → MemberKey → Prop) : Prop :=
  ∃ a b new new', EqvGen L a b ∧ t.newMethod? a = some new ∧ t.newMethod? b = some new' ∧ new ≠ new'

/-- The groups of the keys `K` are the classes of the least equivalence that contains `L`, and each is
named as the table names its members. -/
structure Describes (t : RenameTable) (K : MemberKey → Prop) (L : MemberKey → MemberKey → Prop)
    (g : OverrideGroups) : Prop where
  indexed_iff : ∀ k, (∃ i, g.index[k]? = some i) ↔ K k
  sameGroup_iff : ∀ a b, g.sameGroup a b = true ↔ K a ∧ K b ∧ EqvGen L a b
  named : ∀ k k' new, K k → EqvGen L k k' → t.newMethod? k' = some new →
    g.newMethod? t k = some new
  unnamed : ∀ k, K k → (∀ k', EqvGen L k k' → t.newMethod? k' = none) → g.newMethod? t k = none
  other : ∀ k, ¬ K k → g.newMethod? t k = t.newMethod? k

/-- The outcome `r` is a description of the groups, or a conflict if there is one. -/
structure Computes (t : RenameTable) (K : MemberKey → Prop) (L : MemberKey → MemberKey → Prop)
    (r : Except Failure OverrideGroups) : Prop where
  fails_iff : (∃ why, r = .error (.ambiguousMapping why)) ↔ Differ t L
  succeeds : ¬ Differ t L → ∃ g, r = .ok g ∧ Describes t K L g

section Finish

variable {b : Builder} {entries : List (MemberKey × Nat)}

theorem group_eq_iff (hb : b.Sound K L) {k k' : MemberKey} {i j : Nat}
    (hi : b.index[k]? = some i) (hj : b.index[k']? = some j) :
    b.sets.roots.getD i i = b.sets.roots.getD j j ↔ EqvGen L k k' := by
  obtain ⟨r, hr, hRoot⟩ := DisjointSet.roots_spec hb.wellFormed (hb.lt_size hi)
  obtain ⟨r', hr', hRoot'⟩ := DisjointSet.roots_spec hb.wellFormed (hb.lt_size hj)
  rw [← hb.joined_iff k k' i j hi hj, Array.getD_eq_getD_getElem?, hRoot,
    Array.getD_eq_getD_getElem?, hRoot']
  constructor
  · rintro (rfl : r = r')
    exact ⟨r, hr, hr'⟩
  · rintro ⟨q, hq, hq'⟩
    exact (hr.unique hq).trans (hq'.unique hr')

theorem conflict_iff_differ (hb : b.Sound K L)
    (hMem : ∀ k i, (k, i) ∈ entries ↔ b.index[k]? = some i) :
    Builder.Conflict t b.sets.roots entries ↔ Differ t L := by
  constructor
  · rintro ⟨⟨a, i⟩, ha, ⟨a', j⟩, ha', hSame, new, new', hNew, hNew', hNe⟩
    exact ⟨a, a', new, new', (group_eq_iff hb ((hMem a i).mp ha) ((hMem a' j).mp ha')).mp hSame,
      hNew, hNew', hNe⟩
  · rintro ⟨a, a', new, new', hRelated, hNew, hNew', hNe⟩
    have hKeys : K a ∧ K a' := by
      refine (eqvGen_eq_or hb.links hRelated).resolve_left ?_
      rintro rfl
      rw [hNew] at hNew'
      exact hNe (Option.some.inj hNew')
    obtain ⟨i, hi⟩ := (hb.key_iff a).mp hKeys.1
    obtain ⟨j, hj⟩ := (hb.key_iff a').mp hKeys.2
    exact ⟨(a, i), (hMem a i).mpr hi, (a', j), (hMem a' j).mpr hj,
      (group_eq_iff hb hi hj).mpr hRelated, new, new', hNew, hNew', hNe⟩

theorem index_eq_none (hb : b.Sound K L) {k : MemberKey} (hk : ¬ K k) : b.index[k]? = none := by
  cases hi : b.index[k]? with
  | none => rfl
  | some i => exact absurd ((hb.key_iff k).mpr ⟨i, hi⟩) hk

theorem describes_of_named {names : Std.HashMap Nat (MemberKey × String)} (hb : b.Sound K L)
    (hMem : ∀ k i, (k, i) ∈ entries ↔ b.index[k]? = some i)
    (hNamed : Builder.Named t b.sets.roots entries names) :
    Describes t K L ⟨b.index, b.sets.roots, names.map fun _ named => named.2, b.cyclic⟩ where
  indexed_iff k := (hb.key_iff k).symm
  sameGroup_iff a a' := by
    simp only [sameGroup, groupOf?]
    by_cases ha : K a
    · by_cases ha' : K a'
      · obtain ⟨i, hi⟩ := (hb.key_iff a).mp ha
        obtain ⟨j, hj⟩ := (hb.key_iff a').mp ha'
        simp only [hi, hj, Option.map_some, decide_eq_true_eq, group_eq_iff hb hi hj]
        exact ⟨fun h => ⟨ha, ha', h⟩, fun h => h.2.2⟩
      · obtain ⟨i, hi⟩ := (hb.key_iff a).mp ha
        simp [hi, index_eq_none hb ha', ha']
    · simp [index_eq_none hb ha, ha]
  named k k' new hk hRelated hNew := by
    obtain ⟨i, hi⟩ := (hb.key_iff k).mp hk
    have hk' : K k' := by
      rcases eqvGen_eq_or hb.links hRelated with rfl | h
      · exact hk
      · exact h.2
    obtain ⟨j, hj⟩ := (hb.key_iff k').mp hk'
    obtain ⟨other, hOther⟩ := hNamed.complete (k', j) ((hMem k' j).mpr hj) new hNew
    rw [← (group_eq_iff hb hi hj).mpr hRelated] at hOther
    simp only [newMethod?, groupOf?, hi, Option.map_some, Std.HashMap.getElem?_map, hOther]
  unnamed k hk hNone := by
    obtain ⟨i, hi⟩ := (hb.key_iff k).mp hk
    simp only [newMethod?, groupOf?, hi, Option.map_some, Std.HashMap.getElem?_map]
    cases hName : names[b.sets.roots.getD i i]? with
    | none => rfl
    | some named =>
      obtain ⟨k', new⟩ := named
      obtain ⟨j, hj, hSame, hNew⟩ := hNamed.sound _ k' new hName
      have hRelated := (group_eq_iff hb hi ((hMem k' j).mp hj)).mp hSame.symm
      rw [hNone k' hRelated] at hNew
      cases hNew
  other k hk := by simp only [newMethod?, groupOf?, index_eq_none hb hk, Option.map_none]

theorem computes_finishIn (hb : b.Sound K L) (hEntries : entries.Perm b.keys.toList.zipIdx) :
    Computes t K L (b.finishIn t entries) := by
  have hMem : ∀ k i, (k, i) ∈ entries ↔ b.index[k]? = some i := by
    intro k i
    rw [hEntries.mem_iff, List.mem_zipIdx_iff_getElem?, Array.getElem?_toList, hb.index_iff]
  have hStart : Builder.Named t b.sets.roots [] ∅ :=
    ⟨fun _ he => absurd he List.not_mem_nil, fun _ _ _ hk => by simp at hk⟩
  rcases Builder.foldlM_addName hStart entries with ⟨names, hRun, hNamed⟩ | ⟨why, hRun, hFound⟩
  · have hFine : ¬ Differ t L := fun h => hNamed.not_conflict ((conflict_iff_differ hb hMem).mpr h)
    have hOk : b.finishIn t entries = .ok ⟨b.index, b.sets.roots,
        names.map fun _ named => named.2, b.cyclic⟩ := by
      rw [Builder.finishIn, hRun]
      rfl
    refine ⟨⟨fun ⟨why, h⟩ => ?_, fun h => absurd h hFine⟩,
      fun _ => ⟨_, hOk, describes_of_named hb hMem hNamed⟩⟩
    rw [hOk] at h
    cases h
  · have hDiffer := (conflict_iff_differ hb hMem).mp hFound
    have hError : b.finishIn t entries = .error (.ambiguousMapping why) := by
      rw [Builder.finishIn, hRun]
      rfl
    exact ⟨⟨fun _ => hDiffer, fun _ => ⟨why, hError⟩⟩, fun h => absurd hDiffer h⟩

end Finish

/-- The declarations on the way up from a class, if the hierarchy knows one that ends. -/
def lineage? (h : Hierarchy) (c : ClassModel) : Option (List Declaration) :=
  match ((ancestorsOf c.name).run h).1 with
  | .ok ancestors => some (declarationsAbove h.view c ancestors)
  | .error _ => none

/-- The key of a declaration that some way up from an input class links to its head. -/
def Indexed (h : Hierarchy) (classes : List ClassModel) (k : MemberKey) : Prop :=
  ∃ c ∈ classes, ∃ ds ∈ lineage? h c, KeyOf ds k

/-- The key `k` is that of a head, and `k'` of a declaration linked to it. -/
def LinkedAbove (h : Hierarchy) (classes : List ClassModel) (k k' : MemberKey) : Prop :=
  ∃ c ∈ classes, ∃ ds ∈ lineage? h c, LinkOf ds k k'

theorem lineage?_eq_some {h : Hierarchy} (hc : h.Coherent) (hLenient : h.strict = false)
    {c : ClassModel} {ds : List Declaration} : ds ∈ lineage? h c ↔ Above h.view c ds := by
  obtain ⟨r, h', hRun, -, hAnswer⟩ := ancestorsOf_spec hc c.name
  rw [Option.mem_def, lineage?, hRun]
  rcases hAnswer with ⟨as, rfl, hGrounded, hListed, -, -⟩ | ⟨through, rfl, hCycle⟩ | ⟨hStrict, -⟩
  · have hAbove : Above h.view c (declarationsAbove h.view c as) := ⟨as, hGrounded, hListed, rfl⟩
    rw [Option.some.injEq]
    refine ⟨?_, fun hds => hAbove.unique hds⟩
    rintro rfl
    exact hAbove
  · refine ⟨fun hNone => ?_, fun ⟨as, hGrounded, _⟩ => absurd hGrounded hCycle⟩
    cases hNone
  · rw [hLenient] at hStrict
    cases hStrict

/-- In any hierarchy that is lenient, the groups of the input classes are the classes of the least
equivalence that contains the links above them. Neither the order of the input classes nor that in
which the groups are named matters. -/
theorem build_computes {classpath : ClassPath} {config : Config} {h : Hierarchy}
    (hReached : Reached classpath config h) (hLenient : config.failOnUnresolved = false)
    (t : RenameTable) {classes order : List ClassModel} (hOrder : order.Perm classes) :
    Computes t (Indexed h classes) (LinkedAbove h classes) ((build t order).run h).1 ∧
      ∃ b, ((order.foldlM Builder.addClass .empty).run h).1 = .ok b ∧
        ((build t order).run h).1 = b.finish t ∧
        ∀ entries, entries.Perm b.keys.toList.zipIdx →
          Computes t (Indexed h classes) (LinkedAbove h classes) (b.finishIn t entries) := by
  obtain ⟨hc, hStrict⟩ := hReached.coherent
  rw [hLenient] at hStrict
  obtain ⟨b, h', hRun, -, hb⟩ := Builder.foldlM_addClass hc hStrict Builder.sound_empty order
  have hSound : b.Sound (Indexed h classes) (LinkedAbove h classes) := by
    refine hb.congr (fun k => ?_) fun k k' => ?_
    · simp only [Indexed, lineage?_eq_some hc hStrict, hOrder.mem_iff, false_or]
    · simp only [LinkedAbove, lineage?_eq_some hc hStrict, hOrder.mem_iff, false_or]
  have hBuild : ((build t order).run h).1 = b.finish t := by
    cases hFinish : b.finish t with
    | ok g =>
      have hWhole : (build t order).run h = (.ok g, h') :=
        bind_run.mpr (Or.inl ⟨b, h', hRun, by rw [hFinish]; rfl⟩)
      rw [hWhole]
    | error e =>
      have hWhole : (build t order).run h = (.error e, h') :=
        bind_run.mpr (Or.inl ⟨b, h', hRun, by rw [hFinish]; rfl⟩)
      rw [hWhole]
  refine ⟨?_, b, by rw [hRun], hBuild, fun entries hEntries => computes_finishIn hSound hEntries⟩
  rw [hBuild, Builder.finish_eq_finishIn]
  exact computes_finishIn hSound (List.Perm.refl _)

theorem describes_of_build {classpath : ClassPath} {config : Config} {h h' : Hierarchy}
    {g : OverrideGroups} {classes : List ClassModel} (hReached : Reached classpath config h)
    (hLenient : config.failOnUnresolved = false) (hRun : (build t classes).run h = (.ok g, h')) :
    Describes t (Indexed h classes) (LinkedAbove h classes) g := by
  obtain ⟨⟨hFails, hSucceeds⟩, -⟩ := build_computes hReached hLenient t (List.Perm.refl classes)
  rw [hRun] at hFails hSucceeds
  obtain ⟨g', hEq, hDescribes⟩ := hSucceeds fun hDiffer => by
    obtain ⟨why, hError⟩ := hFails.mpr hDiffer
    cases hError
  cases hEq
  exact hDescribes

theorem mem_declarations {c : ClassModel} {d : Declaration} (hd : d ∈ declarations c) :
    Text.startsWith '<' d.key.name = false ∧ d.key.owner = c.name ∧
      c.declares d.key.name d.key.descriptor = true := by
  obtain ⟨m, hm, rfl⟩ := List.mem_map.mp hd
  obtain ⟨hMem, hTakesPart⟩ := List.mem_filter.mp hm
  rw [Bool.and_eq_true, Bool.not_eq_true'] at hTakesPart
  refine ⟨hTakesPart.2, rfl, ?_⟩
  rw [ClassModel.declares, ClassModel.findMethod, List.find?_isSome]
  exact ⟨m, hMem, by simp [Member.isNamed]⟩

/-- What takes part in overriding is declared by an input class or by one above it, with no cycle
above either. -/
theorem Indexed.exists_declaring {h : Hierarchy} (hc : h.Coherent) (hLenient : h.strict = false)
    {classes : List ClassModel} {k : MemberKey} (hk : Indexed h classes k) :
    Text.startsWith '<' k.name = false ∧ ∃ c, (c ∈ classes ∨ h.view k.owner = some c) ∧
      k.owner = c.name ∧ h.view.Grounded k.owner ∧ c.declares k.name k.descriptor = true := by
  obtain ⟨c, hMem, ds, hds, d, e, hLinked, rfl⟩ := hk
  obtain ⟨as, hGrounded, hListed, rfl⟩ := (lineage?_eq_some hc hLenient).mp hds
  obtain ⟨x, hx, he⟩ := List.mem_flatMap.mp hLinked.mem
  obtain ⟨hName, hOwner, hDeclares⟩ := mem_declarations he
  refine ⟨hName, x, ?_⟩
  rcases List.mem_cons.mp hx with rfl | hx
  · exact ⟨Or.inl hMem, hOwner, hOwner ▸ hGrounded, hDeclares⟩
  · obtain ⟨name, hName', hView⟩ := List.mem_filterMap.mp hx
    have hSame : e.key.owner = name := hOwner.trans (hc.name_of_view hView)
    rw [hSame]
    exact ⟨Or.inr hView, hSame.symm.trans hOwner, hGrounded.ancestors hListed name hName', hDeclares⟩

end Groups

/-- A class that declares `m`, and one below it that overrides it. -/
def upper : ClassModel := ⟨0, 52, 0x21, "A", none, [], [], [⟨1, "m", "()V", []⟩], []⟩

def lower : ClassModel := ⟨0, 52, 0x21, "B", some "A", [], [], [⟨1, "m", "()V", []⟩], []⟩

def pair : Hierarchy := seeded ⟨[]⟩ Config.standard [upper, lower]

theorem above_lower : Above pair.view lower (declarations lower ++ declarations upper) := by
  have hDistinct : ([upper, lower].map ClassModel.name).Nodup := by decide
  have hUpper : pair.view upper.name = some upper := view_seeded_of_mem hDistinct (by simp) rfl
  have hLower : pair.view lower.name = some lower := view_seeded_of_mem hDistinct (by simp) rfl
  obtain ⟨hGrounded, hAncestors, -⟩ :=
    View.lookupOrder_of_parent hLower hUpper rfl rfl rfl rfl (by decide)
  exact ⟨[upper.name], hGrounded, hAncestors, by simp [declarationsAbove, hUpper]⟩

theorem build_computes_pair :
    ∃ g, ((build .empty [upper, lower]).run pair).1 = .ok g ∧
      g.sameGroup ⟨"B", "m", "()V"⟩ ⟨"A", "m", "()V"⟩ = true := by
  have hReached : Reached ⟨[]⟩ Config.standard pair := ⟨[.seed upper, .seed lower], rfl⟩
  obtain ⟨hComputes, -⟩ := build_computes hReached rfl .empty (List.Perm.refl [upper, lower])
  obtain ⟨hc, hStrict⟩ := hReached.coherent
  have hSame : ¬ Differ .empty (LinkedAbove pair [upper, lower]) := by
    rintro ⟨a, b, new, new', -, hNew, -⟩
    simp [RenameTable.newMethod?, RenameTable.empty, OrderedMap.find?, OrderedMap.empty] at hNew
  obtain ⟨g, hg, hDescribes⟩ := hComputes.succeeds hSame
  have hLine : declarations lower ++ declarations upper ∈ lineage? pair lower :=
    (lineage?_eq_some hc hStrict).mpr above_lower
  have hLinked : ∀ owner, owner = "B" ∨ owner = "A" →
      LinkOf (declarations lower ++ declarations upper) ⟨"B", "m", "()V"⟩ ⟨owner, "m", "()V"⟩ := by
    rintro owner (rfl | rfl)
    · exact ⟨⟨⟨"B", "m", "()V"⟩, false⟩, ⟨⟨"B", "m", "()V"⟩, false⟩, ⟨rfl, by decide, rfl, rfl⟩,
        rfl, rfl⟩
    · exact ⟨⟨⟨"B", "m", "()V"⟩, false⟩, ⟨⟨"A", "m", "()V"⟩, false⟩, ⟨rfl, by decide, rfl, rfl⟩,
        rfl, rfl⟩
  have hIndexed : ∀ owner, owner = "B" ∨ owner = "A" →
      Indexed pair [upper, lower] ⟨owner, "m", "()V"⟩ := by
    intro owner hOwner
    obtain ⟨d, e, hLink, -, hKey⟩ := hLinked owner hOwner
    exact ⟨lower, by simp, _, hLine, d, e, hLink, hKey⟩
  exact ⟨g, hg, (hDescribes.sameGroup_iff _ _).mpr ⟨hIndexed "B" (Or.inl rfl),
    hIndexed "A" (Or.inr rfl), .rel _ _ ⟨lower, by simp, _, hLine, hLinked "A" (Or.inr rfl)⟩⟩⟩

end Renaming.OverrideGroups
