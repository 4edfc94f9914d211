import Renaming.Proofs.Hierarchy.Descendants
import Renaming.Proofs.OverrideGroups.Partition
import Renaming.Proofs.RenameTable

/-!
# Overriding seen from above and from below

The implementors of a method are found by going down from it, and its group by going up from each input
class. The way down asks only whether the method itself is seen in the class below; the way up asks for
both declarations. So the two agree except for an override that only its own package sees, below a
method of another package.
-/

namespace Renaming.OverrideGroups

open Effectful Hierarchy

variable {g : OverrideGroups} {t : RenameTable}

theorem newMethod?_eq_of_sameGroup {a b : MemberKey} (hSame : g.sameGroup a b = true) :
    g.newMethod? t a = g.newMethod? t b := by
  rw [sameGroup] at hSame
  rw [newMethod?, newMethod?]
  cases ha : g.groupOf? a with
  | none =>
    rw [ha] at hSame
    cases hSame
  | some i =>
    cases hb : g.groupOf? b with
    | none =>
      rw [ha, hb] at hSame
      cases hSame
    | some j =>
      rw [ha, hb] at hSame
      rw [of_decide_eq_true hSame]

theorem find?_declarations {c : ClassModel} {name descriptor : String} {m : Member}
    (hMethod : c.findMethod name descriptor = some m)
    (hVirtual : AccessFlags.isVirtual m.access = true) (hName : Text.startsWith '<' name = false) :
    (declarations c).find? (fun e => decide (e.signature = (name, descriptor))) =
      some ⟨⟨c.name, name, descriptor⟩, AccessFlags.isPackagePrivate m.access⟩ := by
  obtain ⟨access, methodName, methodDescriptor, attributes⟩ := m
  rw [ClassModel.findMethod, List.find?_eq_some_iff_append] at hMethod
  obtain ⟨hNamed, before, after, hMethods, hBefore⟩ := hMethod
  obtain ⟨rfl, rfl⟩ : methodName = name ∧ methodDescriptor = descriptor := by
    simpa [Member.isNamed] using hNamed
  have hSplit : declarations c = declarations { c with methods := before } ++
      ⟨⟨c.name, methodName, methodDescriptor⟩, AccessFlags.isPackagePrivate access⟩ ::
        declarations { c with methods := after } := by
    rw [declarations, hMethods, List.filter_append, List.filter_cons_of_pos (by
      simp [hVirtual, hName]), List.map_append, List.map_cons]
    rfl
  rw [List.find?_eq_some_iff_append]
  refine ⟨by simp [Declaration.signature], _, _, hSplit, fun e he => ?_⟩
  obtain ⟨m, hm, rfl⟩ := List.mem_map.mp he
  have hOther := hBefore m (List.mem_of_mem_filter hm)
  simpa [Member.isNamed, Declaration.signature] using hOther

theorem Linked.self {ds : List Declaration} {d e : Declaration} (h : Linked ds d e) :
    Linked ds d d where
  head := h.head
  mem := List.mem_of_find?_eq_some h.head
  signature_eq := rfl
  overrides := overrides_self d

/-- On the way up from `d`, its own declaration comes first, and that of the owner is linked to it if it
is overridden. -/
theorem linked_implementor {v : View} {d owner : ClassModel} {method : MemberKey} {declared m : Member}
    {ds : List Declaration} (hWay : Above v d ds) (hOwner : v method.owner = some owner)
    (hOwnerName : owner.name = method.owner)
    (hDeclared : owner.findMethod method.name method.descriptor = some declared)
    (hVirtual : AccessFlags.isVirtual declared.access = true)
    (hName : Text.startsWith '<' method.name = false) (hAbove : v.Above method.owner d.name)
    (hMethod : d.findMethod method.name method.descriptor = some m)
    (hOverrides : AccessFlags.isVirtual m.access = true)
    (hPackages : overrides
      ⟨⟨d.name, method.name, method.descriptor⟩, AccessFlags.isPackagePrivate m.access⟩
      ⟨method, AccessFlags.isPackagePrivate declared.access⟩ = true) :
    Linked ds ⟨⟨d.name, method.name, method.descriptor⟩, AccessFlags.isPackagePrivate m.access⟩
      ⟨method, AccessFlags.isPackagePrivate declared.access⟩ := by
  obtain ⟨as, -, hListed, rfl⟩ := hWay
  have hFirst := find?_declarations hMethod hOverrides hName
  have hLater := find?_declarations hDeclared hVirtual hName
  rw [hOwnerName] at hLater
  constructor
  · rw [IsHead, declarationsAbove, List.flatMap_cons, List.find?_append]
    exact Option.or_eq_some_iff.mpr (Or.inl hFirst)
  · have hMem : owner ∈ d :: as.filterMap v := by
      apply List.mem_cons_of_mem
      exact List.mem_filterMap.mpr ⟨method.owner, (mem_ancestors hListed _).mpr hAbove, hOwner⟩
    exact List.mem_flatMap.mpr ⟨owner, hMem, List.mem_of_find?_eq_some hLater⟩
  · rfl
  · exact hPackages

/-- A declaration that the owner of the method can see, or that is not for its own package only,
overrides the method if it may. -/
theorem overrides_of_visible {d : ClassModel} {method : MemberKey} {m declared : Member}
    (hPackage : AccessFlags.isPackagePrivate declared.access = true →
      d.package = packageOf method.owner)
    (hVisible : d.package = packageOf method.owner ∨
      AccessFlags.isPackagePrivate m.access = false) :
    overrides ⟨⟨d.name, method.name, method.descriptor⟩, AccessFlags.isPackagePrivate m.access⟩
      ⟨method, AccessFlags.isPackagePrivate declared.access⟩ = true := by
  rw [ClassModel.package] at hPackage hVisible
  rw [overrides]
  cases hPrivate : AccessFlags.isPackagePrivate declared.access with
  | true => simp [hPackage hPrivate]
  | false =>
    rcases hVisible with hSame | hPublic
    · simp [hSame]
    · simp [hPublic]

/-- A method of a class has its implementors in its group, except those that only their own package
sees, in other packages. -/
theorem sameGroup_of_implementorsOf {classpath : ClassPath} {config : Config}
    {classes : List ClassModel} (hLenient : config.failOnUnresolved = false)
    (hDistinct : (classes.map ClassModel.name).Nodup)
    (hArrays : ∀ c ∈ classes, Text.startsWith '[' c.name = false) {h h' h₁ h₁' : Hierarchy}
    (hBefore : Questioned (seeded classpath config classes) h)
    (hBuild : (build t classes).run h = (.ok g, h'))
    (hLater : Questioned (seeded classpath config classes) h₁) {method : MemberKey}
    {names : List String} (hAsk : (implementorsOf method).run h₁ = (.ok names, h₁'))
    {d : ClassModel} (hMem : d ∈ classes) (hImplements : d.name ∈ names)
    (hAcyclic : ∃ as, ((ancestorsOf d.name).run h).1 = .ok as)
    (hVisible : d.package = packageOf method.owner ∨
      (d.findMethod method.name method.descriptor).any
        (AccessFlags.isPackagePrivate ·.access) = false) :
    g.sameGroup method ⟨d.name, method.name, method.descriptor⟩ = true ∧
      g.newMethod? t method = g.newMethod? t ⟨d.name, method.name, method.descriptor⟩ := by
  have hStart := fits_seeded classpath classes hLenient
  have hReached := hBefore.reached (reached_seeded classpath config classes)
  have hh := hStart.extends (hBefore.extends hStart.coherent)
  have hh₁ := hStart.extends (hLater.extends hStart.coherent)
  generalize hView : (seeded classpath config classes).view = v at hStart hh hh₁
  have hFound : v d.name = some d := by
    rw [← hView]
    exact view_seeded_of_mem hDistinct hMem (hArrays d hMem)
  -- What the way down knows about the class `d`.
  obtain ⟨found, h₂, h₃, hRun, hExtends, hSteps, hSpec⟩ := implementorsOf_spec hh₁
    ((reached_seeded classpath config classes).registered.steps hLater.steps) method
  rw [hAsk] at hRun
  cases hRun
  obtain ⟨owner, declared, hOwner, hDeclared, hVirtual, hName, hBelow, hOverridden⟩ :=
    (hSpec d.name).mp hImplements
  obtain ⟨c, m, hc, hPackage, hMethod, hOverrides⟩ := overridden_eq_true.mp hOverridden
  rw [hFound] at hc
  cases hc
  have hAbove : v.Above method.owner d.name := by
    have hFree := hSteps.invariant ArrayFree.step
      (hLater.steps.invariant ArrayFree.step (arrayFree_seeded classpath config hArrays))
    have hUp := above_of_links hFree hBelow
    rwa [hExtends.view_eq, hh₁.view_eq] at hUp
  have hOwnerName : owner.name = method.owner :=
    hh.coherent.name_of_view ((congrFun hh.view_eq method.owner).trans hOwner)
  have hOwnerPackage : owner.package = packageOf method.owner := by
    rw [ClassModel.package, hOwnerName]
  rw [hOwnerPackage] at hPackage
  rw [hMethod, Option.any_some] at hVisible
  have hPackages := overrides_of_visible hPackage hVisible
  obtain ⟨as, hAncestors⟩ := hAcyclic
  have hLineage : declarationsAbove v d as ∈ lineage? h d := by
    rw [lineage?, hAncestors, hh.view_eq]
    rfl
  have hWay := (lineage?_eq_some hh.coherent hh.lenient).mp hLineage
  rw [hh.view_eq] at hWay
  have hLinked := linked_implementor hWay hOwner hOwnerName hDeclared hVirtual hName hAbove hMethod
    hOverrides hPackages
  have hSame : g.sameGroup method ⟨d.name, method.name, method.descriptor⟩ = true := by
    refine ((describes_of_build hReached hLenient hBuild).sameGroup_iff _ _).mpr ⟨?_, ?_, ?_⟩
    · exact ⟨d, hMem, _, hLineage, _, _, hLinked, rfl⟩
    · exact ⟨d, hMem, _, hLineage, _, _, hLinked.self, rfl⟩
    · exact .symm _ _ (.rel _ _ ⟨d, hMem, _, hLineage, _, _, hLinked, rfl, rfl⟩)
  exact ⟨hSame, newMethod?_eq_of_sameGroup hSame⟩

theorem exists_ancestors {h : Hierarchy} {c : ClassModel} {ds : List Declaration}
    (hc : h.Coherent) (hLenient : h.strict = false) (hWay : Above h.view c ds) :
    ∃ as, ((ancestorsOf c.name).run h).1 = .ok as := by
  have hLineage := (lineage?_eq_some hc hLenient).mpr hWay
  rw [lineage?] at hLineage
  split at hLineage
  · rename_i as hRun
    exact ⟨as, hRun⟩
  · cases hLineage

theorem exists_build_empty {h : Hierarchy} (hReached : Reached ⟨[]⟩ Config.standard h)
    (classes : List ClassModel) : ∃ g h', (build .empty classes).run h = (.ok g, h') := by
  obtain ⟨hComputes, -⟩ := build_computes hReached rfl .empty (List.Perm.refl classes)
  have hSame : ¬ Differ .empty (LinkedAbove h classes) := by
    rintro ⟨a, b, new, new', -, hNew, -⟩
    rw [RenameTable.newMethod?_empty] at hNew
    cases hNew
  obtain ⟨g, hg, -⟩ := hComputes.succeeds hSame
  exact ⟨g, _, Prod.ext hg rfl⟩

theorem exists_implementors {classes : List ClassModel}
    (hDistinct : (classes.map ClassModel.name).Nodup) {owner : ClassModel} (hOwner : owner ∈ classes)
    (hNotArray : Text.startsWith '[' owner.name = false) {name descriptor : String}
    {declared : Member} (hDeclared : owner.findMethod name descriptor = some declared)
    (hVirtual : AccessFlags.isVirtual declared.access = true)
    (hName : Text.startsWith '<' name = false) :
    ∃ names h', (implementorsOf ⟨owner.name, name, descriptor⟩).run
        (seeded ⟨[]⟩ Config.standard classes) = (.ok names, h') ∧
      ∀ c ∈ classes, Text.startsWith '[' c.name = false →
        Relation.TransGen (fun parent kid => ∃ c ∈ classes, c.name = kid ∧ parent ∈ c.supertypes)
          owner.name c.name →
        (AccessFlags.isPackagePrivate declared.access = true → c.package = owner.package) →
        (c.findMethod name descriptor).any (AccessFlags.isVirtual ·.access) = true →
        c.name ∈ names := by
  have hFits := fits_seeded ⟨[]⟩ classes (rfl : Config.standard.failOnUnresolved = false)
  obtain ⟨names, h₁, h', hAsk, -, hSteps, hSpec⟩ := implementorsOf_spec hFits
    (reached_seeded ⟨[]⟩ Config.standard classes).registered ⟨owner.name, name, descriptor⟩
  refine ⟨names, h', hAsk, fun c hc hClass hBelow hPackage hMethod => ?_⟩
  obtain ⟨m, hMethod, hOverrides⟩ := (Option.any_eq_true ..).mp hMethod
  refine (hSpec c.name).mpr ⟨owner, declared, view_seeded_of_mem hDistinct hOwner hNotArray, hDeclared,
    hVirtual, hName, ?_, overridden_eq_true.mpr
      ⟨c, m, view_seeded_of_mem hDistinct hc hClass, hPackage, hMethod, hOverrides⟩⟩
  refine Relation.TransGen.mono ?_ _ _ hBelow
  rintro parent kid ⟨c, hc, rfl, hParent⟩
  exact ⟨c, hSteps.node (node_seeded_of_mem hDistinct hc), hParent⟩

theorem sameGroup_of_implementorsOf_lower :
    ∃ g h' names h₁', (build .empty [upper, lower]).run pair = (.ok g, h') ∧
      (implementorsOf ⟨"A", "m", "()V"⟩).run pair = (.ok names, h₁') ∧ "B" ∈ names ∧
      (∃ as, ((ancestorsOf "B").run pair).1 = .ok as) ∧
      g.sameGroup ⟨"A", "m", "()V"⟩ ⟨"B", "m", "()V"⟩ = true ∧
      g.newMethod? .empty ⟨"A", "m", "()V"⟩ = g.newMethod? .empty ⟨"B", "m", "()V"⟩ := by
  have hDistinct : ([upper, lower].map ClassModel.name).Nodup := by decide
  have hArrays : ∀ c ∈ [upper, lower], Text.startsWith '[' c.name = false := by decide
  have hReached := reached_seeded ⟨[]⟩ Config.standard [upper, lower]
  have hFits := fits_seeded ⟨[]⟩ [upper, lower] (rfl : Config.standard.failOnUnresolved = false)
  obtain ⟨g, h', hBuild⟩ := exists_build_empty hReached [upper, lower]
  obtain ⟨names, h₁', hAsk, hMem⟩ := exists_implementors hDistinct
    (List.mem_cons_self : upper ∈ [upper, lower]) rfl (rfl : upper.findMethod "m" "()V" = some _)
    (by decide) (by decide)
  have hLower : lower ∈ [upper, lower] := by simp
  have hImplements := hMem lower hLower rfl (.single ⟨lower, hLower, rfl, by decide⟩) (by decide)
    (by decide)
  have hAncestors := exists_ancestors hFits.coherent hFits.lenient above_lower
  have hStart : Questioned pair pair := ⟨[], List.forall_mem_nil _, rfl⟩
  exact ⟨g, h', names, h₁', hBuild, hAsk, hImplements, hAncestors,
    sameGroup_of_implementorsOf rfl hDistinct hArrays hStart hBuild hStart hAsk hLower hImplements
      hAncestors (Or.inr (by decide))⟩

def published : ClassModel := ⟨0, 52, 0x21, "a/A", none, [], [], [⟨1, "m", "()V", []⟩], []⟩

def secluded : ClassModel := ⟨0, 52, 0x21, "b/B", some "a/A", [], [], [⟨0, "m", "()V", []⟩], []⟩

/-- A class with the name of an array type, which no question finds. -/
def arrayNamed : ClassModel := ⟨0, 52, 0x21, "[M", some "a/A", [], [], [], []⟩

def behindArray : ClassModel := ⟨0, 52, 0x21, "C", some "[M", [], [], [⟨1, "m", "()V", []⟩], []⟩

def apart : List ClassModel := [published, secluded, arrayNamed, behindArray]

theorem eq_of_linkOf {ds : List Declaration} {k k' : MemberKey}
    (hApart : ∀ d ∈ ds, ∀ e ∈ ds, d = e ∨ overrides d e = false) (hLink : LinkOf ds k k') : k = k' := by
  obtain ⟨d, e, hLinked, rfl, rfl⟩ := hLink
  rcases hApart d (List.mem_of_find?_eq_some hLinked.head) e hLinked.mem with rfl | hOther
  · rfl
  · rw [hLinked.overrides] at hOther
    cases hOther

def apartHierarchy : Hierarchy := seeded ⟨[]⟩ Config.standard apart

theorem distinct_apart : (apart.map ClassModel.name).Nodup := by decide

theorem fits_apart : apartHierarchy.Fits apartHierarchy.view :=
  fits_seeded ⟨[]⟩ apart (rfl : Config.standard.failOnUnresolved = false)

theorem above_apart : Above apartHierarchy.view published (declarations published) ∧
    Above apartHierarchy.view secluded (declarations secluded ++ declarations published) ∧
    Above apartHierarchy.view arrayNamed (declarations arrayNamed) ∧
    Above apartHierarchy.view behindArray (declarations behindArray ++ []) := by
  have hView : ∀ {c}, c ∈ apart → Text.startsWith '[' c.name = false →
      apartHierarchy.view c.name = some c := view_seeded_of_mem distinct_apart
  have hPublished : apartHierarchy.view "a/A" = some published :=
    hView (by simp [apart] : published ∈ apart) rfl
  have hSecluded := View.parents_of_some (hView (by simp [apart] : secluded ∈ apart) rfl)
  have hBehind := View.parents_of_some (hView (by simp [apart] : behindArray ∈ apart) rfl)
  have hTop := View.parents_of_some hPublished
  have hArray : apartHierarchy.view "[M" = none := view_of_array apartHierarchy rfl
  have hArrayTop := View.parents_of_none hArray
  have hSecludedAbove := above_of_parent hSecluded hTop
  have hBehindAbove := above_of_parent hBehind hArrayTop
  rw [hPublished] at hSecludedAbove
  rw [hArray] at hBehindAbove
  exact ⟨above_of_top hTop, hSecludedAbove, above_of_top hArrayTop, hBehindAbove⟩

theorem eq_of_linkedAbove_apart {k k' : MemberKey} (hLink : LinkedAbove apartHierarchy apart k k') :
    k = k' := by
  obtain ⟨c, hc, ds, hds, hLink⟩ := hLink
  have hWay := (lineage?_eq_some fits_apart.coherent fits_apart.lenient).mp hds
  obtain ⟨hPublished, hSecluded, hArray, hBehind⟩ := above_apart
  refine eq_of_linkOf ?_ hLink
  simp only [apart, List.mem_cons, List.not_mem_nil, or_false] at hc
  rcases hc with rfl | rfl | rfl | rfl
  · rw [hWay.unique hPublished]
    decide
  · rw [hWay.unique hSecluded]
    decide
  · rw [hWay.unique hArray]
    decide
  · rw [hWay.unique hBehind]
    decide

theorem eq_of_sameGroup_apart {g : OverrideGroups} {h' : Hierarchy}
    (hBuild : (build .empty apart).run apartHierarchy = (.ok g, h')) {k k' : MemberKey}
    (hSame : g.sameGroup k k' = true) : k = k' := by
  have hDescribes := describes_of_build (reached_seeded ⟨[]⟩ Config.standard apart) rfl hBuild
  obtain ⟨-, -, hRelated⟩ := (hDescribes.sameGroup_iff k k').mp hSame
  clear hSame
  induction hRelated with
  | rel k k' hLink => exact eq_of_linkedAbove_apart hLink
  | refl => rfl
  | symm _ _ _ ih => exact ih.symm
  | trans _ _ _ _ _ ih ih' => exact ih.trans ih'

/-- Two implementors of a method that are not in its group. -/
theorem implementors_apart :
    ∃ g h' names h₁', (build .empty apart).run apartHierarchy = (.ok g, h') ∧
      (implementorsOf ⟨"a/A", "m", "()V"⟩).run apartHierarchy = (.ok names, h₁') ∧
      ∀ d ∈ [secluded, behindArray], d ∈ apart ∧ d.name ∈ names ∧
        (∃ as, ((ancestorsOf d.name).run apartHierarchy).1 = .ok as) ∧
        g.sameGroup ⟨"a/A", "m", "()V"⟩ ⟨d.name, "m", "()V"⟩ = false := by
  obtain ⟨g, h', hBuild⟩ :=
    exists_build_empty (reached_seeded ⟨[]⟩ Config.standard apart) apart
  obtain ⟨names, h₁', hAsk, hMem⟩ := exists_implementors distinct_apart
    (by simp [apart] : published ∈ apart) rfl (rfl : published.findMethod "m" "()V" = some _)
    (by decide) (by decide)
  obtain ⟨-, hSecluded, -, hBehind⟩ := above_apart
  have hAncestors : ∀ {c ds}, Above apartHierarchy.view c ds →
      ∃ as, ((ancestorsOf c.name).run apartHierarchy).1 = .ok as :=
    exists_ancestors fits_apart.coherent fits_apart.lenient
  have hOther : ∀ name, "a/A" ≠ name →
      g.sameGroup ⟨"a/A", "m", "()V"⟩ ⟨name, "m", "()V"⟩ = false := by
    intro name hName
    rw [Bool.eq_false_iff]
    intro hSame
    exact hName (congrArg MemberKey.owner (eq_of_sameGroup_apart hBuild hSame))
  have hSecludedMem : secluded ∈ apart := by simp [apart]
  have hArrayMem : arrayNamed ∈ apart := by simp [apart]
  have hBehindMem : behindArray ∈ apart := by simp [apart]
  refine ⟨g, h', names, h₁', hBuild, hAsk, ?_⟩
  intro d hd
  rcases List.mem_pair.mp hd with rfl | rfl
  · refine ⟨hSecludedMem, hMem secluded hSecludedMem rfl ?_ (by decide) (by decide),
      hAncestors hSecluded, hOther _ (by decide)⟩
    exact .single ⟨secluded, hSecludedMem, rfl, by decide⟩
  · refine ⟨hBehindMem, hMem behindArray hBehindMem rfl ?_ (by decide) (by decide),
      hAncestors hBehind, hOther _ (by decide)⟩
    exact .tail (.single ⟨arrayNamed, hArrayMem, rfl, by decide⟩)
      ⟨behindArray, hBehindMem, rfl, by decide⟩

end Renaming.OverrideGroups
