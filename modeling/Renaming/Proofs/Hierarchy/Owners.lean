import Renaming.Proofs.Hierarchy.Ancestors
import Renaming.Proofs.Hierarchy.Fields

/-!
# Inherited members

A reference to a member fails exactly if some way up from its owner leads onto a cycle. If it does not
fail, a method is found on the line of superclasses before it is found in an interface, and a field in the
interfaces before it is found in the superclass. Both searches come to an end by themselves, and nothing
above the owner escapes them.
-/

namespace Renaming

namespace View

variable {v : View} {name : String} {names : List String} {cs : List ClassModel}

theorem above_iff {x : String} :
    v.Above x name ↔ ∃ parent ∈ v.parents name, x = parent ∨ v.Above x parent := by
  constructor
  · intro h
    obtain ⟨parent, hWay, hParent⟩ := Relation.TransGen.tail'_iff.mp h
    refine ⟨parent, hParent, ?_⟩
    exact (Relation.reflTransGen_iff_eq_or_transGen.mp hWay).imp_left Eq.symm
  · rintro ⟨parent, hParent, rfl | hAbove⟩
    · exact .single hParent
    · exact hAbove.tail hParent

theorem FieldOrder.unique {cs' : List ClassModel} (h : v.FieldOrder names cs)
    (h' : v.FieldOrder names cs') : cs = cs' := by
  induction h generalizing cs' with
  | done =>
    cases h'
    rfl
  | missing hNone _ ih =>
    cases h' with
    | missing _ hRest => exact ih hRest
    | step hSome _ _ =>
      rw [hNone] at hSome
      cases hSome
  | step hSome _ _ ihUp ihRest =>
    cases h' with
    | missing hNone _ =>
      rw [hSome] at hNone
      cases hNone
    | step hSome' hUp' hRest' =>
      cases hSome.symm.trans hSome'
      rw [ihUp hUp', ihRest hRest']

theorem FieldOrder.grounded (h : v.FieldOrder names cs) : ∀ x ∈ names, v.Grounded x := by
  induction h with
  | done => exact List.forall_mem_nil _
  | missing hNone _ ih =>
    refine List.forall_mem_cons.mpr ⟨grounded_of_parents fun parent hParent => ?_, ih⟩
    rw [View.parents, hNone] at hParent
    cases hParent
  | step hSome _ _ ihUp ihRest =>
    refine List.forall_mem_cons.mpr ⟨grounded_of_parents fun parent hParent => ihUp parent ?_, ihRest⟩
    rw [parents_of_some hSome] at hParent
    exact List.mem_append.mpr (List.mem_append.mp hParent).symm

/-- The class that a name belongs to, or one above it. -/
def Up (v : View) (name : String) (c : ClassModel) : Prop :=
  ∃ x, (x = name ∨ v.Above x name) ∧ v x = some c

theorem up_iff {c : ClassModel} :
    v.Up name c ↔ v name = some c ∨ ∃ parent ∈ v.parents name, v.Up parent c := by
  constructor
  · rintro ⟨x, rfl | hAbove, hx⟩
    · exact Or.inl hx
    · obtain ⟨parent, hParent, hWay⟩ := above_iff.mp hAbove
      exact Or.inr ⟨parent, hParent, x, hWay, hx⟩
  · rintro (hName | ⟨parent, hParent, x, hWay, hx⟩)
    · exact ⟨name, Or.inl rfl, hName⟩
    · exact ⟨x, Or.inr (above_iff.mpr ⟨parent, hParent, hWay⟩), hx⟩

/-- The search for a field goes through the classes it starts from and all that is above them. -/
theorem FieldOrder.mem_iff (h : v.FieldOrder names cs) (c : ClassModel) :
    c ∈ cs ↔ ∃ name ∈ names, v.Up name c := by
  induction h with
  | done => simp
  | @missing name names cs hNone _ ih =>
    have hEnd : ¬ v.Up name c := by
      rw [up_iff, View.parents, hNone]
      simp
    rw [ih, List.exists_mem_cons_iff, or_iff_right hEnd]
  | @step name names d up cs hSome _ _ ihUp ihRest =>
    have hHere : v.Up name c ↔ c = d ∨ c ∈ up := by
      rw [up_iff, hSome, ihUp, parents_of_some hSome, ClassModel.supertypes, Option.some.injEq,
        eq_comm]
      simp only [List.mem_append, or_comm]
    rw [List.cons_append, List.mem_cons, List.mem_append, ihRest, List.exists_mem_cons_iff, hHere, or_assoc]

theorem FieldOrder.find?_eq_none (h : v.FieldOrder [name] cs) (field descriptor : String) :
    cs.find? (·.declaresField field descriptor) = none ↔
      ∀ c, v.Up name c → c.declaresField field descriptor = false := by
  simp only [List.find?_eq_none, h.mem_iff, List.mem_singleton, exists_eq_left, Bool.not_eq_true]

theorem firstDeclaring_or_eq_none {line ancestors : List String} {method descriptor : String} :
    (v.firstDeclaring line method descriptor).or
        (v.firstDeclaring (ancestors.filter v.isInterface) method descriptor) = none ↔
      (∀ x ∈ line, ∀ c, v x = some c → c.declares method descriptor = false) ∧
        ∀ x ∈ ancestors, ∀ c, v x = some c → c.isInterface = true →
          c.declares method descriptor = false := by
  rw [Option.or_eq_none_iff, firstDeclaring_eq_none, firstDeclaring_eq_none]
  refine and_congr_right fun _ => forall_congr' fun x => ?_
  simp only [List.mem_filter, isInterface]
  constructor
  · intro h hx c hc hInterface
    exact h ⟨hx, by rw [hc]; exact hInterface⟩ c hc
  · rintro h ⟨hx, hInterface⟩ c hc
    rw [hc] at hInterface
    exact h hx c hc hInterface

end View

namespace Hierarchy

open Effectful

variable {v : View} {h : Hierarchy} {classpath : ClassPath} {config : Config}

/-- What a search for a method finds on the line of superclasses and in the interfaces among the
ancestors `as`. -/
structure FindsMethod (h : Hierarchy) (reference : MemberKey) (as line : List String) : Prop where
  listed : ((ancestorsOf reference.owner).run h).1 = .ok as
  goesUp : h.view.Line (some reference.owner) line
  found : ((methodOwner reference).run h).1 = .ok
    ((h.view.firstDeclaring line reference.name reference.descriptor).or
      (h.view.firstDeclaring (as.filter h.view.isInterface) reference.name reference.descriptor))
  none_iff : ((methodOwner reference).run h).1 = .ok none ↔
    (∀ x ∈ line, ∀ c, h.view x = some c → c.declares reference.name reference.descriptor = false) ∧
      ∀ x ∈ as, ∀ c, h.view x = some c → c.isInterface = true →
        c.declares reference.name reference.descriptor = false
  /-- The line ends before the bound on its length is felt. -/
  ends : ∀ h', h.Extends h' → ∀ fuel, as.length < fuel →
    ((methodOnLine reference.name reference.descriptor fuel (some reference.owner)).run h').1 =
      .ok (h.view.firstDeclaring line reference.name reference.descriptor)

/-- What a search for a field finds in the classes `order`. -/
structure FindsField (h : Hierarchy) (reference : MemberKey) (order : List ClassModel) : Prop where
  goesUp : h.view.FieldOrder [reference.owner] order
  found : ((fieldOwner reference).run h).1 =
    .ok (order.find? (·.declaresField reference.name reference.descriptor))
  none_iff : ((fieldOwner reference).run h).1 = .ok none ↔
    ∀ c, h.view.Up reference.owner c → c.declaresField reference.name reference.descriptor = false
  /-- Every way up ends before the bound on its length is felt. -/
  ends : ∀ all h', (reachable reference.owner).run h = (.ok all, h') → ∀ fuel, all.size < fuel →
    ((fieldAbove reference.name reference.descriptor fuel reference.owner).run h').1 =
      .ok (order.find? (·.declaresField reference.name reference.descriptor))

theorem Answers.run_eq {α : Type} {x : Exploring α} {a : α} (hx : Answers v x a) (hh : h.Fits v) :
    (x.run h).1 = .ok a := by
  obtain ⟨h', hRun, -⟩ := hx h hh.coherent hh.lenient hh.view_eq
  rw [hRun]

theorem Fits.findsMethod (hh : h.Fits h.view) {reference : MemberKey}
    (hGrounded : h.view.Grounded reference.owner) : ∃ as line, h.FindsMethod reference as line := by
  obtain ⟨order, hOrder⟩ := exists_lookupOrder hh.coherent hh.lenient hGrounded
  have hFound := (answers_methodOwner hGrounded hOrder).run_eq hh
  obtain ⟨as, line, hListed, hLine, rfl⟩ := hOrder
  rw [View.firstDeclaring_append] at hFound
  refine ⟨as, line, (answers_ancestorsOf hGrounded hListed).run_eq hh, hLine, hFound, ?_, ?_⟩
  · rw [hFound, Except.ok.injEq]
    exact View.firstDeclaring_or_eq_none
  · intro h' hExtends fuel hFuel
    have hLength := hLine.length_le hGrounded hListed
    exact (answers_methodOnLine hLine (by omega)).run_eq (hh.extends hExtends)

theorem Fits.findsField (hh : h.Fits h.view) {reference : MemberKey}
    (hGrounded : h.view.Grounded reference.owner) : ∃ order, h.FindsField reference order := by
  obtain ⟨order, hOrder⟩ := hGrounded.exists_fieldOrder
  have hFound := (answers_fieldOwner hGrounded hOrder).run_eq hh
  refine ⟨order, hOrder, hFound, ?_, ?_⟩
  · rw [hFound, Except.ok.injEq]
    exact hOrder.find?_eq_none _ _
  · intro all h' hRun fuel hFuel
    obtain ⟨_, _, hRun', hExtends, hAnswer⟩ := reachable_spec hh.coherent reference.owner
    cases hRun.symm.trans hRun'
    rcases hAnswer with ⟨_, hAll, -, hClosed, hMem, -⟩ | ⟨_, hCycle, -⟩ | ⟨-, _, hError⟩
    · cases hAll
      exact (answers_fieldAbove_of_mem hClosed hMem hOrder hFuel).run_eq (hh.extends hExtends)
    · cases hCycle
    · cases hError

theorem reportsCycle_iff {α : Type} {r : Except Failure α} {name : String}
    (hAnswer : h.view.Grounded name → ∃ a, r = .ok a)
    (hReport : h.view.Grounded name ∨ ∃ through, r = .error (.hierarchyCycle through)) :
    (∃ through, r = .error (.hierarchyCycle through)) ↔ h.view.MeetsCycle name := by
  rw [← not_iff_not, ← View.grounded_iff h.bounded_view]
  constructor
  · exact hReport.resolve_right
  · rintro hGrounded ⟨through, hError⟩
    obtain ⟨a, hOk⟩ := hAnswer hGrounded
    cases hOk.symm.trans hError

/-- In a lenient hierarchy references fail where a way up leads onto a cycle. Everywhere else the search for
a method prefers superclasses, that for a field interfaces, and both find something if there is
anything to find. -/
theorem owners_exact (hReached : Reached classpath config h)
    (hLenient : config.failOnUnresolved = false) (reference : MemberKey) :
    ((∃ through, ((methodOwner reference).run h).1 = .error (.hierarchyCycle through)) ↔
      h.view.MeetsCycle reference.owner) ∧
    ((∃ through, ((fieldOwner reference).run h).1 = .error (.hierarchyCycle through)) ↔
      h.view.MeetsCycle reference.owner) ∧
    (¬ h.view.MeetsCycle reference.owner →
      (∃ as line, h.FindsMethod reference as line) ∧ ∃ order, h.FindsField reference order) := by
  have hh := hReached.fits hLenient
  refine ⟨reportsCycle_iff (fun hGrounded => ?_) ?_, reportsCycle_iff (fun hGrounded => ?_) ?_,
    fun hNone => ?_⟩
  · obtain ⟨as, line, hFinds⟩ := hh.findsMethod hGrounded
    exact ⟨_, hFinds.found⟩
  · rcases methodOwner_spec hh.coherent hh.lenient reference with
      ⟨_, _, hGrounded, -⟩ | ⟨through, h', hRun, -⟩
    · exact Or.inl hGrounded
    · exact Or.inr ⟨through, congrArg Prod.fst hRun⟩
  · obtain ⟨order, hFinds⟩ := hh.findsField hGrounded
    exact ⟨_, hFinds.found⟩
  · rcases fieldOwner_spec hh.coherent hh.lenient reference with
      ⟨_, _, hGrounded, -⟩ | ⟨through, h', hRun, -⟩
    · exact Or.inl hGrounded
    · exact Or.inr ⟨through, congrArg Prod.fst hRun⟩
  · have hGrounded := (View.grounded_iff h.bounded_view).mpr hNone
    exact ⟨hh.findsMethod hGrounded, hh.findsField hGrounded⟩

end Hierarchy

namespace Inherited

def heir : ClassModel := ⟨0, 52, 0x21, "Heir", some "Base", ["Port"], [], [], []⟩

/-- The superclass and the interface of the class above declare the same members. -/
def base : ClassModel :=
  ⟨0, 52, 0x21, "Base", some "Gone", [], [⟨1, "f", "I", []⟩], [⟨1, "m", "()V", []⟩], []⟩

def port : ClassModel :=
  ⟨0, 52, 0x601, "Port", some "Gone", [], [⟨0x19, "f", "I", []⟩], [⟨0x401, "m", "()V", []⟩], []⟩

def hierarchy : Hierarchy :=
  Hierarchy.seeded ⟨[]⟩ Config.standard [heir, base, port, Hierarchy.ring]

theorem view_hierarchy : hierarchy.view "Heir" = some heir ∧ hierarchy.view "Base" = some base ∧
    hierarchy.view "Port" = some port ∧ hierarchy.view "Ring" = some Hierarchy.ring ∧
      hierarchy.view "Gone" = none := by
  have hDistinct : ([heir, base, port, Hierarchy.ring].map ClassModel.name).Nodup := by decide
  refine ⟨?_, ?_, ?_, ?_, ?_⟩
  · exact Hierarchy.view_seeded_of_mem (c := heir) hDistinct (by simp) (by decide)
  · exact Hierarchy.view_seeded_of_mem (c := base) hDistinct (by simp) (by decide)
  · exact Hierarchy.view_seeded_of_mem (c := port) hDistinct (by simp) (by decide)
  · exact Hierarchy.view_seeded_of_mem (c := Hierarchy.ring) hDistinct (by simp) (by decide)
  · exact Hierarchy.view_seeded_of_not_mem (by decide) (by decide)

theorem line_heir : hierarchy.view.Line (some "Heir") ["Heir", "Base"] := by
  obtain ⟨hHeir, hBase, -, -, hGone⟩ := view_hierarchy
  exact .step hHeir (.step hBase (.missing hGone))

theorem fieldOrder_heir : hierarchy.view.FieldOrder ["Heir"] [heir, port, base] := by
  obtain ⟨hHeir, hBase, hPort, -, hGone⟩ := view_hierarchy
  have hUp : hierarchy.view.FieldOrder ["Port", "Base"] [port, base] :=
    .step hPort (.missing hGone .done) (.step hBase (.missing hGone .done) .done)
  exact .step hHeir hUp .done

theorem not_meetsCycle_heir : ¬ hierarchy.view.MeetsCycle "Heir" :=
  (fieldOrder_heir.grounded "Heir" List.mem_cons_self).not_meetsCycle

theorem owners_exact_inherited :
    Hierarchy.Reached ⟨[]⟩ Config.standard hierarchy ∧ Config.standard.failOnUnresolved = false ∧
      ((Hierarchy.methodOwner ⟨"Heir", "m", "()V"⟩).run hierarchy).1 = .ok (some base) ∧
      ((Hierarchy.fieldOwner ⟨"Heir", "f", "I"⟩).run hierarchy).1 = .ok (some port) ∧
      ∃ through, ((Hierarchy.fieldOwner ⟨"Ring", "f", "I"⟩).run hierarchy).1 =
        .error (.hierarchyCycle through) := by
  have hReached : Hierarchy.Reached ⟨[]⟩ Config.standard hierarchy :=
    Hierarchy.reached_seeded _ _ _
  have hLenient : Config.standard.failOnUnresolved = false := by rfl
  obtain ⟨hHeir, hBase, -, hRing, -⟩ := view_hierarchy
  refine ⟨hReached, hLenient, ?_, ?_, ?_⟩
  · obtain ⟨-, -, hFinds⟩ := Hierarchy.owners_exact hReached hLenient ⟨"Heir", "m", "()V"⟩
    obtain ⟨as, line, hMethod⟩ := (hFinds not_meetsCycle_heir).1
    cases hMethod.goesUp.unique line_heir
    have hFirst : hierarchy.view.firstDeclaring ["Heir", "Base"] "m" "()V" = some base := by
      rw [View.firstDeclaring_cons hHeir, View.firstDeclaring_cons hBase]
      rfl
    rw [hMethod.found, hFirst, Option.some_or]
  · obtain ⟨-, -, hFinds⟩ := Hierarchy.owners_exact hReached hLenient ⟨"Heir", "f", "I"⟩
    obtain ⟨order, hField⟩ := (hFinds not_meetsCycle_heir).2
    cases hField.goesUp.unique fieldOrder_heir
    rw [hField.found]
    rfl
  · obtain ⟨-, hFails, -⟩ := Hierarchy.owners_exact hReached hLenient ⟨"Ring", "f", "I"⟩
    exact hFails.mpr (View.meetsCycle_of_self hRing (by decide))

end Inherited

end Renaming
