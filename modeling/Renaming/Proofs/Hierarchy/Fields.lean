import Renaming.Proofs.Hierarchy.Lookup

/-!
# Where fields are looked for

A field reference is looked for in depth: in the class itself, then in what its interfaces lead to,
and then in what its superclass leads to. The order is a matter of the view alone, and the depth to
which the search may go is enough for every class without a cycle above it.
-/

namespace Renaming

open Effectful

def ClassModel.declaresField (c : ClassModel) (field descriptor : String) : Bool :=
  (c.findField field descriptor).isSome

namespace View

variable {v : View} {name : String} {names : List String}

/-- The classes in which a field is looked for that is asked of `names` one after the other. -/
inductive FieldOrder (v : View) : List String → List ClassModel → Prop
  | done : FieldOrder v [] []
  | missing {name : String} {names : List String} {cs : List ClassModel} (h : v name = none)
      (hRest : FieldOrder v names cs) : FieldOrder v (name :: names) cs
  | step {name : String} {names : List String} {c : ClassModel} {up cs : List ClassModel}
      (h : v name = some c) (hUp : FieldOrder v (c.interfaces ++ c.superName.toList) up)
      (hRest : FieldOrder v names cs) : FieldOrder v (name :: names) (c :: up ++ cs)

theorem mem_parents_of_mem_up {c : ClassModel} {x : String} (h : v name = some c)
    (hx : x ∈ c.interfaces ++ c.superName.toList) : x ∈ v.parents name := by
  rw [parents_of_some h, ClassModel.supertypes]
  exact List.mem_append.mpr (List.mem_append.mp hx).symm

theorem exists_fieldOrder_of_forall (h : ∀ x ∈ names, ∃ cs, v.FieldOrder [x] cs) :
    ∃ cs, v.FieldOrder names cs := by
  induction names with
  | nil => exact ⟨[], .done⟩
  | cons x names ih =>
    obtain ⟨⟨cs, hHead⟩, hTail⟩ := List.forall_mem_cons.mp h
    obtain ⟨cs', hRest⟩ := ih hTail
    cases hHead with
    | missing hNone => exact ⟨cs', .missing hNone hRest⟩
    | step hSome hUp => exact ⟨_, .step hSome hUp hRest⟩

theorem Grounded.exists_fieldOrder (h : v.Grounded name) : ∃ cs, v.FieldOrder [name] cs := by
  induction h with
  | intro name _ ih =>
    cases hName : v name with
    | none => exact ⟨[], .missing hName .done⟩
    | some c =>
      obtain ⟨up, hUp⟩ := exists_fieldOrder_of_forall fun x hx =>
        ih x (mem_parents_of_mem_up hName hx)
      exact ⟨_, .step hName hUp .done⟩

/-- Without a name twice, `path` leads up to `name` inside of `all`. -/
structure Leads (v : View) (all : Std.HashSet String) (path : List String) (name : String) : Prop where
  nodup : path.Nodup
  subset : ∀ x ∈ path, x ∈ all
  mem : name ∈ all
  above : ∀ x ∈ path, v.Above name x

namespace Leads

variable {all : Std.HashSet String} {path : List String}

theorem not_mem (h : v.Leads all path name) (hClosed : v.Closed all) : name ∉ path :=
  fun hMem => (hClosed.grounded name h.mem).not_above_self (h.above name hMem)

theorem length_lt (h : v.Leads all path name) (hClosed : v.Closed all) : path.length < all.size := by
  have hNodup : (name :: path).Nodup := List.nodup_cons.mpr ⟨h.not_mem hClosed, h.nodup⟩
  have hSubset : name :: path ⊆ all.toList := by
    intro x hx
    rw [Std.HashSet.mem_toList]
    rcases List.mem_cons.mp hx with rfl | hx
    · exact h.mem
    · exact h.subset x hx
  have hLength := (hNodup.subperm hSubset).length_le
  rwa [List.length_cons, Std.HashSet.length_toList] at hLength

theorem parent (h : v.Leads all path name) (hClosed : v.Closed all) {x : String}
    (hx : x ∈ v.parents name) : v.Leads all (name :: path) x where
  nodup := List.nodup_cons.mpr ⟨h.not_mem hClosed, h.nodup⟩
  subset := List.forall_mem_cons.mpr ⟨h.mem, h.subset⟩
  mem := hClosed.parents name h.mem x hx
  above := List.forall_mem_cons.mpr ⟨.single hx, fun p hp => .head hx (h.above p hp)⟩

end Leads

end View

namespace Hierarchy

variable {v : View} {field descriptor : String}

theorem findSomeM?_singleton {α β : Type} (f : α → Exploring (Option β)) (a : α) :
    [a].findSomeM? f = f a := by
  rw [List.findSomeM?]
  conv_rhs => rw [← bind_pure (f a)]
  refine bind_congr fun b => ?_
  cases b <;> rfl

/-- The search goes through the classes in order, as long as it may go up once more from every class
on its way. -/
theorem answers_fieldAbove {all : Std.HashSet String} (hClosed : v.Closed all) {names : List String}
    {cs : List ClassModel} (hOrder : v.FieldOrder names cs) {fuel : Nat} {path : List String}
    (hFuel : all.size < fuel + path.length) (hNames : ∀ x ∈ names, v.Leads all path x) :
    Answers v (names.findSomeM? (fieldAbove field descriptor fuel))
      (cs.find? (·.declaresField field descriptor)) := by
  -- Each step up takes one from the fuel and puts one more class of `all` on the path, which has no class
  -- twice; so the sum of the two stays above the size of `all`.
  induction hOrder generalizing fuel path with
  | done => exact answers_pure none
  | @missing name names cs hNone _ ih =>
    obtain ⟨-, hRest⟩ := List.forall_mem_cons.mp hNames
    have hHead : Answers v (fieldAbove field descriptor fuel name) none := by
      cases fuel with
      | zero => exact answers_pure none
      | succ fuel =>
        refine answers_bind (answers_lookup name) ?_
        rw [hNone]
        exact answers_pure none
    rw [List.findSomeM?]
    exact answers_bind hHead (ih hFuel hRest)
  | @step name names c up cs hSome _ _ ihUp ihRest =>
    obtain ⟨hName, hRest⟩ := List.forall_mem_cons.mp hNames
    have hShort := hName.length_lt hClosed
    have hHead : Answers v (fieldAbove field descriptor fuel name)
        ((c :: up).find? (·.declaresField field descriptor)) := by
      cases fuel with
      -- Without fuel the path would have as many classes as there are.
      | zero => omega
      | succ fuel =>
        refine answers_bind (answers_lookup name) ?_
        rw [hSome, List.find?_cons, ClassModel.declaresField]
        dsimp only
        cases (c.findField field descriptor).isSome with
        | true => exact answers_pure (some c)
        | false =>
          have hUp : ∀ x ∈ c.interfaces ++ c.superName.toList, v.Leads all (name :: path) x :=
            fun x hx => hName.parent hClosed (View.mem_parents_of_mem_up hSome hx)
          refine ihUp ?_ hUp
          rw [List.length_cons]
          omega
    rw [List.findSomeM?, List.find?_append]
    refine answers_bind hHead ?_
    cases (c :: up).find? (·.declaresField field descriptor) with
    | some found => exact answers_pure (some found)
    | none => exact ihRest hFuel hRest

/-- A search that may go up once more than there are classes to go through does not feel the bound. -/
theorem answers_fieldAbove_of_mem {all : Std.HashSet String} (hClosed : v.Closed all) {name : String}
    (hMem : name ∈ all) {cs : List ClassModel} (hOrder : v.FieldOrder [name] cs) {fuel : Nat}
    (hFuel : all.size < fuel) : Answers v (fieldAbove field descriptor fuel name)
      (cs.find? (·.declaresField field descriptor)) := by
  have hNames : ∀ x ∈ [name], v.Leads all [] x := by
    intro x hx
    rw [List.mem_singleton.mp hx]
    exact ⟨List.nodup_nil, List.forall_mem_nil _, hMem, List.forall_mem_nil _⟩
  rw [← findSomeM?_singleton (fieldAbove field descriptor fuel)]
  exact answers_fieldAbove hClosed hOrder (by simpa using hFuel) hNames

/-- The class whose declaration a field reference means is the first in order that declares it. -/
theorem answers_fieldOwner {reference : MemberKey} {cs : List ClassModel}
    (hGrounded : v.Grounded reference.owner) (hOrder : v.FieldOrder [reference.owner] cs) :
    Answers v (fieldOwner reference)
      (cs.find? (·.declaresField reference.name reference.descriptor)) := by
  intro h hc hLenient hView
  obtain ⟨r, h₁, hRun, hExtends, hAnswer⟩ := reachable_spec hc reference.owner
  rw [hView] at hAnswer
  rcases hAnswer with ⟨all, rfl, -, hClosed, hMem, -⟩ | ⟨_, -, hCycle⟩ | ⟨hStrict, -⟩
  · obtain ⟨h₂, hSecond, hExtends'⟩ := answers_fieldAbove_of_mem hClosed hMem hOrder
      (Nat.lt_succ_self _) h₁ hExtends.coherent (hExtends.strict_eq.trans hLenient)
      (hExtends.view_eq.trans hView)
    exact ⟨h₂, bind_run.mpr (Or.inl ⟨all, h₁, hRun, hSecond⟩), hExtends.trans hExtends'⟩
  · exact absurd hGrounded hCycle
  · rw [hLenient] at hStrict
    cases hStrict

theorem fieldOwner_spec {h : Hierarchy} (hc : h.Coherent) (hLenient : h.strict = false)
    (reference : MemberKey) :
    (∃ cs h', h.view.Grounded reference.owner ∧ h.view.FieldOrder [reference.owner] cs ∧
      (fieldOwner reference).run h =
        (.ok (cs.find? (·.declaresField reference.name reference.descriptor)), h') ∧
        h.Extends h') ∨
      ∃ through h', (fieldOwner reference).run h = (.error (.hierarchyCycle through), h') ∧
        h.Extends h' := by
  obtain ⟨r, h', hRun, hExtends, hAnswer⟩ := reachable_spec hc reference.owner
  rcases hAnswer with ⟨all, rfl, hGrounded, -, -⟩ | ⟨through, rfl, -⟩ | ⟨hStrict, -⟩
  · obtain ⟨cs, hOrder⟩ := hGrounded.exists_fieldOrder
    obtain ⟨h₁, hAsk, hExtends₁⟩ := answers_fieldOwner hGrounded hOrder h hc hLenient rfl
    exact Or.inl ⟨cs, h₁, hGrounded, hOrder, hAsk, hExtends₁⟩
  · exact Or.inr ⟨through, h', bind_run.mpr (Or.inr ⟨_, hRun, rfl⟩), hExtends⟩
  · rw [hLenient] at hStrict
    cases hStrict

end Hierarchy

end Renaming
