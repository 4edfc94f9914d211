import Renaming.Proofs.Hierarchy.Reached

/-!
# Where methods are looked for

A method reference is looked for first on the line of superclasses and then in the interfaces among
the ancestors. The order depends on the view alone, and a hierarchy whose names are changed
throughout is searched in the same order.
-/

namespace Renaming

open Effectful

def ClassModel.declares (c : ClassModel) (method descriptor : String) : Bool :=
  (c.findMethod method descriptor).isSome

namespace View

variable {v v' : View} {name : String} {ancestors line order : List String}

def isInterface (v : View) (name : String) : Bool := (v name).any ClassModel.isInterface

/-- The names on the line of superclasses, as far as the classes exist. -/
inductive Line (v : View) : Option String → List String → Prop
  | top : Line v none []
  | missing {name : String} (h : v name = none) : Line v (some name) []
  | step {name : String} {c : ClassModel} {rest : List String} (h : v name = some c)
      (hRest : Line v c.superName rest) : Line v (some name) (name :: rest)

/-- The classes in which a method of the class `name` is looked for. -/
def LookupOrder (v : View) (name : String) (order : List String) : Prop :=
  ∃ ancestors line, v.Ancestors name ancestors ∧ v.Line (some name) line ∧
    order = line ++ ancestors.filter v.isInterface

/-- The first class of `order` that declares a method. -/
def firstDeclaring (v : View) (order : List String) (method descriptor : String) :
    Option ClassModel :=
  (order.filterMap v).find? (·.declares method descriptor)

theorem firstDeclaring_cons {c : ClassModel} (h : v name = some c) (order : List String)
    (method descriptor : String) : v.firstDeclaring (name :: order) method descriptor =
      if c.declares method descriptor then some c
      else v.firstDeclaring order method descriptor := by
  rw [firstDeclaring, List.filterMap_cons_some h, List.find?_cons]
  cases c.declares method descriptor <;> rfl

theorem firstDeclaring_append (order order' : List String) (method descriptor : String) :
    v.firstDeclaring (order ++ order') method descriptor =
      (v.firstDeclaring order method descriptor).or
        (v.firstDeclaring order' method descriptor) := by
  rw [firstDeclaring, List.filterMap_append, List.find?_append]
  rfl

theorem firstDeclaring_eq_some {c : ClassModel} {method descriptor : String}
    (h : v.firstDeclaring order method descriptor = some c) : ∃ before name after,
      order = before ++ name :: after ∧ v name = some c ∧ c.declares method descriptor = true ∧
        ∀ x ∈ before, ∀ d, v x = some d → d.declares method descriptor = false := by
  induction order with
  | nil => cases h
  | cons name order ih =>
    cases hName : v name with
    | none =>
      rw [firstDeclaring, List.filterMap_cons_none hName] at h
      obtain ⟨before, x, after, rfl, hx, hDeclares, hBefore⟩ := ih h
      refine ⟨name :: before, x, after, rfl, hx, hDeclares, List.forall_mem_cons.mpr ⟨?_, hBefore⟩⟩
      intro d hd
      rw [hName] at hd
      cases hd
    | some d =>
      rw [firstDeclaring_cons hName] at h
      split at h
      · rename_i hDeclares
        cases h
        exact ⟨[], name, order, rfl, hName, hDeclares, fun _ hx => absurd hx List.not_mem_nil⟩
      · rename_i hNot
        obtain ⟨before, x, after, rfl, hx, hDeclares, hBefore⟩ := ih h
        refine ⟨name :: before, x, after, rfl, hx, hDeclares,
          List.forall_mem_cons.mpr ⟨fun e he => ?_, hBefore⟩⟩
        rw [hName] at he
        cases he
        simpa using hNot

theorem firstDeclaring_eq_none {method descriptor : String} :
    v.firstDeclaring order method descriptor = none ↔
      ∀ x ∈ order, ∀ c, v x = some c → c.declares method descriptor = false := by
  rw [firstDeclaring, List.find?_eq_none]
  simp only [List.mem_filterMap, Bool.not_eq_true]
  constructor
  · exact fun h x hx c hc => h c ⟨x, hx, hc⟩
  · rintro h c ⟨x, hx, hc⟩
    exact h x hx c hc

theorem firstDeclaring_append_cons {x : String} {c : ClassModel} {method descriptor : String}
    (hx : v x = some c) (hDeclares : c.declares method descriptor = true)
    (before after : List String) :
    v.firstDeclaring (before ++ x :: after) method descriptor =
      v.firstDeclaring (before ++ [x]) method descriptor := by
  rw [firstDeclaring_append, firstDeclaring_append, firstDeclaring_cons hx, firstDeclaring_cons hx,
    hDeclares, if_pos rfl, if_pos rfl]

theorem firstDeclaring_eq_last_iff {x : String} {c : ClassModel} {method descriptor : String}
    {before : List String} (hx : v x = some c) (hDeclares : c.declares method descriptor = true)
    (hNew : ∀ y ∈ before, v y ≠ some c) :
    v.firstDeclaring (before ++ [x]) method descriptor = some c ↔
      ∀ y ∈ before, ∀ d, v y = some d → d.declares method descriptor = false := by
  rw [← firstDeclaring_eq_none, firstDeclaring_append, firstDeclaring_cons hx, hDeclares, if_pos rfl]
  cases hFirst : v.firstDeclaring before method descriptor with
  | none => exact ⟨fun _ => rfl, fun _ => rfl⟩
  | some d =>
    obtain ⟨_, y, _, rfl, hy, -⟩ := firstDeclaring_eq_some hFirst
    constructor
    · intro hSame
      cases hSame
      exact absurd hy (hNew y (List.mem_append_right _ List.mem_cons_self))
    · intro hNone
      cases hNone

theorem Line.unique {start : Option String} {line line' : List String} (h : v.Line start line)
    (h' : v.Line start line') : line = line' := by
  induction h generalizing line' with
  | top =>
    cases h'
    rfl
  | missing hNone =>
    cases h' with
    | missing => rfl
    | step hSome =>
      rw [hNone] at hSome
      cases hSome
  | step hSome _ ih =>
    cases h' with
    | missing hNone =>
      rw [hNone] at hSome
      cases hSome
    | step hSome' hRest' =>
      rw [hSome] at hSome'
      cases hSome'
      rw [ih hRest']

theorem LookupOrder.unique {order' : List String} (h : v.LookupOrder name order)
    (h' : v.LookupOrder name order') : order = order' := by
  obtain ⟨as, line, hAncestors, hLine, rfl⟩ := h
  obtain ⟨as', line', hAncestors', hLine', rfl⟩ := h'
  rw [hAncestors.unique hAncestors', hLine.unique hLine']

theorem superName_mem_parents {c : ClassModel} {parent : String} (h : v name = some c)
    (hParent : c.superName = some parent) : parent ∈ v.parents name := by
  rw [parents_of_some h, ClassModel.supertypes, hParent]
  exact List.mem_cons_self

theorem Grounded.exists_line (h : v.Grounded name) : ∃ line, v.Line (some name) line := by
  induction h with
  | intro name _ ih =>
    cases hName : v name with
    | none => exact ⟨[], .missing hName⟩
    | some c =>
      cases hSuper : c.superName with
      | none =>
        refine ⟨[name], .step hName ?_⟩
        rw [hSuper]
        exact .top
      | some parent =>
        obtain ⟨rest, hRest⟩ := ih parent (superName_mem_parents hName hSuper)
        refine ⟨name :: rest, .step hName ?_⟩
        rwa [hSuper]

theorem Ancestors.closed (h : v.Ancestors name ancestors) :
    ∀ x ∈ name :: ancestors, ∀ y ∈ v.parents x, y ∈ name :: ancestors := by
  obtain ⟨hFirst, hRest⟩ := Sweeps.closed h
  intro x hx y hy
  rcases List.mem_cons.mp hx with rfl | hx
  · exact List.mem_cons_of_mem _ (hFirst x List.mem_cons_self y hy)
  · exact List.mem_cons_of_mem _ ((hRest x hx).resolve_left List.not_mem_nil y hy)

theorem Line.subset {start : Option String} {all : List String} (h : v.Line start line)
    (hStart : ∀ x ∈ start, x ∈ all) (hAll : ∀ x ∈ all, ∀ y ∈ v.parents x, y ∈ all) :
    ∀ x ∈ line, x ∈ all := by
  induction h with
  | top => exact fun _ hx => absurd hx List.not_mem_nil
  | missing => exact fun _ hx => absurd hx List.not_mem_nil
  | @step name c rest hName _ ih =>
    have hMem : name ∈ all := hStart name rfl
    refine List.forall_mem_cons.mpr ⟨hMem, ih fun parent hParent => ?_⟩
    exact hAll name hMem parent (superName_mem_parents hName hParent)

theorem Line.above {start : Option String} (h : v.Line start line) :
    ∀ x ∈ line, ∀ y ∈ start, x = y ∨ v.Above x y := by
  induction h with
  | top => exact fun _ hx => absurd hx List.not_mem_nil
  | missing => exact fun _ hx => absurd hx List.not_mem_nil
  | @step name c rest hName hRest ih =>
    rintro x hx y hy
    cases hy
    rcases List.mem_cons.mp hx with rfl | hx
    · exact Or.inl rfl
    · cases hSuper : c.superName with
      | none =>
        rw [hSuper] at hRest
        cases hRest
        exact absurd hx List.not_mem_nil
      | some parent =>
        have hParent := superName_mem_parents hName hSuper
        rcases ih x hx parent hSuper with rfl | hAbove
        · exact Or.inr (.single hParent)
        · exact Or.inr (hAbove.tail hParent)

theorem Line.nodup {start : Option String} (h : v.Line start line)
    (hStart : ∀ x ∈ start, v.Grounded x) : line.Nodup := by
  induction h with
  | top => exact List.nodup_nil
  | missing => exact List.nodup_nil
  | @step name c rest hName hRest ih =>
    have hGrounded : v.Grounded name := hStart name rfl
    refine List.nodup_cons.mpr ⟨fun hMem => ?_, ih fun parent hParent => ?_⟩
    · cases hSuper : c.superName with
      | none =>
        rw [hSuper] at hRest
        cases hRest
        exact absurd hMem List.not_mem_nil
      | some parent =>
        have hParent := superName_mem_parents hName hSuper
        rcases hRest.above name hMem parent hSuper with rfl | hAbove
        · exact hGrounded.not_above_self (.single hParent)
        · exact hGrounded.not_above_self (hAbove.tail hParent)
    · exact hGrounded.parent (superName_mem_parents hName hParent)

theorem LookupOrder.subset (h : v.LookupOrder name order) (hAncestors : v.Ancestors name ancestors) :
    ∀ x ∈ order, x ∈ name :: ancestors := by
  obtain ⟨as, line, hAs, hLine, rfl⟩ := h
  cases hAncestors.unique hAs
  intro x hx
  rcases List.mem_append.mp hx with hx | hx
  · refine hLine.subset (fun y hy => ?_) hAncestors.closed x hx
    cases hy
    exact List.mem_cons_self
  · exact List.mem_cons_of_mem _ (List.mem_of_mem_filter hx)

theorem Line.length_le (h : v.Line (some name) line) (hGrounded : v.Grounded name)
    (hAncestors : v.Ancestors name ancestors) : line.length ≤ ancestors.length + 1 := by
  have hNodup : line.Nodup := h.nodup fun x hx => by
    cases hx
    exact hGrounded
  have hSubset : line ⊆ name :: ancestors := h.subset (fun x hx => by
    cases hx
    exact List.mem_cons_self) hAncestors.closed
  exact (hNodup.subperm hSubset).length_le

theorem lookupOrder_of_parent {parent : String} {c d : ClassModel} (hName : v name = some c)
    (hParent : v parent = some d) (hSuper : c.superName = some parent) (hInterfaces : c.interfaces = [])
    (hTop : d.superName = none) (hTopInterfaces : d.interfaces = [])
    (hClass : d.isInterface = false) :
    v.Grounded name ∧ v.Ancestors name [parent] ∧ v.LookupOrder name [name, parent] := by
  have hBelow : v.parents name = [parent] := by
    rw [parents_of_some hName, ClassModel.supertypes, hSuper, hInterfaces]
    rfl
  have hAbove : v.parents parent = [] := by
    rw [parents_of_some hParent, ClassModel.supertypes, hTop, hTopInterfaces]
    rfl
  obtain ⟨hGrounded, hAncestors⟩ := ancestors_of_parent hBelow hAbove
  refine ⟨hGrounded, hAncestors, [parent], [name, parent], hAncestors, .step hName ?_, ?_⟩
  · rw [hSuper]
    refine .step hParent ?_
    rw [hTop]
    exact .top
  · simp [isInterface, hParent, hClass]

theorem lookupOrder_of_missing {parent : String} {c : ClassModel} (hName : v name = some c)
    (hParent : v parent = none) (hSuper : c.superName = some parent)
    (hInterfaces : c.interfaces = []) :
    v.Grounded name ∧ v.Ancestors name [parent] ∧ v.LookupOrder name [name] := by
  have hBelow : v.parents name = [parent] := by
    rw [parents_of_some hName, ClassModel.supertypes, hSuper, hInterfaces]
    rfl
  obtain ⟨hGrounded, hAncestors⟩ := ancestors_of_parent hBelow (parents_of_none hParent)
  refine ⟨hGrounded, hAncestors, [parent], [name], hAncestors, .step hName ?_, ?_⟩
  · rw [hSuper]
    exact .missing hParent
  · simp [isInterface, hParent]

/-- The names in `all` belong to the same classes in `v'`, if every name is changed by `g`. -/
structure Carries (v v' : View) (g : String → String) (all : List String) : Prop where
  missing : ∀ x ∈ all, v x = none → v' (g x) = none
  found : ∀ x ∈ all, ∀ c, v x = some c → ∃ c', v' (g x) = some c' ∧
    c'.superName = c.superName.map g ∧ c'.interfaces = c.interfaces.map g ∧
      c'.isInterface = c.isInterface
  injective : ∀ x ∈ all, ∀ y ∈ all, g x = g y → x = y

section Carries

variable {g : String → String} {all : List String}

theorem Carries.parents (h : Carries v v' g all) {x : String} (hx : x ∈ all) :
    v'.parents (g x) = (v.parents x).map g := by
  cases hName : v x with
  | none =>
    rw [View.parents, View.parents, hName, h.missing x hx hName]
    rfl
  | some c =>
    obtain ⟨c', hName', hSuper, hInterfaces, -⟩ := h.found x hx c hName
    rw [parents_of_some hName, parents_of_some hName', ClassModel.supertypes, ClassModel.supertypes,
      hSuper, hInterfaces, List.map_append]
    cases c.superName <;> rfl

theorem Carries.isInterface (h : Carries v v' g all) {x : String} (hx : x ∈ all) :
    v'.isInterface (g x) = v.isInterface x := by
  cases hName : v x with
  | none => rw [View.isInterface, View.isInterface, hName, h.missing x hx hName]
  | some c =>
    obtain ⟨c', hName', -, -, hInterface⟩ := h.found x hx c hName
    rw [View.isInterface, View.isInterface, hName, hName']
    exact hInterface

theorem Line.map {start : Option String} (h : v.Line start line) (hCarries : Carries v v' g all)
    (hStart : ∀ x ∈ start, x ∈ all) (hAll : ∀ x ∈ all, ∀ y ∈ v.parents x, y ∈ all) :
    v'.Line (start.map g) (line.map g) := by
  induction h with
  | top => exact .top
  | @missing name hName => exact .missing (hCarries.missing name (hStart name rfl) hName)
  | @step name c rest hName _ ih =>
    have hMem : name ∈ all := hStart name rfl
    obtain ⟨c', hName', hSuper, -, -⟩ := hCarries.found name hMem c hName
    refine .step hName' ?_
    rw [hSuper]
    exact ih fun parent hParent => hAll name hMem parent (superName_mem_parents hName hParent)

theorem LookupOrder.map (h : v.LookupOrder name order) (hAncestors : v.Ancestors name ancestors)
    (hCarries : Carries v v' g (name :: ancestors)) : v'.LookupOrder (g name) (order.map g) := by
  obtain ⟨as, line, hAs, hLine, rfl⟩ := h
  cases hAncestors.unique hAs
  have hTail : ∀ x ∈ ancestors, x ∈ name :: ancestors := fun x => List.mem_cons_of_mem name
  refine ⟨ancestors.map g, line.map g, ?_, ?_, ?_⟩
  · refine Sweeps.map hAncestors (fun x hx => hCarries.parents ?_)
      fun x hx y hy => hCarries.injective x (hTail x hx) y (hTail y hy)
    rcases hx with hx | hx
    · exact List.mem_singleton.mp hx ▸ List.mem_cons_self
    · exact hTail x hx
  · have hStart : ∀ x ∈ some name, x ∈ name :: ancestors := by
      rintro x ⟨⟩
      exact List.mem_cons_self
    exact hLine.map hCarries hStart hAncestors.closed
  · rw [List.map_append, List.filter_map]
    congr 2
    exact List.filter_congr fun x hx => (hCarries.isInterface (hTail x hx)).symm

theorem Grounded.carry (h : v.Grounded name) (hAncestors : v.Ancestors name ancestors)
    (hCarries : Carries v v' g (name :: ancestors)) : v'.Grounded (g name) :=
  h.map (S := fun x => x ∈ name :: ancestors) List.mem_cons_self hAncestors.closed
    fun _ hx => hCarries.parents hx

end Carries

end View

namespace Hierarchy

variable {v : View} {α β : Type}

/-- A lenient hierarchy that answers by the view `v`. -/
structure Fits (v : View) (h : Hierarchy) : Prop where
  coherent : h.Coherent
  lenient : h.strict = false
  view_eq : h.view = v

theorem Fits.extends {h h' : Hierarchy} (hh : h.Fits v) (he : h.Extends h') : h'.Fits v :=
  ⟨he.coherent, he.strict_eq.trans hh.lenient, he.view_eq.trans hh.view_eq⟩

theorem Reached.fits {classpath : ClassPath} {config : Config} {h : Hierarchy}
    (hReached : Reached classpath config h) (hLenient : config.failOnUnresolved = false) :
    h.Fits h.view := by
  obtain ⟨hc, hStrict⟩ := hReached.coherent
  exact ⟨hc, hStrict.trans hLenient, rfl⟩

theorem fits_seeded (classpath : ClassPath) {config : Config} (classes : List ClassModel)
    (hLenient : config.failOnUnresolved = false) :
    (seeded classpath config classes).Fits (seeded classpath config classes).view :=
  (reached_seeded classpath config classes).fits hLenient

/-- In a lenient hierarchy with the view `v` the question has the answer `a`. -/
def Answers (v : View) (x : Exploring α) (a : α) : Prop :=
  ∀ h : Hierarchy, h.Coherent → h.strict = false → h.view = v →
    ∃ h', x.run h = (.ok a, h') ∧ h.Extends h'

theorem answers_pure (a : α) : Answers v (pure a) a := fun h hc _ _ => ⟨h, rfl, .refl hc⟩

theorem answers_bind {x : Exploring α} {f : α → Exploring β} {a : α} {b : β} (hx : Answers v x a)
    (hf : Answers v (f a) b) : Answers v (x >>= f) b := by
  intro h hc hLenient hView
  obtain ⟨h₁, hFirst, hExtends⟩ := hx h hc hLenient hView
  obtain ⟨h₂, hSecond, hExtends'⟩ := hf h₁ hExtends.coherent (hExtends.strict_eq.trans hLenient)
    (hExtends.view_eq.trans hView)
  exact ⟨h₂, bind_run.mpr (Or.inl ⟨a, h₁, hFirst, hSecond⟩), hExtends.trans hExtends'⟩

theorem answers_lookup (name : String) : Answers v (lookup name) (v name) := by
  intro h hc hLenient hView
  obtain ⟨r, h', hRun, hExtends, hAnswer⟩ := lookup_spec hc name
  rcases hAnswer with ⟨rfl, -⟩ | ⟨hStrict, -⟩
  · rw [← hView]
    exact ⟨h', hRun, hExtends⟩
  · rw [hLenient] at hStrict
    cases hStrict

theorem answers_findSomeM? {f : String → Exploring (Option β)} {g : String → Option β}
    (hf : ∀ name, Answers v (f name) (g name)) (names : List String) :
    Answers v (names.findSomeM? f) (names.findSome? g) := by
  induction names with
  | nil => exact answers_pure none
  | cons name names ih =>
    rw [List.findSomeM?, List.findSome?_cons]
    refine answers_bind (hf name) ?_
    cases g name with
    | some b => exact answers_pure (some b)
    | none => exact ih

theorem answers_methodOnLine {method descriptor : String} {start : Option String}
    {line : List String} (hLine : v.Line start line) {fuel : Nat} (hFuel : line.length ≤ fuel) :
    Answers v (methodOnLine method descriptor fuel start)
      (v.firstDeclaring line method descriptor) := by
  induction hLine generalizing fuel with
  | top =>
    cases fuel with
    | zero => exact answers_pure none
    | succ fuel => exact answers_pure none
  | @missing name hName =>
    cases fuel with
    | zero => exact answers_pure none
    | succ fuel =>
      refine answers_bind (answers_lookup name) ?_
      rw [hName]
      exact answers_pure none
  | @step name c rest hName _ ih =>
    cases fuel with
    | zero =>
      rw [List.length_cons] at hFuel
      omega
    | succ fuel =>
      refine answers_bind (answers_lookup name) ?_
      rw [hName, View.firstDeclaring_cons hName]
      cases hDeclares : c.declares method descriptor with
      | true =>
        rw [ClassModel.declares] at hDeclares
        dsimp only
        rw [hDeclares]
        exact answers_pure (some c)
      | false =>
        rw [ClassModel.declares] at hDeclares
        dsimp only
        rw [hDeclares]
        refine ih ?_
        rw [List.length_cons] at hFuel
        omega

theorem findSome?_interfaces (names : List String) (method descriptor : String) :
    names.findSome? (fun name => (v name).bind fun c =>
      if c.isInterface && (c.findMethod method descriptor).isSome then some c else none) =
      v.firstDeclaring (names.filter v.isInterface) method descriptor := by
  induction names with
  | nil => rfl
  | cons name names ih =>
    rw [List.findSome?_cons, ih, List.filter_cons]
    cases hName : v name with
    | none => simp [View.isInterface, hName]
    | some c =>
      cases hInterface : c.isInterface with
      | false => simp [View.isInterface, hName, hInterface]
      | true =>
        rw [View.isInterface, hName, Option.any_some, hInterface, if_pos rfl,
          View.firstDeclaring_cons hName, ClassModel.declares]
        cases hDeclares : (c.findMethod method descriptor).isSome <;> simp [hInterface, hDeclares]

theorem answers_ancestorsOf {name : String} {ancestors : List String} (hGrounded : v.Grounded name)
    (hAncestors : v.Ancestors name ancestors) : Answers v (ancestorsOf name) ancestors := by
  intro h hc hLenient hView
  obtain ⟨r, h', hRun, hExtends, hAnswer⟩ := ancestorsOf_spec hc name
  rw [hView] at hAnswer
  rcases hAnswer with ⟨as, rfl, -, hListed, -⟩ | ⟨_, -, hCycle⟩ | ⟨hStrict, -⟩
  · cases hAncestors.unique hListed
    exact ⟨h', hRun, hExtends⟩
  · exact absurd hGrounded hCycle
  · rw [hLenient] at hStrict
    cases hStrict

/-- The class whose declaration a reference means is the first in order that declares the method. -/
theorem answers_methodOwner {reference : MemberKey} {order : List String}
    (hGrounded : v.Grounded reference.owner) (hOrder : v.LookupOrder reference.owner order) :
    Answers v (methodOwner reference)
      (v.firstDeclaring order reference.name reference.descriptor) := by
  obtain ⟨ancestors, line, hAncestors, hLine, rfl⟩ := hOrder
  rw [View.firstDeclaring_append]
  have hAsk := answers_ancestorsOf hGrounded hAncestors
  refine answers_bind hAsk (answers_bind (answers_methodOnLine hLine
    (hLine.length_le hGrounded hAncestors)) ?_)
  cases v.firstDeclaring line reference.name reference.descriptor with
  | some c => exact answers_pure (some c)
  | none =>
    rw [Option.none_or, ← findSome?_interfaces]
    refine answers_findSomeM? (fun name => answers_bind (answers_lookup name) ?_) ancestors
    cases v name with
    | none => exact answers_pure none
    | some c => exact answers_pure _

theorem exists_lookupOrder {h : Hierarchy} (hc : h.Coherent) (hLenient : h.strict = false)
    {name : String} (hGrounded : h.view.Grounded name) : ∃ order, h.view.LookupOrder name order := by
  obtain ⟨line, hLine⟩ := hGrounded.exists_line
  obtain ⟨r, h', -, -, hAnswer⟩ := ancestorsOf_spec hc name
  rcases hAnswer with ⟨as, -, -, hListed, -⟩ | ⟨through, -, hCycle⟩ | ⟨hStrict, -⟩
  · exact ⟨_, as, line, hListed, hLine, rfl⟩
  · exact absurd hGrounded hCycle
  · rw [hLenient] at hStrict
    cases hStrict

theorem answers_methodOwner_self {h : Hierarchy} (hc : h.Coherent) (hLenient : h.strict = false)
    {reference : MemberKey} {c : ClassModel} (hGrounded : h.view.Grounded reference.owner)
    (hView : h.view reference.owner = some c)
    (hDeclares : c.declares reference.name reference.descriptor = true) :
    Answers h.view (methodOwner reference) (some c) := by
  obtain ⟨order, as, line, hListed, hLine, rfl⟩ := exists_lookupOrder hc hLenient hGrounded
  have hAnswer := answers_methodOwner hGrounded ⟨as, line, hListed, hLine, rfl⟩
  cases hLine with
  | missing hNone =>
    rw [hView] at hNone
    cases hNone
  | step hSome _ =>
    rw [hView] at hSome
    cases hSome
    rwa [List.cons_append, View.firstDeclaring_cons hView, if_pos hDeclares] at hAnswer

/-- A class without an order to search in has a cycle above it. -/
theorem methodOwner_spec {h : Hierarchy} (hc : h.Coherent) (hLenient : h.strict = false)
    (reference : MemberKey) :
    (∃ order h', h.view.Grounded reference.owner ∧ h.view.LookupOrder reference.owner order ∧
      (methodOwner reference).run h =
        (.ok (h.view.firstDeclaring order reference.name reference.descriptor), h') ∧
        h.Extends h') ∨
      ∃ through h', (methodOwner reference).run h = (.error (.hierarchyCycle through), h') ∧
        h.Extends h' := by
  obtain ⟨r, h', hRun, hExtends, hAnswer⟩ := ancestorsOf_spec hc reference.owner
  rcases hAnswer with ⟨as, rfl, hGrounded, -⟩ | ⟨through, rfl, -⟩ | ⟨hStrict, -⟩
  · obtain ⟨order, hOrder⟩ := exists_lookupOrder hc hLenient hGrounded
    obtain ⟨h₁, hAsk, hExtends₁⟩ := answers_methodOwner hGrounded hOrder h hc hLenient rfl
    exact Or.inl ⟨_, h₁, hGrounded, hOrder, hAsk, hExtends₁⟩
  · exact Or.inr ⟨through, h', bind_run.mpr (Or.inr ⟨_, hRun, rfl⟩), hExtends⟩
  · rw [hLenient] at hStrict
    cases hStrict

end Hierarchy

end Renaming
