import Mathlib.Data.List.Forall2

/-!
# Successful runs

When a computation that can fail succeeds, so has each of its steps. The lemmas take a success
apart in this way, first for plain computations, then for those that carry a state, and last for
those whose state outlives a failure.
-/

namespace Renaming.Outcome

variable {ε α β : Type}

theorem bind_eq_ok {x : Except ε α} {f : α → Except ε β} {b : β} :
    (x >>= f) = .ok b ↔ ∃ a, x = .ok a ∧ f a = .ok b := by
  cases x with
  | error e => simp [bind, Except.bind]
  | ok a => simp [bind, Except.bind]

@[simp] theorem ok_bind {a : α} {f : α → Except ε β} : (Except.ok a >>= f) = f a := rfl

@[simp] theorem error_bind {e : ε} {f : α → Except ε β} :
    ((Except.error e : Except ε α) >>= f) = .error e := rfl

theorem bind_eq_error {x : Except ε α} {f : α → Except ε β} {e : ε} :
    (x >>= f) = .error e ↔ x = .error e ∨ ∃ a, x = .ok a ∧ f a = .error e := by
  cases x with
  | error e => simp [bind, Except.bind]
  | ok a => simp [bind, Except.bind]

theorem map_eq_ok {x : Except ε α} {g : α → β} {b : β} :
    (g <$> x) = .ok b ↔ ∃ a, x = .ok a ∧ g a = b := by
  cases x with
  | error e => simp [Functor.map, Except.map]
  | ok a => simp [Functor.map, Except.map]

theorem pure_eq_ok {a b : α} : (pure a : Except ε α) = .ok b ↔ a = b := by
  simp [pure, Except.pure]

theorem exists_of_isSome {x : Except ε α} (h : x.toOption.isSome = true) : ∃ a, x = .ok a := by
  cases x with
  | error e => cases h
  | ok a => exact ⟨a, rfl⟩

theorem mapM_eq_ok {f : α → Except ε β} {as : List α} {bs : List β} :
    as.mapM f = .ok bs ↔ List.Forall₂ (fun a b => f a = .ok b) as bs := by
  induction as generalizing bs with
  | nil =>
    rw [List.mapM_nil, pure_eq_ok, List.forall₂_nil_left_iff]
    exact eq_comm
  | cons a as ih =>
    rw [List.mapM_cons]
    simp only [bind_eq_ok, pure_eq_ok, ih, List.forall₂_cons_left_iff]
    constructor
    · rintro ⟨b, hb, bs, hbs, rfl⟩
      exact ⟨b, bs, hb, hbs, rfl⟩
    · rintro ⟨b, bs, hb, hbs, rfl⟩
      exact ⟨b, hb, bs, hbs, rfl⟩

theorem exists_of_mem {R : α → β → Prop} {as : List α} {bs : List β} (h : List.Forall₂ R as bs) :
    ∀ b ∈ bs, ∃ a ∈ as, R a b := by
  induction h with
  | nil => simp
  | @cons a b as bs hHead _ ih =>
    refine List.forall_mem_cons.mpr ⟨⟨a, List.mem_cons_self, hHead⟩, fun b' hb' => ?_⟩
    obtain ⟨a', ha', h'⟩ := ih b' hb'
    exact ⟨a', List.mem_cons_of_mem a ha', h'⟩

theorem exists_of_mapM_eq_error {f : α → Except ε β} {as : List α} {e : ε}
    (h : as.mapM f = .error e) : ∃ a ∈ as, f a = .error e := by
  induction as with
  | nil => cases h
  | cons a as ih =>
    rw [List.mapM_cons] at h
    rcases bind_eq_error.mp h with hHead | ⟨b, -, hTail⟩
    · exact ⟨a, List.mem_cons_self, hHead⟩
    rcases bind_eq_error.mp hTail with hTail | ⟨_, -, hDone⟩
    · obtain ⟨a', ha', hFails⟩ := ih hTail
      exact ⟨a', List.mem_cons_of_mem _ ha', hFails⟩
    · cases hDone

theorem foldlM_eq_error {f : β → α → Except ε β} {as : List α} {b : β} {e : ε}
    (h : as.foldlM f b = .error e) : ∃ b', ∃ a ∈ as, f b' a = .error e := by
  induction as generalizing b with
  | nil => cases h
  | cons a as ih =>
    rw [List.foldlM_cons] at h
    cases hHead : f b a with
    | error e' =>
      rw [hHead] at h
      cases h
      exact ⟨b, a, List.mem_cons_self, hHead⟩
    | ok b' =>
      rw [hHead] at h
      obtain ⟨b'', a', ha', h'⟩ := ih h
      exact ⟨b'', a', List.mem_cons_of_mem a ha', h'⟩

theorem exists_foldlM_eq_ok {f : β → α → Except ε β} {as : List α}
    (h : ∀ b, ∀ a ∈ as, ∃ b', f b a = .ok b') (b : β) : ∃ b', as.foldlM f b = .ok b' := by
  induction as generalizing b with
  | nil => exact ⟨b, rfl⟩
  | cons a as ih =>
    obtain ⟨hHead, hTail⟩ := List.forall_mem_cons.mp (fun a ha b => h b a ha)
    obtain ⟨b', hb'⟩ := hHead b
    rw [List.foldlM_cons, hb']
    exact ih (fun b a ha => hTail a ha b) b'

theorem foldlM_invariant {P : β → Prop} {f : β → α → Except ε β}
    (hf : ∀ b a b', P b → f b a = .ok b' → P b') {as : List α} {b b' : β} (hb : P b)
    (h : as.foldlM f b = .ok b') : P b' := by
  induction as generalizing b with
  | nil =>
    cases h
    exact hb
  | cons a as ih =>
    rw [List.foldlM_cons] at h
    obtain ⟨b₁, hHead, hTail⟩ := bind_eq_ok.mp h
    exact ih (hf b a b₁ hb hHead) hTail

end Renaming.Outcome

namespace Renaming.Stateful

variable {σ ε α β : Type}

theorem bind_eq_ok {x : StateT σ (Except ε) α} {f : α → StateT σ (Except ε) β} {s t : σ} {b : β} :
    (x >>= f) s = .ok (b, t) ↔ ∃ a r, x s = .ok (a, r) ∧ f a r = .ok (b, t) := by
  change (x s >>= fun p => f p.1 p.2) = _ ↔ _
  rw [Outcome.bind_eq_ok]
  constructor
  · rintro ⟨⟨a, r⟩, hx, hf⟩
    exact ⟨a, r, hx, hf⟩
  · rintro ⟨a, r, hx, hf⟩
    exact ⟨(a, r), hx, hf⟩

theorem bind_eq_error {x : StateT σ (Except ε) α} {f : α → StateT σ (Except ε) β} {s : σ} {e : ε} :
    (x >>= f) s = .error e ↔ x s = .error e ∨ ∃ a r, x s = .ok (a, r) ∧ f a r = .error e := by
  change (x s >>= fun p => f p.1 p.2) = _ ↔ _
  rw [Outcome.bind_eq_error, Prod.exists]

theorem pure_eq_ok {a b : α} {s t : σ} :
    (pure a : StateT σ (Except ε) α) s = .ok (b, t) ↔ b = a ∧ t = s := by
  change (Except.ok (a, s) : Except ε (α × σ)) = _ ↔ _
  rw [Except.ok.injEq, Prod.mk.injEq, eq_comm, @eq_comm _ s]

theorem map_eq_ok {x : StateT σ (Except ε) α} {g : α → β} {s t : σ} {b : β} :
    (g <$> x) s = .ok (b, t) ↔ ∃ a, x s = .ok (a, t) ∧ b = g a := by
  rw [map_eq_pure_bind, bind_eq_ok]
  simp only [pure_eq_ok]
  constructor
  · rintro ⟨a, r, hx, rfl, rfl⟩
    exact ⟨a, hx, rfl⟩
  · rintro ⟨a, hx, rfl⟩
    exact ⟨a, t, hx, rfl, rfl⟩

theorem lift_eq_ok {x : Except ε α} {a : α} {s t : σ} :
    (liftM x : StateT σ (Except ε) α) s = .ok (a, t) ↔ x = .ok a ∧ t = s := by
  change (x >>= fun a => Except.ok (a, s)) = _ ↔ _
  rw [Outcome.bind_eq_ok]
  simp only [Except.ok.injEq, Prod.mk.injEq]
  constructor
  · rintro ⟨_, hx, rfl, rfl⟩
    exact ⟨hx, rfl⟩
  · rintro ⟨hx, rfl⟩
    exact ⟨a, hx, rfl, rfl⟩

theorem throw_ne_ok {e : ε} {a : α} {s t : σ} :
    (throw e : StateT σ (Except ε) α) s ≠ .ok (a, t) := by
  intro h
  cases h

theorem get_bind_apply {f : σ → StateT σ (Except ε) α} {s : σ} : (get >>= f) s = f s s := rfl

theorem throw_bind {e : ε} {f : α → StateT σ (Except ε) β} : (throw e >>= f) = throw e := rfl

theorem mapM_lift_eq_ok {f : α → Except ε β} {as : List α} {bs : List β} {s t : σ} :
    (as.mapM fun a => (liftM (f a) : StateT σ (Except ε) β)) s = .ok (bs, t) ↔
      List.Forall₂ (fun a b => f a = .ok b) as bs ∧ t = s := by
  induction as generalizing bs s t with
  | nil =>
    rw [List.mapM_nil, pure_eq_ok, List.forall₂_nil_left_iff]
  | cons a as ih =>
    rw [List.mapM_cons]
    simp only [bind_eq_ok, pure_eq_ok, lift_eq_ok, ih, List.forall₂_cons_left_iff]
    constructor
    · rintro ⟨b, _, ⟨hb, rfl⟩, bs, _, ⟨hbs, rfl⟩, rfl, rfl⟩
      exact ⟨⟨b, bs, hb, hbs, rfl⟩, rfl⟩
    · rintro ⟨⟨b, bs, hb, hbs, rfl⟩, rfl⟩
      exact ⟨b, _, ⟨hb, rfl⟩, bs, _, ⟨hbs, rfl⟩, rfl, rfl⟩

end Renaming.Stateful

namespace Renaming.Effectful

variable {σ ε α β : Type}

theorem lift_run {x : Except ε α} {s : σ} :
    (liftM x : ExceptT ε (StateM σ) α).run s = (x, s) := by
  cases x <;> rfl

theorem get_bind_run {f : σ → ExceptT ε (StateM σ) α} {s : σ} :
    (get >>= f).run s = (f s).run s := rfl

/-- A sequence of two steps either takes both or stops at the first. -/
theorem bind_run {x : ExceptT ε (StateM σ) α} {f : α → ExceptT ε (StateM σ) β} {s t : σ}
    {r : Except ε β} : (x >>= f).run s = (r, t) ↔
      (∃ a s', x.run s = (.ok a, s') ∧ (f a).run s' = (r, t)) ∨
        ∃ e, x.run s = (.error e, t) ∧ r = .error e := by
  have hRun : (x >>= f).run s = match x.run s with
      | (.ok a, s') => (f a).run s'
      | (.error e, s') => (.error e, s') := by
    change (match x.run s with | (r, s') => (ExceptT.bindCont f r) s') = _
    cases hx : x.run s with
    | mk r s' =>
      cases r with
      | ok a => rfl
      | error e => rfl
  rw [hRun]
  cases hx : x.run s with
  | mk r' s' =>
    cases r' with
    | ok a =>
      constructor
      · exact fun h => Or.inl ⟨a, s', rfl, h⟩
      · rintro (⟨a', s'', hEq, h⟩ | ⟨e, hEq, -⟩)
        · cases hEq
          exact h
        · cases hEq
    | error e =>
      constructor
      · intro h
        cases h
        exact Or.inr ⟨e, rfl, rfl⟩
      · rintro (⟨a', s'', hEq, -⟩ | ⟨e', hEq, rfl⟩)
        · cases hEq
        · cases hEq
          rfl

theorem bind_run_of_ok {x : ExceptT ε (StateM σ) α} {f : α → ExceptT ε (StateM σ) β} {a : α}
    {s s' : σ} (hx : x.run s = (.ok a, s')) : (x >>= f).run s = (f a).run s' :=
  bind_run.mpr (Or.inl ⟨a, s', hx, rfl⟩)

theorem bind_run_of_error {x : ExceptT ε (StateM σ) α} {f : α → ExceptT ε (StateM σ) β} {e : ε}
    {s s' : σ} (hx : x.run s = (.error e, s')) : (x >>= f).run s = (.error e, s') :=
  bind_run.mpr (Or.inr ⟨e, hx, rfl⟩)

theorem bind_run_congr {x y : ExceptT ε (StateM σ) α} {f g : α → ExceptT ε (StateM σ) β} {s : σ}
    (hFirst : x.run s = y.run s) (hSecond : ∀ a t, y.run s = (.ok a, t) → (f a).run t = (g a).run t) :
    (x >>= f).run s = (y >>= g).run s := by
  rcases hRun : y.run s with ⟨r, t⟩
  rw [hRun] at hFirst
  cases r with
  | ok a => rw [bind_run_of_ok hFirst, bind_run_of_ok hRun, hSecond a t hRun]
  | error e => rw [bind_run_of_error hFirst, bind_run_of_error hRun]

theorem mapM_cons_run {f : α → ExceptT ε (StateM σ) β} {a : α} {as : List α} {bs : List β} {s t : σ} :
    ((a :: as).mapM f).run s = (.ok bs, t) ↔ ∃ b s' bs', (f a).run s = (.ok b, s') ∧
      (as.mapM f).run s' = (.ok bs', t) ∧ bs = b :: bs' := by
  rw [List.mapM_cons]
  constructor
  · intro hRun
    rcases bind_run.mp hRun with ⟨b, s', hHead, hTail⟩ | ⟨e, -, hEq⟩
    · rcases bind_run.mp hTail with ⟨bs', t', hRest, hLast⟩ | ⟨e, -, hEq⟩
      · cases hLast
        exact ⟨b, s', bs', hHead, hRest, rfl⟩
      · cases hEq
    · cases hEq
  · rintro ⟨b, s', bs', hHead, hRest, rfl⟩
    rw [bind_run_of_ok hHead, bind_run_of_ok hRest]
    rfl

theorem length_of_mapM {f : α → ExceptT ε (StateM σ) β} {as : List α} {bs : List β} {s t : σ}
    (hRun : (as.mapM f).run s = (.ok bs, t)) : bs.length = as.length := by
  induction as generalizing bs s with
  | nil =>
    cases hRun
    rfl
  | cons a as ih =>
    obtain ⟨b, s', bs', -, hRest, rfl⟩ := mapM_cons_run.mp hRun
    rw [List.length_cons, List.length_cons, ih hRest]

/-- Step `i` of a list of steps runs where those before it have ended. -/
theorem run_of_mapM {f : α → ExceptT ε (StateM σ) β} {as : List α} {bs : List β} {s t : σ}
    (hRun : (as.mapM f).run s = (.ok bs, t)) {i : Nat} {a : α} {b : β} (ha : as[i]? = some a)
    (hb : bs[i]? = some b) :
    ∃ s₁ s₂, ((as.take i).mapM f).run s = (.ok (bs.take i), s₁) ∧ (f a).run s₁ = (.ok b, s₂) := by
  induction as generalizing i bs s with
  | nil => cases ha
  | cons a' as ih =>
    obtain ⟨b', s', bs', hHead, hRest, rfl⟩ := mapM_cons_run.mp hRun
    cases i with
    | zero =>
      cases ha
      cases hb
      exact ⟨s, s', rfl, hHead⟩
    | succ i =>
      obtain ⟨s₁, s₂, hBefore, hStep⟩ := ih hRest ha hb
      exact ⟨s₁, s₂, mapM_cons_run.mpr ⟨b', s', _, hHead, hBefore, rfl⟩, hStep⟩

/-- A step with a handler either succeeds by itself or leaves the rest to the handler. -/
theorem tryCatch_run {x : ExceptT ε (StateM σ) α} {f : ε → ExceptT ε (StateM σ) α} {s t : σ}
    {r : Except ε α} : (tryCatch x f).run s = (r, t) ↔
      (∃ a, x.run s = (.ok a, t) ∧ r = .ok a) ∨
        ∃ e s', x.run s = (.error e, s') ∧ (f e).run s' = (r, t) := by
  have hStep : ∀ {r' s'}, x.run s = (r', s') → (tryCatch x f).run s =
      Except.casesOn r' (fun e => (f e).run s') fun a => (Except.ok a, s') := by
    intro r' s' hx
    have hBind : ∀ {β γ : Type} (y : StateM σ β) (g : β → StateM σ γ),
        (y >>= g) s = g (y s).1 (y s).2 := fun _ _ => rfl
    rw [ExceptT.run_tryCatch, hBind, hx]
    cases r' <;> rfl
  cases hx : x.run s with
  | mk r' s' =>
    rw [hStep hx]
    cases r' with
    | ok a =>
      constructor
      · intro h
        cases h
        exact Or.inl ⟨a, rfl, rfl⟩
      · rintro (⟨a', hEq, rfl⟩ | ⟨e, s'', hEq, -⟩)
        · cases hEq
          rfl
        · cases hEq
    | error e =>
      constructor
      · exact fun h => Or.inr ⟨e, s', rfl, h⟩
      · rintro (⟨a', hEq, -⟩ | ⟨e', s'', hEq, h⟩)
        · cases hEq
        · cases hEq
          exact h

end Renaming.Effectful
