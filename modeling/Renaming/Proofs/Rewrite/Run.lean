import Renaming.Proofs.Hierarchy.Coherent
import Renaming.Rewrite.Class

/-!
# What a step of a rewriting yields

A step may find out about classes and note diagnostics, also if it fails. Its result is only worth
something if none of the diagnostics is a bad one, since what is noted is often what was not
rewritten. The rules below follow the way in which steps are put together; an invariant of the
hierarchy goes through all of them.
-/

namespace Renaming

open Effectful

namespace Rewriting

variable {I : Hierarchy → Prop} {Bad : Diagnostic → Prop} {α β γ : Type}

/-- Nothing bad was noted so far. -/
def Clean (Bad : Diagnostic → Prop) (s : RewriteState) : Prop :=
  ∀ d ∈ s.newestDiagnostics, ¬ Bad d

/-- The step keeps the invariant and all diagnostics, and its result satisfies `R` if it succeeds
and nothing bad is noted. -/
def Yields (I : Hierarchy → Prop) (Bad : Diagnostic → Prop) (x : Rewriting α) (R : α → Prop) :
    Prop :=
  ∀ s, I s.hierarchy → ∀ r s', x.run s = (r, s') →
    I s'.hierarchy ∧ s.newestDiagnostics <:+ s'.newestDiagnostics ∧
      ∀ a, r = .ok a → Clean Bad s' → R a

theorem Clean.of_suffix {s s' : RewriteState} (h : Clean Bad s')
    (hSuffix : s.newestDiagnostics <:+ s'.newestDiagnostics) : Clean Bad s :=
  fun d hd => h d (hSuffix.subset hd)

variable {x : Rewriting α} {f : α → Rewriting β} {P : α → Prop} {R : β → Prop}

theorem Yields.mono {Q : α → Prop} (h : Yields I Bad x P) (hPQ : ∀ a, P a → Q a) :
    Yields I Bad x Q := by
  intro s hs r s' hRun
  obtain ⟨hI, hSuffix, hResult⟩ := h s hs r s' hRun
  exact ⟨hI, hSuffix, fun a ha hClean => hPQ a (hResult a ha hClean)⟩

theorem yields_pure {a : α} (h : P a) : Yields I Bad (pure a) P := by
  intro s hs r s' hRun
  cases hRun
  refine ⟨hs, List.suffix_rfl, fun b hb _ => ?_⟩
  cases hb
  exact h

theorem yields_throw {e : Failure} : Yields I Bad (throw e : Rewriting α) P := by
  intro s hs r s' hRun
  cases hRun
  refine ⟨hs, List.suffix_rfl, fun b hb _ => ?_⟩
  cases hb

/-- What the first step yields may be used for the result of the second one, but the second one has
to be sound without it. -/
theorem yields_bind (hx : Yields I Bad x P) (hf : ∀ a, Yields I Bad (f a) fun b => P a → R b) :
    Yields I Bad (x >>= f) R := by
  intro s hs r s' hRun
  rcases bind_run.mp hRun with ⟨a, s₁, hFirst, hSecond⟩ | ⟨e, hFirst, rfl⟩
  · obtain ⟨hs₁, hSuffix, hResult⟩ := hx s hs _ _ hFirst
    obtain ⟨hs', hSuffix', hResult'⟩ := hf a s₁ hs₁ r s' hSecond
    refine ⟨hs', hSuffix.trans hSuffix', fun b hb hClean => ?_⟩
    exact hResult' b hb hClean (hResult a rfl (hClean.of_suffix hSuffix'))
  · obtain ⟨hs', hSuffix, -⟩ := hx s hs _ _ hFirst
    exact ⟨hs', hSuffix, fun b hb => by cases hb⟩

theorem yields_map {g : α → β} (hx : Yields I Bad x P) (hg : ∀ a, P a → R (g a)) :
    Yields I Bad (x >>= fun a => pure (g a)) R :=
  yields_bind hx fun a => yields_pure (hg a)

theorem yields_mapM {f : α → Rewriting β} {Q : α → β → Prop} {as : List α}
    (hf : ∀ a ∈ as, Yields I Bad (f a) (Q a)) :
    Yields I Bad (as.mapM f) (List.Forall₂ Q as) := by
  induction as with
  | nil =>
    rw [List.mapM_nil]
    exact yields_pure .nil
  | cons a as ih =>
    obtain ⟨hHead, hTail⟩ := List.forall_mem_cons.mp hf
    rw [List.mapM_cons]
    refine yields_bind hHead fun b => yields_map (ih hTail) fun bs hbs hb => ?_
    exact .cons hb hbs

theorem yields_optionMapM {f : α → Rewriting β} {Q : α → β → Prop} (o : Option α)
    (hf : ∀ a, Yields I Bad (f a) (Q a)) : Yields I Bad (o.mapM f) (Option.Rel Q o) := by
  cases o with
  | none => exact yields_pure .none
  | some a =>
    change Yields I Bad (some <$> f a) _
    rw [map_eq_pure_bind]
    exact yields_map (hf a) fun _ h => .some h

theorem yields_note_bind {d : Diagnostic} {a : α} (h : Bad d ∨ P a) :
    Yields I Bad (note d >>= fun _ => pure a) P := by
  intro s hs r s' hRun
  cases hRun
  refine ⟨hs, List.suffix_cons d _, fun b hb hClean => ?_⟩
  cases hb
  exact h.resolve_left (hClean d List.mem_cons_self)

/-- That a descriptor made a step fail is noted; unless this is bad, what is kept is a result. -/
theorem yields_orKeep {old : α} (hOld : ∀ member text, Bad (.memberKept member text) ∨ P old)
    (hx : Yields I Bad x P) : Yields I Bad (orKeep old x) P := by
  intro s hs r s' hRun
  rcases tryCatch_run.mp hRun with ⟨a, hStep, rfl⟩ | ⟨e, s₁, hStep, hHandler⟩
  · exact hx s hs _ _ hStep
  · obtain ⟨hs₁, hSuffix, -⟩ := hx s hs _ _ hStep
    obtain ⟨hs', hSuffix', hResult⟩ : I s'.hierarchy ∧
        s₁.newestDiagnostics <:+ s'.newestDiagnostics ∧ ∀ a, r = .ok a → Clean Bad s' → P a := by
      cases e with
      | descriptor member text => exact yields_note_bind (hOld member text) s₁ hs₁ r s' hHandler
      | _ => exact yields_throw s₁ hs₁ r s' hHandler
    exact ⟨hs', hSuffix.trans hSuffix', hResult⟩

theorem yields_ask {q : Exploring α}
    (hq : ∀ h, I h → I (q.run h).2 ∧ ∀ a, (q.run h).1 = .ok a → P a) :
    Yields I Bad (ask q) P := by
  intro s hs r s' hRun
  cases hRun
  obtain ⟨hI, hAnswer⟩ := hq s.hierarchy hs
  exact ⟨hI, List.suffix_rfl, fun a ha _ => hAnswer a ha⟩

theorem yields_askDeclaration {q : Exploring (Option ClassModel)} {P : Option ClassModel → Prop}
    (hq : ∀ h, I h → I (q.run h).2 ∧ (∀ c, (q.run h).1 = .ok c → P c) ∧
      ∀ through, (q.run h).1 = .error (.hierarchyCycle through) → P none) :
    Yields I Bad (askDeclaration q) P := by
  intro s hs r s' hRun
  obtain ⟨hI, hAnswer, hCycle⟩ := hq s.hierarchy hs
  change askDeclaration q s = _ at hRun
  rw [askDeclaration] at hRun
  split at hRun
  · rename_i through h' hAsk
    rw [hAsk] at hI hCycle
    cases hRun
    refine ⟨hI, List.suffix_rfl, fun c hc _ => ?_⟩
    cases hc
    exact hCycle through rfl
  · rename_i answer h' _ hAsk
    rw [hAsk] at hI hAnswer
    cases hRun
    exact ⟨hI, List.suffix_rfl, fun c hc _ => hAnswer c hc⟩

/-- Whenever the step has a result, this satisfies `P`. -/
def Returns (x : Rewriting α) (P : α → Prop) : Prop :=
  ∀ s a s', x.run s = (.ok a, s') → P a

theorem Returns.mono {Q : α → Prop} (h : Returns x P) (hPQ : ∀ a, P a → Q a) : Returns x Q :=
  fun s a s' hRun => hPQ a (h s a s' hRun)

theorem returns_true : Returns x fun _ => True := fun _ _ _ _ => trivial

theorem returns_pure {a : α} (h : P a) : Returns (pure a) P := by
  intro s b s' hRun
  cases hRun
  exact h

theorem returns_throw {e : Failure} : Returns (throw e : Rewriting α) P := by
  intro s a s' hRun
  cases hRun

theorem returns_bind (hx : Returns x P) (hf : ∀ a, P a → Returns (f a) R) :
    Returns (x >>= f) R := by
  intro s b s' hRun
  rcases bind_run.mp hRun with ⟨a, s₁, hFirst, hSecond⟩ | ⟨e, -, hFails⟩
  · exact hf a (hx s a s₁ hFirst) s₁ b s' hSecond
  · cases hFails

theorem returns_map {g : α → β} (hx : Returns x P) (hg : ∀ a, P a → R (g a)) :
    Returns (x >>= fun a => pure (g a)) R :=
  returns_bind hx fun a ha => returns_pure (hg a ha)

theorem returns_mapM {f : α → Rewriting β} {Q : α → β → Prop} {as : List α}
    (hf : ∀ a ∈ as, Returns (f a) (Q a)) : Returns (as.mapM f) (List.Forall₂ Q as) := by
  induction as with
  | nil =>
    rw [List.mapM_nil]
    exact returns_pure .nil
  | cons a as ih =>
    obtain ⟨hHead, hTail⟩ := List.forall_mem_cons.mp hf
    rw [List.mapM_cons]
    exact returns_bind hHead fun b hb => returns_map (ih hTail) fun bs hbs => .cons hb hbs

theorem returns_optionMapM {f : α → Rewriting β} {Q : α → β → Prop} {o : Option α}
    (hf : ∀ a ∈ o, Returns (f a) (Q a)) : Returns (o.mapM f) (Option.Rel Q o) := by
  cases o with
  | none => exact returns_pure .none
  | some a =>
    change Returns (some <$> f a) _
    rw [map_eq_pure_bind]
    exact returns_map (hf a rfl) fun _ h => .some h

theorem returns_orKeep {old : α} (hOld : P old) (hx : Returns x P) : Returns (orKeep old x) P := by
  intro s a s' hRun
  rcases tryCatch_run.mp hRun with ⟨b, hStep, hEq⟩ | ⟨e, s₁, -, hHandler⟩
  · cases hEq
    exact hx s a s' hStep
  · cases e with
    | descriptor member text =>
      cases hHandler
      exact hOld
    | _ => cases hHandler

end Rewriting

theorem Site.returns_name (s : Site) (c : ClassModel) :
    Rewriting.Returns (s.rewriteClass c) fun c' => c'.name = s.className c.name :=
  Rewriting.returns_bind Rewriting.returns_true fun _ _ =>
    Rewriting.returns_bind Rewriting.returns_true fun _ _ =>
      Rewriting.returns_map Rewriting.returns_true fun _ _ => rfl

namespace Renamer

def siteOf (r : Renamer) (c : ClassModel) : Site := ⟨r, c.name, c.bootstrapMethods, c.name⟩

/-- A class is rewritten at its own site, starting without diagnostics. -/
theorem rewrite_eq_ok {r : Renamer} {c : ClassModel} {h h' : Hierarchy} {w : Rewritten} :
    (r.rewrite c).run h = (.ok w, h') ↔ r.groups.cyclic[c.name]? = none ∧
      ∃ notes, ((r.siteOf c).rewriteClass c).run ⟨h, []⟩ = (.ok w.model, ⟨h', notes⟩) ∧
        w.diagnostics = notes.reverse := by
  change r.rewrite c h = _ ↔ _
  rw [rewrite]
  cases r.groups.cyclic[c.name]? with
  | some through =>
    constructor
    · intro hEq
      cases hEq
    · rintro ⟨hNone, -⟩
      cases hNone
  | none =>
    dsimp only
    rw [← siteOf]
    rcases ((r.siteOf c).rewriteClass c).run ⟨h, []⟩ with ⟨o, ⟨h₁, notes⟩⟩
    constructor
    · intro hEq
      cases o with
      | error e => cases hEq
      | ok model =>
        cases hEq
        exact ⟨rfl, notes, rfl, rfl⟩
    · rintro ⟨-, notes', hEq, hNotes⟩
      obtain ⟨rewritten, diagnostics⟩ := w
      cases hEq
      cases hNotes
      rfl

theorem name_of_rewrite {r : Renamer} {c : ClassModel} {h h' : Hierarchy} {w : Rewritten}
    (hRun : (r.rewrite c).run h = (.ok w, h')) : w.model.name = r.className c.name := by
  obtain ⟨-, notes, hClass, -⟩ := rewrite_eq_ok.mp hRun
  exact (r.siteOf c).returns_name c _ _ _ hClass

end Renamer

end Renaming
