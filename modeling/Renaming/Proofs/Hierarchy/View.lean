import Mathlib.Data.List.Perm.Subperm
import Mathlib.Logic.Relation
import Renaming.Hierarchy
import Renaming.Proofs.Outcome

/-!
# Hierarchies as functions

A view tells for every name which class it belongs to, if any. The searches of a hierarchy are
restated here as functions of a view, without the loading. A class is grounded if no path upward
from it goes on forever, and a visit that may go deep enough succeeds exactly on grounded classes.
The order in which ancestors are found is given by a relation that has no bound on the number of
steps.
-/

namespace Renaming

/-- Which class each name belongs to. -/
abbrev View := String → Option ClassModel

namespace View

variable {v v' : View} {name : String}

def parents (v : View) (name : String) : List String := (v name).elim [] ClassModel.supertypes

theorem parents_of_some {c : ClassModel} (h : v name = some c) : v.parents name = c.supertypes := by
  rw [parents, h]
  rfl

theorem parents_of_none (h : v name = none) : v.parents name = [] := by
  rw [parents, h]
  rfl

/-- Every way up from the class comes to an end. -/
def Grounded (v : View) (name : String) : Prop :=
  Acc (fun parent child => parent ∈ v.parents child) name

theorem grounded_of_parents (h : ∀ parent ∈ v.parents name, v.Grounded parent) :
    v.Grounded name := .intro name h

theorem Grounded.parent {parent : String} (h : v.Grounded name)
    (hParent : parent ∈ v.parents name) : v.Grounded parent := h.inv hParent

/-- A part of a hierarchy that another one repeats under other names is as grounded there. -/
theorem Grounded.map {S : String → Prop} {g : String → String} (h : v.Grounded name) (hName : S name)
    (hClosed : ∀ x, S x → ∀ y ∈ v.parents x, S y)
    (hParents : ∀ x, S x → v'.parents (g x) = (v.parents x).map g) : v'.Grounded (g name) := by
  induction h with
  | intro name _ ih =>
    refine grounded_of_parents fun parent hParent => ?_
    rw [hParents name hName] at hParent
    obtain ⟨x, hx, rfl⟩ := List.mem_map.mp hParent
    exact ih x hx (hClosed name hName x hx)

/-- `b` can be reached from `a` by going up at least once. -/
def Above (v : View) (b a : String) : Prop :=
  Relation.TransGen (fun parent child => parent ∈ v.parents child) b a

theorem Grounded.not_above_self (h : v.Grounded name) : ¬ v.Above name name := by
  have hAcc := h.transGen
  induction hAcc with
  | intro name _ ih => exact fun hAbove => ih name hAbove (h.inv_of_transGen hAbove) hAbove

def visit (v : View) : (fuel : Nat) → (path : List String) → (done : Std.HashSet String) →
    (name : String) → Except Failure (Std.HashSet String)
  | 0, _, _, name => .error (.hierarchyCycle name)
  | fuel + 1, path, done, name =>
    if done.contains name then .ok done
    else if path.contains name then .error (.hierarchyCycle name)
    else match v name with
      | none => .ok (done.insert name)
      | some c => do
        let done ← c.supertypes.foldlM (visit v fuel (name :: path)) done
        return done.insert name

/-- Classes that are grounded, with their ancestors. -/
structure Closed (v : View) (done : Std.HashSet String) : Prop where
  grounded : ∀ x ∈ done, v.Grounded x
  parents : ∀ x ∈ done, ∀ parent ∈ v.parents x, parent ∈ done

theorem closed_empty (v : View) : v.Closed ∅ where
  grounded _ h := absurd h Std.HashSet.not_mem_empty
  parents _ h := absurd h Std.HashSet.not_mem_empty

theorem Closed.insert {done : Std.HashSet String} (h : v.Closed done)
    (hParents : ∀ parent ∈ v.parents name, parent ∈ done) : v.Closed (done.insert name) where
  grounded x hx := by
    rcases Std.HashSet.mem_insert.mp hx with hx | hx
    · cases eq_of_beq hx
      exact grounded_of_parents fun parent hParent => h.grounded parent (hParents parent hParent)
    · exact h.grounded x hx
  parents x hx parent hParent := by
    refine Std.HashSet.mem_insert.mpr (Or.inr ?_)
    rcases Std.HashSet.mem_insert.mp hx with hx | hx
    · cases eq_of_beq hx
      exact hParents parent hParent
    · exact h.parents x hx parent hParent

def Adds (v : View) (done : Std.HashSet String) (names : List String)
    (done' : Std.HashSet String) : Prop :=
  v.Closed done' ∧ (∀ x ∈ done, x ∈ done') ∧ ∀ x ∈ names, x ∈ done'

theorem foldlM_adds {f : Std.HashSet String → String → Except Failure (Std.HashSet String)}
    (hf : ∀ done name done', v.Closed done → f done name = .ok done' → v.Adds done [name] done')
    {names : List String} {done done' : Std.HashSet String} (hDone : v.Closed done)
    (h : names.foldlM f done = .ok done') : v.Adds done names done' := by
  induction names generalizing done with
  | nil =>
    cases h
    exact ⟨hDone, fun _ hx => hx, fun _ hx => absurd hx List.not_mem_nil⟩
  | cons name names ih =>
    rw [List.foldlM_cons] at h
    obtain ⟨done₁, hHead, hTail⟩ := Outcome.bind_eq_ok.mp h
    obtain ⟨hClosed, hKeeps, hName⟩ := hf done name done₁ hDone hHead
    obtain ⟨hClosed', hKeeps', hNames⟩ := ih hClosed hTail
    refine ⟨hClosed', fun x hx => hKeeps' x (hKeeps x hx), List.forall_mem_cons.mpr ⟨?_, hNames⟩⟩
    exact hKeeps' name (hName name List.mem_cons_self)

theorem visit_eq_ok {fuel : Nat} {path : List String} {done done' : Std.HashSet String}
    (hDone : v.Closed done) (h : v.visit fuel path done name = .ok done') :
    v.Adds done [name] done' := by
  induction fuel generalizing path done name done' with
  | zero => cases h
  | succ fuel ih =>
    rw [visit] at h
    split at h
    · rename_i hMem
      cases h
      refine ⟨hDone, fun _ hx => hx, fun x hx => ?_⟩
      rw [List.mem_singleton.mp hx]
      exact Std.HashSet.mem_iff_contains.mpr hMem
    split at h
    · cases h
    have hInsert : ∀ {d : Std.HashSet String}, (∀ x ∈ done, x ∈ d) → v.Closed d →
        (∀ parent ∈ v.parents name, parent ∈ d) → v.Adds done [name] (d.insert name) := by
      intro d hKeeps hClosed hParents
      refine ⟨hClosed.insert hParents, fun x hx => ?_, fun x hx => ?_⟩
      · exact Std.HashSet.mem_insert.mpr (Or.inr (hKeeps x hx))
      · rw [List.mem_singleton.mp hx]
        exact Std.HashSet.mem_insert_self
    split at h
    · rename_i hNone
      cases h
      refine hInsert (fun _ hx => hx) hDone fun parent hParent => ?_
      rw [parents, hNone] at hParent
      exact absurd hParent List.not_mem_nil
    · rename_i c hSome
      obtain ⟨d, hFold, h⟩ := Outcome.bind_eq_ok.mp h
      cases h
      obtain ⟨hClosed, hKeeps, hParents⟩ := foldlM_adds (fun _ _ _ => ih) hDone hFold
      rw [← parents_of_some hSome] at hParents
      exact hInsert hKeeps hClosed hParents

theorem visit_error {fuel : Nat} {path : List String} {done : Std.HashSet String} {e : Failure}
    (h : v.visit fuel path done name = .error e) : ∃ through, e = .hierarchyCycle through := by
  induction fuel generalizing path done name with
  | zero =>
    cases h
    exact ⟨name, rfl⟩
  | succ fuel ih =>
    rw [visit] at h
    split at h
    · cases h
    split at h
    · cases h
      exact ⟨name, rfl⟩
    split at h
    · cases h
    · rename_i c _
      cases hFold : c.supertypes.foldlM (v.visit fuel (name :: path)) done with
      | error e' =>
        rw [hFold] at h
        cases h
        obtain ⟨d, parent, -, hParent⟩ := Outcome.foldlM_eq_error hFold
        exact ih hParent
      | ok d =>
        rw [hFold] at h
        cases h

/-- Every path upward that repeats no class and passes through classes that exist is at most `n`
long. -/
def Bounded (v : View) (n : Nat) : Prop :=
  ∀ path : List String, path.Nodup → (∀ x ∈ path, (v x).isSome) → path.length ≤ n

theorem visit_of_grounded {n fuel : Nat} {path : List String} {done : Std.HashSet String}
    (hBound : v.Bounded n) (hNodup : path.Nodup) (hExists : ∀ x ∈ path, (v x).isSome)
    (hPath : ∀ x ∈ path, v.Above name x) (hName : v.Grounded name)
    (hFuel : n < fuel + path.length) : ∃ done', v.visit fuel path done name = .ok done' := by
  induction fuel generalizing path done name with
  | zero => exact absurd (hBound path hNodup hExists) (by omega)
  | succ fuel ih =>
    have hNew : name ∉ path := fun hMem => hName.not_above_self (hPath name hMem)
    rw [visit]
    split
    · exact ⟨done, rfl⟩
    rw [if_neg (by simpa using hNew)]
    split
    · exact ⟨done.insert name, rfl⟩
    · rename_i c hSome
      have hParents : ∀ d, ∀ parent ∈ c.supertypes,
          ∃ d', v.visit fuel (name :: path) d parent = .ok d' := by
        intro d parent hParent
        rw [← parents_of_some hSome] at hParent
        refine ih (List.nodup_cons.mpr ⟨hNew, hNodup⟩) (List.forall_mem_cons.mpr ⟨?_, hExists⟩)
          (List.forall_mem_cons.mpr ⟨.single hParent, fun x hx => (hPath x hx).head hParent⟩)
          (hName.parent hParent) ?_
        · rw [hSome]
          rfl
        · rw [List.length_cons]
          omega
      obtain ⟨d, hFold⟩ := Outcome.exists_foldlM_eq_ok hParents done
      exact ⟨d.insert name, by rw [hFold]; rfl⟩

/-- The items of `names` that are not in `found`, each once. -/
def fresh (found : List String) : List String → List String
  | [] => []
  | name :: rest =>
    if name ∈ found then fresh found rest else name :: fresh (found ++ [name]) rest

theorem mem_append_fresh {found names : List String} {x : String} :
    x ∈ found ++ fresh found names ↔ x ∈ found ∨ x ∈ names := by
  induction names generalizing found with
  | nil => simp [fresh]
  | cons name names ih =>
    rw [fresh]
    split
    · rename_i hMem
      rw [ih, List.mem_cons]
      constructor
      · exact fun h => h.imp_right Or.inr
      · rintro (h | rfl | h)
        · exact Or.inl h
        · exact Or.inl hMem
        · exact Or.inr h
    · rw [List.append_cons, ih, List.mem_append, List.mem_singleton, List.mem_cons, or_assoc]

theorem nodup_append_fresh {found names : List String} (h : found.Nodup) :
    (found ++ fresh found names).Nodup := by
  induction names generalizing found with
  | nil => simpa [fresh] using h
  | cons name names ih =>
    rw [fresh]
    split
    · exact ih h
    · rename_i hNew
      rw [List.append_cons]
      refine ih (List.nodup_append.mpr ⟨h, by simp, ?_⟩)
      rintro x hx y hy rfl
      exact hNew (List.mem_singleton.mp hy ▸ hx)

theorem fresh_map {g : String → String} {found names : List String}
    (hg : ∀ x ∈ names, ∀ y, y ∈ found ∨ y ∈ names → g x = g y → x = y) :
    fresh (found.map g) (names.map g) = (fresh found names).map g := by
  induction names generalizing found with
  | nil => rfl
  | cons name names ih =>
    have hMem : g name ∈ found.map g ↔ name ∈ found := by
      refine ⟨fun h => ?_, List.mem_map_of_mem⟩
      obtain ⟨y, hy, hEq⟩ := List.mem_map.mp h
      rwa [hg name List.mem_cons_self y (Or.inl hy) hEq.symm]
    have hRest : ∀ (more : List String), (∀ y ∈ more, y = name) →
        ∀ x ∈ names, ∀ y, y ∈ found ++ more ∨ y ∈ names → g x = g y → x = y := by
      intro more hMore x hx y hy
      refine hg x (List.mem_cons_of_mem name hx) y ?_
      rcases hy with hy | hy
      · rcases List.mem_append.mp hy with hy | hy
        · exact Or.inl hy
        · exact Or.inr (hMore y hy ▸ List.mem_cons_self)
      · exact Or.inr (List.mem_cons_of_mem name hy)
    rw [List.map_cons, fresh, fresh]
    simp only [hMem]
    split
    · have h := hRest [] (fun _ h => absurd h List.not_mem_nil)
      rw [List.append_nil] at h
      exact ih h
    · rw [List.map_cons, ← ih (hRest [name] fun y hy => List.mem_singleton.mp hy), List.map_append,
        List.map_singleton]

/-- Going on from `pending`, with `found` found so far, finds `result` in all. -/
inductive Sweeps (next : String → List String) : (pending found result : List String) → Prop
  | done {found : List String} : Sweeps next [] found found
  | step {name : String} {pending found result : List String}
      (h : Sweeps next (pending ++ fresh found (next name)) (found ++ fresh found (next name))
        result) :
      Sweeps next (name :: pending) found result

/-- The supertypes of a class, the nearest first. -/
def Ancestors (v : View) (name : String) (result : List String) : Prop :=
  Sweeps v.parents [name] [] result

namespace Sweeps

variable {next next' : String → List String} {pending found result result' : List String}

theorem unique (h : Sweeps next pending found result) (h' : Sweeps next pending found result') :
    result = result' := by
  induction h with
  | done =>
    cases h'
    rfl
  | step _ ih =>
    cases h' with
    | step h' => exact ih h'

theorem found_subset (h : Sweeps next pending found result) : ∀ x ∈ found, x ∈ result := by
  induction h with
  | done => exact fun _ hx => hx
  | step _ ih => exact fun x hx => ih x (List.mem_append_left _ hx)

theorem closed (h : Sweeps next pending found result) :
    (∀ x ∈ pending, ∀ y ∈ next x, y ∈ result) ∧
      ∀ x ∈ result, x ∈ found ∨ ∀ y ∈ next x, y ∈ result := by
  induction h with
  | done => exact ⟨fun _ hx => absurd hx List.not_mem_nil, fun _ hx => Or.inl hx⟩
  | @step name pending found result h ih =>
    obtain ⟨hPending, hResult⟩ := ih
    have hNext : ∀ y ∈ next name, y ∈ result := fun y hy =>
      h.found_subset y (mem_append_fresh.mpr (Or.inr hy))
    refine ⟨List.forall_mem_cons.mpr ⟨hNext, fun x hx => ?_⟩, fun x hx => ?_⟩
    · exact hPending x (List.mem_append_left _ hx)
    · rcases hResult x hx with hFound | hClosed
      · rcases List.mem_append.mp hFound with hOld | hFresh
        · exact Or.inl hOld
        · exact Or.inr (hPending x (List.mem_append_right _ hFresh))
      · exact Or.inr hClosed

theorem forall_found {P Q : String → Prop} (h : Sweeps next pending found result)
    (hNext : ∀ x, Q x → ∀ y ∈ next x, P y) (hMet : ∀ x, P x → Q x) (hPending : ∀ x ∈ pending, Q x)
    (hFound : ∀ x ∈ found, P x) : ∀ x ∈ result, P x := by
  induction h with
  | done => exact hFound
  | @step name pending found result h ih =>
    have hFresh : ∀ x ∈ found ++ fresh found (next name), P x := by
      intro x hx
      rcases mem_append_fresh.mp hx with hx | hx
      · exact hFound x hx
      · exact hNext name (hPending name List.mem_cons_self) x hx
    refine ih (fun x hx => ?_) hFresh
    rcases List.mem_append.mp hx with hx | hx
    · exact hPending x (List.mem_cons_of_mem name hx)
    · exact hMet x (hFresh x (List.mem_append_right _ hx))

theorem forall_mem {P : String → Prop} (h : Sweeps next pending found result)
    (hNext : ∀ x, P x → ∀ y ∈ next x, P y) (hPending : ∀ x ∈ pending, P x)
    (hFound : ∀ x ∈ found, P x) : ∀ x ∈ result, P x :=
  h.forall_found hNext (fun _ hx => hx) hPending hFound

/-- From one name everything is found that can be reached by going on at least once. -/
theorem mem_iff {start : String} (h : Sweeps next [start] [] result) (x : String) :
    x ∈ result ↔ Relation.TransGen (fun a b => b ∈ next a) start x := by
  obtain ⟨hFirst, hRest⟩ := h.closed
  constructor
  · refine h.forall_found (P := Relation.TransGen _ start) (Q := Relation.ReflTransGen _ start)
      (fun a ha b hb => .tail' ha hb) (fun a ha => ha.to_reflTransGen) ?_ (List.forall_mem_nil _) x
    exact List.forall_mem_singleton.mpr .refl
  · intro hReached
    induction hReached with
    | single hx => exact hFirst start (List.mem_singleton.mpr rfl) _ hx
    | tail _ hx ih => exact (hRest _ ih).resolve_left List.not_mem_nil _ hx

/-- Two hierarchies that differ by a change of names are swept in the same order. -/
theorem map {g : String → String} (h : Sweeps next pending found result)
    (hNext : ∀ x, x ∈ pending ∨ x ∈ result → next' (g x) = (next x).map g)
    (hg : ∀ x ∈ result, ∀ y ∈ result, g x = g y → x = y) :
    Sweeps next' (pending.map g) (found.map g) (result.map g) := by
  induction h with
  | done => exact .done
  | @step name pending found result h ih =>
    have hHere := hNext name (Or.inl List.mem_cons_self)
    have hMem : ∀ x, x ∈ found ∨ x ∈ next name → x ∈ result := fun x hx =>
      h.found_subset x (mem_append_fresh.mpr hx)
    have hFresh : fresh (found.map g) ((next name).map g) = (fresh found (next name)).map g :=
      fresh_map fun x hx y hy => hg x (hMem x (Or.inr hx)) y (hMem y hy)
    rw [List.map_cons]
    refine .step ?_
    rw [hHere, hFresh, ← List.map_append, ← List.map_append]
    refine ih (fun x hx => hNext x ?_) hg
    rcases hx with hx | hx
    · rcases List.mem_append.mp hx with hx | hx
      · exact Or.inl (List.mem_cons_of_mem name hx)
      · exact Or.inr (h.found_subset x (List.mem_append_right _ hx))
    · exact Or.inr hx

theorem congr (h : Sweeps next pending found result)
    (hNext : ∀ x, x ∈ pending ∨ x ∈ result → next' x = next x) :
    Sweeps next' pending found result := by
  have hMap : Sweeps next' (pending.map id) (found.map id) (result.map id) :=
    h.map (fun x hx => by rw [id, hNext x hx, List.map_id]) fun _ _ _ _ hEq => hEq
  simpa only [List.map_id] using hMap

end Sweeps

theorem Grounded.ancestors {result : List String} (h : v.Grounded name)
    (hAncestors : v.Ancestors name result) : ∀ x ∈ result, v.Grounded x :=
  hAncestors.forall_mem (fun _ hx _ hy => hx.parent hy) (by simpa using h) (List.forall_mem_nil _)

theorem ancestors_of_top (h : v.parents name = []) : v.Grounded name ∧ v.Ancestors name [] := by
  refine ⟨grounded_of_parents fun x hx => ?_, .step ?_⟩
  · rw [h] at hx
    exact absurd hx List.not_mem_nil
  · rw [h]
    exact .done

theorem ancestors_of_parent {parent : String} (hBelow : v.parents name = [parent])
    (hTop : v.parents parent = []) : v.Grounded name ∧ v.Ancestors name [parent] := by
  refine ⟨grounded_of_parents fun x hx => ?_, .step ?_⟩
  · rw [hBelow, List.mem_singleton] at hx
    exact hx ▸ (ancestors_of_top hTop).1
  · rw [hBelow]
    refine .step ?_
    rw [hTop]
    exact .done

theorem foldl_discover {seen : Std.HashSet String} {found : List String}
    (hSeen : ∀ x, x ∈ seen ↔ x ∈ found) (names done : List String) :
    ∃ seen', (∀ x, x ∈ seen' ↔ x ∈ found ++ fresh found names) ∧
      names.foldl (fun (fresh, seen) name =>
        if seen.contains name then (fresh, seen) else (fresh ++ [name], seen.insert name))
        (done, seen) = (done ++ fresh found names, seen') := by
  induction names generalizing seen found done with
  | nil => exact ⟨seen, by simpa [fresh] using hSeen, by simp [fresh]⟩
  | cons name names ih =>
    rw [List.foldl_cons, fresh]
    dsimp only
    by_cases hMem : name ∈ found
    · rw [if_pos hMem, if_pos (Std.HashSet.mem_iff_contains.mp ((hSeen name).mpr hMem))]
      exact ih hSeen done
    · have hNew : ¬ seen.contains name = true := fun h =>
        hMem ((hSeen name).mp (Std.HashSet.mem_iff_contains.mpr h))
      rw [if_neg hMem, if_neg hNew]
      have hInsert : ∀ x, x ∈ seen.insert name ↔ x ∈ found ++ [name] := by
        intro x
        rw [Std.HashSet.mem_insert, List.mem_append, List.mem_singleton, hSeen x, beq_iff_eq]
        exact ⟨fun h => h.symm.imp_right Eq.symm, fun h => h.symm.imp_left Eq.symm⟩
      obtain ⟨seen', hSeen', hRun⟩ := ih hInsert (done ++ [name])
      refine ⟨seen', ?_, ?_⟩
      · simpa only [List.append_assoc, List.singleton_append] using hSeen'
      · rw [hRun, List.append_assoc, List.singleton_append]

theorem discover_spec {seen : Std.HashSet String} {found : List String}
    (hSeen : ∀ x, x ∈ seen ↔ x ∈ found) (names : List String) :
    ∃ seen', (∀ x, x ∈ seen' ↔ x ∈ found ++ fresh found names) ∧
      Hierarchy.discover seen names = (fresh found names, seen') :=
  foldl_discover hSeen names []

/-- A sweep that may take a step for each name of a closed set finds everything. -/
theorem sweeps_sweep {next : String → List String} {fuel : Nat} {pending found : List String}
    {seen : Std.HashSet String} {all : List String} (hAll : ∀ x ∈ all, ∀ y ∈ next x, y ∈ all)
    (hPending : ∀ x ∈ pending, ∀ y ∈ next x, y ∈ all) (hFound : ∀ x ∈ found, x ∈ all) (hNodup : found.Nodup)
    (hSeen : ∀ x, x ∈ seen ↔ x ∈ found)
    (hFuel : pending.length + all.length ≤ fuel + found.length) :
    Sweeps next pending found (found ++ Hierarchy.sweep next fuel pending seen) := by
  have hBound : found.length ≤ all.length := (hNodup.subperm hFound).length_le
  induction fuel generalizing pending found seen with
  | zero =>
    cases pending with
    | nil =>
      rw [Hierarchy.sweep, List.append_nil]
      exact .done
    | cons name pending =>
      rw [List.length_cons] at hFuel
      omega
  | succ fuel ih =>
    cases pending with
    | nil =>
      rw [Hierarchy.sweep, List.append_nil]
      · exact .done
    | cons name pending =>
      obtain ⟨seen', hSeen', hRun⟩ := discover_spec hSeen (next name)
      have hFound' : ∀ x ∈ found ++ fresh found (next name), x ∈ all := by
        intro x hx
        rcases mem_append_fresh.mp hx with hx | hx
        · exact hFound x hx
        · exact hPending name List.mem_cons_self x hx
      have hNodup' : (found ++ fresh found (next name)).Nodup := nodup_append_fresh hNodup
      rw [Hierarchy.sweep, hRun]
      dsimp only
      rw [← List.append_assoc]
      refine .step (ih ?_ hFound' hNodup' hSeen' ?_ (hNodup'.subperm hFound').length_le)
      · intro x hx
        rcases List.mem_append.mp hx with hx | hx
        · exact hPending x (List.mem_cons_of_mem name hx)
        · exact hAll x (hFound' x (List.mem_append_right _ hx))
      · simp only [List.length_append, List.length_cons] at hFuel ⊢
        omega

end View

end Renaming
