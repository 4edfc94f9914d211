import Renaming.Proofs.Hierarchy.Settled
import Renaming.Proofs.OverrideGroups.Partition

/-!
# The order of the input classes

The groups that are built for input classes in different orders may number declarations in different
ways. They come about by asking for the same classes, they name all methods alike, and they leave out
the same classes because of the same cycles.
-/

namespace Renaming.OverrideGroups

open Effectful Hierarchy

variable {v : View} {h₀ : Hierarchy} {t : RenameTable}

namespace Builder

variable {ancestors : String → Except Failure (List String)} {T : String → String → Prop}

/-- A class on the cycle that a search for ancestors ran into. -/
def through? : Except Failure (List String) → Option String
  | .error (.hierarchyCycle through) => some through
  | _ => none

theorem cyclic_number (b : Builder) (key : MemberKey) : (b.number key).2.cyclic = b.cyclic := by
  rw [number]
  split <;> rfl

theorem cyclic_join (b : Builder) (first above : MemberKey) :
    (b.join first above).cyclic = b.cyclic := by
  rw [join]
  exact (cyclic_number _ above).trans (cyclic_number b first)

theorem cyclic_addAll (b : Builder) (heads : Std.HashMap (String × String) Declaration)
    (ds : List Declaration) : (b.addAll heads ds).cyclic = b.cyclic := by
  induction ds generalizing b heads with
  | nil => rfl
  | cons d ds ih =>
    rw [addAll]
    split
    · rw [ih, cyclic_number]
    · rw [ih]
      split
      · exact cyclic_join _ _ _
      · rfl

theorem settles_addClass (hh₀ : h₀.Fits v)
    (hAsk : ∀ name, Settles v (ancestorsOf name) (ancestors name) (T name)) (b : Builder)
    (c : ClassModel) : ∃ b', Settles v (b.addClass c) (.ok b') (T c.name) ∧
      ∀ name : String, b'.cyclic[name]? = if c.name = name
        then (through? (ancestors name)).or b.cyclic[name]? else b.cyclic[name]? := by
  have hSpec : ∀ {h : Hierarchy}, h.Fits v → ∃ h', (ancestorsOf c.name).run h =
      (ancestors c.name, h') ∧ h.Extends h' ∧ (∀ x, h'.Asked x ↔ h.Asked x ∨ T c.name x) ∧
        ((∃ as, ancestors c.name = .ok as ∧ v.Grounded c.name ∧ v.Ancestors c.name as) ∨
          ∃ through, ancestors c.name = .error (.hierarchyCycle through)) := by
    intro h hh
    obtain ⟨h', hRun, hExtends, hAsked⟩ := hAsk c.name h hh
    obtain ⟨r, h'', hRun', -, hAnswer⟩ := ancestorsOf_spec hh.coherent c.name
    rw [hRun] at hRun'
    cases hRun'
    rw [hh.view_eq, hh.lenient] at hAnswer
    refine ⟨h', hRun, hExtends, hAsked, ?_⟩
    rcases hAnswer with ⟨as, hEq, hGrounded, hListed, -⟩ | ⟨through, hEq, -⟩ | ⟨hStrict, -⟩
    · exact Or.inl ⟨as, hEq, hGrounded, hListed⟩
    · exact Or.inr ⟨through, hEq⟩
    · cases hStrict
  obtain ⟨-, -, -, -, ⟨as, hEq, hGrounded, hListed⟩ | ⟨through, hEq⟩⟩ := hSpec hh₀
  · refine ⟨b.addAll ∅ (declarationsAbove v c as), fun h hh => ?_, fun name => ?_⟩
    · obtain ⟨h', hRun, hExtends, hAsked, -⟩ := hSpec hh
      obtain ⟨h'', hAdd, -⟩ := addClass_run hh.coherent hh.lenient b (hh.view_eq ▸ hGrounded)
        (hh.view_eq ▸ hListed)
      rw [hh.view_eq] at hAdd
      have hState : h'' = h' := by
        change b.addClass c h = _ at hAdd
        rw [addClass, hRun, hEq] at hAdd
        exact (congrArg Prod.snd hAdd).symm
      exact ⟨h', hState ▸ hAdd, hExtends, hAsked⟩
    · rw [cyclic_addAll]
      split
      · rename_i hName
        rw [← hName, hEq]
        rfl
      · rfl
  · refine ⟨{ b with cyclic := b.cyclic.insert c.name through }, fun h hh => ?_, fun name => ?_⟩
    · obtain ⟨h', hRun, hExtends, hAsked, -⟩ := hSpec hh
      refine ⟨h', ?_, hExtends, hAsked⟩
      change b.addClass c h = _
      rw [addClass, hRun, hEq]
    · rw [Std.HashMap.getElem?_insert]
      simp only [beq_iff_eq]
      split
      · rename_i hName
        rw [← hName, hEq]
        rfl
      · rfl

theorem settles_foldlM_addClass (hh₀ : h₀.Fits v)
    (hAsk : ∀ name, Settles v (ancestorsOf name) (ancestors name) (T name))
    (classes : List ClassModel) (b : Builder) :
    ∃ b', Settles v (classes.foldlM addClass b) (.ok b') (fun x => ∃ c ∈ classes, T c.name x) ∧
      ∀ name : String, b'.cyclic[name]? = if name ∈ classes.map ClassModel.name
        then (through? (ancestors name)).or b.cyclic[name]? else b.cyclic[name]? := by
  induction classes generalizing b with
  | nil =>
    refine ⟨b, fun h hh => ⟨h, rfl, .refl hh.coherent, fun x => by simp⟩, fun name => ?_⟩
    rw [List.map_nil, if_neg List.not_mem_nil]
  | cons c classes ih =>
    obtain ⟨b₁, hFirst, hCyclic⟩ := settles_addClass hh₀ hAsk b c
    obtain ⟨b₂, hRest, hCyclic'⟩ := ih b₁
    refine ⟨b₂, ?_, fun name => ?_⟩
    · rw [List.foldlM_cons]
      simpa only [List.mem_cons, exists_eq_or_imp] using hFirst.bind hRest
    · rw [hCyclic', hCyclic, List.map_cons]
      simp only [List.mem_cons, @eq_comm _ name]
      by_cases hName : c.name = name
      · simp only [hName, true_or, if_true]
        split
        · cases through? (ancestors name) <;> rfl
        · rfl
      · simp only [hName, false_or, if_false]

end Builder

theorem Describes.newMethod?_eq {K : MemberKey → Prop} {L : MemberKey → MemberKey → Prop}
    {g g' : OverrideGroups} (hg : Describes t K L g) (hg' : Describes t K L g') (key : MemberKey) :
    g'.newMethod? t key = g.newMethod? t key := by
  by_cases hKey : K key
  · by_cases hNamed : ∃ k new, Relation.EqvGen L key k ∧ t.newMethod? k = some new
    · obtain ⟨k, new, hRelated, hNew⟩ := hNamed
      rw [hg.named key k new hKey hRelated hNew, hg'.named key k new hKey hRelated hNew]
    · have hNone : ∀ k, Relation.EqvGen L key k → t.newMethod? k = none := by
        intro k hRelated
        cases hNew : t.newMethod? k with
        | none => rfl
        | some new => exact absurd ⟨k, new, hRelated, hNew⟩ hNamed
      rw [hg.unnamed key hKey hNone, hg'.unnamed key hKey hNone]
  · rw [hg.other key hKey, hg'.other key hKey]

theorem cyclic_of_finish {b : Builder} {g : OverrideGroups} (hFinish : b.finish t = .ok g) :
    g.cyclic = b.cyclic := by
  obtain ⟨names, -, hEq⟩ := Outcome.bind_eq_ok.mp hFinish
  cases hEq
  rfl

def KeyAbove (v : View) (classes : List ClassModel) (k : MemberKey) : Prop :=
  ∃ c ∈ classes, ∃ ds, Above v c ds ∧ KeyOf ds k

def LinkAbove (v : View) (classes : List ClassModel) (k k' : MemberKey) : Prop :=
  ∃ c ∈ classes, ∃ ds, Above v c ds ∧ LinkOf ds k k'

theorem computes_of_settles (hh₀ : h₀.Fits v) (t : RenameTable) {classes : List ClassModel}
    {b : Builder} {T : String → Prop}
    (hRun : Settles v (classes.foldlM Builder.addClass .empty) (.ok b) T) :
    Computes t (KeyAbove v classes) (LinkAbove v classes) (b.finish t) := by
  obtain ⟨b', h₁, hSound, -, hb⟩ :=
    Builder.foldlM_addClass hh₀.coherent hh₀.lenient Builder.sound_empty classes
  obtain ⟨h₂, hSettles, -⟩ := hRun h₀ hh₀
  rw [hSettles] at hSound
  cases hSound
  rw [hh₀.view_eq] at hb
  rw [Builder.finish_eq_finishIn]
  refine computes_finishIn (hb.congr (fun k => ?_) fun k k' => ?_) (List.Perm.refl _)
  · exact (or_iff_right not_false).symm
  · exact (or_iff_right not_false).symm

theorem settles_build {t : RenameTable} {classes : List ClassModel} {b : Builder}
    {T : String → Prop} (hRun : Settles v (classes.foldlM Builder.addClass .empty) (.ok b) T) :
    Settles v (build t classes) (b.finish t) fun x => T x ∨ False :=
  hRun.bind (settles_lift (b.finish t))

/-- Whether the table gives methods of a group different names does not depend on the order of the
classes, and if it does not, neither do the names. -/
theorem settles_build_perm (hh₀ : h₀.Fits v) (t : RenameTable) {classes classes' : List ClassModel}
    (hPerm : classes'.Perm classes) : ∃ T,
      (∃ why why', Settles v (build t classes) (.error (.ambiguousMapping why)) T ∧
        Settles v (build t classes') (.error (.ambiguousMapping why')) T) ∨
      ∃ g g', Settles v (build t classes) (.ok g) T ∧ Settles v (build t classes') (.ok g') T ∧
        (∀ key, g'.newMethod? t key = g.newMethod? t key) ∧
          ∀ name : String, g'.cyclic[name]? = g.cyclic[name]? := by
  choose ancestors T hAsk using settled_ancestorsOf hh₀
  obtain ⟨b, hRun, hCyclic⟩ := Builder.settles_foldlM_addClass hh₀ hAsk classes .empty
  obtain ⟨b', hRun', hCyclic'⟩ := Builder.settles_foldlM_addClass hh₀ hAsk classes' .empty
  have hKeys : KeyAbove v classes' = KeyAbove v classes := by
    funext k
    simp only [KeyAbove, hPerm.mem_iff]
  have hLinks : LinkAbove v classes' = LinkAbove v classes := by
    funext k k'
    simp only [LinkAbove, hPerm.mem_iff]
  have hComputes := computes_of_settles hh₀ t hRun
  have hComputes' := computes_of_settles hh₀ t hRun'
  rw [hKeys, hLinks] at hComputes'
  simp only [hPerm.mem_iff] at hRun'
  have hBuild := settles_build (t := t) hRun
  have hBuild' := settles_build (t := t) hRun'
  refine ⟨fun x => (∃ c ∈ classes, T c.name x) ∨ False, ?_⟩
  by_cases hDiffer : Differ t (LinkAbove v classes)
  · obtain ⟨why, hFails⟩ := hComputes.fails_iff.mpr hDiffer
    obtain ⟨why', hFails'⟩ := hComputes'.fails_iff.mpr hDiffer
    rw [hFails] at hBuild
    rw [hFails'] at hBuild'
    exact Or.inl ⟨why, why', hBuild, hBuild'⟩
  · obtain ⟨g, hFinish, hg⟩ := hComputes.succeeds hDiffer
    obtain ⟨g', hFinish', hg'⟩ := hComputes'.succeeds hDiffer
    rw [hFinish] at hBuild
    rw [hFinish'] at hBuild'
    refine Or.inr ⟨g, g', hBuild, hBuild', hg.newMethod?_eq hg', fun name => ?_⟩
    rw [cyclic_of_finish hFinish, cyclic_of_finish hFinish', hCyclic, hCyclic']
    simp only [(hPerm.map ClassModel.name).mem_iff]

end Renaming.OverrideGroups
