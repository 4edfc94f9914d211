import Renaming.Proofs.Hierarchy.Lookup
import Renaming.Proofs.Hierarchy.Steps

/-!
# What a hierarchy notes

A lenient hierarchy notes each class that it misses when it is first asked for. So what it has noted is
a matter of the classes that were asked for, apart from the order.
-/

namespace Renaming

namespace Hierarchy

variable {v : View} {h h' : Hierarchy} {name : String}

/-- Each missing class is noted once, with the reason why it is missing. -/
structure Told (h : Hierarchy) : Prop where
  nodup : h.newestDiagnostics.Nodup
  mem_iff : ∀ d, d ∈ h.newestDiagnostics ↔ ∃ name cause, d = .unresolved name cause ∧
    Text.startsWith '[' name = false ∧ h.nodes[name]? = some none ∧ h.load name = .error cause

theorem told_ofClasspath (classpath : ClassPath) (config : Config) :
    (ofClasspath classpath config).Told := by
  refine ⟨List.nodup_nil, fun d => ?_⟩
  simp [ofClasspath]

theorem Told.insert (ht : h.Told) {c : ClassModel} (hNew : h.nodes[name]? = none)
    (hNodes : h'.nodes = h.nodes.insert name (some c)) (hFetch : h'.fetch = h.fetch)
    (hNoted : h'.newestDiagnostics = h.newestDiagnostics) : h'.Told := by
  have hNode : ∀ x : String, h'.nodes[x]? = some none ↔ h.nodes[x]? = some none := by
    intro x
    rw [hNodes, Std.HashMap.getElem?_insert]
    split
    · rename_i hEq
      rw [← eq_of_beq hEq, hNew]
      simp
    · rfl
  refine ⟨hNoted ▸ ht.nodup, fun d => ?_⟩
  rw [hNoted, load_congr hFetch]
  refine (ht.mem_iff d).trans (exists_congr fun x => exists_congr fun cause => ?_)
  exact and_congr_right fun _ => and_congr_right fun _ => and_congr_left fun _ => (hNode x).symm

theorem Told.seed (ht : h.Told) (c : ClassModel) : (h.seed c).Told := by
  unfold Hierarchy.seed
  split
  · exact ht
  · rename_i hNew
    exact ht.insert hNew rfl rfl rfl

theorem Told.step (ht : h.Told) (hStep : Step h h') : h'.Told := by
  cases hStep with
  | found hName hNew hLoad => exact ht.insert hNew rfl rfl rfl
  | @missed name cause hName hNew hLoad hLenient =>
    have hNode : ∀ x : String, (h.nodes.insert name none)[x]? = some none ↔
        x = name ∨ h.nodes[x]? = some none := by
      intro x
      rw [Std.HashMap.getElem?_insert]
      split
      · rename_i hEq
        simp [eq_of_beq hEq]
      · rename_i hNe
        rw [or_iff_right]
        rintro rfl
        exact hNe BEq.rfl
    have hFirst : Diagnostic.unresolved name cause ∉ h.newestDiagnostics := by
      intro hOld
      obtain ⟨x, cause', hEq, -, hMissing, -⟩ := (ht.mem_iff _).mp hOld
      cases hEq
      rw [hNew] at hMissing
      cases hMissing
    refine ⟨List.nodup_cons.mpr ⟨hFirst, ht.nodup⟩, fun d => ?_⟩
    change d ∈ Diagnostic.unresolved name cause :: h.newestDiagnostics ↔ ∃ (x : String) (cause' : _),
      d = .unresolved x cause' ∧ Text.startsWith '[' x = false ∧
        (h.nodes.insert name none)[x]? = some none ∧ h.load x = .error cause'
    rw [List.mem_cons, ht.mem_iff]
    simp only [hNode]
    constructor
    · rintro (rfl | ⟨x, cause', hd, hx, hMissing, hLoad'⟩)
      · exact ⟨name, cause, rfl, hName, Or.inl rfl, hLoad⟩
      · exact ⟨x, cause', hd, hx, Or.inr hMissing, hLoad'⟩
    · rintro ⟨x, cause', hd, hx, rfl | hMissing, hLoad'⟩
      · rw [hLoad] at hLoad'
        cases hLoad'
        exact Or.inl hd
      · exact Or.inr ⟨x, cause', hd, hx, hMissing, hLoad'⟩
  | listed name as => exact ⟨ht.nodup, ht.mem_iff⟩

theorem Reached.told {classpath : ClassPath} {config : Config}
    (hReached : Reached classpath config h) : h.Told :=
  hReached.invariant (told_ofClasspath classpath config) (fun ht c => ht.seed c) Told.step

theorem Told.steps (ht : h.Told) (hSteps : Steps h h') : h'.Told :=
  hSteps.invariant (P := Told) Told.step ht

theorem missing_iff (hh : h.Fits v) (hName : Text.startsWith '[' name = false) :
    h.nodes[name]? = some none ↔ h.Asked name ∧ v name = none := by
  rw [← hh.view_eq, Asked, hName]
  constructor
  · intro hNode
    exact ⟨Or.inr (by rw [hNode]; rfl), view_of_node hName hNode⟩
  · rintro ⟨hArray | hNode, hView⟩
    · cases hArray
    · obtain ⟨node, hNode⟩ := Option.isSome_iff_exists.mp hNode
      rw [view_of_node hName hNode] at hView
      rw [hNode, hView]

/-- Hierarchies that were asked for the same classes have noted the same. -/
theorem Told.perm (ht : h.Told) (ht' : h'.Told) (hh : h.Fits v)
    (hh' : h'.Fits v) (hFetch : h'.fetch = h.fetch)
    (hAsked : ∀ name, h'.Asked name ↔ h.Asked name) : h'.diagnostics.Perm h.diagnostics := by
  have hMem : ∀ d, d ∈ h'.newestDiagnostics ↔ d ∈ h.newestDiagnostics := by
    intro d
    rw [ht'.mem_iff, ht.mem_iff, load_congr hFetch]
    refine exists_congr fun x => exists_congr fun cause => and_congr_right fun _ =>
      and_congr_right fun hx => and_congr_left fun _ => ?_
    rw [missing_iff hh hx, missing_iff hh' hx, hAsked]
  have hPerm := (List.perm_ext_iff_of_nodup ht'.nodup ht.nodup).mpr hMem
  exact (List.reverse_perm _).trans (hPerm.trans (List.reverse_perm _).symm)

end Hierarchy

end Renaming
