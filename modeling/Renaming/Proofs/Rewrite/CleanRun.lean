import Mathlib.Data.List.Nodup
import Renaming.Proofs.Hierarchy.Lookup
import Renaming.Proofs.Renamer
import Renaming.Proofs.RenameTable
import Renaming.Proofs.Rewrite.Traversal

/-!
# Runs that rewrite everything

A renamer is built for input classes and rewrites all of them, and nothing is kept because of a
descriptor. The rewritten classes then make up a hierarchy that carries the names of the old one over
to new ones, wherever the class path has nothing to do with a renamed class.
-/

namespace Renaming

open Effectful Hierarchy

theorem Hierarchy.allows_fits (v : View) : Allows (Fits v) where
  lookup h name hh := hh.extends (keeps_lookup name h hh.coherent)
  methodOwner h key hh := hh.extends (keeps_methodOwner key h hh.coherent)
  fieldOwner h key hh := hh.extends (keeps_fieldOwner key h hh.coherent)

def MemberRef.key (r : MemberRef) : MemberKey := ⟨r.owner, r.name, r.descriptor⟩

/-- `b` is the reference `a` renamed. A method gets the new name of the declaration that is meant. -/
structure Renamer.ReferenceRenamed (r : Renamer) (v : View) (a b : MemberRef) : Prop where
  kind : b.kind = a.kind
  owner : Descriptor.renameReference r.table.newClass? a.owner = .ok b.owner
  descriptor : Descriptor.rename r.table.newClass? a.descriptor = .ok b.descriptor
  name : a.kind ≠ .field → Text.startsWith '[' a.owner = false → Text.startsWith '<' a.name = false →
    ∀ order c, v.Grounded a.owner → v.LookupOrder a.owner order →
      v.firstDeclaring order a.name a.descriptor = some c →
        b.name = (r.newMethod? { a.key with owner := c.name }).getD a.name

section Reference

variable {s : Site} {v : View} {Bad : Diagnostic → Prop}

theorem Site.yields_methodName_fits (key : MemberKey) :
    Rewriting.Yields (Fits v) Bad (s.methodName key) fun name =>
      Text.startsWith '[' key.owner = false → Text.startsWith '<' key.name = false →
        ∀ order c, v.Grounded key.owner → v.LookupOrder key.owner order →
          v.firstDeclaring order key.name key.descriptor = some c →
            name = (s.renamer.newMethod? { key with owner := c.name }).getD key.name := by
  rw [methodName]
  split
  · rename_i hReserved
    refine Rewriting.yields_pure fun hOwner hName => ?_
    rw [hOwner, hName] at hReserved
    cases hReserved
  · have hAsk : Rewriting.Yields (Fits v) Bad (Rewriting.askDeclaration (methodOwner key))
        fun owner => ∀ order, v.Grounded key.owner → v.LookupOrder key.owner order →
          owner = v.firstDeclaring order key.name key.descriptor := by
      refine Rewriting.yields_askDeclaration fun h hh => ?_
      have hAnswer : ∀ order, v.Grounded key.owner → v.LookupOrder key.owner order →
          ((methodOwner key).run h).1 = .ok (v.firstDeclaring order key.name key.descriptor) := by
        intro order hGrounded hOrder
        obtain ⟨h', hRun, -⟩ := answers_methodOwner hGrounded hOrder h hh.coherent hh.lenient
          hh.view_eq
        rw [hRun]
      refine ⟨(allows_fits v).methodOwner h key hh, ?_, ?_⟩
      · intro owner hOwner order hGrounded hOrder
        rw [hAnswer order hGrounded hOrder] at hOwner
        exact (Except.ok.inj hOwner).symm
      · intro through hCycle order hGrounded hOrder
        rw [hAnswer order hGrounded hOrder] at hCycle
        cases hCycle
    refine Rewriting.yields_bind hAsk fun owner => ?_
    cases owner with
    | some c =>
      refine Rewriting.yields_pure fun hFound _ _ order d hGrounded hOrder hFirst => ?_
      rw [← hFound order hGrounded hOrder] at hFirst
      cases hFirst
      rfl
    | none =>
      refine ((composed_undeclared _ _ _).yields_any (allows_fits v)).mono
        fun _ _ hFound _ _ order d hGrounded hOrder hFirst => ?_
      rw [← hFound order hGrounded hOrder] at hFirst
      cases hFirst

theorem Site.yields_referenceRenamed (a : MemberRef) :
    Rewriting.Yields (Fits v) Bad (s.memberRef a) (s.renamer.ReferenceRenamed v a) := by
  have hName : Rewriting.Yields (Fits v) Bad (s.memberRef a) _ :=
    yields_memberRef (P := fun new => a.kind ≠ .field → Text.startsWith '[' a.owner = false →
      Text.startsWith '<' a.name = false → ∀ order c, v.Grounded a.owner →
        v.LookupOrder a.owner order → v.firstDeclaring order a.name a.descriptor = some c →
          new = (s.renamer.newMethod? { a.key with owner := c.name }).getD a.name)
      (fun hField => ((composed_fieldName _).yields_any (allows_fits v)).mono fun _ _ hMethod =>
        absurd hField hMethod)
      fun _ => (yields_methodName_fits a.key).mono fun _ hNew _ => hNew
  exact hName.mono fun _ hNew => ⟨hNew.1, hNew.2.1, hNew.2.2.2, hNew.2.2.1⟩

end Reference

/-- A renamer for the table of a mapping file that only renames input classes, in a lenient
hierarchy, rewrites the inputs to the outputs. -/
structure Renamer.CleanRun (mappings : String) (classpath : ClassPath) (config : Config)
    (r : Renamer) (inputs outputs : List ClassModel) : Prop where
  lenient : config.failOnUnresolved = false
  distinct : (inputs.map ClassModel.name).Nodup
  table : RenameTable.parse mappings = .ok r.table
  renamed : ∀ old new, r.table.newClass? old = some new → old ∈ inputs.map ClassModel.name
  rewritten : ∃ h h' ws,
    (build r.table inputs config).run (seeded classpath config inputs) = (.ok r, h) ∧
      (inputs.mapM r.rewrite).run h = (.ok ws, h') ∧
      (∀ w ∈ ws, ∀ d ∈ w.diagnostics, d.kind ≠ .descriptor) ∧ outputs = ws.map Rewritten.model

namespace Renamer

variable {r : Renamer} {v : View}

/-- `c'` is the class `c` rewritten in a hierarchy with the view `v`. -/
def RewrittenIn (r : Renamer) (v : View) (c c' : ClassModel) : Prop :=
  (r.siteOf c).ClassRewritten False (r.ReferenceRenamed v) c c'

theorem rewrittenIn_of_rewrite {c : ClassModel} {w : Rewritten} {h h' : Hierarchy} (hh : h.Fits v)
    (hRun : (r.rewrite c).run h = (.ok w, h')) (hClean : ∀ d ∈ w.diagnostics, d.kind ≠ .descriptor) :
    h'.Fits v ∧ r.RewrittenIn v c w.model := by
  have hMember : ∀ subject m, Rewriting.Yields (Fits v) (Diagnostic.Spoils False)
      (Site.memberRef { r.siteOf c with subject := subject } m) (r.ReferenceRenamed v m) :=
    fun _ m => Site.yields_referenceRenamed m
  obtain ⟨hh', hClass⟩ := rewrite_spec (allows_fits v) hMember hh hRun
  refine ⟨hh', hClass fun d hd => ?_⟩
  rintro (hKind | ⟨hFalse, -⟩)
  · exact hClean d hd hKind
  · exact hFalse

theorem rewrittenIn_of_run {classes : List ClassModel} {ws : List Rewritten} {h h' : Hierarchy}
    (hh : h.Fits v) (hRun : (classes.mapM r.rewrite).run h = (.ok ws, h'))
    (hClean : ∀ w ∈ ws, ∀ d ∈ w.diagnostics, d.kind ≠ .descriptor) :
    List.Forall₂ (r.RewrittenIn v) classes (ws.map Rewritten.model) := by
  induction classes generalizing h ws with
  | nil =>
    rw [List.mapM_nil] at hRun
    cases hRun
    exact .nil
  | cons c classes ih =>
    obtain ⟨w, h₁, ws', hFirst, hRest, rfl⟩ := mapM_cons_run.mp hRun
    obtain ⟨hHead, hTail⟩ := List.forall_mem_cons.mp hClean
    obtain ⟨hh₁, hRewritten⟩ := rewrittenIn_of_rewrite hh hFirst hHead
    exact .cons hRewritten (ih hh₁ hRest hTail)

theorem map_name_of_rewritten {classes classes' : List ClassModel}
    (h : List.Forall₂ (r.RewrittenIn v) classes classes') :
    classes'.map ClassModel.name = classes.map fun c => r.className c.name := by
  induction h with
  | nil => rfl
  | cons hHead _ ih =>
    rw [List.map_cons, List.map_cons, ih, hHead.name]
    rfl

/-- Neither the class path nor what is missing from it has to do with renamed classes, at and above
the class `name`: a class of the class path has no renamed supertype, and no input class gets the
name of a missing one. -/
structure Undisturbed (r : Renamer) (v : View) (inputs : List ClassModel)
    (name : String) : Prop where
  fixed : ∀ as, v.Ancestors name as → ∀ x ∈ name :: as, x ∉ inputs.map ClassModel.name →
    ∀ y ∈ v.parents x, r.className y = y
  free : ∀ as, v.Ancestors name as → ∀ x ∈ name :: as, v x = none → ∀ c ∈ inputs,
    r.className c.name = x → c.name = x

theorem onClasspath_of_view {classpath : ClassPath} {config : Config} {inputs : List ClassModel}
    {name : String} {c : ClassModel} (hOther : name ∉ inputs.map ClassModel.name)
    (hView : (seeded classpath config inputs).view name = some c) :
    (seeded classpath config inputs).onClasspath name = true := by
  cases hArray : Text.startsWith '[' name with
  | true =>
    rw [view_of_array _ hArray] at hView
    cases hView
  | false =>
    rw [view_seeded_of_not_mem hArray hOther] at hView
    rw [onClasspath, seeded, fetch_foldl_seed]
    unfold load at hView
    split at hView
    · cases hView
    · cases hView
    · rename_i hFetch
      rw [hFetch]

namespace CleanRun

variable {mappings : String} {classpath : ClassPath} {config : Config}
  {inputs outputs : List ClassModel}

variable (hRun : CleanRun mappings classpath config r inputs outputs)

include hRun

theorem all_rewritten : List.Forall₂ (r.RewrittenIn (seeded classpath config inputs).view) inputs
    outputs := by
  obtain ⟨h, h', ws, hBuild, hRewrite, hClean, rfl⟩ := hRun.rewritten
  have hSeeded := fits_seeded classpath inputs hRun.lenient
  obtain ⟨hExtends, -, -⟩ := build_eq_ok hSeeded.coherent hRun.distinct hBuild
  exact rewrittenIn_of_run (hSeeded.extends hExtends) hRewrite hClean

theorem checked : (inputs.map fun c => r.className c.name).Nodup ∧
    ∀ c ∈ inputs, r.className c.name = c.name ∨ r.className c.name ∈ inputs.map ClassModel.name ∨
      (seeded classpath config inputs).onClasspath (r.className c.name) = false := by
  obtain ⟨h, h', ws, hBuild, -⟩ := hRun.rewritten
  have hSeeded := fits_seeded classpath inputs hRun.lenient
  obtain ⟨hExtends, -, hCheck⟩ := build_eq_ok hSeeded.coherent hRun.distinct hBuild
  obtain ⟨-, hPairwise, hPath, -⟩ := checkClasses_eq_ok.mp hCheck
  refine ⟨List.pairwise_map.mpr hPairwise, fun c hc => (hPath c hc).imp_right (Or.imp ?_ ?_)⟩
  · intro hMem
    rw [Std.HashSet.contains_ofList] at hMem
    exact List.contains_iff_mem.mp hMem
  · intro hFree
    rw [onClasspath, hExtends.fetch_eq] at hFree
    exact hFree

theorem className_injective {c d : ClassModel} (hc : c ∈ inputs) (hd : d ∈ inputs)
    (h : r.className c.name = r.className d.name) : c = d :=
  List.inj_on_of_nodup_map hRun.checked.1 hc hd h

theorem className_of_not_input {name : String} (h : name ∉ inputs.map ClassModel.name) :
    r.className name = name := by
  rw [className, ClassRenaming.apply]
  cases hNew : r.table.newClass? name with
  | none => rfl
  | some new => exact absurd (hRun.renamed name new hNew) h

theorem startsWith_className (name : String) :
    Text.startsWith '[' (r.className name) = Text.startsWith '[' name := by
  rw [className, ClassRenaming.apply]
  cases hNew : r.table.newClass? name with
  | none => rfl
  | some new =>
    obtain ⟨hOld, hNew⟩ := RenameTable.namesClasses_of_parse hRun.table name new hNew
    rw [Option.getD_some, startsWith_of_isClassName hOld, startsWith_of_isClassName hNew]

theorem output_names : outputs.map ClassModel.name = inputs.map fun c => r.className c.name :=
  map_name_of_rewritten hRun.all_rewritten

theorem rewritten_of_mem {c c' : ClassModel} (h : (c, c') ∈ inputs.zip outputs) :
    r.RewrittenIn (seeded classpath config inputs).view c c' :=
  (List.forall₂_iff_zip.mp hRun.all_rewritten).2 h

theorem exists_output {c : ClassModel} (h : c ∈ inputs) : ∃ c', (c, c') ∈ inputs.zip outputs := by
  have hLength := (List.forall₂_iff_zip.mp hRun.all_rewritten).1
  obtain ⟨i, hi, rfl⟩ := List.mem_iff_getElem.mp h
  refine ⟨outputs[i], List.mem_iff_getElem.mpr ⟨i, ?_, List.getElem_zip⟩⟩
  rw [List.length_zip]
  omega

theorem view_output {c c' : ClassModel} (h : (c, c') ∈ inputs.zip outputs)
    (hName : Text.startsWith '[' c.name = false) :
    (seeded classpath config outputs).view (r.className c.name) = some c' := by
  have hNew : c'.name = r.className c.name := (hRun.rewritten_of_mem h).name
  rw [← hNew]
  refine view_seeded_of_mem ?_ (List.of_mem_zip h).2 ?_
  · rw [hRun.output_names]
    exact hRun.checked.1
  · rw [hNew, hRun.startsWith_className, hName]

theorem view_inside {name : String} (hMem : name ∈ inputs.map ClassModel.name)
    (hArray : Text.startsWith '[' name = false) : ∃ c c', (c, c') ∈ inputs.zip outputs ∧
      c.name = name ∧ (seeded classpath config inputs).view name = some c ∧
        (seeded classpath config outputs).view (r.className name) = some c' := by
  obtain ⟨c, hc, rfl⟩ := List.mem_map.mp hMem
  obtain ⟨c', hZip⟩ := hRun.exists_output hc
  exact ⟨c, c', hZip, rfl, view_seeded_of_mem hRun.distinct hc hArray, hRun.view_output hZip hArray⟩

theorem className_ne_of_view {name : String} {c d : ClassModel}
    (hOther : name ∉ inputs.map ClassModel.name)
    (hView : (seeded classpath config inputs).view name = some d) (hc : c ∈ inputs) :
    r.className c.name ≠ name := by
  rintro rfl
  rcases hRun.checked.2 c hc with hSame | hMem | hFree
  · exact hOther (hSame.symm ▸ List.mem_map_of_mem hc)
  · exact hOther hMem
  · rw [onClasspath_of_view hOther hView] at hFree
    cases hFree

theorem view_outside {name : String} (hOther : name ∉ inputs.map ClassModel.name)
    (hNew : ∀ c ∈ inputs, r.className c.name ≠ name) :
    (seeded classpath config outputs).view name = (seeded classpath config inputs).view name := by
  cases hArray : Text.startsWith '[' name with
  | true => rw [view_of_array _ hArray, view_of_array _ hArray]
  | false =>
    rw [view_seeded_of_not_mem hArray hOther, view_seeded_of_not_mem hArray]
    rw [hRun.output_names]
    intro hMem
    obtain ⟨c, hc, hName⟩ := List.mem_map.mp hMem
    exact hNew c hc hName

section Undisturbed

variable {name : String} {ancestors : List String}
  (hUndisturbed : r.Undisturbed (seeded classpath config inputs).view inputs name)
  (hAncestors : (seeded classpath config inputs).view.Ancestors name ancestors)

include hUndisturbed hAncestors

theorem className_ne {x : String} (hx : x ∈ name :: ancestors)
    (hOther : x ∉ inputs.map ClassModel.name) {c : ClassModel} (hc : c ∈ inputs) :
    r.className c.name ≠ x := by
  cases hView : (seeded classpath config inputs).view x with
  | none =>
    intro hNew
    have hSame := hUndisturbed.free ancestors hAncestors x hx hView c hc hNew
    exact hOther (hSame ▸ List.mem_map_of_mem hc)
  | some d => exact hRun.className_ne_of_view hOther hView hc

theorem view_of_undisturbed {x : String} (hx : x ∈ name :: ancestors)
    (hOther : x ∉ inputs.map ClassModel.name) :
    (seeded classpath config outputs).view x = (seeded classpath config inputs).view x :=
  hRun.view_outside hOther fun _ hc => hRun.className_ne hUndisturbed hAncestors hx hOther hc

theorem className_inj {x y : String} (hx : x ∈ name :: ancestors) (hy : y ∈ name :: ancestors)
    (h : r.className x = r.className y) : x = y := by
  by_cases hxMem : x ∈ inputs.map ClassModel.name
  · obtain ⟨c, hc, rfl⟩ := List.mem_map.mp hxMem
    by_cases hyMem : y ∈ inputs.map ClassModel.name
    · obtain ⟨d, hd, rfl⟩ := List.mem_map.mp hyMem
      rw [hRun.className_injective hc hd h]
    · rw [hRun.className_of_not_input hyMem] at h
      exact absurd h (hRun.className_ne hUndisturbed hAncestors hy hyMem hc)
  · rw [hRun.className_of_not_input hxMem] at h
    by_cases hyMem : y ∈ inputs.map ClassModel.name
    · obtain ⟨d, hd, rfl⟩ := List.mem_map.mp hyMem
      exact absurd h.symm (hRun.className_ne hUndisturbed hAncestors hx hxMem hd)
    · rw [h, hRun.className_of_not_input hyMem]

/-- The hierarchy of the outputs carries the old names over to the new ones. -/
theorem carries : View.Carries (seeded classpath config inputs).view
    (seeded classpath config outputs).view r.className (name :: ancestors) := by
  refine ⟨fun x hx hView => ?_, fun x hx c hView => ?_, fun x hx y hy hSame => ?_⟩
  · by_cases hMem : x ∈ inputs.map ClassModel.name
    · cases hArray : Text.startsWith '[' x with
      | true => exact view_of_array _ (by rw [hRun.startsWith_className, hArray])
      | false =>
        obtain ⟨c, -, -, -, hSome, -⟩ := hRun.view_inside hMem hArray
        rw [hView] at hSome
        cases hSome
    · rw [hRun.className_of_not_input hMem,
        hRun.view_of_undisturbed hUndisturbed hAncestors hx hMem, hView]
  · by_cases hMem : x ∈ inputs.map ClassModel.name
    · have hArray : Text.startsWith '[' x = false := by
        by_contra hArray
        rw [view_of_array _ (by simpa using hArray)] at hView
        cases hView
      obtain ⟨d, d', hZip, -, hOld, hNew⟩ := hRun.view_inside hMem hArray
      rw [hView] at hOld
      cases hOld
      have hRewritten := hRun.rewritten_of_mem hZip
      refine ⟨d', hNew, hRewritten.superName, hRewritten.interfaces, ?_⟩
      rw [ClassModel.isInterface, ClassModel.isInterface, hRewritten.access]
    · have hFixed : ∀ y ∈ c.superName.toList ++ c.interfaces, r.className y = y := by
        have h := hUndisturbed.fixed ancestors hAncestors x hx hMem
        rwa [View.parents_of_some hView] at h
      obtain ⟨hSuper, hInterfaces⟩ := List.forall_mem_append.mp hFixed
      refine ⟨c, ?_, ?_, ?_, rfl⟩
      · rw [hRun.className_of_not_input hMem,
          hRun.view_of_undisturbed hUndisturbed hAncestors hx hMem, hView]
      · cases hParent : c.superName with
        | none => rfl
        | some parent =>
          rw [hParent] at hSuper
          rw [Option.map_some, hSuper parent (List.mem_singleton.mpr rfl)]
      · exact ((List.map_congr_left hInterfaces).trans c.interfaces.map_id).symm
  · exact hRun.className_inj hUndisturbed hAncestors hx hy hSame

end Undisturbed

end CleanRun

end Renamer

end Renaming
