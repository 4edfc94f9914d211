import Mathlib.Data.List.Pairwise
import Renaming.Proofs.Batch.Written
import Renaming.Proofs.RenameTable
import Renaming.Proofs.Rewrite.Shape

/-!
# Written files

A file that a batch writes holds the class that its input was rewritten to, and no two of them hold a
class of the same name.
-/

namespace Renaming.Batch

open Effectful

variable {config : Config} {t : RenameTable} {classpath : ClassPath} {inputs : List BatchInput}

theorem definer?_of_verdict {before : List BatchInput} {input : BatchInput} {c : ClassModel}
    (h : verdict before input = .ok c) : definer? before c.name = none := by
  rw [verdict] at h
  split at h
  · cases h
  · split at h
    · cases h
    · rename_i hNone
      cases h
      exact hNone

theorem name_ne_of_verdict {before : List BatchInput} {input first : BatchInput} {c d : ClassModel}
    (h : verdict before input = .ok c) (hFirst : first ∈ before)
    (hParse : ClassModel.parse first.file = .ok d) : d.name ≠ c.name := by
  intro hEq
  have hNone := List.find?_eq_none.mp (definer?_of_verdict h) first hFirst
  rw [className?_of_ok hParse, hEq] at hNone
  exact hNone (by simp)

theorem mem_classes_jobsAfter {before : List BatchInput} {c : ClassModel} :
    c ∈ classes (jobsAfter before inputs) ↔
      ∃ i input, inputs[i]? = some input ∧ verdict (before ++ inputs.take i) input = .ok c := by
  rw [classes, List.mem_filterMap]
  constructor
  · rintro ⟨job, hJob, hOk⟩
    obtain ⟨i, hi⟩ := List.mem_iff_getElem?.mp hJob
    rw [getElem?_jobsAfter, Option.map_eq_some_iff] at hi
    obtain ⟨input, hInput, rfl⟩ := hi
    refine ⟨i, input, hInput, ?_⟩
    dsimp only at hOk
    cases hVerdict : verdict (before ++ inputs.take i) input with
    | ok c' =>
      rw [hVerdict] at hOk
      cases hOk
      rfl
    | error e =>
      rw [hVerdict] at hOk
      cases hOk
  · rintro ⟨i, input, hInput, hVerdict⟩
    refine ⟨(input.id, .ok c), List.mem_iff_getElem?.mpr ⟨i, ?_⟩, rfl⟩
    rw [getElem?_jobsAfter, hInput, Option.map_some, hVerdict]

theorem nodup_classes_jobsAfter (before inputs : List BatchInput) :
    ((classes (jobsAfter before inputs)).map ClassModel.name).Nodup := by
  induction inputs generalizing before with
  | nil => exact List.nodup_nil
  | cons input rest ih =>
    cases hVerdict : verdict before input with
    | error e =>
      rw [jobsAfter, hVerdict]
      exact ih (before ++ [input])
    | ok c =>
      rw [jobsAfter, hVerdict]
      refine List.nodup_cons.mpr ⟨fun hMem => ?_, ih (before ++ [input])⟩
      obtain ⟨d, hd, hName⟩ := List.mem_map.mp hMem
      obtain ⟨i, later, -, hLater⟩ := mem_classes_jobsAfter.mp hd
      exact name_ne_of_verdict hLater (by simp) (parse_of_verdict hVerdict) hName.symm

theorem className_ne {r : Renamer} {classes : List ClassModel} {h' : Hierarchy}
    (hDistinct : (classes.map ClassModel.name).Nodup)
    (hBuild : (Renamer.build t classes config).run (Hierarchy.seeded classpath config classes) =
      (.ok r, h')) {c d : ClassModel} (hc : c ∈ classes) (hd : d ∈ classes)
    (hNe : c.name ≠ d.name) : r.className c.name ≠ r.className d.name := by
  have hCoherent := (Hierarchy.reached_seeded classpath config classes).coherent.1
  obtain ⟨-, -, hCheck⟩ := Renamer.build_eq_ok hCoherent hDistinct hBuild
  obtain ⟨-, hPairwise, -⟩ := Renamer.checkClasses_eq_ok.mp hCheck
  have : Std.Symm fun c d : ClassModel => r.className c.name ≠ r.className d.name :=
    ⟨fun _ _ hNames => hNames.symm⟩
  exact hPairwise.forall hc hd fun hEq => hNe (congrArg ClassModel.name hEq)

theorem written_ne {files : List FileReport} {r : Renamer}
    (hWrote : Wrote config t classpath inputs files r) {i j : Nat} (hij : i < j)
    {file file' : FileReport} {name name' : String} {bytes bytes' : Bytes}
    (hFile : files[i]? = some file) (hOutcome : file.outcome = .written name bytes)
    (hFile' : files[j]? = some file') (hOutcome' : file'.outcome = .written name' bytes') :
    name ≠ name' := by
  obtain ⟨⟨h, hBuild⟩, hWritten⟩ := hWrote
  obtain ⟨input, c, w, _, _, hInput, hVerdict, -, hRewrite, rfl, -⟩ := hWritten hFile hOutcome
  obtain ⟨input', d, w', _, _, hInput', hVerdict', -, hRewrite', rfl, -⟩ :=
    hWritten hFile' hOutcome'
  have hc : c ∈ classes (jobsAfter [] inputs) :=
    mem_classes_jobsAfter.mpr ⟨i, input, hInput, hVerdict⟩
  have hd : d ∈ classes (jobsAfter [] inputs) :=
    mem_classes_jobsAfter.mpr ⟨j, input', hInput', hVerdict'⟩
  have hMem : input ∈ inputs.take j :=
    List.mem_iff_getElem?.mpr ⟨i, by rw [List.getElem?_take_of_lt hij, hInput]⟩
  have hNe := name_ne_of_verdict hVerdict' hMem (parse_of_verdict hVerdict)
  rw [Renamer.name_of_rewrite hRewrite, Renamer.name_of_rewrite hRewrite']
  exact className_ne (nodup_classes_jobsAfter [] inputs) hBuild hc hd hNe

/-- A written file is read as the class that came out of the renaming, up to the pool of what is kept
as bytes, which is only ever made longer; and all written classes have different names. -/
theorem run_writes {report : BatchReport} (hRun : run config t classpath inputs = .ok report) :
    (∀ (i : Nat) (file : FileReport) (name : String) (bytes : Bytes),
      report.files[i]? = some file → file.outcome = .written name bytes →
        ∃ (w : Rewritten) (P : Pool), rewritten? config t classpath inputs i = some w ∧
          ClassModel.parse bytes = .ok (w.model.withPool P) ∧
          (w.model.withPool P).name = name ∧
          ∀ x ∈ w.model.verbatim, x.2.entries.toList <+: P.entries.toList) ∧
      (report.written.map Prod.fst).Nodup := by
  obtain ⟨-, r, hWrote⟩ := wrote_of_run hRun
  constructor
  · intro i file name bytes hFile hOutcome
    obtain ⟨input, c, w, h, h', -, hVerdict, hRewritten, hRewrite, rfl, hBytes⟩ :=
      hWrote.written hFile hOutcome
    obtain ⟨P, hP, hShaped⟩ := ClassModel.shaped_of_parse (parse_of_verdict hVerdict)
    obtain ⟨P', hParse, hVerbatim⟩ :=
      (Renamer.shaped_of_rewrite hShaped hRewrite).parse_serialize hP hBytes
    refine ⟨w, P', hRewritten, hParse, rfl, fun x hx => ?_⟩
    rw [List.prefix_iff_getElem?]
    intro k hk
    rw [Array.getElem?_toList]
    exact (hVerbatim x hx).2 k _ (by simp)
  · rw [BatchReport.written, List.Nodup, List.pairwise_map, List.pairwise_filterMap,
      List.pairwise_iff_getElem]
    intro i j hi hj hij x hx y hy
    have hFile := List.getElem?_eq_getElem hi
    have hFile' := List.getElem?_eq_getElem hj
    split at hx
    · rename_i name bytes hOutcome
      cases hx
      split at hy
      · rename_i name' bytes' hOutcome'
        cases hy
        exact written_ne hWrote hij hFile hOutcome hFile' hOutcome'
      · cases hy
    · cases hx

def lowerClass : ClassModel := { Disturbed.below with name := "D" }

def lowerFile : Bytes :=
  [0xca, 0xfe, 0xba, 0xbe, 0, 0, 0, 52, 0, 5, 1, 0, 1, 68, 7, 0, 1, 1, 0, 1, 65, 7, 0, 3,
    0, 0x21, 0, 2, 0, 4, 0, 0, 0, 0, 0, 0, 0, 0]

theorem serialize_lowerClass : lowerClass.serialize = .ok lowerFile := by
  have hPool : lowerClass.verbatimPool = .ok none := by
    simp [ClassModel.verbatimPool, ClassModel.verbatim, Attribute.verbatim, Attribute.verbatimHere,
      Attribute.verbatimInside, lowerClass, Disturbed.below]
  obtain ⟨b₁, hName, hb₁⟩ := PoolBuilder.lists_empty.className (s := "D") rfl rfl (by decide) (by decide)
  obtain ⟨b₂, hSuper, hb₂⟩ := hb₁.className (s := "A") rfl rfl (by decide) (by simp)
  have hBody : lowerClass.encodeBody PoolBuilder.empty = .ok (_, b₂) :=
    Stateful.bind_eq_ok.mpr ⟨_, _, rfl, Stateful.bind_eq_ok.mpr ⟨_, b₁, hName,
      Stateful.bind_eq_ok.mpr ⟨_, b₂, hSuper, rfl⟩⟩⟩
  have hEncode : b₂.encode = .ok _ := hb₂.encode_eq.trans rfl
  exact Outcome.bind_eq_ok.mpr ⟨none, hPool, Outcome.bind_eq_ok.mpr ⟨_, hBody,
    Outcome.bind_eq_ok.mpr ⟨_, hEncode, rfl⟩⟩⟩

def renamingTable : RenameTable := RenameTable.empty.withClass "C" "D"

def twoInputs : List BatchInput :=
  [⟨"A.class", ClassModel.loadingFile⟩, ⟨"C.class", Disturbed.belowFile⟩]

def twoClasses : List ClassModel := [ClassModel.loadingClass, Disturbed.below]

theorem above_twoClasses : ∀ c ∈ twoClasses,
    OverrideGroups.Above (Hierarchy.seeded ⟨[]⟩ Config.standard twoClasses).view c [] := by
  have hDistinct : (twoClasses.map ClassModel.name).Nodup := by decide
  have hTop : (Hierarchy.seeded ⟨[]⟩ Config.standard twoClasses).view "A" =
      some ClassModel.loadingClass :=
    Hierarchy.view_seeded_of_mem (c := ClassModel.loadingClass) hDistinct (by simp [twoClasses])
      (by decide : Text.startsWith '[' "A" = false)
  have hLower : (Hierarchy.seeded ⟨[]⟩ Config.standard twoClasses).view "C" = some Disturbed.below :=
    Hierarchy.view_seeded_of_mem (c := Disturbed.below) hDistinct (by simp [twoClasses])
      (by decide : Text.startsWith '[' "C" = false)
  have hAbove : OverrideGroups.Above (Hierarchy.seeded ⟨[]⟩ Config.standard twoClasses).view
      Disturbed.below _ :=
    OverrideGroups.above_of_parent (View.parents_of_some hLower) (View.parents_of_some hTop)
  rw [hTop] at hAbove
  have hTopAbove : OverrideGroups.Above (Hierarchy.seeded ⟨[]⟩ Config.standard twoClasses).view
      ClassModel.loadingClass [] := OverrideGroups.above_of_top (View.parents_of_some hTop)
  exact List.forall_mem_cons.mpr ⟨hTopAbove, List.forall_mem_singleton.mpr hAbove⟩

theorem run_writes_twoInputs :
    ∃ report, run Config.standard renamingTable ⟨[]⟩ twoInputs = .ok report ∧
      report.files = [⟨"A.class", .written "A" ClassModel.writtenFile⟩,
        ⟨"C.class", .written "D" lowerFile⟩] ∧
      (∃ (w : Rewritten) (P : Pool),
        rewritten? Config.standard renamingTable ⟨[]⟩ twoInputs 1 = some w ∧
          ClassModel.parse lowerFile = .ok (w.model.withPool P) ∧
          (w.model.withPool P).name = "D" ∧
          ∀ x ∈ w.model.verbatim, x.2.entries.toList <+: P.entries.toList) ∧
      (report.written.map Prod.fst).Nodup := by
  have hKept : renamingTable.newClass?.apply "A" = "A" := by
    simp [ClassRenaming.apply, renamingTable,
      RenameTable.newClass?_withClass (RenameTable.newClass?_empty "C"), RenameTable.newClass?_empty]
  have hNew : renamingTable.newClass?.apply "C" = "D" := by
    simp [ClassRenaming.apply, renamingTable,
      RenameTable.newClass?_withClass (RenameTable.newClass?_empty "C")]
  have hJobs : readFrom ∅ twoInputs =
      [("A.class", .ok ClassModel.loadingClass), ("C.class", .ok Disturbed.below)] := by
    simp [readFrom, twoInputs, ClassModel.parse_loadingFile, Disturbed.parse_belowFile,
      ClassModel.loadingClass, Disturbed.below]
  obtain ⟨r, h, hBuild, -, -, hTable, hCyclic, hMethods⟩ := Renamer.exists_build_plain
    (t := renamingTable) above_twoClasses (by decide) (by
      simp [twoClasses, ClassModel.loadingClass, Disturbed.below, hKept, hNew])
    (fun _ _ => Renamer.onClasspath_empty _ _) (by
      intro c hc r _
      simp only [twoClasses, List.mem_cons, List.not_mem_nil, or_false] at hc
      rcases hc with rfl | rfl
      · exact Renamer.checkMembers_eq_ok.mpr ⟨List.nodup_nil, List.nodup_singleton _⟩
      · exact Renamer.checkMembers_eq_ok.mpr ⟨List.nodup_nil, List.nodup_nil⟩)
  have hClassName : r.className = renamingTable.newClass?.apply := by
    funext name
    rw [Renamer.className, hTable]
  have hTop := rewrite_loadingClass hCyclic (fun key => (hMethods key).trans (by
    rw [renamingTable, RenameTable.newMethod?_withClass, RenameTable.newMethod?_empty])) h
  have hLower := rewrite_below hCyclic h
  rw [hClassName, hKept] at hTop
  rw [hClassName, hKept, hNew] at hLower
  have hFirst := outcome_of_rewrite "A.class" hTop
    (write_of_serialize ClassModel.serialize_loadingClass)
  have hSecond := outcome_of_rewrite "C.class" hLower (write_of_serialize serialize_lowerClass)
  have hRun := run_of_steps hJobs hBuild (by
    rw [List.mapM_cons, bind_run_of_ok hFirst, List.mapM_cons, bind_assoc, bind_run_of_ok hSecond]
    rfl)
  obtain ⟨hFiles, hDistinct⟩ := run_writes hRun
  exact ⟨_, hRun, rfl, hFiles 1 _ _ _ rfl rfl, hDistinct⟩

end Renaming.Batch
