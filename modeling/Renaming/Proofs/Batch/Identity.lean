import Renaming.Proofs.Batch.Written
import Renaming.Proofs.Rewrite.Unchanged

/-!
# Batches that change nothing

A table whose entries all give back the old name changes no file beyond what reading and writing it
does.
-/

namespace Renaming.Batch

open Effectful

variable {config : Config} {t : RenameTable} {classpath : ClassPath} {inputs : List BatchInput}

/-- What is written for an input is the class in it, under its own name. This holds also for classes
with malformed descriptors or signatures. -/
theorem written_of_identical {report : BatchReport} (ht : t.Identical)
    (hRun : run config t classpath inputs = .ok report) :
    report.files.length = inputs.length ∧
      ∀ (i : Nat) (input : BatchInput) (file : FileReport) (name : String) (bytes : Bytes),
        inputs[i]? = some input → report.files[i]? = some file →
          file.outcome = .written name bytes →
            ∃ c, ClassModel.parse input.file = .ok c ∧ name = c.name ∧ c.serialize = .ok bytes := by
  obtain ⟨hLength, r, ⟨h, hBuild⟩, hWritten⟩ := wrote_of_run hRun
  refine ⟨hLength, fun i input file name bytes hInput hFile hOutcome => ?_⟩
  obtain ⟨input', c, rewritten, h₁, h₂, hInput', hVerdict, -, hRewrite, hName, hBytes⟩ :=
    hWritten hFile hOutcome
  rw [hInput, Option.some.injEq] at hInput'
  subst hInput'
  rw [(Renamer.identical_of_build ht hBuild).model_eq hRewrite] at hName hBytes
  exact ⟨c, parse_of_verdict hVerdict, hName, hBytes⟩

def selfTable : RenameTable := RenameTable.empty.withClass "A" "A"

theorem identical_selfTable : selfTable.Identical := by
  rw [selfTable, RenameTable.withClass_eq (RenameTable.newClass?_empty "A")]
  exact ⟨by decide, by decide, by decide⟩

theorem written_of_identical_loadingClass :
    ∃ report, run Config.standard selfTable ⟨[]⟩ [⟨"A.class", ClassModel.loadingFile⟩] = .ok report ∧
      report.files = [⟨"A.class", .written "A" ClassModel.writtenFile⟩] ∧
        ∃ c, ClassModel.parse ClassModel.loadingFile = .ok c ∧ "A" = c.name ∧
          c.serialize = .ok ClassModel.writtenFile := by
  have hSelf : selfTable.newClass?.apply "A" = "A" := identical_selfTable.newClass?.apply_eq "A"
  have hJobs : readFrom ∅ [⟨"A.class", ClassModel.loadingFile⟩] =
      [("A.class", .ok ClassModel.loadingClass)] := by
    simp [readFrom, ClassModel.parse_loadingFile]
  have hPlain := Renamer.plain_of_alone (c := ClassModel.loadingClass)
    (by decide : Text.startsWith '[' "A" = false) rfl rfl
  obtain ⟨r, h, hBuild, -, -, hTable, hCyclic, hMethods⟩ := Renamer.exists_build_plain
    (t := selfTable) hPlain (List.nodup_singleton _) (List.pairwise_singleton _ _)
    (fun _ _ => Renamer.onClasspath_empty _ _) (List.forall_mem_singleton.mpr fun r _ =>
      Renamer.checkMembers_eq_ok.mpr ⟨List.nodup_nil, List.nodup_singleton _⟩)
  have hRewrite := rewrite_loadingClass hCyclic (fun key => (hMethods key).trans (by
    rw [selfTable, RenameTable.newMethod?_withClass, RenameTable.newMethod?_empty])) h
  rw [Renamer.className, hTable, hSelf] at hRewrite
  have hStep := outcome_of_rewrite "A.class" hRewrite
    (write_of_serialize ClassModel.serialize_loadingClass)
  have hRun := run_of_steps hJobs hBuild (by rw [List.mapM_cons, bind_run_of_ok hStep]; rfl)
  exact ⟨_, hRun, rfl,
    (written_of_identical identical_selfTable hRun).2 0 _ _ _ _ rfl rfl rfl⟩

end Renaming.Batch
