import Renaming.ClassFile.Write
import Renaming.Rewrite.Class

/-!
# Batches

A batch of class files is renamed together. A file that cannot be read, rewritten or written fails
on its own. A bad table makes the whole batch fail, and so does a missing class if that is asked
for.
-/

namespace Renaming

structure BatchInput where
  id : String
  file : Bytes
deriving DecidableEq, Repr

inductive Outcome where
  | written (name : String) (file : Bytes)
  | failed (cause : Failure)
deriving DecidableEq, Repr

/-- The failure of a file that is one of the whole batch. -/
def Outcome.missing? : Outcome → Option Failure
  | .failed (.unresolved name cause) => some (.unresolved name cause)
  | _ => none

structure FileReport where
  id : String
  outcome : Outcome
deriving DecidableEq, Repr

structure BatchReport where
  files : List FileReport
  diagnostics : List Diagnostic
deriving DecidableEq, Repr

namespace BatchReport

def written (r : BatchReport) : List (String × Bytes) :=
  r.files.filterMap fun f =>
    match f.outcome with
    | .written name file => some (name, file)
    | .failed _ => none

def failed (r : BatchReport) : List (String × Failure) :=
  r.files.filterMap fun f =>
    match f.outcome with
    | .written .. => none
    | .failed cause => some (f.id, cause)

def isSuccess (r : BatchReport) : Bool := r.failed.isEmpty

def FileReport.line (f : FileReport) : String :=
  match f.outcome with
  | .written name _ => s!"ok     {f.id} -> {name}\n"
  | .failed cause => s!"failed {f.id}: {cause.message}\n"

def text (r : BatchReport) : String :=
  String.join (r.files.map FileReport.line) ++
    s!"{r.written.length} written, {r.failed.length} failed, {r.diagnostics.length} warnings"

end BatchReport

namespace Batch

/-- The inputs of a batch once they are read. Each of them has a slot, which is open while its class is
still to be rewritten; a job is the index of an open slot with the class. -/
structure Intake (inputs : List BatchInput) where
  slots : List (Option Outcome)
  jobs : List (Fin inputs.length × ClassModel)
  defined : Std.HashMap String (Fin inputs.length)

namespace Intake

variable {inputs : List BatchInput}

def fail (s : Intake inputs) (cause : Failure) : Intake inputs :=
  { s with slots := s.slots ++ [some (.failed cause)] }

/-- Reads the next input. Of several inputs with the same class only the first one counts. -/
def add (s : Intake inputs) (i : Fin inputs.length) : Intake inputs :=
  match ClassModel.parse (inputs.get i).file with
  | .error e => s.fail (.malformedClassFile (inputs.get i).id e)
  | .ok c =>
    match s.defined[c.name]? with
    | some first => s.fail (.duplicateClass c.name (inputs.get first).id)
    | none => ⟨s.slots ++ [none], s.jobs ++ [(i, c)], s.defined.insert c.name i⟩

def classes (s : Intake inputs) : List ClassModel := s.jobs.map Prod.snd

end Intake

def read (inputs : List BatchInput) : Intake inputs :=
  (List.finRange inputs.length).foldl Intake.add ⟨[], [], ∅⟩

def write (rewritten : ClassModel) : Outcome :=
  match rewritten.serialize with
  | .ok file => .written rewritten.name file
  | .error e => .failed (.write rewritten.name e)

def carryOut (r : Renamer) (c : ClassModel) : StateM Hierarchy (Outcome × List Diagnostic) := fun h =>
  match (r.rewrite c).run h with
  | (.ok rewritten, h) => ((write rewritten.model, rewritten.diagnostics), h)
  | (.error cause, h) => ((.failed cause, []), h)

def fill {n : Nat} (slots : List (Option Outcome)) (done : List (Fin n × Outcome)) :
    List (Option Outcome) :=
  done.foldl (fun slots (i, outcome) => slots.set i (some outcome)) slots

/-- Renames a batch of class files, one job after the other. The diagnostics of the hierarchy come
before those of the files. -/
def run (config : Config) (t : RenameTable) (classpath : ClassPath) (inputs : List BatchInput) :
    Except Failure BatchReport :=
  let taken := read inputs
  let start := taken.classes.foldl Hierarchy.seed (Hierarchy.ofClasspath classpath config)
  match (Renamer.build t taken.classes config).run start with
  | (.error e, _) => .error e
  | (.ok r, h) =>
    let (done, h) := (taken.classes.mapM (carryOut r)).run h
    match done.findSome? fun d => d.1.missing? with
    | some e => .error e
    | none =>
      let slots := fill taken.slots ((taken.jobs.map Prod.fst).zip (done.map Prod.fst))
      .ok ⟨(inputs.zip (slots.filterMap id)).map fun (input, outcome) => ⟨input.id, outcome⟩,
        h.diagnostics ++ done.flatMap Prod.snd⟩

/-- A batch that may have been cancelled before its start, and then yields nothing. -/
def runUnless (cancelled : Bool) (config : Config) (t : RenameTable) (classpath : ClassPath)
    (inputs : List BatchInput) : Except Failure BatchReport :=
  if cancelled then .error .cancelled else run config t classpath inputs

end Batch

end Renaming
