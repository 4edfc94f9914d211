import Renaming.Batch
import Renaming.CommandLine
import Renaming.RenameTable.File

/-!
# The program

Reads the files that the command line names, renames the classes in them, writes the results and
prints a report. The exit code is 0 if every class was written.
-/

namespace Renaming

def orStop {α : Type} : Except Failure α → IO α
  | .ok a => pure a
  | .error e => throw (IO.userError e.message)

def readBytes (path : String) : IO Bytes := do
  return (← IO.FS.readBinFile path).toList

def readStored (path : String) : IO Stored := do
  try return .bytes (← readBytes path)
  catch e => return .unreadable (toString e)

/-- Adds the class files below a directory; `package` is the package that it stands for. -/
partial def addDirectory (directory package : String) (layer : ClassLayer) : IO ClassLayer := do
  let mut layer := layer
  for entry in ← (← IO.FS.realPath directory).readDir do
    let path := s!"{directory}/{entry.fileName}"
    if ← entry.path.isDir then
      layer ← addDirectory path s!"{package}{entry.fileName}/" layer
    else if let some name := Text.stripEnd? ".class" entry.fileName then
      layer := layer.insert s!"{package}{name}" (← readStored path)
  return layer

def readInput (path : String) : IO BatchInput := do
  if (Text.stripEnd? ".class" path).isNone then
    throw (IO.userError s!"{path} is not a class file")
  return ⟨path, ← readBytes path⟩

def writeClass (out : String) (written : String × Bytes) : IO Unit := do
  let path := s!"{out}/{written.1}.class"
  if let some (directory, _) := Text.splitAtLast? '/' path then IO.FS.createDirAll directory
  IO.FS.writeBinFile path ⟨written.2.toArray⟩

def execute (c : CommandLine) : IO UInt32 := do
  let config ← match c.config with
    | some path => orStop (Config.parse (← IO.FS.readFile path))
    | none => pure Config.standard
  let table ← orStop (RenameTable.parse (← IO.FS.readFile c.mappings))
  let layers ← c.classpath.mapM (addDirectory · "" ∅)
  let inputs ← c.inputs.mapM readInput
  let report ← orStop (Batch.run config table ⟨layers⟩ inputs)
  report.written.forM (writeClass c.out)
  for d in report.diagnostics do IO.eprintln s!"warning: {d.text}"
  IO.println report.text
  return if report.isSuccess then 0 else 1

end Renaming

def main (arguments : List String) : IO UInt32 := do
  match Renaming.CommandLine.parse arguments with
  | .error fault =>
    IO.eprintln s!"error: {fault.text}"
    return 2
  | .ok c =>
    try Renaming.execute c
    catch e =>
      IO.eprintln s!"error: {e}"
      return 1
