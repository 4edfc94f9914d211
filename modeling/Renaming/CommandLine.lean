import Renaming.Text.Split

/-!
# The command line

    --mappings FILE [--classpath DIR]... [--config FILE] [--out DIR] INPUT...

Options and inputs may come in any order. What follows `--` is an input whatever it looks like.
-/

namespace Renaming

structure CommandLine where
  mappings : String
  /-- Directories of classes that are referred to, the first to be searched first. -/
  classpath : List String
  config : Option String
  out : String
  inputs : List String
deriving DecidableEq, Repr

namespace CommandLine

inductive Flag where
  | mappings | classpath | config | out
deriving DecidableEq, Repr

def Flag.all : List Flag := [.mappings, .classpath, .config, .out]

def Flag.name : Flag → String
  | mappings => "--mappings"
  | classpath => "--classpath"
  | config => "--config"
  | out => "--out"

def Flag.short? : Flag → Option String
  | mappings => some "-m"
  | classpath => some "-c"
  | config => none
  | out => some "-o"

def Flag.ofText? (text : String) : Option Flag :=
  all.find? fun flag => text = flag.name || some text = flag.short?

inductive UsageFault where
  | unknownOption (text : String)
  | missingValue (option : String)
  | repeated (flag : Flag)
  | noMappings
  | noInputs
deriving DecidableEq, Repr

def UsageFault.text : UsageFault → String
  | unknownOption text => s!"unknown option {text}"
  | missingValue option => s!"option {option} has no value"
  | repeated flag => s!"option {flag.name} is given twice"
  | noMappings => "no mapping file is given"
  | noInputs => "no class files are given"

def sort : List String → Except UsageFault (List (Flag × String) × List String)
  | [] => .ok ([], [])
  | "--" :: rest => .ok ([], rest)
  | argument :: rest =>
    match Flag.ofText? argument, rest with
    | some _, [] => .error (.missingValue argument)
    | some flag, value :: rest => do
      let (options, inputs) ← sort rest
      return ((flag, value) :: options, inputs)
    | none, rest => do
      if Text.startsWith '-' argument then throw (.unknownOption argument)
      let (options, inputs) ← sort rest
      return (options, argument :: inputs)

def values (options : List (Flag × String)) (flag : Flag) : List String :=
  (options.filter (·.1 = flag)).map Prod.snd

/-- The value of an option that is given at most once. -/
def value? (options : List (Flag × String)) (flag : Flag) : Except UsageFault (Option String) :=
  match values options flag with
  | [] => .ok none
  | [value] => .ok (some value)
  | _ => .error (.repeated flag)

def parse (arguments : List String) : Except UsageFault CommandLine := do
  let (options, inputs) ← sort arguments
  let some mappings ← value? options .mappings | throw .noMappings
  let config ← value? options .config
  let out ← value? options .out
  if inputs.isEmpty then throw .noInputs
  return ⟨mappings, values options .classpath, config, out.getD "out", inputs⟩

end CommandLine

end Renaming
