import Kiln.Eval

/-!
# Kiln.CommandLine — the command line of the build tool

`Invocation.ofArgs` reads the arguments: `-f` takes the next one as the build file wherever it stands,
and what is left names a target and its parameters.  `CommandLine.run` does what was asked and reports
what the process would write and its exit code.
-/

namespace Kiln

open Kiln.Text

/-- What the user asked for. -/
inductive Command where
  /-- The default target, or only the top level of a file without one. -/
  | byDefault
  | target (name : String) (params : List String)
  /-- The names of the targets. -/
  | list
  | help
  deriving DecidableEq, Repr

/-- The arguments of the command line, taken apart. -/
structure Invocation where
  /-- The build file, seen from the working directory. -/
  file : String
  command : Command
  deriving DecidableEq, Repr

/-- Arguments that make no sense. -/
inductive UsageError where
  /-- `-f` is the last argument. -/
  | fileMissing
  deriving DecidableEq, Repr

/-- The text of a usage error. -/
def UsageError.message : UsageError → String
  | fileMissing => "-f requires a file argument"

namespace Command

/-- The command the arguments other than options stand for. -/
def ofWords : List String → Command
  | [] => .byDefault
  | "what" :: _ => .list
  | name :: params => .target name params

end Command

namespace Invocation

/-- The build file that is read unless another one is named. -/
def defaultFile : String := "lickable"

/-- Whether an argument asks for help. -/
def isHelp (arg : String) : Bool := arg = "-h" || arg = "--help" || arg = "/?"

/-- Reads the arguments from the left; `words` are those other than options, last one first. -/
def read (file : String) (words : List String) : List String → Except UsageError Invocation
  | [] => .ok ⟨file, .ofWords words.reverse⟩
  | "-f" :: [] => .error .fileMissing
  | "-f" :: value :: rest => read value words rest
  | arg :: rest => if isHelp arg then .ok ⟨file, .help⟩ else read file (arg :: words) rest

/-- Takes the arguments apart. -/
def ofArgs (args : List String) : Except UsageError Invocation :=
  read defaultFile [] args

end Invocation

namespace CommandLine

/-- What a process leaves behind: its exit code and what it wrote. -/
structure Report where
  code : Nat
  stdout : String
  stderr : String
  deriving DecidableEq, Repr

/-- The summary of the command line. -/
def usage : String := "Use: lick [-f <input file>] [target [target-args...]]"

/-- A complaint as it is written. -/
def complaint (text : String) : String := "lick: " ++ text ++ "\n"

/-- The state before anything runs. -/
def machine (host : Host) (files : FileSystem) (session : Session) (cwd : String) : Machine :=
  ⟨.empty, .top "" ⟨0⟩, .inDir cwd, session, files, host⟩

/-- The target to run, if any, and its parameters. -/
def chosen (m : Module) : Command → Action (Option (String × List String))
  | .target name params =>
    if m.hasTarget name then return some (name, params) else .fault (.undefinedTarget name)
  | _ => return m.defaultTarget?.map fun name => (name, [])

/-- Does what was asked for in the directory `cwd`. -/
def perform (depth : Nat) (cwd : String) (i : Invocation) : Action Unit := do
  let path := Path.absolute cwd (Path.native i.file)
  let m ← Action.load path
  if i.command = .list then
    Action.print (String.join (m.targets.map (· ++ "\n")))
  else do
    let target ← chosen m i.command
    .change fun s => { s with session := .inDir (Path.directory path) true }
    start depth m cwd
    match target with
    | some (name, params) => do
      let _ ← runTarget depth m name params
      return ()
    | none => return ()

/-- Runs the build tool in the directory `cwd`; `depth` bounds the depth of evaluation. -/
def run (depth : Nat) (host : Host) (cwd : String) (args : List String) (files : FileSystem) :
    Report × FileSystem :=
  match Invocation.ofArgs args with
  | .error e => (⟨1, "", complaint e.message ++ usage ++ "\n"⟩, files)
  | .ok ⟨_, .help⟩ => (⟨0, usage ++ "\n", ""⟩, files)
  | .ok i =>
    let (o, s) := perform depth cwd i (machine host files (.inDir cwd true) cwd)
    let report (code : Nat) (last : String) : Report × FileSystem :=
      (⟨code, Lossy.text s.session.output, Lossy.text (s.session.errors ++ last.toUTF8)⟩, s.files)
    match o with
    | .ok _ => report 0 ""
    | .error e => report 1 (complaint e.message)
    | .exhausted => report 1 (complaint "nested too deep")

end CommandLine

end Kiln
