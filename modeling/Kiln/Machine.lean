import Kiln.Fingerprint
import Kiln.Memory
import Kiln.Module
import Kiln.Program.Child
import Kiln.Store
import Kiln.Text.Regex

/-!
# Kiln.Machine — the state of a running script

Four layers, by how long they live.  The `Host`, the files and the `Session` outlive every run; a
`Run` is one invocation of a build file; a `Frame` is one call of a function, or the top level of a
module; `Memory` holds the variables and containers of all of them.
-/

namespace Kiln

/-- What a statement leaves pending for the statements around it. -/
structure Signals where
  breaking : Bool
  continuing : Bool
  returning : Bool
  /-- The value to be returned. -/
  result : Value
  deriving DecidableEq, Repr

namespace Signals

/-- Nothing is pending. -/
def none : Signals := ⟨false, false, false, .void⟩

/-- Whether anything is pending. -/
def interrupted (s : Signals) : Bool := s.breaking || s.continuing || s.returning

end Signals

/-- One call of a function, or the top level of a module. -/
structure Frame where
  /-- The module of the run, which digests are recorded for. -/
  module : String
  /-- The target that is being made, if any. -/
  target : String
  scope : ScopeId
  signals : Signals

/-- One invocation of a build file. -/
structure Run where
  functions : Table Function
  /-- The absolute paths of the modules loaded so far. -/
  included : NameSet
  /-- The directory paths are read against. -/
  cwd : String

/-- What all runs of one process share. -/
structure Session where
  store : Store
  /-- What was written to the standard output. -/
  output : ByteArray
  /-- What programs wrote to the standard error. -/
  errors : ByteArray
  /-- Whether what programs write goes the same way, or nowhere. -/
  showsPrograms : Bool

namespace Session

/-- A session with its store in a directory and nothing printed. -/
def inDir (dir : String) (showsPrograms : Bool) : Session := ⟨.inDir dir, .empty, .empty, showsPrograms⟩

end Session

/-- The machine a script runs on. -/
structure Host where
  env : Table String
  hostname : String
  username : String
  programs : Program.Launcher
  regex : Text.Regex.Library

/-- The state of a running script. -/
structure Machine where
  memory : Memory
  frame : Frame
  run : Run
  session : Session
  files : FileSystem
  host : Host

/-- A computation of a running script. -/
abbrev Action (α : Type) := Step Machine α

namespace Run

/-- A run in which nothing is loaded. -/
def inDir (cwd : String) : Run := ⟨.empty, .empty, cwd⟩

/-- A path made absolute against the working directory. -/
def resolve (r : Run) (path : String) : String :=
  Path.absolute r.cwd (Path.native path)

end Run

namespace Frame

/-- The top level of a module. -/
def top (module : String) (scope : ScopeId) : Frame := ⟨module, "", scope, .none⟩

/-- A call of `f` with its own scope; a target becomes the one that is being made. -/
def enter (fr : Frame) (f : Function) (scope : ScopeId) : Frame :=
  ⟨fr.module, if f.isTarget then f.name else fr.target, scope, .none⟩

end Frame

namespace Action

/-! ## Parts of the state -/

/-- Works on the memory. -/
def onMemory {α : Type} (m : Step Memory α) : Action α :=
  Step.on Machine.memory (fun memory s => { s with memory }) m

/-- Works on the files. -/
def onFiles {α : Type} (m : Disk α) : Action α :=
  Step.on Machine.files (fun files s => { s with files }) m

/-- Works on the digest store. -/
def onStore {α : Type} (m : Shelving α) : Action α :=
  Step.on (fun s : Machine => ⟨s.session.store, s.files⟩)
    (fun (shelf : Shelf) s =>
      { s with files := shelf.files, session := { s.session with store := shelf.store } }) m

/-- Changes the run. -/
def changeRun (f : Run → Run) : Action Unit :=
  .change fun s => { s with run := f s.run }

/-- Changes the signals of the frame. -/
def changeSignals (f : Signals → Signals) : Action Unit :=
  .change fun s => { s with frame := { s.frame with signals := f s.frame.signals } }

/-- Appends to the output. -/
def print (text : String) : Action Unit :=
  .change fun s =>
    { s with session := { s.session with output := s.session.output ++ text.toUTF8 } }

/-- Shows what a program wrote: its complaints, and its output unless that was captured. -/
def showProgram (output errors : ByteArray) (captured : Bool) : Action Unit :=
  .change fun s =>
    if s.session.showsPrograms then
      { s with
        session :=
          { s.session with
            output := if captured then s.session.output else s.session.output ++ output
            errors := s.session.errors ++ errors } }
    else s

/-- The string form of a value. -/
def textOf (v : Value) : Action String := onMemory (Memory.textOf v)

/-- The string forms of values. -/
def textsOf (vs : List Value) : Action (List String) := Step.each textOf vs

/-- The elements of a value. -/
def elementsOf (v : Value) : Action (List Value) := .look fun s => s.memory.elements v

/-- A path made absolute against the working directory. -/
def resolve (path : String) : Action String := .look fun s => s.run.resolve path

/-- The value of a variable. -/
def getVar (name : String) : Action Value := .look fun s => s.memory.getVar s.frame.scope name

/-- Gives a variable a value. -/
def setVar (name : String) (v : Value) : Action Unit := do
  let scope ← Step.look fun s => s.frame.scope
  onMemory (Memory.setVar scope name v)

/-! ## Functions and modules -/

/-- The function a name is bound to. -/
def function (name : String) : Action Function := do
  match ← Step.look fun s => s.run.functions.get? name with
  | some f => return f
  | none => .fault (.undefinedFunction name)

/-- Enters functions into the function table; a name that is taken stops it. -/
def addFunctions : List Function → Action Unit :=
  Step.forAll fun f => do
    let functions ← Step.look fun s => s.run.functions
    if functions.contains f.name then .fault (.nameTaken f.name)
    else changeRun fun r => { r with functions := r.functions.insert f.name f }

/-- Reads the module at an absolute path. -/
def load (path : String) : Action Module := do
  let files ← Step.look fun s => s.files
  match files.text path with
  | .error e => .fault (.cannotOpen path e)
  | .ok text => .ofOutcome (Module.parse text path)

/-- Notes that the module at a path is loaded. -/
def addIncluded (path : String) : Action Unit :=
  changeRun fun r => { r with included := r.included.add path }

/-- What code is read against in a state. -/
def viewOf (s : Machine) : View :=
  ⟨fun name => s.memory.tree? (s.memory.getVar s.frame.scope name), s.run.functions⟩

end Action

/-! ## The description of the host -/

namespace Host

/-- Whether a variable holds the search path, in any case of letters. -/
def isSearchPath (name : String) : Bool :=
  name.toList.map Char.toLower = "path".toList

/-- The directories of the search path. -/
def searchPath (h : Host) : List String :=
  (h.env.entries.filter fun e => isSearchPath e.1).flatMap fun e =>
    Text.Pieces.splitString (· = Path.listSeparator) e.2

/-- The variables other than the search path. -/
def plainVariables (h : Host) : List (String × String) :=
  h.env.entries.filter fun e => !isSearchPath e.1

/-- The dictionary in which a script finds the host, its environment and its search path. -/
def describe (h : Host) : Step Memory Value := do
  let env ← Memory.newDict (h.plainVariables.map fun e => (e.1, .str e.2))
  let path ← Memory.newArray (h.searchPath.map .str)
  Memory.newDict
    [("platform", .str "unix"), ("hostname", .str h.hostname), ("username", .str h.username),
      ("bits", .int 64), ("env", env), ("path", path)]

/-- A scope of its own with the description of the host in the variable `sys`. -/
def newScope (h : Host) : Step Memory ScopeId := do
  let sys ← h.describe
  let scope ← Memory.newScope none
  Memory.setVar scope "sys" sys
  return scope

end Host

end Kiln
