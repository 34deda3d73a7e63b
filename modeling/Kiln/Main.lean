import Kiln.CommandLine
import Kiln.FileSystem.Change
import Kiln.Program

/-!
# Kiln.Main — the build tool as a program

The files of the working directory, and of the build file's directory if that one is elsewhere, are
read before anything runs; the run works on this picture of them, and what it changed is written back
when it is over.  Scripts start the programs of `Kiln.Program`.
-/

namespace Kiln.Main

/-- A bound on the depth of evaluation, far above what any stack holds. -/
def depth : Nat := 1000000000

/-- Reads a file or a directory with all it holds; what cannot be read is left out, and so are
directories that are reached by a link. -/
partial def readNode? (path : String) : IO (Option Node) := do
  try
    let place ← IO.FS.realPath path
    let info ← place.metadata
    match info.type with
    | .file => return some (.file (← IO.FS.readBinFile path) info.modified.sec)
    | .dir =>
      let mut nodes := []
      for entry in ← place.readDir do
        let seen ← entry.path.symlinkMetadata
        unless seen.type matches .symlink && (← entry.path.isDir) do
          if let some n ← readNode? entry.path.toString then
            nodes := Table.put entry.fileName n nodes
      return some (.dir nodes info.modified.sec)
    | _ => return none
  catch _ => return none

/-- Carries out a change. -/
def apply : Change → IO Unit
  | .remove path => do
    let place ← IO.FS.realPath path
    if ← place.isDir then IO.FS.removeDirAll path else IO.FS.removeFile path
  | .makeDir path => IO.FS.createDirAll path
  | .write path data => IO.FS.writeBinFile path data

/-- The variable an item of the environment sets. -/
def variableOf (item : String) : Option (String × String) :=
  match item.toList.span (· ≠ '=') with
  | (name, _ :: value) => some (String.ofList name, String.ofList value)
  | (_, []) => none

/-- The environment of this process; what is no text is skipped. -/
def environment : IO (Table String) := do
  try
    let data ← IO.FS.readBinFile "/proc/self/environ"
    let items := (Text.Lossy.text data).split fun c => c = Char.ofNat 0
    return Table.ofList (items.toList.filterMap fun item => variableOf item.toString)
  catch _ => return .empty

/-- The name of this machine. -/
def hostname : IO String := do
  try
    return (← IO.FS.readFile "/proc/sys/kernel/hostname").trimAscii.toString
  catch _ => return ""

/-- The time, in seconds: that of a file which the system has just made up. -/
def clock : IO Int := do
  try
    return (← (← IO.FS.realPath "/proc/self").metadata).modified.sec
  catch _ => return 0

/-- The directories that are read: none lies in another one. -/
def roots (cwd : String) (args : List String) : List String :=
  match Invocation.ofArgs args with
  | .error _ => []
  | .ok i =>
    let elsewhere := Path.directory (Path.absolute cwd (Path.native i.file))
    let within (a b : String) : Bool := a = b || a.startsWith (if b = "/" then b else b ++ "/")
    if within elsewhere cwd then [cwd]
    else if within cwd elsewhere then [elsewhere]
    else [cwd, elsewhere]

/-- Runs the build tool and gives its exit code. -/
def run (args : List String) : IO UInt32 := do
  let cwd := (← IO.currentDir).toString
  let env ← environment
  let host : Host := ⟨env, ← hostname, (env.get? "USER").getD "", Program.launcher, Text.Regex.anchored⟩
  let now ← clock
  let dirs := roots cwd args
  let mut found : FileSystem := ⟨.dir [] now, now, some cwd⟩
  for dir in dirs do
    if let some tree ← readNode? dir then
      found := found.graft dir tree
  let files := Program.install found
  let (report, after) := CommandLine.run depth host cwd args files
  for dir in dirs do
    for change in files.changes after dir do
      apply change
  IO.print report.stdout
  IO.eprint report.stderr
  return report.code.toUInt32

end Kiln.Main

/-- Runs the build tool on its arguments. -/
def main (args : List String) : IO UInt32 :=
  Kiln.Main.run args
