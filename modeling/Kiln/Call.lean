import Kiln.Machine
import Kiln.Text.Glob

/-!
# Kiln.Call — what the built-in functions do

Arguments are evaluated already, and their number was checked when the call was read.  Every path is
resolved against the working directory of the run.  Running another build file is not here but in
`Kiln.Eval`, because it evaluates.
-/

namespace Kiln

open Kiln.Text

namespace Builtin

open Kiln.Action

/-! ## Text -/

/-- Blanks that `explode` splits at unless told otherwise. -/
def blanks : String := " \n\r\t"

/-- A byte position in a string, which may be its end. -/
def bytePosition (b : Builtin) (s : String) (position : Int32) : Action Nat :=
  if 0 ≤ position.toInt ∧ position.toInt ≤ s.utf8ByteSize then return position.toInt.toNat
  else .fault (.positionOutOfRange b.name position.toInt)

/-- The character with a number below 256; higher bits do not count. -/
def chrText (n : Int32) : String :=
  String.singleton (Char.ofNat n.toUInt32.toUInt8.toNat)

/-- The number of the first character if it is below 256, and else of the first byte. -/
def ordNumber (s : String) : Nat :=
  match s.toList with
  | [] => 0
  | c :: _ => if c.toNat < 256 then c.toNat else ((s.toUTF8.toList.headD 0).toNat)

/-- The texts that a pattern matches. -/
def compileGlob (pattern : String) : Action (String → Bool) := do
  let regex ← Step.look fun s => s.host.regex
  match regex.compile (Glob.expression regex.escape pattern) with
  | .ok isMatch => return isMatch
  | .error reason => .fault (.badPattern pattern reason)

/-- The texts that each of some patterns matches. -/
def compileGlobs : List Value → Action (List (String → Bool)) :=
  Step.each fun v => do
    let pattern ← textOf v
    compileGlob pattern

/-- Whether one of the patterns matches. -/
def matchesAny (patterns : List (String → Bool)) (s : String) : Bool :=
  patterns.any fun isMatch => isMatch s

/-- Keeps the elements of an array for which matching a pattern gives `wanted`; says of anything else
whether it would be kept. -/
def filterGlob (wanted : Bool) (v : Value) (patterns : List (String → Bool)) : Action Value :=
  match v with
  | .array _ => do
    let values ← elementsOf v
    let texts ← textsOf values
    let kept := (values.zip texts).filter fun e => matchesAny patterns e.2 == wanted
    onMemory (Memory.newArray (kept.map (·.1)))
  | _ => do
    let s ← textOf v
    return .ofBool (matchesAny patterns s == wanted)

/-! ## Files -/

/-- The string forms of values, those of arrays element by element. -/
def flatten (vs : List Value) : Action (List String) := do
  let values ← Step.look fun s => vs.flatMap s.memory.elements
  textsOf values

/-- The files below a directory, named as the directory was. -/
def listFiles (argument : String) : Action Value := do
  let dir := if argument = "" then "." else argument
  let label := if dir = "." then "" else dir
  let path ← resolve dir
  let names ← Step.look fun s => s.files.filesBelow path label
  onMemory (Memory.newArray (names.map .str))

/-- Changes the working directory. -/
def changeDirectory (argument : String) : Action Value := do
  let dir ← resolve argument
  let isDir ← Step.look fun s => s.files.isDir dir
  if isDir then do
    changeRun fun r => { r with cwd := dir }
    return .str dir
  else .fault (.cannotChangeDirectory argument)

/-- Says of an input or output error what was being done. -/
def because (f : IoError → Fault) : Error → Error
  | .io e => .fault (f e)
  | e => e

/-! ## Programs -/

/-- The words of a command line: the elements of arrays as they are, anything else split at blanks. -/
def commandWords : List Value → Action (List String)
  | [] => return []
  | v :: rest => do
    let words ←
      match v with
      | .array _ => do
        let values ← elementsOf v
        let texts ← textsOf values
        pure (texts.filter (· ≠ ""))
      | _ => do
        let s ← textOf v
        pure (Pieces.words (fun c => c = ' ' || c = '\t') s)
    let more ← commandWords rest
    return words ++ more

/-- The environment of a program: `sys.env` and `sys.path`, or that of the host where `sys` or its
`env` is no dictionary. -/
def childEnvironment : Action (Table String) := do
  let s ← Step.state
  match ← getVar "sys" with
  | .dict sys =>
    match s.memory.entry sys "env" with
    | .dict env => do
      let keys := (s.memory.entries env).keys
      let texts ← textsOf (keys.map (s.memory.entry env))
      let table := Table.ofList (keys.zip texts)
      match s.memory.entry sys "path" with
      | .array path => do
        let dirs ← textsOf (s.memory.elements (.array path))
        return table.insert "PATH" (Pieces.join (String.singleton Path.listSeparator) dirs)
      | _ => return table
    | _ => return s.host.env
  | _ => return s.host.env

/-- Runs a program; its output is the value if it is captured. -/
def runProgram (captured : Bool) (args : List Value) : Action Value := do
  let argv ← commandWords args
  match argv with
  | [] => .fault .emptyCommandLine
  | name :: _ => do
    let env ← childEnvironment
    let cwd ← Step.look fun s => s.run.cwd
    let programs ← Step.look fun s => s.host.programs
    let done ← Step.mapError (because (.cannotStart name)) (onFiles (programs.launch argv cwd env))
    showProgram (Program.pack done.output) (Program.pack done.errors) captured
    if done.status ≠ 0 then .fault .commandFailed
    else return if captured then .str (Program.decode done.output) else .void

/-! ## All of them -/

/-- Calls a built-in function other than the one that runs another build file. -/
def call (b : Builtin) (args : List Value) : Action Value := do
  let arg (i : Nat) : Value := args.getD i .void
  let text (i : Nat) : Action String := textOf (arg i)
  match b with
  | strlen => do
    let s ← text 0
    return .int (Int32.ofNat s.utf8ByteSize)
  | length => do
    let n ← Step.look fun s =>
      match arg 0 with
      | .str t => t.utf8ByteSize
      | v => s.memory.size v
    return .int (Int32.ofNat n)
  | replace => do
    let what ← text 1
    let replacement ← text 2
    onMemory (Memory.mapTexts (fun s => Pieces.replace s what replacement) (arg 0))
  | contains => do
    let needle ← text 1
    match arg 0 with
    | .array a => do
      let values ← elementsOf (.array a)
      let texts ← textsOf values
      return .ofBool (texts.contains needle)
    | _ => do
      let s ← text 0
      return .ofBool (Pieces.contains s needle)
  | implode => do
    let sep ← if args.length > 1 then text 1 else pure " "
    match arg 0 with
    | .array a => do
      let values ← elementsOf (.array a)
      let texts ← textsOf values
      return .str (Pieces.join sep texts)
    | v => return v
  | explode => do
    let seps ← if args.length > 1 then text 1 else pure blanks
    let s ← text 0
    let words := Pieces.words (fun c => seps.toList.contains c) s
    onMemory (Memory.newArray (words.map .str))
  | substr => do
    let s ← text 0
    let start ← bytePosition b s (arg 1).toInt
    let stop :=
      match args[2]? with
      | some v => if 0 ≤ v.toInt.toInt then min (start + v.toInt.toInt.toNat) s.utf8ByteSize else s.utf8ByteSize
      | none => s.utf8ByteSize
    return .str (Lossy.slice s start stop)
  | charAt => do
    let s ← text 0
    let start ← bytePosition b s (arg 1).toInt
    return .str (Lossy.slice s start (min (start + 1) s.utf8ByteSize))
  | chr => return .str (chrText (arg 0).toInt)
  | ord => do
    let s ← text 0
    return .int (Int32.ofNat (ordNumber s))
  | hex =>
    let width :=
      match args[1]? with
      | some v => v.toInt.toInt.toNat
      | none => 0
    return .str (Numeral.hex (arg 0).toInt width)
  | print => do
    let texts ← textsOf args
    Action.print (String.join texts)
    return .void
  | println => do
    let texts ← textsOf args
    Action.print (String.join texts ++ "\n")
    return .void
  | fail => do
    let s ← text 0
    .fault (.stopped s)
  | matching => do
    let patterns ← compileGlobs args.tail
    filterGlob true (arg 0) patterns
  | excluding => do
    let patterns ← compileGlobs args.tail
    filterGlob false (arg 0) patterns
  | absPath => do
    let run ← Step.look fun s => s.run
    onMemory (Memory.mapTexts run.resolve (arg 0))
  | relPath => do
    let run ← Step.look fun s => s.run
    let base ←
      match args[1]? with
      | some v => do
        let s ← textOf v
        pure (run.resolve s)
      | none => pure run.cwd
    onMemory (Memory.mapTexts (fun s => Path.relative (run.resolve s) base) (arg 0))
  | dirName => do
    let s ← text 0
    return .str ((Path.parent? s).getD ".")
  | fileName => do
    let s ← text 0
    return .str (Path.fileName s)
  | sep =>
    match args with
    | [] => return .str (String.singleton Path.separator)
    | v :: _ => onMemory (Memory.mapTexts Path.native v)
  | cd => do
    let s ← text 0
    changeDirectory s
  | cwd => do
    let dir ← Step.look fun s => s.run.cwd
    return .str dir
  | fileExists => do
    let s ← text 0
    let path ← resolve s
    let there ← Step.look fun s => s.files.has path
    return .ofBool there
  | files => do
    let s ← text 0
    listFiles s
  | readFile => do
    let s ← text 0
    let path ← resolve s
    let files ← Step.look fun s => s.files
    match files.bytes path with
    | .ok data => return .str (Lossy.text data)
    | .error e => .fault (.cannotRead path e)
  | writeFile => do
    let s ← text 0
    let path ← resolve s
    let content ← text 1
    Step.mapError (because (.cannotWrite path)) (onFiles (FileSystem.write path content.toUTF8))
    return .void
  | mkdir => do
    let s ← text 0
    let path ← resolve s
    onFiles (FileSystem.makeDirs path)
    return .void
  | delete => do
    let names ← flatten args
    Step.forAll (fun name => do
      let path ← resolve name
      onFiles (FileSystem.delete path)) names
    return .void
  | copy => do
    let target ← textOf (args.getLastD .void)
    let target ← resolve target
    let names ← flatten args.dropLast
    Step.forAll (fun name => do
      let source ← resolve name
      Step.mapError (because .cannotCopy) (onFiles (FileSystem.copy source target))) names
    return .void
  | run => runProgram false args
  | capture => runProgram true args
  | subrun => return .void

end Builtin

end Kiln
