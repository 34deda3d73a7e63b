import Kiln.Program.Child
import Kiln.Shell.Parser
import Kiln.Shell.Pattern
import Kiln.Text.Numeral

/-!
# Kiln.Shell.State — the state of a running shell

A shell has variables, parameters and functions, a directory, and streams that lead to files, to its
own standard streams, or to the next command of a pipeline.  `Act` is a computation over that state
that can be left early: at the end of the shell, of a function or of a loop.
-/

namespace Kiln.Shell

open Kiln.Text
open Kiln.Program

/-- Where a stream leads. -/
inductive Sink where
  /-- Collected under a number: 1 and 2 are the streams of the shell itself. -/
  | stream (number : Nat)
  | file (path : String)
  | nowhere
  deriving DecidableEq, Repr

/-- A variable; it may be marked before it has a value. -/
structure Variable where
  value : Option String
  exported : Bool
  readOnly : Bool

/-- The state of a shell. -/
structure State where
  files : FileSystem
  cwd : String
  /-- The name the shell was called by. -/
  zero : String
  params : List String
  vars : Table Variable
  functions : Table Command
  status : Nat
  /-- The status of the last command whose output was put into a word. -/
  outputStatus : Nat
  /-- The letters of the options that are on. -/
  options : List Char
  sinks : List (Nat × Sink)
  /-- What is left of the standard input. -/
  input : List UInt8
  /-- What other streams give, by their numbers. -/
  inputs : List (Nat × List UInt8)
  /-- What was written to numbered streams, last piece first. -/
  written : List (Nat × List UInt8)
  nextStream : Nat
  documents : List (Nat × Word)
  nextDocument : Nat
  /-- The line of the command that runs. -/
  line : Nat
  /-- What complaints start with inside of a text or file that is read in. -/
  label : String
  /-- For every function that runs, the variables it has hidden. -/
  hidden : List (List (String × Option Variable))
  loops : Nat
  /-- What runs when the shell ends. -/
  onExit : Option String

/-- How a computation is left early. -/
inductive Leave where
  /-- The end of the shell. -/
  | exit
  /-- The end of a function or of a file that is read in. -/
  | fromFunction
  /-- The end of so many loops. -/
  | fromLoops (count : Nat)
  /-- The next round, so many loops up. -/
  | nextRound (count : Nat)
  | exhausted
  deriving DecidableEq, Repr

/-- A computation of the shell. -/
abbrev Act (α : Type) := ExceptT Leave (StateM State) α

/-! ## Variables -/

/-- The value of a variable. -/
def State.value? (s : State) (name : String) : Option String :=
  (s.vars.get? name).bind Variable.value

/-- Whether a variable keeps its value. -/
def State.isReadOnly (s : State) (name : String) : Bool :=
  (s.vars.get? name).any Variable.readOnly

/-- Gives a variable a value. -/
def State.assign (s : State) (name value : String) : State :=
  let old := (s.vars.get? name).getD ⟨none, false, false⟩
  let exported := old.exported || s.options.contains 'a'
  { s with vars := s.vars.insert name { old with value := some value, exported := exported } }

/-- Marks a variable as one that programs get to see. -/
def State.exportName (s : State) (name : String) : State :=
  let old := (s.vars.get? name).getD ⟨none, false, false⟩
  { s with vars := s.vars.insert name { old with exported := true } }

/-- Takes a variable away. -/
def State.unset (s : State) (name : String) : State :=
  { s with vars := Table.ofList (s.vars.entries.filter (·.1 ≠ name)) }

/-- The variables programs get to see. -/
def State.environment (s : State) : List (String × String) :=
  s.vars.entries.filterMap fun (name, v) => if v.exported then v.value.map (name, ·) else none

/-- The characters at which fields are cut. -/
def State.separators (s : State) : List Char :=
  match s.value? "IFS" with
  | some ifs => ifs.toList
  | none => [' ', '\t', '\n']

/-- The value of a parameter that is no list. -/
def State.parameter? (s : State) (name : String) : Option String :=
  match name with
  | "?" => some (toString s.status)
  | "#" => some (toString s.params.length)
  | "-" => some (String.ofList s.options)
  | "$" => some "1"
  | "!" => none
  | "0" => some s.zero
  | _ =>
    if name.toList.all Char.isDigit then
      s.params[Numeral.ofDigits 10 (name.toList.filterMap (Numeral.digit? 10)) - 1]?
    else s.value? name

/-! ## Streams -/

/-- Writes to a stream. -/
def State.emit (s : State) (fd : Nat) (bytes : List UInt8) : State :=
  if bytes.isEmpty then s
  else
    match s.sinks.find? (·.1 = fd) with
    | some (_, .stream n) => { s with written := (n, bytes) :: s.written }
    | some (_, .file path) =>
      match s.files.bytes path with
      | .ok old => { s with files := (FileSystem.write path (bytes.foldl ByteArray.push old) s.files).2 }
      | .error _ => s
    | _ => s

/-- Writes to a stream. -/
def emit (fd : Nat) (bytes : List UInt8) : Act Unit := modify (·.emit fd bytes)

/-- Writes what a program wrote, in order. -/
def emitAll (written : List (Channel × List UInt8)) : Act Unit :=
  modify fun s => written.foldl (fun s (channel, bytes) =>
    s.emit (match channel with | .out => 1 | .err => 2) bytes) s

/-- Sets the status. -/
def finish (status : Nat) : Act Unit := modify fun s => { s with status := status }

/-- Whether a stream can be written to. -/
def State.isOpen (s : State) (fd : Nat) : Bool := s.sinks.any (·.1 = fd)

/-- Writes a complaint that starts with the given label. -/
def complainAs (label text : String) : Act Unit := do
  let s ← get
  emit 2 (utf8 (s.zero ++ ": " ++ toString s.line ++ ": " ++ label ++ text ++ "\n"))

/-- Writes a complaint. -/
def complain (text : String) : Act Unit := do complainAs (← get).label text

/-- Runs `m` with another label on its complaints. -/
def labelled (label : String) (m : Act Unit) : Act Unit := do
  let before := (← get).label
  modify fun s => { s with label := label }
  try m
  catch e => do
    modify fun s => { s with label := before }
    throw e
  modify fun s => { s with label := before }

/-- Ends the shell with a complaint. -/
def abort {α : Type} (text : String) : Act α := do
  complain text
  finish 2
  throw .exit

/-- Takes what was collected under a number out of the state. -/
def collect (number : Nat) : Act (List UInt8) := do
  let s ← get
  let (mine, others) := s.written.partition (·.1 = number)
  set { s with written := others }
  return mine.reverse.flatMap (·.2)

/-- Leads a stream somewhere else. -/
def State.lead (s : State) (fd : Nat) (sink : Sink) : State :=
  { s with sinks := (fd, sink) :: s.sinks.filter (·.1 ≠ fd) }

/-- Runs `m` on a copy of the shell: what it does to files, streams and the input counts, and its
status; all else is as before. -/
def inSubshell (m : Act Unit) : Act Unit := do
  let before ← get
  try
    modify fun s => { s with loops := 0, onExit := none }
    m
  catch
    | .exhausted => throw .exhausted
    | _ => pure ()
  modify fun after =>
    { before with
      files := after.files
      written := after.written
      input := after.input
      nextStream := after.nextStream
      documents := after.documents
      nextDocument := after.nextDocument
      status := after.status }

/-- Runs `m` with its output collected, and returns that. -/
def collecting (m : Act Unit) : Act (List UInt8) := do
  let s ← get
  let number := s.nextStream
  set { (s.lead 1 (.stream number)) with nextStream := number + 1 }
  m
  modify fun after => { after with sinks := s.sinks }
  collect number

/-! ## Fields -/

/-- A part of an expanded word. -/
inductive Bit where
  /-- A character; one that comes from an expansion may separate fields unless it is quoted. -/
  | char (c : Char) (quoted : Bool) (expanded : Bool)
  /-- There is a field here, even if it is empty. -/
  | mark
  /-- A field ends here. -/
  | stop

/-- The bits of a text. -/
def bitsOf (text : String) (quoted expanded : Bool) : List Bit :=
  (if quoted then [Bit.mark] else []) ++ text.toList.map fun c => Bit.char c quoted expanded

/-- The bits of a list of texts, each of which is a field. -/
def bitsOfList (quoted : Bool) : List String → List Bit
  | [] => []
  | [t] => bitsOf t quoted true
  | t :: rest => bitsOf t quoted true ++ .stop :: bitsOfList quoted rest

/-- Cuts bits into fields.  `field` is the one that is being read, with its last character first;
`absorbs` says that the last one ended at a blank, which may belong to a separator that follows. -/
def fieldsOf (separators : List Char) :
    Option (List Pattern.Mark) → Bool → List Bit → List (List Pattern.Mark)
  | field, _, [] => field.toList.map List.reverse
  | field, absorbs, .mark :: rest => fieldsOf separators (some (field.getD [])) absorbs rest
  | field, _, .stop :: rest => field.toList.map List.reverse ++ fieldsOf separators none false rest
  | field, absorbs, .char c quoted expanded :: rest =>
    if expanded && !quoted && separators.contains c then
      if c = ' ' || c = '\t' || c = '\n' then
        match field with
        | some f => f.reverse :: fieldsOf separators none true rest
        | none => fieldsOf separators none absorbs rest
      else
        match field with
        | some f => f.reverse :: fieldsOf separators none false rest
        | none =>
          if absorbs then fieldsOf separators none false rest
          else [] :: fieldsOf separators none false rest
    else fieldsOf separators (some ((c, quoted) :: field.getD [])) false rest

/-- The bits as the characters of one text. -/
def marksOf (bits : List Bit) : List Pattern.Mark :=
  bits.filterMap fun
    | .char c quoted _ => some (c, quoted)
    | .mark => none
    | .stop => some (' ', true)

end Kiln.Shell
