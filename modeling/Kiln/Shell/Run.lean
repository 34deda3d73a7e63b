import Kiln.Program.Directory
import Kiln.Shell.Arithmetic
import Kiln.Shell.Printf
import Kiln.Shell.State
import Kiln.Shell.Test

/-!
# Kiln.Shell.Run — running commands

Words are expanded, redirections opened, and the command is a function, a built-in command or a
program.  Everything that can run commands recurses on a bound on depth; `Leave.exhausted` says that it
was too small.
-/

namespace Kiln.Shell

open Kiln.Text
open Kiln.Program

/-- The programs a shell can start. -/
structure Programs where
  start : Child → Disk Finished
  /-- The path of the program a name stands for, in a directory and along a search path. -/
  search : FileSystem → String → String → String → Except Errno String

/-! ## Redirections -/

/-- The file that takes everything and gives nothing. -/
def nullPath : String := "/dev/null"

/-- A path seen from the directory of the shell. -/
def State.pathOf (s : State) (path : String) : String :=
  if path = "" then "" else Path.join s.cwd path

/-- Opens a file for writing; the state is there even if it fails. -/
def openOutput (fd : Nat) (name : String) (truncated : Bool) : Act Bool := do
  let s ← get
  let path := s.pathOf name
  if path = nullPath then
    set (s.lead fd .nowhere)
    return true
  else
    let opened : Outcome Unit × FileSystem :=
      if truncated || !s.files.has path then FileSystem.write path .empty s.files
      else if s.files.isDir path then (.error (.io (.os .isDirectory)), s.files)
      else (.ok (), s.files)
    match opened with
    | (.ok _, files) => do
      set { (s.lead fd (.file path)) with files := files }
      return true
    | (o, _) => do
      let why :=
        match o with
        | .error (.io (.os .noEntry)) | .error (.io (.os .notDirectory)) => "Directory nonexistent"
        | .error (.io (.os e)) => e.text
        | _ => ""
      complain ("cannot create " ++ name ++ ": " ++ why)
      return false

/-- Gives a stream something to read. -/
def State.feed (s : State) (fd : Nat) (bytes : List UInt8) : State :=
  if fd = 0 then { s with input := bytes }
  else { s with inputs := (fd, bytes) :: s.inputs.filter (·.1 ≠ fd) }

/-- Opens a file for reading. -/
def openInput (fd : Nat) (name : String) : Act Bool := do
  let s ← get
  let path := s.pathOf name
  let give (bytes : List UInt8) : Act Bool := do
    set (s.feed fd bytes)
    return true
  if path = nullPath then give []
  else
    match s.files.node path with
    | .ok (.file data _) => give data.toList
    | .ok (.dir ..) => give []
    | .error (.os .noEntry) | .error (.os .notDirectory) => do
      complain ("cannot open " ++ name ++ ": No such file")
      return false
    | .error e => do
      complain ("cannot open " ++ name ++ ": " ++ match e with | .os code => code.text | _ => "")
      return false

/-- Leads a stream to where another one leads. -/
def duplicate (fd : Nat) (source : String) : Act Bool := do
  let s ← get
  if source = "-" then
    set { s with sinks := s.sinks.filter (·.1 ≠ fd) }
    return true
  else
    match source.toList with
    | [c] =>
      if c.isDigit then
        match s.sinks.find? (·.1 = c.toNat - 48), s.inputs.find? (·.1 = c.toNat - 48) with
        | some (_, sink), _ => do
          set (s.lead fd sink)
          return true
        | none, some (_, bytes) => do
          set (s.feed fd bytes)
          return true
        | none, none => do
          if c = '0' then return true
          else do
            complain (source ++ ": Bad file descriptor")
            return false
      else abort "Syntax error: Bad fd number"
    | _ => abort "Syntax error: Bad fd number"

/-! ## Built-in commands without commands of their own -/

/-- The built-in commands. -/
def builtins : List String :=
  Reader.specialBuiltins ++
    ["[", "alias", "cd", "command", "echo", "false", "hash", "local", "printf", "pwd", "read", "test",
      "true", "type", "umask", "unalias", "wait"]

/-- Ends a built-in command with a complaint; a special one ends the shell. -/
def builtinError (name text : String) : Act Unit := do
  complainAs (name ++ ": ") text
  finish 2
  if Reader.specialBuiltins.contains name then throw .exit

/-- What the shell's own `echo` writes. -/
def echo (args : List String) : List UInt8 :=
  let (newline, args) :=
    match args with
    | "-n" :: rest => (false, rest)
    | _ => (true, args)
  let (bytes, stop) := Escapes.ofShellEcho.expandText (Pieces.join " " args)
  if stop || !newline then bytes else bytes ++ [10]

/-- The number of an argument that must be one. -/
def naturalOf? (text : String) : Option Nat :=
  if text ≠ "" && text.toList.all Char.isDigit then
    some (Numeral.ofDigits 10 (text.toList.filterMap (Numeral.digit? 10)))
  else none

/-- Gives a variable a value, unless it is read only. -/
def assign (name value : String) : Act Unit := do
  let s ← get
  if s.isReadOnly name then abort (name ++ ": is read only")
  else set (s.assign name value)

/-- The name and the value of an argument `name=value`. -/
def nameAndValue (arg : String) : String × Option String :=
  match Pieces.cut? '=' arg.toList with
  | some (name, value) => (String.ofList name, some (String.ofList value))
  | none => (arg, none)

/-- Goes to a directory. -/
def changeDirectory (args : List String) : Act Unit := do
  let s ← get
  match Directory.options args with
  | .error c => builtinError "cd" ("Illegal option -" ++ String.singleton c)
  | .ok (letters, rest) =>
    let byLinks := letters.getLast? ≠ some 'P'
    let (asked, back) :=
      match rest with
      | [] => ((s.value? "HOME").getD "", false)
      | "-" :: _ => ((s.value? "OLDPWD").getD "", true)
      | dir :: _ => (dir, false)
    let dir := if asked = "" then "." else asked
    let found :=
      if Directory.isAnchored asked then none
      else (s.value? "CDPATH").bind fun path => Directory.search? s.files s.cwd path dir
    let (path, shown) := found.getD (dir, back)
    let name := if byLinks then Directory.step s.cwd path else Path.absolute s.cwd path
    if !s.files.isDir (if byLinks then name else s.pathOf path) then
      builtinError "cd" ("can't cd to " ++ dir)
    else if s.isReadOnly "OLDPWD" then builtinError "cd" "OLDPWD: is read only"
    else do
      let moved := (({ s with cwd := name }).assign "OLDPWD" s.cwd).exportName "OLDPWD"
      if s.isReadOnly "PWD" then do
        set moved
        builtinError "cd" "PWD: is read only"
      else do
        set ((moved.assign "PWD" name).exportName "PWD")
        if back || shown then emit 1 (utf8 (name ++ "\n"))
        finish 0

/-- Whether a character separates fields and is a blank. -/
def isSeparatorBlank (separators : List Char) (m : Pattern.Mark) : Bool :=
  !m.2 && separators.contains m.1 && Numeral.isBlank m.1

/-- Whether a character separates fields. -/
def isSeparator (separators : List Char) (m : Pattern.Mark) : Bool := !m.2 && separators.contains m.1

/-- A text without blanks at its end, and without a separator there if it is the only one. -/
def trimLast (separators : List Char) (marks : List Pattern.Mark) : List Pattern.Mark :=
  let trim (ms : List Pattern.Mark) := (ms.reverse.dropWhile (isSeparatorBlank separators)).reverse
  let body := trim marks
  if body.getLast?.any (isSeparator separators) && !body.dropLast.any (isSeparator separators) then
    trim body.dropLast
  else body

/-- Cuts a line into as many values as there are names; the last name gets all that is left. -/
def readFields (separators : List Char) :
    List String → List Pattern.Mark → List (String × String)
  | [], _ => []
  | [name], cs =>
    [(name, Pattern.plain (trimLast separators (cs.dropWhile (isSeparatorBlank separators))))]
  | name :: rest, cs =>
    let start := cs.dropWhile (isSeparatorBlank separators)
    let field := start.takeWhile (!isSeparator separators ·)
    let after := (start.drop field.length).dropWhile (isSeparatorBlank separators)
    let after :=
      match after with
      | c :: more =>
        if isSeparator separators c then more.dropWhile (isSeparatorBlank separators) else after
      | [] => []
    (name, Pattern.plain field) :: readFields separators rest after

/-- The characters of a line; a backslash takes the meaning of the one that follows it. -/
def unhide : List Char → List Pattern.Mark
  | '\\' :: c :: rest => (c, true) :: unhide rest
  | ['\\'] => []
  | c :: rest => (c, false) :: unhide rest
  | [] => []

/-- Takes a line of the input; with `joins`, a backslash at its end joins the next one to it. -/
def inputLine (joins : Bool) : Nat → List UInt8 → List UInt8 × List UInt8 × Bool
  | 0, input => ([], input, false)
  | bound + 1, input =>
    let line := input.takeWhile (· ≠ 10)
    match input.drop line.length with
    | [] => (line, [], false)
    | _ :: rest =>
      let slashes := (line.reverse.takeWhile (· = 92)).length
      if joins && slashes % 2 = 1 then
        let (more, left, ended) := inputLine joins bound rest
        (line.dropLast ++ more, left, ended)
      else (line, rest, true)

/-- Reads a line of the input into variables. -/
def readLine (args : List String) : Act Unit := do
  let options := args.takeWhile (·.startsWith "-")
  let raw := options.contains "-r"
  let names := (args.drop options.length).drop (if options.contains "-p" then 1 else 0)
  if names.isEmpty then builtinError "read" "arg count"
  else do
    let s ← get
    let (line, left, ended) := inputLine (!raw) (s.input.length + 1) s.input
    set { s with input := left }
    let cs := (decode line).toList
    let marks := if raw then cs.map fun c => (c, false) else unhide cs
    (readFields s.separators names marks).forM fun (name, value) =>
      assign name value
    finish (if ended then 0 else 1)

/-- The letters of options. -/
def knownOptions : List Char := "aCefhilmnuvxbEVsIp".toList

/-- The letter of an option that is given by its name. -/
def namedOption (name : String) : List Char :=
  (Table.find name
    [("errexit", 'e'), ("nounset", 'u'), ("noglob", 'f'), ("xtrace", 'x'), ("allexport", 'a'),
      ("noexec", 'n'), ("verbose", 'v'), ("noclobber", 'C')]).toList

/-- Sets options and parameters. -/
def setOptions : List String → Act Unit
  | [] => finish 0
  | "--" :: rest => do
    modify fun s => { s with params := rest }
    finish 0
  | "-o" :: name :: rest => do
    let letters := namedOption name
    modify fun s => { s with options := s.options.filter (!letters.contains ·) ++ letters }
    setOptions rest
  | a :: rest =>
    match a.toList with
    | '-' :: cs =>
      match cs.find? (!knownOptions.contains ·) with
      | some c => builtinError "set" ("Illegal option -" ++ String.singleton c)
      | none => do
        modify fun s => { s with options := s.options.filter (!cs.contains ·) ++ cs }
        setOptions rest
    | '+' :: cs => do
      modify fun s => { s with options := s.options.filter (!cs.contains ·) }
      setOptions rest
    | _ => do
      modify fun s => { s with params := a :: rest }
      finish 0

/-- A value between single quotes. -/
def quoteValue (text : String) : String :=
  "'" ++ Pieces.replace text "'" "'\"'\"'" ++ "'"

/-- The path of the program a name stands for. -/
def State.find (s : State) (programs : Programs) (name : String) : Except Errno String :=
  if name = "" then .error .accessDenied
  else
    match s.value? "PATH" with
    | some path => programs.search s.files s.cwd path name
    | none =>
      if name.toList.any Path.isSeparator then programs.search s.files s.cwd "" name
      else .error .noEntry

/-- Runs a built-in command that runs no other ones. -/
def plainBuiltin (programs : Programs) (name : String) (args : List String) : Act Unit := do
  let s ← get
  let label := s.zero ++ ": " ++ toString s.line ++ ": " ++ name ++ ": "
  let test (args : List String) : Act Unit := do
    match Test.run ⟨s.files, s.cwd⟩ args with
    | .ok b => finish (if b then 0 else 1)
    | .error text => builtinError name text
  let written (status : Nat) : Act Unit := do
    if s.isOpen 1 then finish status
    else do
      complainAs (name ++ ": ") (name ++ ": I/O error")
      finish 1
  match name with
  | "false" => finish 1
  | "echo" => do
    emit 1 (echo args)
    written 0
  | "printf" =>
    match if args.head? = some "--" then args.tail else args with
    | format :: rest =>
      if format.startsWith "-" && rest = args.tail && format ≠ "-" then
        builtinError name ("Illegal option " ++ String.ofList (format.toList.take 2))
      else do
        let (pieces, status) := Printf.run label format rest
        emitAll pieces
        written status
    | [] => builtinError name "usage: printf format [arg ...]"
  | "pwd" =>
    match Directory.options args with
    | .error c => builtinError name ("Illegal option -" ++ String.singleton c)
    | .ok (letters, _) => do
      let dir := if letters.getLast? = some 'P' then Directory.plain s.cwd else s.cwd
      emit 1 (utf8 (dir ++ "\n"))
      finish 0
  | "test" => test args
  | "[" => if args.getLast? = some "]" then test args.dropLast else builtinError name "missing ]"
  | "cd" => changeDirectory args
  | "read" => readLine args
  | "umask" => do
    if args.isEmpty then emit 1 (utf8 "0022\n")
    finish 0
  | "exit" =>
    match args with
    | [] => throw .exit
    | n :: _ =>
      match naturalOf? n with
      | some n => do
        finish (n % 256)
        throw .exit
      | none => builtinError name ("Illegal number: " ++ n)
  | "return" =>
    match args with
    | [] => throw .fromFunction
    | n :: _ =>
      match naturalOf? n with
      | some n => do
        finish (n % 256)
        throw .fromFunction
      | none => builtinError name ("Illegal number: " ++ n)
  | "break" | "continue" =>
    match naturalOf? (args.headD "1") with
    | some n => do
      finish 0
      let count := min n s.loops
      if n = 0 then builtinError name ("Illegal number: " ++ args.headD "")
      else if count > 0 then throw (if name = "break" then .fromLoops count else .nextRound count)
    | none => builtinError name ("Illegal number: " ++ args.headD "")
  | "export" | "readonly" => do
    if (args.filter (· ≠ "-p")).isEmpty then
      emit 1 (utf8 (String.join ((s.vars.entries.filter fun (_, v) =>
        if name = "export" then v.exported else v.readOnly).map fun (x, v) =>
          name ++ " " ++ x ++ (v.value.map fun t => "=" ++ quoteValue t).getD "" ++ "\n")))
    (args.filter (· ≠ "-p")).forM fun a => do
      let (x, value?) := nameAndValue a
      if !isName x.toList then builtinError name (x ++ ": bad variable name")
      else do
        match value? with
        | some v => assign x v
        | none => pure ()
        if name = "export" then modify (·.exportName x)
        else modify fun s =>
          let old := (s.vars.get? x).getD ⟨none, false, false⟩
          { s with vars := s.vars.insert x { old with readOnly := true } }
    finish 0
  | "local" =>
    if s.hidden.isEmpty then do
      builtinError name "not in a function"
      throw .exit
    else do
      args.forM fun a => do
        let (x, value?) := nameAndValue a
        modify fun s =>
          match s.hidden with
          | frame :: rest => { s with hidden := ((x, s.vars.get? x) :: frame) :: rest }
          | [] => s
        match value? with
        | some v => assign x v
        | none => pure ()
      finish 0
  | "unset" => do
    let functions := args.contains "-f"
    (args.filter fun a => a ≠ "-f" && a ≠ "-v").forM fun a => do
      let s ← get
      if functions then
        set { s with functions := Table.ofList (s.functions.entries.filter (·.1 ≠ a)) }
      else if !isName a.toList then builtinError name (a ++ ": bad variable name")
      else if (s.vars.get? a).any Variable.readOnly then builtinError name (a ++ ": is read only")
      else set (s.unset a)
    finish 0
  | "set" => do
    if args.isEmpty then
      emit 1 (utf8 (String.join (s.vars.entries.filterMap fun (x, v) =>
        v.value.map fun t => x ++ "=" ++ quoteValue t ++ "\n")))
    setOptions args
  | "shift" =>
    match naturalOf? (args.headD "1") with
    | some n =>
      if n ≤ s.params.length then do
        set { s with params := s.params.drop n }
        finish 0
      else builtinError name "can't shift that many"
    | none => builtinError name ("Illegal number: " ++ args.headD "")
  | "trap" => do
    match args with
    | action :: signals =>
      if signals.contains "EXIT" || signals.contains "0" then
        set { s with onExit := if action = "-" || action = "" then none else some action }
    | [] => pure ()
    finish 0
  | "type" => do
    finish 0
    args.forM fun a => do
      if keywords.contains a then emit 1 (utf8 (a ++ " is a shell keyword\n"))
      else if s.functions.contains a then emit 1 (utf8 (a ++ " is a shell function\n"))
      else if Reader.specialBuiltins.contains a then
        emit 1 (utf8 (a ++ " is a special shell builtin\n"))
      else if builtins.contains a then emit 1 (utf8 (a ++ " is a shell builtin\n"))
      else
        match s.find programs a with
        | .ok path => emit 1 (utf8 (a ++ " is " ++ path ++ "\n"))
        | .error _ => do
          emit 1 (utf8 (a ++ ": not found\n"))
          finish 127
  | _ => finish 0

/-- Says what a name stands for, as `command -v` does. -/
def describe (programs : Programs) (name : String) : Act Unit := do
  let s ← get
  if keywords.contains name || s.functions.contains name || builtins.contains name then do
    emit 1 (utf8 (name ++ "\n"))
    finish 0
  else
    match s.find programs name with
    | .ok path => do
      emit 1 (utf8 (path ++ "\n"))
      finish 0
    | .error _ => finish 127

/-- Starts a program and waits for it. -/
def startProgram (programs : Programs) (argv : List String) : Act Unit := do
  let s ← get
  let name := argv.headD ""
  match s.find programs name with
  | .error .accessDenied => do
    complain (name ++ ": Permission denied")
    finish (if name.toList.any Path.isSeparator then 126 else 127)
  | .error _ => do
    complain (name ++ ": not found")
    finish 127
  | .ok path =>
    match programs.start ⟨some path, argv, s.cwd, s.environment, s.input⟩ s.files with
    | (.ok f, files) => do
      set { s with files := files, input := f.unread, status := f.status }
      emitAll f.written
    | (.error _, files) => do
      set { s with files := files }
      finish 127
    | (.exhausted, files) => do
      set { s with files := files }
      throw .exhausted

/-! ## Commands -/

/-- The names that assignments assign. -/
def assignedNames (assigned : List Word) : List String :=
  assigned.filterMap fun
    | .text cs _ :: _ => some (String.ofList (cs.takeWhile (· ≠ '=')))
    | _ => none

/-- Writes a command before it runs, if the options ask for it, to where complaints went before its
redirections. -/
def trace (outer : List (Nat × Sink)) (assigned : List Word) (argv : List String) : Act Unit := do
  let s ← get
  let values := (assignedNames assigned).map fun x => x ++ "=" ++ (s.value? x).getD ""
  if s.options.contains 'x' && !(values ++ argv).isEmpty then
    let line := "+ " ++ Pieces.join " " (values ++ argv) ++ "\n"
    set { ({ s with sinks := outer }).emit 2 (utf8 line) with sinks := s.sinks }

/-- The variables a function has hidden come back. -/
def reveal (frame : List (String × Option Variable)) (s : State) : State :=
  frame.foldl (fun s (name, old) =>
    match old with
    | some v => { s with vars := s.vars.insert name v }
    | none => s.unset name) s

/-- Ends the shell after a failure, if the options ask for it. -/
def checkFailure (tested : Bool) : Act Unit := do
  let s ← get
  if s.options.contains 'e' && !tested && s.status ≠ 0 then throw .exit

/-- The directory a tilde at the start of a word stands for, and what follows the tilde. -/
def splitTilde (s : State) : Word → List Bit × Word
  | .text ('~' :: cs) false :: rest =>
    match s.value? "HOME" with
    | some home =>
      if cs.isEmpty && rest.isEmpty || cs.head? = some '/' then
        (bitsOf home true false, .text cs false :: rest)
      else ([], .text ('~' :: cs) false :: rest)
    | none => ([], .text ('~' :: cs) false :: rest)
  | w => ([], w)

mutual

/-- The bits of pieces; `inside` says that they stand inside of an expansion. -/
def bits (programs : Programs) : Nat → Bool → Word → Act (List Bit)
  | 0, _, _ => throw .exhausted
  | _, _, [] => return []
  | n + 1, inside, p :: rest => do
    let here ← pieceBits programs n inside p
    let more ← bits programs n inside rest
    return here ++ more

/-- The bits of a piece. -/
def pieceBits (programs : Programs) : Nat → Bool → Piece → Act (List Bit)
  | 0, _, _ => throw .exhausted
  | n + 1, inside, p => do
    match p with
    | .text cs quoted => return bitsOf (String.ofList cs) quoted inside
    | .output body quoted => do
      let text ← substitute programs n body
      return bitsOf text quoted true
    | .arithmetic expression quoted => do
      let text ← whole programs n expression
      let s ← get
      match Arithmetic.evaluate (fun x => (s.parameter? x).getD "") text.toList with
      | .ok (value, assigned) => do
        assigned.forM fun (name, v) => assign name (toString v)
        return bitsOf (toString value) quoted true
      | .error (.bad why) =>
        abort ("arithmetic expression: " ++ why ++ ": \"" ++ text ++ "\"")
      | .error (.illegalNumber value) => abort ("Illegal number: " ++ value)
    | .param name form quoted => paramBits programs n name form quoted

/-- The bits of a parameter. -/
def paramBits (programs : Programs) : Nat → String → Form → Bool → Act (List Bit)
  | 0, _, _, _ => throw .exhausted
  | n + 1, name, form, quoted => do
    let s ← get
    let isList := name = "@" || name = "*"
    let value? : Option String :=
      if isList then
        if s.params.isEmpty then none else some (Pieces.join " " s.params)
      else s.parameter? name
    let isSet (colon : Bool) : Bool :=
      if isList && !colon then true
      else match value? with
      | some v => !colon || v ≠ ""
      | none => false
    let value : Act (List Bit) := do
      if isList then
        if quoted && name = "*" then
          let sep := (s.separators.head?.map String.singleton).getD ""
          return bitsOf (Pieces.join sep s.params) true true
        else return bitsOfList quoted s.params
      else
        match value? with
        | some v => return bitsOf v quoted true
        | none =>
          if s.options.contains 'u' && form matches .value then abort (name ++ ": parameter not set")
          else return bitsOf "" quoted true
    match form with
    | .value => value
    | .length =>
      let length := if isList then s.params.length else (value?.getD "").utf8ByteSize
      return bitsOf (toString length) quoted true
    | .orElse colon word => if isSet colon then value else bits programs n true word
    | .instead colon word => if isSet colon then bits programs n true word else bitsOf "" quoted true |> pure
    | .assign colon word =>
      if isSet colon then value
      else do
        let text ← whole programs n word
        if !isName name.toList then abort (name ++ ": bad variable name")
        else do
          assign name text
          return bitsOf text quoted true
    | .demand colon word =>
      if isSet colon then value
      else do
        let text ← whole programs n word
        let why :=
          if word.isEmpty then "parameter not set" ++ (if colon then " or null" else "") else text
        abort (name ++ ": " ++ why)
    | .trim atEnd longest pattern => do
      let marks := marksOf (← bits programs n false pattern)
      let items := Pattern.ofMarks marks
      let text := (value?.getD "").toList
      let trimmed :=
        if atEnd then Pattern.trimEnd items longest text else Pattern.trimStart items longest text
      return bitsOf (String.ofList trimmed) quoted true
    | .unknown => abort "Bad substitution"

/-- The text of a word that is not cut into fields. -/
def whole (programs : Programs) : Nat → Word → Act String
  | 0, _ => throw .exhausted
  | n + 1, word => do
    let s ← get
    let (home, word) := splitTilde s word
    return Pattern.plain (marksOf (home ++ (← bits programs n false word)))

/-- The fields of a word. -/
def fields (programs : Programs) : Nat → Word → Act (List String)
  | 0, _ => throw .exhausted
  | n + 1, word => do
    let (home, word) := splitTilde (← get) word
    let expanded ← bits programs n false word
    let s ← get
    let cut := fieldsOf s.separators none false (home ++ expanded)
    return cut.flatMap fun field =>
      if s.options.contains 'f' then [Pattern.plain field]
      else Pattern.expand s.files s.cwd field

/-- The fields of words, one after another. -/
def fieldsOfAll (programs : Programs) : Nat → Bool → List Word → Act (List String)
  | 0, _, _ => throw .exhausted
  | _, _, [] => return []
  | n + 1, declares, w :: rest => do
    let here ←
      if declares && Reader.isAssignment w then do pure [← whole programs n w]
      else fields programs n w
    let more ← fieldsOfAll programs n declares rest
    return here ++ more

/-- What a command writes, without the line ends at its end. -/
def substitute (programs : Programs) : Nat → Option Command → Act String
  | 0, _ => throw .exhausted
  | _, none => do
    modify fun s => { s with outputStatus := 0 }
    return ""
  | n + 1, some body => do
    let before := (← get).status
    let bytes ← collecting (inSubshell (toTheEnd programs n (exec programs n false body)))
    modify fun s => { s with outputStatus := s.status, status := before }
    return String.ofList ((decode bytes).toList.reverse.dropWhile (· = '\n')).reverse

/-- Opens redirections from the left; false if one failed. -/
def redirect (programs : Programs) : Nat → List Redirect → Act Bool
  | 0, _ => throw .exhausted
  | _, [] => return true
  | n + 1, r :: rest => do
    let opened ←
      match r with
      | .read fd path => do openInput fd (← whole programs n path)
      | .write fd path => do openOutput fd (← whole programs n path) true
      | .append fd path => do openOutput fd (← whole programs n path) false
      | .readWrite fd path => do
        let name ← whole programs n path
        if fd = 0 then openInput fd name else openOutput fd name false
      | .duplicate fd source => do duplicate fd (← whole programs n source)
      | .document fd index => do
        let s ← get
        let doc := ((s.documents.find? (·.1 = index)).map Prod.snd).getD []
        let text ← whole programs n doc
        modify (·.feed fd (utf8 text))
        pure true
    if opened then redirect programs n rest else return false

/-- Runs `m` with redirections in place, and takes them back. -/
def redirecting (programs : Programs) : Nat → List Redirect → Bool → Act Unit → Act Unit
  | 0, _, _, _ => throw .exhausted
  | n + 1, rs, isSpecial, m => do
    let before ← get
    let feeds := rs.any fun
      | .read fd _ | .readWrite fd _ | .document fd _ | .duplicate fd _ => fd = 0
      | _ => false
    let back (after : State) : State :=
      { after with
        sinks := before.sinks
        inputs := before.inputs
        input := if feeds then before.input else after.input }
    let opened ←
      try redirect programs n rs
      catch e => do
        modify back
        throw e
    if opened then do
      try m
      catch e => do
        modify back
        throw e
      modify back
    else do
      modify back
      finish 2
      if isSpecial then throw .exit

/-- Runs a command.  A failure of one that is not tested may end the shell. -/
def exec (programs : Programs) : Nat → Bool → Command → Act Unit
  | 0, _, _ => throw .exhausted
  | n + 1, tested, c => do
    if (← get).options.contains 'n' then return ()
    match c with
    | .simple line assigned words redirects => do
      if !(assigned.isEmpty && words.isEmpty && redirects.isEmpty) then
        modify fun s => { s with line := line }
        simple programs n tested assigned words redirects
        checkFailure tested
    | .pipeline stages => do
      stage programs n tested stages
      checkFailure tested
    | .negated body => do
      exec programs n true body
      modify fun s => { s with status := if s.status = 0 then 1 else 0 }
    | .both first second => do
      exec programs n true first
      if (← get).status = 0 then exec programs n tested second
    | .either first second => do
      exec programs n true first
      if (← get).status ≠ 0 then exec programs n tested second
    | .sequence first second => do
      exec programs n tested first
      exec programs n tested second
    | .background body => do
      inSubshell (toTheEnd programs n do
        modify fun s => { s with input := [] }
        exec programs n tested body)
      finish 0
    | .redirected body redirects => do
      redirecting programs n redirects false (exec programs n tested body)
      checkFailure tested
    | .subshell body => do
      inSubshell (toTheEnd programs n <| exec programs n tested body)
      checkFailure tested
    | .branch test yes no => do
      exec programs n true test
      if (← get).status = 0 then exec programs n tested yes
      else
        match no with
        | some no => exec programs n tested no
        | none => finish 0
    | .loop untilTrue test body => do
      modify fun s => { s with loops := s.loops + 1 }
      rounds programs n tested untilTrue test body 0
      modify fun s => { s with loops := s.loops - 1 }
    | .each line name items body => do
      modify fun s => { s with line := line }
      let values ←
        match items with
        | some words => fieldsOfAll programs n false words
        | none => pure (← get).params
      finish 0
      modify fun s => { s with loops := s.loops + 1 }
      eachRound programs n tested name body values
      modify fun s => { s with loops := s.loops - 1 }
    | .choose line subject cases => do
      modify fun s => { s with line := line }
      let text ← whole programs n subject
      finish 0
      choose programs n tested text.toList cases
    | .define name body => do
      modify fun s => { s with functions := s.functions.insert name body, status := 0 }

/-- Runs the commands of a pipeline, each on the output of the one before. -/
def stage (programs : Programs) : Nat → Bool → List Command → Act Unit
  | 0, _, _ => throw .exhausted
  | _, _, [] => return ()
  | n + 1, tested, [last] => inSubshell (toTheEnd programs n <| exec programs n tested last)
  | n + 1, tested, first :: rest => do
    let outer := (← get).input
    let bytes ← collecting (inSubshell (toTheEnd programs n <| exec programs n tested first))
    modify fun s => { s with input := bytes }
    stage programs n tested rest
    modify fun s => { s with input := outer }

/-- Runs the body of a loop once; false ends the loop. -/
def round (programs : Programs) : Nat → Bool → Command → Act Bool
  | 0, _, _ => throw .exhausted
  | n + 1, tested, body => do
    let loops := (← get).loops
    try
      exec programs n tested body
      return true
    catch
      | .fromLoops 1 => do
        modify fun s => { s with loops := loops }
        return false
      | .nextRound 1 => do
        modify fun s => { s with loops := loops }
        return true
      | .fromLoops k => do
        modify fun s => { s with loops := loops - 1 }
        throw (.fromLoops (k - 1))
      | .nextRound k => do
        modify fun s => { s with loops := loops - 1 }
        throw (.nextRound (k - 1))
      | e => throw e

/-- Runs the rounds of a loop; `status` is that of the last one. -/
def rounds (programs : Programs) : Nat → Bool → Bool → Command → Command → Nat → Act Unit
  | 0, _, _, _, _, _ => throw .exhausted
  | n + 1, tested, untilTrue, test, body, status => do
    exec programs n true test
    let holds := (← get).status = 0
    if holds = untilTrue then finish status
    else do
      let more ← round programs n tested body
      if more then rounds programs n tested untilTrue test body (← get).status

/-- Runs the body for every value. -/
def eachRound (programs : Programs) : Nat → Bool → String → Command → List String → Act Unit
  | 0, _, _, _, _ => throw .exhausted
  | _, _, _, _, [] => return ()
  | n + 1, tested, name, body, v :: rest => do
    assign name v
    let more ← round programs n tested body
    if more then eachRound programs n tested name body rest

/-- Runs the first case with a pattern that matches. -/
def choose (programs : Programs) :
    Nat → Bool → List Char → List (List Word × Option Command) → Act Unit
  | 0, _, _, _ => throw .exhausted
  | _, _, _, [] => return ()
  | n + 1, tested, text, (patterns, body) :: rest => do
    let found ← matchesOne programs n text patterns
    if found then
      match body with
      | some c => exec programs n tested c
      | none => return ()
    else choose programs n tested text rest

/-- Whether one of the patterns matches a text. -/
def matchesOne (programs : Programs) : Nat → List Char → List Word → Act Bool
  | 0, _, _ => throw .exhausted
  | _, _, [] => return false
  | n + 1, text, w :: rest => do
    let (home, w) := splitTilde (← get) w
    let marks := marksOf (home ++ (← bits programs n false w))
    if Pattern.matches? (Pattern.ofMarks marks) text then return true
    else matchesOne programs n text rest

/-- Makes assignments from the left. -/
def assignAll (programs : Programs) : Nat → Bool → List Word → Act Unit
  | 0, _, _ => throw .exhausted
  | _, _, [] => return ()
  | n + 1, exported, w :: rest => do
    match w with
    | .text cs q :: more => do
      let name := String.ofList (cs.takeWhile (· ≠ '='))
      let first := (cs.dropWhile (· ≠ '=')).drop 1
      let value ← whole programs n (if first.isEmpty then more else .text first q :: more)
      assign name value
      if exported then modify (·.exportName name)
    | _ => pure ()
    assignAll programs n exported rest

/-- Runs a simple command. -/
def simple (programs : Programs) : Nat → Bool → List Word → List Word → List Redirect → Act Unit
  | 0, _, _, _, _ => throw .exhausted
  | n + 1, tested, assigned, words, redirects => do
    let declares :=
      match words.head?.bind plainText? with
      | some name => name = "export" || name = "readonly" || name = "local"
      | none => false
    modify fun s => { s with outputStatus := 0 }
    let argv ← fieldsOfAll programs n declares words
    let outer := (← get).sinks
    match argv with
    | [] =>
      redirecting programs n redirects false (do
        assignAll programs n false assigned
        trace outer assigned []
        modify fun s => { s with status := s.outputStatus })
    | ["exec"] => do
      trace outer [] argv
      let opened ← redirect programs n redirects
      if opened then finish 0
      else do
        finish 2
        throw .exit
    | name :: args => do
      let s ← get
      let isFunction := s.functions.contains name
      let isSpecial := Reader.specialBuiltins.contains name && !isFunction
      if isSpecial || (builtins.contains name && assigned.isEmpty && !isFunction) then
        redirecting programs n redirects isSpecial (do
          assignAll programs n false assigned
          trace outer assigned argv
          call programs n tested name args)
      else do
        redirecting programs n redirects false (do
          let saved := (← get).vars
          assignAll programs n true assigned
          trace outer assigned argv
          let back (s : State) : State :=
            reveal ((assignedNames assigned).map fun x => (x, saved.get? x)) s
          try call programs n tested name args
          catch e => do
            modify back
            throw e
          modify back)

/-- Calls a function, a built-in command or a program. -/
def call (programs : Programs) : Nat → Bool → String → List String → Act Unit
  | 0, _, _, _ => throw .exhausted
  | n + 1, tested, name, args => do
    let s ← get
    match s.functions.get? name with
    | some body =>
      if Reader.specialBuiltins.contains name then builtin programs n tested name args
      else do
        set { s with params := args, hidden := [] :: s.hidden, loops := 0 }
        let back (after : State) : State :=
          let revealed := reveal (after.hidden.headD []) after
          { revealed with params := s.params, hidden := s.hidden, loops := s.loops }
        try exec programs n tested body
        catch
          | .fromFunction => pure ()
          | e => do
            modify back
            throw e
        modify back
    | none =>
      if builtins.contains name then builtin programs n tested name args
      else startProgram programs (name :: args)

/-- Runs a built-in command. -/
def builtin (programs : Programs) : Nat → Bool → String → List String → Act Unit
  | 0, _, _, _ => throw .exhausted
  | n + 1, tested, name, args => do
    match name with
    | "eval" => do
      finish 0
      let s ← get
      labelled "eval: " (text programs n tested
        ⟨(Pieces.join " " args).toList, s.line, none, [], s.documents, s.nextDocument⟩)
    | "." =>
      match args with
      | [] => finish 0
      | file :: _ => do
        let s ← get
        match s.files.bytes (s.pathOf file) with
        | .ok data =>
          if !file.toList.contains '/' then builtinError name (file ++ ": not found")
          else do
            try
              finish 0
              labelled (file ++ ": ") (text programs n tested
                ⟨(Lossy.text data).toList, 1, none, [], s.documents, s.nextDocument⟩)
            catch
              | .fromFunction => pure ()
              | e => throw e
        | .error _ =>
          if file.toList.contains '/' then do
            builtinError name ("cannot open " ++ file ++ ": No such file")
          else builtinError name (file ++ ": not found")
    | "exec" => do
      labelled "exec: " (startProgram programs args)
      throw .exit
    | "command" =>
      match args with
      | [] => finish 0
      | "-v" :: rest => (rest.take 1).forM (describe programs)
      | "-V" :: rest => plainBuiltin programs "type" rest
      | a :: rest =>
        let (a, rest) := if a = "-p" || a = "--" then (rest.headD "", rest.tail) else (a, rest)
        if builtins.contains a then
          try builtin programs n tested a rest
          catch e => do
            if a ≠ "exit" && a ≠ "exec" && e = .exit then pure () else throw e
        else startProgram programs (a :: rest)
    | _ => plainBuiltin programs name args

/-- Runs `m`, and then what is to run when the shell ends. -/
def toTheEnd (programs : Programs) : Nat → Act Unit → Act Unit
  | 0, _ => throw .exhausted
  | n + 1, m => do
    try m
    catch
      | .exhausted => throw .exhausted
      | _ => pure ()
    let s ← get
    match s.onExit with
    | none => return ()
    | some action => do
      set { s with onExit := none }
      try
        text programs n false ⟨action.toList, 1, none, [], s.documents, s.nextDocument⟩
        finish s.status
      catch
        | .exhausted => throw .exhausted
        | _ => pure ()

/-- Runs a script line by line. -/
def text (programs : Programs) : Nat → Bool → Source → Act Unit
  | 0, _, _ => throw .exhausted
  | n + 1, tested, source => do
    match Reader.nextLine.run source with
    | .error e => do
      modify fun s => { s with line := e.line }
      abort e.text
    | .ok (line, source) => do
      modify fun s =>
        { s with documents := source.documents, nextDocument := source.nextDocument }
      match line with
      | .done => return ()
      | .blank => text programs n tested source
      | .commands c => do
        exec programs n tested c
        let s ← get
        text programs n tested
          { source with
            documents := s.documents
            nextDocument := s.nextDocument }

end

/-! ## Whole scripts -/

/-- The search path of a shell whose environment has none. -/
def defaultSearchPath : String := "/usr/local/sbin:/usr/local/bin:/usr/sbin:/usr/bin:/sbin:/bin"

/-- The variables a shell starts with: its own, and those of its environment that have a name. -/
def startVariables (child : Child) (cwd : String) : Table Variable :=
  let own : List (String × Variable) :=
    [("IFS", ⟨some " \t\n", false, false⟩), ("OPTIND", ⟨some "1", false, false⟩),
      ("PATH", ⟨some defaultSearchPath, false, false⟩), ("PS1", ⟨some "# ", false, false⟩),
      ("PS2", ⟨some "> ", false, false⟩), ("PS4", ⟨some "+ ", false, false⟩)]
  let given := child.env.filter fun (name, _) => isName name.toList && name ≠ "IFS"
  Table.ofList (own ++ given.map (fun (name, v) => (name, ⟨some v, true, false⟩)) ++
    [("PWD", ⟨some cwd, true, false⟩)])

/-- The state a shell starts in. -/
def State.ofChild (child : Child) (zero : String) (params : List String) (options : List Char)
    (files : FileSystem) : State :=
  let cwd := (Directory.told? files child).getD (Directory.plain child.cwd)
  { files, cwd, zero, params, options
    vars := startVariables child cwd
    functions := .empty
    status := 0
    outputStatus := 0
    sinks := [(1, .stream 1), (2, .stream 2)]
    input := child.input
    inputs := []
    written := []
    nextStream := 3
    documents := []
    nextDocument := 0
    line := 1
    label := ""
    hidden := []
    loops := 0
    onExit := none }

/-- The streams of the shell itself, in the order in which they were written. -/
def State.channels (s : State) : List (Channel × List UInt8) :=
  s.written.reverse.filterMap fun (number, bytes) =>
    if number = 1 then some (.out, bytes) else if number = 2 then some (.err, bytes) else none

/-- Runs a script. -/
def runScript (programs : Programs) (depth : Nat) (script : String) (start : State) :
    Outcome Finished × FileSystem :=
  let source : Source := ⟨script.toList, 1, none, [], [], 0⟩
  match (toTheEnd programs depth (text programs depth false source)).run.run start with
  | (.ok _, s) => (.ok ⟨s.status, s.channels, s.input⟩, s.files)
  | (.error _, s) => (.exhausted, s.files)

end Kiln.Shell
