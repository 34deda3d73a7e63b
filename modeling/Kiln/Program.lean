import Kiln.Program.Cat
import Kiln.Shell.Run

/-!
# Kiln.Program — programs a script can start

Programs live in the system directories `/bin` and `/usr/bin` and are found along the search path of
their own environment.  They are the few a script needs to talk to the world: `true`, `false`,
`echo`, `pwd`, `cat`, and a shell.  Every other file is not executable.  Scripts are run with these by
`launcher`; what is proved of scripts holds with any others.
-/

namespace Kiln

open Kiln.Text

/-- A program that can be started. -/
inductive Program where
  | succeed
  | fail
  | echo
  | pwd
  | cat
  | shell
  deriving DecidableEq, Repr

namespace Program

/-- Every program, by the name of its file. -/
def table : List (String × Program) :=
  [("true", succeed), ("false", fail), ("echo", echo), ("pwd", pwd), ("cat", cat), ("sh", shell)]

/-- The directories programs live in. -/
def systemDirs : List (List String) := [["bin"], ["usr", "bin"]]

/-- The file system with the files of all programs in place. -/
def install (fs : FileSystem) : FileSystem :=
  systemDirs.foldl (fun fs dir =>
    let path := "/" ++ Pieces.join "/" dir
    table.foldl (fun fs (name, _) =>
      (FileSystem.write (path ++ "/" ++ name) .empty fs).2) (FileSystem.makeDirs path fs).2) fs

/-! ## Finding -/

/-- The program a path leads to. -/
def atPath (fs : FileSystem) (path : String) : Except Errno Program :=
  match fs.locate path with
  | .ok (.found names _) =>
    match names.getLast?.bind fun name => Table.find name table with
    | some p => if systemDirs.contains names.dropLast then .ok p else .error .accessDenied
    | none => .error .accessDenied
  | .ok (.free ..) => .error .noEntry
  | .error (.os e) => .error e
  | .error _ => .error .noEntry

/-- The first program of a list of paths, with its path; a file that is not executable is remembered,
and otherwise the last refusal counts. -/
def firstProgram (fs : FileSystem) : Bool → Errno → List String → Except Errno (String × Program)
  | denied, last, [] => .error (if denied then .accessDenied else last)
  | denied, _, path :: rest =>
    match atPath fs path with
    | .ok p => .ok (path, p)
    | .error e => firstProgram fs (denied || e = .accessDenied) e rest

/-- The program a name stands for along a search path, with its path. -/
def search (fs : FileSystem) (cwd searchPath name : String) : Except Errno (String × Program) :=
  if name = "" then .error .noEntry
  else if name.toList.any Path.isSeparator then
    (atPath fs (Path.join cwd name)).map fun p => (name, p)
  else
    let dirs := Pieces.splitString (· = Path.listSeparator) searchPath
    firstProgram fs false .noEntry (dirs.map fun dir => Path.join (Path.join cwd dir) name)

/-- The search path where the environment has none. -/
def defaultSearchPath : String := "/bin:/usr/bin"

/-- The program that is to be started. -/
def find (fs : FileSystem) (child : Child) : Except Errno Program :=
  match child.path with
  | some path => atPath fs (Path.join child.cwd path)
  | none =>
    let searchPath := (child.value? "PATH").getD defaultSearchPath
    (search fs child.cwd searchPath child.name).map Prod.snd

/-! ## The programs -/

/-- Reads the options of `echo`: whether a line end follows, whether escapes count, and the rest. -/
def echoOptions : Bool → Bool → List String → Bool × Bool × List String
  | newline, escapes, [] => (newline, escapes, [])
  | newline, escapes, a :: rest =>
    match a.toList with
    | '-' :: c :: cs =>
      if (c :: cs).all fun c => c = 'n' || c = 'e' || c = 'E' then
        let newline := newline && !(c :: cs).contains 'n'
        let escapes := (c :: cs).foldl (fun b c => if c = 'e' then true else if c = 'E' then false else b) escapes
        echoOptions newline escapes rest
      else (newline, escapes, a :: rest)
    | _ => (newline, escapes, a :: rest)

/-- What the program `echo` writes. -/
def echoOutput (args : List String) : List UInt8 :=
  let (newline, escapes, words) := echoOptions true false args
  let text := Pieces.join " " words
  let (bytes, stop) := if escapes then Escapes.ofEcho.expandText text else (utf8 text, false)
  if stop || !newline then bytes else bytes ++ [10]

/-- The name of the directory that `pwd` writes: the one it was told only if it is asked to and no
component of it is `.` or `..`. -/
def directoryName (fs : FileSystem) (child : Child) (letters : List Char) : String :=
  let preset := if (child.value? "POSIXLY_CORRECT").isSome then 'L' else 'P'
  let told := if letters.getLastD preset = 'L' then Directory.told? fs child else none
  (told.filter (!Directory.hasDots ·)).getD (Directory.plain child.cwd)

/-- Runs the program `pwd`, which knows two options. -/
def runPwd (fs : FileSystem) (child : Child) : Finished :=
  match Usage.read ['L', 'P'] [("logical", 'L'), ("physical", 'P')] child.argv.tail with
  | .error text => child.complain 1 (Usage.complaint child.name text)
  | .ok (letters, others) =>
    let warning := child.name ++ ": ignoring non-option arguments\n"
    let written := [(Channel.out, utf8 (directoryName fs child letters ++ "\n"))]
    ⟨0, if others.isEmpty then written else (.err, utf8 warning) :: written, child.input⟩

/-- What the arguments of the shell ask for. -/
structure ShellCall where
  options : List Char
  /-- Whether the first argument is the script itself. -/
  isLine : Bool
  args : List String

/-- Reads the options of the shell, up to the first that does not exist. -/
def shellCall (call : ShellCall) : List String → Except Char ShellCall
  | [] => .ok call
  | "--" :: rest => .ok { call with args := rest }
  | "-" :: rest => .ok { call with args := rest }
  | "-o" :: name :: rest => shellCall { call with options := call.options ++ Shell.namedOption name } rest
  | a :: rest =>
    match a.toList with
    | '-' :: cs =>
      match cs.find? fun c => c ≠ 'c' && !Shell.knownOptions.contains c with
      | some c => .error c
      | none =>
        shellCall
          { call with
            options := call.options ++ cs.filter (· ≠ 'c')
            isLine := call.isLine || cs.contains 'c' } rest
    | '+' :: cs => shellCall { call with options := call.options.filter (!cs.contains ·) } rest
    | _ => .ok { call with args := a :: rest }

/-- Runs the shell: a command line after `-c`, a file with commands, or its input. -/
def runShell (programs : Shell.Programs) (depth : Nat) (child : Child) : Disk Finished := fun fs =>
  let zero := child.argv.headD ""
  let label := zero ++ ": 0: "
  let script (name : String) (params : List String) (options : List Char) (text : String)
      (input : List UInt8) : Outcome Finished × FileSystem :=
    Shell.runScript programs depth text (.ofChild { child with input } name params options fs)
  match shellCall ⟨[], false, []⟩ child.argv.tail with
  | .error c => (.ok (child.complain 2 (label ++ "Illegal option -" ++ String.singleton c)), fs)
  | .ok ⟨options, true, args⟩ =>
    match args with
    | [] => (.ok (child.complain 2 (label ++ "-c requires an argument")), fs)
    | [line] => script zero [] options line child.input
    | line :: name :: params => script name params options line child.input
  | .ok ⟨options, false, []⟩ => script zero [] options (decode child.input) []
  | .ok ⟨options, false, file :: params⟩ =>
    if options.contains 's' then script zero (file :: params) options (decode child.input) []
    else
      match fs.bytes (Path.join child.cwd file) with
      | .ok data => script file params options (Lossy.text data) child.input
      | .error (.os .isDirectory) => script file params options "" child.input
      | .error e =>
        let why :=
          match e with
          | .os .noEntry | .os .notDirectory => "No such file"
          | .os code => code.text
          | e => e.message
        (.ok (child.complain 2 (label ++ "cannot open " ++ file ++ ": " ++ why)), fs)

/-- Starts a program and waits for it; `depth` bounds how deep shells may start shells. -/
def launchWithin : Nat → Child → Disk Finished
  | 0, _ => .stuck
  | depth + 1, child => do
    match child.argv with
    | [] => .fail (.io .emptyCommand)
    | _ :: args => do
      let fs ← Step.state
      match fs.node child.cwd with
      | .error e => .fail (.io e)
      | .ok (.file ..) => .fail (.io (.os .notDirectory))
      | .ok (.dir ..) =>
        match find fs child with
        | .error e => .fail (.io (.os e))
        | .ok .succeed => return child.finish 0 []
        | .ok .fail => return child.finish 1 []
        | .ok .echo => return child.finish 0 (echoOutput args)
        | .ok .pwd => return runPwd fs child
        | .ok .cat => return Cat.run fs child
        | .ok .shell => runShell ⟨launchWithin depth, fun fs cwd path name => (search fs cwd path name).map Prod.fst⟩ depth child

/-- How deep shells may start shells, and how long their loops may run. -/
def maxDepth : Nat := 100000000

/-- Whether a text can be handed to a program. -/
def hasNul (s : String) : Bool := s.toList.contains (Char.ofNat 0)

/-- Starts a program and waits for it. -/
def launch (argv : List String) (cwd : String) (env : Table String) : Disk Finished :=
  if argv.any hasNul || env.entries.any fun (k, v) => hasNul k || hasNul v then
    .fail (.io .nulInArgument)
  else launchWithin maxDepth ⟨none, argv, cwd, environment env, []⟩

/-! ## Refusals -/

/-- Ends with an input or output error if it ends with an error. -/
def Refusing (m : Disk Finished) : Prop :=
  ∀ fs e, (m fs).1 = .error e → ∃ cause, e = .io cause

theorem refusing_fail (cause : IoError) : Refusing (.fail (.io cause)) :=
  fun _ _ h => ⟨cause, (Outcome.error.inj h).symm⟩

theorem refusing_pure (f : Finished) : Refusing (pure f) := fun _ _ => nofun

theorem refusing_state {f : FileSystem → Disk Finished} (h : ∀ fs, Refusing (f fs)) :
    Refusing (Step.state >>= f) :=
  fun fs => h fs fs

/-- A shell script does not fail; it reports what goes wrong and goes on. -/
theorem runScript_ne_error (programs : Shell.Programs) (depth : Nat) (script : String)
    (start : Shell.State) (e : Error) : (Shell.runScript programs depth script start).1 ≠ .error e := by
  unfold Shell.runScript
  dsimp only
  split <;> nofun

theorem runShell_ne_error (programs : Shell.Programs) (depth : Nat) (child : Child)
    (fs : FileSystem) (e : Error) : (runShell programs depth child fs).1 ≠ .error e := by
  unfold runShell
  dsimp only
  split
  · nofun
  · split
    · nofun
    · exact runScript_ne_error _ _ _ _ e
    · exact runScript_ne_error _ _ _ _ e
  · exact runScript_ne_error _ _ _ _ e
  · split
    · exact runScript_ne_error _ _ _ _ e
    · split
      · exact runScript_ne_error _ _ _ _ e
      · exact runScript_ne_error _ _ _ _ e
      · nofun

theorem refusing_launchWithin (depth : Nat) (child : Child) : Refusing (launchWithin depth child) := by
  cases depth with
  | zero => exact fun _ _ => nofun
  | succ depth =>
    unfold launchWithin
    split
    · exact refusing_fail _
    · refine refusing_state fun fs => ?_
      split
      · exact refusing_fail _
      · exact refusing_fail _
      · split
        · exact refusing_fail _
        · exact refusing_pure _
        · exact refusing_pure _
        · exact refusing_pure _
        · exact refusing_pure _
        · exact refusing_pure _
        · exact fun _ e h => absurd h (runShell_ne_error _ _ _ _ e)

theorem refusing_launch (argv : List String) (cwd : String) (env : Table String) :
    Refusing (launch argv cwd env) := by
  unfold launch
  split
  · exact refusing_fail _
  · exact refusing_launchWithin _ _

/-- The programs scripts are run with. -/
def launcher : Launcher where
  launch := launch
  refused h := refusing_launch _ _ _ _ _ (Prod.ext_iff.mp h).1

end Program

end Kiln
