import Kiln.FileSystem
import Kiln.Text.Lossy

/-!
# Kiln.Program.Child — a program as it is started, and as it ends

A program gets its arguments, a directory, an environment and its standard input.  It leaves a status,
what it wrote, in the order in which it wrote it, and what it left unread.  What programs there are is
a parameter, the `Launcher`.
-/

namespace Kiln.Program

open Kiln.Text

/-- The streams a program writes to. -/
inductive Channel where
  | out
  | err
  deriving DecidableEq, Repr

/-- A program as it is started. -/
structure Child where
  /-- The file of the program; none to look for it by its name. -/
  path : Option String
  /-- The name it is called by, and the arguments. -/
  argv : List String
  cwd : String
  /-- The variables, in order; a name may occur more than once. -/
  env : List (String × String)
  input : List UInt8

/-- A program that has ended. -/
structure Finished where
  status : Nat
  /-- What was written, in order. -/
  written : List (Channel × List UInt8)
  /-- What is left of the input. -/
  unread : List UInt8

/-- What starts programs. -/
structure Launcher where
  /-- Starts a program with its arguments, in a directory and with an environment, and waits for it. -/
  launch : List String → String → Table String → Disk Finished
  /-- A program is refused for one reason only, a failed operation of the system. -/
  refused : ∀ {argv cwd env files files' e}, launch argv cwd env files = (.error e, files') →
    ∃ cause, e = .io cause

/-- Where no program is to be found. -/
def Launcher.none : Launcher where
  launch _ _ _ := .fail (.io (.os .noEntry))
  refused h := ⟨_, (Outcome.error.inj (Prod.ext_iff.mp h).1).symm⟩

/-- The bytes of a string. -/
def utf8 (s : String) : List UInt8 := s.toUTF8.toList

/-- A list of bytes as one piece. -/
def pack (bytes : List UInt8) : ByteArray := bytes.foldl ByteArray.push .empty

/-- The text of bytes, with a replacement character for what is not UTF-8. -/
def decode (bytes : List UInt8) : String := Lossy.text (pack bytes)

/-- The name a program is called by. -/
def Child.name (c : Child) : String := c.argv.headD ""

/-- The first value of a variable. -/
def Child.value? (c : Child) (name : String) : Option String :=
  Table.find name c.env

/-- A program that wrote nothing but to its standard output. -/
def Child.finish (c : Child) (status : Nat) (output : List UInt8) : Finished :=
  ⟨status, [(.out, output)], c.input⟩

/-- A program that ended with a complaint. -/
def Child.complain (c : Child) (status : Nat) (text : String) : Finished :=
  ⟨status, [(.err, utf8 (text ++ "\n"))], c.input⟩

/-- What a program wrote to one of its streams. -/
def Finished.bytesOn (f : Finished) (channel : Channel) : List UInt8 :=
  (f.written.filter (·.1 = channel)).flatMap (·.2)

/-- What a program wrote to its standard output. -/
def Finished.output (f : Finished) : List UInt8 := f.bytesOn .out

/-- What a program wrote to its standard error. -/
def Finished.errors (f : Finished) : List UInt8 := f.bytesOn .err

/-- The variables of an environment.  An entry is passed on as the text `key=value`, so a key with a
`=` in it names the variable before that `=`. -/
def environment (t : Table String) : List (String × String) :=
  t.entries.map fun (key, value) =>
    match Pieces.cut? '=' key.toList with
    | some (name, more) => (String.ofList name, String.ofList more ++ "=" ++ value)
    | none => (key, value)

end Kiln.Program
