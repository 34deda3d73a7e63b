import Kiln.Program.Usage

/-!
# Kiln.Program.Cat — copying files to the output

`cat` copies its input or the files it is given to its output.  Options number the lines, squeeze empty
ones, or make characters visible that are not.
-/

namespace Kiln.Program.Cat

open Kiln.Text

/-- What the options ask for. -/
structure Options where
  numberAll : Bool := false
  numberFilled : Bool := false
  squeeze : Bool := false
  showEnds : Bool := false
  showTabs : Bool := false
  showOthers : Bool := false

/-- The options with one letter added. -/
def Options.add (o : Options) (c : Char) : Options :=
  match c with
  | 'A' => { o with showEnds := true, showTabs := true, showOthers := true }
  | 'b' => { o with numberFilled := true }
  | 'e' => { o with showEnds := true, showOthers := true }
  | 'E' => { o with showEnds := true }
  | 'n' => { o with numberAll := true }
  | 's' => { o with squeeze := true }
  | 't' => { o with showTabs := true, showOthers := true }
  | 'T' => { o with showTabs := true }
  | 'v' => { o with showOthers := true }
  | _ => o

/-- The letters of the options. -/
def letters : List Char := "AbeEnstTuv".toList

/-- The long names of options. -/
def longNames : List (String × Char) :=
  [("number-nonblank", 'b'), ("number", 'n'), ("squeeze-blank", 's'), ("show-nonprinting", 'v'),
    ("show-ends", 'E'), ("show-tabs", 'T'), ("show-all", 'A')]

/-- Where the copy stands. -/
structure Progress where
  /-- The number of the last numbered line. -/
  line : Nat
  /-- How many line ends were just written. -/
  ends : Nat

/-- A byte made visible. -/
def visible (b : UInt8) : List UInt8 :=
  let low (b : UInt8) : List UInt8 :=
    if b = 127 then [94, 63] else if b < 32 then [94, b + 64] else [b]
  if b < 128 then low b else [77, 45] ++ low (b - 128)

/-- What one byte is shown as. -/
def Options.show (o : Options) (b : UInt8) : List UInt8 :=
  if b = 9 then if o.showTabs then [94, 73] else [9]
  else if o.showOthers then visible b
  else [b]

/-- The number of a line, as it is written before it. -/
def numberText (n : Nat) : List UInt8 :=
  let digits := toString n
  utf8 (String.ofList (List.replicate (6 - digits.length) ' ') ++ digits ++ "\t")

/-- What is written for one byte. -/
def Options.step (o : Options) (acc : List UInt8 × Progress) (b : UInt8) : List UInt8 × Progress :=
  let (out, p) := acc
  let fresh := p.ends > 0
  if b = 10 then
    if o.squeeze && p.ends ≥ 2 then (out, p)
    else
      let numbered := fresh && o.numberAll && !o.numberFilled
      let line := if numbered then p.line + 1 else p.line
      let number := if numbered then numberText line else []
      let bytes := number ++ (if o.showEnds then [36] else []) ++ [10]
      (bytes.reverse ++ out, ⟨line, p.ends + 1⟩)
  else
    let numbered := fresh && (o.numberAll || o.numberFilled)
    let line := if numbered then p.line + 1 else p.line
    let bytes := (if numbered then numberText line else []) ++ o.show b
    (bytes.reverse ++ out, ⟨line, 0⟩)

/-- The copy of some bytes. -/
def Options.copy (o : Options) (p : Progress) (bytes : List UInt8) : List UInt8 × Progress :=
  let (out, p) := bytes.foldl o.step ([], p)
  (out.reverse, p)

/-- Copies the files one after another. -/
def files (fs : FileSystem) (child : Child) (o : Options) :
    Progress → List UInt8 → List String → Finished
  | _, unread, [] => ⟨0, [], unread⟩
  | p, unread, name :: rest =>
    let copied (bytes unread : List UInt8) : Finished :=
      let (out, p) := o.copy p bytes
      let after := files fs child o p unread rest
      { after with written := (.out, out) :: after.written }
    if name = "-" then copied unread []
    else if name = "/dev/null" then copied [] unread
    else
      match fs.bytes (if name = "" then "" else Path.join child.cwd name) with
      | .ok data => copied data.toList unread
      | .error e =>
        let after := files fs child o p unread rest
        let why := match e with | .os code => code.text | e => e.message
        let text := child.name ++ ": " ++ Usage.quoteName name ++ ": " ++ why ++ "\n"
        ⟨1, (.err, utf8 text) :: after.written, after.unread⟩

/-- Runs the program. -/
def run (fs : FileSystem) (child : Child) : Finished :=
  match Usage.read letters longNames child.argv.tail with
  | .error text => child.complain 1 (Usage.complaint child.name text)
  | .ok (options, names) =>
    files fs child (options.foldl Options.add {}) ⟨0, 1⟩ child.input
      (if names.isEmpty then ["-"] else names)

end Kiln.Program.Cat
