import Kiln.Program.Child
import Kiln.Text.Numeral

/-!
# Kiln.Program.Escape — backslash escapes in what programs write

One reader for the escapes of `echo` and `printf`, which differ in how octal digits are counted, in
hexadecimal escapes, and in whether the text can ask to stop.
-/

namespace Kiln.Program

open Kiln.Text

/-- Which escapes count. -/
structure Escapes where
  /-- Whether a leading zero is no digit of an octal escape. -/
  zeroIsMark : Bool
  /-- Whether `\x` starts a hexadecimal escape. -/
  hexadecimal : Bool
  /-- Whether `\c` ends the text. -/
  canStop : Bool

namespace Escapes

/-- The escapes of the shell's `echo`, and of arguments of `printf` that have them. -/
def ofShellEcho : Escapes := ⟨true, false, true⟩

/-- The escapes of a format of the shell's `printf`. -/
def ofFormat : Escapes := ⟨false, false, false⟩

/-- The escapes of the program `echo`. -/
def ofEcho : Escapes := ⟨true, true, true⟩

/-- The character of a one-letter escape. -/
def letter? (c : Char) : Option UInt8 :=
  match c with
  | 'a' => some 7
  | 'b' => some 8
  | 'e' => some 27
  | 'f' => some 12
  | 'n' => some 10
  | 'r' => some 13
  | 't' => some 9
  | 'v' => some 11
  | '\\' => some 92
  | _ => none

/-- The value of up to `n` digits at the start of a text, and what follows. -/
def digits (base n acc : Nat) : List Char → Nat × List Char
  | [] => (acc, [])
  | c :: rest =>
    match n, Numeral.digit? base c with
    | n + 1, some d => digits base n (acc * base + d) rest
    | _, _ => (acc, c :: rest)

/-- What an escape stands for. -/
inductive Reading where
  | bytes (b : List UInt8) (rest : List Char)
  | stop

/-- Reads the escape after a backslash; an unknown one stands for itself. -/
def read (e : Escapes) : List Char → Reading
  | [] => .bytes [92] []
  | c :: rest =>
    if c = 'c' ∧ e.canStop then .stop
    else
      match letter? c with
      | some b => .bytes [b] rest
      | none =>
        if (Numeral.digit? 8 c).isSome then
          let (n, after) := digits 8 3 0 (if c = '0' ∧ e.zeroIsMark then rest else c :: rest)
          .bytes [UInt8.ofNat n] after
        else if c = 'x' ∧ e.hexadecimal ∧ (rest.head?.bind (Numeral.digit? 16)).isSome then
          let (n, after) := digits 16 2 0 rest
          .bytes [UInt8.ofNat n] after
        else .bytes (utf8 (String.ofList ['\\', c])) rest

/-- The bytes of a text with escapes, and whether it asked to stop; `bound` bounds its length. -/
def expand (e : Escapes) : Nat → List Char → List UInt8 × Bool
  | 0, _ => ([], false)
  | _, [] => ([], false)
  | bound + 1, '\\' :: rest =>
    match e.read rest with
    | .stop => ([], true)
    | .bytes b after =>
      let (bytes, stop) := expand e bound after
      (b ++ bytes, stop)
  | bound + 1, c :: rest =>
    let (bytes, stop) := expand e bound rest
    (utf8 (String.singleton c) ++ bytes, stop)

/-- The bytes of a whole text with escapes, and whether it asked to stop. -/
def expandText (e : Escapes) (text : String) : List UInt8 × Bool :=
  expand e (text.toList.length + 1) text.toList

end Escapes

end Kiln.Program
