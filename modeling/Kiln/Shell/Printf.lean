import Kiln.Program.Escape

/-!
# Kiln.Shell.Printf — formatted output

A format is text with escapes and directives, each of which takes an argument.  It is used again while
it takes arguments and some are left; a directive without an argument takes an empty one.
-/

namespace Kiln.Shell.Printf

open Kiln.Text
open Kiln.Program

/-- A directive: its flags, its width, its precision and its letter. -/
structure Directive where
  flags : List Char
  width : Nat
  precision : Option Nat
  letter : Char

/-- What was done so far. -/
structure Progress where
  args : List String
  written : List (Channel × List UInt8)
  status : Nat
  /-- Whether an argument was taken. -/
  took : Bool

/-- A step of the output; a failure stops it. -/
abbrev Printing (α : Type) := ExceptT Unit (StateM Progress) α

/-- Writes bytes. -/
def put (bytes : List UInt8) : Printing Unit :=
  modify fun p => { p with written := p.written ++ [(.out, bytes)] }

/-- Writes a complaint. -/
def warn (label text : String) (status : Nat) : Printing Unit :=
  modify fun p =>
    { p with written := p.written ++ [(.err, utf8 (label ++ text ++ "\n"))], status := status }

/-- Takes the next argument, if there is one. -/
def next? : Printing (Option String) := do
  let p ← get
  match p.args with
  | [] => return none
  | a :: rest => do
    set { p with args := rest, took := true }
    return some a

/-- The number an argument starts with, within the given limits, and what is wrong with it. -/
def numberOf (text : String) (low high : Int) : Int × Option String :=
  match text.toList with
  | '"' :: c :: _ => ((c.toString.toUTF8.toList.headD 0).toNat, none)
  | '\'' :: c :: _ => ((c.toString.toUTF8.toList.headD 0).toNat, none)
  | cs =>
    let (minus, unsigned) := Numeral.splitSign (cs.dropWhile Numeral.isBlank)
    let (base, digits) := Numeral.splitBase unsigned
    let run := digits.takeWhile fun c => (Numeral.digit? base c).isSome
    let n : Int := Numeral.ofDigits base (run.filterMap (Numeral.digit? base))
    let n := if minus then -n else n
    let limited := max low (min high n)
    if run.isEmpty then (0, if text = "" then none else some "expected numeric value")
    else if run.length < digits.length then (limited, some "not completely converted")
    else if limited ≠ n then (limited, some "Numerical result out of range")
    else (n, none)

/-- Takes the next argument as a number. -/
def nextNumber (label : String) (signed : Bool) : Printing Int := do
  match ← next? with
  | none => return 0
  | some text =>
    let high : Int := if signed then Numeral.maxMagnitude else Numeral.wordCount - 1
    let (n, wrong) := numberOf text (if signed then -high - 1 else -high) high
    match wrong with
    | some why => warn label (text ++ ": " ++ why) 1
    | none => pure ()
    return n

/-- Takes a width or precision: a number in the format, or the next argument. -/
def measure (label : String) (cs : List Char) : Printing (Option Int × List Char) := do
  match cs with
  | '*' :: rest => return (some (← nextNumber label true), rest)
  | cs =>
    let run := cs.takeWhile Char.isDigit
    let n : Int := Numeral.ofDigits 10 (run.filterMap (Numeral.digit? 10))
    return (if run.isEmpty then none else some n, cs.drop run.length)

/-- Bytes filled up to the width of a directive. -/
def Directive.fill (d : Directive) (bytes : List UInt8) : List UInt8 :=
  let blanks := List.replicate (d.width - bytes.length) (32 : UInt8)
  if d.flags.contains '-' then bytes ++ blanks else blanks ++ bytes

/-- Digits with a sign or mark in front, filled up as the directive says. -/
def Directive.fillNumber (d : Directive) (sign digits : List Char) : List UInt8 :=
  let digits :=
    match d.precision with
    | some p => List.replicate (p - digits.length) '0' ++ digits
    | none => digits
  let zeros :=
    if d.flags.contains '0' && !d.flags.contains '-' && d.precision.isNone then
      List.replicate (d.width - sign.length - digits.length) '0'
    else []
  d.fill (utf8 (String.ofList (sign ++ zeros ++ digits)))

/-- The digits of a number. -/
def digitsOf (base n : Nat) : List Char := Nat.toDigits base n

/-- What a directive for a number writes. -/
def Directive.number (d : Directive) (n : Int) : List UInt8 :=
  if d.letter = 'd' || d.letter = 'i' then
    let sign :=
      if n < 0 then ['-'] else if d.flags.contains '+' then ['+']
      else if d.flags.contains ' ' then [' '] else []
    d.fillNumber sign (digitsOf 10 n.natAbs)
  else
    let m := (n % Numeral.wordCount).toNat
    let mark := d.flags.contains '#' && m ≠ 0
    match d.letter with
    | 'o' => d.fillNumber (if mark then ['0'] else []) (digitsOf 8 m)
    | 'x' => d.fillNumber (if mark then ['0', 'x'] else []) (digitsOf 16 m)
    | 'X' => d.fillNumber (if mark then ['0', 'X'] else []) ((digitsOf 16 m).map Char.toUpper)
    | _ => d.fillNumber [] (digitsOf 10 m)

/-- What a directive for a text writes. -/
def Directive.text (d : Directive) (bytes : List UInt8) : List UInt8 :=
  d.fill (match d.precision with | some p => bytes.take p | none => bytes)

/-- Follows one directive, after its percent sign. -/
def directive (label : String) (cs : List Char) : Printing (List Char) := do
  let flags := cs.takeWhile fun c => c = '#' || c = '-' || c = '+' || c = ' ' || c = '0'
  let (width, rest) ← measure label (cs.drop flags.length)
  let (precision, rest) ←
    match rest with
    | '.' :: more => do
      let (p, rest) ← measure label more
      pure (some (p.getD 0), rest)
    | _ => pure (none, rest)
  let width := width.getD 0
  let flags := if width < 0 then '-' :: flags else flags
  match rest with
  | [] => do
    warn label "missing format character" 2
    throw ()
  | c :: after =>
    let d : Directive := ⟨flags, width.natAbs, (precision.filter (0 ≤ ·)).map Int.toNat, c⟩
    if "diouxX".toList.contains c then do
      put (d.number (← nextNumber label (c = 'd' || c = 'i')))
      return after
    else if c = 's' then do
      put (d.text (utf8 ((← next?).getD "")))
      return after
    else if c = 'c' then do
      put (d.fill ((utf8 ((← next?).getD "")).take 1))
      return after
    else if c = 'b' then do
      let (bytes, stop) := Escapes.ofShellEcho.expandText ((← next?).getD "")
      put (d.text bytes)
      if stop then throw ()
      return after
    else do
      let read := cs.take (cs.length - after.length)
      warn label ("%" ++ String.ofList read ++ ": invalid directive") 2
      throw ()

/-- Follows a format once; `bound` bounds its length. -/
def pass (label : String) : Nat → List Char → Printing Unit
  | 0, _ => return ()
  | _, [] => return ()
  | bound + 1, '%' :: '%' :: rest => do
    put [37]
    pass label bound rest
  | bound + 1, '%' :: rest => do
    let after ← directive label rest
    pass label bound after
  | bound + 1, '\\' :: rest =>
    match Escapes.ofFormat.read rest with
    | .bytes b after => do
      put b
      pass label bound after
    | .stop => throw ()
  | bound + 1, c :: rest => do
    put (utf8 (String.singleton c))
    pass label bound rest

/-- Follows a format until no argument is left; `bound` bounds the number of arguments. -/
def passes (label : String) (format : List Char) : Nat → Printing Unit
  | 0 => return ()
  | bound + 1 => do
    modify fun p => { p with took := false }
    pass label (format.length + 1) format
    let p ← get
    if p.took && !p.args.isEmpty then passes label format bound

/-- What a format with arguments writes, and its status. -/
def run (label format : String) (args : List String) : List (Channel × List UInt8) × Nat :=
  let (_, p) := (passes label format.toList (args.length + 1)).run.run ⟨args, [], 0, false⟩
  (p.written, p.status)

end Kiln.Shell.Printf
