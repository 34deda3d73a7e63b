import Kiln.FileSystem
import Kiln.Text.Numeral

/-!
# Kiln.Shell.Test — conditions on files, texts and numbers

The arguments of `test` are read from the left.  The functions here return the arguments from the last
one they used on, so that what follows can be looked at.
-/

namespace Kiln.Shell.Test

open Kiln.Text

/-- What conditions are decided against. -/
structure Ground where
  files : FileSystem
  cwd : String

/-- The operators with one operand. -/
def unaryOps : List String :=
  ["-e", "-f", "-d", "-r", "-w", "-x", "-s", "-n", "-z", "-b", "-c", "-p", "-h", "-L", "-S", "-u",
    "-g", "-k", "-O", "-G", "-t"]

/-- The operators with two operands. -/
def binaryOps : List String :=
  ["=", "!=", "<", ">", "-eq", "-ne", "-gt", "-ge", "-lt", "-le", "-nt", "-ot", "-ef"]

/-- What an argument is taken for. -/
inductive Role where
  | none
  | operand
  | unary
  | binary
  | not
  | and
  | or
  | opening
  | closing
  deriving DecidableEq, Repr

/-- Whether an operator with one operand is an operand itself. -/
def isOperand : List String → Bool
  | [_] => true
  | [_, _] => false
  | _ :: s :: t :: _ => binaryOps.contains s && t ≠ ")"
  | [] => false

/-- What the first argument is taken for. -/
def role (args : List String) : Role :=
  match args with
  | [] => .none
  | s :: rest =>
    if unaryOps.contains s then if isOperand args then .operand else .unary
    else if binaryOps.contains s then .binary
    else if s = "!" then .not
    else if s = "-a" then .and
    else if s = "-o" then .or
    else if s = "(" then if rest.isEmpty then .operand else .opening
    else if s = ")" then .closing
    else .operand

/-- The number an argument stands for. -/
def number (text : String) : Except String Int :=
  let (minus, cs) := Numeral.splitSign (text.toList.dropWhile Numeral.isBlank)
  let run := cs.takeWhile Char.isDigit
  if run.isEmpty || !(cs.drop run.length).all Numeral.isBlank then .error ("Illegal number: " ++ text)
  else
    let n : Int := Numeral.ofDigits 10 (run.filterMap (Numeral.digit? 10))
    .ok (if minus then -n else n)

/-- Decides a condition on one operand. -/
def unary (g : Ground) (op arg : String) : Bool :=
  let path := Path.join g.cwd arg
  let path := if arg = "" then "" else path
  match op with
  | "-n" => arg ≠ ""
  | "-z" => arg = ""
  | "-e" | "-r" | "-w" | "-O" | "-G" => g.files.has path
  | "-f" => g.files.has path && !g.files.isDir path
  | "-d" | "-x" => g.files.isDir path
  | "-s" =>
    match g.files.node path with
    | .ok n => n.size ≠ 0
    | .error _ => false
  | _ => false

/-- Decides a condition on two operands. -/
def binary (g : Ground) (op a b : String) : Except String Bool :=
  let numbers (f : Int → Int → Bool) : Except String Bool := do return f (← number a) (← number b)
  let time? (p : String) : Option Int :=
    match g.files.node (Path.join g.cwd p) with
    | .ok n => some n.modified
    | .error _ => none
  match op with
  | "=" => .ok (a = b)
  | "!=" => .ok (a ≠ b)
  | "<" => .ok (a < b)
  | ">" => .ok (b < a)
  | "-eq" => numbers fun x y => x = y
  | "-ne" => numbers fun x y => x ≠ y
  | "-gt" => numbers fun x y => x > y
  | "-ge" => numbers fun x y => x ≥ y
  | "-lt" => numbers fun x y => x < y
  | "-le" => numbers fun x y => x ≤ y
  | "-nt" =>
    match time? a, time? b with
    | some x, some y => .ok (x > y)
    | _, _ => .ok false
  | "-ot" =>
    match time? a, time? b with
    | some x, some y => .ok (x < y)
    | _, _ => .ok false
  | _ => .ok (g.files.has (Path.join g.cwd a) && Path.absolute g.cwd a = Path.absolute g.cwd b)

mutual

/-- Conditions joined by `-o`. -/
def anyOf (g : Ground) : Nat → Role → List String → Except String (Bool × List String)
  | 0, _, _ => .error "nested too deep"
  | n + 1, r, args => do
    let (first, args) ← allOf g n r args
    if role args.tail = .or then do
      let args := args.drop 2
      let (second, args) ← anyOf g n (role args) args
      return (first || second, args)
    else return (first, args)

/-- Conditions joined by `-a`. -/
def allOf (g : Ground) : Nat → Role → List String → Except String (Bool × List String)
  | 0, _, _ => .error "nested too deep"
  | n + 1, r, args => do
    let (first, args) ← negation g n r args
    if role args.tail = .and then do
      let args := args.drop 2
      let (second, args) ← allOf g n (role args) args
      return (first && second, args)
    else return (first, args)

/-- A condition or its negation. -/
def negation (g : Ground) : Nat → Role → List String → Except String (Bool × List String)
  | 0, _, _ => .error "nested too deep"
  | n + 1, r, args => do
    if r = .not then do
      let next := role args.tail
      let (b, args) ← negation g n next (if next = .none then args else args.tail)
      return (!b, args)
    else primary g n r args

/-- A single condition. -/
def primary (g : Ground) : Nat → Role → List String → Except String (Bool × List String)
  | 0, _, _ => .error "nested too deep"
  | n + 1, r, args => do
    match r, args with
    | .none, args => return (false, args)
    | .opening, args => do
      let next := role args.tail
      if next = .closing then return (false, args.tail)
      else do
        let (b, args) ← anyOf g n next args.tail
        if role args.tail = .closing then return (b, args.tail) else throw "closing paren expected"
    | .unary, op :: arg :: rest => return (unary g op arg, arg :: rest)
    | .unary, op :: [] => throw (op ++ ": argument expected")
    | _, a :: op :: rest =>
      if role (op :: rest) = .binary then
        match rest with
        | b :: rest => do
          let holds ← binary g op a b
          return (holds, b :: rest)
        | [] => throw (op ++ ": argument expected")
      else return (a ≠ "", args)
    | _, [a] => return (a ≠ "", args)
    | _, [] => return (false, [])

end

/-- Decides the condition that all arguments together state, or says why it is none. -/
def run (g : Ground) (args : List String) : Except String Bool := do
  let bound := 4 * args.length + 8
  let (r, args) :=
    match args with
    | [a, op, b] =>
      if binaryOps.contains op then (Role.operand, args)
      else if a = "(" && b = ")" then (role [op], [op])
      else (role args, args)
    | ["(", a, b, ")"] => (role [a, b], [a, b])
    | args => (role args, args)
  if args.isEmpty then return false
  else do
    let (holds, rest) ← anyOf g bound r args
    match rest with
    | a :: _ :: _ => throw (a ++ ": unexpected operator")
    | _ => return holds

end Kiln.Shell.Test
