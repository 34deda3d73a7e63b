import Kiln.Shell.Syntax
import Kiln.Text.Numeral

/-!
# Kiln.Shell.Arithmetic — integer expressions

Expressions over 64-bit integers with the operators of the C family.  Reading gives a tree;
evaluating it looks names up and collects the values assigned on the way.
-/

namespace Kiln.Shell.Arithmetic

open Kiln.Text

/-- An operator of two operands that are both evaluated. -/
inductive Op where
  | multiply | divide | remainder | add | subtract | shiftLeft | shiftRight
  | less | lessEqual | more | moreEqual | equal | notEqual | and | xor | or
  deriving DecidableEq, Repr

/-- An expression. -/
inductive Expr where
  | number (n : Int)
  | name (text : String)
  | negate (e : Expr)
  | complement (e : Expr)
  | not (e : Expr)
  | binary (op : Op) (l r : Expr)
  | both (l r : Expr)
  | either (l r : Expr)
  | choose (test yes no : Expr)
  /-- Assigns the value, combined with the old one by the operator if there is one. -/
  | assign (name : String) (op : Option Op) (e : Expr)
  deriving Repr

/-- A token. -/
inductive Token where
  | number (n : Int)
  | name (text : String)
  | op (text : String)
  deriving DecidableEq, Repr

/-- A number wrapped to 64 bits. -/
def wrap (n : Int) : Int := Int.bmod n Numeral.wordCount

/-- The largest number, at which literals stop. -/
def maxNumber : Nat := Numeral.maxMagnitude

/-- The number at the start of a text, and what follows. -/
def numeral (cs : List Char) : Int × List Char :=
  let (base, digits) := Numeral.splitBase cs
  let run := digits.takeWhile fun c => (Numeral.digit? base c).isSome
  (min (Numeral.ofDigits base (run.filterMap (Numeral.digit? base))) maxNumber, digits.drop run.length)

/-- The operators, longer ones first. -/
def operators : List String :=
  ["<<=", ">>=", "<<", ">>", "<=", ">=", "==", "!=", "&&", "||", "*=", "/=", "%=", "+=", "-=", "&=",
    "^=", "|=", "*", "/", "%", "+", "-", "<", ">", "&", "^", "|", "!", "~", "?", ":", "=", "(", ")"]

/-- The tokens of an expression; a character that starts none is one of its own. -/
def tokens : Nat → List Char → List Token
  | 0, _ => []
  | _, [] => []
  | bound + 1, c :: rest =>
    if c = ' ' || c = '\t' || c = '\n' then tokens bound rest
    else if c.isDigit then
      let (n, after) := numeral (c :: rest)
      .number n :: tokens bound after
    else if isNameStart c then
      let name := c :: rest.takeWhile isNameChar
      .name (String.ofList name) :: tokens bound (rest.dropWhile isNameChar)
    else
      match operators.find? fun op => op.toList.isPrefixOf (c :: rest) with
      | some op => .op op :: tokens bound ((c :: rest).drop op.length)
      | none => .op (String.singleton c) :: tokens bound rest

/-- Why an expression has no value. -/
inductive Failure where
  /-- An error in the expression. -/
  | bad (text : String)
  /-- A variable whose value is no number. -/
  | illegalNumber (text : String)
  deriving DecidableEq, Repr

/-- The operators of two operands by the level at which they bind, loose ones first. -/
def levels : List (List (String × Op)) :=
  [[("|", .or)], [("^", .xor)], [("&", .and)], [("==", .equal), ("!=", .notEqual)],
    [("<=", .lessEqual), (">=", .moreEqual), ("<", .less), (">", .more)],
    [("<<", .shiftLeft), (">>", .shiftRight)], [("+", .add), ("-", .subtract)],
    [("*", .multiply), ("/", .divide), ("%", .remainder)]]

/-- The operator of an assignment. -/
def assignment? (text : String) : Option (Option Op) :=
  match text with
  | "=" => some none
  | "*=" => some (some .multiply)
  | "/=" => some (some .divide)
  | "%=" => some (some .remainder)
  | "+=" => some (some .add)
  | "-=" => some (some .subtract)
  | "<<=" => some (some .shiftLeft)
  | ">>=" => some (some .shiftRight)
  | "&=" => some (some .and)
  | "^=" => some (some .xor)
  | "|=" => some (some .or)
  | _ => none

/-- A reader of tokens. -/
abbrev Reader (α : Type) := StateT (List Token) (Except Failure) α

/-- Takes an operator if it is next. -/
def accept (text : String) : Reader Bool := do
  match ← get with
  | .op t :: rest => if t = text then set rest; return true else return false
  | _ => return false

/-- Takes one of the given operators if it is next. -/
def acceptOne (ops : List (String × Op)) : Reader (Option Op) := do
  match ← get with
  | .op t :: rest =>
    match Table.find t ops with
    | some op => set rest; return some op
    | none => return none
  | _ => return none

mutual

/-- Reads an assignment or a looser expression. -/
def expression : Nat → Reader Expr
  | 0 => throw (.bad "nested too deep")
  | n + 1 => do
    match ← get with
    | .name x :: .op t :: rest =>
      match assignment? t with
      | some op => do
        set rest
        return .assign x op (← expression n)
      | none => conditional n
    | _ => conditional n

/-- Reads a choice. -/
def conditional : Nat → Reader Expr
  | 0 => throw (.bad "nested too deep")
  | n + 1 => do
    let test ← disjunction n
    if ← accept "?" then do
      let yes ← expression n
      if ← accept ":" then return .choose test yes (← conditional n)
      else throw (.bad "expecting ':'")
    else return test

/-- Reads expressions joined by `||`. -/
def disjunction : Nat → Reader Expr
  | 0 => throw (.bad "nested too deep")
  | n + 1 => do
    let l ← conjunction n
    if ← accept "||" then return .either l (← disjunction n) else return l

/-- Reads expressions joined by `&&`. -/
def conjunction : Nat → Reader Expr
  | 0 => throw (.bad "nested too deep")
  | n + 1 => do
    let l ← level n levels
    if ← accept "&&" then return .both l (← conjunction n) else return l

/-- Reads expressions joined by the operators of the first level and the tighter ones. -/
def level : Nat → List (List (String × Op)) → Reader Expr
  | 0, _ => throw (.bad "nested too deep")
  | n + 1, [] => operand n
  | n + 1, ops :: tighter => do
    let l ← level n tighter
    levelRest n ops tighter l

/-- Reads what follows the first operand at a level. -/
def levelRest : Nat → List (String × Op) → List (List (String × Op)) → Expr → Reader Expr
  | 0, _, _, _ => throw (.bad "nested too deep")
  | n + 1, ops, tighter, l => do
    match ← acceptOne ops with
    | some op => do
      let r ← level n tighter
      levelRest n ops tighter (.binary op l r)
    | none => return l

/-- Reads an operand. -/
def operand : Nat → Reader Expr
  | 0 => throw (.bad "nested too deep")
  | n + 1 => do
    match ← get with
    | .number k :: rest => set rest; return .number k
    | .name x :: rest => set rest; return .name x
    | .op "(" :: rest => do
      set rest
      let e ← expression n
      if ← accept ")" then return e else throw (.bad "expecting ')'")
    | .op "-" :: rest => set rest; return .negate (← operand n)
    | .op "+" :: rest => set rest; operand n
    | .op "!" :: rest => set rest; return .not (← operand n)
    | .op "~" :: rest => set rest; return .complement (← operand n)
    | _ => throw (.bad "expecting primary")

end

/-- Reads a whole expression. -/
def parse (cs : List Char) : Except Failure Expr := do
  let ts := tokens (cs.length + 1) cs
  let (e, rest) ← (expression (16 * ts.length + 32)).run ts
  if rest.isEmpty then return e else throw (.bad "expecting EOF")

/-- 1 for true and 0 for false. -/
def truth (b : Bool) : Int := if b then 1 else 0

/-- The value of an operator. -/
def Op.apply (op : Op) (a b : Int) : Except Failure Int :=
  let bits (f : Nat → Nat → Nat) : Int :=
    wrap (f (a % Numeral.wordCount).toNat (b % Numeral.wordCount).toNat)
  match op with
  | multiply => .ok (wrap (a * b))
  | divide => if b = 0 then .error (.bad "division by zero") else .ok (wrap (a.tdiv b))
  | remainder => if b = 0 then .error (.bad "division by zero") else .ok (a.tmod b)
  | add => .ok (wrap (a + b))
  | subtract => .ok (wrap (a - b))
  | shiftLeft => .ok (wrap (a * Int.pow 2 (b % 64).toNat))
  | shiftRight => .ok (a / Int.pow 2 (b % 64).toNat)
  | less => .ok (truth (a < b))
  | lessEqual => .ok (truth (a ≤ b))
  | more => .ok (truth (a > b))
  | moreEqual => .ok (truth (a ≥ b))
  | equal => .ok (truth (a = b))
  | notEqual => .ok (truth (a ≠ b))
  | and => .ok (bits (· &&& ·))
  | xor => .ok (bits (· ^^^ ·))
  | or => .ok (bits (· ||| ·))

/-- The number a whole text stands for; an empty one is 0. -/
def number? (text : String) : Option Int :=
  let (minus, cs) := Numeral.splitSign (text.toList.dropWhile Numeral.isBlank)
  let (n, rest) := numeral cs
  if rest.all Numeral.isBlank then some (if minus then -n else n) else none

/-- An evaluation: the values assigned so far, last one first. -/
abbrev Evaluation (α : Type) := StateT (List (String × Int)) (Except Failure) α

/-- The value of a name. -/
def valueOf (lookup : String → String) (x : String) : Evaluation Int := do
  match Table.find x (← get) with
  | some n => return n
  | none =>
    match number? (lookup x) with
    | some n => return n
    | none => throw (.illegalNumber (lookup x))

/-- The value of an expression, with names looked up by `lookup`. -/
def Expr.eval (lookup : String → String) : Expr → Evaluation Int
  | number n => return n
  | name x => valueOf lookup x
  | negate e => do return wrap (-(← e.eval lookup))
  | complement e => do return wrap (-(← e.eval lookup) - 1)
  | not e => do return truth ((← e.eval lookup) = 0)
  | binary op l r => do
    let a ← l.eval lookup
    let b ← r.eval lookup
    match op.apply a b with
    | .ok n => return n
    | .error f => throw f
  | both l r => do
    let a ← l.eval lookup
    if a = 0 then return 0 else return truth ((← r.eval lookup) ≠ 0)
  | either l r => do
    let a ← l.eval lookup
    if a ≠ 0 then return 1 else return truth ((← r.eval lookup) ≠ 0)
  | choose test yes no => do
    let t ← test.eval lookup
    if t ≠ 0 then yes.eval lookup else no.eval lookup
  | assign x op e => do
    let old ←
      match op with
      | some _ => valueOf lookup x
      | none => pure 0
    let n ← e.eval lookup
    let value ←
      match op with
      | some op =>
        match op.apply old n with
        | .ok v => pure v
        | .error f => throw f
      | none => pure n
    modify ((x, value) :: ·)
    return value

/-- The value of an expression and the values it assigns, first one first. -/
def evaluate (lookup : String → String) (cs : List Char) : Except Failure (Int × List (String × Int)) := do
  let e ← parse cs
  let (n, assigned) ← (e.eval lookup).run []
  return (n, assigned.reverse)

end Kiln.Shell.Arithmetic
