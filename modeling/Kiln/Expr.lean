import Kiln.Builtin

/-!
# Kiln.Expr — expressions

The syntax of expressions, and the operators with their levels: the higher its level, the tighter an
operator binds.  Levels are also part of what is recorded of an expression when it is fingerprinted.
-/

namespace Kiln

/-- A constant in a source text. -/
inductive Literal where
  | int (n : Int32)
  | str (s : String)
  deriving DecidableEq, Repr

/-- Operators between two operands; `subscript` is `a[b]`. -/
inductive BinaryOp where
  | assign
  | and
  | or
  | equal
  | notEqual
  | less
  | lessEqual
  | more
  | moreEqual
  | add
  | subtract
  | divide
  | multiply
  | subscript
  deriving DecidableEq, Repr

/-- Operators before one operand that only read it. -/
inductive UnaryOp where
  | negate
  | complement
  | not
  deriving DecidableEq, Repr

/-- The operators `++` and `--`, which write their operand. -/
inductive Bump where
  | up
  | down
  deriving DecidableEq, Repr

/-- On which side of its operand `++` or `--` stands. -/
inductive Side where
  | before
  | after
  deriving DecidableEq, Repr

namespace BinaryOp

/-- How tight the operator binds. -/
def level : BinaryOp → Nat
  | assign => 0
  | and => 1
  | or => 2
  | equal => 3
  | notEqual => 4
  | less => 5
  | lessEqual => 6
  | more => 7
  | moreEqual => 8
  | add => 9
  | subtract => 10
  | divide => 11
  | multiply => 12
  | subscript => 15

/-- The text that starts the operator's right side. -/
def text : BinaryOp → String
  | assign => "="
  | and => "&&"
  | or => "||"
  | equal => "=="
  | notEqual => "!="
  | less => "<"
  | lessEqual => "<="
  | more => ">"
  | moreEqual => ">="
  | add => "+"
  | subtract => "-"
  | divide => "/"
  | multiply => "*"
  | subscript => "["

/-- Every operator between two operands. -/
def all : List BinaryOp :=
  [assign, and, or, equal, notEqual, less, lessEqual, more, moreEqual, add, subtract, divide, multiply,
    subscript]

/-- The operator of a token. -/
def ofText? (text : String) : Option BinaryOp :=
  all.find? fun op => op.text = text

/-- The operator of a token `op=` that is no operator itself. -/
def ofCompound? (text : String) : Option BinaryOp :=
  match text.toList.reverse with
  | '=' :: before => ofText? (String.ofList before.reverse)
  | _ => none

/-- The operator of a token, and whether the token is a compound assignment `op=` of it. -/
def ofToken? (text : String) : Option (BinaryOp × Bool) :=
  match ofText? text with
  | some op => some (op, false)
  | none => (ofCompound? text).map fun op => (op, true)

end BinaryOp

namespace UnaryOp

/-- How tight the operator binds. -/
def level : UnaryOp → Nat
  | negate => 16
  | complement => 17
  | not => 18

/-- The operator of a token. -/
def ofText? : String → Option UnaryOp
  | "-" => some negate
  | "~" => some complement
  | "!" => some not
  | _ => none

end UnaryOp

namespace Bump

/-- How tight the operator binds. -/
def level : Bump → Nat
  | up => 13
  | down => 14

/-- The operator of a token. -/
def ofText? : String → Option Bump
  | "++" => some up
  | "--" => some down
  | _ => none

/-- What the operator does to a number, wrapping at 32 bits. -/
def apply : Bump → Int32 → Int32
  | up, n => n + 1
  | down, n => n - 1

end Bump

/-- An expression. -/
inductive Expr where
  | const (value : Literal)
  | var (name : String)
  | array (elements : List Expr)
  /-- Keys and values in source order. -/
  | dict (pairs : List (Expr × Expr))
  | unary (op : UnaryOp) (arg : Expr)
  | bump (op : Bump) (side : Side) (arg : Expr)
  | binary (op : BinaryOp) (left right : Expr)
  | ternary (cond yes no : Expr)
  | builtin (fn : Builtin) (args : List Expr)
  /-- A call of a function of the script, found by name when it is evaluated. -/
  | call (name : String) (args : List Expr)
  deriving Repr

/-- A string constant. -/
def Expr.str (text : String) : Expr := .const (.str text)

/-- The expression of an operator between two operands; a compound assignment assigns the result to
its left operand. -/
def BinaryOp.join (op : BinaryOp) (compound : Bool) (left right : Expr) : Expr :=
  if compound then .binary .assign left (.binary op left right) else .binary op left right

end Kiln
