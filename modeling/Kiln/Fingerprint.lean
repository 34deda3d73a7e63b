import Kiln.Step
import Kiln.Stmt
import Kiln.Table
import Kiln.Value

/-!
# Kiln.Fingerprint — what a statement does, as a text

The fingerprint of a statement writes down its syntax without locations, the current value of every
variable it refers to, and the parameters and body of every function it calls, so that it changes
when the code or the data it reads changes.  A call of a function whose body is being written already
contributes its name only, which keeps the fingerprint of recursive functions finite.

Fingerprints are texts; `Kiln.Digest` shortens them.  Writing one fails only where a function that is
called does not exist.
-/

namespace Kiln

/-- What code is read against. -/
structure View where
  /-- The value of a variable, unless it contains itself. -/
  value : String → Option Tree
  functions : Table Function

namespace Fingerprint

/-- What is written of a constant. -/
def literal : Literal → String
  | .int n => Tree.encode (.int n)
  | .str s => Tree.encode (.str s)

/-- The word for the side of an operand on which an operator stands. -/
def sideWord : Side → String
  | .before => "prefix"
  | .after => "postfix"

/-- What is written of a variable. -/
def reference (view : View) (name : String) : Outcome String :=
  match view.value name with
  | some t => .ok (Digest.header "var" ++ ":name:" ++ name ++ ":value:" ++ t.encode)
  | none => .exhausted

section Syntax

variable (view : View) (callee : String → Outcome String)

mutual

/-- The fingerprint of an expression, given that of the functions it calls. -/
def exprWith : Expr → Outcome String
  | .const value => return Digest.header "const" ++ literal value
  | .var name => reference view name
  | .array elements => do
    let es ← labelledWith ":elem:" elements
    return Digest.header "array" ++ es
  | .dict pairs => do
    let ps ← pairsWith pairs
    return Digest.header "dict" ++ ps
  | .unary op arg => do
    let a ← exprWith arg
    return Digest.header "unary" ++ sideWord .before ++ toString op.level ++ ":" ++ a
  | .bump op side arg => do
    let a ← exprWith arg
    return Digest.header "unary" ++ sideWord side ++ toString op.level ++ ":" ++ a
  | .binary op left right => do
    let l ← exprWith left
    let r ← exprWith right
    return Digest.header "binary" ++ toString op.level ++ ":" ++ ":lhs:" ++ l ++ ":rhs:" ++ r
  | .ternary cond yes no => do
    let c ← exprWith cond
    let y ← exprWith yes
    let n ← exprWith no
    return Digest.header "ternary" ++ c ++ y ++ n
  | .builtin fn args => do
    let as ← labelledWith ":arg:" args
    return Digest.header fn.name ++ as
  | .call name args => do
    let f ← callee name
    let as ← labelledWith ":arg:" args
    return Digest.header "call" ++ ":name:" ++ name ++ ":func:" ++ f ++ as

/-- The fingerprints of a list of expressions, each after the label. -/
def labelledWith (label : String) : List Expr → Outcome String
  | [] => return ""
  | e :: rest => do
    let a ← exprWith e
    let as ← labelledWith label rest
    return label ++ a ++ as

/-- The fingerprints of the keys and values of a dictionary. -/
def pairsWith : List (Expr × Expr) → Outcome String
  | [] => return ""
  | (k, v) :: rest => do
    let key ← exprWith k
    let value ← exprWith v
    let ps ← pairsWith rest
    return ":key:" ++ key ++ ":value:" ++ value ++ ps

end

/-- The fingerprint of an optional expression, after the label. -/
def clauseWith (label : String) : Option Expr → Outcome String
  | none => return ""
  | some e => do
    let a ← exprWith view callee e
    return label ++ a

mutual

/-- The fingerprint of a statement, given that of the functions it calls. -/
def stmtWith : Stmt → Outcome String
  | .expr _ e => do
    let a ← exprWith view callee e
    return Digest.header "expr-stmt" ++ a
  | .block _ body => do
    let ss ← stmtsWith body
    return Digest.header "compound" ++ ss
  | .branch _ cond yes none => do
    let c ← exprWith view callee cond
    let y ← stmtWith yes
    return Digest.header "if" ++ "expr:" ++ c ++ "then:" ++ y
  | .branch _ cond yes (some no) => do
    let c ← exprWith view callee cond
    let y ← stmtWith yes
    let n ← stmtWith no
    return Digest.header "if" ++ "expr:" ++ c ++ "then:" ++ y ++ "else:" ++ n
  | .loop _ init cond next body => do
    let i ← clauseWith view callee "init:" init
    let c ← clauseWith view callee "while:" cond
    let n ← clauseWith view callee "next:" next
    let b ← stmtWith body
    return Digest.header "for" ++ i ++ c ++ n ++ "loop:" ++ b
  | .foreach _ name items body => do
    let i ← exprWith view callee items
    let b ← stmtWith body
    return Digest.header "foreach" ++ "init:" ++ i ++ "loop:" ++ b ++ "foreach:" ++ name
  | .breakStmt _ => return Digest.header "break"
  | .continueStmt _ => return Digest.header "continue"
  | .returnStmt _ value => do
    let v ← clauseWith view callee "" value
    return Digest.header "return" ++ v
  | .depends _ paths action => do
    let p ← exprWith view callee paths
    let a ← stmtWith action
    return Digest.header "depends" ++ "expr:" ++ p ++ "stmt:" ++ a
  | .includeStmt _ path => do
    let p ← exprWith view callee path
    return Digest.header "include" ++ p
  | .usingStmt _ path => do
    let p ← exprWith view callee path
    return Digest.header "using" ++ p

/-- The fingerprints of a list of statements. -/
def stmtsWith : List Stmt → Outcome String
  | [] => return ""
  | s :: rest => do
    let a ← stmtWith s
    let as ← stmtsWith rest
    return a ++ as

end

end Syntax

/-- The parameters of a function, each after a label. -/
def parameters (params : List String) : String :=
  String.join (params.map fun p => ":arg:" ++ p)

/-- What a call of `name` contributes of the function, inside of the bodies of the functions
`active`.  No more than `depth` further bodies are opened; as many as there are functions suffice. -/
def functionWithin (view : View) : Nat → List String → String → Outcome String
  | 0, active, name =>
    if active.contains name then .ok ""
    else
      match view.functions.get? name with
      | none => .error (.fault (.undefinedFunction name))
      | some _ => .exhausted
  | depth + 1, active, name =>
    if active.contains name then .ok ""
    else
      match view.functions.get? name with
      | none => .error (.fault (.undefinedFunction name))
      | some f => do
        let body ← stmtWith view (functionWithin view depth (name :: active)) f.body
        return parameters f.params ++ ":body:" ++ body

/-- What a call of a name contributes of the function. -/
def function (view : View) : String → Outcome String :=
  functionWithin view view.functions.size []

/-- The fingerprint of an expression. -/
def expr (view : View) (e : Expr) : Outcome String :=
  exprWith view (function view) e

/-- The fingerprint of a statement. -/
def stmt (view : View) (s : Stmt) : Outcome String :=
  stmtWith view (function view) s

end Fingerprint

end Kiln
