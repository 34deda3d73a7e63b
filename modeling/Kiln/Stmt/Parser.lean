import Kiln.Expr.Parser
import Kiln.Stmt

/-!
# Kiln.Stmt.Parser — reading statements

A statement is read by its first token: a brace, a keyword, or else an expression with a semicolon.
An `else` belongs to the nearest `if`.  As in `Kiln.Expr.Parser`, depth is bounded, and `statement`
supplies a bound that is large enough.
-/

namespace Kiln

namespace Parser

/-- An optional expression, which is absent when the next token is `stop`. -/
def clauseWithin (n : Nat) (stop : String) : Parser (Option Expr) := do
  let t ← token
  pushBack t
  if t.reads stop then return none
  else do
    let e ← expressionWithin n 0
    return some e

/-- The name and the keyword of a `for (name in` head that has just been opened; otherwise nothing is
read. -/
def foreachHead : Parser (Option String) := do
  let first ← token
  if first.kind = .name then do
    let second ← token
    if second.reads "in" then return some first.text
    else do
      pushBack second
      pushBack first
      return none
  else do
    pushBack first
    return none

/-- The word a statement is recognised by. -/
def keyword (t : Token) : String :=
  match t.kind with
  | .name | .punct => t.text
  | _ => ""

mutual

/-- A statement. -/
def statementWithin : Nat → Parser Stmt
  | 0 => .stuck
  | n + 1 => do
    let t ← token
    let loc ← Step.look fun s => s.locationAt t.line
    match keyword t with
    | "\x7b" => do
      let body ← blockWithin n
      return .block loc body
    | "if" => do
      let _ ← expect "(" "( expected"
      let cond ← expressionWithin n 0
      let _ ← expect ")" ") expected"
      let yes ← statementWithin n
      let next ← token
      if next.reads "else" then do
        let no ← statementWithin n
        return .branch loc cond yes (some no)
      else do
        pushBack next
        return .branch loc cond yes none
    | "for" => do
      let _ ← expect "(" "( expected"
      match ← foreachHead with
      | some name => do
        let items ← expressionWithin n 0
        let _ ← expect ")" ") expected"
        let body ← statementWithin n
        return .foreach loc name items body
      | none => do
        let init ← clauseWithin n ";"
        let _ ← expect ";" "; expected"
        let cond ← clauseWithin n ";"
        let _ ← expect ";" "; expected"
        let next ← clauseWithin n ")"
        let _ ← expect ")" ") expected"
        let body ← statementWithin n
        return .loop loc init cond next body
    | "while" => do
      let _ ← expect "(" "( expected"
      let cond ← expressionWithin n 0
      let _ ← expect ")" ") expected"
      let body ← statementWithin n
      return .loop loc none (some cond) none body
    | "break" => do
      let _ ← expect ";" "; expected"
      return .breakStmt loc
    | "continue" => do
      let _ ← expect ";" "; expected"
      return .continueStmt loc
    | "return" => do
      let value ← clauseWithin n ";"
      let _ ← expect ";" "; expected"
      return .returnStmt loc value
    | "depends" => do
      let _ ← expect "(" "Expected ("
      let paths ← expressionWithin n 0
      let _ ← expect ")" "Expected )"
      let action ← statementWithin n
      return .depends loc paths action
    | "include" => do
      let path ← expressionWithin n 0
      let _ ← expect ";" "; expected"
      return .includeStmt loc path
    | "using" => do
      let path ← expressionWithin n 0
      let _ ← expect ";" "; expected"
      return .usingStmt loc path
    | _ => do
      pushBack t
      let e ← expressionWithin n 0
      let _ ← expect ";" "Expected ; at the end of statement"
      return .expr loc e

/-- The statements of a block after its opening brace, and the closing one. -/
def blockWithin : Nat → Parser (List Stmt)
  | 0 => .stuck
  | n + 1 => do
    let t ← token
    if t.reads "\x7d" then return []
    else if t.kind = .eof then complain "Expected \x7d"
    else do
      pushBack t
      let first ← statementWithin n
      let rest ← blockWithin n
      return first :: rest

end

/-- A statement. -/
def statement : Parser Stmt := fun s =>
  statementWithin s.depthBound s

end Parser

end Kiln
