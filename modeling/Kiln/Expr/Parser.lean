import Kiln.Expr
import Kiln.Token.Stream

/-!
# Kiln.Expr.Parser — reading expressions

Operator levels are climbed: `expressionWithin n level` reads an operand and then all operators that
bind at least as tight as `level`, and the right side of an operator is read at the operator's own
level.  So equal operators group to the right, and `?:` is read at level 0 only.

Every function takes a bound on its depth.  `Stream.depthBound` is large enough for any text: from one
token that is read to the next, no more than five functions call one another (a dictionary's pairs,
their key, an expression, an operand, a primary).  `expression` supplies it.
-/

namespace Kiln

/-- A bound on how deep reading can go from here. -/
def Stream.depthBound (s : Stream) : Nat :=
  8 * (s.rest.length + s.torn + s.pushed.length) + 8

namespace Parser

/-- A call of a built-in function with an admissible number of arguments, or of any other name. -/
def finishCall (name : String) (args : List Expr) : Parser Expr :=
  match Builtin.ofName? name with
  | none => return .call name args
  | some b =>
    match b.arityComplaint? args.length with
    | some text => complain text
    | none => return .builtin b args

/-- The bracket that closes the right side of a subscript. -/
def closeSubscript (op : BinaryOp) : Parser Unit :=
  if op = .subscript then do
    let _ ← expect "]" "Expected ] at the end of subscript"
    return ()
  else return ()

mutual

/-- An expression whose operators bind at `level` or tighter. -/
def expressionWithin : Nat → Nat → Parser Expr
  | 0, _ => .stuck
  | n + 1, level => do
    let left ← operandWithin n
    operatorsWithin n level left

/-- The operators that follow `left`, as far as they bind at `level` or tighter. -/
def operatorsWithin : Nat → Nat → Expr → Parser Expr
  | 0, _, _ => .stuck
  | n + 1, level, left => do
    let t ← token
    if t.kind ≠ .op ∧ t.kind ≠ .punct then do
      pushBack t
      return left
    else if t.text = "." then do
      let name ← token
      if name.kind ≠ .name then do
        pushBack name
        pushBack t
        return left
      else do
        let next ← token
        if next.reads "(" then do
          let args ← argumentsWithin n
          let call ← finishCall name.text (left :: args)
          operatorsWithin n level call
        else do
          pushBack next
          operatorsWithin n level (.binary .subscript left (.str name.text))
    else if t.text = "?" then
      if level > 0 then do
        pushBack t
        return left
      else do
        let yes ← expressionWithin n 0
        let _ ← expect ":" "Expects :"
        let no ← expressionWithin n 0
        operatorsWithin n level (.ternary left yes no)
    else
      match BinaryOp.ofToken? t.text with
      | none => do
        pushBack t
        return left
      | some (op, compound) =>
        if op.level < level then do
          pushBack t
          return left
        else do
          let right ← expressionWithin n op.level
          closeSubscript op
          operatorsWithin n level (op.join compound left right)

/-- A primary expression and a `++` or `--` after it. -/
def operandWithin : Nat → Parser Expr
  | 0 => .stuck
  | n + 1 => do
    let base ← primaryWithin n
    let t ← token
    match t.kind, Bump.ofText? t.text with
    | .op, some b => return .bump b .after base
    | _, _ => do
      pushBack t
      return base

/-- A constant, variable, call, bracketed expression, array, dictionary, or an operator before an
operand. -/
def primaryWithin : Nat → Parser Expr
  | 0 => .stuck
  | n + 1 => do
    let t ← token
    match t.kind with
    | .num => return .const (.int (Text.Numeral.literal t.text))
    | .str => return .str t.text
    | .name => do
      let next ← token
      if next.reads "(" then do
        let args ← argumentsWithin n
        finishCall t.text args
      else do
        pushBack next
        return .var t.text
    | .op =>
      match UnaryOp.ofText? t.text, Bump.ofText? t.text with
      | some op, _ => do
        let arg ← operandWithin n
        return .unary op arg
      | none, some b => do
        let arg ← operandWithin n
        return .bump b .before arg
      | none, none => complain "Not an unary operation"
    | .punct =>
      if t.text = "(" then do
        let e ← expressionWithin n 0
        let _ ← expect ")" "Expected )"
        return e
      else if t.text = "[" then do
        let elements ← elementsWithin n
        return .array elements
      else if t.text = "\x7b" then do
        let pairs ← pairsWithin n
        return .dict pairs
      else complain "Unexpected token"
    | .eof => complain "Unexpected token"

/-- The arguments of a call after its opening bracket, and the closing one. -/
def argumentsWithin : Nat → Parser (List Expr)
  | 0 => .stuck
  | n + 1 => do
    let t ← token
    if t.reads ")" then return []
    else do
      pushBack t
      let arg ← expressionWithin n 0
      let separator ← token
      if separator.reads ")" then return [arg]
      else if separator.reads "," then do
        let rest ← argumentsWithin n
        return arg :: rest
      else complain "Expected ) or ,"

/-- The elements of an array after its opening bracket, and the closing one. -/
def elementsWithin : Nat → Parser (List Expr)
  | 0 => .stuck
  | n + 1 => do
    let t ← token
    if t.reads "]" then return []
    else do
      pushBack t
      let element ← expressionWithin n 0
      let separator ← token
      if separator.reads "]" then return [element]
      else if separator.reads "," then do
        let rest ← elementsWithin n
        return element :: rest
      else complain "Expected , or ]"

/-- The pairs of a dictionary after its opening brace, and the closing one. -/
def pairsWithin : Nat → Parser (List (Expr × Expr))
  | 0 => .stuck
  | n + 1 => do
    let t ← token
    if t.reads "\x7d" then return []
    else do
      let key ← keyWithin n t
      let _ ← expect ":" "Expected :"
      let value ← expressionWithin n 0
      let separator ← token
      if separator.reads "\x7d" then return [(key, value)]
      else if separator.reads "," then do
        let rest ← pairsWithin n
        return (key, value) :: rest
      else complain "Expected , or \x7d"

/-- The key that starts with the token `t`: a name after a point, or an expression. -/
def keyWithin : Nat → Token → Parser Expr
  | 0, _ => .stuck
  | n + 1, t =>
    if t.reads "." then do
      let name ← token
      if name.kind = .name then return .str name.text else complain "Expected key name"
    else do
      pushBack t
      expressionWithin n 0

end

/-- An expression whose operators bind at `level` or tighter. -/
def expression (level : Nat) : Parser Expr := fun s =>
  expressionWithin s.depthBound level s

/-- An expression and the end of the text. -/
def wholeExpression : Parser Expr := do
  let e ← expression 0
  let t ← token
  if t.kind = .eof then return e else complain "Unexpected token"

end Parser

/-- The expression that makes up a whole text. -/
def Expr.parse (text : String) : Outcome Expr :=
  (Parser.wholeExpression (.ofText text "<expr>")).1

end Kiln
