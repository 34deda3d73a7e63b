import Kiln.Text.Numeral

/-!
# Kiln.Token — the words of a source text

Tokens, and how one is cut off the front of a text: `skipGap` passes over blanks and comments, and
`lexeme?` takes the longest token that starts with the next character.  A string stands between
double quotes and may run over several lines; one that is never closed ends with the text.
-/

namespace Kiln

open Kiln.Text

/-- What sort of word a token is. -/
inductive TokenKind where
  | str
  | num
  | name
  | punct
  | op
  /-- The end of the text. -/
  | eof
  deriving DecidableEq, Repr

/-- A word of a source text: its kind, its text (of a string: its content), and its line. -/
structure Token where
  kind : TokenKind
  text : String
  line : Nat
  deriving DecidableEq, Repr

namespace Token

/-- Whether a token other than a string reads `text`. -/
def reads (t : Token) (text : String) : Bool :=
  t.kind ≠ .str && t.text = text

/-! ## Between tokens -/

/-- A blank between tokens. -/
def isBlank (c : Char) : Bool :=
  c = ' ' || c = '\t' || c = '\n' || c = '\r'

/-- How many lines a character ends. -/
def lineEnds (c : Char) : Nat :=
  if c = '\n' then 1 else 0

/-- What stands between two tokens. -/
inductive Gap where
  | blanks
  /-- From `//` to the end of the line. -/
  | lineComment
  /-- From `/*` to `*/`. -/
  | blockComment
  deriving DecidableEq, Repr

/-- Passes over blanks and comments; `lines` counts the lines ended so far.  A comment that is never
closed ends with the text. -/
def skipGap : Gap → Nat → List Char → List Char × Nat
  | .blanks, lines, '/' :: '/' :: rest => skipGap .lineComment lines rest
  | .blanks, lines, '/' :: '*' :: rest => skipGap .blockComment lines rest
  | .blanks, lines, c :: rest =>
    if isBlank c then skipGap .blanks (lines + lineEnds c) rest else (c :: rest, lines)
  | .lineComment, lines, c :: rest =>
    if c = '\n' ∨ c = '\r' then skipGap .blanks (lines + lineEnds c) rest
    else skipGap .lineComment lines rest
  | .blockComment, lines, '*' :: '/' :: rest => skipGap .blanks lines rest
  | .blockComment, lines, c :: rest => skipGap .blockComment (lines + lineEnds c) rest
  | _, lines, [] => ([], lines)

/-! ## One token -/

/-- A token cut off a text: what it is, the lines ended inside it, and the text after it. -/
structure Lexeme where
  kind : TokenKind
  text : List Char
  lines : Nat
  rest : List Char
  deriving DecidableEq, Repr

/-- The character an escaped one stands for. -/
def unescape (c : Char) : Char :=
  if c = 'n' then '\n' else if c = 'r' then '\r' else if c = 't' then '\t' else c

/-- A string after its opening quote: the content, the lines ended inside, and the text after the
closing quote. -/
def stringBody : List Char → List Char × Nat × List Char
  | [] => ([], 0, [])
  | '"' :: rest => ([], 0, rest)
  | ['\\'] => ([], 0, [])
  | '\\' :: c :: rest =>
    let (content, lines, after) := stringBody rest
    (unescape c :: content, lines + lineEnds c, after)
  | c :: rest =>
    let (content, lines, after) := stringBody rest
    (c :: content, lines + lineEnds c, after)

/-- The characters of names after the first. -/
def isNameChar (c : Char) : Bool := c.isAlphanum || c = '_'

/-- Punctuation, which always stands alone. -/
def isPunct (c : Char) : Bool := "()[]\x7b\x7d;,.".toList.contains c

/-- Operators that always stand alone. -/
def isLoneOp (c : Char) : Bool := "~?:".toList.contains c

/-- Operators that may be followed by `=`. -/
def isSingleOp (c : Char) : Bool := "/*%^!".toList.contains c

/-- Operators that may be doubled, followed by `=`, or both. -/
def isDoubleOp (c : Char) : Bool := "+-=&|<>".toList.contains c

/-- Adds an `=` that follows an operator to it. -/
def withEquals (op : List Char) : List Char → List Char × List Char
  | '=' :: rest => (op ++ ['='], rest)
  | rest => (op, rest)

/-- An operator that starts with `c`, one of `isDoubleOp`.  The doubled forms `++`, `--` and `==` take
no further `=`. -/
def doubleOp (c : Char) : List Char → List Char × List Char
  | [] => ([c], [])
  | d :: rest =>
    if d = c then
      if c = '+' ∨ c = '-' ∨ c = '=' then ([c, c], rest) else withEquals [c, c] rest
    else withEquals [c] (d :: rest)

/-- A numeral that starts with the digit `c`. -/
def numeral (c : Char) : List Char → List Char × List Char
  | 'x' :: rest =>
    if c = '0' then
      (c :: 'x' :: rest.takeWhile Numeral.isHexDigit, rest.dropWhile Numeral.isHexDigit)
    else ([c], 'x' :: rest)
  | rest => (c :: rest.takeWhile Numeral.isDigit, rest.dropWhile Numeral.isDigit)

/-- A token of the given kind that ends no line. -/
def Lexeme.ofPair (kind : TokenKind) (p : List Char × List Char) : Lexeme :=
  ⟨kind, p.1, 0, p.2⟩

/-- The longest token of a text that starts with `c`, if there is one. -/
def lexeme? (c : Char) (rest : List Char) : Option Lexeme :=
  if c = '"' then
    let (content, lines, after) := stringBody rest
    some ⟨.str, content, lines, after⟩
  else if Numeral.isDigit c then some (.ofPair .num (numeral c rest))
  else if c.isAlpha ∨ c = '_' then
    some (.ofPair .name (c :: rest.takeWhile isNameChar, rest.dropWhile isNameChar))
  else if isPunct c then some (.ofPair .punct ([c], rest))
  else if isLoneOp c then some (.ofPair .op ([c], rest))
  else if isSingleOp c then some (.ofPair .op (withEquals [c] rest))
  else if isDoubleOp c then some (.ofPair .op (doubleOp c rest))
  else none

end Token

end Kiln
