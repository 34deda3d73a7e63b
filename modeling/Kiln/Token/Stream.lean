import Kiln.Step
import Kiln.Token
import Kiln.Text.Lossy

/-!
# Kiln.Token.Stream — reading tokens one at a time

A `Stream` holds the unread part of a source text, the tokens that were read and pushed back, and the
text of the last token handed out, which complaints quote.  Complaints are located at the line where
reading stands.

A character no token starts with is an error, after which reading goes on behind its first byte; the
bytes of it that are left over (`torn`) are errors of their own.
-/

namespace Kiln

/-- A source text that is being read. -/
structure Stream where
  file : String
  /-- The characters not read yet. -/
  rest : List Char
  /-- Bytes left over from a rejected character; they come before `rest`. -/
  torn : Nat
  line : Nat
  /-- Tokens pushed back, next one first. -/
  pushed : List Token
  /-- The text of the last token handed out. -/
  last : String
  deriving DecidableEq, Repr

namespace Stream

/-- A stream at the start of a text. -/
def ofText (text file : String) : Stream :=
  ⟨file, text.toList, 0, 1, [], ""⟩

/-- Where reading stands. -/
def location (s : Stream) : Location := ⟨s.file, s.line⟩

/-- A line of the text being read. -/
def locationAt (s : Stream) (line : Nat) : Location := ⟨s.file, line⟩

/-- The complaint at the place where reading stands, quoting the last token. -/
def complaint (s : Stream) (text : String) : Error :=
  .badToken s.location text s.last

end Stream

/-- A computation that reads tokens. -/
abbrev Parser (α : Type) := Step Stream α

namespace Parser

/-- Reads a token from the text. -/
def scan : Parser Token := fun s =>
  match s.torn with
  | n + 1 => (.error (.badCharacter s.location Text.Lossy.replacement), { s with torn := n })
  | 0 =>
    let (rest, line) := Token.skipGap .blanks s.line s.rest
    match rest with
    | [] => (.ok ⟨.eof, "", line⟩, { s with rest := [], line := line })
    | c :: after =>
      match Token.lexeme? c after with
      | some l =>
        (.ok ⟨l.kind, String.ofList l.text, line⟩, { s with rest := l.rest, line := line + l.lines })
      | none =>
        (.error (.badCharacter (s.locationAt line) c),
          { s with rest := after, line := line, torn := c.utf8Size - 1 })

/-- The next token, pushed back ones first. -/
def token : Parser Token := fun s =>
  match s.pushed with
  | t :: pushed => (.ok t, { s with pushed := pushed, last := t.text })
  | [] =>
    match scan s with
    | (.ok t, s') => (.ok t, { s' with last := t.text })
    | r => r

/-- Makes `t` the next token. -/
def pushBack (t : Token) : Parser Unit :=
  .change fun s => { s with pushed := t :: s.pushed }

/-- Fails with a complaint. -/
def complain {α : Type} (text : String) : Parser α := fun s =>
  (.error (s.complaint text), s)

/-- Reads a token that must be `text`. -/
def expect (text complaint : String) : Parser Token := do
  let t ← token
  if t.reads text then return t else complain complaint

/-- The tokens up to the end of the text or to an error, at most `n` of them. -/
def tokensWithin : Nat → Stream → List Token × Outcome Unit × Stream
  | 0, s => ([], .exhausted, s)
  | n + 1, s =>
    match token s with
    | (.ok t, s') =>
      if t.kind = .eof then ([t], .ok (), s')
      else
        let (ts, r) := tokensWithin n s'
        (t :: ts, r)
    | (.error e, s') => ([], .error e, s')
    | (.exhausted, s') => ([], .exhausted, s')

end Parser

/-- The tokens of the text that is left, up to its end (which is one of them) or to an error. -/
def Stream.tokens (s : Stream) : List Token × Outcome Unit × Stream :=
  Parser.tokensWithin (s.rest.length + s.torn + s.pushed.length + 1) s

end Kiln
