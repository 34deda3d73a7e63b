import Kiln.Table

/-!
# Kiln.Shell.Syntax — the commands of the shell

A word is a list of pieces: text, parameters, command substitutions and arithmetic, each marked as
quoted or not.  Commands are simple commands and what is built of them.
-/

namespace Kiln.Shell

mutual

/-- A piece of a word. -/
inductive Piece where
  | text (chars : List Char) (quoted : Bool)
  | param (name : String) (form : Form) (quoted : Bool)
  /-- What a command writes; none runs no command. -/
  | output (body : Option Command) (quoted : Bool)
  | arithmetic (expression : List Piece) (quoted : Bool)

/-- What is taken of a parameter.  With `colon`, an empty one counts as unset. -/
inductive Form where
  | value
  | length
  /-- The word if the parameter is unset. -/
  | orElse (colon : Bool) (word : List Piece)
  /-- The word if the parameter is unset, which then gets it as its value. -/
  | assign (colon : Bool) (word : List Piece)
  /-- An error if the parameter is unset. -/
  | demand (colon : Bool) (word : List Piece)
  /-- The word if the parameter is set. -/
  | instead (colon : Bool) (word : List Piece)
  /-- The value without a piece at its start or end that matches a pattern. -/
  | trim (atEnd longest : Bool) (pattern : List Piece)
  /-- A form that does not exist, which is an error where it is used. -/
  | unknown

/-- A redirection of a stream. -/
inductive Redirect where
  | read (fd : Nat) (path : List Piece)
  | write (fd : Nat) (path : List Piece)
  | append (fd : Nat) (path : List Piece)
  | readWrite (fd : Nat) (path : List Piece)
  /-- To where another stream goes or comes from. -/
  | duplicate (fd : Nat) (source : List Piece)
  /-- From a text in the script, by its number. -/
  | document (fd : Nat) (index : Nat)

/-- A command. -/
inductive Command where
  | simple (line : Nat) (assigned words : List (List Piece)) (redirects : List Redirect)
  | pipeline (stages : List Command)
  | negated (body : Command)
  | both (first second : Command)
  | either (first second : Command)
  | sequence (first second : Command)
  | background (body : Command)
  | redirected (body : Command) (redirects : List Redirect)
  | subshell (body : Command)
  | branch (test yes : Command) (no : Option Command)
  /-- Runs the body while the test succeeds, or until it does. -/
  | loop (untilTrue : Bool) (test body : Command)
  /-- Runs the body for every item, or for every positional parameter. -/
  | each (line : Nat) (name : String) (items : Option (List (List Piece))) (body : Command)
  | choose (line : Nat) (subject : List Piece) (cases : List (List (List Piece) × Option Command))
  | define (name : String) (body : Command)

end

/-- A word. -/
abbrev Word := List Piece

/-- The text of a word that is one unquoted text. -/
def plainText? : Word → Option String
  | [.text cs false] => some (String.ofList cs)
  | _ => none

/-- Whether `c` can start a name. -/
def isNameStart (c : Char) : Bool := c.isAlpha || c = '_'

/-- Whether `c` can stand in a name. -/
def isNameChar (c : Char) : Bool := isNameStart c || c.isDigit

/-- Whether a text is a name. -/
def isName (cs : List Char) : Bool :=
  match cs with
  | [] => false
  | c :: rest => isNameStart c && rest.all isNameChar

/-- The words with a meaning of their own where a command may start. -/
def keywords : List String :=
  ["!", "case", "do", "done", "elif", "else", "esac", "fi", "for", "if", "in", "then", "until",
    "while", "\x7b", "\x7d"]

end Kiln.Shell
