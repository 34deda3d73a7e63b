/-!
# Kiln.Text.Pieces — cutting text up and putting it together

Splitting at separators, lines, fields, and replacing one piece of text by another.
-/

namespace Kiln.Text.Pieces

/-- The pieces of a text between the characters that satisfy `sep`, empty ones included. -/
def split (sep : Char → Bool) : List Char → List (List Char)
  | [] => [[]]
  | c :: rest =>
    if sep c then [] :: split sep rest
    else
      match split sep rest with
      | [] => [[c]]
      | piece :: pieces => (c :: piece) :: pieces

/-- The pieces of a string between the characters that satisfy `sep`, empty ones included. -/
def splitString (sep : Char → Bool) (s : String) : List String :=
  (split sep s.toList).map String.ofList

/-- The non-empty pieces of a string between the characters that satisfy `sep`. -/
def words (sep : Char → Bool) (s : String) : List String :=
  ((split sep s.toList).filter (!·.isEmpty)).map String.ofList

/-- The items of a list with `sep` between any two. -/
def join (sep : String) : List String → String
  | [] => ""
  | [s] => s
  | s :: rest => s ++ sep ++ join sep rest

/-- Replaces the occurrences of a non-empty `what`, found from the left and not overlapping; `skip`
counts the characters of the last one that are still to be passed over. -/
def replaceFrom (what with_ : List Char) (skip : Nat) : List Char → List Char
  | [] => []
  | c :: rest =>
    match skip with
    | n + 1 => replaceFrom what with_ n rest
    | 0 =>
      if what.isPrefixOf (c :: rest) then with_ ++ replaceFrom what with_ (what.length - 1) rest
      else c :: replaceFrom what with_ 0 rest

/-- Replaces every occurrence of `what`; an empty `what` occurs nowhere. -/
def replace (s what with_ : String) : String :=
  if what = "" then s
  else String.ofList (replaceFrom what.toList with_.toList 0 s.toList)

/-- Whether `needle` occurs in a text. -/
def occurs (needle : List Char) : List Char → Bool
  | [] => needle.isEmpty
  | c :: rest => needle.isPrefixOf (c :: rest) || occurs needle rest

/-- Whether `needle` occurs in `s`. -/
def contains (s needle : String) : Bool :=
  occurs needle.toList s.toList

/-- Drops a carriage return at the end. -/
def dropReturn (line : List Char) : List Char :=
  match line.getLast? with
  | some '\r' => line.dropLast
  | _ => line

/-- The lines of a text.  A line ends with a line feed, and a carriage return before that is dropped
too; what follows the last line feed is a line of its own unless it is empty. -/
def lines (text : List Char) : List (List Char) :=
  let pieces := split (· = '\n') text
  let last := pieces.getLastD []
  (pieces.dropLast.map dropReturn) ++ (if last.isEmpty then [] else [last])

/-- The text before the first `sep` and the text after it. -/
def cut? (sep : Char) : List Char → Option (List Char × List Char)
  | [] => none
  | c :: rest => if c = sep then some ([], rest) else (cut? sep rest).map fun r => (c :: r.1, r.2)

end Kiln.Text.Pieces
