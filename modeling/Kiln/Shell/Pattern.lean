import Kiln.FileSystem
import Kiln.Text.Regex

/-!
# Kiln.Shell.Pattern — patterns of the shell

`*` takes any run of characters, `?` takes one, and brackets take one of the characters in them.
Quoted characters take themselves.  `expand` lists the paths that match a pattern.
-/

namespace Kiln.Shell.Pattern

open Kiln.Text

/-- A character, and whether it is quoted. -/
abbrev Mark := Char × Bool

/-- A set of characters in brackets. -/
inductive Range where
  | between (low high : Char)
  | named (name : String)
  deriving DecidableEq, Repr

/-- One item of a pattern. -/
inductive Item where
  | run
  | one
  | exactly (c : Char)
  | oneOf (negated : Bool) (ranges : List Range)
  deriving DecidableEq, Repr

/-- Whether a character is in a range. -/
def Range.holds (c : Char) : Range → Bool
  | between low high => low ≤ c && c ≤ high
  | named name =>
    match name with
    | "alpha" => c.isAlpha
    | "digit" => c.isDigit
    | "alnum" => c.isAlphanum
    | "upper" => c.isUpper
    | "lower" => c.isLower
    | "space" => c.isWhitespace
    | "blank" => c = ' ' || c = '\t'
    | "xdigit" => c.isDigit || ('a' ≤ c && c ≤ 'f') || ('A' ≤ c && c ≤ 'F')
    | "punct" => 33 ≤ c.toNat && c.toNat ≤ 126 && !c.isAlphanum
    | _ => false

/-- The ranges up to the closing bracket, and what follows it; `first` says whether a bracket still
stands for itself. -/
def ranges? : Nat → Bool → List Mark → Option (List Range × List Mark)
  | 0, _, _ => none
  | _, _, [] => none
  | bound + 1, first, (c, quoted) :: rest =>
    if c = ']' && !quoted && !first then some ([], rest)
    else
      let class? : Option (String × List Mark) :=
        match c, rest with
        | '[', (':', _) :: more =>
          let name := more.takeWhile (·.1 ≠ ':')
          match more.drop name.length with
          | (':', _) :: (']', _) :: after => some (String.ofList (name.map (·.1)), after)
          | _ => none
        | _, _ => none
      match class? with
      | some (name, after) => (ranges? bound false after).map fun (rs, t) => (.named name :: rs, t)
      | none =>
        match rest with
        | ('-', false) :: (d, q) :: after =>
          if d = ']' && !q then (ranges? bound false rest).map fun (rs, t) => (.between c c :: rs, t)
          else (ranges? bound false after).map fun (rs, t) => (.between c d :: rs, t)
        | _ => (ranges? bound false rest).map fun (rs, t) => (.between c c :: rs, t)

/-- The items of a pattern. -/
def items : Nat → List Mark → List Item
  | 0, _ => []
  | _, [] => []
  | bound + 1, (c, quoted) :: rest =>
    if quoted then .exactly c :: items bound rest
    else if c = '*' then .run :: items bound rest
    else if c = '?' then .one :: items bound rest
    else if c = '[' then
      let (negated, inner) :=
        match rest with
        | ('!', false) :: more => (true, more)
        | _ => (false, rest)
      match ranges? (inner.length + 1) true inner with
      | some (rs, after) => .oneOf negated rs :: items bound after
      | none => .exactly c :: items bound rest
    else .exactly c :: items bound rest

/-- The items of a whole pattern. -/
def ofMarks (pattern : List Mark) : List Item := items (pattern.length + 1) pattern

/-- Whether one character is taken by an item that takes one. -/
def Item.takes (c : Char) : Item → Bool
  | run => false
  | one => true
  | exactly d => c = d
  | oneOf negated rs => (rs.any (·.holds c)) != negated

/-- Which end pieces of `text` an item followed by more items takes, given which ones those take. -/
def Item.extend (text : List Char) : Item → List Bool → List Bool
  | run, ends => Regex.anyLater ends
  | item, ends => List.zipWith (fun c b => item.takes c && b) text ends.tail ++ [false]

/-- For every end piece of a text, longest first: whether the items take all of it. -/
def ends (pattern : List Item) (text : List Char) : List Bool :=
  pattern.foldr (fun item ends => item.extend text ends) (Regex.emptyEnds text)

/-- Whether the items take the whole of a text. -/
def matches? (pattern : List Item) (text : List Char) : Bool :=
  (ends pattern text).headD false

/-- Whether a pattern has an item other than characters. -/
def isPattern (pattern : List Mark) : Bool :=
  (ofMarks pattern).any fun
    | .exactly _ => false
    | _ => true

/-! ## Trimming -/

/-- A text without its shortest or longest end that matches. -/
def trimEnd (pattern : List Item) (longest : Bool) (text : List Char) : List Char :=
  let marks := ends pattern text
  if longest then
    match marks.findIdx? id with
    | some n => text.take n
    | none => text
  else
    match marks.reverse.findIdx? id with
    | some n => text.take (text.length - n)
    | none => text

/-- A text without its shortest or longest start that matches. -/
def trimStart (pattern : List Item) (longest : Bool) (text : List Char) : List Char :=
  (trimEnd pattern.reverse longest text.reverse).reverse

/-! ## Paths -/

/-- The components of a pattern between separators, empty ones included. -/
def components : List Mark → List (List Mark)
  | [] => [[]]
  | (c, q) :: rest =>
    match components rest with
    | [] => [[(c, q)]]
    | piece :: pieces => if c = '/' then [] :: piece :: pieces else ((c, q) :: piece) :: pieces

/-- The text of marks. -/
def plain (marks : List Mark) : String := String.ofList (marks.map (·.1))

/-- The names in a directory that match a component.  Names that start with a dot match only if the
component does. -/
def namesMatching (fs : FileSystem) (dir : String) (component : List Mark) : List String :=
  let dotted := component.head?.any fun m => m.1 = '.'
  let names :=
    match fs.node dir with
    | .ok (.dir entries _) => (if dotted then [".", ".."] else []) ++ entries.map Prod.fst
    | _ => []
  names.filter fun name =>
    (dotted || name.toList.head? ≠ some '.') && matches? (ofMarks component) name.toList

/-- Extends the paths found so far by the components that are left. -/
def extendPaths (fs : FileSystem) (cwd : String) : List (List Mark) → List String → List String
  | [], found => found
  | component :: rest, found =>
    let more := rest.isEmpty
    let tail := if more then "" else "/"
    let longer :=
      if isPattern component then
        found.flatMap fun before =>
          (namesMatching fs (Path.join cwd (if before = "" then "." else before)) component).filterMap fun name =>
            let path := before ++ name
            if more || fs.isDir (Path.join cwd path) then some (path ++ tail) else none
      else
        found.filterMap fun before =>
          let path := before ++ plain component
          if path = "" || fs.has (Path.join cwd path) then some (path ++ tail) else none
    extendPaths fs cwd rest longer

/-- The paths that match a pattern, in order; a pattern that matches none stands for itself. -/
def expand (fs : FileSystem) (cwd : String) (pattern : List Mark) : List String :=
  if !isPattern pattern then [plain pattern]
  else
    match extendPaths fs cwd (components pattern) [""] with
    | [] => [plain pattern]
    | found => found.mergeSort (· ≤ ·)

end Kiln.Shell.Pattern
