import Kiln.Text.Pieces

/-!
# Kiln.Path — path text

Paths are strings with `/` between components.  Nothing here looks at a file system: `absolute` folds
`.` and `..` away on the text alone, and `relative` counts the way back from one path to another.
-/

namespace Kiln.Path

open Kiln.Text

/-- The character between the components of a path. -/
def separator : Char := '/'

/-- Whether `c` separates components. -/
def isSeparator (c : Char) : Bool := c == separator

/-- The character between the directories of a search path. -/
def listSeparator : Char := ':'

/-- A path with every accepted separator written as the native one. -/
def native (path : String) : String :=
  String.ofList (path.toList.map fun c => if isSeparator c then separator else c)

/-- Whether a path starts at the root. -/
def isAbsolute (path : String) : Bool :=
  path.toList.head? == some separator

/-! ## Components -/

/-- One step of a path. -/
inductive Component where
  | root
  | here
  | up
  | name (text : String)
  deriving DecidableEq, Repr

/-- The text of one component. -/
def Component.text : Component → String
  | root => "/"
  | here => "."
  | up => ".."
  | name t => t

/-- The component a piece between separators stands for; an empty one stands for none. -/
def Component.ofPiece? : String → Option Component
  | "" => none
  | "." => some .here
  | ".." => some .up
  | t => some (.name t)

/-- The components of a path.  Repeated separators count once, and `.` counts only as the first
component of a relative path. -/
def components (path : String) : List Component :=
  let pieces := (Pieces.splitString isSeparator path).filterMap Component.ofPiece?
  if isAbsolute path then .root :: pieces.filter (· ≠ .here)
  else
    match pieces with
    | .here :: rest => .here :: rest.filter (· ≠ .here)
    | _ => pieces.filter (· ≠ .here)

/-- The text of a list of components. -/
def ofComponents : List Component → String
  | .root :: rest => "/" ++ Pieces.join "/" (rest.map Component.text)
  | cs => Pieces.join "/" (cs.map Component.text)

/-- `path` seen from the directory `base`. -/
def join (base path : String) : String :=
  if isAbsolute path then path
  else if base = "" then path
  else if base.toList.getLast? = some separator then base ++ path
  else base ++ "/" ++ path

/-! ## Folding -/

/-- The names left after folding `.` and `..`, last one first; `..` above the first name is dropped. -/
def foldNames (stack : List String) : List Component → List String
  | [] => stack
  | .name t :: rest => foldNames (t :: stack) rest
  | .up :: rest => foldNames stack.tail rest
  | _ :: rest => foldNames stack rest

/-- A path with `.` and `..` folded away. -/
def fold (path : String) : String :=
  let names := (foldNames [] (components path)).reverse
  (if isAbsolute path then "/" else "") ++ Pieces.join "/" names

/-- The absolute form of `path`, seen from the directory `base`. -/
def absolute (base path : String) : String :=
  fold (join base path)

/-! ## The way back -/

/-- The number of leading items two lists share. -/
def commonLength {α : Type} [DecidableEq α] : List α → List α → Nat
  | a :: as, b :: bs => if a = b then commonLength as bs + 1 else 0
  | _, _ => 0

/-- `path` relative to the directory `base`.  Paths that share no more than the root are left as they
are. -/
def relative (path base : String) : String :=
  let target := components path
  let start := components base
  let common := commonLength target start
  if common ≤ 1 then path
  else
    let steps := List.replicate (start.length - common) Component.up ++ target.drop common
    if steps.isEmpty then "." else ofComponents steps

/-! ## Directory and name -/

/-- The text before the last separator, if there is one. -/
def parent? (path : String) : Option String :=
  match path.toList.reverse.dropWhile (!isSeparator ·) with
  | [] => none
  | _ :: before => some (String.ofList before.reverse)

/-- The text before the last separator, or the whole path without one. -/
def directory (path : String) : String :=
  (parent? path).getD path

/-- The text after the last separator. -/
def fileName (path : String) : String :=
  String.ofList (path.toList.reverse.takeWhile (!isSeparator ·)).reverse

/-- The number of characters at the start of a path that are no names: the root, or a leading `.`. -/
def anchorLength : List Char → Nat
  | '/' :: _ => 1
  | ['.'] => 1
  | '.' :: '/' :: _ => 1
  | _ => 0

/-- Drops separators and `.` components from a text with its last character first. -/
def dropSilent : List Char → List Char
  | '/' :: rest => dropSilent rest
  | '.' :: '/' :: rest => dropSilent rest
  | ['.'] => []
  | cs => cs

/-- The path without its last component, in the words of the path: separators and `.` are dropped at
its end only.  A path without components and the root have none. -/
def enclosing? (path : String) : Option String :=
  let cs := path.toList
  let anchor := anchorLength cs
  match dropSilent (cs.drop anchor).reverse with
  | [] => if anchor = 0 || isAbsolute path then none else some ""
  | body =>
    let before := dropSilent (body.dropWhile (!isSeparator ·))
    some (String.ofList (cs.take anchor ++ before.reverse))

/-- The last component, if it is a name. -/
def lastName? (path : String) : Option String :=
  match (components path).getLast? with
  | some (.name t) => some t
  | _ => none

end Kiln.Path
