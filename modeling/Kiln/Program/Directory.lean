import Kiln.Program.Child

/-!
# Kiln.Program.Directory — the directory a program is in, by name

One directory has many names, and a program may keep the one it was told.  `told?` is the name in the
environment, if it is a name of the directory at all; `step` goes from a directory to another one by
folding `.` and `..` of the way on the text, while the name it starts from stays as it is.
-/

namespace Kiln.Program.Directory

open Kiln.Text

/-- Whether two paths lead to the same place. -/
def samePlace (fs : FileSystem) (a b : String) : Bool :=
  match fs.locate a, fs.locate b with
  | .ok (.found p _), .ok (.found q _) => p = q
  | _, _ => false

/-- The name of the directory in the environment, if it is one. -/
def told? (fs : FileSystem) (child : Child) : Option String :=
  (child.value? "PWD").filter fun name => Path.isAbsolute name && samePlace fs name child.cwd

/-- The name of the directory that has no `.` and no `..` in it. -/
def plain (cwd : String) : String := Path.absolute "/" cwd

/-- Whether a path has a component `.` or `..`. -/
def hasDots (path : String) : Bool :=
  (Pieces.splitString Path.isSeparator path).any fun piece => piece = "." || piece = ".."

/-- The slashes at the start of a path, which no `..` takes away: two slashes are not one, but three
are. -/
def anchor (path : String) : String :=
  match path.toList with
  | '/' :: '/' :: '/' :: _ => "/"
  | '/' :: '/' :: _ => "//"
  | _ => "/"

/-- The pieces of a directory's name, last one first; a slash at its end counts for nothing. -/
def pieces (cwd : String) : List String :=
  match (Pieces.splitString Path.isSeparator (String.ofList (cwd.toList.drop (anchor cwd).length))).reverse with
  | "" :: rest => rest
  | all => all

/-- The name of the directory that a path leads to from the directory `cwd`. -/
def step (cwd path : String) : String :=
  let start := if Path.isAbsolute path then [] else pieces cwd
  let stack := (Pieces.words Path.isSeparator path).foldl (fun stack piece =>
    if piece = "." then stack else if piece = ".." then stack.tail else piece :: stack) start
  anchor (if Path.isAbsolute path then path else cwd) ++ Pieces.join "/" stack.reverse

/-- Whether a path says itself where it starts: at the root, here, or above. -/
def isAnchored (path : String) : Bool :=
  match path.toList with
  | '/' :: _ => true
  | ['.'] | '.' :: '/' :: _ => true
  | ['.', '.'] | '.' :: '.' :: '/' :: _ => true
  | _ => false

/-- The first directory that a path leads to from one of the directories of a search path, and whether
that one has a name. -/
def search? (fs : FileSystem) (cwd searchPath path : String) : Option (String × Bool) :=
  let candidates := (Pieces.splitString (· = Path.listSeparator) searchPath).map fun dir =>
    (if dir = "" then path else dir ++ "/" ++ path, dir != "")
  candidates.find? fun c => fs.isDir (Path.join cwd c.1)

/-- The letters of the options `-L` and `-P`, and the other arguments; a letter that is no option is
an error. -/
def options : List String → Except Char (List Char × List String)
  | [] => .ok ([], [])
  | a :: rest =>
    match a.toList with
    | ['-', '-'] => .ok ([], rest)
    | '-' :: c :: cs =>
      match (c :: cs).find? fun c => c ≠ 'L' && c ≠ 'P' with
      | some bad => .error bad
      | none => (options rest).map fun (letters, others) => (c :: cs ++ letters, others)
    | _ => .ok ([], a :: rest)

end Kiln.Program.Directory
