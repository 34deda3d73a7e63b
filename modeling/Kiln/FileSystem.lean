import Kiln.Path
import Kiln.Step
import Kiln.Table

/-!
# Kiln.FileSystem — directories and regular files

A file system is a tree of named nodes with a clock, which dates what is written, and a directory
against which relative paths are read.  There are no links, so a path means the node reached by
walking it from the root: every component but the last must be a directory that exists, and `..`
leads back up.
-/

namespace Kiln

/-- A file or a directory. -/
inductive Node where
  | file (data : ByteArray) (modified : Int)
  /-- Entries in name order. -/
  | dir (entries : List (String × Node)) (modified : Int)

namespace Node

/-- Whether a node is a directory. -/
def isDir : Node → Bool
  | file .. => false
  | dir .. => true

/-- The entries of a directory; a file has none. -/
def entries : Node → List (String × Node)
  | file .. => []
  | dir es _ => es

/-- The time of the last change, in seconds. -/
def modified : Node → Int
  | file _ t => t
  | dir _ t => t

/-- What is shown as the size of a directory. -/
def dirSize : Nat := 4096

/-- The size in bytes. -/
def size : Node → Nat
  | file data _ => data.size
  | dir .. => dirSize

/-- The entries without one name. -/
def dropEntry (name : String) : List (String × Node) → List (String × Node)
  | [] => []
  | (k, n) :: rest => if k = name then rest else (k, n) :: dropEntry name rest

/-- Puts a node at a place whose directory exists; a new entry dates the directory. -/
def insert (now : Int) (new : Node) : List String → Node → Node
  | [], _ => new
  | _, file data t => file data t
  | [name], dir es t =>
    dir (Table.put name new es) (if (Table.find name es).isSome then t else now)
  | name :: rest, dir es t =>
    match Table.find name es with
    | some child => dir (Table.put name (insert now new rest child) es) t
    | none => dir es t

/-- Takes a node away, which dates its directory. -/
def erase (now : Int) : List String → Node → Node
  | [], n => n
  | _, file data t => file data t
  | [name], dir es _ => dir (dropEntry name es) now
  | name :: rest, dir es t =>
    match Table.find name es with
    | some child => dir (Table.put name (erase now rest child) es) t
    | none => dir es t

mutual

/-- The places of all regular files below a node, depth first, in name order within a directory. -/
def files : Node → List (List String)
  | file .. => [[]]
  | dir es _ => entryFiles es

/-- The places of all regular files below the entries of a directory. -/
def entryFiles : List (String × Node) → List (List String)
  | [] => []
  | (name, n) :: rest => (files n).map (name :: ·) ++ entryFiles rest

end

end Node

/-- A file system. -/
structure FileSystem where
  root : Node
  /-- The time given to what is written. -/
  clock : Int
  /-- The directory relative paths start from; none once it was deleted. -/
  start : Option String

/-- A computation that reads and writes files. -/
abbrev Disk (α : Type) := Step FileSystem α

namespace FileSystem

/-- Longer paths are refused. -/
def maxPath : Nat := 4095

/-- Longer names are refused. -/
def maxName : Nat := 255

/-- Where a path leads. -/
inductive Place where
  | found (names : List String) (node : Node)
  /-- Nothing of that name is in the directory `names`. -/
  | free (names : List String) (name : String) (slash : Bool)

/-- The names on the way to a place. -/
def namesOf (trail : List (String × Node)) : List String :=
  (trail.map (·.1)).reverse

/-- Walks the pieces of a path from the end of `trail`, the nodes on the way from the root with their
names, last one first. -/
def walk (root : Node) : List (String × Node) → List String → Except Errno Place
  | trail, [] => .ok (.found (namesOf trail) (trail.head?.elim root (·.2)))
  | trail, piece :: rest =>
    let here := trail.head?.elim root (·.2)
    if !here.isDir then .error .notDirectory
    else if piece = "" ∨ piece = "." then walk root trail rest
    else if piece = ".." then walk root trail.tail rest
    else if piece.utf8ByteSize > maxName then .error .nameTooLong
    else
      match Table.find piece here.entries with
      | some child => walk root ((piece, child) :: trail) rest
      | none =>
        if rest.all (· = "") then .ok (.free (namesOf trail) piece (!rest.isEmpty))
        else .error .noEntry

/-- A path seen from the root; a relative one has none once the directory it starts from is gone. -/
def fullPath? (fs : FileSystem) (path : String) : Option String :=
  if Path.isAbsolute path then some path else fs.start.map fun dir => Path.join dir path

/-- Where a path leads. -/
def locate (fs : FileSystem) (path : String) : Except IoError Place :=
  if path = "" then .error (.os .noEntry)
  else if path.toList.contains (Char.ofNat 0) then .error .nulInPath
  else if path.utf8ByteSize > maxPath then .error (.os .nameTooLong)
  else
    match fs.fullPath? path with
    | none => .error (.os .noEntry)
    | some full =>
      match walk fs.root [] (Text.Pieces.splitString Path.isSeparator full) with
      | .ok place => .ok place
      | .error e => .error (.os e)

/-- The node a path leads to. -/
def node (fs : FileSystem) (path : String) : Except IoError Node :=
  match fs.locate path with
  | .ok (.found _ n) => .ok n
  | .ok (.free ..) => .error (.os .noEntry)
  | .error e => .error e

/-- Whether a path leads to a directory. -/
def isDir (fs : FileSystem) (path : String) : Bool :=
  match fs.node path with
  | .ok n => n.isDir
  | .error _ => false

/-- Whether a path leads anywhere. -/
def has (fs : FileSystem) (path : String) : Bool :=
  match fs.node path with
  | .ok _ => true
  | .error _ => false

/-- The size and the time of what a path leads to; times before the epoch count as 0. -/
def info? (fs : FileSystem) (path : String) : Option (Nat × Int) :=
  match fs.node path with
  | .ok n => some (n.size, max 0 n.modified)
  | .error _ => none

/-- The bytes of a file. -/
def bytes (fs : FileSystem) (path : String) : Except IoError ByteArray :=
  match fs.node path with
  | .ok (.file data _) => .ok data
  | .ok (.dir ..) => .error (.os .isDirectory)
  | .error e => .error e

/-- The text of a file, which must be UTF-8. -/
def text (fs : FileSystem) (path : String) : Except IoError String :=
  match fs.bytes path with
  | .ok data =>
    match String.fromUTF8? data with
    | some s => .ok s
    | none => .error .notText
  | .error e => .error e

/-- The paths of all regular files below a directory, after `label` and a `/` unless it is empty.
What is no directory has no files. -/
def filesBelow (fs : FileSystem) (path label : String) : List String :=
  match fs.node path with
  | .ok (.dir es t) =>
    (Node.files (.dir es t)).map fun names =>
      let rest := Text.Pieces.join "/" names
      if label = "" then rest else label ++ "/" ++ rest
  | _ => []

/-- The file system with a node put at a place. -/
def put (fs : FileSystem) (names : List String) (n : Node) : FileSystem :=
  { fs with root := Node.insert fs.clock n names fs.root }

/-! ## Changes -/

/-- Writes a whole file. -/
def write (path : String) (data : ByteArray) : Disk Unit := fun fs =>
  match fs.locate path with
  | .error e => (.error (.io e), fs)
  | .ok (.found _ (.dir ..)) => (.error (.io (.os .isDirectory)), fs)
  | .ok (.found names (.file ..)) => (.ok (), fs.put names (.file data fs.clock))
  | .ok (.free _ _ true) => (.error (.io (.os .isDirectory)), fs)
  | .ok (.free names name false) => (.ok (), fs.put (names ++ [name]) (.file data fs.clock))

/-- A path without the separators at its end. -/
def trimEnd (path : String) : String :=
  match path.toList.reverse.dropWhile Path.isSeparator with
  | [] => path
  | cs => String.ofList cs.reverse

/-- Makes one directory. -/
def makeDir (path : String) : Disk Unit := fun fs =>
  match fs.locate (trimEnd path) with
  | .error e => (.error (.io e), fs)
  | .ok (.found ..) => (.error (.io (.os .entryExists)), fs)
  | .ok (.free names name _) => (.ok (), fs.put (names ++ [name]) (.dir [] fs.clock))

/-- Makes a directory, unless there is one. -/
def makeDirUnlessThere (path : String) : Disk Unit := fun fs =>
  match makeDir path fs with
  | (.error e, fs') => if fs'.isDir path then (.ok (), fs') else (.error e, fs')
  | r => r

/-- Makes a directory and all directories above it that are missing; `depth` bounds their number. -/
def makeDirsWithin : Nat → String → Disk Unit
  | 0, path => if path = "" then return () else makeDirUnlessThere path
  | depth + 1, path => fun fs =>
    if path = "" then (.ok (), fs)
    else
      match makeDirUnlessThere path fs with
      | (.error (.io (.os .noEntry)), fs') =>
        match Path.enclosing? path with
        | some above => (do makeDirsWithin depth above; makeDirUnlessThere path) fs'
        | none => (.error (.io (.os .noEntry)), fs')
      | r => r

/-- Makes a directory and all directories above it that are missing. -/
def makeDirs (path : String) : Disk Unit :=
  makeDirsWithin (Path.components path).length path

/-- The file system with its start forgotten if it is not there any more. -/
def checkStart (fs : FileSystem) : FileSystem :=
  { fs with start := fs.start.filter fs.isDir }

/-- The last piece of a path that is not empty. -/
def lastPiece (path : String) : String :=
  ((Text.Pieces.splitString Path.isSeparator path).filter (· ≠ "")).getLastD ""

/-- Removes a file or a directory with all it holds; what is missing needs no removal.  A directory is
emptied first.  It stays, empty, if its path ends in `.`, which is an error, or leads through what was
in it. -/
def delete (path : String) : Disk Unit := fun fs =>
  match fs.locate path with
  | .error (.os .noEntry) => (.ok (), fs)
  | .error e => (.error (.io e), fs)
  | .ok (.free ..) => (.ok (), fs)
  | .ok (.found names (.file ..)) => (.ok (), { fs with root := fs.root.erase fs.clock names })
  | .ok (.found names (.dir ..)) =>
    let emptied := fs.put names (.dir [] fs.clock)
    if lastPiece path = "." then (.error (.io (.os .invalidArgument)), emptied.checkStart)
    else if emptied.has path then
      (.ok (), { fs with root := fs.root.erase fs.clock names }.checkStart)
    else (.ok (), emptied.checkStart)

/-- Moves the bytes of a complete file to a path, which replaces the file that is there. -/
def moveOnto (path : String) (data : ByteArray) : Disk Unit := fun fs =>
  match fs.locate path with
  | .ok (.free _ _ true) => (.error (.io (.os .notDirectory)), fs)
  | .ok (.found _ (.dir ..)) =>
    let last := lastPiece path
    (.error (.io (.os (if last = "." ∨ last = ".." then .busy else .isDirectory))), fs)
  | _ => write path data fs

/-- Replaces a file by way of a temporary one in the directory `dir`, so that its old content stays
until the new one is complete. -/
def replaceFile (dir path : String) (data : ByteArray) : Disk Unit := fun fs =>
  match fs.fullPath? dir with
  | none => (.error (.io (.os .noEntry)), fs)
  | some full =>
    let scratch := Path.join full ".tmpXXXXXX"
    match fs.node dir with
    | .error (.os e) => (.error (.io (.scratchFile e scratch)), fs)
    | .error e => (.error (.io e), fs)
    | .ok (.file ..) => (.error (.io (.scratchFile .notDirectory scratch)), fs)
    | .ok (.dir ..) => moveOnto path data fs

/-- Copies the bytes of a file.  The target is emptied before the source is read, so copying a file
onto itself empties it. -/
def copyBytes (source target : String) : Disk Unit := do
  let old ← Step.state
  let _ ← Step.ofIo (old.bytes source)
  write target .empty
  let emptied ← Step.state
  let data ← Step.ofIo (emptied.bytes source)
  write target data

/-- The entries of a directory that is come upon in a tree. -/
def listed (fs : FileSystem) (path : String) : Except IoError (List (String × Node)) :=
  match fs.node path with
  | .ok n => .ok n.entries
  | .error (.os e) => .error (.listing e path)
  | .error e => .error e

/-- Copies a directory with all it holds.  Its entries are listed before its copy is made, and the
entries of a directory in it when that one's turn comes; one that could not be listed is an error once
its copy is made. -/
def copyTree (failure : Error) : Nat → String → String → Disk Unit
  | 0, _, _ => .fail (.io (.os .nameTooLong))
  | depth + 1, source, target => do
    let before ← Step.state
    makeDirs target
    let entries ← Step.ofIo (before.listed source)
    let _ ← Step.each (fun entry => do
      let inner := Path.join source entry.1
      let place := Path.join target entry.1
      match entry.2 with
      | .dir .. => copyTree failure depth inner place
      | .file .. => Step.mapError (fun _ => failure) (copyBytes inner place)) entries
    return ()

/-- Copies a file or a directory with all it holds; into a directory that exists, under its own
name. -/
def copy (source target : String) : Disk Unit := do
  let fs ← Step.state
  let place :=
    if fs.isDir target then Path.join target ((Path.lastName? source).getD "") else target
  let failure := Error.io (.copyFile source target)
  if !fs.isDir source then Step.mapError (fun _ => failure) (copyBytes source place)
  else if fs.has target && !fs.isDir target then .fail (.io (.copyDirectory source target))
  else copyTree failure maxPath source place

end FileSystem

end Kiln
