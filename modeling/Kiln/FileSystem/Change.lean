import Kiln.FileSystem

/-!
# Kiln.FileSystem.Change — what a run changed

`FileSystem.graft` puts a tree that was read elsewhere into a file system, and `FileSystem.changes`
lists what has to be done to that tree afterwards, in an order in which it can be done: what is in the
way is removed first, and a directory is made before anything is put into it.
-/

namespace Kiln

/-- A change of one path. -/
inductive Change where
  /-- Removes a file, or a directory with all it holds. -/
  | remove (path : String)
  | makeDir (path : String)
  | write (path : String) (data : ByteArray)

namespace Node

/-- The removals of the entries that are gone. -/
def removals (path : String) (old new : List (String × Node)) : List Change :=
  (old.filter fun e => (Table.find e.1 new).isNone).map fun e => .remove (path ++ "/" ++ e.1)

mutual

/-- What turns the old node at a path, if there was one, into another one. -/
def changes (path : String) (old : Option Node) : Node → List Change
  | file data _ =>
    match old with
    | some (file was _) => if was = data then [] else [.write path data]
    | some (dir ..) => [.remove path, .write path data]
    | none => [.write path data]
  | dir es _ =>
    match old with
    | some (dir olds _) => removals path olds es ++ entryChanges path olds es
    | some (file ..) => .remove path :: .makeDir path :: entryChanges path [] es
    | none => .makeDir path :: entryChanges path [] es

/-- What turns the old entries of a directory into other ones, removals apart. -/
def entryChanges (path : String) (old : List (String × Node)) : List (String × Node) → List Change
  | [] => []
  | (name, n) :: rest =>
    changes (path ++ "/" ++ name) (Table.find name old) n ++ entryChanges path old rest

end

end Node

namespace FileSystem

/-- The file system with a tree put in place of a directory, which is made if it is missing. -/
def graft (fs : FileSystem) (dir : String) (tree : Node) : FileSystem :=
  let made := (makeDirs dir fs).2
  match made.locate dir with
  | .ok (.found names _) => made.put names tree
  | _ => made

/-- What was changed at and below a directory. -/
def changes (old new : FileSystem) (dir : String) : List Change :=
  match old.node dir, new.node dir with
  | .ok was, .ok now => now.changes dir (some was)
  | .error _, .ok now => now.changes dir none
  | .ok _, .error _ => [.remove dir]
  | .error _, .error _ => []

end FileSystem

end Kiln
