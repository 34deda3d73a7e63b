import Kiln.FileSystem

/-!
# Kiln.Store — the digests of what is up to date

The store remembers, by module and target, the digests of the steps that ran.  On disk it is a text
of lines `module|target|digest`.  It is read when it is first asked for something and written back
after every change, so a run that is cut short loses nothing it has confirmed.

For every target the store keeps the digests of the previous run apart from those of this one.  Once
a target was asked for or written to in this run, only this run's digests are kept.
-/

namespace Kiln

open Kiln.Text

/-- The digests of one target. -/
structure Record where
  previous : NameSet
  current : NameSet
  /-- Whether this run has asked for or written to the target. -/
  touched : Bool

namespace Record

/-- No digests. -/
def empty : Record := ⟨.empty, .empty, false⟩

/-- Whether a digest is recorded. -/
def holds (r : Record) (digest : String) : Bool :=
  r.previous.contains digest || r.current.contains digest

/-- The record after it was asked for a digest: one of the previous run is confirmed. -/
def ask (r : Record) (digest : String) : Record :=
  { r with
    touched := true
    current := if r.previous.contains digest then r.current.add digest else r.current }

/-- Adds a digest of this run. -/
def add (r : Record) (digest : String) : Record :=
  { r with touched := true, current := r.current.add digest }

/-- Adds a digest of the previous run. -/
def addPrevious (r : Record) (digest : String) : Record :=
  { r with previous := r.previous.add digest }

/-- Forgets all digests. -/
def clear (_ : Record) : Record := ⟨.empty, .empty, true⟩

/-- The digests that are kept for the next run. -/
def kept (r : Record) : NameSet := if r.touched then r.current else r.previous

end Record

/-- The records of all targets, by module and target. -/
abbrev Records := Table (Table Record)

namespace Records

/-- Changes the record of a target, which is made if it is not there. -/
def update (rs : Records) (module target : String) (f : Record → Record) : Records :=
  let targets := (Table.get? rs module).getD .empty
  let record := (targets.get? target).getD .empty
  Table.insert rs module (targets.insert target (f record))

/-- The fields of a line `module|target|digest`; what follows the second bar is the digest. -/
def fields? (line : List Char) : Option (String × String × String) := do
  let (module, rest) ← Pieces.cut? '|' line
  let (target, digest) ← Pieces.cut? '|' rest
  return (String.ofList module, String.ofList target, String.ofList digest)

/-- The records of a text; lines that are none are passed over. -/
def ofText (text : String) : Records :=
  ((Pieces.lines text.toList).filterMap fields?).foldl
    (fun rs (module, target, digest) => rs.update module target (·.addPrevious digest)) Table.empty

/-- The line of one digest. -/
def line (module target digest : String) : String :=
  module ++ "|" ++ target ++ "|" ++ digest ++ "\n"

/-- The text that is kept for the next run. -/
def toText (rs : Records) : String :=
  String.join (rs.entries.flatMap fun (module, targets) =>
    targets.entries.flatMap fun (target, record) =>
      record.kept.keys.map fun digest => line module target digest)

end Records

/-- The digest store. -/
structure Store where
  path : String
  isOpen : Bool
  records : Records

namespace Store

/-- A store at a path, not read yet. -/
def atPath (path : String) : Store := ⟨path, false, .empty⟩

/-- The path of the store in a directory. -/
def pathIn (dir : String) : String :=
  Path.join (Path.join dir ".lick") "hashstore"

/-- The store in a directory, not read yet. -/
def inDir (dir : String) : Store := atPath (pathIn dir)

/-- Moves the store beside a module, unless it was read already. -/
def moveTo (s : Store) (module : String) : Store :=
  if s.isOpen then s else { s with path := pathIn (Path.directory module) }

end Store

/-- The store together with the file system it lives in. -/
structure Shelf where
  store : Store
  files : FileSystem

/-- A computation on the store. -/
abbrev Shelving (α : Type) := Step Shelf α

namespace Store

/-- A file operation. -/
def onDisk {α : Type} (m : Disk α) : Shelving α :=
  Step.on Shelf.files (fun files shelf => { shelf with files }) m

/-- Changes the records. -/
def changeRecords (f : Records → Records) : Shelving Unit :=
  .change fun shelf => { shelf with store := { shelf.store with records := f shelf.store.records } }

/-- The directory of the store, for making it and for temporary files. -/
def dir? (s : Store) : Option String :=
  (Path.enclosing? s.path).filter (· ≠ "")

/-- Makes the directory of the store. -/
def makeHome (s : Store) : Disk Unit :=
  match s.dir? with
  | some dir => FileSystem.makeDirs dir
  | none => return ()

/-- Reads the store, unless it was read already. -/
def load : Shelving Unit := do
  let s ← Step.look Shelf.store
  if s.isOpen then return ()
  else do
    onDisk (makeHome s)
    let files ← Step.look Shelf.files
    match files.text s.path with
    | .ok text => .change fun shelf => { shelf with store := ⟨s.path, true, .ofText text⟩ }
    | .error e =>
      if e.isNoEntry then
        .change fun shelf => { shelf with store := ⟨s.path, true, .ofText ""⟩ }
      else .fail (.io e)

/-- Writes the store. -/
def save : Shelving Unit := do
  let s ← Step.look Shelf.store
  onDisk (FileSystem.replaceFile (s.dir?.getD ".") s.path s.records.toText.toUTF8)

/-- Whether a digest is recorded for a target of a module.  A digest of the previous run is thereby
confirmed for the next one. -/
def contains (module target digest : String) : Shelving Bool := do
  load
  let records ← Step.look fun shelf => shelf.store.records
  match records.get? module with
  | none => return false
  | some targets =>
    match targets.get? target with
    | none => do
      save
      return false
    | some record => do
      changeRecords fun rs => rs.update module target (·.ask digest)
      save
      return record.holds digest

/-- Records a digest for a target of a module. -/
def add (module target digest : String) : Shelving Unit := do
  load
  changeRecords fun rs => rs.update module target (·.add digest)
  save

/-- Forgets all digests of all targets of a module. -/
def clear (module : String) : Shelving Unit := do
  load
  changeRecords fun rs =>
    match rs.get? module with
    | some targets => Table.insert rs module (targets.map Record.clear)
    | none => rs
  save

end Store

end Kiln
