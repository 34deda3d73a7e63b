import Kiln.Proofs.Eval.Regime
import Kiln.Proofs.FileSystem.Listing
import Kiln.Proofs.Memory.Shape

/-!
# Kiln.Proofs.Eval.Listing — `files` gives names that lead back to the files

`files` puts its argument before the way from the directory down to each file.  However the argument
spells the directory, what comes out leads to this very file again when it is read against the same
working directory (`files_lead_back`).
-/

namespace Kiln

open Kiln.Text

namespace Path

/-- `.` is the directory that paths are read against. -/
theorem names_here {cwd : String} (h : isAbsolute cwd = true) :
    names (absolute cwd ".") = names cwd := by
  have hhere : steps "." = [.here] := by decide
  rw [names_absolute h, names_join cwd (by decide), hhere]
  exact List.reverse_reverse _

theorem absolute_here {cwd : String} (h : isAbsolute cwd = true) {more : String}
    (hmore : isAbsolute more = false) : absolute (absolute cwd ".") more = absolute cwd more := by
  have hdir : isAbsolute (absolute cwd ".") = true := (normal_fold (isAbsolute_join _ h)).isAbsolute
  rw [absolute_eq hdir more, absolute_eq h more, names_join _ hmore, names_join _ hmore, names_here h]

/-- A path that says nothing stands for the directory as well. -/
theorem absolute_empty {cwd : String} (h : isAbsolute cwd = true) :
    absolute cwd "" = absolute cwd "." := by
  have hnames : names (join cwd "") = names (join cwd ".") := by
    rw [names_join cwd (by decide), steps_empty, ← names_absolute h ".", names_here h]
    exact List.reverse_reverse _
  rw [absolute_eq h, absolute_eq h, hnames]

end Path

/-- The directory that an argument of `files` stands for. -/
def Builtin.listedDir (argument : String) : String :=
  if argument = "" then "." else argument

/-- What is put before the files in it. -/
def Builtin.listedLabel (argument : String) : String :=
  if listedDir argument = "." then "" else listedDir argument

theorem Builtin.listedDir_ne_empty (argument : String) : listedDir argument ≠ "" := by
  unfold listedDir
  split
  · decide
  · assumption

theorem Builtin.absolute_listedDir {cwd : String} (h : Path.isAbsolute cwd = true) (argument : String) :
    Path.absolute cwd (listedDir argument) = Path.absolute cwd argument := by
  by_cases hempty : argument = ""
  · subst hempty
    exact (Path.absolute_empty h).symm
  · rw [listedDir, if_neg hempty]

/-- The name of a file leads to the place of the file below the directory. -/
theorem Builtin.absolute_fileName {cwd : String} (h : Path.isAbsolute cwd = true) (argument : String)
    {rel : List String} (hrel : ∀ name ∈ rel, Path.IsName name) :
    Path.absolute cwd (FileSystem.fileName (listedLabel argument) rel) =
      "/" ++ Pieces.join "/" (Path.names (Path.absolute cwd argument) ++ rel) := by
  have hrelative : Path.isAbsolute (Pieces.join "/" rel) = false :=
    Path.isAbsolute_join_texts fun name hname =>
      ⟨(hrel name hname).ne_empty, (hrel name hname).plain⟩
  have hname : Path.absolute cwd (FileSystem.fileName (listedLabel argument) rel) =
      Path.absolute (Path.absolute cwd (listedDir argument)) (Pieces.join "/" rel) := by
    unfold listedLabel
    by_cases hhere : listedDir argument = "."
    · rw [if_pos hhere, hhere, Path.absolute_here h hrelative]
      rfl
    · have hne := listedDir_ne_empty argument
      rw [if_neg hhere, FileSystem.fileName, if_neg hne, Path.absolute_join h hne hrelative]
  rw [hname, Path.absolute_join_names h _ hrel, absolute_listedDir h]

namespace Builtin

theorem listFiles_run (argument : String) (s : Machine) :
    listFiles argument s =
      Action.onMemory (Memory.newArray ((s.files.filesBelow (s.run.resolve (listedDir argument))
        (listedLabel argument)).map .str)) s := by
  unfold listFiles listedLabel listedDir
  rw [Action.resolve, Step.look_bind_run, Step.look_bind_run]

theorem call_files {args : List Value} {s : Machine} {argument : String}
    (h : (Action.textOf (args.getD 0 .void) s).1 = .ok argument) :
    call .files args s =
      Action.onMemory (Memory.newArray ((s.files.filesBelow (s.run.resolve (listedDir argument))
        (listedLabel argument)).map .str)) s := by
  have hcall : call .files args = Action.textOf (args.getD 0 .void) >>= listFiles := rfl
  have htext : Action.textOf (args.getD 0 .void) s = (.ok argument, s) :=
    Prod.ext h (Action.idle_textOf _ s)
  rw [hcall, Step.bind_run_ok htext, listFiles_run]

/-- `files` gives the files below a directory and nothing else, each of them once and in order, and
what it calls a file leads to it from the working directory. -/
theorem files_lead_back {args : List Value} {s : Machine} {argument : String}
    (hargument : (Action.textOf (args.getD 0 .void) s).1 = .ok argument)
    (hcwd : Path.isAbsolute s.run.cwd = true) (hroot : s.files.root.Valid)
    (hdir : s.files.isDir (s.run.resolve argument) = true) :
    ∃ (id : ArrayId) (m : Memory) (listed : List (String × List String)),
      call .files args s = (.ok (.array id), { s with memory := m }) ∧
      m.elements (.array id) = listed.map (fun e => .str e.1) ∧
      (listed.map (·.2)).Pairwise (· < ·) ∧
      (∀ rel, rel ∈ listed.map (·.2) ↔
        ∃ data, s.files.content (s.files.way (s.run.resolve argument) ++ rel) = some (.file data)) ∧
      ∀ e ∈ listed, s.run.resolve e.1 =
        "/" ++ Pieces.join "/" (s.files.way (s.run.resolve argument) ++ e.2) := by
  have hresolve (path : String) : s.run.resolve path = Path.absolute s.run.cwd path := by
    rw [Run.resolve, Path.native_eq]
  have hsame : s.run.resolve (listedDir argument) = s.run.resolve argument := by
    rw [hresolve, hresolve, absolute_listedDir hcwd]
  have habsolute : Path.isAbsolute (s.run.resolve argument) = true := by
    rw [hresolve]
    exact (Path.normal_fold (Path.isAbsolute_join _ hcwd)).isAbsolute
  have hway : s.files.way (s.run.resolve argument) = Path.names (s.run.resolve argument) :=
    FileSystem.way_of_fullPath? (if_pos habsolute)
  obtain ⟨places, hordered, hfiles, hnames, hbelow⟩ := FileSystem.filesBelow_of_isDir hroot hdir
  have hrun := call_files hargument
  rw [hsame, hbelow] at hrun
  let texts := places.map (FileSystem.fileName (listedLabel argument))
  have hnew := Memory.newArray_run (texts.map .str) s.memory
  have hvalues := Memory.elements_newArray (texts.map .str) s.memory
  rw [hnew] at hvalues
  let listed := places.map fun rel => (FileSystem.fileName (listedLabel argument) rel, rel)
  have htexts : texts.map Value.str = listed.map (fun e => .str e.1) := by
    rw [List.map_map, List.map_map]
    rfl
  have hplaces : listed.map (·.2) = places := by
    rw [List.map_map]
    exact List.map_id places
  refine ⟨_, _, listed, hrun.trans (Action.onMemory_run hnew), hvalues.trans htexts, ?_, ?_,
    fun e he => ?_⟩
  · rw [hplaces]
    exact hordered
  · rw [hplaces]
    exact hfiles
  · obtain ⟨rel, hrel, rfl⟩ := List.mem_map.mp he
    rw [hway, hresolve, hresolve, absolute_fileName hcwd argument (hnames rel hrel)]

/-- A file beside the working directory, and one further down in it. -/
def inSub : Machine :=
  { Machine.blank with
    run := .inDir "/w/sub"
    files := ⟨.dir [("w", .dir [("a", .file .empty 1),
      ("sub", .dir [("x", .dir [("y", .file .empty 1)] 1), ("z", .file .empty 1)] 1)] 1)] 1, 2,
      some "/"⟩ }

/-- Down the working directory by way of the one around it. -/
theorem files_lead_back_inSub :
    Path.isAbsolute inSub.run.cwd = true ∧ inSub.files.root.Valid ∧
    inSub.files.isDir (inSub.run.resolve "..//sub/.") = true ∧
    ∃ (id : ArrayId) (m : Memory) (listed : List (String × List String)),
      call .files [.str "..//sub/."] inSub = (.ok (.array id), { inSub with memory := m }) ∧
      m.elements (.array id) = listed.map (fun e => .str e.1) ∧
      ["x", "y"] ∈ listed.map (·.2) ∧
      ∀ e ∈ listed, inSub.run.resolve e.1 = "/" ++ Pieces.join "/" (["w", "sub"] ++ e.2) := by
  have hcwd : Path.isAbsolute inSub.run.cwd = true := by decide
  have hroot : inSub.files.root.Valid := by
    refine .dir (by decide) (by decide) (List.forall_mem_singleton.mpr ?_)
    refine .dir (by decide) (by decide) (List.forall_mem_cons.mpr ⟨.file _ _, ?_⟩)
    refine List.forall_mem_singleton.mpr (.dir (by decide) (by decide) ?_)
    refine List.forall_mem_cons.mpr ⟨.dir (by decide) (by decide) ?_, ?_⟩
    · exact List.forall_mem_singleton.mpr (.file _ _)
    · exact List.forall_mem_singleton.mpr (.file _ _)
  have hdir : inSub.files.isDir (inSub.run.resolve "..//sub/.") = true := by decide +kernel
  have hway : inSub.files.way (inSub.run.resolve "..//sub/.") = ["w", "sub"] := by decide +kernel
  have htext : (Action.textOf ([Value.str "..//sub/."].getD 0 .void) inSub).1 = .ok "..//sub/." := rfl
  obtain ⟨id, m, listed, hcall, hvalues, -, hfiles, hresolve⟩ :=
    files_lead_back htext hcwd hroot hdir
  rw [hway] at hfiles hresolve
  exact ⟨hcwd, hroot, hdir, id, m, listed, hcall, hvalues, (hfiles ["x", "y"]).mpr ⟨.empty, rfl⟩,
    hresolve⟩

end Builtin

end Kiln
