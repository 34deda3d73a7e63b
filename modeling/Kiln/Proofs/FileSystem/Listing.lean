import Kiln.Proofs.FileSystem.Places

/-!
# Kiln.Proofs.FileSystem.Listing — the files below a directory

The walk down a tree comes upon every file once and upon nothing else (`Node.Valid.mem_files`).  It
takes the entries of a directory in the order of their names, and what is below an entry before the
next one, so the places come in the lexicographic order of their names (`Node.Valid.pairwise_files`).
-/

namespace Kiln

namespace Node

theorem entryFiles_eq (es : List (String × Node)) :
    entryFiles es = es.flatMap fun e => (files e.2).map (e.1 :: ·) := by
  induction es with
  | nil => rfl
  | cons e es ih => rw [entryFiles, List.flatMap_cons, ih]

theorem Valid.isName_of_at? {n m : Node} {names : List String} (h : n.Valid)
    (hat : n.at? names = some m) : ∀ name ∈ names, Path.IsName name := by
  induction names generalizing n with
  | nil => simp
  | cons name rest ih =>
    rw [at?_cons] at hat
    obtain ⟨child, hchild, hrest⟩ := Option.bind_eq_some_iff.mp hat
    have hentry := (Table.find_eq_some_iff h.ordered).mp hchild
    exact List.forall_mem_cons.mpr ⟨h.isName _ hentry, ih (h.find hchild) hrest⟩

/-- The walk comes upon the files, and upon nothing else. -/
theorem Valid.mem_files {n : Node} (h : n.Valid) (place : List String) :
    place ∈ n.files ↔ ∃ data t, n.at? place = some (.file data t) := by
  induction h generalizing place with
  | file data t =>
    rw [files, List.mem_singleton]
    constructor
    · rintro rfl
      exact ⟨data, t, rfl⟩
    · rintro ⟨_, _, hat⟩
      exact eq_nil_of_at?_file rfl hat
  | @dir es t hordered _ _ ih =>
    rw [files, entryFiles_eq, List.mem_flatMap]
    cases place with
    | nil => simp
    | cons name rest =>
      rw [at?_dir_cons]
      constructor
      · rintro ⟨e, he, hplace⟩
        obtain ⟨rest', hrest, hcons⟩ := List.mem_map.mp hplace
        cases hcons
        rw [(Table.find_eq_some_iff hordered).mpr he, Option.bind_some]
        exact (ih e he rest).mp hrest
      · rintro ⟨data, t', hat⟩
        obtain ⟨child, hchild, hrest⟩ := Option.bind_eq_some_iff.mp hat
        have he := (Table.find_eq_some_iff hordered).mp hchild
        exact ⟨_, he, List.mem_map.mpr ⟨rest, (ih _ he rest).mpr ⟨data, t', hrest⟩, rfl⟩⟩

/-- The walk goes by names, and down before it goes on. -/
theorem Valid.pairwise_files {n : Node} (h : n.Valid) : n.files.Pairwise (· < ·) := by
  induction h with
  | file data t => exact List.pairwise_singleton _ _
  | @dir es t hordered _ _ ih =>
    rw [files, entryFiles_eq, List.pairwise_flatMap]
    refine ⟨fun e he => List.pairwise_map.mpr ((ih e he).imp fun hlt => ?_),
      hordered.imp fun {e e'} hlt place hplace place' hplace' => ?_⟩
    · exact List.Lex.cons hlt
    · obtain ⟨_, -, rfl⟩ := List.mem_map.mp hplace
      obtain ⟨_, -, rfl⟩ := List.mem_map.mp hplace'
      exact List.Lex.rel hlt

end Node

namespace FileSystem

open Kiln.Text

/-- How a file below a directory is named: after the directory, unless this goes without saying. -/
def fileName (label : String) (place : List String) : String :=
  let rest := Pieces.join "/" place
  if label = "" then rest else label ++ "/" ++ rest

/-- The listing of a directory names the files below it, each of them once and in order. -/
theorem filesBelow_of_isDir {fs : FileSystem} {path : String} (hroot : fs.root.Valid)
    (h : fs.isDir path = true) :
    ∃ places : List (List String), places.Pairwise (· < ·) ∧
      (∀ rel, rel ∈ places ↔ ∃ data, fs.content (fs.way path ++ rel) = some (.file data)) ∧
      (∀ rel ∈ places, ∀ name ∈ rel, Path.IsName name) ∧
      ∀ label, fs.filesBelow path label = places.map (fileName label) := by
  obtain ⟨names, n, hl, hn⟩ := isDir_eq_true_iff.mp h
  have hat : fs.root.at? (fs.way path) = some n := by
    rw [← way_of_locate hl]
    exact at?_of_locate_found hl
  have hvalid := hroot.at? hat
  have hfiles (rel : List String) :
      rel ∈ n.files ↔ ∃ data, fs.content (fs.way path ++ rel) = some (.file data) := by
    rw [hvalid.mem_files]
    simp only [content_eq_file, Node.at?_append, hat, Option.bind_some]
  refine ⟨n.files, hvalid.pairwise_files, hfiles, fun rel hrel => ?_, fun label => ?_⟩
  · obtain ⟨data, t, hfile⟩ := (hvalid.mem_files rel).mp hrel
    exact hvalid.isName_of_at? hfile
  · cases n with
    | file data t => simp [Node.isDir] at hn
    | dir es t =>
      unfold filesBelow
      rw [node_eq_ok_iff.mpr ⟨names, hl⟩]
      rfl

end FileSystem

end Kiln
