import Kiln.Proofs.FileSystem.Walk

/-!
# Kiln.Proofs.FileSystem.Growth — file systems that grow

A file system that `Grows` still finds what it found, and a file that is spared reads as before.  A
file put over a file, and anything put at a free place, makes it grow.
-/

namespace Kiln.FileSystem

open Kiln.Text

/-! ## Growth -/

/-- Whatever paths lead to in `fs` is there in `fs'` too. -/
structure Grows (fs fs' : FileSystem) : Prop where
  start : fs'.start = fs.start
  root : fs.root.Grows fs'.root

theorem Grows.refl (fs : FileSystem) : fs.Grows fs := ⟨rfl, .refl _⟩

theorem Grows.trans {a b c : FileSystem} (hab : a.Grows b) (hbc : b.Grows c) : a.Grows c :=
  ⟨hbc.start.trans hab.start, hab.root.trans hbc.root⟩

/-- A path that is not refused for its text. -/
def Passes (path : String) : Prop :=
  path ≠ "" ∧ path.toList.contains (Char.ofNat 0) = false ∧ path.utf8ByteSize ≤ maxPath

theorem locate_eq_ok_iff {fs : FileSystem} {path : String} {place : Place} :
    fs.locate path = .ok place ↔
      Passes path ∧ ∃ full, fs.fullPath? path = some full ∧
        Leads fs.root [] (Pieces.splitString Path.isSeparator full) place := by
  unfold locate Passes
  by_cases hempty : path = ""
  · simp [hempty]
  by_cases hnul : path.toList.contains (Char.ofNat 0) = true
  · simp only [hnul, hempty]
    simp
  by_cases hlong : path.utf8ByteSize > maxPath
  · rw [if_neg hempty, if_neg hnul, if_pos hlong]
    constructor
    · intro h
      cases h
    · rintro ⟨⟨-, -, hle⟩, -⟩
      omega
  rw [if_neg hempty, if_neg hnul, if_neg hlong]
  have hpasses : path ≠ "" ∧ path.toList.contains (Char.ofNat 0) = false ∧
      path.utf8ByteSize ≤ maxPath := ⟨hempty, by simpa using hnul, by omega⟩
  cases hfull : fs.fullPath? path with
  | none => simp
  | some full =>
    rw [and_iff_right hpasses]
    simp only [Option.some.injEq, exists_eq_left', ← walk_eq_ok_iff]
    cases walk fs.root [] (Pieces.splitString Path.isSeparator full) <;> simp

theorem Grows.fullPath? {fs fs' : FileSystem} (h : fs.Grows fs') (path : String) :
    fs'.fullPath? path = fs.fullPath? path := by
  rw [FileSystem.fullPath?, FileSystem.fullPath?, h.start]

theorem Grows.locate_found {fs fs' : FileSystem} (h : fs.Grows fs') {path : String}
    {names : List String} {n : Node} (hl : fs.locate path = .ok (.found names n)) :
    ∃ n', fs'.locate path = .ok (.found names n') ∧ n'.isDir = n.isDir := by
  obtain ⟨hpasses, full, hfull, hleads⟩ := locate_eq_ok_iff.mp hl
  obtain ⟨n', hleads', hkind⟩ := hleads.grows h.root
  exact ⟨n', locate_eq_ok_iff.mpr ⟨hpasses, full, (h.fullPath? path).trans hfull, hleads'⟩, hkind⟩

theorem Grows.locate_filled {fs fs' : FileSystem} (h : fs.Grows fs') {path name : String}
    {names : List String} {slash : Bool} {n : Node}
    (hl : fs.locate path = .ok (.free names name slash))
    (hn : fs'.root.at? (names ++ [name]) = some n) (hslash : slash = true → n.isDir = true) :
    fs'.locate path = .ok (.found (names ++ [name]) n) := by
  obtain ⟨hpasses, full, hfull, hleads⟩ := locate_eq_ok_iff.mp hl
  exact locate_eq_ok_iff.mpr
    ⟨hpasses, full, (h.fullPath? path).trans hfull, hleads.filled h.root hn hslash⟩

theorem at?_of_locate_found {fs : FileSystem} {path : String} {names : List String} {n : Node}
    (hl : fs.locate path = .ok (.found names n)) : fs.root.at? names = some n := by
  obtain ⟨-, full, -, hleads⟩ := locate_eq_ok_iff.mp hl
  exact hleads.at?_found

theorem node_eq_ok_iff {fs : FileSystem} {path : String} {n : Node} :
    fs.node path = .ok n ↔ ∃ names, fs.locate path = .ok (.found names n) := by
  unfold node
  cases fs.locate path with
  | error e => simp
  | ok place => cases place <;> simp

theorem isDir_eq_true_iff {fs : FileSystem} {path : String} :
    fs.isDir path = true ↔
      ∃ names n, fs.locate path = .ok (.found names n) ∧ n.isDir = true := by
  unfold isDir
  cases hn : fs.node path with
  | ok n =>
    obtain ⟨names, hl⟩ := node_eq_ok_iff.mp hn
    show n.isDir = true ↔ _
    constructor
    · exact fun hdir => ⟨names, n, hl, hdir⟩
    · rintro ⟨names', n', hl', hdir⟩
      cases hl.symm.trans hl'
      exact hdir
  | error e =>
    have hnot : ∀ names n, fs.locate path ≠ .ok (.found names n) := by
      intro names n hl
      rw [node_eq_ok_iff.mpr ⟨names, hl⟩] at hn
      cases hn
    simp [hnot]

theorem Grows.isDir {fs fs' : FileSystem} (h : fs.Grows fs') {path : String}
    (hdir : fs.isDir path = true) : fs'.isDir path = true := by
  obtain ⟨names, n, hl, hn⟩ := isDir_eq_true_iff.mp hdir
  obtain ⟨n', hl', hkind⟩ := h.locate_found hl
  exact isDir_eq_true_iff.mpr ⟨names, n', hl', hkind.trans hn⟩

theorem bytes_eq_ok_iff {fs : FileSystem} {path : String} {data : ByteArray} :
    fs.bytes path = .ok data ↔
      ∃ names t, fs.locate path = .ok (.found names (.file data t)) := by
  unfold bytes
  cases hn : fs.node path with
  | error e =>
    have hnot : ∀ names t, fs.locate path ≠ .ok (.found names (.file data t)) := by
      intro names t hl
      rw [node_eq_ok_iff.mpr ⟨names, hl⟩] at hn
      cases hn
    simp [hnot]
  | ok n =>
    obtain ⟨names, hl⟩ := node_eq_ok_iff.mp hn
    cases n <;> simp [hl]

/-- A file that is spared reads as before. -/
theorem Grows.bytes {fs fs' : FileSystem} (h : fs.Grows fs') (hs : fs.root.Spares fs'.root)
    {path : String} {data : ByteArray} (hb : fs.bytes path = .ok data) :
    fs'.bytes path = .ok data := by
  obtain ⟨names, t, hl⟩ := bytes_eq_ok_iff.mp hb
  obtain ⟨n', hl', -⟩ := h.locate_found hl
  have hsame := hs names _ (at?_of_locate_found hl) rfl
  obtain rfl := Option.some.inj (hsame.symm.trans (at?_of_locate_found hl'))
  exact bytes_eq_ok_iff.mpr ⟨names, t, hl'⟩

theorem Grows.text {fs fs' : FileSystem} (h : fs.Grows fs') (hs : fs.root.Spares fs'.root)
    {path text : String} (ht : fs.text path = .ok text) : fs'.text path = .ok text := by
  rw [FileSystem.text] at ht ⊢
  cases hb : fs.bytes path with
  | error e => simp [hb] at ht
  | ok data =>
    rw [h.bytes hs hb]
    rw [hb] at ht
    exact ht

theorem fromUTF8?_toUTF8 (s : String) : String.fromUTF8? s.toUTF8 = some s := by
  simp [String.fromUTF8?, String.fromUTF8, s.isValidUTF8]

theorem text_of_bytes {fs : FileSystem} {path text : String}
    (h : fs.bytes path = .ok text.toUTF8) : fs.text path = .ok text := by
  rw [FileSystem.text, h]
  simp only [fromUTF8?_toUTF8]

/-! ## Putting a node somewhere -/

/-- A node put at a free place is there, and nothing else is changed. -/
theorem put_free {fs : FileSystem} {path name : String} {names : List String} {slash : Bool}
    (new : Node) (hl : fs.locate path = .ok (.free names name slash)) :
    fs.Grows (fs.put (names ++ [name]) new) ∧
      fs.root.Spares (fs.put (names ++ [name]) new).root ∧
      (fs.put (names ++ [name]) new).root.at? (names ++ [name]) = some new := by
  obtain ⟨-, full, -, hleads⟩ := locate_eq_ok_iff.mp hl
  obtain ⟨here, hhere, hdir, hfree⟩ := hleads.at?_free
  have hnone : fs.root.at? (names ++ [name]) = none := (Node.at?_concat name hhere).trans hfree
  obtain ⟨hgrows, hspares⟩ := Node.grows_insert_of_free fs.clock new hnone
  exact ⟨⟨rfl, hgrows⟩, hspares, Node.at?_insert_self fs.clock new name hhere hdir⟩

/-- A file put over a file. -/
theorem put_file {fs : FileSystem} {path : String} {names : List String} {old : Node} (new : Node)
    (hl : fs.locate path = .ok (.found names old)) (hold : old.isDir = false)
    (hnew : new.isDir = false) :
    fs.Grows (fs.put names new) ∧ (fs.put names new).root.at? names = some new := by
  have hat := at?_of_locate_found hl
  exact ⟨⟨rfl, Node.grows_insert_of_file fs.clock hat hold hnew⟩, Node.at?_insert_file fs.clock hat⟩

end Kiln.FileSystem
