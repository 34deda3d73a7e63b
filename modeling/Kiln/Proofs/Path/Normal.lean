import Kiln.Path
import Kiln.Proofs.Text.Pieces

/-!
# Kiln.Proofs.Path.Normal — absolute paths with nothing left to fold

A path is `Normal` if it is the root or leads down from it by names alone.  What is read against a
normal directory is normal again, and so is a file in it; the text before the last separator of a
normal path is normal too, unless the path leads no further than into the root: then it is empty,
which is no absolute path.
-/

namespace Kiln.Path

open Kiln.Text

/-- A component of a path that is a name: neither empty, nor `.` or `..`, and without separators. -/
structure IsName (name : String) : Prop where
  ne_empty : name ≠ ""
  ne_here : name ≠ "."
  ne_up : name ≠ ".."
  plain : ∀ c ∈ name.toList, isSeparator c = false

theorem isName_iff {name : String} : IsName name ↔
    name ≠ "" ∧ name ≠ "." ∧ name ≠ ".." ∧ name.toList.all (fun c => !isSeparator c) = true := by
  constructor
  · intro h
    exact ⟨h.ne_empty, h.ne_here, h.ne_up, by simpa using h.plain⟩
  · rintro ⟨hempty, hhere, hup, hplain⟩
    exact ⟨hempty, hhere, hup, by simpa using hplain⟩

-- Where all characters can be listed, the condition on them would be decided one by one.
instance (name : String) : Decidable (IsName name) := decidable_of_iff _ isName_iff.symm

/-- The root, or names below it. -/
def Normal (path : String) : Prop :=
  ∃ names, (∀ name ∈ names, IsName name) ∧ path = "/" ++ Pieces.join "/" names

/-! ## Names -/

theorem isName_of_ofPiece? {piece name : String} (h : Component.ofPiece? piece = some (.name name))
    (hplain : ∀ c ∈ piece.toList, isSeparator c = false) : IsName name := by
  unfold Component.ofPiece? at h
  split at h
  · cases h
  · cases h
  · cases h
  · rename_i hempty hhere hup
    cases h
    exact ⟨hempty, hhere, hup, hplain⟩

theorem isName_of_component {path name : String} (h : .name name ∈ components path) : IsName name := by
  have hpieces : .name name ∈
      (Pieces.splitString isSeparator path).filterMap Component.ofPiece? := by
    unfold components at h
    split at h
    · simpa using h
    · dsimp only at h
      split at h
      · rename_i hpieces
        rw [hpieces]
        simpa using h
      · exact (List.mem_filter.mp h).1
  obtain ⟨piece, hpiece, hname⟩ := List.mem_filterMap.mp hpieces
  obtain ⟨cs, hcs, rfl⟩ := List.mem_map.mp hpiece
  refine isName_of_ofPiece? hname fun c hc => ?_
  rw [String.toList_ofList] at hc
  exact Pieces.plain_of_mem_split hcs c hc

theorem isName_of_foldNames {stack : List String} {cs : List Component}
    (hstack : ∀ name ∈ stack, IsName name) (hcs : ∀ name, .name name ∈ cs → IsName name) :
    ∀ name ∈ foldNames stack cs, IsName name := by
  induction cs generalizing stack with
  | nil => exact hstack
  | cons c cs ih =>
    have hrest (name : String) (h : .name name ∈ cs) : IsName name :=
      hcs name (List.mem_cons_of_mem _ h)
    cases c with
    | name t =>
      refine ih (fun name hname => ?_) hrest
      rcases List.mem_cons.mp hname with rfl | hname
      · exact hcs _ List.mem_cons_self
      · exact hstack name hname
    | up => exact ih (fun name hname => hstack name (List.mem_of_mem_tail hname)) hrest
    | root | here => exact ih hstack hrest

/-! ## Normal paths -/

theorem Normal.isAbsolute {path : String} (h : Normal path) : isAbsolute path = true := by
  obtain ⟨names, -, rfl⟩ := h
  simp [Path.isAbsolute, separator]

theorem normal_fold {path : String} (h : isAbsolute path = true) : Normal (fold path) := by
  refine ⟨(foldNames [] (components path)).reverse, fun name hname => ?_, ?_⟩
  · exact isName_of_foldNames (by simp) (fun _ => isName_of_component) name (List.mem_reverse.mp hname)
  · simp [fold, h]

theorem isAbsolute_join {base : String} (path : String) (h : isAbsolute base = true) :
    isAbsolute (join base path) = true := by
  have happend (tail : String) : isAbsolute (base ++ tail) = true := by
    have hne : base.toList ≠ [] := by
      intro hnil
      simp [isAbsolute, hnil] at h
    obtain ⟨c, cs, hcs⟩ := List.exists_cons_of_ne_nil hne
    simpa [isAbsolute, hcs] using h
  unfold join
  split
  · assumption
  · split
    · rename_i hempty
      simp [isAbsolute, hempty] at h
    · split
      · exact happend path
      · rw [String.append_assoc]
        exact happend _

/-- What is read against a normal directory is normal. -/
theorem Normal.absolute {base : String} (h : Normal base) (path : String) :
    Normal (absolute base path) :=
  normal_fold (isAbsolute_join path h.isAbsolute)

theorem join_concat {names : List String} (hne : names ≠ []) (name : String) :
    Pieces.join "/" (names ++ [name]) = Pieces.join "/" names ++ "/" ++ name := by
  induction names with
  | nil => exact absurd rfl hne
  | cons first rest ih =>
    cases rest with
    | nil => rfl
    | cons second rest =>
      have hrest := ih (by simp)
      simp only [List.cons_append, Pieces.join] at hrest ⊢
      rw [hrest]
      simp only [String.append_assoc]

/-- A normal path that is not the root is a name in a directory, which is normal unless it is the
root, and then written without its separator. -/
theorem Normal.cut {path : String} (h : Normal path) (hroot : path ≠ "/") :
    ∃ dir name, IsName name ∧ path = dir ++ "/" ++ name ∧ (dir = "" ∨ Normal dir) := by
  obtain ⟨names, hnames, rfl⟩ := h
  rcases List.eq_nil_or_concat names with rfl | ⟨front, name, rfl⟩
  · exact absurd rfl hroot
  rw [List.concat_eq_append] at hnames ⊢
  have hname := hnames name (by simp)
  by_cases hfront : front = []
  · subst hfront
    exact ⟨"", name, hname, rfl, .inl rfl⟩
  · refine ⟨"/" ++ Pieces.join "/" front, name, hname, ?_, .inr ⟨front, fun x hx => ?_, rfl⟩⟩
    · rw [join_concat hfront]
      simp only [String.append_assoc]
    · exact hnames x (by simp [hx])

theorem parent?_append (dir : String) {name : String} (h : ∀ c ∈ name.toList, isSeparator c = false) :
    parent? (dir ++ "/" ++ name) = some dir := by
  have hdrop : (dir ++ "/" ++ name).toList.reverse.dropWhile (!isSeparator ·) =
      '/' :: dir.toList.reverse := by
    simp only [String.toList_append, List.reverse_append]
    rw [List.dropWhile_append_of_pos fun c hc => by simpa using h c (List.mem_reverse.mp hc)]
    rfl
  rw [parent?, hdrop]
  simp

/-- The directory of a normal path is normal, unless nothing stands before the last separator. -/
theorem Normal.directory {path : String} (h : Normal path) :
    Path.directory path = "" ∨ Normal (Path.directory path) := by
  by_cases hroot : path = "/"
  · subst hroot
    exact .inl (by decide)
  · obtain ⟨dir, name, hname, rfl, hdir⟩ := h.cut hroot
    rw [Path.directory, parent?_append dir hname.plain]
    exact hdir

/-- Only the root ends with a separator. -/
theorem Normal.getLast?_ne {path : String} (h : Normal path) (hroot : path ≠ "/") :
    path.toList.getLast? ≠ some separator := by
  obtain ⟨dir, name, hname, rfl, -⟩ := h.cut hroot
  have hne : name.toList ≠ [] := by simpa using hname.ne_empty
  rw [String.toList_append, List.getLast?_append, List.getLast?_eq_some_getLast hne]
  intro hlast
  have hplain := hname.plain separator (Option.some.inj hlast ▸ List.getLast_mem hne)
  simp [isSeparator] at hplain

/-- A name in a normal directory. -/
theorem Normal.join {base name : String} (h : Normal base) (hname : IsName name) :
    Normal (join base name) := by
  have hrelative : Path.isAbsolute name = false := by
    rw [← Bool.not_eq_true]
    intro habs
    obtain ⟨cs, hcs⟩ := List.head?_eq_some_iff.mp (by simpa [Path.isAbsolute] using habs)
    have hplain := hname.plain separator (by simp [hcs])
    simp [isSeparator] at hplain
  have hne : base ≠ "" := by
    rintro rfl
    exact absurd h.isAbsolute (by decide)
  rw [Path.join, if_neg (by simp [hrelative]), if_neg hne]
  by_cases hroot : base = "/"
  · subst hroot
    exact ⟨[name], by simpa using hname, rfl⟩
  · rw [if_neg (h.getLast?_ne hroot)]
    obtain ⟨names, hnames, rfl⟩ := h
    have hnil : names ≠ [] := by
      rintro rfl
      exact hroot rfl
    refine ⟨names ++ [name], fun x hx => ?_, ?_⟩
    · rcases List.mem_append.mp hx with hx | hx
      · exact hnames x hx
      · exact List.mem_singleton.mp hx ▸ hname
    · rw [join_concat hnil]
      simp only [String.append_assoc]

end Kiln.Path
