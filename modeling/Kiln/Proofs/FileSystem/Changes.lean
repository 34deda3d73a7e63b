import Kiln.Proofs.FileSystem.Growth
import Kiln.Proofs.Keeps
import Kiln.Proofs.Path
import Kiln.Proofs.Text.Pieces

/-!
# Kiln.Proofs.FileSystem.Changes — making directories and replacing a file

Making directories makes a file system grow and spares all files; done again it changes nothing, and
where it failed it fails again.  A file is `Replaceable` if its directory is there and it is no
directory itself: then it can be replaced with any bytes, reads as these, and stays replaceable;
else every try fails and changes nothing.
-/

namespace Kiln

namespace FileSystem

open Kiln.Text

theorem trimEnd_ofList {front back : List Char} (hfront : front.length ≤ 1)
    (hback : back.head? ≠ some Path.separator) :
    trimEnd (String.ofList (front ++ back.reverse)) = String.ofList (front ++ back.reverse) := by
  unfold trimEnd
  rw [String.toList_ofList, List.reverse_append, List.reverse_reverse]
  cases back with
  | cons c rest =>
    have hc : Path.isSeparator c = false := by simpa [Path.isSeparator] using hback
    rw [List.cons_append, List.dropWhile_cons_of_neg (by simp [hc])]
    simp
  | nil =>
    rcases front with _ | ⟨c, _ | ⟨d, front⟩⟩
    · rfl
    · by_cases hc : Path.isSeparator c = true
      · simp [hc]
      · simp [hc]
    · simp only [List.length_cons] at hfront
      omega

/-- The directory of a path is written without separators at its end, unless it is the root. -/
theorem trimEnd_enclosing {path dir : String} (h : Path.enclosing? path = some dir) :
    trimEnd dir = dir := by
  unfold Path.enclosing? at h
  dsimp only at h
  split at h
  · split_ifs at h
    obtain rfl : "" = dir := Option.some.inj h
    rfl
  · obtain rfl := Option.some.inj h
    refine trimEnd_ofList ?_ (Path.head?_dropSilent _)
    have := Path.anchorLength_le path.toList
    rw [List.length_take]
    omega

theorem join_of_relative (dir : String) :
    ∃ lead : String, ∀ path, ¬ Path.isAbsolute path = true → Path.join dir path = lead ++ path := by
  by_cases hempty : dir = ""
  · exact ⟨"", fun path h => by simp [Path.join, h, hempty]⟩
  · by_cases hend : dir.toList.getLast? = some Path.separator
    · exact ⟨dir, fun path h => by simp [Path.join, h, hempty, hend]⟩
    · exact ⟨dir ++ "/", fun path h => by simp [Path.join, h, hempty, hend]⟩

/-- What stands before a path seen from the root stands before any path that starts like it. -/
theorem fullPath?_eq_some {fs : FileSystem} {path full : String}
    (h : fs.fullPath? path = some full) :
    ∃ lead : String, full = lead ++ path ∧ ∀ path' : String,
      path'.toList.head? = path.toList.head? → fs.fullPath? path' = some (lead ++ path') := by
  have habs : ∀ path' : String, path'.toList.head? = path.toList.head? →
      Path.isAbsolute path' = Path.isAbsolute path := by
    intro path' hhead
    rw [Path.isAbsolute, Path.isAbsolute, hhead]
  unfold fullPath? at h ⊢
  by_cases hpath : Path.isAbsolute path = true
  · rw [if_pos hpath] at h
    refine ⟨"", by simpa using (Option.some.inj h).symm, fun path' hhead => ?_⟩
    rw [habs path' hhead, if_pos hpath]
    simp
  · rw [if_neg hpath] at h
    obtain ⟨dir, hdir, hjoin⟩ := Option.map_eq_some_iff.mp h
    obtain ⟨lead, hlead⟩ := join_of_relative dir
    refine ⟨lead, by rw [← hjoin, hlead path hpath], fun path' hhead => ?_⟩
    have hpath' : ¬ Path.isAbsolute path' = true := by
      rw [habs path' hhead]
      exact hpath
    rw [if_neg hpath', hdir, Option.map_some, hlead path' hpath']

theorem Passes.front {path above : String} {tail : List Char} (h : Passes path)
    (hsplit : path.toList = above.toList ++ tail) (hne : above ≠ "") : Passes above := by
  obtain ⟨-, hnul, hsize⟩ := h
  have hpath : path = above ++ String.ofList tail :=
    String.toList_injective (by rw [hsplit, String.toList_append, String.toList_ofList])
  refine ⟨hne, ?_, ?_⟩
  · rw [hsplit] at hnul
    simp only [List.contains_append, Bool.or_eq_false_iff] at hnul
    exact hnul.1
  · rw [hpath, String.utf8ByteSize_append] at hsize
    omega

/-- The directory of a path that leads somewhere, even to a free place, is there. -/
theorem isDir_of_enclosing {fs : FileSystem} {path above : String} {place : Place}
    (h : Path.enclosing? path = some above) (hne : above ≠ "")
    (hl : fs.locate path = .ok place) : fs.isDir above = true := by
  obtain ⟨tail, hsplit, hname, hjoint⟩ := Path.enclosing?_append h hne
  obtain ⟨hpasses, full, hfull, hleads⟩ := locate_eq_ok_iff.mp hl
  obtain ⟨lead, rfl, hlead⟩ := fullPath?_eq_some hfull
  have hhead : above.toList.head? = path.toList.head? := by
    obtain ⟨c, rest, hc⟩ := List.exists_cons_of_ne_nil (mt String.toList_eq_nil_iff.mp hne)
    rw [hsplit, hc]
    rfl
  -- it is enough that the pieces of the directory lead to a directory
  suffices hfound : ∃ ns n, Leads fs.root []
      (Pieces.splitString Path.isSeparator (lead ++ above)) (.found ns n) ∧ n.isDir = true by
    obtain ⟨ns, n, hleads', hdir⟩ := hfound
    exact isDir_eq_true_iff.mpr ⟨ns, n, locate_eq_ok_iff.mpr
      ⟨hpasses.front hsplit hne, _, hlead above hhead, hleads'⟩, hdir⟩
  rw [Pieces.splitString, String.toList_append, hsplit, ← List.append_assoc] at hleads
  rw [Pieces.splitString, String.toList_append]
  rcases hjoint with hend | hstart
  · -- the directory ends with the separator, which leaves an empty piece
    obtain ⟨front, hfront⟩ := List.getLast?_eq_some_iff.mp hend
    rw [hfront, ← List.append_assoc] at hleads ⊢
    rw [List.append_assoc, List.singleton_append, Pieces.split_append _ _ (by rfl),
      List.map_append] at hleads
    obtain ⟨ns, n, hl', hdir⟩ := hleads.front (Pieces.exists_name hname)
    refine ⟨ns, n, ?_, hdir⟩
    rw [Pieces.split_append _ _ (by rfl), List.map_append]
    exact hl'.append (.blank hl'.at?_found (by simp [Pieces.split]) fun _ => hdir)
  · -- the separator is what goes on
    obtain ⟨rest, rfl⟩ := List.head?_eq_some_iff.mp hstart
    rw [Pieces.split_append _ _ (by rfl), List.map_append] at hleads
    refine hleads.front (Pieces.exists_name ?_)
    obtain ⟨c, hmem, hc⟩ := hname
    rcases List.mem_cons.mp hmem with rfl | hmem
    · exact absurd hc (by decide)
    · exact ⟨c, hmem, hc⟩

/-! ## Making directories -/

/-- Grown from `fs` with every file spared. -/
def Widens (fs fs' : FileSystem) : Prop := fs.Grows fs' ∧ fs.root.Spares fs'.root

theorem makeDir_run (path : String) (fs : FileSystem) :
    (∃ e, makeDir path fs = (.error e, fs)) ∨
      ∃ names name slash, fs.locate (trimEnd path) = .ok (.free names name slash) ∧
        makeDir path fs = (.ok (), fs.put (names ++ [name]) (.dir [] fs.clock)) := by
  unfold makeDir
  cases hl : fs.locate (trimEnd path) with
  | error e => exact .inl ⟨_, rfl⟩
  | ok place =>
    cases place with
    | found names n => exact .inl ⟨_, rfl⟩
    | free names name slash => exact .inr ⟨names, name, slash, rfl, rfl⟩

theorem makeDirUnlessThere_run (path : String) (fs : FileSystem) :
    (fs.isDir path = true ∧ makeDirUnlessThere path fs = (.ok (), fs)) ∨
      (∃ e, makeDirUnlessThere path fs = (.error e, fs)) ∨
      ∃ names name slash, fs.locate (trimEnd path) = .ok (.free names name slash) ∧
        makeDirUnlessThere path fs = (.ok (), fs.put (names ++ [name]) (.dir [] fs.clock)) := by
  unfold makeDirUnlessThere
  rcases makeDir_run path fs with ⟨e, he⟩ | ⟨names, name, slash, hl, hok⟩
  · rw [he]
    dsimp only
    by_cases hdir : fs.isDir path = true
    · exact .inl ⟨hdir, if_pos hdir⟩
    · exact .inr (.inl ⟨e, if_neg hdir⟩)
  · rw [hok]
    exact .inr (.inr ⟨names, name, slash, hl, rfl⟩)

/-- A directory that could not be made has changed nothing. -/
theorem makeDirUnlessThere_fails {fs fs' : FileSystem} {path : String} {o : Outcome Unit}
    (h : makeDirUnlessThere path fs = (o, fs')) (ho : o ≠ .ok ()) :
    ∃ e, o = .error e ∧ fs' = fs := by
  rcases makeDirUnlessThere_run path fs with ⟨-, hrun⟩ | ⟨e, hrun⟩ | ⟨_, _, _, -, hrun⟩
  · cases hrun.symm.trans h
    exact absurd rfl ho
  · cases hrun.symm.trans h
    exact ⟨e, rfl, rfl⟩
  · cases hrun.symm.trans h
    exact absurd rfl ho

theorem widens_put_dir {fs : FileSystem} {path name : String} {names : List String}
    {slash : Bool} (hl : fs.locate path = .ok (.free names name slash)) (t : Int) :
    fs.Widens (fs.put (names ++ [name]) (.dir [] t)) :=
  ⟨(put_free _ hl).1, (put_free _ hl).2.1⟩

/-- However making directories ends, it has only added some. -/
theorem keeps_makeDirUnlessThere (fs : FileSystem) (path : String) :
    Step.Keeps fs.Widens (makeDirUnlessThere path) fun _ => True := by
  intro s hs
  refine ⟨?_, fun _ _ => trivial⟩
  rcases makeDirUnlessThere_run path s with ⟨-, h⟩ | ⟨e, h⟩ | ⟨names, name, slash, hl, h⟩
  · rw [h]
    exact hs
  · rw [h]
    exact hs
  · rw [h]
    have hput := widens_put_dir hl s.clock
    exact ⟨hs.1.trans hput.1, hs.2.trans hput.2⟩

theorem keeps_makeDirsWithin (fs : FileSystem) (depth : Nat) (path : String) :
    Step.Keeps fs.Widens (makeDirsWithin depth path) fun _ => True := by
  induction depth generalizing path with
  | zero =>
    unfold makeDirsWithin
    split_ifs
    · exact Step.keeps_pure trivial
    · exact keeps_makeDirUnlessThere fs path
  | succ depth ih =>
    intro s hs
    refine ⟨?_, fun _ _ => trivial⟩
    have hone := (keeps_makeDirUnlessThere fs path s hs).1
    unfold makeDirsWithin
    split_ifs
    · exact hs
    · split
      · rename_i fs' hmake
        rw [hmake] at hone
        split
        · rename_i above _
          have hboth := (ih above).bind fun _ _ => keeps_makeDirUnlessThere fs path
          exact (hboth fs' hone).1
        · exact hone
      · exact hone

/-- A directory that was made is there. -/
theorem isDir_of_makeDirUnlessThere {fs fs' : FileSystem} {path : String}
    (htrim : trimEnd path = path) (h : makeDirUnlessThere path fs = (.ok (), fs')) :
    fs'.isDir path = true := by
  rcases makeDirUnlessThere_run path fs with ⟨hdir, h'⟩ | ⟨e, h'⟩ | ⟨names, name, slash, hl, h'⟩
  · cases h.symm.trans h'
    exact hdir
  · cases h.symm.trans h'
  · cases h.symm.trans h'
    rw [htrim] at hl
    obtain ⟨hgrows, -, hat⟩ := put_free (.dir [] fs.clock) hl
    have hfound := hgrows.locate_filled hl hat fun _ => rfl
    exact isDir_eq_true_iff.mpr ⟨_, _, hfound, rfl⟩

theorem isDir_of_makeDirsWithin {fs fs' : FileSystem} {depth : Nat} {path : String}
    (hne : path ≠ "") (htrim : trimEnd path = path)
    (h : makeDirsWithin depth path fs = (.ok (), fs')) : fs'.isDir path = true := by
  cases depth with
  | zero =>
    rw [makeDirsWithin, if_neg hne] at h
    exact isDir_of_makeDirUnlessThere htrim h
  | succ depth =>
    rw [makeDirsWithin] at h
    simp only [hne, if_false] at h
    split at h
    · split at h
      · obtain ⟨_, fs₂, _, hlast⟩ := Step.bind_eq_ok.mp h
        exact isDir_of_makeDirUnlessThere htrim hlast
      · cases h
    · exact isDir_of_makeDirUnlessThere htrim h

/-- A directory that is there need not be made. -/
theorem makeDirsWithin_of_isDir {fs : FileSystem} (depth : Nat) {path : String}
    (htrim : trimEnd path = path) (hdir : fs.isDir path = true) :
    makeDirsWithin depth path fs = (.ok (), fs) := by
  have hone : makeDirUnlessThere path fs = (.ok (), fs) := by
    obtain ⟨names, n, hl, hn⟩ := isDir_eq_true_iff.mp hdir
    rw [makeDirUnlessThere, makeDir, htrim, hl]
    exact if_pos hdir
  cases depth with
  | zero =>
    rw [makeDirsWithin]
    split_ifs
    · rfl
    · exact hone
  | succ depth =>
    rw [makeDirsWithin]
    split_ifs
    · rfl
    · simp only [hone]

theorem makeDirsWithin_empty (depth : Nat) (fs : FileSystem) :
    makeDirsWithin depth "" fs = (.ok (), fs) := by
  cases depth <;> rfl

/-- A directory whose making failed can be made no more than before if what is above it cannot. -/
theorem makeDirsWithin_succ_fails {fs : FileSystem} {depth : Nat} {path : String} {e : Error}
    (hne : path ≠ "") (hone : makeDirUnlessThere path fs = (.error e, fs))
    (habove : ∀ above, Path.enclosing? path = some above →
      ((do makeDirsWithin depth above; makeDirUnlessThere path : Disk Unit) fs).1 ≠ .ok ()) :
    (makeDirsWithin (depth + 1) path fs).1 ≠ .ok () := by
  rw [makeDirsWithin]
  simp only [hne, if_false, hone]
  split
  · rename_i fs' heq
    cases heq
    cases henclosing : Path.enclosing? path with
    | some above => exact habove above henclosing
    | none => simp
  · simp

/-- Where making a directory fails, nothing was changed, or what is above it was tried. -/
theorem makeDirsWithin_succ_eq {fs fs' : FileSystem} {depth : Nat} {path : String}
    {o : Outcome Unit} (h : makeDirsWithin (depth + 1) path fs = (o, fs')) (ho : o ≠ .ok ()) :
    fs' = fs ∨ ∃ above, Path.enclosing? path = some above ∧
      (do makeDirsWithin depth above; makeDirUnlessThere path : Disk Unit) fs = (o, fs') := by
  rw [makeDirsWithin] at h
  by_cases hne : path = ""
  · simp only [hne, if_true] at h
    cases h
    exact .inl rfl
  simp only [hne, if_false] at h
  rcases makeDirUnlessThere_run path fs with ⟨-, hrun⟩ | ⟨e, hrun⟩ | ⟨_, _, _, -, hrun⟩
  · simp only [hrun] at h
    cases h
    exact .inl rfl
  · simp only [hrun] at h
    split at h
    · rename_i fs₁ heq
      cases heq
      cases henclosing : Path.enclosing? path with
      | some above =>
        rw [henclosing] at h
        exact .inr ⟨above, rfl, h⟩
      | none =>
        rw [henclosing] at h
        cases h
        exact .inl rfl
    · cases h
      exact .inl rfl
  · simp only [hrun] at h
    cases h
    exact absurd rfl ho

/-- Directories that were made need not be made again. -/
theorem makeDirsWithin_again {fs fs' : FileSystem} {depth : Nat} {path : String}
    (htrim : trimEnd path = path) (h : makeDirsWithin depth path fs = (.ok (), fs')) :
    makeDirsWithin depth path fs' = (.ok (), fs') := by
  by_cases hne : path = ""
  · subst hne
    exact makeDirsWithin_empty depth fs'
  · exact makeDirsWithin_of_isDir depth htrim (isDir_of_makeDirsWithin hne htrim h)

/-- A path leads nowhere if what is above it cannot be made. -/
theorem locate_ne_ok_of_fails {fs : FileSystem} {depth : Nat} {path above : String}
    (henclosing : Path.enclosing? path = some above)
    (h : (makeDirsWithin depth above fs).1 ≠ .ok ()) (place : Place) :
    fs.locate path ≠ .ok place := by
  intro hl
  by_cases habove : above = ""
  · subst habove
    rw [makeDirsWithin_empty] at h
    exact h rfl
  · have hdir := isDir_of_enclosing henclosing habove hl
    rw [makeDirsWithin_of_isDir depth (trimEnd_enclosing henclosing) hdir] at h
    exact h rfl

/-- A directory whose path leads nowhere cannot be made. -/
theorem makeDirUnlessThere_of_locate_ne_ok {fs : FileSystem} {path : String}
    (htrim : trimEnd path = path) (h : ∀ place, fs.locate path ≠ .ok place) :
    ∃ e, makeDirUnlessThere path fs = (.error e, fs) := by
  rcases makeDirUnlessThere_run path fs with ⟨hdir, -⟩ | ⟨e, hone⟩ | ⟨_, _, _, hl, -⟩
  · obtain ⟨_, _, hl, -⟩ := isDir_eq_true_iff.mp hdir
    exact absurd hl (h _)
  · exact ⟨e, hone⟩
  · rw [htrim] at hl
    exact absurd hl (h _)

/-- Making directories that failed once fails again. -/
theorem makeDirsWithin_fails_again {fs fs' : FileSystem} {depth : Nat} {path : String}
    {o : Outcome Unit} (htrim : trimEnd path = path)
    (h : makeDirsWithin depth path fs = (o, fs')) (ho : o ≠ .ok ()) :
    (makeDirsWithin depth path fs').1 ≠ .ok () := by
  induction depth generalizing path fs fs' o with
  | zero =>
    rw [makeDirsWithin] at h ⊢
    split_ifs at h ⊢ with hne
    · cases h
      exact absurd rfl ho
    · obtain ⟨e, -, rfl⟩ := makeDirUnlessThere_fails h ho
      rw [h]
      exact ho
  | succ depth ih =>
    by_cases hne : path = ""
    · subst hne
      rw [makeDirsWithin_empty] at h
      cases h
      exact absurd rfl ho
    rcases makeDirsWithin_succ_eq h ho with rfl | ⟨above, henclosing, htry⟩
    · rw [h]
      exact ho
    have htrimAbove := trimEnd_enclosing henclosing
    rcases hup : makeDirsWithin depth above fs with ⟨oUp, fsUp⟩
    by_cases hok : oUp = .ok ()
    · -- what is above was made, so the directory itself cannot be
      subst hok
      rw [Step.bind_run_ok hup] at htry
      obtain ⟨e, rfl, rfl⟩ := makeDirUnlessThere_fails htry ho
      refine makeDirsWithin_succ_fails hne htry fun above' habove' => ?_
      obtain rfl : above = above' := Option.some.inj (henclosing.symm.trans habove')
      rw [Step.bind_run_ok (makeDirsWithin_again htrimAbove hup), htry]
      simp
    · -- what is above could not be made, and cannot be now
      obtain ⟨_, -, hfail⟩ := Step.bind_run_of_not_ok hup (fun _ => hok)
        fun _ => makeDirUnlessThere path
      obtain rfl : fsUp = fs' := (Prod.ext_iff.mp (hfail.symm.trans htry)).2
      have hagain := ih htrimAbove hup hok
      obtain ⟨e, hone⟩ :=
        makeDirUnlessThere_of_locate_ne_ok htrim (locate_ne_ok_of_fails henclosing hagain)
      refine makeDirsWithin_succ_fails hne hone fun above' habove' => ?_
      obtain rfl : above = above' := Option.some.inj (henclosing.symm.trans habove')
      obtain ⟨o', ho', hrun⟩ := Step.bind_run_of_not_ok
        (Prod.ext rfl rfl : makeDirsWithin depth above fsUp = (_, _)) (fun _ => hagain)
        fun _ => makeDirUnlessThere path
      rw [hrun]
      exact ho' ()

theorem isDir_of_makeDirs {fs fs' : FileSystem} {path : String} (hne : path ≠ "")
    (htrim : trimEnd path = path) (h : makeDirs path fs = (.ok (), fs')) :
    fs'.isDir path = true :=
  isDir_of_makeDirsWithin hne htrim h

theorem makeDirs_of_isDir {fs : FileSystem} {path : String} (htrim : trimEnd path = path)
    (hdir : fs.isDir path = true) : makeDirs path fs = (.ok (), fs) :=
  makeDirsWithin_of_isDir _ htrim hdir

/-! ## Replacing a file -/

/-- The directory is there, and the path leads to a file or to where one may be made. -/
def Replaceable (fs : FileSystem) (dir path : String) : Prop :=
  fs.isDir dir = true ∧
    ((∃ names data t, fs.locate path = .ok (.found names (.file data t))) ∨
      ∃ names name, fs.locate path = .ok (.free names name false))

theorem replaceFile_of_isDir {fs : FileSystem} {dir : String} (path : String) (data : ByteArray)
    (hdir : fs.isDir dir = true) : replaceFile dir path data fs = moveOnto path data fs := by
  obtain ⟨names, n, hl, hn⟩ := isDir_eq_true_iff.mp hdir
  obtain ⟨-, full, hfull, -⟩ := locate_eq_ok_iff.mp hl
  unfold replaceFile
  rw [hfull, node_eq_ok_iff.mpr ⟨names, hl⟩]
  cases n with
  | file data t => simp [Node.isDir] at hn
  | dir es t => rfl

/-- A file that may be replaced is, and then it may be replaced again. -/
theorem Replaceable.run {fs : FileSystem} {dir path : String} (h : fs.Replaceable dir path)
    (data : ByteArray) : ∃ fs', replaceFile dir path data fs = (.ok (), fs') ∧ fs.Grows fs' ∧
      fs'.bytes path = .ok data ∧ fs'.Replaceable dir path := by
  obtain ⟨hdir, hplace⟩ := h
  rw [replaceFile_of_isDir path data hdir]
  -- either way the path leads to the new file afterwards
  have hdone : ∀ fs' names, fs.Grows fs' →
      fs'.locate path = .ok (.found names (.file data fs.clock)) →
      fs.Grows fs' ∧ fs'.bytes path = .ok data ∧ fs'.Replaceable dir path :=
    fun fs' names hgrows hl => ⟨hgrows, bytes_eq_ok_iff.mpr ⟨_, _, hl⟩, hgrows.isDir hdir,
      .inl ⟨_, _, _, hl⟩⟩
  rcases hplace with ⟨names, old, t, hl⟩ | ⟨names, name, hl⟩
  · obtain ⟨hgrows, hat⟩ := put_file (.file data fs.clock) hl rfl rfl
    obtain ⟨n', hl', -⟩ := hgrows.locate_found hl
    obtain rfl := Option.some.inj (hat.symm.trans (at?_of_locate_found hl'))
    exact ⟨_, by rw [moveOnto, hl]; simp only [write, hl], hdone _ _ hgrows hl'⟩
  · obtain ⟨hgrows, -, hat⟩ := put_free (.file data fs.clock) hl
    have hl' := hgrows.locate_filled hl hat (by simp)
    exact ⟨_, by rw [moveOnto, hl]; simp only [write, hl], hdone _ _ hgrows hl'⟩

/-- A file that may not be replaced stays as it is, whatever is to be written. -/
theorem replaceFile_of_not {fs : FileSystem} {dir path : String} (h : ¬ fs.Replaceable dir path)
    (data : ByteArray) : ∃ e, replaceFile dir path data fs = (.error e, fs) := by
  by_cases hdir : fs.isDir dir = true
  · rw [replaceFile_of_isDir path data hdir, moveOnto]
    cases hl : fs.locate path with
    | error e => exact ⟨.io e, by simp only [write, hl]⟩
    | ok place =>
      match place with
      | .found names (.dir es t) => exact ⟨_, rfl⟩
      | .found names (.file old t) => exact absurd ⟨hdir, .inl ⟨_, _, _, hl⟩⟩ h
      | .free names name true => exact ⟨_, rfl⟩
      | .free names name false => exact absurd ⟨hdir, .inr ⟨_, _, hl⟩⟩ h
  · unfold replaceFile
    cases fs.fullPath? dir with
    | none => exact ⟨_, rfl⟩
    | some full =>
      cases hn : fs.node dir with
      | error e => cases e <;> exact ⟨_, rfl⟩
      | ok n =>
        cases n with
        | file data t => exact ⟨_, rfl⟩
        | dir es t => simp [isDir, hn, Node.isDir] at hdir

end FileSystem

end Kiln
