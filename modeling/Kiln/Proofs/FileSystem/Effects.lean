import Kiln.Proofs.FileSystem.Places

/-!
# Kiln.Proofs.FileSystem.Effects — what an operation does to the content of places

Writing sets the content of one place (`write_run`), and making directories puts directories on the
way of their path, where nothing was (`makeDirs_run`).  Either of them tells of every place what is
there afterwards.
-/

namespace Kiln.FileSystem

open Kiln.Text

/-! ## Making directories -/

/-- Nothing is changed but that directories stand on the way of a path where nothing was. -/
structure Paves (fs : FileSystem) (path : String) (fs' : FileSystem) : Prop where
  start : fs'.start = fs.start
  valid : fs.root.Valid → fs'.root.Valid
  content : ∀ place, fs'.content place = fs.content place ∨
    fs.content place = none ∧ fs'.content place = some .dir ∧ fs.Through path place

theorem Paves.refl (fs : FileSystem) (path : String) : Paves fs path fs :=
  ⟨rfl, id, fun _ => .inl rfl⟩

theorem Paves.mono {fs fs' : FileSystem} {path path' : String} (h : Paves fs path fs')
    (hpath : ∀ place, fs.Through path place → fs.Through path' place) : Paves fs path' fs' :=
  ⟨h.start, h.valid, fun place =>
    (h.content place).imp id fun ⟨hnone, hdir, hthrough⟩ => ⟨hnone, hdir, hpath place hthrough⟩⟩

theorem Paves.trans {fs fs₁ fs₂ : FileSystem} {path : String} (h : Paves fs path fs₁)
    (h' : Paves fs₁ path fs₂) : Paves fs path fs₂ := by
  refine ⟨h'.start.trans h.start, fun hvalid => h'.valid (h.valid hvalid), fun place => ?_⟩
  rcases h'.content place with hsame | ⟨hnone, hdir, hthrough⟩
  · rw [hsame]
    exact h.content place
  · rw [through_congr h.start] at hthrough
    rcases h.content place with hsame | ⟨-, hsome, -⟩
    · exact .inr ⟨hsame ▸ hnone, hdir, hthrough⟩
    · rw [hsome] at hnone
      cases hnone

/-- What was there is there as it was. -/
theorem Paves.keeps {fs fs' : FileSystem} {path : String} (h : Paves fs path fs')
    {place : List String} {k : Node.Content} (hk : fs.content place = some k) :
    fs'.content place = some k := by
  rcases h.content place with hsame | ⟨hnone, -, -⟩
  · rw [hsame, hk]
  · rw [hk] at hnone
    cases hnone

theorem trimEnd_append (path : String) :
    ∃ seps : List Char, path = trimEnd path ++ String.ofList seps ∧ ∀ c ∈ seps, c = '/' := by
  unfold trimEnd
  split
  · exact ⟨[], by simp, by simp⟩
  · have hsplit := List.takeWhile_append_dropWhile (p := Path.isSeparator) (l := path.toList.reverse)
    refine ⟨(path.toList.reverse.takeWhile Path.isSeparator).reverse, ?_, fun c hc => ?_⟩
    · refine String.toList_injective ?_
      rw [String.toList_append, String.toList_ofList, String.toList_ofList, ← List.reverse_append,
        hsplit, List.reverse_reverse]
    · have hsep := List.mem_takeWhile_imp (List.mem_reverse.mp hc)
      simpa [Path.isSeparator, Path.separator] using hsep

theorem steps_append_separators (path : String) {seps : List Char} (h : ∀ c ∈ seps, c = '/') :
    Path.steps (path ++ String.ofList seps) = Path.steps path := by
  induction seps generalizing path with
  | nil => rw [String.ofList_nil, String.append_empty]
  | cons c seps ih =>
    obtain ⟨rfl, hrest⟩ := List.forall_mem_cons.mp h
    have hsplit : path ++ String.ofList ('/' :: seps) = path ++ "/" ++ String.ofList seps :=
      String.toList_injective (by simp)
    rw [hsplit, ih _ hrest, Path.steps_trailing]

/-- A path that is written on is seen from the same place. -/
theorem fullPath?_append {fs : FileSystem} {path full : String} (h : fs.fullPath? path = some full)
    (hne : path ≠ "") (more : String) : fs.fullPath? (path ++ more) = some (full ++ more) := by
  obtain ⟨lead, rfl, hlead⟩ := fullPath?_eq_some h
  have hhead : (path ++ more).toList.head? = path.toList.head? := by
    obtain ⟨c, rest, hc⟩ := List.exists_cons_of_ne_nil (mt String.toList_eq_nil_iff.mp hne)
    rw [String.toList_append, hc]
    rfl
  rw [hlead _ hhead, String.append_assoc]

/-- Separators at the end of a path lead nowhere else. -/
theorem steps_trimEnd {fs : FileSystem} {path full : String}
    (h : fs.fullPath? (trimEnd path) = some full) (hne : trimEnd path ≠ "") :
    ∃ full', fs.fullPath? path = some full' ∧ Path.steps full' = Path.steps full := by
  obtain ⟨seps, hpath, hseps⟩ := trimEnd_append path
  have hfull := fullPath?_append h hne (String.ofList seps)
  rw [← hpath] at hfull
  exact ⟨_, hfull, steps_append_separators full hseps⟩

theorem through_enclosing {fs : FileSystem} {path above : String} {place : List String}
    (h : Path.enclosing? path = some above) (hne : above ≠ "") (hplace : fs.Through above place) :
    fs.Through path place := by
  obtain ⟨tail, hsplit, -, hjoint⟩ := Path.enclosing?_append h hne
  obtain ⟨full, hfull, front, hfront, rfl⟩ := hplace
  have hpath : path = above ++ String.ofList tail := String.toList_injective (by simp [hsplit])
  refine ⟨_, hpath ▸ fullPath?_append hfull hne (String.ofList tail), front, hfront.trans ?_, rfl⟩
  refine Path.steps_prefix (hjoint.imp_left fun hend => ?_)
  obtain ⟨lead, rfl, -⟩ := fullPath?_eq_some hfull
  rw [String.toList_append, List.getLast?_append, hend]
  rfl

/-- A directory that is made stands at the place of its path. -/
theorem makeDirUnlessThere_paves {fs fs' : FileSystem} {path : String}
    (h : makeDirUnlessThere path fs = (.ok (), fs')) :
    Paves fs path fs' ∧ fs'.Open path ∧ ∃ full, fs.fullPath? path = some full := by
  rcases makeDirUnlessThere_run path fs with
    ⟨hdir, hrun⟩ | ⟨e, hrun⟩ | ⟨names, name, slash, hl, hrun⟩
  · cases h.symm.trans hrun
    exact ⟨.refl fs path, open_of_isDir hdir, exists_fullPath?_of_isDir hdir⟩
  · cases h.symm.trans hrun
  · cases h.symm.trans hrun
    obtain ⟨⟨hne, -, -⟩, full, hfull, -⟩ := locate_eq_ok_iff.mp hl
    obtain ⟨full', hfull', hsteps⟩ := steps_trimEnd hfull hne
    obtain ⟨hgrows, -, hat⟩ := put_free (.dir [] fs.clock) hl
    have hthrough (place : List String) :
        fs.Through path place ↔ fs.Through (trimEnd path) place := by
      simp only [Through, hfull, hfull', Option.some.injEq, exists_eq_left', hsteps]
    have hvalid : (Node.dir [] fs.clock).Valid := .dir .nil (by simp) (by simp)
    refine ⟨⟨rfl, fun hroot => valid_put hroot hl hvalid, fun place => ?_⟩, fun place hplace => ?_,
      full', hfull'⟩
    · rw [content_put_free rfl hl place]
      by_cases hplace : place = fs.way (trimEnd path)
      · subst hplace
        rw [if_pos rfl]
        have hnone : fs.content (fs.way (trimEnd path)) = none := by
          rw [← way_of_locate hl, content_eq_none]
          obtain ⟨-, full, -, hleads⟩ := locate_eq_ok_iff.mp hl
          obtain ⟨here, hhere, -, hfree⟩ := hleads.at?_free
          exact (Node.at?_concat name hhere).trans hfree
        exact .inr ⟨hnone, rfl, (hthrough _).mpr (through_way hfull)⟩
      · exact .inl (if_neg hplace)
    · have hfound := hgrows.locate_filled hl hat fun _ => rfl
      rw [through_congr hgrows.start, hthrough, ← through_congr hgrows.start] at hplace
      exact open_of_locate hfound rfl place hplace

theorem makeDirsWithin_paves {fs fs' : FileSystem} {depth : Nat} {path : String} (hne : path ≠ "")
    (h : makeDirsWithin depth path fs = (.ok (), fs')) :
    Paves fs path fs' ∧ fs'.Open path ∧ ∃ full, fs.fullPath? path = some full := by
  induction depth generalizing path fs fs' with
  | zero =>
    rw [makeDirsWithin, if_neg hne] at h
    exact makeDirUnlessThere_paves h
  | succ depth ih =>
    rw [makeDirsWithin] at h
    simp only [hne, if_false] at h
    split at h
    · rename_i fs₁ hmake
      obtain ⟨_, -, rfl⟩ := makeDirUnlessThere_fails hmake (by simp)
      split at h
      · rename_i above henclosing
        obtain ⟨_, fs₂, habove, hlast⟩ := Step.bind_eq_ok.mp h
        obtain ⟨hpaves, hopen, full, hfull⟩ := makeDirUnlessThere_paves hlast
        by_cases hempty : above = ""
        · subst hempty
          rw [makeDirsWithin_empty] at habove
          cases habove
          exact ⟨hpaves, hopen, full, hfull⟩
        · have hfirst := (ih hempty habove).1.mono fun place => through_enclosing henclosing hempty
          rw [fullPath?_congr hfirst.start] at hfull
          exact ⟨hfirst.trans hpaves, hopen, full, hfull⟩
      · cases h
    · exact makeDirUnlessThere_paves h

/-- Making directories puts them on the way of their path, where nothing was, and then all of the way
is there.  An empty path stands for the directory the process is in. -/
theorem makeDirs_run {fs fs' : FileSystem} {path : String} (hhome : fs.Open "")
    (h : makeDirs path fs = (.ok (), fs')) :
    Paves fs path fs' ∧ fs'.Open path ∧ (path ≠ "" → ∃ full, fs.fullPath? path = some full) := by
  by_cases hempty : path = ""
  · subst hempty
    rw [makeDirs, makeDirsWithin_empty] at h
    cases h
    exact ⟨.refl fs "", hhome, fun hne => absurd rfl hne⟩
  · obtain ⟨hpaves, hopen, hfull⟩ := makeDirsWithin_paves hempty h
    exact ⟨hpaves, hopen, fun _ => hfull⟩

/-! ## Writing a file -/

/-- Nothing is changed but that a file with the bytes `data` stands at a place, where there was no
directory. -/
structure Sets (fs : FileSystem) (place : List String) (data : ByteArray) (fs' : FileSystem) :
    Prop where
  start : fs'.start = fs.start
  valid : fs.root.Valid → fs'.root.Valid
  not_dir : fs.content place ≠ some .dir
  content : ∀ place', fs'.content place' =
    if place' = place then some (.file data) else fs.content place'

/-- What is written twice is as it was written last. -/
theorem Sets.again {fs fs₁ fs₂ : FileSystem} {place : List String} {data data' : ByteArray}
    (h : Sets fs place data fs₁) (h' : Sets fs₁ place data' fs₂) : Sets fs place data' fs₂ := by
  refine ⟨h'.start.trans h.start, fun hroot => h'.valid (h.valid hroot), h.not_dir,
    fun place' => ?_⟩
  rw [h'.content, h.content]
  by_cases hplace : place' = place
  · rw [if_pos hplace, if_pos hplace]
  · rw [if_neg hplace, if_neg hplace, if_neg hplace]

theorem write_run {fs fs' : FileSystem} {path : String} {data : ByteArray}
    (h : write path data fs = (.ok (), fs')) : Sets fs (fs.way path) data fs' := by
  unfold write at h
  cases hl : fs.locate path with
  | error e =>
    rw [hl] at h
    cases h
  | ok place =>
    rw [hl] at h
    have hway := way_of_locate hl
    obtain ⟨-, full, -, hleads⟩ := locate_eq_ok_iff.mp hl
    match place with
    | .found names (.dir es t) => cases h
    | .free names name true => cases h
    | .found names (.file old t) =>
      cases h
      refine ⟨rfl, fun hroot => valid_put hroot hl (.file data _), ?_, content_put_file rfl hl rfl⟩
      rw [← hway]
      intro hdir
      obtain ⟨n, hn, hkind⟩ := content_eq_dir.mp hdir
      cases (at?_of_locate_found hl).symm.trans hn
      cases hkind
    | .free names name false =>
      cases h
      refine ⟨rfl, fun hroot => valid_put hroot hl (.file data _), ?_, content_put_free rfl hl⟩
      rw [← hway]
      intro hdir
      obtain ⟨here, hhere, -, hfree⟩ := hleads.at?_free
      obtain ⟨n, hn, -⟩ := content_eq_dir.mp hdir
      cases ((Node.at?_concat name hhere).trans hfree).symm.trans hn

theorem exists_fullPath?_of_write {fs fs' : FileSystem} {path : String} {data : ByteArray}
    (h : write path data fs = (.ok (), fs')) : ∃ full, fs.fullPath? path = some full := by
  unfold write at h
  cases hl : fs.locate path with
  | error e =>
    rw [hl] at h
    cases h
  | ok place =>
    obtain ⟨-, full, hfull, -⟩ := locate_eq_ok_iff.mp hl
    exact ⟨full, hfull⟩

theorem content_of_bytes {fs : FileSystem} {path : String} {data : ByteArray}
    (h : fs.bytes path = .ok data) : fs.content (fs.way path) = some (.file data) := by
  obtain ⟨names, t, hl⟩ := bytes_eq_ok_iff.mp h
  rw [← way_of_locate hl]
  exact content_eq_file.mpr ⟨t, at?_of_locate_found hl⟩

theorem copyBytes_eq_ok {fs fs' : FileSystem} {source target : String}
    (h : copyBytes source target fs = (.ok (), fs')) :
    ∃ old fs₁ data, fs.bytes source = .ok old ∧ write target .empty fs = (.ok (), fs₁) ∧
      fs₁.bytes source = .ok data ∧ write target data fs₁ = (.ok (), fs') := by
  rw [copyBytes, Step.bind_state] at h
  obtain ⟨old, _, hread, hrest⟩ := Step.bind_eq_ok.mp h
  obtain ⟨hold, rfl⟩ := Step.ofIo_eq_ok.mp hread
  obtain ⟨_, fs₁, hempty, hfill⟩ := Step.bind_eq_ok.mp hrest
  rw [Step.bind_state] at hfill
  obtain ⟨data, _, hagain, hwrite⟩ := Step.bind_eq_ok.mp hfill
  obtain ⟨hdata, rfl⟩ := Step.ofIo_eq_ok.mp hagain
  exact ⟨old, _, data, hold, hempty, hdata, hwrite⟩

/-- The bytes of a file are copied in two steps: its target is emptied, and then filled with what the
source reads as.  That is what the source was, as long as the target is another file. -/
theorem copyBytes_run {fs fs' : FileSystem} {source target : String}
    (hother : fs.way source ≠ fs.way target) (h : copyBytes source target fs = (.ok (), fs')) :
    ∃ data, fs.content (fs.way source) = some (.file data) ∧
      Sets fs (fs.way target) data fs' := by
  obtain ⟨old, fs₁, data, hold, hempty, hdata, hwrite⟩ := copyBytes_eq_ok h
  have hfirst := write_run hempty
  have hlast := write_run hwrite
  have hsource := content_of_bytes hdata
  rw [way_congr hfirst.start] at hsource hlast
  rw [hfirst.content, if_neg hother] at hsource
  exact ⟨data, hsource, hfirst.again hlast⟩

end Kiln.FileSystem
