import Kiln.Proofs.FileSystem.Effects

/-!
# Kiln.Proofs.FileSystem.Copying — what a copy leaves behind

An entry of a directory goes to a place that is apart from this directory: nothing in it is changed,
and every other entry is still as it was when its turn comes (`copyEntries_run`).  So a directory with
all it holds arrives as it was (`copyTree_run`), and a copy harms nothing but what stands where it
goes (`copy_keeps_source`), unless it would put the source onto itself, or an entry of it onto a
directory that the source is in.
-/

namespace Kiln.FileSystem

open Kiln.Text

/-! ## Places that are apart -/

/-- Neither of two places is at or below the other. -/
def Apart (s t : List String) : Prop := ¬ s <+: t ∧ ¬ t <+: s

theorem Apart.symm {s t : List String} (h : Apart s t) : Apart t s := ⟨h.2, h.1⟩

theorem Apart.not_prefix {s t : List String} (h : Apart s t) (rel rel' : List String) :
    ¬ s ++ rel <+: t ++ rel' := by
  intro hprefix
  have hs : s <+: t ++ rel' := (List.prefix_append s rel).trans hprefix
  rcases List.prefix_or_prefix_of_prefix hs (List.prefix_append t rel') with hst | hts
  · exact h.1 hst
  · exact h.2 hts

/-- What is below places that are apart is apart. -/
theorem Apart.append {s t : List String} (h : Apart s t) (rel rel' : List String) :
    Apart (s ++ rel) (t ++ rel') :=
  ⟨h.not_prefix rel rel', h.symm.not_prefix rel' rel⟩

/-! ## Changes within bounds -/

/-- Nothing is changed but at places of one kind, and no directory ceases to be one. -/
structure Within (fs : FileSystem) (inside : List String → Prop) (fs' : FileSystem) : Prop where
  start : fs'.start = fs.start
  valid : fs.root.Valid → fs'.root.Valid
  dirs : ∀ place, fs.content place = some .dir → fs'.content place = some .dir
  outside : ∀ place, ¬ inside place → fs'.content place = fs.content place

/-- Whatever is at or below a place is, as it is there, at or below another place later on. -/
def Arrives (fs : FileSystem) (s : List String) (fs' : FileSystem) (t : List String) : Prop :=
  ∀ rel k, fs.content (s ++ rel) = some k → fs'.content (t ++ rel) = some k

theorem Within.refl (fs : FileSystem) (inside : List String → Prop) : Within fs inside fs :=
  ⟨rfl, id, fun _ => id, fun _ _ => rfl⟩

theorem Within.mono {fs fs' : FileSystem} {inside inside' : List String → Prop}
    (h : Within fs inside fs') (hinside : ∀ place, inside place → inside' place) :
    Within fs inside' fs' :=
  ⟨h.start, h.valid, h.dirs, fun place hplace => h.outside place (mt (hinside place) hplace)⟩

theorem Within.trans {fs fs₁ fs₂ : FileSystem} {inside : List String → Prop}
    (h : Within fs inside fs₁) (h' : Within fs₁ inside fs₂) : Within fs inside fs₂ :=
  ⟨h'.start.trans h.start, fun hroot => h'.valid (h.valid hroot),
    fun place hdir => h'.dirs place (h.dirs place hdir),
    fun place hplace => (h'.outside place hplace).trans (h.outside place hplace)⟩

theorem Within.open_dirs {fs fs' : FileSystem} {inside : List String → Prop}
    (h : Within fs inside fs') {path : String} (hopen : fs.Open path) : fs'.Open path :=
  fun place hplace => h.dirs place (hopen place ((through_congr h.start path place).mp hplace))

theorem Paves.open_dirs {fs fs' : FileSystem} {path path' : String} (h : Paves fs path fs')
    (hopen : fs.Open path') : fs'.Open path' :=
  fun place hplace => h.keeps (hopen place ((through_congr h.start path' place).mp hplace))

theorem Sets.within {fs fs' : FileSystem} {place : List String} {data : ByteArray}
    (h : Sets fs place data fs') : Within fs (· = place) fs' := by
  refine ⟨h.start, h.valid, fun place' hdir => ?_, fun place' hplace => ?_⟩
  · by_cases hplace : place' = place
    · exact absurd (hplace ▸ hdir) h.not_dir
    · rw [h.content, if_neg hplace, hdir]
  · rw [h.content, if_neg hplace]

/-- In a directory that is there, only its own place is missing on the way of a path. -/
theorem Paves.within {fs fs' : FileSystem} {path full name : String}
    (h : Paves fs (Path.join path name) fs') (hopen : fs.Open path)
    (hfull : fs.fullPath? path = some full) (hname : Path.IsName name) :
    Within fs (· = fs.way path ++ [name]) fs' := by
  refine ⟨h.start, h.valid, fun place => h.keeps, fun place hplace => ?_⟩
  rcases h.content place with hsame | ⟨hnone, -, hthrough⟩
  · exact hsame
  · rcases through_join_name hfull hname hthrough with hthrough | hself
    · rw [hopen place hthrough] at hnone
      cases hnone
    · exact absurd hself hplace

/-! ## The tree below a place -/

theorem eq_nil_of_content_file {fs : FileSystem} {place rel : List String} {data : ByteArray}
    {k : Node.Content} (h : fs.content place = some (.file data))
    (hk : fs.content (place ++ rel) = some k) : rel = [] := by
  obtain ⟨t, ht⟩ := content_eq_file.mp h
  obtain ⟨n, hn, -⟩ := Option.map_eq_some_iff.mp hk
  rw [Node.at?_append, ht, Option.bind_some] at hn
  exact Node.eq_nil_of_at?_file rfl hn

theorem content_nil_of_dir {fs : FileSystem} {place : List String}
    (h : fs.content place = some .dir) : fs.content [] = some .dir := by
  cases hroot : fs.content [] with
  | none => exact absurd (content_eq_none.mp hroot) (by simp)
  | some k =>
    cases k with
    | dir => rfl
    | file data =>
      have hbelow : fs.content ([] ++ place) = some .dir := h
      obtain rfl := eq_nil_of_content_file hroot hbelow
      exact hroot.symm.trans h

/-- The place of a path that is open is a directory. -/
theorem Open.content_way {fs : FileSystem} {path : String} (h : fs.Open path)
    (hroot : fs.content [] = some .dir) : fs.content (fs.way path) = some .dir := by
  cases hfull : fs.fullPath? path with
  | none => rwa [way, hfull]
  | some full => exact h _ (through_way hfull)

/-- A file is all there is at its place and below. -/
theorem arrives_file {fs fs' : FileSystem} {s t : List String} {data : ByteArray}
    (hs : fs.content s = some (.file data)) (ht : fs'.content t = some (.file data)) :
    Arrives fs s fs' t := by
  intro rel k hk
  obtain rfl := eq_nil_of_content_file hs hk
  rw [List.append_nil] at hk ⊢
  rw [ht, ← hs, hk]

theorem content_entry {fs : FileSystem} (hvalid : fs.root.Valid) {place : List String} {n : Node}
    (hn : fs.root.at? place = some n) {e : String × Node} (he : e ∈ n.entries) :
    fs.content (place ++ [e.1]) = some e.2.content := by
  rw [content, Node.at?_concat e.1 hn, (Table.find_eq_some_iff (hvalid.at? hn).ordered).mpr he]
  rfl

theorem exists_entry {fs : FileSystem} (hvalid : fs.root.Valid) {place rest : List String} {n : Node}
    {name : String} {k : Node.Content} (hn : fs.root.at? place = some n)
    (hk : fs.content (place ++ name :: rest) = some k) : ∃ e ∈ n.entries, e.1 = name := by
  obtain ⟨m, hm, -⟩ := Option.map_eq_some_iff.mp hk
  rw [Node.at?_append, hn, Option.bind_some, Node.at?_cons] at hm
  obtain ⟨child, hchild, -⟩ := Option.bind_eq_some_iff.mp hm
  exact ⟨(name, child), (Table.find_eq_some_iff (hvalid.at? hn).ordered).mp hchild, rfl⟩

/-- What is listed is a node that is there. -/
theorem listed_eq_ok {fs : FileSystem} {path : String} {es : List (String × Node)}
    (h : fs.listed path = .ok es) : ∃ n full, fs.root.at? (fs.way path) = some n ∧
      fs.fullPath? path = some full ∧ n.entries = es := by
  unfold listed at h
  split at h
  · rename_i n hn
    cases h
    obtain ⟨names, hl⟩ := node_eq_ok_iff.mp hn
    obtain ⟨-, full, hfull, -⟩ := locate_eq_ok_iff.mp hl
    refine ⟨n, full, ?_, hfull, rfl⟩
    rw [← way_of_locate hl]
    exact at?_of_locate_found hl
  · cases h
  · cases h

/-! ## Copying a directory -/

/-- Copies one entry of a directory. -/
def copyEntry (failure : Error) (depth : Nat) (source target : String) (entry : String × Node) :
    Disk Unit :=
  let inner := Path.join source entry.1
  let place := Path.join target entry.1
  match entry.2 with
  | .dir .. => copyTree failure depth inner place
  | .file .. => Step.mapError (fun _ => failure) (copyBytes inner place)

theorem copyTree_succ (failure : Error) (depth : Nat) (source target : String) :
    copyTree failure (depth + 1) source target = (do
      let before ← Step.state
      makeDirs target
      let entries ← Step.ofIo (before.listed source)
      let _ ← Step.each (copyEntry failure depth source target) entries
      return ()) :=
  rfl

/-- What copying a directory needs: the place of an entry's copy is apart from the directory. -/
structure Copyable (fs : FileSystem) (source target : String) : Prop where
  valid : fs.root.Valid
  home : fs.Open ""
  dir : fs.content (fs.way source) = some .dir
  apart : ∀ name, fs.content (fs.way source ++ [name]) ≠ none →
    Apart (fs.way source) (fs.way target ++ [name])

/-- A directory has come to the place of another path with all it holds.  Directories are made on the
way of this path first, and below its place only what has the name of an entry is changed then. -/
def Copied (fs : FileSystem) (source target : String) (fs' : FileSystem) : Prop :=
  ∃ fs₁, Paves fs target fs₁ ∧ fs₁.Open target ∧
    Within fs₁ (fun place => ∃ name, fs.content (fs.way source ++ [name]) ≠ none ∧
      fs.way target ++ [name] <+: place) fs' ∧
    Arrives fs (fs.way source) fs' (fs.way target)

/-- What holds while the entries of one directory go to another one. -/
structure Ready (fs : FileSystem) (source target : String) : Prop where
  valid : fs.root.Valid
  home : fs.Open ""
  source : ∃ full, fs.fullPath? source = some full
  target : fs.Open target

/-- An entry of a directory that is still to be copied. -/
structure Pending (fs : FileSystem) (source target : String) (e : String × Node) : Prop where
  isName : Path.IsName e.1
  content : fs.content (fs.way source ++ [e.1]) = some e.2.content
  apart : Apart (fs.way source) (fs.way target ++ [e.1])

theorem Within.ready {fs fs' : FileSystem} {inside : List String → Prop} {source target : String}
    (h : Within fs inside fs') (hready : fs.Ready source target) : fs'.Ready source target where
  valid := h.valid hready.valid
  home := h.open_dirs hready.home
  source := by
    rw [fullPath?_congr h.start]
    exact hready.source
  target := h.open_dirs hready.target

/-- An entry whose place is left alone is still to be copied. -/
theorem Within.pending {fs fs' : FileSystem} {inside : List String → Prop} {source target : String}
    {e : String × Node} (h : Within fs inside fs') (hpending : fs.Pending source target e)
    (hout : ¬ inside (fs.way source ++ [e.1])) : fs'.Pending source target e where
  isName := hpending.isName
  content := by
    rw [way_congr h.start, h.outside _ hout]
    exact hpending.content
  apart := by
    rw [way_congr h.start, way_congr h.start]
    exact hpending.apart

theorem exists_fullPath?_of_join {fs : FileSystem} {path rel full : String}
    (hrel : Path.isAbsolute rel = false) (h : fs.fullPath? (Path.join path rel) = some full) :
    ∃ full', fs.fullPath? path = some full' := by
  unfold fullPath? at h ⊢
  rw [Path.isAbsolute_join_relative path hrel] at h
  by_cases habsolute : Path.isAbsolute path = true
  · exact ⟨path, if_pos habsolute⟩
  · rw [if_neg habsolute] at h ⊢
    obtain ⟨dir, hdir, -⟩ := Option.map_eq_some_iff.mp h
    exact ⟨Path.join dir path, by rw [hdir, Option.map_some]⟩

theorem join_name_ne_empty (path : String) {name : String} (h : Path.IsName name) :
    Path.join path name ≠ "" := by
  obtain ⟨lead, hlead⟩ := join_of_relative path
  rw [hlead name (by simp [h.not_isAbsolute])]
  exact fun hempty => h.ne_empty (String.append_eq_empty_iff.mp hempty).2

/-- Directories that are copied with this bound on their depth arrive. -/
def DirsArrive (failure : Error) (depth : Nat) : Prop :=
  ∀ {source target : String} {fs fs' : FileSystem}, fs.Copyable source target →
    copyTree failure depth source target fs = (.ok (), fs') → fs.Copied source target fs'

section Step

variable {failure : Error} {depth : Nat} {source target : String} {fs fs' : FileSystem}

theorem exists_fullPath?_of_copyTree (hhome : fs.Open "") (hne : target ≠ "")
    (h : copyTree failure depth source target fs = (.ok (), fs')) :
    ∃ full, fs.fullPath? target = some full := by
  cases depth with
  | zero => cases h
  | succ depth =>
    rw [copyTree_succ, Step.bind_state] at h
    obtain ⟨_, fs₁, hmake, -⟩ := Step.bind_eq_ok.mp h
    exact (makeDirs_run hhome hmake).2.2 hne

/-- An entry goes to its place, and nothing else is changed. -/
theorem copyEntry_run (harrive : DirsArrive failure depth) {e : String × Node}
    (hready : fs.Ready source target) (hpending : fs.Pending source target e)
    (h : copyEntry failure depth source target e fs = (.ok (), fs')) :
    Within fs (fs.way target ++ [e.1] <+: ·) fs' ∧
      Arrives fs (fs.way source ++ [e.1]) fs' (fs.way target ++ [e.1]) := by
  obtain ⟨name, n⟩ := e
  obtain ⟨hname, hcontent, hapart⟩ := hpending
  obtain ⟨full, hfull⟩ := hready.source
  have hsource := way_join_name hfull hname
  cases n with
  | file data t =>
    have hcopy : copyBytes (Path.join source name) (Path.join target name) fs = (.ok (), fs') :=
      Step.mapError_eq_ok.mp h
    obtain ⟨_, _, _, -, hempty, -, -⟩ := copyBytes_eq_ok hcopy
    obtain ⟨joined, hjoined⟩ := exists_fullPath?_of_write hempty
    obtain ⟨full', hfull'⟩ := exists_fullPath?_of_join hname.not_isAbsolute hjoined
    have htarget := way_join_name hfull' hname
    have hother : fs.way (Path.join source name) ≠ fs.way (Path.join target name) := by
      rw [hsource, htarget]
      intro heq
      exact hapart.1 (heq ▸ List.prefix_append _ _)
    obtain ⟨old, hold, hsets⟩ := copyBytes_run hother hcopy
    rw [hsource] at hold
    rw [htarget] at hsets
    refine ⟨hsets.within.mono fun place hplace => hplace ▸ List.prefix_rfl, ?_⟩
    exact arrives_file hold (by rw [hsets.content, if_pos rfl])
  | dir es t =>
    have hcopy : copyTree failure depth (Path.join source name) (Path.join target name) fs
        = (.ok (), fs') := h
    obtain ⟨joined, hjoined⟩ :=
      exists_fullPath?_of_copyTree hready.home (join_name_ne_empty target hname) hcopy
    obtain ⟨full', hfull'⟩ := exists_fullPath?_of_join hname.not_isAbsolute hjoined
    have htarget := way_join_name hfull' hname
    have hcopyable : fs.Copyable (Path.join source name) (Path.join target name) := by
      refine ⟨hready.valid, hready.home, ?_, fun inner _ => ?_⟩
      · rw [hsource]
        exact hcontent
      · rw [hsource, htarget]
        simpa using hapart.append [name] [inner]
    obtain ⟨fs₁, hpaves, -, hwithin, harrives⟩ := harrive hcopyable hcopy
    rw [hsource, htarget] at harrives hwithin
    have hmade : Within fs (fs.way target ++ [name] <+: ·) fs₁ :=
      (hpaves.within hready.target hfull' hname).mono fun place hplace => hplace ▸ List.prefix_rfl
    exact ⟨hmade.trans (hwithin.mono fun place ⟨inner, _, hinner⟩ =>
      (List.prefix_append _ [inner]).trans hinner), harrives⟩

/-- The entries of a directory go to their places one after the other. -/
theorem copyEntries_run (harrive : DirsArrive failure depth)
    {es : List (String × Node)} {us : List Unit} (hready : fs.Ready source target)
    (hdistinct : es.Pairwise fun a b => a.1 ≠ b.1)
    (hpending : ∀ e ∈ es, fs.Pending source target e)
    (h : Step.each (copyEntry failure depth source target) es fs = (.ok us, fs')) :
    Within fs (fun place => ∃ e ∈ es, fs.way target ++ [e.1] <+: place) fs' ∧
      ∀ e ∈ es, Arrives fs (fs.way source ++ [e.1]) fs' (fs.way target ++ [e.1]) := by
  induction es generalizing fs us with
  | nil =>
    cases h
    exact ⟨.refl _ _, by simp⟩
  | cons e es ih =>
    obtain ⟨_, fs₁, us, hfirst, hrest, -⟩ := Step.each_cons_eq_ok.mp h
    obtain ⟨hnew, hdistinct⟩ := List.pairwise_cons.mp hdistinct
    obtain ⟨hhead, htail⟩ := List.forall_mem_cons.mp hpending
    obtain ⟨hwithin, harrives⟩ := copyEntry_run harrive hready hhead hfirst
    -- the place of this entry is apart from the directory, so what is in there still waits
    have hwaits : ∀ e' ∈ es, fs₁.Pending source target e' := fun e' he' =>
      hwithin.pending (htail e' he') (by simpa using hhead.apart.symm.not_prefix [] [e'.1])
    obtain ⟨hwithin', harrives'⟩ := ih (hwithin.ready hready) hdistinct hwaits hrest
    rw [way_congr hwithin.start, way_congr hwithin.start] at harrives'
    rw [way_congr hwithin.start] at hwithin'
    refine ⟨(hwithin.mono fun place hplace => ⟨e, List.mem_cons_self, hplace⟩).trans
      (hwithin'.mono fun place ⟨e', he', hplace⟩ => ⟨e', List.mem_cons_of_mem e he', hplace⟩), ?_⟩
    refine List.forall_mem_cons.mpr ⟨fun rel k hk => ?_, fun e' he' rel k hk => ?_⟩
    · -- no later entry goes to where this one went
      rw [hwithin'.outside, harrives rel k hk]
      rintro ⟨e', he', hplace⟩
      rw [List.append_assoc, List.prefix_append_right_inj] at hplace
      obtain ⟨_, hsame⟩ := hplace
      exact hnew e' he' (List.cons.inj hsame).1.symm
    · refine harrives' e' he' rel k ?_
      rw [hwithin.outside, hk]
      rw [List.append_assoc]
      simpa using hhead.apart.symm.not_prefix [] (e'.1 :: rel)

/-- A directory arrives with all it holds. -/
theorem copyTree_run (hcopyable : fs.Copyable source target)
    (h : copyTree failure depth source target fs = (.ok (), fs')) : fs.Copied source target fs' := by
  induction depth generalizing source target fs fs' with
  | zero => cases h
  | succ depth ih =>
    obtain ⟨hvalid, hhome, hdir, hapart⟩ := hcopyable
    rw [copyTree_succ, Step.bind_state] at h
    obtain ⟨_, fs₁, hmake, hrest⟩ := Step.bind_eq_ok.mp h
    obtain ⟨es, _, hlisted, hloop⟩ := Step.bind_eq_ok.mp hrest
    obtain ⟨hes, rfl⟩ := Step.ofIo_eq_ok.mp hlisted
    obtain ⟨us, _, heach, hend⟩ := Step.bind_eq_ok.mp hloop
    cases hend
    obtain ⟨hpaves, hopen, -⟩ := makeDirs_run hhome hmake
    obtain ⟨n, full, hn, hfull, rfl⟩ := listed_eq_ok hes
    have hready : Ready _ source target := ⟨hpaves.valid hvalid, hpaves.open_dirs hhome,
      ⟨full, (fullPath?_congr hpaves.start source).trans hfull⟩, hopen⟩
    have hdistinct : n.entries.Pairwise fun a b => a.1 ≠ b.1 :=
      (hvalid.at? hn).ordered.imp fun hlt => (String.ne_of_lt hlt)
    have hentry : ∀ e ∈ n.entries, _ := fun e he => content_entry hvalid hn he
    have hpending : ∀ e ∈ n.entries, Pending _ source target e := fun e he =>
      { isName := (hvalid.at? hn).isName e he
        content := by
          rw [way_congr hpaves.start]
          exact hpaves.keeps (hentry e he)
        apart := by
          rw [way_congr hpaves.start, way_congr hpaves.start]
          exact hapart e.1 (by simp [hentry e he]) }
    obtain ⟨hwithin, harrives⟩ := copyEntries_run ih hready hdistinct hpending heach
    rw [way_congr hpaves.start] at hwithin
    rw [way_congr hpaves.start, way_congr hpaves.start] at harrives
    refine ⟨_, hpaves, hopen, hwithin.mono fun place ⟨e, he, hplace⟩ =>
      ⟨e.1, by simp [hentry e he], hplace⟩, fun rel k hk => ?_⟩
    cases rel with
    | nil =>
      rw [List.append_nil] at hk ⊢
      have htarget := hopen.content_way (content_nil_of_dir (hpaves.keeps hdir))
      rw [way_congr hpaves.start] at htarget
      rw [← hk, hdir]
      exact hwithin.dirs _ htarget
    | cons name rest =>
      obtain ⟨e, he, rfl⟩ := exists_entry hvalid hn hk
      simpa using harrives e he rest k (by simpa using hpaves.keeps hk)

end Step

/-! ## Where a copy goes -/

/-- The path of a copy: in a directory that is there, the name of the source. -/
def copyPath (fs : FileSystem) (source target : String) : String :=
  if fs.isDir target then Path.join target ((Path.lastName? source).getD "") else target

/-- The place of a copy. -/
def copyPlace (fs : FileSystem) (source target : String) : List String :=
  if fs.isDir target then fs.way target ++ (Path.lastName? source).toList else fs.way target

theorem isName_of_lastName? {path name : String} (h : Path.lastName? path = some name) :
    Path.IsName name := by
  unfold Path.lastName? at h
  split at h
  · rename_i t hlast
    cases h
    exact Path.isName_of_component (List.mem_of_getLast? hlast)
  · cases h

theorem way_copyPath (fs : FileSystem) (source target : String) :
    fs.way (fs.copyPath source target) = fs.copyPlace source target := by
  unfold copyPath copyPlace
  by_cases hdir : fs.isDir target = true
  · rw [if_pos hdir, if_pos hdir]
    obtain ⟨full, hfull⟩ := exists_fullPath?_of_isDir hdir
    cases hlast : Path.lastName? source with
    | none =>
      rw [Option.getD_none, way_join hfull (by decide), Path.steps_empty]
      simp [Path.foldNames]
    | some name => exact way_join_name hfull (isName_of_lastName? hlast)
  · rw [if_neg hdir, if_neg hdir]

/-- The path of a copy goes through nothing else than the path it is copied to, its own place apart. -/
theorem through_copyPath {fs : FileSystem} {source target : String} {place : List String}
    (h : fs.Through (fs.copyPath source target) place) :
    fs.Through target place ∨ place = fs.copyPlace source target := by
  rw [← way_copyPath]
  unfold copyPath at h ⊢
  by_cases hdir : fs.isDir target = true
  · rw [if_pos hdir] at h ⊢
    obtain ⟨full, hfull⟩ := exists_fullPath?_of_isDir hdir
    cases hlast : Path.lastName? source with
    | none =>
      rw [hlast, Option.getD_none] at h
      have hnothing : Path.isAbsolute "" = false := by decide
      obtain ⟨joined, hjoined, hsteps⟩ := fullPath?_join hfull hnothing
      obtain ⟨full', hfull', front, hfront, rfl⟩ := h
      obtain rfl := Option.some.inj (hjoined.symm.trans hfull')
      rw [hsteps, Path.steps_empty, List.append_nil] at hfront
      exact .inl ⟨full, hfull, front, hfront, rfl⟩
    | some name =>
      have hname := isName_of_lastName? hlast
      rw [hlast, Option.getD_some] at h
      rw [Option.getD_some, way_join_name hfull hname]
      exact through_join_name hfull hname h
  · rw [if_neg hdir] at h
    exact .inl h

theorem copy_run {fs fs' : FileSystem} {source target : String}
    (h : copy source target fs = (.ok (), fs')) :
    (fs.isDir source = false ∧ copyBytes source (fs.copyPath source target) fs = (.ok (), fs')) ∨
      (fs.isDir source = true ∧ ∃ failure,
        copyTree failure maxPath source (fs.copyPath source target) fs = (.ok (), fs')) := by
  rw [copy, Step.bind_state] at h
  change (if _ then _ else _ : Disk Unit) fs = _ at h
  split at h
  · rename_i hfile
    exact .inl ⟨by simpa using hfile, Step.mapError_eq_ok.mp h⟩
  · rename_i hdir
    split at h
    · cases h
    · exact .inr ⟨by simpa using hdir, _, h⟩

/-! ## What a copy leaves behind -/

/-- A file system in which paths make sense: its tree is in order, and the directory that relative
paths start from is there. -/
structure Valid (fs : FileSystem) : Prop where
  tree : fs.root.Valid
  home : ∀ dir, fs.start = some dir → Path.isAbsolute dir = true ∧ fs.isDir dir = true

theorem Valid.open_home {fs : FileSystem} (h : fs.Valid) : fs.Open "" := by
  rintro place ⟨full, hfull, front, hfront, rfl⟩
  obtain ⟨dir, hstart, rfl⟩ := Option.map_eq_some_iff.mp (hfull : fs.start.map _ = _)
  obtain ⟨habsolute, hdir⟩ := h.home dir hstart
  rw [Path.steps_join dir (by decide), Path.steps_empty, List.append_nil] at hfront
  exact open_of_isDir hdir _ ⟨dir, if_pos habsolute, front, hfront, rfl⟩

section Copy

variable {fs fs' : FileSystem} {source target : String}

/-- A file that is copied to where it is is lost: nothing of it is left when it is read. -/
theorem copy_onto_itself (hfile : fs.isDir source = false)
    (hself : fs.copyPlace source target = fs.way source)
    (h : copy source target fs = (.ok (), fs')) :
    fs'.content (fs.way source) = some (.file .empty) := by
  rcases copy_run h with ⟨-, hcopy⟩ | ⟨hdir, -⟩
  · obtain ⟨old, fs₁, data, -, hempty, hdata, hwrite⟩ := copyBytes_eq_ok hcopy
    have hfirst := write_run hempty
    have hlast := write_run hwrite
    have hread := content_of_bytes hdata
    rw [way_congr hfirst.start, way_copyPath, hself] at hlast
    rw [way_copyPath, hself] at hfirst
    rw [way_congr hfirst.start, hfirst.content, if_pos rfl] at hread
    cases hread
    rw [hlast.content, if_pos rfl]
  · rw [hdir] at hfile
    cases hfile

/-- The copy of an entry goes to a place that is apart from its directory. -/
theorem apart_of_copyPlace (hinside : ¬ fs.way source <+: fs.way target)
    (hself : fs.copyPlace source target ≠ fs.way source) {name : String}
    (hown : ¬ fs.copyPlace source target ++ [name] <+: fs.way source) :
    Apart (fs.way source) (fs.copyPlace source target ++ [name]) := by
  refine ⟨fun hprefix => ?_, hown⟩
  rcases List.prefix_concat_iff.mp hprefix with heq | hplace
  · exact hown (heq ▸ List.prefix_rfl)
  · unfold copyPlace at hplace hself
    by_cases hdir : fs.isDir target = true
    · rw [if_pos hdir] at hplace hself
      cases hlast : Path.lastName? source with
      | none =>
        rw [hlast, Option.toList_none, List.append_nil] at hplace
        exact hinside hplace
      | some last =>
        rw [hlast, Option.toList_some] at hplace hself
        rcases List.prefix_concat_iff.mp hplace with heq | hprefix
        · exact hself heq.symm
        · exact hinside hprefix
    · rw [if_neg hdir] at hplace
      exact hinside hplace

/-- A copy leaves its source as it was and puts all of it at its place, and nothing else is changed but
that directories are made on the way of the path it is copied to.  The path must not lead to the source
or into it, nor the copy of the source to the source itself, nor the copy of one of its entries to a
directory the source is in: what would be lost there is not looked after. -/
theorem copy_keeps_source (hvalid : fs.Valid) (hinside : ¬ fs.way source <+: fs.way target)
    (hself : fs.copyPlace source target ≠ fs.way source)
    (hown : ∀ name, fs.content (fs.way source ++ [name]) ≠ none →
      ¬ fs.copyPlace source target ++ [name] <+: fs.way source)
    (h : copy source target fs = (.ok (), fs')) :
    fs.content (fs.way source) ≠ none ∧
    (∀ rel k, fs.content (fs.way source ++ rel) = some k →
      fs'.content (fs.way source ++ rel) = some k) ∧
    (∀ rel k, fs.content (fs.way source ++ rel) = some k →
      fs'.content (fs.copyPlace source target ++ rel) = some k) ∧
    ∀ place, ¬ fs.copyPlace source target <+: place →
      fs'.content place = fs.content place ∨
      fs.content place = none ∧ fs'.content place = some .dir ∧ fs.Through target place := by
  rcases copy_run h with ⟨-, hcopy⟩ | ⟨hdir, failure, hcopy⟩
  · have hother : fs.way source ≠ fs.way (fs.copyPath source target) := by
      rw [way_copyPath]
      exact hself.symm
    obtain ⟨data, hdata, hsets⟩ := copyBytes_run hother hcopy
    rw [way_copyPath] at hsets hother
    have hsame : fs'.content (fs.way source) = some (.file data) := by
      rw [hsets.content, if_neg hother, hdata]
    refine ⟨by simp [hdata], arrives_file hdata hsame,
      arrives_file hdata (by rw [hsets.content, if_pos rfl]), fun place hplace => .inl ?_⟩
    rw [hsets.content, if_neg]
    rintro rfl
    exact hplace List.prefix_rfl
  · have hsource := content_way_of_isDir hdir
    have hapart : ∀ name, fs.content (fs.way source ++ [name]) ≠ none →
        Apart (fs.way source) (fs.copyPlace source target ++ [name]) := fun name hname =>
      apart_of_copyPlace hinside hself (hown name hname)
    have hcopyable : fs.Copyable source (fs.copyPath source target) := by
      refine ⟨hvalid.tree, hvalid.open_home, hsource, ?_⟩
      rw [way_copyPath]
      exact hapart
    obtain ⟨fs₁, hpaves, -, hwithin, harrives⟩ := copyTree_run hcopyable hcopy
    rw [way_copyPath] at hwithin harrives
    refine ⟨by simp [hsource], fun rel k hk => ?_, harrives, fun place hplace => ?_⟩
    · rw [hwithin.outside, hpaves.keeps hk]
      rintro ⟨name, hname, hprefix⟩
      exact (hapart name hname).symm.not_prefix [] rel (by simpa using hprefix)
    · have hsame : fs'.content place = fs₁.content place :=
        hwithin.outside place fun ⟨name, _, hprefix⟩ =>
          hplace ((List.prefix_append _ [name]).trans hprefix)
      rw [hsame]
      refine (hpaves.content place).imp_right fun ⟨hnone, hmade, hthrough⟩ => ⟨hnone, hmade, ?_⟩
      rcases through_copyPath hthrough with hthrough | rfl
      · exact hthrough
      · exact absurd List.prefix_rfl hplace

end Copy

/-- A directory in one of its own name. -/
def sameNames : FileSystem where
  root := .dir [("w", .dir [("b", .dir [("b", .dir
    [("x", .file "one".toUTF8 1), ("y", .dir [("z", .file "two".toUTF8 1)] 1)] 1)] 1)] 1)] 1
  clock := 2
  start := some "/w"

/-- A directory is copied over the one it is in, where none of its entries stands in the way. -/
theorem copy_keeps_source_sameNames :
    let fs := sameNames
    let fs' := (copy "b/b" "." fs).2
    fs.Valid ∧ fs.way "b/b" = ["w", "b", "b"] ∧ fs.copyPlace "b/b" "." = ["w", "b"] ∧
    copy "b/b" "." fs = (.ok (), fs') ∧
    fs'.content ["w", "b", "b", "y", "z"] = some (.file "two".toUTF8) ∧
    fs'.content ["w", "b", "y", "z"] = some (.file "two".toUTF8) ∧
    fs'.content ["w"] = some .dir := by
  intro fs fs'
  have hvalid : fs.Valid := by
    refine ⟨?_, fun dir hdir => ?_⟩
    · refine .dir (by decide) (by decide) (List.forall_mem_singleton.mpr ?_)
      refine .dir (by decide) (by decide) (List.forall_mem_singleton.mpr ?_)
      refine .dir (by decide) (by decide) (List.forall_mem_singleton.mpr ?_)
      refine .dir (by decide) (by decide) (List.forall_mem_cons.mpr ⟨.file _ _, ?_⟩)
      refine List.forall_mem_singleton.mpr (.dir (by decide) (by decide) ?_)
      exact List.forall_mem_singleton.mpr (.file _ _)
    · cases hdir
      exact ⟨by decide, by decide +kernel⟩
  have hsource : fs.way "b/b" = ["w", "b", "b"] := by decide +kernel
  have htarget : fs.way "." = ["w"] := by decide +kernel
  have hplace : fs.copyPlace "b/b" "." = ["w", "b"] := by decide +kernel
  have hinside : ¬ fs.way "b/b" <+: fs.way "." := by
    rw [hsource, htarget]
    decide
  have hself : fs.copyPlace "b/b" "." ≠ fs.way "b/b" := by
    rw [hsource, hplace]
    decide
  have hown : ∀ name, fs.content (fs.way "b/b" ++ [name]) ≠ none →
      ¬ fs.copyPlace "b/b" "." ++ [name] <+: fs.way "b/b" := by
    rw [hsource, hplace]
    intro name hthere hprefix
    obtain rfl : name = "b" := by simpa using hprefix
    exact hthere (by rfl)
  have hcopy : copy "b/b" "." fs = (.ok (), fs') := Step.eq_of_fst (by decide +kernel)
  obtain ⟨-, hkept, harrived, hrest⟩ := copy_keeps_source hvalid hinside hself hown hcopy
  have hz : fs.content (fs.way "b/b" ++ ["y", "z"]) = some (.file "two".toUTF8) := by
    rw [hsource]
    rfl
  have hkept := hkept _ _ hz
  have harrived := harrived _ _ hz
  rw [hsource] at hkept
  rw [hplace] at harrived
  refine ⟨hvalid, hsource, hplace, hcopy, hkept, harrived, ?_⟩
  rcases hrest ["w"] (by rw [hplace]; decide) with hsame | ⟨hnone, -⟩
  · exact hsame
  · cases hnone

end Kiln.FileSystem
