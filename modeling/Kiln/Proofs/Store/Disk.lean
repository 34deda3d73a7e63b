import Kiln.Proofs.Store.History

/-!
# Kiln.Proofs.Store.Disk — what the file holds at every moment of a session

A `Store.Session` is any sequence of operations on one store, whether or not they succeed; its log
lists those that did.  `Opened` is what holds of the store and its file from the moment the store
was opened: either the store can be written, and the file mentions what the records keep, or it
cannot, and nothing but queries in unknown modules has succeeded.  Either way the file holds what
the log says.
-/

namespace Kiln

open Records

/-- Operations in turn, whatever each ends with; the log lists those that succeeded. -/
inductive Store.Session (s : Shelf) : List Event → Shelf → Prop
  | start : Store.Session s [] s
  | done {log t u a} {op : Op} : Store.Session s log t → op.perform t = (.ok a, u) →
      Store.Session s (log ++ [(op, a)]) u
  | failed {log t u o} {op : Op} : Store.Session s log t → op.perform t = (o, u) →
      (∀ a, o ≠ .ok a) → Store.Session s log u

/-- The names and digests of an operation fit into lines. -/
def Op.Clean : Op → Prop
  | contains m t d => Records.Clean m t d
  | add m t d => Records.Clean m t d
  | clear m => CleanName m

/-- A text that mentions only what fits into lines. -/
def CleanText (text : String) : Prop := ∀ m t d, Mentions text m t d → Clean m t d

/-- What a text mentions is what is kept according to the log. -/
def Agrees (kept text : String) (log : List Event) : Prop :=
  ∀ m t d, Mentions kept m t d ↔
    if Touched log m t then Confirmed log m t d else Mentions text m t d

theorem clean_of_confirmed {log : List Event} (hlog : ∀ e ∈ log, e.1.Clean) {m t d : String}
    (h : Confirmed log m t d) : Clean m t d := by
  obtain ⟨before, e, after, rfl, he, -⟩ := h
  have hop := hlog e (by simp)
  rcases he with he | he
  · rw [he] at hop
    exact hop
  · rw [he] at hop
    exact hop

/-- A store that can be written: its file mentions what its records keep. -/
structure Live (text : String) (log : List Event) (s : Shelf) : Prop where
  writable : Store.Writable s.store.path s.files
  tracks : ∀ m t, Tracks text log m t (s.store.records.record m t)
  file : ∃ kept, Store.fileText s.files s.store.path = .ok kept ∧
    ∀ m t d, Mentions kept m t d ↔ (s.store.records.record m t).kept.contains d = true

/-- A store that cannot be written: nothing but queries in unknown modules has succeeded. -/
structure Stuck (text : String) (log : List Event) (s : Shelf) : Prop where
  not_writable : ¬ Store.Writable s.store.path s.files
  file : Store.fileText s.files s.store.path = .ok text
  known : ∀ m t d, Mentions text m t d → (Table.get? s.store.records m).isSome = true
  misses : ∀ e ∈ log, ∃ m t d, e = (.contains m t d, some false) ∧ ∀ t' d', ¬ Mentions text m t' d'

/-- What holds from the moment a store at `path` was opened with `text`. -/
structure Opened (path text : String) (log : List Event) (s : Shelf) : Prop where
  isOpen : s.store.isOpen = true
  path_eq : s.store.path = path
  home : Store.HasHome path s.files
  state : Live text log s ∨ Stuck text log s

theorem Live.agrees {text : String} {log : List Event} {s : Shelf} (h : Live text log s) :
    ∃ kept, Store.fileText s.files s.store.path = .ok kept ∧ Agrees kept text log := by
  obtain ⟨kept, hfile, hkept⟩ := h.file
  exact ⟨kept, hfile, fun m t d => (hkept m t d).trans ((h.tracks m t).kept_iff d)⟩

theorem Stuck.agrees {text : String} {log : List Event} {s : Shelf} (h : Stuck text log s) :
    Agrees text text log := by
  intro m t d
  split_ifs with htouch
  · obtain ⟨e, he, htouch⟩ := htouch
    obtain ⟨m', t', d', rfl, hnone⟩ := h.misses e he
    obtain ⟨rfl, -⟩ := htouch
    constructor
    · exact fun hmention => absurd hmention (hnone t d)
    · -- a query that missed confirms nothing
      rintro ⟨before, e', after, hlog, hconfirms, -⟩
      obtain ⟨m'', t'', d'', rfl, -⟩ := h.misses e' (by simp [hlog])
      rcases hconfirms with heq | heq <;> cases heq
  · exact Iff.rfl

theorem Opened.agrees {path text : String} {log : List Event} {s : Shelf}
    (h : Opened path text log s) :
    ∃ kept, Store.fileText s.files path = .ok kept ∧ Agrees kept text log := by
  rw [← h.path_eq]
  rcases h.state with hlive | hstuck
  · exact hlive.agrees
  · exact ⟨text, hstuck.file, hstuck.agrees⟩

/-- A store that has just been opened. -/
theorem Opened.ofLoad {path : String} {files : FileSystem} {s : Shelf}
    (h : Store.load ⟨.atPath path, files⟩ = (.ok (), s)) :
    Opened path (Store.openingText path files) [] s := by
  obtain ⟨hstore, hhome, htext⟩ := Store.load_atPath_eq_ok h
  have hpath : s.store.path = path := by rw [hstore]
  refine ⟨Store.isOpen_of_load h, hpath, hhome, ?_⟩
  have htracks : ∀ m t, Tracks (Store.openingText path files) [] m t
      (s.store.records.record m t) := by
    intro m t
    rw [hstore]
    exact .ofText _ m t
  have hfile : Store.fileText s.files s.store.path = .ok (Store.openingText path files) := by
    rw [hpath]
    exact htext
  by_cases hw : Store.Writable s.store.path s.files
  · refine .inl ⟨hw, htracks, _, hfile, fun m t d => ?_⟩
    rw [(htracks m t).kept_iff d, if_neg (by simp [Touched])]
  · refine .inr ⟨hw, hfile, fun m t d hmention => ?_, by simp⟩
    have hprevious := ((htracks m t).previous d).mpr ⟨hmention, by simp⟩
    cases hm : Table.get? s.store.records m with
    | some targets => rfl
    | none =>
      rw [record_of_none hm] at hprevious
      simp [Record.empty] at hprevious

/-- What a live store writes mentions what its records keep. -/
theorem mentions_written {text : String} {log : List Event} {rs : Records}
    (htext : CleanText text) (hlog : ∀ e ∈ log, e.1.Clean)
    (h : ∀ m t, Tracks text log m t (rs.record m t)) (m t d : String) :
    Mentions rs.toText m t d ↔ (rs.record m t).kept.contains d = true := by
  refine mentions_toText (fun m t d hkept => ?_) m t d
  rw [(h m t).kept_iff d] at hkept
  split_ifs at hkept
  · exact clean_of_confirmed hlog hkept
  · exact htext m t d hkept

variable {path text : String} {log : List Event} {s u : Shelf} {op : Op}

/-- On a live store every operation succeeds, and the store stays live. -/
theorem Live.perform (h : Live text log s) (hstate : Opened path text log s)
    (htext : CleanText text) (hlog : ∀ e ∈ log, e.1.Clean) (hop : op.Clean) :
    ∃ u, op.perform s = (.ok (op.answer s.store.records), u) ∧
      Live text (log ++ [(op, op.answer s.store.records)]) u ∧
      Opened path text (log ++ [(op, op.answer s.store.records)]) u := by
  obtain ⟨files, hrun, hgrows, hw, hfile⟩ := Store.perform_of_writable hstate.isOpen h.writable op
  have htracks : ∀ m t, Tracks text (log ++ [(op, op.answer s.store.records)]) m t
      ((op.apply s.store.records).record m t) := fun m t => (h.tracks m t).apply op
  have hlive : Live text (log ++ [(op, op.answer s.store.records)])
      ⟨(Store.applied s op).store, files⟩ := by
    refine ⟨hw, htracks, ?_⟩
    rcases hfile with ⟨hsame, rfl⟩ | hfile
    · show ∃ kept, _ ∧ ∀ m t d, _ ↔ ((op.apply s.store.records).record m t).kept.contains d = true
      rw [hsame]
      exact h.file
    · refine ⟨_, hfile, mentions_written htext (fun e he => ?_) htracks⟩
      rcases List.mem_append.mp he with he | he
      · exact hlog e he
      · rw [List.mem_singleton.mp he]
        exact hop
  exact ⟨_, hrun, hlive, hstate.isOpen, hstate.path_eq, hstate.home.grows hgrows, .inl hlive⟩

/-- On a stuck store only a query in an unknown module succeeds, and the store stays stuck. -/
theorem Stuck.perform (h : Stuck text log s) (hopen : s.store.isOpen = true) (op : Op) :
    (op.perform s = (.ok (op.answer s.store.records), s) ∧
      Stuck text (log ++ [(op, op.answer s.store.records)]) s) ∨
    ∃ e, op.perform s = (.error e, Store.applied s op) ∧
      Stuck text log (Store.applied s op) := by
  rcases Store.perform_of_not_writable hopen h.not_writable op with ⟨hsaves, hrun⟩ | ⟨e, hrun⟩
  · refine .inl ⟨hrun, h.not_writable, h.file, h.known, fun e he => ?_⟩
    rcases List.mem_append.mp he with he | he
    · exact h.misses e he
    · obtain ⟨m, t, d, rfl, hnone, -⟩ := Op.apply_of_not_saves hsaves
      refine ⟨m, t, d, ?_, fun t' d' hmention => ?_⟩
      · rw [List.mem_singleton.mp he, Op.answer, record_of_none hnone]
        rfl
      · have hsome := h.known m t' d' hmention
        simp [hnone] at hsome
  · exact .inr ⟨e, hrun, h.not_writable, h.file,
      fun m t d hmention => Op.get?_apply _ op (h.known m t d hmention), h.misses⟩

theorem Opened.done (h : Opened path text log s) (htext : CleanText text)
    {a : Option Bool} (hlog : ∀ e ∈ log ++ [(op, a)], e.1.Clean)
    (hrun : op.perform s = (.ok a, u)) : Opened path text (log ++ [(op, a)]) u := by
  have hop : op.Clean := hlog (op, a) (by simp)
  rcases h.state with hlive | hstuck
  · obtain ⟨u', hrun', -, hopened⟩ :=
      hlive.perform h htext (fun e he => hlog e (by simp [he])) hop
    cases hrun'.symm.trans hrun
    exact hopened
  · rcases hstuck.perform h.isOpen op with ⟨hrun', hstuck'⟩ | ⟨e, hrun', -⟩
    · cases hrun'.symm.trans hrun
      exact ⟨h.isOpen, h.path_eq, h.home, .inr hstuck'⟩
    · cases hrun'.symm.trans hrun

theorem Opened.failed (h : Opened path text log s) {o : Outcome (Option Bool)}
    (hrun : op.perform s = (o, u)) (ho : ∀ a, o ≠ .ok a) : Opened path text log u := by
  rcases h.state with hlive | hstuck
  · obtain ⟨files, hrun', -⟩ := Store.perform_of_writable h.isOpen hlive.writable op
    cases hrun'.symm.trans hrun
    exact absurd rfl (ho _)
  · rcases hstuck.perform h.isOpen op with ⟨hrun', -⟩ | ⟨e, hrun', hstuck'⟩
    · cases hrun'.symm.trans hrun
      exact absurd rfl (ho _)
    · cases hrun'.symm.trans hrun
      exact ⟨h.isOpen, h.path_eq, h.home, .inr hstuck'⟩

/-- A session on a store that was opened. -/
theorem Opened.session (h : Opened path text [] s) (htext : CleanText text)
    (hsession : Store.Session s log u) (hlog : ∀ e ∈ log, e.1.Clean) : Opened path text log u := by
  induction hsession with
  | start => exact h
  | done _ hrun ih => exact (ih fun e he => hlog e (by simp [he])).done htext hlog hrun
  | failed _ hrun ho ih => exact (ih hlog).failed hrun ho

/-- The first operation of a session opens the store, and then it is as if it had been open. -/
theorem session_of_load {s₀ : Shelf} (h : Store.load s = (.ok (), s₀))
    (hsession : Store.Session s log u) : (log = [] ∧ u = s) ∨ Store.Session s₀ log u := by
  induction hsession with
  | start => exact .inl ⟨rfl, rfl⟩
  | done _ hrun ih =>
    rcases ih with ⟨rfl, rfl⟩ | hopened
    · rw [Store.perform_of_load h] at hrun
      exact .inr (.done .start hrun)
    · exact .inr (.done hopened hrun)
  | failed _ hrun ho ih =>
    rcases ih with ⟨rfl, rfl⟩ | hopened
    · rw [Store.perform_of_load h] at hrun
      exact .inr (.failed .start hrun ho)
    · exact .inr (.failed hopened hrun ho)

/-- On a store that cannot be opened nothing succeeds. -/
theorem nil_of_load_fails (hsession : Store.Session s log u) (hstore : s.store = .atPath path)
    (hfail : ∀ s₀, Store.load s ≠ (.ok (), s₀)) :
    log = [] ∧ u.store = .atPath path ∧ ∀ s₀, Store.load u ≠ (.ok (), s₀) := by
  induction hsession with
  | start => exact ⟨rfl, hstore, hfail⟩
  | done _ hrun ih =>
    obtain ⟨s₀, hload⟩ := Store.load_of_perform_ok hrun
    exact absurd hload (ih.2.2 s₀)
  | @failed _ t u o op _ hrun _ ih =>
    obtain ⟨hnil, hpath, hclosed⟩ := ih
    rcases hload : Store.load t with ⟨o', t'⟩
    have ho' : ∀ x, o' ≠ .ok x := by
      rintro ⟨⟩ rfl
      exact hclosed t' hload
    obtain ⟨_, -, hrun'⟩ := Store.perform_of_load_fail hload ho' op
    cases hrun'.symm.trans hrun
    obtain ⟨store, files⟩ := t
    cases hpath
    exact ⟨hnil, Store.load_fails_again hload ho'⟩

/-- An operation that succeeded had opened the store, and it could be opened from the start. -/
theorem load_of_session {files : FileSystem} (hdone : log ≠ [])
    (hsession : Store.Session ⟨.atPath path, files⟩ log u) :
    ∃ s₀, Store.load ⟨.atPath path, files⟩ = (.ok (), s₀) := by
  by_contra hclosed
  push Not at hclosed
  exact hdone (nil_of_load_fails hsession rfl hclosed).1

/-- At every moment of a session a new store can be opened on the file, with a text that agrees with
the log. -/
theorem reload_of_session {files : FileSystem} {s₀ : Shelf}
    (hload : Store.load ⟨.atPath path, files⟩ = (.ok (), s₀))
    (htext : CleanText (Store.openingText path files))
    (hsession : Store.Session ⟨.atPath path, files⟩ log u) (hlog : ∀ e ∈ log, e.1.Clean) :
    ∃ kept files',
      Store.load ⟨.atPath path, u.files⟩ = (.ok (), ⟨⟨path, true, .ofText kept⟩, files'⟩) ∧
      Agrees kept (Store.openingText path files) log := by
  rcases session_of_load hload hsession with ⟨rfl, rfl⟩ | hopened
  · obtain ⟨hstore, -, -⟩ := Store.load_atPath_eq_ok hload
    refine ⟨Store.openingText path files, s₀.files, ?_, fun m t d => ?_⟩
    · rw [hload, ← hstore]
    · rw [if_neg (by simp [Touched])]
  · have hstate := (Opened.ofLoad hload).session htext hopened hlog
    obtain ⟨kept, hfile, hagrees⟩ := hstate.agrees
    exact ⟨kept, u.files, Store.load_of_hasHome hstate.home hfile, hagrees⟩

/-- The text of records that fit into lines mentions only what does. -/
theorem cleanText_toText {rs : Records}
    (h : ∀ m t d, (rs.record m t).kept.contains d = true → Clean m t d) : CleanText rs.toText :=
  fun m t d hmention => h m t d ((mentions_toText h m t d).mp hmention)

/-- What survives: once an operation of a session has succeeded, a new store on the file loads at
every moment, for a target that was asked for, written to or cleared, the digests confirmed since
the last clearing, and for any other those that the session found in the file. -/
theorem reload_iff_history {path : String} {files : FileSystem} {u : Shelf} {rs : Records}
    {log : List Event} (hfile : Store.openingText path files = rs.toText)
    (hclean : ∀ m t d, (rs.record m t).kept.contains d = true → Clean m t d)
    (hsession : Store.Session ⟨.atPath path, files⟩ log u) (hlog : ∀ e ∈ log, e.1.Clean)
    (hdone : log ≠ []) :
    ∃ v, Store.load ⟨.atPath path, u.files⟩ = (.ok (), v) ∧ ∀ m t d,
      (v.store.records.record m t).previous.contains d = true ↔
        if Touched log m t then Confirmed log m t d
        else (rs.record m t).kept.contains d = true := by
  have htext : CleanText (Store.openingText path files) := hfile ▸ cleanText_toText hclean
  obtain ⟨s₀, hload⟩ := load_of_session hdone hsession
  obtain ⟨kept, files', hreload, hagrees⟩ := reload_of_session hload htext hsession hlog
  refine ⟨_, hreload, fun m t d => ?_⟩
  obtain ⟨-, -, hprevious⟩ := record_ofText kept m t
  rw [hprevious d, hagrees m t d, hfile, mentions_toText hclean]

theorem clean_oneRecord (m t d : String)
    (h : ((ofText "m|t|d\n").record m t).kept.contains d = true) : Clean m t d := by
  rw [(Tracks.ofText _ m t).kept_iff d, if_neg (by simp [Touched])] at h
  have hlines : (Text.Pieces.lines "m|t|d\n".toList).filterMap fields? = [("m", "t", "d")] := by
    decide +kernel
  rw [mentions_iff, hlines, List.mem_singleton] at h
  cases h
  exact ⟨by decide, by decide, by decide⟩

/-- A digest is confirmed, another one added, and the store read again. -/
theorem reload_after_add :
    let start : Shelf := ⟨.atPath "hs", .oneRecord⟩
    let asked := (Op.perform (.contains "m" "t" "d") start).2
    let added := (Op.perform (.add "m" "t" "e") asked).2
    let log : List Event := [(.contains "m" "t" "d", some true), (.add "m" "t" "e", none)]
    ∃ v, Store.load ⟨.atPath "hs", added.files⟩ = (.ok (), v) ∧ ∀ m t d,
      (v.store.records.record m t).previous.contains d = true ↔
        if Touched log m t then Confirmed log m t d
        else ((ofText "m|t|d\n").record m t).kept.contains d = true := by
  intro start asked added log
  have hfile : Store.openingText "hs" .oneRecord = (ofText "m|t|d\n").toText := by decide +kernel
  have hask : (Op.perform (.contains "m" "t" "d") start).1 = .ok (some true) := by
    decide +kernel
  have hadd : (Op.perform (.add "m" "t" "e") asked).1 = .ok none := by
    decide +kernel
  have hsession : Store.Session start log added :=
    .done (.done .start (Step.eq_of_fst hask)) (Step.eq_of_fst hadd)
  have hlog : ∀ e ∈ log, e.1.Clean := by
    intro e he
    rcases List.mem_pair.mp he with rfl | rfl
    · exact (⟨by decide, by decide, by decide⟩ : Clean "m" "t" "d")
    · exact (⟨by decide, by decide, by decide⟩ : Clean "m" "t" "e")
  exact reload_iff_history hfile clean_oneRecord hsession hlog (by simp [log])

end Kiln
