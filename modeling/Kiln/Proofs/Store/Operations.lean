import Kiln.Proofs.FileSystem.Changes
import Kiln.Proofs.Store.Records

/-!
# Kiln.Proofs.Store.Operations — what one operation does

The three operations of the store as a type `Op`.  On a store that is open, an operation answers
from the records, changes them by `Op.apply`, and writes them unless it is a query in an unknown
module.  On one that is not, it reads the store first.
-/

namespace Kiln

/-- An operation of the store. -/
inductive Op where
  | contains (module target digest : String)
  | add (module target digest : String)
  | clear (module : String)
  deriving DecidableEq, Repr

namespace Op

/-- Performs an operation; only a query has an answer. -/
def perform : Op → Shelving (Option Bool)
  | contains m t d => do
    let hit ← Store.contains m t d
    return some hit
  | add m t d => do
    Store.add m t d
    return none
  | clear m => do
    Store.clear m
    return none

/-- The answer that the records give. -/
def answer (rs : Records) : Op → Option Bool
  | contains m t d => some ((rs.record m t).holds d)
  | add .. => none
  | clear _ => none

/-- What becomes of the records. -/
def apply (rs : Records) : Op → Records
  | contains m t d =>
    if (((Table.get? rs m).getD .empty).get? t).isSome then rs.update m t (·.ask d) else rs
  | add m t d => rs.update m t (·.add d)
  | clear m => rs.cleared m

/-- Whether the records are written.  A query in an unknown module returns before that. -/
def saves (rs : Records) : Op → Bool
  | contains m _ _ => (Table.get? rs m).isSome
  | add .. => true
  | clear _ => true

/-- Whether an operation can change what is kept for a target. -/
def Touches : Op → String → String → Prop
  | contains m t _, m', t' => m = m' ∧ t = t'
  | add m t _, m', t' => m = m' ∧ t = t'
  | clear m, m', _ => m = m'

instance (op : Op) (m t : String) : Decidable (op.Touches m t) := by
  cases op <;> unfold Touches <;> infer_instance

theorem record_apply_of_not (rs : Records) {op : Op} {m t : String} (h : ¬ op.Touches m t) :
    (op.apply rs).record m t = rs.record m t := by
  cases op with
  | contains m' t' d =>
    have hne : ¬ (m = m' ∧ t = t') := fun he => h ⟨he.1.symm, he.2.symm⟩
    rw [apply]
    split_ifs
    · rw [Records.record_update, if_neg hne]
    · rfl
  | add m' t' d =>
    have hne : ¬ (m = m' ∧ t = t') := fun he => h ⟨he.1.symm, he.2.symm⟩
    rw [apply, Records.record_update, if_neg hne]
  | clear m' => exact Records.record_cleared_of_ne rs (fun he => h he.symm) t

/-- A query confirms the digest, or finds no record at all. -/
theorem record_apply_contains (rs : Records) (m t d : String) :
    (apply rs (contains m t d)).record m t = (rs.record m t).ask d ∨
      rs.record m t = .empty ∧ (apply rs (contains m t d)).record m t = .empty := by
  rw [apply]
  split_ifs with h
  · exact .inl (by rw [Records.record_update]; simp)
  · have hempty : rs.record m t = .empty := by
      rw [Records.record, Option.not_isSome_iff_eq_none.mp h, Option.getD_none]
    exact .inr ⟨hempty, hempty⟩

theorem record_apply_add (rs : Records) (m t d : String) :
    (apply rs (add m t d)).record m t = (rs.record m t).add d := by
  rw [apply, Records.record_update]
  simp

/-- A module that is known stays known. -/
theorem get?_apply (rs : Records) (op : Op) {m : String} (h : (Table.get? rs m).isSome = true) :
    (Table.get? (op.apply rs) m).isSome = true := by
  cases op with
  | contains m' t' d =>
    rw [apply]
    split_ifs
    · exact (Records.get?_update ..).mpr (.inr h)
    · exact h
  | add m' t' d => exact (Records.get?_update ..).mpr (.inr h)
  | clear m' => rw [apply, Records.get?_cleared, h]

/-- An operation that writes nothing is a query in an unknown module, and changes nothing. -/
theorem apply_of_not_saves {rs : Records} {op : Op} (h : op.saves rs = false) :
    ∃ m t d, op = contains m t d ∧ Table.get? rs m = none ∧ op.apply rs = rs := by
  cases op with
  | contains m t d =>
    have hnone : Table.get? rs m = none := by simpa [saves] using h
    exact ⟨m, t, d, rfl, hnone, by simp [apply, hnone]⟩
  | add m t d => simp [saves] at h
  | clear m => simp [saves] at h

end Op

/-! ## Reading and writing the store -/

namespace Store

/-- The text of a file; one that is missing counts as empty. -/
def fileText (files : FileSystem) (path : String) : Except IoError String :=
  match files.text path with
  | .ok text => .ok text
  | .error e => if e.isNoEntry then .ok "" else .error e

/-- The directory of a store at `path` is there. -/
def HasHome (path : String) (files : FileSystem) : Prop :=
  ∀ dir, (atPath path).dir? = some dir → files.isDir dir = true

/-- A store at `path` can be written. -/
def Writable (path : String) (files : FileSystem) : Prop :=
  files.Replaceable ((atPath path).dir?.getD ".") path

theorem dir?_eq_some {s : Store} {dir : String} (h : s.dir? = some dir) :
    dir ≠ "" ∧ FileSystem.trimEnd dir = dir := by
  rw [dir?, Option.filter_eq_some_iff] at h
  exact ⟨by simpa using h.2, FileSystem.trimEnd_enclosing h.1⟩

theorem widens_makeHome (s : Store) (files : FileSystem) :
    files.Widens (makeHome s files).2 := by
  have hrefl : files.Widens files := ⟨.refl files, .refl files.root⟩
  unfold makeHome
  cases s.dir? with
  | some dir => exact (FileSystem.keeps_makeDirsWithin files _ dir files hrefl).1
  | none => exact hrefl

theorem hasHome_of_makeHome {s : Store} {files files' : FileSystem}
    (h : makeHome s files = (.ok (), files')) : HasHome s.path files' := by
  intro dir hdir
  replace hdir : s.dir? = some dir := hdir
  obtain ⟨hne, htrim⟩ := dir?_eq_some hdir
  rw [makeHome, hdir] at h
  exact FileSystem.isDir_of_makeDirs hne htrim h

theorem makeHome_of_hasHome {s : Store} {files : FileSystem} (h : HasHome s.path files) :
    makeHome s files = (.ok (), files) := by
  unfold makeHome
  cases hdir : s.dir? with
  | none => rfl
  | some dir => exact FileSystem.makeDirs_of_isDir (dir?_eq_some hdir).2 (h dir hdir)

theorem makeHome_fails_again {s : Store} {files files' : FileSystem} {o : Outcome Unit}
    (h : makeHome s files = (o, files')) (ho : o ≠ .ok ()) : (makeHome s files').1 ≠ .ok () := by
  unfold makeHome at h ⊢
  cases hdir : s.dir? with
  | none =>
    rw [hdir] at h
    cases h
    exact absurd rfl ho
  | some dir =>
    rw [hdir] at h
    exact FileSystem.makeDirsWithin_fails_again (dir?_eq_some hdir).2 h ho

theorem HasHome.grows {path : String} {files files' : FileSystem} (h : HasHome path files)
    (hg : files.Grows files') : HasHome path files' :=
  fun dir hdir => hg.isDir (h dir hdir)

/-- A file that was there when the store was opened reads as before. -/
theorem fileText_makeHome {s : Store} {files : FileSystem} {path text : String}
    (h : files.text path = .ok text) : fileText (makeHome s files).2 path = .ok text := by
  obtain ⟨hgrows, hspares⟩ := widens_makeHome s files
  rw [fileText, hgrows.text hspares h]

theorem load_of_isOpen {s : Shelf} (h : s.store.isOpen = true) : load s = (.ok (), s) := by
  show (if s.store.isOpen then _ else _ : Shelving Unit) s = _
  rw [if_pos h]
  rfl

/-- Reading a store that is not open: its directory is made, and the file is read. -/
theorem load_eq {s : Shelf} (hopen : s.store.isOpen = false) :
    load s =
      match makeHome s.store s.files with
      | (.ok (), files) =>
        match fileText files s.store.path with
        | .ok text => (.ok (), ⟨⟨s.store.path, true, .ofText text⟩, files⟩)
        | .error e => (.error (.io e), ⟨s.store, files⟩)
      | (o, files) => (o, ⟨s.store, files⟩) := by
  have hrun : load s = (do
      onDisk (makeHome s.store)
      let files ← Step.look Shelf.files
      match files.text s.store.path with
      | .ok text => .change fun shelf => { shelf with store := ⟨s.store.path, true, .ofText text⟩ }
      | .error e =>
        if e.isNoEntry then
          .change fun shelf => { shelf with store := ⟨s.store.path, true, .ofText ""⟩ }
        else .fail (.io e) : Shelving Unit) s := by
    show (if s.store.isOpen then _ else _ : Shelving Unit) s = _
    rw [hopen]
    rfl
  rw [hrun, Step.bind_run, onDisk, Step.on]
  rcases makeHome s.store s.files with ⟨o, files⟩
  cases o with
  | error e => rfl
  | exhausted => rfl
  | ok u =>
    simp only [Step.bind_run, Step.look, fileText]
    cases htext : files.text s.store.path with
    | ok text => rfl
    | error e => by_cases he : e.isNoEntry = true <;> simp [he, Step.change, Step.fail]

theorem save_eq (s : Shelf) :
    save s = onDisk (FileSystem.replaceFile ((atPath s.store.path).dir?.getD ".") s.store.path
      s.store.records.toText.toUTF8) s := by
  rw [save, Step.bind_run]
  rfl

/-- A store that can be written is, and can then be written again. -/
theorem save_of_writable {s : Shelf} (h : Writable s.store.path s.files) :
    ∃ files, save s = (.ok (), ⟨s.store, files⟩) ∧ s.files.Grows files ∧
      fileText files s.store.path = .ok s.store.records.toText ∧ Writable s.store.path files := by
  obtain ⟨files, hrun, hgrows, hbytes, hagain⟩ := h.run s.store.records.toText.toUTF8
  refine ⟨files, ?_, hgrows, ?_, hagain⟩
  · rw [save_eq, onDisk, Step.on, hrun]
  · rw [fileText, FileSystem.text_of_bytes hbytes]

/-- One that cannot stays as it is, whatever its records are. -/
theorem save_of_not_writable {s : Shelf} (h : ¬ Writable s.store.path s.files) :
    ∃ e, save s = (.error e, s) := by
  obtain ⟨e, hrun⟩ := FileSystem.replaceFile_of_not h s.store.records.toText.toUTF8
  exact ⟨e, by rw [save_eq, onDisk, Step.on, hrun]⟩

/-- The text a store is opened with: that of its file once its directory is made, and none if there
is no file.  Making the directory comes first, as a path such as `new/../hs` leads to a file that is
there only once `new` is. -/
def openingText (path : String) (files : FileSystem) : String :=
  match fileText (makeHome (atPath path) files).2 path with
  | .ok text => text
  | .error _ => ""

/-- A file that the path leads to before is what the store is opened with. -/
theorem openingText_of_text {path text : String} {files : FileSystem}
    (h : files.text path = .ok text) : openingText path files = text := by
  rw [openingText, fileText_makeHome h]

theorem load_eq_ok {s s' : Shelf} (hopen : s.store.isOpen = false)
    (h : load s = (.ok (), s')) :
    ∃ text, makeHome s.store s.files = (.ok (), s'.files) ∧
      fileText s'.files s.store.path = .ok text ∧
      s'.store = ⟨s.store.path, true, .ofText text⟩ := by
  rw [load_eq hopen] at h
  rcases hmake : makeHome s.store s.files with ⟨o, files⟩
  simp only [hmake] at h
  cases o with
  | error e => cases h
  | exhausted => cases h
  | ok u =>
    cases htext : fileText files s.store.path with
    | error e =>
      simp only [htext] at h
      cases h
    | ok text =>
      simp only [htext] at h
      cases h
      exact ⟨text, rfl, htext, rfl⟩

/-- A store that was opened. -/
theorem load_atPath_eq_ok {path : String} {files : FileSystem} {s : Shelf}
    (h : load ⟨atPath path, files⟩ = (.ok (), s)) :
    s.store = ⟨path, true, .ofText (openingText path files)⟩ ∧ HasHome path s.files ∧
      fileText s.files path = .ok (openingText path files) := by
  obtain ⟨text, hmake, htext, hstore⟩ := load_eq_ok rfl h
  have hopening : openingText path files = text := by
    rw [openingText, hmake]
    show (match fileText s.files (atPath path).path with | .ok text => text | .error _ => "") = text
    rw [htext]
  rw [hopening]
  have hhome : HasHome (atPath path).path s.files := hasHome_of_makeHome hmake
  exact ⟨hstore, hhome, htext⟩

/-- A store that could not be opened stays as it was, and cannot be opened later. -/
theorem load_fails_again {path : String} {files : FileSystem} {s : Shelf} {o : Outcome Unit}
    (h : load ⟨atPath path, files⟩ = (o, s)) (ho : ∀ u, o ≠ .ok u) :
    s.store = atPath path ∧ ∀ s', load s ≠ (.ok (), s') := by
  rw [load_eq rfl] at h
  have hpath : (atPath path).path = path := rfl
  rcases hmake : makeHome (atPath path) files with ⟨oHome, files'⟩
  simp only [hmake] at h
  by_cases hok : oHome = .ok ()
  · subst hok
    have hhome : HasHome (atPath path).path files' := hasHome_of_makeHome hmake
    have hagain : makeHome (atPath path) files' = (.ok (), files') := makeHome_of_hasHome hhome
    rw [hpath] at h
    cases htext : fileText files' path with
    | ok text =>
      simp only [htext] at h
      cases h
      exact absurd rfl (ho ())
    | error e =>
      simp only [htext] at h
      cases h
      refine ⟨rfl, fun s' hload => ?_⟩
      obtain ⟨text, hmake', htext', -⟩ := load_eq_ok rfl hload
      have hfiles : files' = s'.files := (Prod.ext_iff.mp (hagain.symm.trans hmake')).2
      rw [← hfiles] at htext'
      cases htext.symm.trans htext'
  · have hfail := makeHome_fails_again hmake hok
    have hs : s = ⟨atPath path, files'⟩ := by
      cases oHome with
      | ok u => exact absurd rfl hok
      | error e => exact (Prod.ext_iff.mp h).2.symm
      | exhausted => exact (Prod.ext_iff.mp h).2.symm
    subst hs
    refine ⟨rfl, fun s' hload => ?_⟩
    obtain ⟨text, hmake', -, -⟩ := load_eq_ok rfl hload
    rw [hmake'] at hfail
    exact hfail rfl

/-- A new store at a path whose directory is there reads the file as it is. -/
theorem load_of_hasHome {path text : String} {files : FileSystem}
    (hhome : HasHome path files) (htext : fileText files path = .ok text) :
    load ⟨atPath path, files⟩ = (.ok (), ⟨⟨path, true, .ofText text⟩, files⟩) := by
  have hpath : (atPath path).path = path := rfl
  have hmake : makeHome (atPath path) files = (.ok (), files) := makeHome_of_hasHome hhome
  rw [load_eq rfl]
  simp only [hmake, hpath, htext]

theorem isOpen_of_load {s s' : Shelf} (h : load s = (.ok (), s')) : s'.store.isOpen = true := by
  cases hopen : s.store.isOpen with
  | true =>
    rw [load_of_isOpen hopen] at h
    cases h
    exact hopen
  | false =>
    obtain ⟨text, -, -, hstore⟩ := load_eq_ok hopen h
    rw [hstore]

/-! ## Operations -/

/-- Every operation reads the store first. -/
theorem perform_of_load {s s' : Shelf} (h : load s = (.ok (), s')) (op : Op) :
    op.perform s = op.perform s' := by
  have h' := load_of_isOpen (isOpen_of_load h)
  cases op <;> simp only [Op.perform, contains, add, clear, Step.bind_run, h, h']

theorem perform_of_load_fail {s s' : Shelf} {o : Outcome Unit} (h : load s = (o, s'))
    (ho : ∀ u, o ≠ .ok u) (op : Op) : ∃ o', (∀ a, o' ≠ .ok a) ∧ op.perform s = (o', s') := by
  cases o with
  | ok u => exact absurd rfl (ho u)
  | error e =>
    refine ⟨.error e, by simp, ?_⟩
    cases op <;> simp only [Op.perform, contains, add, clear, Step.bind_run, h]
  | exhausted =>
    refine ⟨.exhausted, by simp, ?_⟩
    cases op <;> simp only [Op.perform, contains, add, clear, Step.bind_run, h]

/-- An operation that succeeds has opened the store. -/
theorem load_of_perform_ok {s s' : Shelf} {op : Op} {a : Option Bool}
    (h : op.perform s = (.ok a, s')) : ∃ t, load s = (.ok (), t) := by
  rcases hload : load s with ⟨o, t⟩
  by_cases ho : ∃ u, o = .ok u
  · obtain ⟨u, rfl⟩ := ho
    exact ⟨t, rfl⟩
  · obtain ⟨o', ho', hfail⟩ := perform_of_load_fail hload (fun u hu => ho ⟨u, hu⟩) op
    cases hfail.symm.trans h
    exact absurd rfl (ho' a)

/-- The store after an operation that has not written it yet. -/
def applied (s : Shelf) (op : Op) : Shelf :=
  { s with store := { s.store with records := op.apply s.store.records } }

/-- An operation on an open store. -/
theorem perform_of_isOpen {s : Shelf} (h : s.store.isOpen = true) (op : Op) :
    op.perform s =
      if op.saves s.store.records then
        (do save; return op.answer s.store.records : Shelving (Option Bool)) (applied s op)
      else (.ok (op.answer s.store.records), s) := by
  have hload := load_of_isOpen h
  cases op with
  | contains m t d =>
    simp only [Op.perform, contains, Step.bind_run, hload, Step.look]
    cases hm : Table.get? s.store.records m with
    | none => simp [Op.saves, Op.answer, hm, Records.record, Record.empty, Record.holds]
    | some targets =>
      cases ht : targets.get? t with
      | none =>
        have happlied : applied s (.contains m t d) = s := by
          simp [applied, Op.apply, hm, ht]
        simp only [ht, Op.saves, hm, Option.isSome_some, if_true, Step.bind_run, happlied]
        cases hsave : save s with
        | mk o s' =>
          cases o <;>
            simp [Op.answer, Records.record, hm, ht, Record.empty, Record.holds]
      | some r =>
        have happlied : applied s (.contains m t d) =
            { s with store :=
              { s.store with records := s.store.records.update m t (·.ask d) } } := by
          simp [applied, Op.apply, hm, ht]
        simp only [ht, Op.saves, hm, Option.isSome_some, if_true, Step.bind_run, happlied,
          changeRecords, Step.change]
        cases hsave : save _ with
        | mk o s' => cases o <;> simp [Op.answer, Records.record, hm, ht]
  | add m t d =>
    simp only [Op.perform, add, Step.bind_run, hload, changeRecords, Step.change, Op.saves,
      if_true]
    rfl
  | clear m =>
    simp only [Op.perform, clear, Step.bind_run, hload, changeRecords, Step.change, Op.saves,
      if_true]
    rfl

/-- On a store that can be written every operation succeeds. -/
theorem perform_of_writable {s : Shelf} (h : s.store.isOpen = true)
    (hw : Writable s.store.path s.files) (op : Op) :
    ∃ files, op.perform s = (.ok (op.answer s.store.records), ⟨(applied s op).store, files⟩) ∧
      s.files.Grows files ∧ Writable s.store.path files ∧
      ((op.apply s.store.records = s.store.records ∧ files = s.files) ∨
        fileText files s.store.path = .ok (op.apply s.store.records).toText) := by
  rw [perform_of_isOpen h]
  by_cases hsaves : op.saves s.store.records = true
  · rw [if_pos hsaves]
    have hw' : Writable (applied s op).store.path (applied s op).files := hw
    obtain ⟨files, hsave, hgrows, htext, hagain⟩ := save_of_writable hw'
    exact ⟨files, by rw [Step.bind_run_ok hsave]; rfl, hgrows, hagain, .inr htext⟩
  · rw [if_neg hsaves]
    obtain ⟨m, t, d, -, -, hsame⟩ := Op.apply_of_not_saves (by simpa using hsaves)
    exact ⟨s.files, by rw [applied, hsame], .refl _, hw, .inl ⟨hsame, rfl⟩⟩

/-- On one that cannot be written, only an operation that writes nothing does. -/
theorem perform_of_not_writable {s : Shelf} (h : s.store.isOpen = true)
    (hw : ¬ Writable s.store.path s.files) (op : Op) :
    (op.saves s.store.records = false ∧
      op.perform s = (.ok (op.answer s.store.records), s)) ∨
    ∃ e, op.perform s = (.error e, applied s op) := by
  rw [perform_of_isOpen h]
  by_cases hsaves : op.saves s.store.records = true
  · have hw' : ¬ Writable (applied s op).store.path (applied s op).files := hw
    obtain ⟨e, hsave⟩ := save_of_not_writable hw'
    exact .inr ⟨e, by rw [if_pos hsaves, Step.bind_run_error hsave]⟩
  · exact .inl ⟨by simpa using hsaves, if_neg hsaves⟩

/-- What an operation that succeeds answers and leaves behind. -/
theorem perform_eq_ok {s s' : Shelf} {op : Op} {a : Option Bool} (h : s.store.isOpen = true)
    (hok : op.perform s = (.ok a, s')) :
    a = op.answer s.store.records ∧ s'.store = (applied s op).store := by
  by_cases hw : Writable s.store.path s.files
  · obtain ⟨files, hrun, -⟩ := perform_of_writable h hw op
    cases hrun.symm.trans hok
    exact ⟨rfl, rfl⟩
  · rcases perform_of_not_writable h hw op with ⟨hsaves, hrun⟩ | ⟨e, hrun⟩
    · cases hrun.symm.trans hok
      obtain ⟨m, t, d, -, -, hsame⟩ := Op.apply_of_not_saves hsaves
      exact ⟨rfl, by rw [applied, hsame]⟩
    · cases hrun.symm.trans hok

end Store

end Kiln
