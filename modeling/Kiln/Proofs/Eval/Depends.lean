import Kiln.Proofs.Eval.Frames
import Kiln.Proofs.Store.Rerun

/-!
# Kiln.Proofs.Eval.Depends — a step runs when its digest is new

A step asks the store for its digest.  If the digest is recorded, that is all; if not, the action is
executed once, and its digest is added if it ended well.  After a step that ended well its digest is
recorded, whatever the action did to the store before.
-/

namespace Kiln

open Kiln.Action

/-! ## What the store answers -/

/-- The store records the digest: in its records, or in its file if it was not read yet. -/
def Shelf.Recorded (shelf : Shelf) (module target digest : String) : Prop :=
  if shelf.store.isOpen then (shelf.store.records.record module target).holds digest = true
  else Records.Mentions (Store.openingText shelf.store.path shelf.files) module target digest

/-- An open store answers from its records, whatever the files are. -/
theorem Shelf.Recorded.of_store_eq {s u : Shelf} {m t d : String} (h : s.Recorded m t d)
    (hopen : s.store.isOpen = true) (hstore : u.store = s.store) : u.Recorded m t d := by
  rw [Shelf.Recorded, hstore, if_pos hopen]
  rwa [Shelf.Recorded, if_pos hopen] at h

/-- Asking for a digest changes no answer. -/
theorem Record.holds_ask (r : Record) (d d' : String) : (r.ask d).holds d' = r.holds d' := by
  unfold ask holds
  by_cases hd : r.previous.contains d = true
  · rw [if_pos hd, Bool.eq_iff_iff]
    simp only [Bool.or_eq_true, NameSet.contains_add]
    constructor
    · rintro (h | rfl | h)
      · exact .inl h
      · exact .inl hd
      · exact .inr h
    · rintro (h | h)
      · exact .inl h
      · exact .inr (.inr h)
  · rw [if_neg hd]

namespace Store

variable {m t d : String} {s u v : Shelf}

/-- Opening a store does not change what it records. -/
theorem recorded_of_load (h : load s = (.ok (), v)) :
    (v.store.records.record m t).holds d = true ↔ s.Recorded m t d := by
  unfold Shelf.Recorded
  cases hopen : s.store.isOpen with
  | true =>
    rw [load_of_isOpen hopen] at h
    cases h
    simp
  | false =>
    obtain ⟨text, hmake, htext, hstore⟩ := load_eq_ok hopen h
    have hopening : openingText s.store.path s.files = text := by
      have hhome : makeHome (atPath s.store.path) s.files = (.ok (), v.files) := hmake
      rw [openingText, hhome]
      simp [htext]
    obtain ⟨hcurrent, -, hprevious⟩ := Records.record_ofText text m t
    rw [hstore, hopening, Record.holds, hcurrent, NameSet.contains_empty, Bool.or_false, hprevious d]
    simp

/-- A store that was asked is open, and says of every digest what it said before. -/
theorem contains_answer {hit : Bool} (h : contains m t d s = (.ok hit, u)) :
    (hit = true ↔ s.Recorded m t d) ∧ u.store.isOpen = true ∧
      (u.Recorded m t d ↔ s.Recorded m t d) := by
  have hperform := contains_eq_ok.mp h
  obtain ⟨v, hload⟩ := load_of_perform_ok hperform
  have hopen := isOpen_of_load hload
  rw [perform_of_load hload] at hperform
  obtain ⟨hanswer, hstore⟩ := perform_eq_ok hopen hperform
  have hhit : hit = (v.store.records.record m t).holds d := Option.some.inj hanswer
  have hu : u.store.isOpen = true := by
    rw [hstore]
    exact hopen
  refine ⟨?_, hu, ?_⟩
  · rw [hhit]
    exact recorded_of_load hload
  · rw [← recorded_of_load hload, Shelf.Recorded, if_pos hu, hstore]
    show ((Op.apply v.store.records (.contains m t d)).record m t).holds d = true ↔ _
    rcases Op.record_apply_contains v.store.records m t d with hask | ⟨hold, hnew⟩
    · rw [hask, Record.holds_ask]
    · rw [hold, hnew]

/-- A digest that was added is recorded. -/
theorem recorded_of_add (h : add m t d s = (.ok (), u)) :
    u.store.isOpen = true ∧ u.Recorded m t d := by
  have hperform := add_eq_ok.mp h
  obtain ⟨v, hload⟩ := load_of_perform_ok hperform
  have hopen := isOpen_of_load hload
  rw [perform_of_load hload] at hperform
  obtain ⟨-, hstore⟩ := perform_eq_ok hopen hperform
  have hu : u.store.isOpen = true := by
    rw [hstore]
    exact hopen
  refine ⟨hu, ?_⟩
  rw [Shelf.Recorded, if_pos hu, hstore]
  show ((Op.apply v.store.records (.add m t d)).record m t).holds d = true
  rw [Op.record_apply_add]
  simp [Record.add, Record.holds, NameSet.contains_add]

end Store

/-! ## The statement -/

/-- The digest of a step: that of its files and of its action, in the state that evaluating its paths
leaves. -/
def digestOf (n : Nat) (paths : Expr) (action : Stmt) : Action String := do
  let listed ← eval n paths
  let values ← elementsOf listed
  let texts ← textsOf values
  let s ← Step.state
  let code ← Step.ofOutcome (Fingerprint.stmt (viewOf s) action)
  return Digest.ofText (dependencyText s.files (texts.map s.run.resolve) code)

/-- The store of a state. -/
def Machine.shelf (s : Machine) : Shelf := ⟨s.session.store, s.files⟩

/-- What a step does once its digest is known. -/
def confirmOrRun (n : Nat) (action : Stmt) (module target digest : String) : Action Unit := do
  let upToDate ← onStore (Store.contains module target digest)
  if upToDate then return ()
  else do
    exec n action
    onStore (Store.add module target digest)

section Statement

variable {n : Nat} {loc : Location} {paths : Expr} {action : Stmt} {digest : String}
  {s t u : Machine}

/-- Computing the digest of a step does nothing but evaluate its paths. -/
theorem digestOf_eq_ok (h : digestOf n paths action s = (.ok digest, t)) :
    ∃ listed texts code, eval n paths s = (.ok listed, t) ∧
      textsOf (t.memory.elements listed) t = (.ok texts, t) ∧
      Fingerprint.stmt (viewOf t) action = .ok code ∧
      digest = Digest.ofText (dependencyText t.files (texts.map t.run.resolve) code) := by
  obtain ⟨listed, u, heval, hrest⟩ := Step.bind_eq_ok.mp h
  obtain ⟨values, u₁, hvalues, hrest⟩ := Step.bind_eq_ok.mp hrest
  cases hvalues
  obtain ⟨texts, u₂, htexts, hrest⟩ := Step.bind_eq_ok.mp hrest
  cases (idle_textsOf _).eq_of_run htexts
  obtain ⟨machine, u₃, hmachine, hrest⟩ := Step.bind_eq_ok.mp hrest
  cases hmachine
  obtain ⟨code, u₄, hcode, hrest⟩ := Step.bind_eq_ok.mp hrest
  obtain ⟨hcode, rfl⟩ := Prod.ext_iff.mp hcode
  cases hrest
  exact ⟨listed, texts, code, heval, htexts, hcode, rfl⟩

theorem exec_depends (loc : Location) (h : digestOf n paths action s = (.ok digest, t)) :
    exec (n + 1) (.depends loc paths action) s =
      Step.mapError (Error.locate loc)
        (confirmOrRun n action s.frame.module s.frame.target digest) t := by
  obtain ⟨listed, texts, code, heval, htexts, hcode, rfl⟩ := digestOf_eq_ok h
  have hframe : t.frame = s.frame := by
    have hend := frame_eval n paths s
    rwa [heval] at hend
  have hcode' : (Step.ofOutcome (Fingerprint.stmt (viewOf t) action) : Action String) t =
      (.ok code, t) := by rw [Step.ofOutcome, hcode]
  rw [← hframe]
  refine Step.mapError_congr ((Step.bind_run_ok heval _).trans ?_)
  exact (Step.bind_run_ok htexts _).trans (Step.bind_run_ok hcode' _)

end Statement

/-- `t` is `s` but for the digest store and the files. -/
def Machine.SameButStore (s t : Machine) : Prop :=
  t = { s with files := t.files, session := { s.session with store := t.session.store } }

theorem onStore_eq {α : Type} {m : Shelving α} {o : Outcome α} {s t : Machine}
    (h : onStore m s = (o, t)) : m s.shelf = (o, t.shelf) ∧ s.SameButStore t := by
  cases h
  exact ⟨rfl, rfl⟩

section Runs

variable {n : Nat} {action : Stmt} {module target digest : String} {s t : Machine}

theorem confirmOrRun_of_recorded {hit : Bool} (hrecorded : s.shelf.Recorded module target digest)
    (hask : onStore (Store.contains module target digest) s = (.ok hit, t)) :
    confirmOrRun n action module target digest s = (.ok (), t) := by
  have hhit := (Store.contains_answer (onStore_eq hask).1).1.mpr hrecorded
  rw [confirmOrRun, Step.bind_run_ok hask, hhit]
  rfl

theorem confirmOrRun_of_not_recorded {hit : Bool}
    (hrecorded : ¬ s.shelf.Recorded module target digest)
    (hask : onStore (Store.contains module target digest) s = (.ok hit, t)) :
    confirmOrRun n action module target digest s =
      (exec n action >>= fun _ => onStore (Store.add module target digest)) t := by
  have hmiss : hit ≠ true := fun hhit =>
    hrecorded ((Store.contains_answer (onStore_eq hask).1).1.mp hhit)
  rw [confirmOrRun, Step.bind_run_ok hask, if_neg hmiss]

/-- A step that ended well has its digest recorded, in a store that is open. -/
theorem recorded_of_confirmOrRun
    (h : confirmOrRun n action module target digest s = (.ok (), t)) :
    t.session.store.isOpen = true ∧ t.shelf.Recorded module target digest := by
  obtain ⟨hit, u, hask, hrest⟩ := Step.bind_eq_ok.mp h
  obtain ⟨hhit, hopen, hsame⟩ := Store.contains_answer (onStore_eq hask).1
  cases hit with
  | true =>
    cases hrest
    exact ⟨hopen, hsame.mpr (hhit.mp rfl)⟩
  | false =>
    obtain ⟨_, w, -, hadd⟩ := Step.bind_eq_ok.mp hrest
    exact Store.recorded_of_add (onStore_eq hadd).1

end Runs

/-- A step whose digest is recorded asks the store and does nothing else; one whose digest is not
executes its action once, and adds the digest if the action ended well.  Once a step ended well, its
digest is recorded: executed again it only asks, as long as its paths do not touch the store and the
digest comes out the same. -/
theorem depends_once {n : Nat} (loc : Location) {paths : Expr} {action : Stmt} {digest : String}
    {hit : Bool} {s s₁ s₂ : Machine} (hdigest : digestOf n paths action s = (.ok digest, s₁))
    (hask : onStore (Store.contains s.frame.module s.frame.target digest) s₁ = (.ok hit, s₂)) :
    (∃ listed, eval n paths s = (.ok listed, s₁)) ∧ s₁.SameButStore s₂ ∧
    (s₁.shelf.Recorded s.frame.module s.frame.target digest →
      exec (n + 1) (.depends loc paths action) s = (.ok (), s₂)) ∧
    (¬ s₁.shelf.Recorded s.frame.module s.frame.target digest →
      (∀ e t, exec n action s₂ = (.error e, t) →
        exec (n + 1) (.depends loc paths action) s = (.error (e.locate loc), t)) ∧
      (∀ t, exec n action s₂ = (.exhausted, t) →
        exec (n + 1) (.depends loc paths action) s = (.exhausted, t)) ∧
      ∀ t u, exec n action s₂ = (.ok (), t) →
        onStore (Store.add s.frame.module s.frame.target digest) t = (.ok (), u) →
          exec (n + 1) (.depends loc paths action) s = (.ok (), u) ∧
          u.shelf.Recorded s.frame.module s.frame.target digest) ∧
    ∀ u n' u₁ u₂ hit', exec (n + 1) (.depends loc paths action) s = (.ok (), u) →
      digestOf n' paths action u = (.ok digest, u₁) → u₁.session.store = u.session.store →
      onStore (Store.contains u.frame.module u.frame.target digest) u₁ = (.ok hit', u₂) →
        exec (n' + 1) (.depends loc paths action) u = (.ok (), u₂) ∧ u₁.SameButStore u₂ := by
  obtain ⟨listed, -, -, heval, -⟩ := digestOf_eq_ok hdigest
  have hrun := exec_depends loc hdigest
  rw [Step.mapError] at hrun
  refine ⟨⟨listed, heval⟩, (onStore_eq hask).2, fun hrecorded => ?_, fun hrecorded => ?_, ?_⟩
  · rw [hrun, confirmOrRun_of_recorded hrecorded hask]
  · rw [confirmOrRun_of_not_recorded hrecorded hask, Step.bind_run] at hrun
    refine ⟨fun e t haction => ?_, fun t haction => ?_, fun t u haction hadd => ?_⟩
    · rw [hrun, haction]
    · rw [hrun, haction]
    · refine ⟨?_, (Store.recorded_of_add (onStore_eq hadd).1).2⟩
      rw [hrun, haction]
      simp only [hadd]
  · intro u n' u₁ u₂ hit' hexec hdigest' hstore hask'
    -- The step ended well, so its digest is in the records, and still is when it is asked for again.
    have hdone : confirmOrRun n action s.frame.module s.frame.target digest s₁ = (.ok (), u) := by
      rw [hexec] at hrun
      rcases hconfirm : confirmOrRun n action s.frame.module s.frame.target digest s₁ with ⟨o, t⟩
      rw [hconfirm] at hrun
      cases o with
      | ok a => exact hrun.symm
      | error e => cases hrun
      | exhausted => cases hrun
    obtain ⟨hopen, hrecorded⟩ := recorded_of_confirmOrRun hdone
    have hframe : s.frame.Same u.frame := by
      have hend := frame_exec (n + 1) (.depends loc paths action) s
      rwa [hexec] at hend
    have hrecorded' : u₁.shelf.Recorded u.frame.module u.frame.target digest := by
      rw [hframe.module, hframe.target]
      exact hrecorded.of_store_eq hopen hstore
    refine ⟨?_, (onStore_eq hask').2⟩
    rw [exec_depends loc hdigest', Step.mapError, confirmOrRun_of_recorded hrecorded' hask']

/-- `println("made");` -/
def Stmt.printing : Stmt := .expr ⟨"/m", 1⟩ (.builtin .println [.str "made"])

/-- `depends ([]) println("made");` -/
def Stmt.printingStep : Stmt := .depends ⟨"/m", 1⟩ (.array []) .printing

/-- The step prints when it is executed first, and does not when it is executed again. -/
theorem depends_once_printing :
    ∃ u v, exec 4 .printingStep .blank = (.ok (), u) ∧ u.session.output = "made\n".toUTF8 ∧
      exec 4 .printingStep u = (.ok (), v) ∧ v.session.output = u.session.output := by
  let asking : Action Unit := do
    let digest ← digestOf 3 (.array []) .printing
    let _ ← onStore (Store.contains "/m" "" digest)
    return ()
  obtain ⟨u, hexec, houtput, hsecond⟩ : ∃ u, exec 4 .printingStep .blank = (.ok (), u) ∧
      u.session.output = "made\n".toUTF8 ∧ (asking u).1 = .ok () :=
    ⟨(exec 4 .printingStep .blank).2, Step.eq_of_fst (by decide +kernel), by decide +kernel,
      by decide +kernel⟩
  -- No file is listed and no variable read, so the digest is the same in every state.
  have hnone {s t : Machine} {digest : String}
      (h : digestOf 3 (.array []) .printing s = (.ok digest, t)) :
      ∃ code, Fingerprint.stmt (viewOf .blank) .printing = .ok code ∧
        digest = Digest.ofText (dependencyText Machine.blank.files [] code) := by
    obtain ⟨listed, texts, code, heval, htexts, hcode, rfl⟩ := digestOf_eq_ok h
    cases heval
    have hempty : texts = [] := by
      simpa [Memory.elements, Memory.slots, Array.getD, textsOf, Step.each, Step.value] using htexts
    subst hempty
    exact ⟨code, hcode, rfl⟩
  have hfirst : (asking .blank).1 = .ok () := by decide +kernel
  obtain ⟨digest, s₁, hdigest, hrest⟩ := Step.bind_eq_ok.mp (Step.eq_of_fst hfirst)
  obtain ⟨hit, s₂, hask, -⟩ := Step.bind_eq_ok.mp hrest
  obtain ⟨digest', u₁, hdigest', hrest'⟩ := Step.bind_eq_ok.mp (Step.eq_of_fst hsecond)
  obtain ⟨hit', v, hask', -⟩ := Step.bind_eq_ok.mp hrest'
  obtain rfl : digest' = digest := by
    obtain ⟨code, hcode, rfl⟩ := hnone hdigest
    obtain ⟨code', hcode', rfl⟩ := hnone hdigest'
    rw [Outcome.ok.inj (hcode.symm.trans hcode')]
  have hsession : u₁.session = u.session := by
    obtain ⟨listed, -, -, heval, -⟩ := digestOf_eq_ok hdigest'
    cases heval
    rfl
  obtain ⟨-, -, -, -, hagain⟩ := depends_once ⟨"/m", 1⟩ hdigest hask
  have hframe : Machine.blank.frame.Same u.frame := by
    have hend := frame_exec 4 .printingStep .blank
    rwa [hexec] at hend
  have hmodule : u.frame.module = "/m" := hframe.module
  have htarget : u.frame.target = "" := hframe.target
  rw [← hmodule, ← htarget] at hask'
  obtain ⟨hexec', hbut⟩ :=
    hagain u 3 u₁ v hit' hexec hdigest' (congrArg Session.store hsession) hask'
  have houtput' : v.session.output = u₁.session.output := by rw [hbut]
  exact ⟨u, v, hexec, houtput, hexec', by rw [houtput', hsession]⟩

end Kiln
