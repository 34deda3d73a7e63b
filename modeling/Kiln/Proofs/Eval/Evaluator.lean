import Kiln.Proofs.Eval.Values
import Kiln.Proofs.Memory.Operations

/-!
# Kiln.Proofs.Eval.Evaluator — evaluation keeps to every regime

By induction on the bound of depth: what all functions of the evaluator keep to with one bound, each
of them keeps to with the next.  There is one lemma a function, with a case for every form of
expression or statement.
-/

namespace Kiln

open Kiln.Action

/-! ## Going in and coming back -/

theorem Memory.forAll_setVar (scope : ScopeId) (pairs : List (String × Value)) (m : Memory) :
    ∃ m', Step.forAll (fun p => setVar scope p.1 p.2) pairs m = (.ok (), m') := by
  induction pairs generalizing m with
  | nil => exact ⟨m, rfl⟩
  | cons p pairs ih =>
    obtain ⟨m₁, hset⟩ := setVar_ok scope p.1 p.2 m
    obtain ⟨m₂, hrest⟩ := ih m₁
    exact ⟨m₂, (Step.bind_run_ok hset _).trans hrest⟩

theorem Host.newScope_run (h : Host) (m : Memory) :
    ∃ m', h.newScope m = (.ok ⟨m.scopes.size⟩, m') := by
  obtain ⟨env, cells₁, henv, -, -⟩ :=
    Memory.newDict_run (h.plainVariables.map fun e => (e.1, .str e.2)) m
  have hpath := Memory.newArray_run (h.searchPath.map .str)
    { m.withCells cells₁ with dicts := m.dicts.push env }
  obtain ⟨sys, cells₂, hsys, -, -⟩ := Memory.newDict_run
    [("platform", .str "unix"), ("hostname", .str h.hostname), ("username", .str h.username),
      ("bits", .int 64), ("env", .dict ⟨m.dicts.size⟩), ("path", .array ⟨m.arrays.size⟩)] _
  have hdescribe : h.describe m = _ :=
    (Step.bind_run_ok henv _).trans ((Step.bind_run_ok hpath _).trans hsys)
  obtain ⟨m', hset⟩ := Memory.setVar_ok ⟨m.scopes.size⟩ "sys" _ _
  refine ⟨m', (Step.bind_run_ok hdescribe _).trans ?_⟩
  refine (Step.bind_run_ok (Memory.newScope_run none _) _).trans ?_
  exact (Step.bind_run_ok hset _).trans rfl

/-- A call executes the body of the function from `Machine.entered`, and goes back to the frame of
the caller. -/
theorem enter_run (n : Nat) (f : Function) (values : List Value) (s : Machine) :
    enter (n + 1) f values s =
      match exec n f.body (s.entered f values) with
      | (.ok _, t) => (.ok t.frame.signals.result, { t with frame := s.frame })
      | (.error e, t) => (.error e, { t with frame := s.frame })
      | (.exhausted, t) => (.exhausted, { t with frame := s.frame }) := by
  let scope : ScopeId := ⟨s.memory.scopes.size⟩
  let inside := (Memory.newScope (some s.frame.scope) s.memory).2
  obtain ⟨m, hparams⟩ := Memory.forAll_setVar scope (f.params.zip values) inside
  have hentered : s.entered f values = { s with memory := m, frame := s.frame.enter f scope } := by
    simp only [Machine.entered]
    rw [hparams]
  have hbound : onMemory (Step.forAll (fun p => Memory.setVar scope p.1 p.2) (f.params.zip values))
      { s with memory := inside } = (.ok (), { s with memory := m }) := by
    simp only [onMemory, Step.on]
    rw [hparams]
  have hscope : onMemory (Memory.newScope (some s.frame.scope)) s =
      (.ok scope, { s with memory := inside }) := rfl
  let body : Action Value := do
    let scope ← onMemory (Memory.newScope (some s.frame.scope))
    onMemory (Step.forAll (fun p => Memory.setVar scope p.1 p.2) (f.params.zip values))
    .change fun s => { s with frame := s.frame.enter f scope }
    exec n f.body
    .look fun s => s.frame.signals.result
  have hbody : body s =
      (exec n f.body >>= fun _ => Step.look fun s => s.frame.signals.result) (s.entered f values) := by
    rw [hentered]
    refine (Step.bind_run_ok hscope _).trans ?_
    exact Step.bind_run_ok hbound _
  show Step.restoring (·.frame) (fun frame s => { s with frame }) body s = _
  rw [Step.restoring, hbody, Step.bind_run]
  rcases exec n f.body (s.entered f values) with ⟨o, t⟩
  cases o <;> rfl

theorem enter_end (n : Nat) (f : Function) (values : List Value) (s : Machine) :
    (enter (n + 1) f values s).2 =
      { (exec n f.body (s.entered f values)).2 with frame := s.frame } := by
  rw [enter_run]
  rcases exec n f.body (s.entered f values) with ⟨o, t⟩
  cases o <;> rfl

theorem enter_value {n : Nat} {f : Function} {values : List Value} {s : Machine} {v : Value}
    (h : (enter (n + 1) f values s).1 = .ok v) :
    (exec n f.body (s.entered f values)).2.frame.signals.result = v := by
  rw [enter_run] at h
  rcases hrun : exec n f.body (s.entered f values) with ⟨o, t⟩
  rw [hrun] at h
  cases o with
  | ok a => exact Outcome.ok.inj h
  | error e => cases h
  | exhausted => cases h

/-- A run of a build file either fails before its scope is made, or executes the top level from
`Machine.opened`. -/
theorem start_run (n : Nat) (m : Module) (cwd : String) (s : Machine) :
    ∃ u, s.Beside u ∧ (start (n + 1) m cwd s = Step.forAll (exec n) m.body (u.opened m.path) ∨
      ∃ o, (∀ a, o ≠ .ok a) ∧ start (n + 1) m cwd s = (o, u)) := by
  let entered : Action Unit := changeRun (fun _ => .inDir cwd) >>= fun _ => addIncluded m.path
  have hentered : Aside entered := (Aside.changeRun _).bind fun _ => .addIncluded _
  let t := (entered s).2
  let after : Action Unit := do
    let host ← Step.look fun s => s.host
    let scope ← onMemory host.newScope
    .change fun s => { s with frame := .top m.path scope }
    Step.forAll (exec n) m.body
  have hstart : start (n + 1) m cwd s = (addFunctions (m.exported true) >>= fun _ => after) t := rfl
  have hadded := (hentered s).trans (Aside.addFunctions (m.exported true) t)
  rcases hrun : addFunctions (m.exported true) t with ⟨o, u⟩
  rw [hrun] at hadded
  refine ⟨u, hadded, ?_⟩
  cases o with
  | ok a =>
    left
    obtain ⟨memory, hscope⟩ := u.host.newScope_run u.memory
    have hmemory : onMemory u.host.newScope u =
        (.ok ⟨u.memory.scopes.size⟩, { u with memory }) := by
      simp only [onMemory, Step.on]
      rw [hscope]
    have hopened : u.opened m.path =
        { u with memory, frame := .top m.path ⟨u.memory.scopes.size⟩ } := by
      simp only [Machine.opened]
      rw [hscope]
    rw [hstart, Step.bind_run_ok hrun, hopened]
    exact Step.bind_run_ok hmemory _
  | error e => exact .inr ⟨.error e, by simp, by rw [hstart, Step.bind_run_error hrun]⟩
  | exhausted => exact .inr ⟨.exhausted, by simp, by rw [hstart, Step.bind_run, hrun]⟩

/-! ## The end of a pass -/

theorem settle_of_breaking {s : Machine} (h : s.frame.signals.breaking = true) :
    settle s = (.ok true,
      { s with frame := { s.frame with signals := { s.frame.signals with breaking := false } } }) := by
  simp [settle, h]

theorem settle_of_not_breaking {s : Machine} (h : s.frame.signals.breaking = false) :
    settle s = (.ok s.frame.signals.returning,
      { s with frame := { s.frame with signals := { s.frame.signals with continuing := false } } }) := by
  simp [settle, h]

namespace Regime

variable (r : Regime) {s t u : Machine} {n : Nat}

/-- `t` is a state of a run of another build file that was opened from `s`. -/
def Abroad (s t : Machine) : Prop :=
  r.inv t ∧ ∃ (u : Machine) (module : String), s.Beside u ∧ r.executed (u.opened module) t

theorem Abroad.executed {r : Regime} (h : r.Abroad s t) (hu : r.inv u) (htu : r.executed t u) :
    r.Abroad s u := by
  obtain ⟨-, w, module, hbeside, hwt⟩ := h
  exact ⟨hu, w, module, hbeside, r.executed_trans hwt htu⟩

theorem Abroad.home {r : Regime} (h : r.Abroad s t) (hs : r.inv s) :
    r.inv { t with frame := s.frame } ∧ r.evaluated s { t with frame := s.frame } := by
  obtain ⟨ht, u, module, hbeside, hut⟩ := h
  obtain ⟨hu, hsu⟩ := r.aside hs hbeside
  obtain ⟨hback, hrel⟩ := r.closed hu ht hut
  rw [hbeside.frame] at hback hrel
  exact ⟨hback, r.evaluated_trans hsu hrel⟩

/-- What a run of another build file keeps to: with the frame put back, all is as after an
evaluation. -/
def homeward (s : Machine) : Step.Law Machine where
  inv t := r.inv { t with frame := s.frame } ∧ r.evaluated s { t with frame := s.frame }
  rel _ _ := True
  refl _ := trivial
  trans _ _ := trivial

theorem homeward_of_beside (hs : r.inv s) (h : s.Beside t) : (r.homeward s).inv t := by
  have hsame : { t with frame := s.frame } = t := by rw [← h.frame]
  show r.inv { t with frame := s.frame } ∧ r.evaluated s { t with frame := s.frame }
  rw [hsame]
  exact r.aside hs h

theorem homeward_of_executing {α : Type} {m : Action α} {P : α → Machine → Prop}
    (h : m.Obeys r.executing t P) (hs : r.inv s) (habroad : r.Abroad s t) :
    m.Obeys (r.homeward s) t fun a u => P a u ∧ r.Abroad s u := by
  have hend : r.Abroad s (m t).2 := habroad.executed h.inv h.rel
  exact ⟨hend.home hs, trivial, fun a ha => ⟨h.value a ha, hend⟩⟩

/-! ## One more level of depth -/

/-- What the functions of the evaluator keep to with one bound on the depth. -/
structure Kept (n : Nat) : Prop where
  eval : ∀ {s} e, r.inv s → r.Yields s (eval n e)
  evalCell : ∀ {s} e, r.inv s → (evalCell n e).Obeys r.evaluating s fun c t => r.owns t c
  enter : ∀ {s values} f, r.inv s → (∀ v ∈ values, r.holds s.memory v) →
    r.Yields s (enter n f values)
  exec : ∀ {s} stmt, r.inv s → (exec n stmt).Obeys r.executing s fun _ _ => True
  iterate : ∀ {s} cond next body, r.inv s →
    (iterate n cond next body).Obeys r.executing s fun _ _ => True
  visit : ∀ {s a} i name body, r.inv s → r.holds s.memory (.array a) →
    (visit n a i name body).Obeys r.executing s fun _ _ => True
  loadInto : ∀ {s} path targets, r.inv s →
    (loadInto n path targets).Obeys r.executing s fun _ _ => True
  start : ∀ {s} m cwd, r.inv s → (start n m cwd).Obeys (r.homeward s) s fun _ t => r.Abroad s t
  runTarget : ∀ {s} m name params, r.inv s → r.Yields s (runTarget n m name params)
  invoke : ∀ {s} path target params, r.inv s → r.Yields s (invoke n path target params)
  subrun : ∀ {s} values, r.inv s → r.Yields s (subrun n values)

variable {r}

theorem kept_zero : r.Kept 0 where
  eval _ hs := .stuck hs
  evalCell _ hs := .stuck hs
  enter _ hs _ := .stuck hs
  exec _ hs := .stuck hs
  iterate _ _ _ hs := .stuck hs
  visit _ _ _ hs _ := .stuck hs
  loadInto _ _ hs := .stuck hs
  start _ _ hs := .stuck ⟨hs, r.evaluated_refl _⟩
  runTarget _ _ _ hs := .stuck hs
  invoke _ _ _ hs := .stuck hs
  subrun _ hs := .stuck hs

theorem Kept.arguments (h : r.Kept n) (args : List Expr) (hs : r.inv s) :
    (Step.each (Kiln.eval n) args).Obeys r.evaluating s
      fun values t => ∀ v ∈ values, r.holds t.memory v :=
  .each hs (fun _ _ _ htu hv => r.holds_mono (r.executed_of_evaluated htu) hv)
    fun e _ _ ht _ => h.eval e ht

theorem Kept.eval_succ (h : r.Kept n) (e : Expr) (hs : r.inv s) : r.Yields s (Kiln.eval (n + 1) e) := by
  cases e with
  | const value => cases value <;> exact .pure hs (r.holds_scalar trivial)
  | var name =>
    refine (Step.Idle.look _).obeys hs fun v hv => ?_
    cases hv
    exact r.holds_var name hs
  | array elements => exact (h.arguments elements hs).bind fun vs t ht _ hvs => r.newArray ht hvs
  | dict pairs =>
    refine Step.Obeys.bind (P := fun entries t => ∀ p ∈ entries, r.holds t.memory p.2) ?_
      fun entries t ht _ hentries => r.newDict ht hentries
    refine .each hs (fun _ _ _ htu hv => r.holds_mono (r.executed_of_evaluated htu) hv) ?_
    intro pair _ t ht _
    refine (h.eval pair.1 ht).bind fun k t₁ ht₁ _ _ => ?_
    refine (idle_textOf k).obeys_bind ht₁ fun key _ => ?_
    exact (h.eval pair.2 ht₁).bind fun v t₂ ht₂ _ hv => .pure ht₂ hv
  | unary op arg =>
    refine (h.eval arg hs).bind fun v t ht _ _ => .pure ht (r.holds_scalar ?_)
    cases op <;> trivial
  | bump op side arg =>
    refine (h.evalCell arg hs).bind fun c t ht _ hc => ?_
    refine (Step.Idle.look _).obeys_bind ht fun old hold => ?_
    cases hold
    refine (r.write ht hc (r.holds_scalar (v := .int _) trivial)).bind fun _ u hu htu _ => ?_
    cases side with
    | before => exact .pure hu (r.holds_scalar (v := .int _) trivial)
    | after => exact .pure hu (r.holds_mono (r.executed_of_evaluated htu) (r.holds_read ht hc))
  | binary op left right =>
    have happly : r.Yields s (Kiln.eval n left >>= fun a => Kiln.eval n right >>= fun b => op.apply a b) := by
      refine (h.eval left hs).bind fun a t ht _ ha => ?_
      refine (h.eval right ht).bind fun b u hu htu hb => ?_
      exact r.yields_apply op hu (r.holds_mono (r.executed_of_evaluated htu) ha) hb
    cases op with
    | assign =>
      refine (h.evalCell left hs).bind fun c t ht _ hc => ?_
      refine (h.eval right ht).bind fun v u hu htu hv => ?_
      have hc' := r.owns_mono (r.executed_of_evaluated htu) hc
      refine (r.write hu hc' hv).bind fun _ w hw huw _ => ?_
      exact .pure hw (r.holds_mono (r.executed_of_evaluated huw) hv)
    | _ => exact happly
  | ternary cond yes no =>
    refine (h.eval cond hs).bind fun c t ht _ _ => ?_
    split
    · exact h.eval yes ht
    · exact h.eval no ht
  | builtin fn args =>
    have hcall : r.Yields s (Step.each (Kiln.eval n) args >>= fun values => fn.call values) :=
      (h.arguments args hs).bind fun values t ht _ hvalues => r.yields_call fn values ht hvalues
    cases fn with
    | subrun => exact (h.arguments args hs).bind fun values t ht _ _ => h.subrun values ht
    | _ => exact hcall
  | call name args =>
    refine (idle_function name).obeys_bind hs fun f _ => ?_
    split
    · exact .fault hs
    · exact (h.arguments args hs).bind fun values t ht _ hvalues => h.enter f ht hvalues

theorem Kept.evalCell_succ (h : r.Kept n) (e : Expr) (hs : r.inv s) :
    (Kiln.evalCell (n + 1) e).Obeys r.evaluating s fun c t => r.owns t c := by
  cases e with
  | var name =>
    refine (Step.Idle.look _).obeys_bind hs fun scope hscope => ?_
    cases hscope
    exact r.varCell name hs
  | binary op left right =>
    cases op with
    | subscript =>
      refine (h.eval left hs).bind fun a t ht _ ha => ?_
      refine (h.eval right ht).bind fun i u hu htu _ => ?_
      exact r.owns_subscriptCell i hu (r.holds_mono (r.executed_of_evaluated htu) ha)
    | _ => exact .fault hs
  | _ => exact .fault hs

theorem Kept.enter_succ (h : r.Kept n) (f : Function) {values : List Value} (hs : r.inv s)
    (hvalues : ∀ v ∈ values, r.holds s.memory v) : r.Yields s (Kiln.enter (n + 1) f values) := by
  have hbody := h.exec f.body (r.entered f hs hvalues)
  have hback := r.left hs hvalues hbody.inv hbody.rel
  have hresult := r.holds_result hbody.inv
  refine ⟨?_, ?_, fun v hv => ?_⟩
  · rw [enter_end]
    exact hback.1
  · rw [enter_end]
    exact hback.2
  · rw [enter_end, ← enter_value hv]
    exact hresult

theorem obeys_changeSignals {f : Signals → Signals} (hs : r.inv s)
    (hf : r.holds s.memory (f s.frame.signals).result) :
    (changeSignals f).Obeys r.executing s fun _ _ => True :=
  have h := r.signals hs hf
  .change h.1 h.2

theorem obeys_settle (hs : r.inv s) : settle.Obeys r.executing s fun _ _ => True := by
  have hend : r.inv (settle s).2 ∧ r.executed s (settle s).2 := by
    cases hbreaking : s.frame.signals.breaking with
    | true =>
      rw [settle_of_breaking hbreaking]
      exact r.signals hs (r.holds_result hs)
    | false =>
      rw [settle_of_not_breaking hbreaking]
      exact r.signals hs (r.holds_result hs)
  exact ⟨hend.1, hend.2, fun _ _ => trivial⟩

theorem obeys_setVar {v : Value} (name : String) (hs : r.inv s) (hv : r.holds s.memory v) :
    (Action.setVar name v).Obeys r.executing s fun _ _ => True := by
  refine r.executing_of_evaluating ((Step.Idle.look _).obeys_bind hs fun scope hscope => ?_)
  cases hscope
  exact r.setVar name hs hv

/-- One pass of a loop over a container: the variable is set, and the body executed. -/
theorem Kept.pass (h : r.Kept n) {v : Value} (name : String) (body : Stmt) (hs : r.inv s)
    (hv : r.holds s.memory v) :
    (Action.setVar name v >>= fun _ => Kiln.exec n body >>= fun _ => settle).Obeys r.executing s
      fun _ _ => True :=
  (obeys_setVar name hs hv).bind fun _ _ ht _ _ =>
    (h.exec body ht).bind fun _ _ hu _ _ => obeys_settle hu

theorem obeys_keepingDirectory {α : Type} {m : Action α}
    (h : m.Obeys r.executing s fun _ _ => True) :
    (Interpreter.keepingDirectory m).Obeys r.executing s fun _ _ => True := by
  refine Step.Obeys.restoring h (fun t ht hst => ?_) fun _ _ _ _ _ => trivial
  obtain ⟨hback, hrel⟩ :=
    r.aside (t := { t with run := { t.run with cwd := s.run.cwd } }) ht ⟨rfl, rfl, rfl, rfl⟩
  exact ⟨hback, r.executed_trans hst (r.executed_of_evaluated hrel)⟩

theorem Kept.exec_succ (h : r.Kept n) (stmt : Stmt) (hs : r.inv s) :
    (Kiln.exec (n + 1) stmt).Obeys r.executing s fun _ _ => True := by
  have heval {s : Machine} (e : Expr) (hs : r.inv s) := r.executing_of_evaluating (h.eval e hs)
  refine Step.Obeys.mapError ?_
  cases stmt with
  | expr loc e => exact (heval e hs).bind fun _ t ht _ _ => .pure ht trivial
  | block loc body =>
    refine obeys_keepingDirectory (.eachUntil hs fun s' _ t ht _ => ?_)
    exact (h.exec s' ht).bind fun _ u hu _ _ => (Step.Idle.look _).obeys hu fun _ _ => trivial
  | branch loc cond yes no =>
    refine (heval cond hs).bind fun c t ht _ _ => ?_
    split
    · exact h.exec yes ht
    · cases no with
      | some s' => exact h.exec s' ht
      | none => exact .pure ht trivial
  | loop loc init cond next body =>
    cases init with
    | some e => exact (heval e hs).bind fun _ t ht _ _ => h.iterate cond next body ht
    | none => exact h.iterate cond next body hs
  | foreach loc name items body =>
    refine (heval items hs).bind fun collection t ht _ hcollection => ?_
    have honce : (Action.setVar name collection >>= fun _ => Kiln.exec n body >>= fun _ =>
        changeSignals fun s => { s with breaking := false, continuing := false }).Obeys r.executing t
          fun _ _ => True :=
      (obeys_setVar name ht hcollection).bind fun _ u hu _ _ =>
        (h.exec body hu).bind fun _ w hw _ _ => obeys_changeSignals hw (r.holds_result hw)
    cases collection with
    | dict d =>
      refine (Step.Idle.look _).obeys_bind ht fun keys _ => .eachUntil ht fun key _ u hu _ => ?_
      exact h.pass name body hu (r.holds_scalar trivial)
    | array a => exact h.visit 0 name body ht hcollection
    | _ => exact honce
  | breakStmt loc => exact obeys_changeSignals hs (r.holds_result hs)
  | continueStmt loc => exact obeys_changeSignals hs (r.holds_result hs)
  | returnStmt loc value =>
    cases value with
    | some e => exact (heval e hs).bind fun v t ht _ hv => obeys_changeSignals ht hv
    | none => exact obeys_changeSignals hs (r.holds_scalar trivial)
  | depends loc paths action =>
    refine (heval paths hs).bind fun listed t ht _ _ => ?_
    refine (Step.Idle.look _).obeys_bind ht fun values _ => ?_
    refine (idle_textsOf values).obeys_bind ht fun texts _ => ?_
    refine (Step.Idle.look id).obeys_bind ht fun machine _ => ?_
    refine (Step.Idle.ofOutcome _).obeys_bind ht fun code _ => ?_
    refine (r.executing_of_evaluating (r.obeys_of_aside (.onStore _) ht)).bind fun hit u hu _ _ => ?_
    split
    · exact .pure hu trivial
    · refine (h.exec action hu).bind fun _ w hw _ _ => ?_
      exact (r.executing_of_evaluating (r.obeys_of_aside (.onStore _) hw)).mono fun _ _ _ _ _ => trivial
  | includeStmt loc path =>
    refine (heval path hs).bind fun v t ht _ _ => (idle_textOf v).obeys_bind ht fun text _ => ?_
    refine (Step.Idle.look _).obeys_bind ht fun path _ => (Step.Idle.look id).obeys_bind ht fun machine _ => ?_
    split
    · exact .pure ht trivial
    · exact h.loadInto path true ht
  | usingStmt loc path =>
    refine (heval path hs).bind fun v t ht _ _ => (idle_textOf v).obeys_bind ht fun text _ => ?_
    refine (Step.Idle.look _).obeys_bind ht fun path _ => (Step.Idle.look id).obeys_bind ht fun machine _ => ?_
    split
    · exact .pure ht trivial
    · have hmove := Aside.change (f := fun s : Machine =>
        { s with session := { s.session with store := s.session.store.moveTo path } })
        fun _ => ⟨rfl, rfl, rfl, rfl⟩
      refine (r.executing_of_evaluating (r.obeys_of_aside hmove ht)).bind fun _ u hu _ _ => ?_
      refine obeys_keepingDirectory ?_
      refine (r.executing_of_evaluating (r.obeys_of_aside (.changeRun _) hu)).bind fun _ w hw _ _ => ?_
      exact h.loadInto path false hw

/-- A pass of a loop that goes on, and what comes after it. -/
theorem Kept.goesOn (h : r.Kept n) (body : Stmt) {again : Action Unit} (hs : r.inv s)
    (hagain : ∀ t, r.inv t → r.executed s t → again.Obeys r.executing t fun _ _ => True) :
    (Interpreter.pass (Kiln.exec n body) again).Obeys r.executing s fun _ _ => True := by
  refine (h.exec body hs).bind fun _ t ht hst _ => (obeys_settle ht).bind fun stop u hu htu _ => ?_
  split
  · exact .pure hu trivial
  · exact hagain u hu (r.executed_trans hst htu)

theorem Kept.iterate_succ (h : r.Kept n) (cond next : Option Expr) (body : Stmt) (hs : r.inv s) :
    (Kiln.iterate (n + 1) cond next body).Obeys r.executing s fun _ _ => True := by
  have heval {s : Machine} (e : Expr) (hs : r.inv s) := r.executing_of_evaluating (h.eval e hs)
  have hagain (t : Machine) (ht : r.inv t) : Step.Obeys r.executing t
      (Interpreter.onward (next.map (Kiln.eval n)) (Kiln.iterate n cond next body)) fun _ _ => True := by
    cases next with
    | some e => exact (heval e ht).bind fun _ u hu _ _ => h.iterate cond (some e) body hu
    | none => exact h.iterate cond none body ht
  cases cond with
  | some e =>
    refine (heval e hs).bind fun v t ht _ _ => ?_
    show Step.Obeys _ _ (if !v.isTrue then return () else _) _
    split
    · exact .pure ht trivial
    · exact h.goesOn body ht fun u hu _ => hagain u hu
  | none => exact h.goesOn body hs fun u hu _ => hagain u hu

theorem Kept.visit_succ (h : r.Kept n) {a : ArrayId} (i : Nat) (name : String) (body : Stmt)
    (hs : r.inv s) (ha : r.holds s.memory (.array a)) :
    (Kiln.visit (n + 1) a i name body).Obeys r.executing s fun _ _ => True := by
  refine (Step.Idle.look id).obeys_bind hs fun machine _ => ?_
  split
  · refine (r.executing_of_evaluating (r.yields_index _ hs ha)).bind fun v t ht hst hv => ?_
    refine (obeys_setVar name ht hv).bind fun _ u hu htu _ => h.goesOn body hu fun w hw huw => ?_
    have htw := r.executed_trans htu huw
    exact h.visit (i + 1) name body hw (r.holds_mono (r.executed_trans hst htw) ha)
  · exact .pure hs trivial

theorem Kept.loadInto_succ (h : r.Kept n) (path : String) (targets : Bool) (hs : r.inv s) :
    (Kiln.loadInto (n + 1) path targets).Obeys r.executing s fun _ _ => True := by
  refine (idle_load path).obeys_bind hs fun m _ => ?_
  refine (r.executing_of_evaluating (r.obeys_of_aside (.addIncluded _) hs)).bind fun _ t ht _ _ => ?_
  refine (r.executing_of_evaluating (r.obeys_of_aside (.addFunctions _) ht)).bind fun _ u hu _ _ => ?_
  exact .forAll hu fun stmt _ w hw _ => h.exec stmt hw

theorem Kept.start_succ (h : r.Kept n) (m : Module) (cwd : String) (hs : r.inv s) :
    (Kiln.start (n + 1) m cwd).Obeys (r.homeward s) s fun _ t => r.Abroad s t := by
  obtain ⟨u, hbeside, hrun | ⟨o, ho, hrun⟩⟩ := start_run n m cwd s
  · obtain ⟨hu, -⟩ := r.aside hs hbeside
    have hopened := r.opened m.path hu
    have habroad : r.Abroad s (u.opened m.path) :=
      ⟨hopened, u, m.path, hbeside, r.executed_of_evaluated (r.evaluated_refl _)⟩
    have hbody : (Step.forAll (Kiln.exec n) m.body).Obeys r.executing (u.opened m.path)
        fun _ _ => True := .forAll hopened fun stmt _ w hw _ => h.exec stmt hw
    refine Step.Obeys.of_run_eq ?_ trivial hrun
    exact (r.homeward_of_executing hbody hs habroad).mono fun _ _ _ _ hend => hend.2
  · refine ⟨?_, trivial, fun a ha => ?_⟩
    · rw [hrun]
      exact r.homeward_of_beside hs hbeside
    · rw [hrun] at ha
      exact absurd ha (ho a)

theorem Kept.runTarget_succ (h : r.Kept n) (m : Module) (name : String) (params : List String)
    (hs : r.inv s) : r.Yields s (Kiln.runTarget (n + 1) m name params) := by
  unfold Kiln.runTarget Interpreter.runTarget
  split
  · exact .fault hs
  · split
    · exact .fault hs
    · have hparams : ∀ v ∈ params.map Value.str, r.holds s.memory v := by
        intro v hv
        obtain ⟨p, -, rfl⟩ := List.mem_map.mp hv
        exact r.holds_scalar trivial
      refine (h.enter _ hs hparams).bind fun v t ht _ hv => ?_
      split
      · refine (Step.Idle.look _).obeys_bind ht fun module _ => ?_
        refine (r.obeys_of_aside (.onStore _) ht).bind fun _ u hu _ hmemory => ?_
        exact .pure hu (hmemory ▸ hv)
      · exact .pure ht hv

theorem Kept.invoke_succ (h : r.Kept n) (path : String) (target : Option String)
    (params : List String) (hs : r.inv s) :
    r.Yields s (Kiln.invoke (n + 1) path target params) := by
  have hhome : r.inv { s with frame := s.frame } ∧ r.evaluated s { s with frame := s.frame } :=
    ⟨hs, r.evaluated_refl s⟩
  have hback {m : Action Value}
      (hm : m.Obeys (r.homeward s) s fun v t => r.holds t.memory v) : r.Yields s (Interpreter.keepingRun m) := by
    refine hm.restoring (fun t ht _ => ?_) fun v t _ _ hv => hv
    obtain ⟨hinv, hrel⟩ := ht
    have hrun := r.aside (t := { t with run := s.run, frame := s.frame }) hinv ⟨rfl, rfl, rfl, rfl⟩
    exact ⟨hrun.1, r.evaluated_trans hrel hrun.2⟩
  refine hback ?_
  refine (idle_load path).obeys_bind hhome fun m _ => ?_
  refine (h.start m _ hs).bind fun _ t ht _ habroad => ?_
  split
  · rename_i name _
    have htarget := r.executing_of_evaluating (h.runTarget m name params habroad.1)
    exact (r.homeward_of_executing htarget hs habroad).mono fun _ _ _ _ hend => hend.1
  · exact .pure ht (r.holds_scalar trivial)

theorem Kept.subrun_succ (h : r.Kept n) (values : List Value) (hs : r.inv s) :
    r.Yields s (Kiln.subrun (n + 1) values) := by
  refine (idle_textsOf values).obeys_bind hs fun texts _ => ?_
  refine (Step.Idle.look _).obeys_bind hs fun path _ => ?_
  refine (Step.Idle.look _).obeys_bind hs fun isDir _ => ?_
  exact h.invoke _ _ _ hs

variable (r)

/-- Evaluation keeps to every regime. -/
theorem kept (n : Nat) : r.Kept n := by
  induction n with
  | zero => exact kept_zero
  | succ n ih =>
    exact {
      eval := fun e hs => ih.eval_succ e hs
      evalCell := fun e hs => ih.evalCell_succ e hs
      enter := fun f hs hvalues => ih.enter_succ f hs hvalues
      exec := fun stmt hs => ih.exec_succ stmt hs
      iterate := fun cond next body hs => ih.iterate_succ cond next body hs
      visit := fun i name body hs ha => ih.visit_succ i name body hs ha
      loadInto := fun path targets hs => ih.loadInto_succ path targets hs
      start := fun m cwd hs => ih.start_succ m cwd hs
      runTarget := fun m name params hs => ih.runTarget_succ m name params hs
      invoke := fun path target params hs => ih.invoke_succ path target params hs
      subrun := fun values hs => ih.subrun_succ values hs }

end Regime

end Kiln
