import Kiln.Proofs.Eval.Course
import Kiln.Proofs.Eval.Evaluator

/-!
# Kiln.Proofs.Eval.Recount — every run takes a course

By induction on the bound of depth, every function of the evaluator takes a course whose moments are
those that are recorded.  Loading a module is stated apart: whether the module is loaded already is
checked where it is included or used, and a build file starts in a run in which nothing is loaded.
-/

namespace Kiln

open Kiln.Action

/-- A module is taken over, and its top level is executed. -/
def Loads (s : Machine) (path : String) (targets : Bool) (es : List Moment) (t : Machine) : Prop :=
  ∃ es₁ u es₂, Loading s path targets es₁ u ∧ Course u es₂ t ∧ es = es₁ ++ es₂

/-- The module at a path is made the one that runs, in a fresh run, and its top level is executed. -/
def Starts (s : Machine) (path cwd : String) (es : List Moment) (t : Machine) : Prop :=
  ∃ fs, Loads (s.beginning cwd) path true fs t ∧ es = .here (.reaches (s.beginning cwd)) :: fs

theorem Loads.append {s t u : Machine} {path : String} {targets : Bool} {es fs : List Moment}
    (h : Loads s path targets es t) (h' : Course t fs u) : Loads s path targets (es ++ fs) u := by
  obtain ⟨es₁, v, es₂, hloading, hbody, rfl⟩ := h
  exact ⟨es₁, v, es₂ ++ fs, hloading, .append hbody h', List.append_assoc _ _ _⟩

theorem Starts.append {s t u : Machine} {path cwd : String} {es fs : List Moment}
    (h : Starts s path cwd es t) (h' : Course t fs u) : Starts s path cwd (es ++ fs) u := by
  obtain ⟨es₁, hloads, rfl⟩ := h
  exact ⟨es₁ ++ fs, hloads.append h', rfl⟩

/-- With one bound on the depth, every function of the evaluator takes the course that is recorded
of it. -/
structure Recounted (n : Nat) : Prop where
  eval : ∀ {s : Machine} (e : Expr), Follows s (Chronicle.eval n e) (Kiln.eval n e)
  evalCell : ∀ {s : Machine} (e : Expr), Follows s (Chronicle.evalCell n e) (Kiln.evalCell n e)
  enter : ∀ {s : Machine} (f : Function) (values : List Value),
    Follows s (Chronicle.enter n f values) (Kiln.enter n f values)
  exec : ∀ {s : Machine} (stmt : Stmt), Follows s (Chronicle.exec n stmt) (Kiln.exec n stmt)
  iterate : ∀ {s : Machine} (cond next : Option Expr) (body : Stmt),
    Follows s (Chronicle.iterate n cond next body) (Kiln.iterate n cond next body)
  visit : ∀ {s : Machine} (a : ArrayId) (i : Nat) (name : String) (body : Stmt),
    Follows s (Chronicle.visit n a i name body) (Kiln.visit n a i name body)
  loadInto : ∀ {s : Machine} (path : String) (targets : Bool),
    s.run.included.contains path = false →
      Recounts (Loads s path targets) s (Chronicle.loadInto n path targets)
        (Kiln.loadInto n path targets)
  start : ∀ {s : Machine} (m : Module) (cwd : String), n = 0 ∨
    Recounts (Starts s m.path cwd) s (Chronicle.start n m cwd) (Kiln.start n m cwd)
  runTarget : ∀ {s : Machine} (m : Module) (name : String) (params : List String),
    Follows s (Chronicle.runTarget n m name params) (Kiln.runTarget n m name params)
  invoke : ∀ {s : Machine} (text : String) {path : String} (target : Option String)
    (params : List String),
    path = s.run.resolve text ∨ path = Path.join (s.run.resolve text) "lickable" →
      Follows s (Chronicle.invoke n path target params) (Kiln.invoke n path target params)
  subrun : ∀ {s : Machine} (values : List Value),
    Follows s (Chronicle.subrun n values) (Kiln.subrun n values)

namespace Recounted

variable {n : Nat} {s : Machine}

theorem zero : Recounted 0 where
  eval _ := .stuck
  evalCell _ := .stuck
  enter _ _ := .stuck
  exec _ := .stuck
  iterate _ _ _ := .stuck
  visit _ _ _ _ := .stuck
  loadInto _ _ _ := .still ⟨[], _, [], .unread, .refl _, rfl⟩ rfl fun _ => rfl
  start _ _ := .inl rfl
  runTarget _ _ _ := .stuck
  invoke _ _ _ _ _ := .stuck
  subrun _ := .stuck

theorem eval_succ (h : Recounted n) (e : Expr) :
    Follows s (Chronicle.eval (n + 1) e) (Kiln.eval (n + 1) e) := by
  have hargs {s : Machine} (args : List Expr) :
      Follows s (.each (Chronicle.eval n) args) (.each (Kiln.eval n) args) :=
    .each (fun e _ => h.eval e) args
  cases e with
  | const value => cases value <;> exact .pure _
  | var name => exact .act (.look _)
  | array elements => exact (hargs elements).bind fun values _ _ => .act (.onMemory _)
  | dict pairs =>
    refine Follows.bind (.each (fun pair t => ?_) pairs) fun entries _ _ => .act (.onMemory _)
    refine (h.eval pair.1).bind fun k _ _ => Follows.bind (.act (.textOf k)) fun key _ _ => ?_
    exact (h.eval pair.2).bind fun _ _ _ => .pure _
  | unary op arg => exact (h.eval arg).bind fun _ _ _ => .pure _
  | bump op side arg =>
    refine (h.evalCell arg).bind fun c t _ => .look ?_
    refine Follows.bind (.act (.onMemory _)) fun _ _ _ => ?_
    cases side <;> exact .pure _
  | binary op left right =>
    have happly : Follows s (Chronicle.eval n left >>= fun a => Chronicle.eval n right >>= fun b =>
        Chronicle.act (op.apply a b))
        (Kiln.eval n left >>= fun a => Kiln.eval n right >>= fun b => op.apply a b) :=
      (h.eval left).bind fun a _ _ => (h.eval right).bind fun b _ _ => .act (op.quiet_apply a b)
    cases op with
    | assign =>
      refine (h.evalCell left).bind fun c _ _ => (h.eval right).bind fun v _ _ => ?_
      exact Follows.bind (.act (.onMemory _)) fun _ _ _ => .pure v
    | _ => exact happly
  | ternary cond yes no =>
    refine (h.eval cond).bind fun c _ _ => ?_
    split
    · exact h.eval yes
    · exact h.eval no
  | builtin fn args =>
    have hquiet (hfn : fn ≠ .cd) : Follows s
        (Step.each (Chronicle.eval n) args >>= fun values => Chronicle.act (fn.call values))
        (Step.each (Kiln.eval n) args >>= fun values => fn.call values) :=
      (hargs args).bind fun values _ _ => .act (Builtin.quiet_call hfn values)
    cases fn with
    | cd => exact (hargs args).bind fun values _ _ => Follows.cd values
    | subrun => exact (hargs args).bind fun values _ _ => h.subrun values
    | _ => exact hquiet (by simp)
  | call name args =>
    refine .peek (idle_function name) (.refl s) fun f _ => ?_
    split
    · exact Follows.fault _
    · exact (hargs args).bind fun values _ _ => h.enter f values

theorem evalCell_succ (h : Recounted n) (e : Expr) :
    Follows s (Chronicle.evalCell (n + 1) e) (Kiln.evalCell (n + 1) e) := by
  cases e with
  | var name => exact .look (Follows.act (.onMemory _))
  | binary op left right =>
    cases op with
    | subscript =>
      exact (h.eval left).bind fun container _ _ => (h.eval right).bind fun i _ _ =>
        .act (quiet_subscriptCell container i)
    | _ => exact .fault _
  | _ => exact .fault _

theorem enter_succ (h : Recounted n) (f : Function) (values : List Value) :
    Follows s (Chronicle.enter (n + 1) f values) (Kiln.enter (n + 1) f values) := by
  refine Follows.keepingFrame (.look ?_)
  refine Follows.bind (.act (.onMemory _)) fun scope _ _ => ?_
  refine Follows.bind (.act (.onMemory _)) fun _ _ _ => ?_
  refine Follows.bind (.act (.change fun _ => ⟨rfl, rfl⟩)) fun _ _ _ => ?_
  exact (h.exec f.body).bind fun _ t _ => .still (.refl t) rfl fun _ => rfl

/-- A module that is not loaded yet is used. -/
theorem using_new (h : Recounted n) (text : String) {path : String}
    (hpath : path = s.run.resolve text) (hnew : s.run.included.contains path = false) :
    Follows s (Interpreter.usingModule path (Chronicle.loadInto n path false))
      (Interpreter.usingModule path (Kiln.loadInto n path false)) := by
  let below := (s.movingStore path).inDirectory (Path.directory path)
  have hload := h.loadInto (s := below) path false hnew
  refine .noting_bind (.change (.restoring (P := fun es t => ∃ fs, Loads below path false fs t ∧
    es = (.here (.reaches below) :: fs).map (.within (.used path))) ?_ ?_))
  · exact .used (.change (hload.mono fun fs t hfs => ⟨fs, hfs, rfl⟩))
  · rintro es t ⟨fs, ⟨es₁, u, es₂, hloading, hbody, rfl⟩, rfl⟩
    exact .uses text hpath hnew hloading hbody

theorem exec_succ (h : Recounted n) (stmt : Stmt) :
    Follows s (Chronicle.exec (n + 1) stmt) (Kiln.exec (n + 1) stmt) := by
  have hsignals {s : Machine} (f : Signals → Signals) :
      Follows s (Chronicle.act (changeSignals f)) (changeSignals f) := .act (.changeSignals f)
  refine .mapError ?_
  cases stmt with
  | expr loc e => exact (h.eval e).bind fun _ _ _ => Follows.pure ()
  | block loc body =>
    refine Follows.keepingDirectory (.eachUntil (fun stmt t => ?_) body)
    exact (h.exec stmt).bind fun _ t _ => .still (.refl t) rfl fun _ => rfl
  | branch loc cond yes no =>
    refine (h.eval cond).bind fun c _ _ => ?_
    split
    · exact h.exec yes
    · cases no with
      | some no => exact h.exec no
      | none => exact Follows.pure ()
  | loop loc init cond next body =>
    cases init with
    | some e => exact (h.eval e).bind fun _ _ _ => h.iterate cond next body
    | none => exact h.iterate cond next body
  | foreach loc name items body =>
    refine (h.eval items).bind fun collection t _ => ?_
    have honce (v : Value) : Follows t
        (Chronicle.act (setVar name v) >>= fun _ => Chronicle.exec n body >>= fun _ =>
          Chronicle.act (changeSignals fun s => { s with breaking := false, continuing := false }))
        (setVar name v >>= fun _ => Kiln.exec n body >>= fun _ =>
          changeSignals fun s => { s with breaking := false, continuing := false }) :=
      Follows.bind (.act (.setVar name v)) fun _ _ _ => (h.exec body).bind fun _ _ _ => hsignals _
    cases collection with
    | dict d =>
      refine .look (Follows.eachUntil (fun key u => ?_) _)
      refine Follows.bind (.act (.setVar name _)) fun _ _ _ => ?_
      exact (h.exec body).bind fun _ _ _ => Follows.act quiet_settle
    | array a => exact h.visit a 0 name body
    | void => exact honce _
    | int i => exact honce _
    | str s => exact honce _
  | breakStmt loc => exact hsignals _
  | continueStmt loc => exact hsignals _
  | returnStmt loc value =>
    cases value with
    | some e => exact (h.eval e).bind fun v _ _ => hsignals _
    | none => exact hsignals _
  | depends loc paths action =>
    refine (h.eval paths).bind fun listed _ _ => Follows.bind (.act (.look _)) fun values _ _ => ?_
    refine Follows.bind (.act (.textsOf values)) fun texts t _ => .state ?_
    refine Follows.bind (.ofOutcome _) fun code _ _ => ?_
    refine Follows.bind (.onStore fun _ => Store.standing_contains _ _ _) fun upToDate _ _ => ?_
    split
    · exact Follows.pure ()
    · exact (h.exec action).bind fun _ _ _ => Follows.onStore fun _ => Store.standing_add _ _ _
  | includeStmt loc path =>
    refine (h.eval path).bind fun v _ _ => Follows.bind (.act (.textOf v)) fun text t _ => ?_
    refine Follows.sees (fun s => s.run.resolve text) (.state ?_)
    split
    · exact Follows.pure ()
    · rename_i hnew
      refine (h.loadInto _ true (by simpa using hnew)).mono ?_
      rintro es w ⟨es₁, v, es₂, hloading, hbody, rfl⟩
      exact .append (.includes text hloading) hbody
  | usingStmt loc path =>
    refine (h.eval path).bind fun v _ _ => Follows.bind (.act (.textOf v)) fun text t _ => ?_
    refine Follows.sees (fun s => s.run.resolve text) (.state ?_)
    split
    · exact Follows.pure ()
    · rename_i hnew
      exact h.using_new text rfl (by simpa using hnew)

theorem pass (h : Recounted n) (body : Stmt) {c : Chronicle Unit} {m : Action Unit}
    (hagain : ∀ t, Follows t c m) :
    Follows s (Interpreter.pass (Chronicle.exec n body) c) (Interpreter.pass (Kiln.exec n body) m) := by
  refine (h.exec body).bind fun _ _ _ => Follows.bind (.act quiet_settle) fun stop t _ => ?_
  split
  · exact Follows.pure ()
  · exact hagain t

theorem iterate_succ (h : Recounted n) (cond next : Option Expr) (body : Stmt) :
    Follows s (Chronicle.iterate (n + 1) cond next body) (Kiln.iterate (n + 1) cond next body) := by
  have hagain (t : Machine) : Follows t
      (Interpreter.onward (next.map (Chronicle.eval n)) (Chronicle.iterate n cond next body))
      (Interpreter.onward (next.map (Kiln.eval n)) (Kiln.iterate n cond next body)) := by
    cases next with
    | some e => exact (h.eval e).bind fun _ _ _ => h.iterate cond (some e) body
    | none => exact h.iterate cond none body
  cases cond with
  | some e =>
    refine (h.eval e).bind fun v t _ => ?_
    show Follows t (if !v.isTrue then return () else _) (if !v.isTrue then return () else _)
    split
    · exact Follows.pure ()
    · exact h.pass body hagain
  | none => exact h.pass body hagain

theorem visit_succ (h : Recounted n) (a : ArrayId) (i : Nat) (name : String) (body : Stmt) :
    Follows s (Chronicle.visit (n + 1) a i name body) (Kiln.visit (n + 1) a i name body) := by
  refine .state ?_
  split
  · refine Follows.bind (.act (.onMemory _)) fun v _ _ => ?_
    refine Follows.bind (.act (.setVar name v)) fun _ _ _ => ?_
    exact h.pass body fun _ => h.visit a (i + 1) name body
  · exact Follows.pure ()

theorem loadInto_succ (h : Recounted n) (path : String) (targets : Bool)
    (hnew : s.run.included.contains path = false) :
    Recounts (Loads s path targets) s (Chronicle.loadInto (n + 1) path targets)
      (Kiln.loadInto (n + 1) path targets) := by
  refine .peek (idle_load path) ⟨[], s, [], .unread, .refl s, rfl⟩ fun m hload => ?_
  obtain rfl := path_of_load hload
  refine .takeOver hnew (fun es t hes => ⟨es, t, [], hes, .refl t, by simp⟩) fun es t hes => ?_
  have hbody : Follows t (.forAll (Chronicle.exec n) m.body) (.forAll (Kiln.exec n) m.body) :=
    .forAll (fun stmt _ => h.exec stmt) m.body
  exact hbody.mono fun fs u hfs => ⟨es, t, fs, hes, hfs, rfl⟩

theorem start_succ (h : Recounted n) (m : Module) (cwd : String) :
    Recounts (Starts s m.path cwd) s (Chronicle.start (n + 1) m cwd) (Kiln.start (n + 1) m cwd) := by
  refine .change (Recounts.mono (P := Loads (s.beginning cwd) m.path true) ?_
    fun fs t hfs => ⟨fs, hfs, rfl⟩)
  refine .takeOver rfl (fun es t hes => ⟨es, t, [], hes, .refl t, by simp⟩) fun es t hes => ?_
  refine Recounts.mono (P := Course t) ?_ fun fs u hfs => ⟨es, t, fs, hes, hfs, rfl⟩
  refine .look (Follows.bind (.act (.onMemory _)) fun scope _ _ => ?_)
  refine Follows.bind (.act (.change fun _ => ⟨rfl, rfl⟩)) fun _ _ _ => ?_
  exact Follows.forAll (fun stmt _ => h.exec stmt) m.body

theorem runTarget_succ (h : Recounted n) (m : Module) (name : String) (params : List String) :
    Follows s (Chronicle.runTarget (n + 1) m name params) (Kiln.runTarget (n + 1) m name params) := by
  unfold Chronicle.runTarget Kiln.runTarget Interpreter.runTarget
  cases m.functions.get? name with
  | none => exact Follows.fault _
  | some f =>
    dsimp only
    split
    · exact Follows.fault _
    · refine (h.enter _ _).bind fun v _ _ => ?_
      split
      · refine .look (Follows.bind (.onStore fun _ => Store.standing_clear _) fun _ _ _ => ?_)
        exact Follows.pure v
      · exact Follows.pure v

theorem invoke_succ (h : Recounted n) (text : String) {path : String} (target : Option String)
    (params : List String)
    (hpath : path = s.run.resolve text ∨ path = Path.join (s.run.resolve text) "lickable") :
    Follows s (Chronicle.invoke (n + 1) path target params)
      (Kiln.invoke (n + 1) path target params) := by
  -- Nothing happens if the build file cannot be read or the bound is too small.
  have hstill : Course s ([] ++ [.here (.reaches s)]) s := .quiet (.refl s)
  refine Recounts.keepingRun (P := fun es t => (es = [] ∧ t = s) ∨
    ∃ fs, Starts s path (Path.directory path) fs t ∧ es = fs.map (.within (.ran path))) ?_ ?_
  · refine .peek (idle_load path) (.inl ⟨rfl, rfl⟩) fun m hload => .ran ?_
    obtain rfl := path_of_load hload
    rcases h.start (s := s) m (Path.directory m.path) with rfl | hstart
    · exact .still (.inl ⟨rfl, rfl⟩) rfl fun _ => rfl
    · refine hstart.bind (fun es t hes => .inr ⟨es, hes, rfl⟩) fun _ t es _ hes => ?_
      refine Recounts.mono (P := Course t) ?_ fun fs u hfs => .inr ⟨es ++ fs, hes.append hfs, rfl⟩
      cases target.or m.defaultTarget? with
      | some name => exact h.runTarget m name params
      | none => exact Follows.pure _
  · rintro es t (⟨rfl, rfl⟩ | ⟨_, ⟨_, ⟨es₁, u, es₂, hloading, hbody, rfl⟩, rfl⟩, rfl⟩)
    · exact hstill
    · exact .runs text hpath hloading hbody

theorem subrun_succ (h : Recounted n) (values : List Value) :
    Follows s (Chronicle.subrun (n + 1) values) (Kiln.subrun (n + 1) values) := by
  refine Follows.bind (.act (.textsOf values)) fun texts t _ => ?_
  refine Follows.sees (fun s => s.run.resolve (texts.headD "")) (.look ?_)
  refine h.invoke (texts.headD "") _ _ ?_
  split
  · exact .inr rfl
  · exact .inl rfl

end Recounted

theorem recounted (n : Nat) : Recounted n := by
  induction n with
  | zero => exact .zero
  | succ n ih =>
    exact {
      eval := ih.eval_succ
      evalCell := ih.evalCell_succ
      enter := ih.enter_succ
      exec := ih.exec_succ
      iterate := ih.iterate_succ
      visit := ih.visit_succ
      loadInto := ih.loadInto_succ
      start := fun m cwd => .inr (ih.start_succ m cwd)
      runTarget := ih.runTarget_succ
      invoke := ih.invoke_succ
      subrun := ih.subrun_succ }

/-! ## The run of a root module -/

theorem recounts_wholeRun (n : Nat) (m : Module) (cwd : String)
    (calls : List (String × List String)) (s : Machine) :
    n = 0 ∨ Recounts (Starts s m.path cwd) s (Chronicle.wholeRun n m cwd calls)
      (wholeRun n m cwd calls) := by
  rcases (recounted n).start (s := s) m cwd with rfl | hstart
  · exact .inl rfl
  refine .inr (hstart.bind (fun _ _ hes => hes) fun _ t es _ hes => ?_)
  have hcalls : Follows t
      (.forAll (fun call => .attempt (Chronicle.runTarget n m call.1 call.2)) calls)
      (.forAll (fun call => .attempt (runTarget n m call.1 call.2)) calls) :=
    .forAll (fun call _ => .attempt ((recounted n).runTarget m call.1 call.2)) calls
  exact hcalls.mono fun fs u hfs => hes.append hfs

/-- The recorded run of a root module is the plain one: it ends in the same way and in the same
state, and its moments are there besides. -/
theorem wholeRun_of_chronicle (n : Nat) (m : Module) (cwd : String)
    (calls : List (String × List String)) (s : Machine) :
    Chronicle.wholeRun n m cwd calls ⟨s, []⟩ =
      ((wholeRun n m cwd calls s).1, ⟨(wholeRun n m cwd calls s).2, moments n m cwd calls s⟩) := by
  rcases recounts_wholeRun n m cwd calls s with rfl | ⟨es, -, hrun⟩
  · rfl
  · have hmoments : moments n m cwd calls s = es := by rw [moments, hrun]; rfl
    rw [hmoments, hrun]
    rfl

/-- The moments of the run of a root module: a fresh run begins, the module is taken over, and then
the run takes its course. -/
theorem course_wholeRun (n : Nat) (m : Module) (cwd : String) (calls : List (String × List String))
    (s : Machine) : moments n m cwd calls s = [] ∨
      ∃ t es fs, Loading (s.beginning cwd) m.path true es t ∧
        Course t fs (wholeRun n m cwd calls s).2 ∧
        moments n m cwd calls s = .here (.reaches (s.beginning cwd)) :: (es ++ fs) := by
  rcases recounts_wholeRun n m cwd calls s with rfl | ⟨es, hes, hrun⟩
  · exact .inl rfl
  · have hmoments : moments n m cwd calls s = es := by rw [moments, hrun]; rfl
    obtain ⟨_, ⟨es₁, t, es₂, hloading, hbody, rfl⟩, rfl⟩ := hes
    exact .inr ⟨t, es₁, es₂, hloading, hbody, hmoments⟩

end Kiln
