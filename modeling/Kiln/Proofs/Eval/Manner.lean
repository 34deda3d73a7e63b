import Kiln.Proofs.Eval.Account
import Kiln.Proofs.Eval.Bare

/-!
# Kiln.Proofs.Eval.Manner — what the accounts of all runs have in common

A manner is a property of computations with an account that is kept however they are put together:
one for what happens while expressions are evaluated, one for what happens while statements are
executed.  By induction on the bound of depth, every function of the evaluator runs in every manner.
-/

namespace Kiln

open Kiln.Action Step

/-- Two properties of computations with an account: of those that evaluate, and of those that
execute. -/
structure Manner where
  evaluates : {α : Type} → Account α → Prop
  executes : {α : Type} → Account α → Prop
  /-- What is not noted raises bare errors only. -/
  silent {α : Type} {m : Action α} : m.Bare → evaluates (Account.silent m)
  bind {α β : Type} {m : Account α} {f : α → Account β} :
    evaluates m → (∀ a, evaluates (f a)) → evaluates (m >>= f)
  inside {α : Type} {m : Account α} : executes m → evaluates (Account.inside m)
  restoring {α τ : Type} {save : Machine → τ} {restore : τ → Machine → Machine} {m : Account α} :
    evaluates m → evaluates (Account.restoring save restore m)
  /-- To evaluate is one way to execute. -/
  evaluation {α : Type} {m : Account α} : evaluates m → executes m
  sequel {α β : Type} {m : Account α} {f : α → Account β} :
    executes m → (∀ a, executes (f a)) → executes (m >>= f)
  goingBack {α τ : Type} {save : Machine → τ} {restore : τ → Machine → Machine} {m : Account α} :
    executes m → executes (Account.restoring save restore m)
  executing {stmt : Stmt} {m : Account Unit} : executes m → executes (Account.executing stmt m)
  returned (v : Value) : executes (Account.note (.returned v))
  proceeds : executes (Account.note .proceeds)

namespace Manner

variable (M : Manner) {α β : Type} {n : Nat}

/-! ## Ways to put computations together -/

theorem pure (a : α) : M.evaluates (pure a) := M.silent (.pure a)

theorem each {f : α → Account β} (hf : ∀ a, M.evaluates (f a)) :
    ∀ as, M.evaluates (Step.each f as)
  | [] => M.pure []
  | a :: as => M.bind (hf a) fun _ => M.bind (each hf as) fun _ => M.pure _

theorem forAll {f : α → Account Unit} (hf : ∀ a, M.executes (f a)) :
    ∀ as, M.executes (Step.forAll f as)
  | [] => M.evaluation (M.pure ())
  | a :: as => M.sequel (hf a) fun _ => forAll hf as

theorem eachUntil {f : α → Account Bool} (hf : ∀ a, M.executes (f a)) :
    ∀ as, M.executes (Step.eachUntil f as)
  | [] => M.evaluation (M.pure ())
  | a :: as => M.sequel (hf a) fun stop => by
    cases stop with
    | true => exact M.evaluation (M.pure ())
    | false => exact eachUntil hf as

theorem onMemory {m : Step Memory α} (h : Bare m) :
    M.evaluates (Account.silent (Action.onMemory m)) :=
  M.silent (bare_onMemory h)

theorem onStore {m : Shelving α} (h : Bare m) :
    M.evaluates (Account.silent (Action.onStore m)) :=
  M.silent (bare_onStore h)

theorem look (f : Machine → α) : M.evaluates (Account.silent (.look f)) := M.silent (.look f)

theorem change (f : Machine → Machine) : M.evaluates (Account.silent (.change f)) := M.silent (.change f)

/-- A part that evaluates, and then execution. -/
theorem after {m : Account α} {f : α → Account β} (hm : M.evaluates m)
    (hf : ∀ a, M.executes (f a)) : M.executes (m >>= f) :=
  M.sequel (M.evaluation hm) hf

/-- Whatever the evaluator does at a moment, what it goes on with is executed. -/
theorem mark (w : Mark) {m : Account α} (h : M.executes m) :
    M.executes (Interpreter.mark w m) := by
  cases w with
  | returns v => exact M.sequel (M.returned v) fun _ => h
  | proceeds => exact M.sequel M.proceeds fun _ => h
  | _ => exact h

/-! ## The evaluator -/

/-- With one bound on the depth, every function of the evaluator runs in the manner. -/
structure Kept (n : Nat) : Prop where
  eval : ∀ e, M.evaluates (Account.eval n e)
  evalCell : ∀ e, M.evaluates (Account.evalCell n e)
  enter : ∀ f values, M.executes (Account.enter n f values)
  exec : ∀ stmt, M.executes (Account.exec n stmt)
  iterate : ∀ cond next body, M.executes (Account.iterate n cond next body)
  visit : ∀ a i name body, M.executes (Account.visit n a i name body)
  loadInto : ∀ path targets, M.executes (Account.loadInto n path targets)
  start : ∀ m cwd, M.executes (Account.start n m cwd)
  runTarget : ∀ m name params, M.evaluates (Account.runTarget n m name params)
  invoke : ∀ path target params, M.evaluates (Account.invoke n path target params)
  subrun : ∀ values, M.evaluates (Account.subrun n values)

namespace Kept

variable {M}

theorem zero : Kept M 0 := by
  constructor <;> intros <;> first
    | exact M.silent .stuck
    | exact M.evaluation (M.silent .stuck)

theorem eval_succ (h : Kept M n) (e : Expr) : M.evaluates (Account.eval (n + 1) e) := by
  have hargs (args : List Expr) : M.evaluates (Step.each (Account.eval n) args) :=
    M.each h.eval args
  cases e with
  | const value => cases value <;> exact M.pure _
  | var name => exact M.look _
  | array elements => exact M.bind (hargs elements) fun vs => M.onMemory (Memory.bare_newArray vs)
  | dict pairs =>
    refine M.bind (M.each (fun pair => ?_) pairs) fun entries =>
      M.onMemory (Memory.bare_newDict entries)
    refine M.bind (h.eval pair.1) fun k => M.bind (M.silent (Action.bare_textOf k)) fun key => ?_
    exact M.bind (h.eval pair.2) fun _ => M.pure _
  | unary op arg => exact M.bind (h.eval arg) fun _ => M.pure _
  | bump op side arg =>
    refine M.bind (h.evalCell arg) fun c => M.bind (M.look _) fun old => ?_
    refine M.bind (M.onMemory (.change _)) fun _ => ?_
    cases side <;> exact M.pure _
  | binary op left right =>
    cases op with
    | assign =>
      refine M.bind (h.evalCell left) fun c => M.bind (h.eval right) fun v => ?_
      exact M.bind (M.onMemory (.change _)) fun _ => M.pure v
    | _ =>
      exact M.bind (h.eval left) fun a => M.bind (h.eval right) fun b =>
        M.silent (BinaryOp.bare_apply _ a b)
  | ternary cond yes no =>
    refine M.bind (h.eval cond) fun c => ?_
    split
    · exact h.eval yes
    · exact h.eval no
  | builtin fn args =>
    cases fn with
    | subrun => exact M.bind (hargs args) h.subrun
    | _ => exact M.bind (hargs args) fun vs => M.silent (Builtin.bare_call _ vs)
  | call name args =>
    refine M.bind (M.silent (bare_function name)) fun f => ?_
    split
    · exact M.silent (.fault _)
    · exact M.bind (hargs args) fun vs => M.inside (h.enter f vs)

theorem evalCell_succ (h : Kept M n) (e : Expr) : M.evaluates (Account.evalCell (n + 1) e) := by
  cases e with
  | var name => exact M.bind (M.look _) fun scope => M.onMemory (Memory.bare_varCell scope name)
  | binary op left right =>
    cases op with
    | subscript =>
      exact M.bind (h.eval left) fun container => M.bind (h.eval right) fun i =>
        M.silent (bare_subscriptCell container i)
    | _ => exact M.silent (.fault _)
  | _ => exact M.silent (.fault _)

theorem enter_succ (h : Kept M n) (f : Function) (values : List Value) :
    M.executes (Account.enter (n + 1) f values) := by
  have hparams (scope : ScopeId) :
      Bare (Step.forAll (fun p => Memory.setVar scope p.1 p.2) (f.params.zip values)) :=
    .forAll (fun p => Memory.bare_setVar _ _ _) _
  show M.executes (Interpreter.keepingFrame _)
  refine M.goingBack (M.after (M.look _) fun outer => ?_)
  refine M.after (M.onMemory (.of_ok fun m => ⟨_, rfl⟩)) fun scope => ?_
  refine M.after (M.onMemory (hparams scope)) fun _ => M.after (M.change _) fun _ => ?_
  exact M.sequel (h.exec f.body) fun _ => M.evaluation (M.look _)

theorem exec_succ (h : Kept M n) (stmt : Stmt) : M.executes (Account.exec (n + 1) stmt) := by
  have hdone : M.executes (Pure.pure () : Account Unit) := M.evaluation (M.pure ())
  have hsignals (f : Signals → Signals) :
      M.executes (Account.silent (changeSignals f)) := M.evaluation (M.silent (.change _))
  refine M.executing ?_
  cases stmt with
  | expr loc e => exact M.after (h.eval e) fun _ => hdone
  | block loc body =>
    refine M.goingBack (M.eachUntil (fun s => ?_) body)
    exact M.sequel (h.exec s) fun _ => M.evaluation (M.look _)
  | branch loc cond yes no =>
    refine M.after (h.eval cond) fun c => ?_
    split
    · exact h.exec yes
    · cases no with
      | some no => exact h.exec no
      | none => exact hdone
  | loop loc init cond next body =>
    cases init with
    | some e => exact M.after (h.eval e) fun _ => h.iterate cond next body
    | none => exact h.iterate cond next body
  | foreach loc name items body =>
    refine M.after (h.eval items) fun collection => ?_
    have hscalar (v : Value) : M.executes (do
        Account.silent (setVar name v)
        Account.exec n body
        Account.silent (changeSignals fun s => { s with breaking := false, continuing := false })) :=
      M.after (M.silent (Action.bare_setVar name v)) fun _ => M.sequel (h.exec body) fun _ => hsignals _
    cases collection with
    | array a => exact h.visit a 0 name body
    | dict d =>
      refine M.after (M.look _) fun keys => M.eachUntil (fun key => ?_) keys
      refine M.after (M.silent (Action.bare_setVar name _)) fun _ => ?_
      exact M.sequel (h.exec body) fun _ => M.evaluation (M.silent bare_settle)
    | void => exact hscalar _
    | int i => exact hscalar _
    | str s => exact hscalar _
  | breakStmt loc => exact hsignals _
  | continueStmt loc => exact hsignals _
  | returnStmt loc value =>
    cases value with
    | some e => exact M.after (h.eval e) fun v => M.mark (.returns v) (hsignals _)
    | none => exact M.mark (.returns .void) (hsignals _)
  | depends loc paths action =>
    refine M.after (h.eval paths) fun listed => M.after (M.look _) fun values => ?_
    refine M.after (M.silent (bare_textsOf values)) fun texts => ?_
    refine M.after (M.silent .state) fun s => ?_
    refine M.after (M.silent (.ofOutcome (Fingerprint.bare_stmt action))) fun code => ?_
    refine M.after (M.onStore (Store.bare_contains _ _ _)) fun upToDate => ?_
    split
    · exact hdone
    · exact M.sequel (h.exec action) fun _ => M.evaluation (M.onStore (Store.bare_add _ _ _))
  | includeStmt loc path =>
    refine M.after (h.eval path) fun v => M.after (M.silent (Action.bare_textOf v)) fun text => ?_
    refine M.after (M.look _) fun path => M.after (M.silent .state) fun s => ?_
    split
    · exact hdone
    · exact h.loadInto path true
  | usingStmt loc path =>
    refine M.after (h.eval path) fun v => M.after (M.silent (Action.bare_textOf v)) fun text => ?_
    refine M.after (M.look _) fun path => M.after (M.silent .state) fun s => ?_
    split
    · exact hdone
    · refine M.after (M.change _) fun _ => M.goingBack ?_
      exact M.after (M.silent (.change _)) fun _ => h.loadInto path false

theorem pass (h : Kept M n) (body : Stmt) {again : Account Unit} (hagain : M.executes again) :
    M.executes (Interpreter.pass (Account.exec n body) again) := by
  refine M.sequel (h.exec body) fun _ => M.after (M.silent bare_settle) fun stop => ?_
  split
  · exact M.evaluation (M.pure ())
  · exact hagain

theorem iterate_succ (h : Kept M n) (cond next : Option Expr) (body : Stmt) :
    M.executes (Account.iterate (n + 1) cond next body) := by
  have hagain : M.executes
      (Interpreter.onward (next.map (Account.eval n)) (Account.iterate n cond next body)) := by
    cases next with
    | some e => exact M.after (h.eval e) fun _ => h.iterate cond (some e) body
    | none => exact h.iterate cond none body
  cases cond with
  | some e =>
    refine M.after (h.eval e) fun v => ?_
    show M.executes (if !v.isTrue then return () else _)
    split
    · exact M.evaluation (M.pure ())
    · exact h.pass body hagain
  | none => exact h.pass body hagain

theorem visit_succ (h : Kept M n) (a : ArrayId) (i : Nat) (name : String) (body : Stmt) :
    M.executes (Account.visit (n + 1) a i name body) := by
  refine M.after (M.silent .state) fun s => ?_
  split
  · refine M.after (M.onMemory (Memory.bare_index _ _)) fun v => ?_
    refine M.after (M.silent (Action.bare_setVar name v)) fun _ => ?_
    exact h.pass body (h.visit a (i + 1) name body)
  · exact M.evaluation (M.pure ())

theorem topLevel (h : Kept M n) (m : Module) :
    M.executes (Interpreter.topLevel (Account.exec n) m) :=
  M.forAll (fun stmt => M.mark .proceeds (h.exec stmt)) m.body

theorem loadInto_succ (h : Kept M n) (path : String) (targets : Bool) :
    M.executes (Account.loadInto (n + 1) path targets) := by
  refine M.after (M.silent (bare_load path)) fun m => M.after (M.silent (.change _)) fun _ => ?_
  exact M.after (M.silent (bare_addFunctions _)) fun _ => h.topLevel m

theorem start_succ (h : Kept M n) (m : Module) (cwd : String) :
    M.executes (Account.start (n + 1) m cwd) := by
  refine M.after (M.silent (.change _)) fun _ => M.after (M.silent (.change _)) fun _ => ?_
  refine M.after (M.silent (bare_addFunctions _)) fun _ => M.mark (.starts m.path) ?_
  refine M.after (M.look _) fun host => M.after (M.onMemory host.bare_newScope) fun scope => ?_
  exact M.after (M.change _) fun _ => h.topLevel m

theorem runTarget_succ (h : Kept M n) (m : Module) (name : String) (params : List String) :
    M.evaluates (Account.runTarget (n + 1) m name params) := by
  unfold Account.runTarget Interpreter.runTarget
  split
  · exact M.silent (.fault _)
  · split
    · exact M.silent (.fault _)
    · refine M.bind (M.inside (h.enter _ _)) fun v => ?_
      split
      · refine M.bind (M.look _) fun module => ?_
        exact M.bind (M.onStore (Store.bare_clear module)) fun _ => M.pure v
      · exact M.pure v

theorem invoke_succ (h : Kept M n) (path : String) (target : Option String)
    (params : List String) : M.evaluates (Account.invoke (n + 1) path target params) := by
  show M.evaluates (Interpreter.keepingRun _)
  refine M.restoring (M.bind (M.silent (bare_load path)) fun m => ?_)
  refine M.bind (M.inside (h.start m _)) fun _ => ?_
  split
  · exact h.runTarget m _ params
  · exact M.pure _

theorem subrun_succ (h : Kept M n) (values : List Value) :
    M.evaluates (Account.subrun (n + 1) values) := by
  refine M.bind (M.silent (bare_textsOf values)) fun texts => M.bind (M.look _) fun path => ?_
  exact M.bind (M.look _) fun isDir => h.invoke _ _ _

end Kept

/-- Every run is in the manner. -/
theorem kept (n : Nat) : M.Kept n := by
  induction n with
  | zero => exact .zero
  | succ n ih =>
    exact {
      eval := ih.eval_succ
      evalCell := ih.evalCell_succ
      enter := ih.enter_succ
      exec := ih.exec_succ
      iterate := ih.iterate_succ
      visit := ih.visit_succ
      loadInto := ih.loadInto_succ
      start := ih.start_succ
      runTarget := ih.runTarget_succ
      invoke := ih.invoke_succ
      subrun := ih.subrun_succ }

end Manner

end Kiln
