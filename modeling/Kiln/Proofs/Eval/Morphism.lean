import Kiln.Eval

/-!
# Kiln.Proofs.Eval.Morphism — from one interpreter to another

A map between the computations of two interpreters that keeps every operation of an interpreter takes
the evaluator to the evaluator.  So what an interpreter adds to the plain run of a script can be left
out again, if there is such a map that leaves it out.
-/

namespace Kiln.Interpreter

/-- A map that keeps every operation of an interpreter. -/
structure Morphism (C D : Type → Type) [Monad C] [Interpreter C] [Monad D] [Interpreter D] where
  map {α : Type} : C α → D α
  map_pure {α : Type} (a : α) : map (pure a) = pure a
  map_bind {α β : Type} (c : C α) (k : α → C β) : map (c >>= k) = map c >>= fun a => map (k a)
  map_act {α : Type} (m : Action α) : map (act m) = act m
  map_peek {α : Type} (m : Action α) : map (peek m) = peek m
  map_restoring {α τ : Type} (save : Machine → τ) (restore : τ → Machine → Machine) (c : C α) :
    map (restoring save restore c) = restoring save restore (map c)
  map_execution (stmt : Stmt) (c : C Unit) : map (execution stmt c) = execution stmt (map c)
  map_mark {α : Type} (w : Mark) (c : C α) : map (mark w c) = mark w (map c)
  map_within {α : Type} (p : Setting) (c : C α) : map (within p c) = within p (map c)

namespace Morphism

attribute [simp] map_pure map_bind map_act map_peek map_restoring map_execution map_mark map_within

variable {C D : Type → Type} [Monad C] [Interpreter C] [Monad D] [Interpreter D]
variable (T : Morphism C D) {α β : Type} {n : Nat}

/-! ## What the operations make up -/

@[simp] theorem map_ite (p : Prop) [Decidable p] (a b : C α) :
    T.map (if p then a else b) = if p then T.map a else T.map b := by
  split <;> rfl

@[simp] theorem map_each (f : α → C β) (as : List α) :
    T.map (Step.each f as) = Step.each (fun a => T.map (f a)) as := by
  induction as with
  | nil => exact T.map_pure _
  | cons a as ih => simp [Step.each, ih]

@[simp] theorem map_forAll (f : α → C Unit) (as : List α) :
    T.map (Step.forAll f as) = Step.forAll (fun a => T.map (f a)) as := by
  induction as with
  | nil => exact T.map_pure _
  | cons a as ih => simp [Step.forAll, ih]

@[simp] theorem map_eachUntil (f : α → C Bool) (as : List α) :
    T.map (Step.eachUntil f as) = Step.eachUntil (fun a => T.map (f a)) as := by
  induction as with
  | nil => exact T.map_pure _
  | cons a as ih => simp [Step.eachUntil, ih]

@[simp] theorem map_pass (body again : C Unit) :
    T.map (pass body again) = pass (T.map body) (T.map again) := by
  simp [pass]

@[simp] theorem map_onward (update : Option (C Value)) (next : C Unit) :
    T.map (onward update next) = onward (update.map T.map) (T.map next) := by
  cases update <;> simp [onward]

@[simp] theorem map_usingModule (path : String) (loading : C Unit) :
    T.map (usingModule path loading) = usingModule path (T.map loading) := by
  simp [usingModule]

@[simp] theorem map_takeOver (path : String) (m : Module) (targets : Bool) (starting : C Unit) :
    T.map (takeOver path m targets starting) = takeOver path m targets (T.map starting) := by
  simp [takeOver]

@[simp] theorem map_topLevel (execute : Stmt → C Unit) (m : Module) :
    T.map (topLevel execute m) = topLevel (fun stmt => T.map (execute stmt)) m := by
  simp [topLevel]

/-! ## The evaluator -/

/-- With one bound on the depth, every function of the evaluator is taken to itself. -/
structure Kept (n : Nat) : Prop where
  eval : ∀ e, T.map (eval n e) = eval n e
  evalCell : ∀ e, T.map (evalCell n e) = evalCell n e
  enter : ∀ f values, T.map (enter n f values) = enter n f values
  exec : ∀ stmt, T.map (exec n stmt) = exec n stmt
  iterate : ∀ cond next body, T.map (iterate n cond next body) = iterate n cond next body
  visit : ∀ a i name body, T.map (visit n a i name body) = visit n a i name body
  loadInto : ∀ path targets, T.map (loadInto n path targets) = loadInto n path targets
  start : ∀ m cwd, T.map (start n m cwd) = start n m cwd
  runTarget : ∀ m name params, T.map (runTarget n m name params) = runTarget n m name params
  invoke : ∀ path target params, T.map (invoke n path target params) = invoke n path target params
  subrun : ∀ values, T.map (subrun n values) = subrun n values

namespace Kept

variable {T}

theorem zero : T.Kept 0 := by
  constructor <;> intros <;> exact T.map_peek _

theorem eval_succ (h : T.Kept n) (e : Expr) :
    T.map (Interpreter.eval (n + 1) e) = Interpreter.eval (n + 1) e := by
  cases e with
  | const value => cases value <;> exact T.map_pure _
  | var name => exact T.map_act _
  | array elements => simp [Interpreter.eval, h.eval]
  | dict pairs => simp [Interpreter.eval, h.eval]
  | unary op arg => simp [Interpreter.eval, h.eval]
  | bump op side arg => cases side <;> simp [Interpreter.eval, h.evalCell]
  | binary op left right => cases op <;> simp [Interpreter.eval, h.eval, h.evalCell]
  | ternary cond yes no => simp [Interpreter.eval, h.eval]
  | builtin fn args => cases fn <;> simp [Interpreter.eval, h.eval, h.subrun]
  | call name args => simp [Interpreter.eval, h.eval, h.enter]

theorem evalCell_succ (h : T.Kept n) (e : Expr) :
    T.map (Interpreter.evalCell (n + 1) e) = Interpreter.evalCell (n + 1) e := by
  cases e with
  | binary op left right => cases op <;> simp [Interpreter.evalCell, h.eval]
  | _ => simp [Interpreter.evalCell]

theorem enter_succ (h : T.Kept n) (f : Function) (values : List Value) :
    T.map (Interpreter.enter (n + 1) f values) = Interpreter.enter (n + 1) f values := by
  simp [Interpreter.enter, h.exec]

theorem exec_succ (h : T.Kept n) (stmt : Stmt) :
    T.map (Interpreter.exec (n + 1) stmt) = Interpreter.exec (n + 1) stmt := by
  refine (T.map_execution stmt _).trans (congrArg (execution stmt) ?_)
  cases stmt with
  | expr loc e => simp [h.eval]
  | block loc body => simp [h.exec]
  | branch loc cond yes no => cases no <;> simp [h.eval, h.exec]
  | loop loc init cond next body => cases init <;> simp [h.eval, h.iterate]
  | foreach loc name items body =>
    simp only [map_bind, h.eval]
    congr 1
    funext collection
    cases collection <;> simp [h.exec, h.visit]
  | breakStmt loc => exact T.map_act _
  | continueStmt loc => exact T.map_act _
  | returnStmt loc value => cases value <;> simp [h.eval]
  | depends loc paths action => simp [h.eval, h.exec]
  | includeStmt loc path => simp [h.eval, h.loadInto]
  | usingStmt loc path => simp [h.eval, h.loadInto]

theorem iterate_succ (h : T.Kept n) (cond next : Option Expr) (body : Stmt) :
    T.map (Interpreter.iterate (n + 1) cond next body) =
      Interpreter.iterate (n + 1) cond next body := by
  cases cond <;> cases next <;> simp [Interpreter.iterate, h.eval, h.exec, h.iterate]

theorem visit_succ (h : T.Kept n) (a : ArrayId) (i : Nat) (name : String) (body : Stmt) :
    T.map (Interpreter.visit (n + 1) a i name body) = Interpreter.visit (n + 1) a i name body := by
  simp [Interpreter.visit, h.exec, h.visit]

theorem loadInto_succ (h : T.Kept n) (path : String) (targets : Bool) :
    T.map (Interpreter.loadInto (n + 1) path targets) =
      Interpreter.loadInto (n + 1) path targets := by
  simp [Interpreter.loadInto, h.exec]

theorem start_succ (h : T.Kept n) (m : Module) (cwd : String) :
    T.map (Interpreter.start (n + 1) m cwd) = Interpreter.start (n + 1) m cwd := by
  simp [Interpreter.start, h.exec]

theorem runTarget_succ (h : T.Kept n) (m : Module) (name : String) (params : List String) :
    T.map (Interpreter.runTarget (n + 1) m name params) =
      Interpreter.runTarget (n + 1) m name params := by
  unfold Interpreter.runTarget
  cases m.functions.get? name <;> simp [h.enter]

theorem invoke_succ (h : T.Kept n) (path : String) (target : Option String)
    (params : List String) :
    T.map (Interpreter.invoke (n + 1) path target params) =
      Interpreter.invoke (n + 1) path target params := by
  simp only [Interpreter.invoke, map_restoring, map_bind, map_peek, map_within, h.start]
  congr 2
  funext m
  congr 2
  funext _
  cases target.or m.defaultTarget? with
  | some name => exact h.runTarget m name params
  | none => exact T.map_pure _

theorem subrun_succ (h : T.Kept n) (values : List Value) :
    T.map (Interpreter.subrun (n + 1) values) = Interpreter.subrun (n + 1) values := by
  simp [Interpreter.subrun, h.invoke]

end Kept

/-- The evaluator is the same for every interpreter, up to the maps between them. -/
theorem kept (n : Nat) : T.Kept n := by
  induction n with
  | zero => exact .zero
  | succ n ih =>
    exact {
      eval := ih.eval_succ
      evalCell := ih.evalCell_succ
      enter := ih.enter_succ
      exec := ih.exec_succ
      iterate := ih.iterate_succ
      visit := ih.visit_succ
      loadInto := ih.loadInto_succ
      start := ih.start_succ
      runTarget := ih.runTarget_succ
      invoke := ih.invoke_succ
      subrun := ih.subrun_succ }

end Morphism

end Kiln.Interpreter
