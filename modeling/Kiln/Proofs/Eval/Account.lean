import Kiln.Proofs.Eval.Morphism
import Kiln.Proofs.Law

/-!
# Kiln.Proofs.Eval.Account — what happens in a run, in order

An interpreter that keeps an account of the statements it executes.  An execution is noted when it
begins and when it has ended well; nothing is noted after an error, so the account of a run that fails
ends where the error was raised.  What happens in another activation (the call of a function, or the
top level of another build file) is `within` for the one that started it.

To leave the account out is a map to the plain run of a script: `Account.run_exec` and its companions
say so of the functions of the evaluator.
-/

namespace Kiln

open Kiln.Action

/-- What is noted of a run. -/
inductive Occurrence where
  /-- The execution of a statement begins. -/
  | begins (stmt : Stmt)
  /-- The execution of a statement has ended well. -/
  | ends (stmt : Stmt)
  /-- A `return` with a value has taken effect. -/
  | returned (v : Value)
  /-- The top level of a module goes on to its next statement. -/
  | proceeds
  /-- Something happens in an activation that was started from this one. -/
  | within (e : Occurrence)

/-- A computation of a running script that accounts for what happens. -/
def Account (α : Type) : Type := Machine → List Occurrence × Outcome α × Machine

namespace Account

variable {α β τ : Type}

/-! ## Computations with an account -/

/-- A computation in which nothing happens that is noted. -/
def silent (m : Action α) : Account α := fun s => ([], m s)

/-- Runs `m`, then `f` on its value. -/
def andThen (m : Account α) (f : α → Account β) : Account β := fun s =>
  match m s with
  | (es, .ok a, t) => (es ++ (f a t).1, (f a t).2)
  | (es, .error e, t) => (es, .error e, t)
  | (es, .exhausted, t) => (es, .exhausted, t)

instance : Monad Account where
  pure a := silent (pure a)
  bind := andThen

section

variable {m : Account α} {s t : Machine} {es : List Occurrence} (f : α → Account β)

theorem bind_of_ok {a : α} (h : m s = (es, .ok a, t)) :
    (m >>= f) s = (es ++ (f a t).1, (f a t).2) := by
  show andThen m f s = _
  rw [andThen, h]

theorem bind_of_error {e : Error} (h : m s = (es, .error e, t)) :
    (m >>= f) s = (es, .error e, t) := by
  show andThen m f s = _
  rw [andThen, h]

theorem bind_of_exhausted (h : m s = (es, .exhausted, t)) :
    (m >>= f) s = (es, .exhausted, t) := by
  show andThen m f s = _
  rw [andThen, h]

end

/-- Notes an event. -/
def note (e : Occurrence) : Account Unit := fun s => ([e], .ok (), s)

/-- The same computation in an activation of its own. -/
def inside (m : Account α) : Account α := fun s => ((m s).1.map .within, (m s).2)

/-- Runs `m` and rewords its error. -/
def mapError (f : Error → Error) (m : Account α) : Account α := fun s =>
  ((m s).1, Step.mapError f (fun _ => (m s).2) s)

/-- An execution of a statement, noted when it begins and when it has ended well. -/
def executing (stmt : Stmt) (m : Account Unit) : Account Unit := do
  note (.begins stmt)
  mapError (Error.locate stmt.location) m
  note (.ends stmt)

theorem executing_run (stmt : Stmt) (m : Account Unit) (s : Machine) :
    executing stmt m s = match m s with
      | (es, .ok _, t) => (.begins stmt :: es ++ [.ends stmt], .ok (), t)
      | (es, .error e, t) => (.begins stmt :: es, .error (e.locate stmt.location), t)
      | (es, .exhausted, t) => (.begins stmt :: es, .exhausted, t) := by
  show andThen (note (.begins stmt)) (fun _ => andThen (mapError _ m) fun _ => note (.ends stmt)) s = _
  simp only [andThen, note, mapError, Step.mapError]
  rcases m s with ⟨es, o, t⟩
  cases o <;> rfl

/-- Runs `m` and then puts a part of the state back as it was before, however `m` ended. -/
def restoring (save : Machine → τ) (restore : τ → Machine → Machine) (m : Account α) : Account α :=
  fun s => ((m s).1, (m s).2.1, restore (save s) (m s).2.2)

/-- What is noted of what the evaluator does: that a `return` takes effect, and that a top level goes
on. -/
def marking : Mark → Account α → Account α
  | .returns v, m => do
    note (.returned v)
    m
  | .proceeds, m => do
    note .proceeds
    m
  | _, m => m

/-- Only what happens in an activation of its own is told apart. -/
def lying : Setting → Account α → Account α
  | .activation, m => inside m
  | _, m => m

instance : Interpreter Account where
  act := silent
  peek := silent
  restoring := restoring
  execution := executing
  mark := marking
  within := lying

/-! ## The evaluator -/

/-- The value of an expression. -/
def eval (n : Nat) (e : Expr) : Account Value := Interpreter.eval n e

/-- The cell an assignment to an expression writes. -/
def evalCell (n : Nat) (e : Expr) : Account CellId := Interpreter.evalCell n e

/-- Runs the body of a function in a frame of its own. -/
def enter (n : Nat) (f : Function) (values : List Value) : Account Value :=
  Interpreter.enter n f values

/-- Executes a statement. -/
def exec (n : Nat) (stmt : Stmt) : Account Unit := Interpreter.exec n stmt

/-- The passes of a loop. -/
def iterate (n : Nat) (cond next : Option Expr) (body : Stmt) : Account Unit :=
  Interpreter.iterate n cond next body

/-- The passes of a loop over an array from position `i` on. -/
def visit (n : Nat) (a : ArrayId) (i : Nat) (name : String) (body : Stmt) : Account Unit :=
  Interpreter.visit n a i name body

/-- Loads the module at a path into the run and executes its top level. -/
def loadInto (n : Nat) (path : String) (targets : Bool) : Account Unit :=
  Interpreter.loadInto n path targets

/-- Makes a module the one that runs, and executes its top level. -/
def start (n : Nat) (m : Module) (cwd : String) : Account Unit := Interpreter.start n m cwd

/-- Calls a function of a module with strings. -/
def runTarget (n : Nat) (m : Module) (name : String) (params : List String) : Account Value :=
  Interpreter.runTarget n m name params

/-- Runs a build file in its own directory, in a run of its own. -/
def invoke (n : Nat) (path : String) (target : Option String) (params : List String) :
    Account Value :=
  Interpreter.invoke n path target params

/-- Runs another build file. -/
def subrun (n : Nat) (args : List Value) : Account Value := Interpreter.subrun n args

/-! ## Without the account -/

/-- The computation without its account. -/
def run (m : Account α) : Action α := fun s => (m s).2

theorem run_bind (m : Account α) (f : α → Account β) :
    (m >>= f).run = m.run >>= fun a => (f a).run := by
  funext s
  show (andThen m f s).2 = _
  rw [Step.bind_run, andThen, run]
  rcases m s with ⟨es, o, t⟩
  cases o <;> rfl

theorem run_executing (stmt : Stmt) (m : Account Unit) :
    (executing stmt m).run = .mapError (Error.locate stmt.location) m.run := by
  funext s
  show (executing stmt m s).2 = Step.mapError _ (fun s => (m s).2) s
  simp only [executing_run, Step.mapError]
  rcases m s with ⟨es, o, t⟩
  cases o <;> rfl

/-- To leave the account out keeps every operation. -/
def plain : Interpreter.Morphism Account (Step Machine) where
  map := run
  map_pure _ := rfl
  map_bind := run_bind
  map_act _ := rfl
  map_peek _ := rfl
  map_restoring _ _ _ := rfl
  map_execution := run_executing
  map_mark w _ := by cases w <;> rfl
  map_within p _ := by cases p <;> rfl

theorem run_eval (n : Nat) (e : Expr) : (eval n e).run = Kiln.eval n e := (plain.kept n).eval e

theorem run_enter (n : Nat) (f : Function) (values : List Value) :
    (enter n f values).run = Kiln.enter n f values :=
  (plain.kept n).enter f values

theorem run_start (n : Nat) (m : Module) (cwd : String) :
    (start n m cwd).run = Kiln.start n m cwd :=
  (plain.kept n).start m cwd

theorem run_exec (n : Nat) (stmt : Stmt) : (exec n stmt).run = Kiln.exec n stmt :=
  (plain.kept n).exec stmt

end Account

end Kiln
