import Kiln.Eval

/-!
# Kiln.Proofs.Eval.Chronicle — every state of a run, in order

An interpreter that records all states a run comes to, and the moments at which a module is used,
taken over and executed and at which the digest store is asked.  A record says of every moment what it
lies in: the modules that are being used, and the build files that are being run by others.

A record goes on after an error.  Without it this is the plain run of a script, which is part of what
`Kiln.Proofs.Eval.Recount` proves of every function of the evaluator.
-/

namespace Kiln

open Kiln.Action

/-- What a moment of a run lies in. -/
inductive Around where
  /-- The module at a path is being used. -/
  | used (path : String)
  /-- The build file at a path is being run by another one. -/
  | ran (path : String)
  deriving DecidableEq, Repr

/-- The path of the module or build file. -/
def Around.path : Around → String
  | used path | ran path => path

/-- What is recorded of a run. -/
inductive Moment.Event where
  /-- The run has come to a state. -/
  | reaches (s : Machine)
  /-- A module that is not loaded yet is going to be used. -/
  | uses (path : String)
  /-- A module was read and is taken over, with or without its targets. -/
  | loads (m : Module) (targets : Bool)
  /-- The top level of the file at a path is executed from here on. -/
  | starts (path : String)
  /-- The digest store is asked or written to. -/
  | asks

/-- An event and what it lies in, the innermost last. -/
structure Moment where
  around : List Around
  event : Moment.Event

namespace Moment

/-- A moment that lies in nothing. -/
def here (event : Event) : Moment := ⟨[], event⟩

/-- The same moment, seen from further outside. -/
def within (a : Around) (moment : Moment) : Moment := ⟨a :: moment.around, moment.event⟩

end Moment

/-- A state of a running script and the way to it. -/
structure Trail where
  machine : Machine
  past : List Moment

namespace Trail

/-- The trail goes on to a state. -/
def reach (t : Trail) (s : Machine) : Trail := ⟨s, t.past ++ [.here (.reaches s)]⟩

end Trail

/-- A computation of a running script that is recorded. -/
abbrev Chronicle (α : Type) := Step Trail α

namespace Step

/-- Runs `m` and goes on, whether or not it ended well. -/
def attempt {σ α : Type} (m : Step σ α) : Step σ Unit := fun s => (.ok (), (m s).2)

end Step

namespace Chronicle

variable {α τ : Type}

/-! ## Computations with a record -/

/-- A computation of which the end is recorded. -/
def act (m : Action α) : Chronicle α := fun t =>
  match m t.machine with
  | (o, s) => (o, t.reach s)

/-- A computation that only looks, of which nothing is recorded. -/
def peek (m : Action α) : Chronicle α := fun t => ((m t.machine).1, t)

/-- Records an event, and then runs `c`. -/
def noting (e : Moment.Event) (c : Chronicle α) : Chronicle α := fun t =>
  c ⟨t.machine, t.past ++ [.here e]⟩

/-- The same computation as a part of something else. -/
def inside (a : Around) (c : Chronicle α) : Chronicle α := fun t =>
  match c ⟨t.machine, []⟩ with
  | (o, u) => (o, ⟨u.machine, t.past ++ u.past.map (.within a)⟩)

/-- Runs `c` and then puts a part of the state back as it was before, however `c` ended. -/
def restoring (save : Machine → τ) (restore : τ → Machine → Machine) (c : Chronicle α) :
    Chronicle α := fun t =>
  match c t with
  | (o, u) => (o, u.reach (restore (save t.machine) u.machine))

/-- What is recorded of what the evaluator does: all but returns and the ways of a top level. -/
def marking : Mark → Chronicle α → Chronicle α
  | .uses path, c => noting (.uses path) c
  | .loads m targets, c => noting (.loads m targets) c
  | .starts path, c => noting (.starts path) c
  | .asks, c => noting .asks c
  | .returns _, c => c
  | .proceeds, c => c

/-- A call belongs to what it is made in. -/
def lying : Setting → Chronicle α → Chronicle α
  | .used path, c => inside (.used path) c
  | .ran path, c => inside (.ran path) c
  | .activation, c => c

instance : Interpreter (Step Trail) where
  act := act
  peek := peek
  restoring := restoring
  execution stmt c := Step.mapError (Error.locate stmt.location) c
  mark := marking
  within := lying

/-! ## The evaluator -/

/-- The value of an expression. -/
def eval (n : Nat) (e : Expr) : Chronicle Value := Interpreter.eval n e

/-- The cell an assignment to an expression writes. -/
def evalCell (n : Nat) (e : Expr) : Chronicle CellId := Interpreter.evalCell n e

/-- Runs the body of a function in a frame of its own. -/
def enter (n : Nat) (f : Function) (values : List Value) : Chronicle Value :=
  Interpreter.enter n f values

/-- Executes a statement. -/
def exec (n : Nat) (stmt : Stmt) : Chronicle Unit := Interpreter.exec n stmt

/-- The passes of a loop. -/
def iterate (n : Nat) (cond next : Option Expr) (body : Stmt) : Chronicle Unit :=
  Interpreter.iterate n cond next body

/-- The passes of a loop over an array from position `i` on. -/
def visit (n : Nat) (a : ArrayId) (i : Nat) (name : String) (body : Stmt) : Chronicle Unit :=
  Interpreter.visit n a i name body

/-- Loads the module at a path into the run and executes its top level. -/
def loadInto (n : Nat) (path : String) (targets : Bool) : Chronicle Unit :=
  Interpreter.loadInto n path targets

/-- Makes a module the one that runs, and executes its top level. -/
def start (n : Nat) (m : Module) (cwd : String) : Chronicle Unit := Interpreter.start n m cwd

/-- Calls a function of a module with strings. -/
def runTarget (n : Nat) (m : Module) (name : String) (params : List String) : Chronicle Value :=
  Interpreter.runTarget n m name params

/-- Runs a build file in its own directory, in a run of its own. -/
def invoke (n : Nat) (path : String) (target : Option String) (params : List String) :
    Chronicle Value :=
  Interpreter.invoke n path target params

/-- Runs another build file. -/
def subrun (n : Nat) (args : List Value) : Chronicle Value := Interpreter.subrun n args

/-- `Kiln.wholeRun`, with everything it comes to. -/
def wholeRun (n : Nat) (m : Module) (cwd : String) (calls : List (String × List String)) :
    Chronicle Unit := do
  start n m cwd
  Step.forAll (fun call => Step.attempt (runTarget n m call.1 call.2)) calls

end Chronicle

/-! ## A run from its start to its end -/

/-- The run of a root module in a directory: its top level, and then calls of its functions with
strings, whether or not the ones before ended well. -/
def wholeRun (n : Nat) (m : Module) (cwd : String) (calls : List (String × List String)) :
    Action Unit := do
  start n m cwd
  Step.forAll (fun call => Step.attempt (runTarget n m call.1 call.2)) calls

/-- All moments of the run of a root module. -/
def moments (n : Nat) (m : Module) (cwd : String) (calls : List (String × List String))
    (s : Machine) : List Moment :=
  (Chronicle.wholeRun n m cwd calls ⟨s, []⟩).2.past

end Kiln
