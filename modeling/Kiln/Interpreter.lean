import Kiln.Machine

/-!
# Kiln.Interpreter — ways to run a script

What the evaluator does, it does through the operations of an `Interpreter`: it acts on the state of
the running script or only looks at it, executes statements, and puts parts of the state back.  It
also says what it does and where, which the plain run of a script passes over.  A computation that
keeps a record of a run is another interpreter.
-/

namespace Kiln

/-- What the evaluator does at a moment of a run. -/
inductive Mark where
  /-- A `return` takes effect, with a value. -/
  | returns (v : Value)
  /-- The top level of a module goes on to its next statement. -/
  | proceeds
  /-- A module that is not loaded yet is used. -/
  | uses (path : String)
  /-- A module was read and is taken over, with or without its targets. -/
  | loads (m : Module) (targets : Bool)
  /-- The top level of the file at a path is executed from here on. -/
  | starts (path : String)
  /-- The digest store is asked or written to. -/
  | asks

/-- What a part of a run lies in. -/
inductive Setting where
  /-- The call of a function, or the top level of another build file. -/
  | activation
  /-- The module at a path is being used. -/
  | used (path : String)
  /-- The build file at a path is being run by another one. -/
  | ran (path : String)

/-- A way to run scripts: the operations on the state of a running script that the evaluator is made
of. -/
class Interpreter (C : Type → Type) [Monad C] where
  /-- Works on the state. -/
  act {α : Type} : Action α → C α
  /-- Looks at the state, which stays as it is. -/
  peek {α : Type} : Action α → C α
  /-- Puts a part of the state back as it was before, however the computation ended. -/
  restoring {α τ : Type} : (Machine → τ) → (τ → Machine → Machine) → C α → C α
  /-- The execution of a statement, which locates the errors that leave it. -/
  execution : Stmt → C Unit → C Unit
  /-- A computation that begins with something worth noting. -/
  mark {α : Type} : Mark → C α → C α
  /-- A computation that lies in something. -/
  within {α : Type} : Setting → C α → C α

namespace Interpreter

variable {C : Type → Type} [Monad C] [Interpreter C] {α : Type}

/-- The state. -/
abbrev state : C Machine := peek .state

/-- A part of the state. -/
abbrev look (f : Machine → α) : C α := peek (.look f)

/-- Changes the state. -/
abbrev change (f : Machine → Machine) : C Unit := act (.change f)

/-- Ends with a fault of the running script. -/
abbrev fault (f : Fault) : C α := peek (.fault f)

/-- Ends because the bound on depth ran out. -/
abbrev stuck : C α := peek .stuck

/-- Works on the memory. -/
abbrev onMemory (m : Step Memory α) : C α := act (Action.onMemory m)

/-- Works on the digest store. -/
abbrev onStore (m : Shelving α) : C α := mark .asks (act (Action.onStore m))

/-- Runs `c` and goes back to the working directory it started in. -/
abbrev keepingDirectory (c : C α) : C α :=
  restoring (fun s => s.run.cwd) (fun cwd s => { s with run := { s.run with cwd } }) c

/-- Runs `c` and goes back to the frame it started in. -/
abbrev keepingFrame (c : C α) : C α :=
  restoring (fun s => s.frame) (fun frame s => { s with frame }) c

/-- Runs `c` and goes back to the run and the frame it started in. -/
abbrev keepingRun (c : C α) : C α :=
  restoring (fun s => (s.run, s.frame)) (fun (run, frame) s => { s with run, frame }) c

end Interpreter

/-- The plain run of a script. -/
instance : Interpreter (Step Machine) where
  act m := m
  peek m := m
  restoring := Step.restoring
  execution stmt m := Step.mapError (Error.locate stmt.location) m
  mark _ m := m
  within _ m := m

end Kiln
