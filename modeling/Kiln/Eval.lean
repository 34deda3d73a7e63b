import Kiln.Call
import Kiln.Interpreter

/-!
# Kiln.Eval — running scripts

Evaluation of expressions, execution of statements, and starting and calling into modules.  Every
function takes a bound on its depth, and a loop uses one level of it for every pass; a computation
that ends does so in the same way for every bound that is large enough.

Both operands of an operator are evaluated, `&&` and `||` included.  Signals (`break`, `continue`,
`return`) belong to a frame: blocks stop at them, loops settle their own, and a call starts without
any.  Errors carry the location of the innermost statement.

The evaluator is written for every `Interpreter`; the plain run of a script is at the end.
-/

namespace Kiln

open Kiln.Action

/-- The value of an operator that only reads its operand. -/
def UnaryOp.apply : UnaryOp → Int32 → Value
  | negate, n => .int (-n)
  | complement, n => .int (~~~n)
  | not, n => .ofBool (n == 0)

/-- The quotient of two integers, rounded towards zero. -/
def divide (a b : Int32) : Action Value :=
  if b = 0 then .fault .divisionByZero else return .int (a / b)

/-- A comparison of two values. -/
def compareBy (f : Ordering → Bool) (a b : Value) : Action Value := do
  let o ← onMemory (Memory.order a b)
  return .ofBool (f o)

/-- The value of an element or entry of a container. -/
def subscript (container i : Value) : Action Value :=
  match container with
  | .dict d => do
    let k ← textOf i
    onMemory (Memory.key (.dict d) k)
  | v => onMemory (Memory.index v i.toInt)

/-- The cell of an element or entry of a container, which is made if it is not there. -/
def subscriptCell (container i : Value) : Action CellId :=
  match container with
  | .dict d => do
    let k ← textOf i
    onMemory (Memory.keyCell (.dict d) k)
  | v => onMemory (Memory.indexCell v i.toInt)

/-- The value of an operator between two operands.  Assignment is not here, because it does not read
its left operand. -/
def BinaryOp.apply : BinaryOp → Value → Value → Action Value
  | assign, _, b => return b
  | subscript, a, b => Kiln.subscript a b
  | add, a, b => onMemory (Memory.add a b)
  | subtract, a, b => return .int (a.toInt - b.toInt)
  | multiply, a, b => return .int (a.toInt * b.toInt)
  | divide, a, b => Kiln.divide a.toInt b.toInt
  | equal, a, b => compareBy (· == .eq) a b
  | notEqual, a, b => compareBy (· != .eq) a b
  | less, a, b => compareBy (· == .lt) a b
  | lessEqual, a, b => compareBy (· != .gt) a b
  | more, a, b => compareBy (· == .gt) a b
  | moreEqual, a, b => compareBy (· != .lt) a b
  | and, a, b => return .ofBool (a.isTrue && b.isTrue)
  | or, a, b => return .ofBool (a.isTrue || b.isTrue)

/-- Settles the signals after one pass of a loop: whether the loop must stop. -/
def settle : Action Bool := fun s =>
  let signals := s.frame.signals
  if signals.breaking then
    (.ok true, { s with frame := { s.frame with signals := { signals with breaking := false } } })
  else
    (.ok signals.returning,
      { s with frame := { s.frame with signals := { signals with continuing := false } } })

/-- The text whose digest decides whether a step is up to date: the files it depends on, with their
sizes and times, and the fingerprint of its action. -/
def dependencyText (files : FileSystem) (paths : List String) (action : String) : String :=
  let entry (path : String) : String :=
    let state :=
      match files.info? path with
      | some (size, time) => ":exists:size:" ++ toString size ++ ":time:" ++ toString time ++ ":"
      | none => ":not exists:"
    "[name:[" ++ path ++ "]" ++ state ++ "]"
  "depends:files[" ++ String.join (paths.map entry) ++ "]" ++ action

namespace Interpreter

variable {C : Type → Type} [Monad C] [Interpreter C]

/-- A `return` takes effect. -/
abbrev leaveWith (v : Value) : C Unit :=
  mark (.returns v) (act (changeSignals fun s => { s with returning := true, result := v }))

/-- A pass of a loop that goes on: its body, and then `again` unless the loop must stop. -/
@[specialize] def pass (body again : C Unit) : C Unit := do
  body
  let stop ← act settle
  if stop then return () else again

/-- What follows a pass of a loop that goes on: its update, if it has one, and the next pass. -/
@[specialize] def onward (update : Option (C Value)) (next : C Unit) : C Unit :=
  match update with
  | some update => do
    let _ ← update
    next
  | none => next

/-- Moves the digest store to a module, and loads it in its own directory. -/
@[specialize] def usingModule (path : String) (loading : C Unit) : C Unit := do
  mark (.uses path) (change fun s =>
    { s with session := { s.session with store := s.session.store.moveTo path } })
  keepingDirectory <| within (.used path) do
    act (changeRun fun r => { r with cwd := Path.directory path })
    loading

/-- Takes the module at a path over into the run, with or without its targets, and starts it. -/
@[specialize] def takeOver (path : String) (m : Module) (targets : Bool) (starting : C Unit) :
    C Unit := do
  mark (.loads m targets) (act (addIncluded path))
  act (addFunctions (m.exported targets))
  mark (.starts path) starting

/-- The top level of a module. -/
@[specialize] def topLevel (execute : Stmt → C Unit) (m : Module) : C Unit :=
  Step.forAll (fun stmt => mark .proceeds (execute stmt)) m.body

mutual

/-- The value of an expression. -/
@[specialize] def eval : Nat → Expr → C Value
  | 0, _ => stuck
  | n + 1, e =>
    match e with
    | .const (.int i) => return .int i
    | .const (.str s) => return .str s
    | .var name => act (getVar name)
    | .array elements => do
      let values ← Step.each (eval n) elements
      onMemory (Memory.newArray values)
    | .dict pairs => do
      let entries ← Step.each (fun pair => do
        let k ← eval n pair.1
        let key ← act (textOf k)
        let value ← eval n pair.2
        return (key, value)) pairs
      onMemory (Memory.newDict entries)
    | .unary op arg => do
      let v ← eval n arg
      return op.apply v.toInt
    | .bump op side arg => do
      let c ← evalCell n arg
      let old ← look fun s => s.memory.read c
      let new := Value.int (op.apply old.toInt)
      onMemory (Memory.write c new)
      match side with
      | .before => return new
      | .after => return old
    | .binary .assign left right => do
      let c ← evalCell n left
      let v ← eval n right
      onMemory (Memory.write c v)
      return v
    | .binary op left right => do
      let a ← eval n left
      let b ← eval n right
      act (op.apply a b)
    | .ternary cond yes no => do
      let c ← eval n cond
      if c.isTrue then eval n yes else eval n no
    | .builtin .subrun args => do
      let values ← Step.each (eval n) args
      subrun n values
    | .builtin fn args => do
      let values ← Step.each (eval n) args
      act (fn.call values)
    | .call name args => do
      let f ← peek (function name)
      if args.length ≠ f.params.length then
        fault (.argumentCount f.name f.params.length args.length)
      else do
        let values ← Step.each (eval n) args
        within .activation (enter n f values)

/-- The cell an assignment to an expression writes. -/
@[specialize] def evalCell : Nat → Expr → C CellId
  | 0, _ => stuck
  | n + 1, e =>
    match e with
    | .var name => do
      let scope ← look fun s => s.frame.scope
      onMemory (Memory.varCell scope name)
    | .binary .subscript left right => do
      let container ← eval n left
      let i ← eval n right
      act (subscriptCell container i)
    | _ => fault .notAssignable

/-- Runs the body of a function in a frame of its own, with its parameters bound to `values`. -/
@[specialize] def enter : Nat → Function → List Value → C Value
  | 0, _, _ => stuck
  | n + 1, f, values =>
    keepingFrame do
      let outer ← look fun s => s.frame.scope
      let scope ← onMemory (Memory.newScope (some outer))
      onMemory (Step.forAll (fun p => Memory.setVar scope p.1 p.2) (f.params.zip values))
      change fun s => { s with frame := s.frame.enter f scope }
      exec n f.body
      look fun s => s.frame.signals.result

/-- Executes a statement. -/
@[specialize] def exec : Nat → Stmt → C Unit
  | 0, _ => stuck
  | n + 1, stmt =>
    execution stmt <|
    match stmt with
    | .expr _ e => do
      let _ ← eval n e
      return ()
    | .block _ body =>
      keepingDirectory <| Step.eachUntil (fun s => do
        exec n s
        look fun m => m.frame.signals.interrupted) body
    | .branch _ cond yes no => do
      let c ← eval n cond
      if c.isTrue then exec n yes
      else
        match no with
        | some s => exec n s
        | none => return ()
    | .loop _ init cond next body => do
      match init with
      | some e => do
        let _ ← eval n e
        iterate n cond next body
      | none => iterate n cond next body
    | .foreach _ name items body => do
      let collection ← eval n items
      match collection with
      | .dict d => do
        let keys ← look fun s => s.memory.keys (.dict d)
        Step.eachUntil (fun key => do
          act (setVar name (.str key))
          exec n body
          act settle) keys
      | .array a => visit n a 0 name body
      | v => do
        act (setVar name v)
        exec n body
        act (changeSignals fun s => { s with breaking := false, continuing := false })
    | .breakStmt _ => act (changeSignals fun s => { s with breaking := true })
    | .continueStmt _ => act (changeSignals fun s => { s with continuing := true })
    | .returnStmt _ value => do
      match value with
      | some e => do
        let v ← eval n e
        leaveWith v
      | none => leaveWith .void
    | .depends _ paths action => do
      let listed ← eval n paths
      let values ← act (elementsOf listed)
      let texts ← act (textsOf values)
      let s ← state
      let code ← peek (.ofOutcome (Fingerprint.stmt (viewOf s) action))
      let digest := Digest.ofText (dependencyText s.files (texts.map s.run.resolve) code)
      let upToDate ← onStore (Store.contains s.frame.module s.frame.target digest)
      if upToDate then return ()
      else do
        exec n action
        onStore (Store.add s.frame.module s.frame.target digest)
    | .includeStmt _ path => do
      let v ← eval n path
      let text ← act (textOf v)
      let path ← act (resolve text)
      let s ← state
      if s.run.included.contains path then return ()
      else loadInto n path true
    | .usingStmt _ path => do
      let v ← eval n path
      let text ← act (textOf v)
      let path ← act (resolve text)
      let s ← state
      if s.run.included.contains path then return ()
      else usingModule path (loadInto n path false)

/-- The passes of a loop. -/
@[specialize] def iterate : Nat → Option Expr → Option Expr → Stmt → C Unit
  | 0, _, _, _ => stuck
  | n + 1, cond, next, body => do
    let goes ←
      match cond with
      | some e => do
        let v ← eval n e
        pure v.isTrue
      | none => pure true
    if !goes then return ()
    else
      pass (exec n body) (onward (next.map (eval n)) (iterate n cond next body))

/-- The passes of a loop over an array from position `i` on; what is added to the array on the way is
visited too. -/
@[specialize] def visit : Nat → ArrayId → Nat → String → Stmt → C Unit
  | 0, _, _, _, _ => stuck
  | n + 1, a, i, name, body => do
    let s ← state
    if i < (s.memory.slots a).size then do
      let v ← onMemory (Memory.index (.array a) (Int32.ofNat i))
      act (setVar name v)
      pass (exec n body) (visit n a (i + 1) name body)
    else return ()

/-- Loads the module at a path into the run and executes its top level, with or without its
targets. -/
@[specialize] def loadInto : Nat → String → Bool → C Unit
  | 0, _, _ => stuck
  | n + 1, path, targets => do
    let m ← peek (load path)
    takeOver path m targets (topLevel (exec n) m)

/-- Makes a module the one that runs, in a fresh run with a scope of its own, and executes its top
level. -/
@[specialize] def start : Nat → Module → String → C Unit
  | 0, _, _ => stuck
  | n + 1, m, cwd => do
    act (changeRun fun _ => .inDir cwd)
    takeOver m.path m true do
      let host ← look fun s => s.host
      let scope ← onMemory host.newScope
      change fun s => { s with frame := .top m.path scope }
      topLevel (exec n) m

/-- Calls a function of a module with strings.  After `clean`, all digests of the run's module are
forgotten. -/
@[specialize] def runTarget : Nat → Module → String → List String → C Value
  | 0, _, _, _ => stuck
  | n + 1, m, name, params =>
    match m.functions.get? name with
    | none => fault (.notInModule name)
    | some f =>
      if params.length ≠ f.params.length then
        fault (.argumentCount f.name f.params.length params.length)
      else do
        let v ← within .activation (enter n f (params.map .str))
        if name = "clean" then do
          let module ← look fun s => s.frame.module
          onStore (Store.clear module)
          return v
        else return v

/-- Runs a build file in its own directory, in a run of its own, and gives back what its target
returned. -/
@[specialize] def invoke : Nat → String → Option String → List String → C Value
  | 0, _, _, _ => stuck
  | n + 1, path, target, params =>
    keepingRun do
      let m ← peek (load path)
      within (.ran path) do
        within .activation (start n m (Path.directory path))
        match target.or m.defaultTarget? with
        | some name => runTarget n m name params
        | none => return .void

/-- Runs another build file: the file or its directory, a target unless it is empty, and its
parameters. -/
@[specialize] def subrun : Nat → List Value → C Value
  | 0, _ => stuck
  | n + 1, args => do
    let texts ← act (textsOf args)
    let path ← act (resolve (texts.headD ""))
    let isDir ← look fun s => s.files.isDir path
    let file := if isDir then Path.join path "lickable" else path
    invoke n file (texts[1]?.filter (· ≠ "")) (texts.drop 2)

end

end Interpreter

/-! ## The plain run -/

/-- The value of an expression. -/
def eval (n : Nat) (e : Expr) : Action Value := Interpreter.eval n e

/-- The cell an assignment to an expression writes. -/
def evalCell (n : Nat) (e : Expr) : Action CellId := Interpreter.evalCell n e

/-- Runs the body of a function in a frame of its own. -/
def enter (n : Nat) (f : Function) (values : List Value) : Action Value :=
  Interpreter.enter n f values

/-- Executes a statement. -/
def exec (n : Nat) (stmt : Stmt) : Action Unit := Interpreter.exec n stmt

/-- The passes of a loop. -/
def iterate (n : Nat) (cond next : Option Expr) (body : Stmt) : Action Unit :=
  Interpreter.iterate n cond next body

/-- The passes of a loop over an array from position `i` on. -/
def visit (n : Nat) (a : ArrayId) (i : Nat) (name : String) (body : Stmt) : Action Unit :=
  Interpreter.visit n a i name body

/-- Loads the module at a path into the run and executes its top level. -/
def loadInto (n : Nat) (path : String) (targets : Bool) : Action Unit :=
  Interpreter.loadInto n path targets

/-- Makes a module the one that runs, and executes its top level. -/
def start (n : Nat) (m : Module) (cwd : String) : Action Unit := Interpreter.start n m cwd

/-- Calls a function of a module with strings. -/
def runTarget (n : Nat) (m : Module) (name : String) (params : List String) : Action Value :=
  Interpreter.runTarget n m name params

/-- Runs a build file in its own directory, in a run of its own. -/
def invoke (n : Nat) (path : String) (target : Option String) (params : List String) :
    Action Value :=
  Interpreter.invoke n path target params

/-- Runs another build file. -/
def subrun (n : Nat) (args : List Value) : Action Value := Interpreter.subrun n args

end Kiln
