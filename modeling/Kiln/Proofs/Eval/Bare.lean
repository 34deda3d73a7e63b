import Kiln.Eval
import Kiln.Proofs.Memory.Operations
import Kiln.Proofs.Parser.Bare

/-!
# Kiln.Proofs.Eval.Bare — what the evaluator is made of raises bare errors

The operations on memory, the parts of the state, the operators and the built-in functions, and
fingerprints: none of them adds a location to an error.  Only executing a statement does.
-/

namespace Kiln

open Step

variable {α β : Type}

/-! ## Memory -/

namespace Memory

theorem bare_newArray (vs : List Value) : Bare (newArray vs) :=
  .of_ok fun m => ⟨_, by rw [newArray_run]⟩

theorem bare_newDict (pairs : List (String × Value)) : Bare (newDict pairs) := by
  refine .of_ok fun m => ?_
  obtain ⟨t, vs, hrun, -, -⟩ := newDict_run pairs m
  exact ⟨_, by rw [hrun]⟩

theorem bare_newCell (v : Value) : Bare (newCell v) := .of_ok fun m => ⟨_, by rw [newCell_run]⟩

theorem bare_slotCell (a : ArrayId) (i : Int32) : Bare (slotCell a i) := by
  unfold slotCell
  split
  · exact .fault _
  · refine Bare.bind (.of_ok fun m => ?_) fun _ => .look _
    obtain ⟨n, hrun, -⟩ := growArray_run a (i.toInt.toNat + 1) m
    exact ⟨(), by rw [hrun]⟩

theorem bare_entryCell (d : DictId) (key : String) : Bare (entryCell d key) := by
  refine (Bare.look _).bind fun c => ?_
  split
  · exact .pure _
  · exact (bare_newCell _).bind fun c => (Bare.change _).bind fun _ => .pure c

theorem bare_textOf (v : Value) : Bare (textOf v) := by
  have htree (v : Value) : Bare (treeOf v) := by
    intro m
    unfold treeOf
    split
    · exact .ok _
    · exact .exhausted
  cases v with
  | str s => exact .pure s
  | _ => exact (htree _).bind fun t => .pure _

theorem bare_index (v : Value) (i : Int32) : Bare (index v i) := by
  cases v with
  | array a => exact .look _
  | _ => exact .fault _

theorem bare_key (v : Value) (k : String) : Bare (key v k) := by
  cases v with
  | dict d => exact .look _
  | _ => exact .fault _

theorem bare_indexCell (v : Value) (i : Int32) : Bare (indexCell v i) := by
  cases v with
  | array a => exact bare_slotCell a i
  | _ => exact .fault _

theorem bare_keyCell (v : Value) (k : String) : Bare (keyCell v k) := by
  cases v with
  | dict d => exact bare_entryCell d k
  | _ => exact .fault _

theorem bare_add (a b : Value) : Bare (add a b) := by
  unfold add
  split
  · exact .pure _
  · exact .pure _
  · exact (Bare.look _).bind fun values => bare_newArray values
  · exact (Bare.look _).bind fun values => bare_newArray values
  · exact (bare_textOf _).bind fun t => .pure _
  · exact (bare_textOf _).bind fun t => .pure _
  · exact .pure _

theorem bare_order (a b : Value) : Bare (order a b) := by
  unfold order
  split
  · exact .pure _
  · exact (bare_textOf _).bind fun s => (bare_textOf _).bind fun t => .pure _

theorem bare_mapTexts (f : String → String) (v : Value) : Bare (mapTexts f v) := by
  have hone (v : Value) : Bare (textOf v >>= fun s => (pure (.str (f s)) : Step Memory Value)) :=
    (bare_textOf v).bind fun s => .pure _
  unfold mapTexts mapElements
  split
  · refine (Bare.look _).bind fun values => ?_
    exact (Bare.each hone values).bind fun results => bare_newArray results
  · exact hone _

theorem bare_varCell (s : ScopeId) (name : String) : Bare (varCell s name) := by
  refine (Bare.look _).bind fun c => ?_
  split
  · exact .pure _
  · refine (Bare.look _).bind fun v => (bare_newCell v).bind fun c => ?_
    exact (Bare.change _).bind fun _ => .pure c

theorem bare_setVar (s : ScopeId) (name : String) (v : Value) : Bare (setVar s name v) := by
  refine .of_ok fun m => ?_
  obtain ⟨m', hrun⟩ := setVar_ok s name v m
  exact ⟨(), by rw [hrun]⟩

end Memory

theorem Host.bare_newScope (h : Host) : Bare h.newScope := by
  have hdescribe : Bare h.describe :=
    (Memory.bare_newDict _).bind fun _ => (Memory.bare_newArray _).bind fun _ => Memory.bare_newDict _
  refine hdescribe.bind fun sys => Bare.bind (.of_ok fun m => ⟨_, rfl⟩) fun scope => ?_
  exact (Memory.bare_setVar _ _ _).bind fun _ => .pure scope

/-! ## Parts of the state -/

namespace Action

theorem bare_onMemory {m : Step Memory α} (h : Bare m) : Bare (onMemory m) := h.on

theorem bare_onFiles {m : Disk α} (h : Bare m) : Bare (onFiles m) := h.on

theorem bare_onStore {m : Shelving α} (h : Bare m) : Bare (onStore m) := h.on

theorem bare_textOf (v : Value) : Bare (textOf v) := bare_onMemory (Memory.bare_textOf v)

theorem bare_textsOf (vs : List Value) : Bare (textsOf vs) := .each bare_textOf vs

theorem bare_setVar (name : String) (v : Value) : Bare (setVar name v) :=
  (Bare.look _).bind fun _ => bare_onMemory (Memory.bare_setVar _ _ _)

theorem bare_function (name : String) : Bare (function name) := by
  refine (Bare.look _).bind fun f => ?_
  split
  · exact .pure _
  · exact .fault _

theorem bare_addFunctions (fs : List Function) : Bare (addFunctions fs) := by
  refine Bare.forAll (fun f => (Bare.look _).bind fun functions => ?_) fs
  split
  · exact .fault _
  · exact .change _

theorem bare_load (path : String) : Bare (load path) := by
  refine (Bare.look _).bind fun files => ?_
  split
  · exact .fault _
  · exact .ofOutcome (Module.bare_parse _ _)

end Action

open Kiln.Action

/-! ## Operators -/

theorem bare_settle : Bare settle := by
  refine .of_ok fun s => ?_
  unfold settle
  simp only
  split <;> exact ⟨_, rfl⟩

theorem bare_subscript (container i : Value) : Bare (subscript container i) := by
  unfold subscript
  split
  · exact (Action.bare_textOf _).bind fun k => bare_onMemory (Memory.bare_key _ k)
  · exact bare_onMemory (Memory.bare_index _ _)

theorem bare_subscriptCell (container i : Value) : Bare (subscriptCell container i) := by
  unfold subscriptCell
  split
  · exact (Action.bare_textOf _).bind fun k => bare_onMemory (Memory.bare_keyCell _ k)
  · exact bare_onMemory (Memory.bare_indexCell _ _)

theorem bare_compareBy (f : Ordering → Bool) (a b : Value) : Bare (compareBy f a b) :=
  (bare_onMemory (Memory.bare_order a b)).bind fun _ => .pure _

theorem BinaryOp.bare_apply (op : BinaryOp) (a b : Value) : Bare (op.apply a b) := by
  cases op with
  | assign | subtract | multiply | and | or => exact .pure _
  | subscript => exact bare_subscript a b
  | add => exact bare_onMemory (Memory.bare_add a b)
  | divide =>
    show Bare (Kiln.divide a.toInt b.toInt)
    unfold Kiln.divide
    split
    · exact .fault _
    · exact .pure _
  | equal | notEqual | less | lessEqual | more | moreEqual => exact bare_compareBy _ a b

/-! ## Fingerprints -/

namespace Fingerprint

variable {view : View} {callee : String → Outcome String}

mutual

theorem bare_exprWith (h : ∀ name, (callee name).Bare) :
    ∀ e : Expr, (exprWith view callee e).Bare
  | .const _ => .ok _
  | .var name => by
    unfold exprWith reference
    split
    · exact .ok _
    · exact .exhausted
  | .array es => (bare_labelledWith h _ es).bind fun _ => .ok _
  | .dict ps => (bare_pairsWith h ps).bind fun _ => .ok _
  | .unary _ arg | .bump _ _ arg => (bare_exprWith h arg).bind fun _ => .ok _
  | .binary _ left right =>
    (bare_exprWith h left).bind fun _ => (bare_exprWith h right).bind fun _ => .ok _
  | .ternary cond yes no =>
    (bare_exprWith h cond).bind fun _ => (bare_exprWith h yes).bind fun _ =>
      (bare_exprWith h no).bind fun _ => .ok _
  | .builtin _ args => (bare_labelledWith h _ args).bind fun _ => .ok _
  | .call name args => (h name).bind fun _ => (bare_labelledWith h _ args).bind fun _ => .ok _

theorem bare_labelledWith (h : ∀ name, (callee name).Bare) (label : String) :
    ∀ es : List Expr, (labelledWith view callee label es).Bare
  | [] => .ok _
  | e :: rest =>
    (bare_exprWith h e).bind fun _ => (bare_labelledWith h label rest).bind fun _ => .ok _

theorem bare_pairsWith (h : ∀ name, (callee name).Bare) :
    ∀ ps : List (Expr × Expr), (pairsWith view callee ps).Bare
  | [] => .ok _
  | (k, v) :: rest =>
    (bare_exprWith h k).bind fun _ => (bare_exprWith h v).bind fun _ =>
      (bare_pairsWith h rest).bind fun _ => .ok _

end

theorem bare_clauseWith (h : ∀ name, (callee name).Bare) (label : String) :
    ∀ clause : Option Expr, (clauseWith view callee label clause).Bare
  | none => .ok _
  | some e => (bare_exprWith h e).bind fun _ => .ok _

mutual

theorem bare_stmtWith (h : ∀ name, (callee name).Bare) :
    ∀ s : Stmt, (stmtWith view callee s).Bare
  | .expr _ e | .includeStmt _ e | .usingStmt _ e => (bare_exprWith h e).bind fun _ => .ok _
  | .block _ body => (bare_stmtsWith h body).bind fun _ => .ok _
  | .branch _ cond yes none =>
    (bare_exprWith h cond).bind fun _ => (bare_stmtWith h yes).bind fun _ => .ok _
  | .branch _ cond yes (some no) =>
    (bare_exprWith h cond).bind fun _ => (bare_stmtWith h yes).bind fun _ =>
      (bare_stmtWith h no).bind fun _ => .ok _
  | .loop _ init cond next body =>
    (bare_clauseWith h _ init).bind fun _ => (bare_clauseWith h _ cond).bind fun _ =>
      (bare_clauseWith h _ next).bind fun _ => (bare_stmtWith h body).bind fun _ => .ok _
  | .foreach _ _ e body | .depends _ e body =>
    (bare_exprWith h e).bind fun _ => (bare_stmtWith h body).bind fun _ => .ok _
  | .breakStmt _ | .continueStmt _ => .ok _
  | .returnStmt _ value => (bare_clauseWith h _ value).bind fun _ => .ok _

theorem bare_stmtsWith (h : ∀ name, (callee name).Bare) :
    ∀ ss : List Stmt, (stmtsWith view callee ss).Bare
  | [] => .ok _
  | s :: rest => (bare_stmtWith h s).bind fun _ => (bare_stmtsWith h rest).bind fun _ => .ok _

end

theorem bare_functionWithin (depth : Nat) (active : List String) (name : String) :
    (functionWithin view depth active name).Bare := by
  have hundefined : Outcome.Bare (.error (.fault (.undefinedFunction name)) : Outcome String) :=
    .error trivial
  induction depth generalizing active name with
  | zero =>
    unfold functionWithin
    split
    · exact .ok _
    · split
      · exact hundefined
      · exact .exhausted
  | succ depth ih =>
    unfold functionWithin
    split
    · exact .ok _
    · split
      · exact hundefined
      · exact (bare_stmtWith (fun name => ih _ name (.error trivial)) _).bind fun _ => .ok _

theorem bare_stmt (s : Stmt) : (stmt view s).Bare :=
  bare_stmtWith (bare_functionWithin _ _) s

end Fingerprint

/-! ## Built-in functions -/

namespace Builtin

theorem bare_of_because {f : IoError → Fault} {e : Error} (h : e.Bare) : (because f e).Bare := by
  cases e with
  | located _ _ => exact h.elim
  | _ => trivial

theorem bare_bytePosition (b : Builtin) (s : String) (position : Int32) :
    Bare (bytePosition b s position) := by
  unfold bytePosition
  split
  · exact .pure _
  · exact .fault _

theorem bare_compileGlobs (vs : List Value) : Bare (compileGlobs vs) := by
  refine Bare.each (fun v => (bare_textOf v).bind fun pattern => (Bare.look _).bind fun regex => ?_) vs
  split
  · exact .pure _
  · exact .fault _

theorem bare_filterGlob (wanted : Bool) (v : Value) (patterns : List (String → Bool)) :
    Bare (filterGlob wanted v patterns) := by
  unfold filterGlob
  split
  · refine (Bare.look _).bind fun values => (bare_textsOf _).bind fun texts => ?_
    exact bare_onMemory (Memory.bare_newArray _)
  · exact (bare_textOf _).bind fun s => .pure _

theorem bare_flatten (vs : List Value) : Bare (flatten vs) :=
  (Bare.look _).bind fun values => bare_textsOf values

theorem bare_listFiles (argument : String) : Bare (listFiles argument) :=
  (Bare.look _).bind fun _ => (Bare.look _).bind fun _ => bare_onMemory (Memory.bare_newArray _)

theorem bare_changeDirectory (argument : String) : Bare (changeDirectory argument) := by
  refine (Bare.look _).bind fun dir => (Bare.look _).bind fun isDir => ?_
  split
  · exact (Bare.change _).bind fun _ => .pure _
  · exact .fault _

theorem bare_commandWords (vs : List Value) : Bare (commandWords vs) := by
  induction vs with
  | nil => exact .pure []
  | cons v rest ih =>
    unfold commandWords
    split
    · refine (Bare.look _).bind fun values => (bare_textsOf _).bind fun texts => ?_
      exact ih.bind fun more => .pure _
    · exact (bare_textOf _).bind fun s => ih.bind fun more => .pure _

theorem bare_childEnvironment : Bare childEnvironment := by
  refine Bare.state.bind fun s => (Bare.look _).bind fun v => ?_
  split
  · split
    · refine (bare_textsOf _).bind fun texts => ?_
      split
      · exact (bare_textsOf _).bind fun dirs => .pure _
      · exact .pure _
    · exact .pure _
  · exact .pure _

theorem bare_launch (programs : Program.Launcher) (argv : List String) (cwd : String)
    (env : Table String) : Bare (programs.launch argv cwd env) := by
  intro files e he
  obtain ⟨cause, rfl⟩ := programs.refused (eq_of_fst he)
  exact trivial

theorem bare_runProgram (captured : Bool) (args : List Value) : Bare (runProgram captured args) := by
  refine (bare_commandWords args).bind fun argv => ?_
  cases argv with
  | nil => exact .fault _
  | cons name rest =>
    refine bare_childEnvironment.bind fun env => (Bare.look _).bind fun cwd => ?_
    refine (Bare.look _).bind fun programs => ?_
    have hlaunch := bare_onFiles (bare_launch programs (name :: rest) cwd env)
    refine (hlaunch.mapError fun _ he => bare_of_because he).bind fun done => ?_
    refine (Bare.change _).bind fun _ => ?_
    split
    · exact .fault _
    · exact .pure _

theorem bare_call (b : Builtin) (args : List Value) : Bare (b.call args) := by
  have htext (i : Nat) : Bare (textOf (args.getD i .void)) := bare_textOf _
  have hpath {f : String → Action Value} (i : Nat) (hf : ∀ path, Bare (f path)) :
      Bare (textOf (args.getD i .void) >>= fun s => resolve s >>= f) :=
    (htext i).bind fun s => (Bare.look _).bind hf
  cases b with
  | strlen | ord | dirName | fileName => exact (htext 0).bind fun _ => .pure _
  | length | cwd => exact (Bare.look _).bind fun _ => .pure _
  | chr | hex | subrun => exact .pure _
  | replace =>
    exact (htext 1).bind fun _ => (htext 2).bind fun _ => bare_onMemory (Memory.bare_mapTexts _ _)
  | contains =>
    refine (htext 1).bind fun needle => ?_
    dsimp only
    split
    · exact (Bare.look _).bind fun values => (bare_textsOf _).bind fun texts => .pure _
    · exact (htext 0).bind fun _ => .pure _
  | implode =>
    have hjoined (sep : String) (a : ArrayId) : Bare (do
        let values ← elementsOf (.array a)
        let texts ← textsOf values
        return Value.str (Text.Pieces.join sep texts)) :=
      (Bare.look _).bind fun values => (bare_textsOf _).bind fun texts => .pure _
    dsimp only [Builtin.call]
    split
    · refine (htext 1).bind fun sep => ?_
      split
      · exact hjoined sep _
      · exact .pure _
    · split
      · exact hjoined " " _
      · exact .pure _
  | explode =>
    have hrest (seps : String) : Bare (textOf (args.getD 0 .void) >>= fun s =>
        onMemory (Memory.newArray
          ((Text.Pieces.words (fun c => seps.toList.contains c) s).map .str))) :=
      (htext 0).bind fun s => bare_onMemory (Memory.bare_newArray _)
    dsimp only [Builtin.call]
    split
    · exact (htext 1).bind fun seps => hrest seps
    · exact hrest blanks
  | substr | charAt =>
    exact (htext 0).bind fun s => (bare_bytePosition _ _ _).bind fun start => .pure _
  | print | println => exact (bare_textsOf _).bind fun texts => (Bare.change _).bind fun _ => .pure _
  | fail => exact (htext 0).bind fun s => .fault _
  | matching | excluding => exact (bare_compileGlobs _).bind fun patterns => bare_filterGlob _ _ _
  | absPath => exact (Bare.look _).bind fun run => bare_onMemory (Memory.bare_mapTexts _ _)
  | relPath =>
    refine (Bare.look _).bind fun run => ?_
    dsimp only
    split
    · exact (bare_textOf _).bind fun s => bare_onMemory (Memory.bare_mapTexts _ _)
    · exact bare_onMemory (Memory.bare_mapTexts _ _)
  | sep =>
    cases args with
    | nil => exact .pure _
    | cons v rest => exact bare_onMemory (Memory.bare_mapTexts _ _)
  | cd => exact (htext 0).bind fun s => bare_changeDirectory s
  | fileExists => exact hpath 0 fun path => (Bare.look _).bind fun there => .pure _
  | files => exact (htext 0).bind fun s => bare_listFiles s
  | readFile =>
    refine hpath 0 fun path => (Bare.look _).bind fun files => ?_
    split
    · exact .pure _
    · exact .fault _
  | writeFile =>
    refine hpath 0 fun path => (htext 1).bind fun content => ?_
    have hwrite := bare_onFiles (FileSystem.bare_write path content.toUTF8)
    exact (hwrite.mapError fun _ he => bare_of_because he).bind fun _ => .pure _
  | mkdir =>
    exact hpath 0 fun path => (bare_onFiles (FileSystem.bare_makeDirs path)).bind fun _ => .pure _
  | delete =>
    refine (bare_flatten args).bind fun names => (Bare.forAll (fun name => ?_) names).bind fun _ => .pure _
    exact (Bare.look _).bind fun path => bare_onFiles (FileSystem.bare_delete path)
  | copy =>
    refine (bare_textOf _).bind fun target => (Bare.look _).bind fun target => ?_
    refine (bare_flatten _).bind fun names => (Bare.forAll (fun name => ?_) names).bind fun _ => .pure _
    refine (Bare.look _).bind fun source => ?_
    exact (bare_onFiles (FileSystem.bare_copy source target)).mapError fun _ he => bare_of_because he
  | run => exact bare_runProgram false args
  | capture => exact bare_runProgram true args

end Builtin

end Kiln
