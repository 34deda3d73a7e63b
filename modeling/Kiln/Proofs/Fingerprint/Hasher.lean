import Kiln.Proofs.Fingerprint.Agreement
import Kiln.Proofs.Law

/-!
# Kiln.Proofs.Fingerprint.Hasher — writing a fingerprint piece by piece

A fingerprint can be written from the left, one piece at a time, by a program with two variables: the
text so far, and the stack of the functions whose bodies it is in.  A name is pushed before the body
of its function is written and popped afterwards, also where writing the body fails.

`Follows` says that such a program ends as a fingerprint does for which the functions in progress are
those on the stack, writes that fingerprint, and leaves the stack as it was.  There is one rule for
each way to put programs together, and `follows_stmt` and `follows_call` are read off these.
-/

namespace Kiln

instance : LawfulMonad Outcome :=
  LawfulMonad.mk' Outcome (fun o => by cases o <;> rfl) (fun _ _ => rfl)
    fun o _ _ => by cases o <;> rfl

namespace Fingerprint

/-- What is written so far, and the functions whose bodies are being written, innermost first. -/
structure Hasher where
  fed : String
  active : List String

namespace Hasher

/-! ## The program -/

/-- Writes a piece. -/
def update (text : String) : Step Hasher Unit :=
  .change fun h => { h with fed := h.fed ++ text }

/-- Writes the header of a node. -/
def node (tag : String) : Step Hasher Unit := update (Digest.header tag)

/-- Writes the value of a variable. -/
def value (view : View) (name : String) : Step Hasher Unit :=
  match view.value name with
  | some t => update t.encode
  | none => .stuck

section Syntax

variable (view : View) (callee : String → Step Hasher Unit)

mutual

/-- Writes an expression. -/
def expr : Expr → Step Hasher Unit
  | .const v => do
    node "const"
    update (literal v)
  | .var name => do
    node "var"
    update ":name:"
    update name
    update ":value:"
    value view name
  | .array elements => do
    node "array"
    labelled ":elem:" elements
  | .dict pairs => do
    node "dict"
    entries pairs
  | .unary op arg => do
    node "unary"
    update (sideWord .before ++ toString op.level ++ ":")
    expr arg
  | .bump op side arg => do
    node "unary"
    update (sideWord side ++ toString op.level ++ ":")
    expr arg
  | .binary op left right => do
    node "binary"
    update (toString op.level ++ ":")
    update ":lhs:"
    expr left
    update ":rhs:"
    expr right
  | .ternary cond yes no => do
    node "ternary"
    expr cond
    expr yes
    expr no
  | .builtin fn args => do
    node fn.name
    labelled ":arg:" args
  | .call name args => do
    node "call"
    update ":name:"
    update name
    update ":func:"
    callee name
    labelled ":arg:" args

/-- Writes a list of expressions, each after the label. -/
def labelled (label : String) : List Expr → Step Hasher Unit
  | [] => return ()
  | e :: rest => do
    update label
    expr e
    labelled label rest

/-- Writes the keys and values of a dictionary. -/
def entries : List (Expr × Expr) → Step Hasher Unit
  | [] => return ()
  | (k, v) :: rest => do
    update ":key:"
    expr k
    update ":value:"
    expr v
    entries rest

end

/-- Writes an optional expression after the label. -/
def clause (label : String) : Option Expr → Step Hasher Unit
  | none => return ()
  | some e => do
    update label
    expr view callee e

mutual

/-- Writes a statement. -/
def stmt : Stmt → Step Hasher Unit
  | .expr _ e => do
    node "expr-stmt"
    expr view callee e
  | .block _ body => do
    node "compound"
    stmts body
  | .branch _ cond yes none => do
    node "if"
    update "expr:"
    expr view callee cond
    update "then:"
    stmt yes
  | .branch _ cond yes (some no) => do
    node "if"
    update "expr:"
    expr view callee cond
    update "then:"
    stmt yes
    update "else:"
    stmt no
  | .loop _ init cond next body => do
    node "for"
    clause view callee "init:" init
    clause view callee "while:" cond
    clause view callee "next:" next
    update "loop:"
    stmt body
  | .foreach _ name items body => do
    node "foreach"
    update "init:"
    expr view callee items
    update "loop:"
    stmt body
    update "foreach:"
    update name
  | .breakStmt _ => node "break"
  | .continueStmt _ => node "continue"
  | .returnStmt _ value => do
    node "return"
    clause view callee "" value
  | .depends _ paths action => do
    node "depends"
    update "expr:"
    expr view callee paths
    update "stmt:"
    stmt action
  | .includeStmt _ path => do
    node "include"
    expr view callee path
  | .usingStmt _ path => do
    node "using"
    expr view callee path

/-- Writes a list of statements. -/
def stmts : List Stmt → Step Hasher Unit
  | [] => return ()
  | s :: rest => do
    stmt s
    stmts rest

end

end Syntax

/-- Runs `m` with a name on the stack, and takes it off afterwards, however `m` ends. -/
def inside (name : String) (m : Step Hasher Unit) : Step Hasher Unit := fun h =>
  match m { h with active := name :: h.active } with
  | (o, h') => (o, { h' with active := h'.active.tail })

/-- Writes the parameters of a function. -/
def params (names : List String) : Step Hasher Unit :=
  .forAll (fun p => do update ":arg:"; update p) names

/-- Writes what a call contributes of the function, unless its body is being written.  No more than
`depth` bodies are opened inside of each other. -/
def call (view : View) : Nat → String → Step Hasher Unit
  | 0, name => do
    let h ← Step.state
    if h.active.contains name then return ()
    else
      match view.functions.get? name with
      | none => .fault (.undefinedFunction name)
      | some _ => .stuck
  | depth + 1, name => do
    let h ← Step.state
    if h.active.contains name then return ()
    else
      match view.functions.get? name with
      | none => .fault (.undefinedFunction name)
      | some f => inside name do
        params f.params
        update ":body:"
        stmt view (call view depth) f.body

/-! ## It writes the fingerprint -/

/-- How a fingerprint ends, without its text. -/
def ending : Outcome String → Outcome Unit
  | .ok _ => .ok ()
  | .error e => .error e
  | .exhausted => .exhausted

/-- With `o` as the fingerprint for each stack: the program ends as it does, leaves the stack as it
was, whether it fails or not, and where it does not fail has written the fingerprint. -/
def Follows (m : Step Hasher Unit) (o : List String → Outcome String) : Prop :=
  ∀ h, ∃ fed, m h = (ending (o h.active), ⟨fed, h.active⟩) ∧
    ∀ text, o h.active = .ok text → fed = h.fed ++ text

section Rules

variable {m m' : Step Hasher Unit} {o o' : List String → Outcome String}

theorem Follows.congr (h : Follows m o) (ho : ∀ active, o active = o' active) : Follows m o' := by
  have heq : o = o' := funext ho
  rw [← heq]
  exact h

theorem follows_pure : Follows (pure ()) fun _ => pure "" := by
  intro h
  refine ⟨h.fed, rfl, fun text htext => ?_⟩
  rw [← Outcome.pure_eq_ok.mp htext, String.append_empty]

theorem follows_update (text : String) : Follows (update text) fun _ => pure text := by
  intro h
  refine ⟨h.fed ++ text, rfl, fun text' htext => ?_⟩
  rw [← Outcome.pure_eq_ok.mp htext]

theorem Follows.andThen (h : Follows m o) (h' : Follows m' o') : Follows (m >>= fun _ => m')
    fun active => o active >>= fun a => o' active >>= fun b => pure (a ++ b) := by
  rintro ⟨start, active⟩
  obtain ⟨fed, hrun, hfed⟩ := h ⟨start, active⟩
  dsimp only at hrun hfed ⊢
  cases ho : o active with
  | error e =>
    rw [ho] at hrun
    exact ⟨fed, Step.bind_run_error hrun _, nofun⟩
  | exhausted =>
    rw [ho] at hrun
    refine ⟨fed, ?_, nofun⟩
    rw [Step.bind_run, hrun]
    rfl
  | ok a =>
    rw [ho] at hrun
    obtain ⟨fed', hrun', hfed'⟩ := h' ⟨fed, active⟩
    dsimp only at hrun' hfed'
    have hafter : (m >>= fun _ => m') ⟨start, active⟩ = (ending (o' active), ⟨fed', active⟩) := by
      rw [Step.bind_run_ok hrun, hrun']
    refine ⟨fed', ?_, fun text htext => ?_⟩
    · rw [hafter]
      cases o' active <;> rfl
    · have htext : (o' active >>= fun b => pure (a ++ b)) = .ok text := htext
      obtain ⟨b, hb, htext⟩ := Outcome.bind_eq_ok.mp htext
      rw [hfed' b hb, hfed a ho, String.append_assoc, Outcome.pure_eq_ok.mp htext]

/-- A piece before something else. -/
theorem Follows.after (h : Follows m o) (text : String) : Follows (update text >>= fun _ => m)
    fun active => o active >>= fun a => pure (text ++ a) :=
  (follows_update text).andThen h

theorem follows_value (view : View) (name : String) : Follows (value view name) fun _ =>
    match view.value name with
    | some t => .ok t.encode
    | none => .exhausted := by
  unfold value
  cases view.value name with
  | some t => exact follows_update t.encode
  | none => exact fun h => ⟨h.fed, rfl, nofun⟩

end Rules

section Syntax

variable (view : View) {callee : String → Step Hasher Unit}
  {written : String → List String → Outcome String}

/-- What a call contributes is written as it is in the fingerprint. -/
def FollowsCalls (callee : String → Step Hasher Unit)
    (written : String → List String → Outcome String) : Prop :=
  ∀ name, Follows (callee name) (written name)

mutual

theorem follows_expr (hf : FollowsCalls callee written) : ∀ e : Expr,
    Follows (expr view callee e) fun active => exprWith view (written · active) e
  | .const v => (follows_update (literal v)).after _
  | .var name => by
    have hvalue := (follows_value view name).after ":value:"
    have hname := (hvalue.after name).after ":name:"
    refine (hname.after (Digest.header "var")).congr fun _ => ?_
    simp only [exprWith, reference]
    cases view.value name <;> simp [bind, Outcome.andThen, String.append_assoc, pure]
  | .array es => (follows_labelled hf ":elem:" es).after _
  | .dict ps => (follows_entries hf ps).after _
  | .unary op arg => by
    have harg := (follows_expr hf arg).after (sideWord .before ++ toString op.level ++ ":")
    refine (harg.after (Digest.header "unary")).congr fun _ => ?_
    simp only [exprWith, bind_assoc, pure_bind, String.append_assoc]
  | .bump op side arg => by
    have harg := (follows_expr hf arg).after (sideWord side ++ toString op.level ++ ":")
    refine (harg.after (Digest.header "unary")).congr fun _ => ?_
    simp only [exprWith, bind_assoc, pure_bind, String.append_assoc]
  | .binary op left right => by
    have hright := (follows_expr hf right).after ":rhs:"
    have hleft := ((follows_expr hf left).andThen hright).after ":lhs:"
    have hop := hleft.after (toString op.level ++ ":")
    refine (hop.after (Digest.header "binary")).congr fun _ => ?_
    simp only [exprWith, bind_assoc, pure_bind, String.append_assoc]
  | .ternary cond yes no => by
    have hbranches := (follows_expr hf yes).andThen (follows_expr hf no)
    have hcond := (follows_expr hf cond).andThen hbranches
    refine (hcond.after (Digest.header "ternary")).congr fun _ => ?_
    simp only [exprWith, bind_assoc, pure_bind, String.append_assoc]
  | .builtin fn args => (follows_labelled hf ":arg:" args).after _
  | .call name args => by
    have hbody := ((hf name).andThen (follows_labelled hf ":arg:" args)).after ":func:"
    have hname := (hbody.after name).after ":name:"
    refine (hname.after (Digest.header "call")).congr fun _ => ?_
    simp only [exprWith, bind_assoc, pure_bind, String.append_assoc]

theorem follows_labelled (hf : FollowsCalls callee written) (label : String) : ∀ es : List Expr,
    Follows (labelled view callee label es) fun active =>
      labelledWith view (written · active) label es
  | [] => follows_pure
  | e :: rest => by
    have hitems := (follows_expr hf e).andThen (follows_labelled hf label rest)
    refine (hitems.after label).congr fun _ => ?_
    simp only [labelledWith, bind_assoc, pure_bind, String.append_assoc]

theorem follows_entries (hf : FollowsCalls callee written) : ∀ ps : List (Expr × Expr),
    Follows (entries view callee ps) fun active => pairsWith view (written · active) ps
  | [] => follows_pure
  | (k, v) :: rest => by
    have hvalue := ((follows_expr hf v).andThen (follows_entries hf rest)).after ":value:"
    have hkey := (follows_expr hf k).andThen hvalue
    refine (hkey.after ":key:").congr fun _ => ?_
    simp only [pairsWith, bind_assoc, pure_bind, String.append_assoc]

end

theorem follows_clause (hf : FollowsCalls callee written) (label : String) (e : Option Expr) :
    Follows (clause view callee label e) fun active =>
      clauseWith view (written · active) label e := by
  cases e with
  | none => exact follows_pure
  | some e => exact (follows_expr view hf e).after label

mutual

/-- A statement is written as its fingerprint, if functions are. -/
theorem follows_stmt (hf : FollowsCalls callee written) : ∀ s : Stmt,
    Follows (stmt view callee s) fun active => stmtWith view (written · active) s
  | .expr _ e | .includeStmt _ e | .usingStmt _ e => (follows_expr view hf e).after _
  | .block _ ss => (follows_stmts hf ss).after _
  | .branch _ cond yes none => by
    have hyes := (follows_stmt hf yes).after "then:"
    have hcond := ((follows_expr view hf cond).andThen hyes).after "expr:"
    refine (hcond.after (Digest.header "if")).congr fun _ => ?_
    simp only [stmtWith, bind_assoc, pure_bind, String.append_assoc]
  | .branch _ cond yes (some no) => by
    have hno := (follows_stmt hf no).after "else:"
    have hyes := ((follows_stmt hf yes).andThen hno).after "then:"
    have hcond := ((follows_expr view hf cond).andThen hyes).after "expr:"
    refine (hcond.after (Digest.header "if")).congr fun _ => ?_
    simp only [stmtWith, bind_assoc, pure_bind, String.append_assoc]
  | .loop _ init cond next body => by
    have hbody := (follows_stmt hf body).after "loop:"
    have hnext := (follows_clause view hf "next:" next).andThen hbody
    have hcond := (follows_clause view hf "while:" cond).andThen hnext
    have hinit := (follows_clause view hf "init:" init).andThen hcond
    refine (hinit.after (Digest.header "for")).congr fun _ => ?_
    simp only [stmtWith, bind_assoc, pure_bind, String.append_assoc]
  | .foreach _ name items body => by
    have hname := (follows_update name).after "foreach:"
    have hbody := ((follows_stmt hf body).andThen hname).after "loop:"
    have hitems := ((follows_expr view hf items).andThen hbody).after "init:"
    refine (hitems.after (Digest.header "foreach")).congr fun _ => ?_
    simp only [stmtWith, bind_assoc, pure_bind, String.append_assoc]
  | .breakStmt _ | .continueStmt _ => follows_update _
  | .returnStmt _ value => (follows_clause view hf "" value).after _
  | .depends _ paths action => by
    have haction := (follows_stmt hf action).after "stmt:"
    have hpaths := ((follows_expr view hf paths).andThen haction).after "expr:"
    refine (hpaths.after (Digest.header "depends")).congr fun _ => ?_
    simp only [stmtWith, bind_assoc, pure_bind, String.append_assoc]

theorem follows_stmts (hf : FollowsCalls callee written) : ∀ ss : List Stmt,
    Follows (stmts view callee ss) fun active => stmtsWith view (written · active) ss
  | [] => follows_pure
  | s :: rest => by
    refine ((follows_stmt hf s).andThen (follows_stmts hf rest)).congr fun _ => ?_
    simp only [stmtsWith]

end

end Syntax

theorem follows_params : ∀ names : List String,
    Follows (params names) fun _ => pure (parameters names)
  | [] => follows_pure
  | p :: rest => by
    have h := ((follows_update p).after ":arg:").andThen (follows_params rest)
    refine h.congr fun _ => ?_
    simp only [parameters, List.map_cons, String.join_cons, pure_bind]

/-- What is done with a name on the stack leaves the stack as it was, if it leaves it as it found
it. -/
theorem Follows.inside {m : Step Hasher Unit} {o : List String → Outcome String} (h : Follows m o)
    (name : String) : Follows (inside name m) fun active => o (name :: active) := by
  intro s
  obtain ⟨fed, hrun, hfed⟩ := h { s with active := name :: s.active }
  refine ⟨fed, ?_, hfed⟩
  simp only [Hasher.inside, hrun, List.tail_cons]

theorem follows_fault (f : Fault) : Follows (.fault f) fun _ => .error (.fault f) :=
  fun h => ⟨h.fed, rfl, nofun⟩

theorem follows_stuck : Follows .stuck fun _ => .exhausted :=
  fun h => ⟨h.fed, rfl, nofun⟩

/-- Nothing is written of a function whose body is being written. -/
theorem Follows.unlessActive {m : Step Hasher Unit} {o : List String → Outcome String}
    (h : Follows m o) (name : String) :
    Follows (do let h ← Step.state; if h.active.contains name then return () else m)
      fun active => if active.contains name then .ok "" else o active := by
  intro s
  by_cases hactive : s.active.contains name = true
  · obtain ⟨fed, hrun, hfed⟩ := follows_pure s
    refine ⟨fed, ?_, ?_⟩
    · simp only [Step.bind_run, Step.state, if_pos hactive]
      exact hrun
    · simp only [if_pos hactive]
      exact hfed
  · obtain ⟨fed, hrun, hfed⟩ := h s
    refine ⟨fed, ?_, ?_⟩
    · simp only [Step.bind_run, Step.state, if_neg hactive]
      exact hrun
    · simp only [if_neg hactive]
      exact hfed

/-- What a call contributes is written as it is in the fingerprint, whichever bodies are open. -/
theorem follows_call (view : View) : ∀ depth : Nat,
    FollowsCalls (call view depth) fun name active => functionWithin view depth active name := by
  intro depth
  induction depth with
  | zero =>
    intro name
    cases hget : view.functions.get? name with
    | none =>
      simp only [call, functionWithin, hget]
      exact (follows_fault _).unlessActive name
    | some f =>
      simp only [call, functionWithin, hget]
      exact follows_stuck.unlessActive name
  | succ depth ih =>
    intro name
    cases hget : view.functions.get? name with
    | none =>
      simp only [call, functionWithin, hget]
      exact (follows_fault _).unlessActive name
    | some f =>
      simp only [call, functionWithin, hget]
      have hbody := (follows_stmt view ih f.body).after ":body:"
      have hopen := ((follows_params f.params).andThen hbody).inside name
      refine (hopen.congr fun _ => ?_).unlessActive name
      simp only [bind_assoc, pure_bind, String.append_assoc]

end Hasher

end Fingerprint

end Kiln
