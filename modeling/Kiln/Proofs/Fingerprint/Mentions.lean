import Kiln.Proofs.Fingerprint.Written

/-!
# Kiln.Proofs.Fingerprint.Mentions — the names a statement refers to

A fingerprint reads the values of the variables that occur in the code, and the functions that are
called in it; it is written if all of them can be.  What a call contributes may read more: a variable
is read by a statement if it occurs in the statement, or if the body of a function that is called in
it reads the variable.
-/

namespace Kiln

/-- A name that code refers to. -/
inductive Mention where
  | var (name : String)
  | fn (name : String)

namespace Expr

mutual

/-- The names an expression refers to. -/
def mentions : Expr → List Mention
  | .const _ => []
  | .var name => [.var name]
  | .array es => mentionsAll es
  | .dict ps => mentionsEntries ps
  | .unary _ arg | .bump _ _ arg => mentions arg
  | .binary _ left right => mentions left ++ mentions right
  | .ternary cond yes no => mentions cond ++ mentions yes ++ mentions no
  | .builtin _ args => mentionsAll args
  | .call name args => .fn name :: mentionsAll args

/-- The names a list of expressions refers to. -/
def mentionsAll : List Expr → List Mention
  | [] => []
  | e :: rest => mentions e ++ mentionsAll rest

/-- The names the entries of a dictionary refer to. -/
def mentionsEntries : List (Expr × Expr) → List Mention
  | [] => []
  | (k, v) :: rest => mentions k ++ mentions v ++ mentionsEntries rest

end

/-- The names an optional expression refers to. -/
def mentionsClause : Option Expr → List Mention
  | none => []
  | some e => e.mentions

end Expr

namespace Stmt

mutual

/-- The names a statement refers to; the variable of a loop over a container is only written. -/
def mentions : Stmt → List Mention
  | .expr _ e | .includeStmt _ e | .usingStmt _ e => e.mentions
  | .block _ ss => mentionsAll ss
  | .branch _ cond yes none => cond.mentions ++ mentions yes
  | .branch _ cond yes (some no) => cond.mentions ++ mentions yes ++ mentions no
  | .loop _ init cond next body =>
    Expr.mentionsClause init ++ Expr.mentionsClause cond ++ Expr.mentionsClause next ++ mentions body
  | .foreach _ _ e body | .depends _ e body => e.mentions ++ mentions body
  | .breakStmt _ | .continueStmt _ => []
  | .returnStmt _ value => Expr.mentionsClause value

/-- The names a list of statements refers to. -/
def mentionsAll : List Stmt → List Mention
  | [] => []
  | s :: rest => mentions s ++ mentionsAll rest

end

/-- The statement reads the variable, itself or in the body of a function that is reached through its
calls. -/
inductive Reads (functions : Table Function) (x : String) : Stmt → Prop
  | here {s : Stmt} : .var x ∈ s.mentions → Reads functions x s
  | call {s : Stmt} {name : String} {f : Function} : .fn name ∈ s.mentions →
    functions.get? name = some f → Reads functions x f.body → Reads functions x s

end Stmt

/-! ## What is written -/

namespace Outcome

variable {α β : Type}

/-- The outcome is a value. -/
def IsOk (o : Outcome α) : Prop := ∃ a, o = .ok a

theorem isOk_pure (a : α) : (pure a : Outcome α).IsOk := ⟨a, rfl⟩

theorem isOk_bind {o : Outcome α} {f : α → Outcome β} {p : Prop} (hf : ∀ a, (f a).IsOk ↔ p) :
    (o >>= f).IsOk ↔ o.IsOk ∧ p := by
  constructor
  · rintro ⟨b, h⟩
    obtain ⟨a, ho, ha⟩ := bind_eq_ok.mp h
    exact ⟨⟨a, ho⟩, (hf a).mp ⟨b, ha⟩⟩
  · rintro ⟨⟨a, ho⟩, hp⟩
    obtain ⟨b, ha⟩ := (hf a).mpr hp
    exact ⟨b, bind_eq_ok.mpr ⟨a, ho, ha⟩⟩

theorem isOk_map {o : Outcome α} {f : α → β} : (o >>= fun a => pure (f a)).IsOk ↔ o.IsOk :=
  (isOk_bind fun a => iff_of_true (isOk_pure (f a)) trivial).trans (Iff.of_eq (and_true _))

end Outcome

namespace Fingerprint

open Outcome

variable {view : View} {callee : String → Outcome String}

/-- What the name stands for can be written. -/
def Known (view : View) (callee : String → Outcome String) : Mention → Prop
  | .var name => ∃ t, view.value name = some t
  | .fn name => (callee name).IsOk

mutual

theorem isOk_exprWith : ∀ e : Expr,
    (exprWith view callee e).IsOk ↔ ∀ m ∈ e.mentions, Known view callee m
  | .const value => by simp [exprWith, Expr.mentions, isOk_pure]
  | .var name => by
    simp only [exprWith, reference, Expr.mentions, List.mem_singleton, forall_eq, Known]
    cases view.value name <;> simp [IsOk]
  | .array es => by
    rw [Expr.mentions, ← isOk_labelledWith ":elem:" es]
    exact isOk_map
  | .dict ps => by
    rw [Expr.mentions, ← isOk_pairsWith ps]
    exact isOk_map
  | .unary op arg | .bump op side arg => by
    rw [Expr.mentions, ← isOk_exprWith arg]
    exact isOk_map
  | .binary op left right => by
    simp only [Expr.mentions, List.forall_mem_append, ← isOk_exprWith left, ← isOk_exprWith right]
    exact isOk_bind fun _ => isOk_map
  | .ternary cond yes no => by
    simp only [Expr.mentions, List.forall_mem_append, ← isOk_exprWith cond, ← isOk_exprWith yes,
      ← isOk_exprWith no, and_assoc]
    exact isOk_bind fun _ => isOk_bind fun _ => isOk_map
  | .builtin fn args => by
    rw [Expr.mentions, ← isOk_labelledWith ":arg:" args]
    exact isOk_map
  | .call name args => by
    rw [Expr.mentions, List.forall_mem_cons, ← isOk_labelledWith ":arg:" args]
    exact isOk_bind fun _ => isOk_map

theorem isOk_labelledWith (label : String) : ∀ es : List Expr,
    (labelledWith view callee label es).IsOk ↔ ∀ m ∈ Expr.mentionsAll es, Known view callee m
  | [] => by simp [labelledWith, Expr.mentionsAll, isOk_pure]
  | e :: rest => by
    simp only [Expr.mentionsAll, List.forall_mem_append, ← isOk_exprWith e,
      ← isOk_labelledWith label rest]
    exact isOk_bind fun _ => isOk_map

theorem isOk_pairsWith : ∀ ps : List (Expr × Expr),
    (pairsWith view callee ps).IsOk ↔ ∀ m ∈ Expr.mentionsEntries ps, Known view callee m
  | [] => by simp [pairsWith, Expr.mentionsEntries, isOk_pure]
  | (k, v) :: rest => by
    simp only [Expr.mentionsEntries, List.forall_mem_append, ← isOk_exprWith k, ← isOk_exprWith v,
      ← isOk_pairsWith rest, and_assoc]
    exact isOk_bind fun _ => isOk_bind fun _ => isOk_map

end

theorem isOk_clauseWith (label : String) (clause : Option Expr) :
    (clauseWith view callee label clause).IsOk ↔
      ∀ m ∈ Expr.mentionsClause clause, Known view callee m := by
  cases clause with
  | none => simp [clauseWith, Expr.mentionsClause, isOk_pure]
  | some e => exact isOk_map.trans (isOk_exprWith e)

mutual

/-- The fingerprint of a statement is written if all it refers to can be. -/
theorem isOk_stmtWith : ∀ s : Stmt,
    (stmtWith view callee s).IsOk ↔ ∀ m ∈ s.mentions, Known view callee m
  | .expr _ e | .includeStmt _ e | .usingStmt _ e => by
    rw [Stmt.mentions, ← isOk_exprWith e]
    exact isOk_map
  | .block _ ss => by
    rw [Stmt.mentions, ← isOk_stmtsWith ss]
    exact isOk_map
  | .branch _ cond yes none => by
    simp only [Stmt.mentions, List.forall_mem_append, ← isOk_exprWith cond, ← isOk_stmtWith yes]
    exact isOk_bind fun _ => isOk_map
  | .branch _ cond yes (some no) => by
    simp only [Stmt.mentions, List.forall_mem_append, ← isOk_exprWith cond, ← isOk_stmtWith yes,
      ← isOk_stmtWith no, and_assoc]
    exact isOk_bind fun _ => isOk_bind fun _ => isOk_map
  | .loop _ init cond next body => by
    simp only [Stmt.mentions, List.forall_mem_append, ← isOk_clauseWith "init:" init,
      ← isOk_clauseWith "while:" cond, ← isOk_clauseWith "next:" next,
      ← isOk_stmtWith body, and_assoc]
    exact isOk_bind fun _ => isOk_bind fun _ => isOk_bind fun _ => isOk_map
  | .foreach _ _ e body | .depends _ e body => by
    simp only [Stmt.mentions, List.forall_mem_append, ← isOk_exprWith e, ← isOk_stmtWith body]
    exact isOk_bind fun _ => isOk_map
  | .breakStmt _ | .continueStmt _ => by simp [stmtWith, Stmt.mentions, isOk_pure]
  | .returnStmt _ value => by
    rw [Stmt.mentions, ← isOk_clauseWith "" value]
    exact isOk_map

theorem isOk_stmtsWith : ∀ ss : List Stmt,
    (stmtsWith view callee ss).IsOk ↔ ∀ m ∈ Stmt.mentionsAll ss, Known view callee m
  | [] => by simp [stmtsWith, Stmt.mentionsAll, isOk_pure]
  | s :: rest => by
    simp only [Stmt.mentionsAll, List.forall_mem_append, ← isOk_stmtWith s, ← isOk_stmtsWith rest]
    exact isOk_bind fun _ => isOk_map

end

end Fingerprint

end Kiln
