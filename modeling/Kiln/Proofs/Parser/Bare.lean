import Kiln.Module
import Kiln.Proofs.Bare

/-!
# Kiln.Proofs.Parser.Bare — errors of reading carry no statement

What goes wrong while a source text is read is a bad character or a bad token, never an error that a
statement has raised: every function of the parser is `Bare`.  The mutual ones are taken together
under one bound of depth.
-/

namespace Kiln

open Step

namespace Parser

/-! ## Tokens -/

theorem bare_scan : Bare scan := by
  intro s e he
  unfold scan at he
  split at he
  · cases he
    trivial
  · simp only at he
    split at he
    · cases he
    · split at he <;> cases he
      trivial

theorem bare_token : Bare token := by
  intro s e he
  have hscan := bare_scan s
  unfold token at he
  split at he
  · cases he
  · rcases h : scan s with ⟨o, s'⟩
    rw [h] at he hscan
    cases o with
    | ok t => cases he
    | error e' => exact hscan e he
    | exhausted => cases he

theorem bare_pushBack (t : Token) : Bare (pushBack t) := .change _

theorem bare_complain {α : Type} (text : String) : Bare (complain text : Parser α) :=
  fun _ => .error trivial

theorem bare_expect (text complaint : String) : Bare (expect text complaint) := by
  refine bare_token.bind fun t => ?_
  split
  · exact .pure t
  · exact bare_complain _

/-! ## Expressions -/

theorem bare_finishCall (name : String) (args : List Expr) : Bare (finishCall name args) := by
  unfold finishCall
  split
  · exact .pure _
  · split
    · exact bare_complain _
    · exact .pure _

theorem bare_closeSubscript (op : BinaryOp) : Bare (closeSubscript op) := by
  unfold closeSubscript
  split
  · exact (bare_expect _ _).bind fun _ => .pure ()
  · exact .pure ()

/-- With one bound on the depth, every function that reads expressions is bare. -/
structure BareExpressions (n : Nat) : Prop where
  expression : ∀ level, Bare (expressionWithin n level)
  operators : ∀ level left, Bare (operatorsWithin n level left)
  operand : Bare (operandWithin n)
  primary : Bare (primaryWithin n)
  arguments : Bare (argumentsWithin n)
  elements : Bare (elementsWithin n)
  pairs : Bare (pairsWithin n)
  key : ∀ t, Bare (keyWithin n t)

namespace BareExpressions

variable {n : Nat} (h : BareExpressions n)
include h

theorem operators_succ (level : Nat) (left : Expr) : Bare (operatorsWithin (n + 1) level left) := by
  have hleave (t : Token) : Bare (pushBack t >>= fun _ => (pure left : Parser Expr)) :=
    (bare_pushBack t).bind fun _ => .pure left
  refine bare_token.bind fun t => ?_
  split
  · exact hleave t
  · split
    · refine bare_token.bind fun name => ?_
      split
      · exact (bare_pushBack _).bind fun _ => hleave t
      · refine bare_token.bind fun next => ?_
        split
        · refine h.arguments.bind fun args => (bare_finishCall _ _).bind fun call => ?_
          exact h.operators level call
        · exact (bare_pushBack _).bind fun _ => h.operators level _
    · split
      · split
        · exact hleave t
        · refine (h.expression 0).bind fun yes => (bare_expect _ _).bind fun _ => ?_
          exact (h.expression 0).bind fun no => h.operators level _
      · split
        · exact hleave t
        · split
          · exact hleave t
          · refine (h.expression _).bind fun right => (bare_closeSubscript _).bind fun _ => ?_
            exact h.operators level _

theorem operand_succ : Bare (operandWithin (n + 1)) := by
  refine h.primary.bind fun base => bare_token.bind fun t => ?_
  split
  · exact .pure _
  · exact (bare_pushBack t).bind fun _ => .pure base

theorem primary_succ : Bare (primaryWithin (n + 1)) := by
  refine bare_token.bind fun t => ?_
  split
  · exact .pure _
  · exact .pure _
  · refine bare_token.bind fun next => ?_
    split
    · exact h.arguments.bind fun args => bare_finishCall _ _
    · exact (bare_pushBack _).bind fun _ => .pure _
  · split
    · exact h.operand.bind fun arg => .pure _
    · exact h.operand.bind fun arg => .pure _
    · exact bare_complain _
  · split
    · exact (h.expression 0).bind fun e => (bare_expect _ _).bind fun _ => .pure e
    · split
      · exact h.elements.bind fun elements => .pure _
      · split
        · exact h.pairs.bind fun pairs => .pure _
        · exact bare_complain _
  · exact bare_complain _

theorem arguments_succ : Bare (argumentsWithin (n + 1)) := by
  refine bare_token.bind fun t => ?_
  split
  · exact .pure _
  · refine (bare_pushBack t).bind fun _ => (h.expression 0).bind fun arg => bare_token.bind fun s => ?_
    split
    · exact .pure _
    · split
      · exact h.arguments.bind fun rest => .pure _
      · exact bare_complain _

theorem elements_succ : Bare (elementsWithin (n + 1)) := by
  refine bare_token.bind fun t => ?_
  split
  · exact .pure _
  · refine (bare_pushBack t).bind fun _ => (h.expression 0).bind fun e => bare_token.bind fun s => ?_
    split
    · exact .pure _
    · split
      · exact h.elements.bind fun rest => .pure _
      · exact bare_complain _

theorem pairs_succ : Bare (pairsWithin (n + 1)) := by
  refine bare_token.bind fun t => ?_
  split
  · exact .pure _
  · refine (h.key t).bind fun key => (bare_expect _ _).bind fun _ => ?_
    refine (h.expression 0).bind fun value => bare_token.bind fun s => ?_
    split
    · exact .pure _
    · split
      · exact h.pairs.bind fun rest => .pure _
      · exact bare_complain _

theorem key_succ (t : Token) : Bare (keyWithin (n + 1) t) := by
  unfold keyWithin
  split
  · refine bare_token.bind fun name => ?_
    split
    · exact .pure _
    · exact bare_complain _
  · exact (bare_pushBack t).bind fun _ => h.expression 0

end BareExpressions

theorem bareExpressions (n : Nat) : BareExpressions n := by
  induction n with
  | zero => constructor <;> intros <;> exact .stuck
  | succ n ih =>
    exact {
      expression := fun level => ih.operand.bind fun left => ih.operators level left
      operators := ih.operators_succ
      operand := ih.operand_succ
      primary := ih.primary_succ
      arguments := ih.arguments_succ
      elements := ih.elements_succ
      pairs := ih.pairs_succ
      key := ih.key_succ }

/-! ## Statements -/

theorem bare_clauseWithin (n : Nat) (stop : String) : Bare (clauseWithin n stop) := by
  refine bare_token.bind fun t => (bare_pushBack t).bind fun _ => ?_
  split
  · exact .pure none
  · exact ((bareExpressions n).expression 0).bind fun e => .pure _

theorem bare_foreachHead : Bare foreachHead := by
  refine bare_token.bind fun first => ?_
  split
  · refine bare_token.bind fun second => ?_
    split
    · exact .pure _
    · exact (bare_pushBack _).bind fun _ => (bare_pushBack _).bind fun _ => .pure none
  · exact (bare_pushBack _).bind fun _ => .pure none

/-- An expression and the word after it. -/
theorem bare_expression_expect {α : Type} {n : Nat} {text complaint : String}
    {f : Expr → Parser α} (hf : ∀ e, Bare (f e)) :
    Bare (do
      let e ← expressionWithin n 0
      let _ ← expect text complaint
      f e) :=
  ((bareExpressions n).expression 0).bind fun e => (bare_expect _ _).bind fun _ => hf e

theorem bare_statement_succ {n : Nat} (hs : Bare (statementWithin n)) (hb : Bare (blockWithin n)) :
    Bare (statementWithin (n + 1)) := by
  refine bare_token.bind fun t => (Bare.look _).bind fun loc => ?_
  split
  · exact hb.bind fun body => .pure _
  · refine (bare_expect _ _).bind fun _ => bare_expression_expect fun cond => hs.bind fun yes => ?_
    refine bare_token.bind fun next => ?_
    split
    · exact hs.bind fun no => .pure _
    · exact (bare_pushBack _).bind fun _ => .pure _
  · refine (bare_expect _ _).bind fun _ => bare_foreachHead.bind fun head => ?_
    split
    · exact bare_expression_expect fun items => hs.bind fun body => .pure _
    · refine (bare_clauseWithin n _).bind fun init => (bare_expect _ _).bind fun _ => ?_
      refine (bare_clauseWithin n _).bind fun cond => (bare_expect _ _).bind fun _ => ?_
      refine (bare_clauseWithin n _).bind fun next => (bare_expect _ _).bind fun _ => ?_
      exact hs.bind fun body => .pure _
  · refine (bare_expect _ _).bind fun _ => bare_expression_expect fun cond => ?_
    exact hs.bind fun body => .pure _
  · exact (bare_expect _ _).bind fun _ => .pure _
  · exact (bare_expect _ _).bind fun _ => .pure _
  · exact (bare_clauseWithin n _).bind fun value => (bare_expect _ _).bind fun _ => .pure _
  · refine (bare_expect _ _).bind fun _ => bare_expression_expect fun paths => ?_
    exact hs.bind fun action => .pure _
  · exact bare_expression_expect fun path => .pure _
  · exact bare_expression_expect fun path => .pure _
  · exact (bare_pushBack t).bind fun _ => bare_expression_expect fun e => .pure _

theorem bare_block_succ {n : Nat} (hs : Bare (statementWithin n)) (hb : Bare (blockWithin n)) :
    Bare (blockWithin (n + 1)) := by
  refine bare_token.bind fun t => ?_
  split
  · exact .pure _
  · split
    · exact bare_complain _
    · refine (bare_pushBack t).bind fun _ => hs.bind fun first => ?_
      exact hb.bind fun rest => .pure _

theorem bare_statementWithin_blockWithin (n : Nat) :
    Bare (statementWithin n) ∧ Bare (blockWithin n) := by
  induction n with
  | zero => exact ⟨.stuck, .stuck⟩
  | succ n ih => exact ⟨bare_statement_succ ih.1 ih.2, bare_block_succ ih.1 ih.2⟩

/-! ## Modules -/

theorem bare_parametersWithin (n : Nat) : Bare (parametersWithin n) := by
  induction n with
  | zero => exact .stuck
  | succ n ih =>
    refine bare_token.bind fun t => ?_
    split
    · exact .pure _
    · split
      · exact bare_complain _
      · refine bare_token.bind fun separator => ?_
        split
        · exact .pure _
        · split
          · exact ih.bind fun rest => .pure _
          · exact bare_complain _

theorem bare_definitionWithin (n : Nat) (isTarget : Bool) (known : Table Function) :
    Bare (definitionWithin n isTarget known) := by
  refine bare_token.bind fun name => ?_
  split
  · exact bare_complain _
  · refine (bare_expect _ _).bind fun _ => (bare_parametersWithin n).bind fun params => ?_
    refine (bare_statementWithin_blockWithin n).1.bind fun body => ?_
    split
    · exact bare_complain _
    · exact .pure _

theorem bare_unitsWithin (path : String) (n : Nat) (known : Table Function) :
    Bare (unitsWithin path n known) := by
  induction n generalizing known with
  | zero => exact .stuck
  | succ n ih =>
    refine bare_token.bind fun t => ?_
    split
    · exact .pure _
    · split
      · exact (bare_definitionWithin n _ known).bind fun f => (ih _).bind fun m => .pure _
      · refine (bare_pushBack t).bind fun _ => (bare_statementWithin_blockWithin n).1.bind fun s => ?_
        exact (ih known).bind fun m => .pure _

end Parser

/-- What goes wrong while a module is read was raised by no statement. -/
theorem Module.bare_parse (text path : String) : (Module.parse text path).Bare :=
  Parser.bare_unitsWithin path _ _ _

end Kiln
