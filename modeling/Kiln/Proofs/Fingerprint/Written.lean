import Mathlib.Data.List.Nodup
import Kiln.Fingerprint
import Kiln.Proofs.Text.Pieces

/-!
# Kiln.Proofs.Fingerprint.Written — fingerprints as characters

A fingerprint that can be written is a plain function of the syntax, once the text of every
variable's value and of every function is known (`Glossary`).  Every node starts with a header that
names its `NodeKind`, and no two nodes share a header.
-/

namespace Kiln

namespace Fingerprint

/-- What the header of a node tells of it. -/
inductive NodeKind where
  | const
  | var
  | array
  | dict
  | unary
  | binary
  | ternary
  | builtin (fn : Builtin)
  | call
  | exprStmt
  | block
  | branch
  | loop
  | foreach
  | breakStmt
  | continueStmt
  | returnStmt
  | depends
  | includeStmt
  | usingStmt
  deriving DecidableEq

namespace NodeKind

/-- The word for a node. -/
def tag : NodeKind → String
  | const => "const"
  | var => "var"
  | array => "array"
  | dict => "dict"
  | unary => "unary"
  | binary => "binary"
  | ternary => "ternary"
  | builtin fn => fn.name
  | call => "call"
  | exprStmt => "expr-stmt"
  | block => "compound"
  | branch => "if"
  | loop => "for"
  | foreach => "foreach"
  | breakStmt => "break"
  | continueStmt => "continue"
  | returnStmt => "return"
  | depends => "depends"
  | includeStmt => "include"
  | usingStmt => "using"

/-- Every node. -/
def all : List NodeKind :=
  [const, var, array, dict, unary, binary, ternary, call, exprStmt, block, branch, loop, foreach,
    breakStmt, continueStmt, returnStmt, depends, includeStmt, usingStmt] ++ Builtin.all.map builtin

theorem mem_all (n : NodeKind) : n ∈ all := by
  cases n with
  | builtin fn => cases fn <;> decide
  | _ => decide

theorem tags_nodup : (all.map tag).Nodup := by decide +kernel

theorem tag_injective {a b : NodeKind} (h : a.tag = b.tag) : a = b :=
  List.inj_on_of_nodup_map tags_nodup (mem_all a) (mem_all b) h

theorem colon_notMem_tag (n : NodeKind) : ':' ∉ n.tag.toList := by
  have h : ∀ n ∈ all, ':' ∉ n.tag.toList := by decide +kernel
  exact h n (mem_all n)

end NodeKind

/-- A tag is read off the front of a text with its header. -/
theorem header_append_inj {tag tag' : String} {x y : List Char} (h : ':' ∉ tag.toList)
    (h' : ':' ∉ tag'.toList)
    (heq : (Digest.header tag).toList ++ x = (Digest.header tag').toList ++ y) : tag = tag' ∧ x = y := by
  simp only [Digest.header, String.toList_append, List.append_assoc] at heq
  have hrest := List.append_cancel_left heq
  have hcolon : ":args:".toList = ':' :: "args:".toList := rfl
  rw [hcolon, List.cons_append, List.cons_append] at hrest
  obtain ⟨htag, hrest⟩ := Text.Pieces.append_sep_inj h h' hrest
  exact ⟨String.toList_injective htag, List.append_cancel_left hrest⟩

/-- What stands for the names of a program when it is written. -/
structure Glossary where
  /-- The text of the value of a variable. -/
  value : String → List Char
  /-- The text of a function that is called. -/
  function : String → List Char

/-- The characters of a word between the parts of a fingerprint.  It is irreducible so that
unfolding what is written never decodes a string. -/
@[irreducible] def mark (word : String) : List Char := word.toList

/-- A header and what follows it. -/
def headed (n : NodeKind) (rest : List Char) : List Char :=
  (Digest.header n.tag).toList ++ rest

/-- The side and the level of an operator before its operand. -/
def unaryMark (op : UnaryOp) : List Char :=
  (sideWord .before).toList ++ (toString op.level).toList

/-- The side and the level of `++` or `--`. -/
def bumpMark (op : Bump) (side : Side) : List Char :=
  (sideWord side).toList ++ (toString op.level).toList

end Fingerprint

open Fingerprint

namespace Expr

mutual

/-- The characters of an expression's fingerprint. -/
def written (g : Glossary) : Expr → List Char
  | .const value => headed .const (literal value).toList
  | .var name =>
    headed .var (mark ":name:" ++ name.toList ++ mark ":value:" ++ g.value name)
  | .array es => headed .array (writtenList g ":elem:" es)
  | .dict ps => headed .dict (writtenEntries g ps)
  | .unary op arg => headed .unary (unaryMark op ++ ':' :: written g arg)
  | .bump op side arg => headed .unary (bumpMark op side ++ ':' :: written g arg)
  | .binary op left right =>
    headed .binary ((toString op.level).toList ++
      ':' :: mark ":lhs:" ++ written g left ++ mark ":rhs:" ++ written g right)
  | .ternary cond yes no => headed .ternary (written g cond ++ written g yes ++ written g no)
  | .builtin fn args => headed (.builtin fn) (writtenList g ":arg:" args)
  | .call name args =>
    headed .call (mark ":name:" ++ name.toList ++ mark ":func:" ++ g.function name ++
      writtenList g ":arg:" args)

/-- The characters of a list of expressions, each after the label. -/
def writtenList (g : Glossary) (label : String) : List Expr → List Char
  | [] => []
  | e :: rest => mark label ++ written g e ++ writtenList g label rest

/-- The characters of the entries of a dictionary. -/
def writtenEntries (g : Glossary) : List (Expr × Expr) → List Char
  | [] => []
  | (k, v) :: rest =>
    mark ":key:" ++ written g k ++ mark ":value:" ++ written g v ++ writtenEntries g rest

end

/-- The characters of an optional expression after the label. -/
def writtenClause (g : Glossary) (label : String) : Option Expr → List Char
  | none => []
  | some e => mark label ++ written g e

end Expr

namespace Stmt

mutual

/-- The characters of a statement's fingerprint. -/
def written (g : Glossary) : Stmt → List Char
  | .expr _ e => headed .exprStmt (e.written g)
  | .block _ ss => headed .block (writtenList g ss)
  | .branch _ cond yes none =>
    headed .branch (mark "expr:" ++ cond.written g ++ mark "then:" ++ written g yes)
  | .branch _ cond yes (some no) =>
    headed .branch (mark "expr:" ++ cond.written g ++ mark "then:" ++ written g yes ++
      mark "else:" ++ written g no)
  | .loop _ init cond next body =>
    headed .loop (Expr.writtenClause g "init:" init ++ Expr.writtenClause g "while:" cond ++
      Expr.writtenClause g "next:" next ++ mark "loop:" ++ written g body)
  | .foreach _ name items body =>
    headed .foreach (mark "init:" ++ items.written g ++ mark "loop:" ++ written g body ++
      mark "foreach:" ++ name.toList)
  | .breakStmt _ => headed .breakStmt []
  | .continueStmt _ => headed .continueStmt []
  | .returnStmt _ value => headed .returnStmt (Expr.writtenClause g "" value)
  | .depends _ paths action =>
    headed .depends (mark "expr:" ++ paths.written g ++ mark "stmt:" ++ written g action)
  | .includeStmt _ path => headed .includeStmt (path.written g)
  | .usingStmt _ path => headed .usingStmt (path.written g)

/-- The characters of a list of statements. -/
def writtenList (g : Glossary) : List Stmt → List Char
  | [] => []
  | s :: rest => written g s ++ writtenList g rest

end

/-- The location that stands for all. -/
def nowhere : Location := ⟨"", 0⟩

mutual

/-- The statement with all locations forgotten. -/
def unlocated : Stmt → Stmt
  | .expr _ e => .expr nowhere e
  | .block _ ss => .block nowhere (unlocatedAll ss)
  | .branch _ cond yes none => .branch nowhere cond (unlocated yes) none
  | .branch _ cond yes (some no) => .branch nowhere cond (unlocated yes) (some (unlocated no))
  | .loop _ init cond next body => .loop nowhere init cond next (unlocated body)
  | .foreach _ name items body => .foreach nowhere name items (unlocated body)
  | .breakStmt _ => .breakStmt nowhere
  | .continueStmt _ => .continueStmt nowhere
  | .returnStmt _ value => .returnStmt nowhere value
  | .depends _ paths action => .depends nowhere paths (unlocated action)
  | .includeStmt _ path => .includeStmt nowhere path
  | .usingStmt _ path => .usingStmt nowhere path

/-- Each statement with all locations forgotten. -/
def unlocatedAll : List Stmt → List Stmt
  | [] => []
  | s :: rest => unlocated s :: unlocatedAll rest

end

mutual

/-- Locations are not written. -/
theorem written_unlocated (g : Glossary) : ∀ s : Stmt, s.unlocated.written g = s.written g
  | .block _ ss => by simp only [unlocated, written, writtenList_unlocatedAll g ss]
  | .branch _ _ yes none => by simp only [unlocated, written, written_unlocated g yes]
  | .branch _ _ yes (some no) => by
    simp only [unlocated, written, written_unlocated g yes, written_unlocated g no]
  | .loop _ _ _ _ body | .foreach _ _ _ body | .depends _ _ body => by
    simp only [unlocated, written, written_unlocated g body]
  | .expr .. | .breakStmt _ | .continueStmt _ | .returnStmt .. | .includeStmt ..
  | .usingStmt .. => by
    simp only [unlocated, written]

theorem writtenList_unlocatedAll (g : Glossary) :
    ∀ ss : List Stmt, writtenList g (unlocatedAll ss) = writtenList g ss
  | [] => by simp only [unlocatedAll]
  | s :: rest => by
    simp only [unlocatedAll, writtenList, written_unlocated g s, writtenList_unlocatedAll g rest]

end

end Stmt

namespace Fingerprint

/-- The texts that the names of a program stand for when it is read against `view` and `callee`
writes functions; where there is none, no fingerprint is written. -/
def glossary (view : View) (callee : String → Outcome String) : Glossary where
  value name := (view.value name).elim [] fun t => t.encode.toList
  function name :=
    match callee name with
    | .ok text => text.toList
    | _ => []

variable {view : View} {callee : String → Outcome String}

theorem reference_eq_ok {name t : String} (h : reference view name = .ok t) :
    t.toList = (Expr.var name).written (glossary view callee) := by
  unfold reference at h
  cases hv : view.value name with
  | none => rw [hv] at h; cases h
  | some tree =>
    rw [hv] at h
    injection h with h
    subst h
    simp [mark, Expr.written, headed, glossary, hv, NodeKind.tag]

mutual

/-- A fingerprint that is written has the characters of the expression. -/
theorem exprWith_eq_ok : ∀ (e : Expr) {t : String}, exprWith view callee e = .ok t →
    t.toList = e.written (glossary view callee)
  | .const value, t, h => by
    simp only [exprWith, Outcome.pure_eq_ok] at h
    subst h
    simp [Expr.written, headed, NodeKind.tag]
  | .var name, t, h => by
    simp only [exprWith] at h
    exact reference_eq_ok h
  | .array es, t, h => by
    simp only [exprWith, Outcome.bind_eq_ok, Outcome.pure_eq_ok] at h
    obtain ⟨x, hx, rfl⟩ := h
    simp [Expr.written, headed, NodeKind.tag, labelledWith_eq_ok es hx]
  | .dict ps, t, h => by
    simp only [exprWith, Outcome.bind_eq_ok, Outcome.pure_eq_ok] at h
    obtain ⟨x, hx, rfl⟩ := h
    simp [Expr.written, headed, NodeKind.tag, pairsWith_eq_ok ps hx]
  | .unary op arg, t, h => by
    simp only [exprWith, Outcome.bind_eq_ok, Outcome.pure_eq_ok] at h
    obtain ⟨x, hx, rfl⟩ := h
    simp [Expr.written, headed, NodeKind.tag, unaryMark, exprWith_eq_ok arg hx]
  | .bump op side arg, t, h => by
    simp only [exprWith, Outcome.bind_eq_ok, Outcome.pure_eq_ok] at h
    obtain ⟨x, hx, rfl⟩ := h
    simp [Expr.written, headed, NodeKind.tag, bumpMark, exprWith_eq_ok arg hx]
  | .binary op left right, t, h => by
    simp only [exprWith, Outcome.bind_eq_ok, Outcome.pure_eq_ok] at h
    obtain ⟨x, hx, y, hy, rfl⟩ := h
    simp [mark, Expr.written, headed, NodeKind.tag, exprWith_eq_ok left hx, exprWith_eq_ok right hy]
  | .ternary cond yes no, t, h => by
    simp only [exprWith, Outcome.bind_eq_ok, Outcome.pure_eq_ok] at h
    obtain ⟨x, hx, y, hy, z, hz, rfl⟩ := h
    simp [Expr.written, headed, NodeKind.tag, exprWith_eq_ok cond hx, exprWith_eq_ok yes hy,
      exprWith_eq_ok no hz]
  | .builtin fn args, t, h => by
    simp only [exprWith, Outcome.bind_eq_ok, Outcome.pure_eq_ok] at h
    obtain ⟨x, hx, rfl⟩ := h
    simp [Expr.written, headed, NodeKind.tag, labelledWith_eq_ok args hx]
  | .call name args, t, h => by
    simp only [exprWith, Outcome.bind_eq_ok, Outcome.pure_eq_ok] at h
    obtain ⟨x, hx, y, hy, rfl⟩ := h
    simp [mark, Expr.written, headed, NodeKind.tag, glossary, hx, labelledWith_eq_ok args hy]

theorem labelledWith_eq_ok {label : String} : ∀ (es : List Expr) {t : String},
    labelledWith view callee label es = .ok t →
      t.toList = Expr.writtenList (glossary view callee) label es
  | [], t, h => by
    simp only [labelledWith, Outcome.pure_eq_ok] at h
    subst h
    simp [Expr.writtenList]
  | e :: rest, t, h => by
    simp only [labelledWith, Outcome.bind_eq_ok, Outcome.pure_eq_ok] at h
    obtain ⟨x, hx, y, hy, rfl⟩ := h
    simp [mark, Expr.writtenList, exprWith_eq_ok e hx, labelledWith_eq_ok rest hy]

theorem pairsWith_eq_ok : ∀ (ps : List (Expr × Expr)) {t : String},
    pairsWith view callee ps = .ok t → t.toList = Expr.writtenEntries (glossary view callee) ps
  | [], t, h => by
    simp only [pairsWith, Outcome.pure_eq_ok] at h
    subst h
    simp [Expr.writtenEntries]
  | (k, v) :: rest, t, h => by
    simp only [pairsWith, Outcome.bind_eq_ok, Outcome.pure_eq_ok] at h
    obtain ⟨x, hx, y, hy, z, hz, rfl⟩ := h
    simp [mark, Expr.writtenEntries, exprWith_eq_ok k hx, exprWith_eq_ok v hy,
      pairsWith_eq_ok rest hz]

end

theorem clauseWith_eq_ok {label : String} {clause : Option Expr} {t : String}
    (h : clauseWith view callee label clause = .ok t) :
    t.toList = Expr.writtenClause (glossary view callee) label clause := by
  cases clause with
  | none =>
    simp only [clauseWith, Outcome.pure_eq_ok] at h
    subst h
    simp [Expr.writtenClause]
  | some e =>
    simp only [clauseWith, Outcome.bind_eq_ok, Outcome.pure_eq_ok] at h
    obtain ⟨x, hx, rfl⟩ := h
    simp [mark, Expr.writtenClause, exprWith_eq_ok e hx]

mutual

/-- A fingerprint that is written has the characters of the statement. -/
theorem stmtWith_eq_ok : ∀ (s : Stmt) {t : String}, stmtWith view callee s = .ok t →
    t.toList = s.written (glossary view callee)
  | .expr _ e, t, h => by
    simp only [stmtWith, Outcome.bind_eq_ok, Outcome.pure_eq_ok] at h
    obtain ⟨x, hx, rfl⟩ := h
    simp [Stmt.written, headed, NodeKind.tag, exprWith_eq_ok e hx]
  | .block _ ss, t, h => by
    simp only [stmtWith, Outcome.bind_eq_ok, Outcome.pure_eq_ok] at h
    obtain ⟨x, hx, rfl⟩ := h
    simp [Stmt.written, headed, NodeKind.tag, stmtsWith_eq_ok ss hx]
  | .branch _ cond yes none, t, h => by
    simp only [stmtWith, Outcome.bind_eq_ok, Outcome.pure_eq_ok] at h
    obtain ⟨x, hx, y, hy, rfl⟩ := h
    simp [mark, Stmt.written, headed, NodeKind.tag, exprWith_eq_ok cond hx, stmtWith_eq_ok yes hy]
  | .branch _ cond yes (some no), t, h => by
    simp only [stmtWith, Outcome.bind_eq_ok, Outcome.pure_eq_ok] at h
    obtain ⟨x, hx, y, hy, z, hz, rfl⟩ := h
    simp [mark, Stmt.written, headed, NodeKind.tag, exprWith_eq_ok cond hx, stmtWith_eq_ok yes hy,
      stmtWith_eq_ok no hz]
  | .loop _ init cond next body, t, h => by
    simp only [stmtWith, Outcome.bind_eq_ok, Outcome.pure_eq_ok] at h
    obtain ⟨x, hx, y, hy, z, hz, b, hb, rfl⟩ := h
    simp [mark, Stmt.written, headed, NodeKind.tag, clauseWith_eq_ok hx, clauseWith_eq_ok hy,
      clauseWith_eq_ok hz, stmtWith_eq_ok body hb]
  | .foreach _ name items body, t, h => by
    simp only [stmtWith, Outcome.bind_eq_ok, Outcome.pure_eq_ok] at h
    obtain ⟨x, hx, b, hb, rfl⟩ := h
    simp [mark, Stmt.written, headed, NodeKind.tag, exprWith_eq_ok items hx, stmtWith_eq_ok body hb]
  | .breakStmt _, t, h | .continueStmt _, t, h => by
    simp only [stmtWith, Outcome.pure_eq_ok] at h
    subst h
    simp [Stmt.written, headed, NodeKind.tag]
  | .returnStmt _ value, t, h => by
    simp only [stmtWith, Outcome.bind_eq_ok, Outcome.pure_eq_ok] at h
    obtain ⟨x, hx, rfl⟩ := h
    simp [Stmt.written, headed, NodeKind.tag, clauseWith_eq_ok hx]
  | .depends _ paths action, t, h => by
    simp only [stmtWith, Outcome.bind_eq_ok, Outcome.pure_eq_ok] at h
    obtain ⟨x, hx, y, hy, rfl⟩ := h
    simp [mark, Stmt.written, headed, NodeKind.tag, exprWith_eq_ok paths hx,
      stmtWith_eq_ok action hy]
  | .includeStmt _ path, t, h | .usingStmt _ path, t, h => by
    simp only [stmtWith, Outcome.bind_eq_ok, Outcome.pure_eq_ok] at h
    obtain ⟨x, hx, rfl⟩ := h
    simp [Stmt.written, headed, NodeKind.tag, exprWith_eq_ok path hx]

theorem stmtsWith_eq_ok : ∀ (ss : List Stmt) {t : String}, stmtsWith view callee ss = .ok t →
    t.toList = Stmt.writtenList (glossary view callee) ss
  | [], t, h => by
    simp only [stmtsWith, Outcome.pure_eq_ok] at h
    subst h
    simp [Stmt.writtenList]
  | s :: rest, t, h => by
    simp only [stmtsWith, Outcome.bind_eq_ok, Outcome.pure_eq_ok] at h
    obtain ⟨x, hx, y, hy, rfl⟩ := h
    simp [Stmt.writtenList, stmtWith_eq_ok s hx, stmtsWith_eq_ok rest hy]

end

/-- The fingerprint of a statement in characters. -/
theorem stmt_eq_ok {s : Stmt} {t : String} (h : stmt view s = .ok t) :
    t.toList = s.written (glossary view (function view)) :=
  stmtWith_eq_ok s h

end Fingerprint

end Kiln
