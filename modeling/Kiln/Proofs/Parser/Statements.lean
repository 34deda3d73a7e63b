import Kiln.Stmt.Parser
import Kiln.Proofs.Law
import Kiln.Proofs.Parser.RoundTrip

/-!
# Kiln.Proofs.Parser.Statements — what statements can be read

A statement that was read is `Printable`: its expressions can be read, and no branch with an `else`
has a first part that ends in a branch without one, because the `else` would have been read as part
of that.  So an `else` belongs to the nearest `if`.

The invariant is about the word that comes next: behind a statement that ends in a branch without an
`else` it is no `else`.  The rest of a loop, of a step or of an `else` part is the last thing that is
read of the statement, so the word behind it is the same; only a block has a word of its own there.
-/

namespace Kiln

/-- Some text is read as the expression. -/
def Expr.Parsed (e : Expr) : Prop := ∃ text, Expr.parse text = .ok e

theorem Expr.parsed_iff {e : Expr} : e.Parsed ↔ e.Readable :=
  ⟨fun ⟨_, h⟩ => readable_of_parse h, fun h => ⟨_, h.parse_print true⟩⟩

namespace Stmt

/-- Whether the statement ends in a branch without an `else`, through the bodies of loops, actions and
`else` parts. -/
def endsOpen : Stmt → Bool
  | .branch _ _ _ none => true
  | .branch _ _ _ (some no) => endsOpen no
  | .loop _ _ _ _ body | .foreach _ _ _ body | .depends _ _ body => endsOpen body
  | .expr .. | .block .. | .breakStmt _ | .continueStmt _ | .returnStmt .. | .includeStmt ..
  | .usingStmt .. => false

mutual

/-- The expressions in the statement can be read, the variable of a loop among them, and no `else`
stands behind a statement that ends in a branch without one. -/
def Printable : Stmt → Prop
  | .expr _ e => e.Parsed
  | .block _ ss => PrintableAll ss
  | .branch _ cond yes none => cond.Parsed ∧ Printable yes
  | .branch _ cond yes (some no) =>
    cond.Parsed ∧ yes.endsOpen = false ∧ Printable yes ∧ Printable no
  | .loop _ init cond next body =>
    (∀ e ∈ init, e.Parsed) ∧ (∀ e ∈ cond, e.Parsed) ∧ (∀ e ∈ next, e.Parsed) ∧ Printable body
  | .foreach _ name items body => (Expr.var name).Parsed ∧ items.Parsed ∧ Printable body
  | .breakStmt _ => True
  | .continueStmt _ => True
  | .returnStmt _ value => ∀ e ∈ value, e.Parsed
  | .depends _ paths action => paths.Parsed ∧ Printable action
  | .includeStmt _ path => path.Parsed
  | .usingStmt _ path => path.Parsed

/-- `Printable` for each statement of a list. -/
def PrintableAll : List Stmt → Prop
  | [] => True
  | s :: rest => Printable s ∧ PrintableAll rest

end

end Stmt

/-- The next word is no `else`. -/
def Stream.NoElse (s : Stream) : Prop :=
  ∀ t u, Parser.token s = (.ok t, u) → t.reads "else" = false

namespace Parser

open Step

variable {α β : Type} {n : Nat} {s : Stream} {P : α → Prop} {Q : β → Stream → Prop}

/-! ## Lexed streams -/

/-- Tokens that were read stay tokens that were read. -/
def lexing : Law Stream where
  inv := Stream.Lexed
  rel _ _ := True
  refl _ := trivial
  trans _ _ := trivial

theorem obeys_bind_of_keeps {m : Parser α} {f : α → Parser β} (hm : Keeps Stream.Lexed m P)
    (hs : s.Lexed) (hf : ∀ a t, t.Lexed → P a → Obeys lexing t (f a) Q) :
    Obeys lexing s (m >>= f) Q := by
  obtain ⟨hinv, hval⟩ := hm s hs
  exact Obeys.bind (P := fun a _ => P a) ⟨hinv, trivial, hval⟩ fun a t ht _ ha => hf a t ht ha

theorem obeys_token (hs : s.Lexed) :
    Obeys lexing s token fun t _ => t.Lexed ∧ (s.NoElse → t.reads "else" = false) := by
  obtain ⟨hinv, hval⟩ := keeps_token s hs
  exact ⟨hinv, trivial, fun t ht => ⟨hval t ht, fun hnext => hnext t _ (Step.eq_of_fst ht)⟩⟩

theorem noElse_pushBack {t : Token} (h : t.reads "else" = false) (s : Stream) :
    Stream.NoElse { s with pushed := t :: s.pushed } := by
  intro u v hrun
  cases hrun
  exact h

theorem keeps_parsed (n : Nat) : Keeps Stream.Lexed (expressionWithin n 0) Expr.Parsed := by
  intro s hs
  obtain ⟨hinv, hval⟩ := (readableWithin n).expression 0 s hs
  exact ⟨hinv, fun e he => Expr.parsed_iff.mpr (hval e he)⟩

theorem keeps_clauseWithin (n : Nat) (stop : String) :
    Keeps Stream.Lexed (clauseWithin n stop) fun clause => ∀ e ∈ clause, e.Parsed := by
  unfold clauseWithin
  refine keeps_token.bind fun t ht => (keeps_pushBack ht).bind fun _ _ => ?_
  split
  · exact keeps_pure (by simp)
  · exact (keeps_parsed n).bind fun e he => keeps_pure (by simpa using he)

theorem keeps_foreachHead :
    Keeps Stream.Lexed foreachHead fun head => ∀ name ∈ head, (Expr.var name).Parsed := by
  refine keeps_token.bind fun first hfirst => ?_
  split
  · rename_i hkind
    refine keeps_token.bind fun second hsecond => ?_
    split
    · have hname : (Expr.var first.text).Readable := hfirst hkind
      exact keeps_pure (by simpa using Expr.parsed_iff.mpr hname)
    · exact (keeps_pushBack hsecond).bind fun _ _ => keeps_giveBack hfirst (by simp)
  · exact keeps_giveBack hfirst (by simp)

/-- An expression and the word after it. -/
theorem obeys_expression_expect {text complaint : String} {f : Expr → Parser β} (hs : s.Lexed)
    (hf : ∀ e t, t.Lexed → e.Parsed → Obeys lexing t (f e) Q) :
    Obeys lexing s (do
      let e ← expressionWithin n 0
      let _ ← expect text complaint
      f e) Q :=
  obeys_bind_of_keeps (keeps_parsed n) hs fun e _ ht he =>
    obeys_bind_of_keeps (keeps_expect _ _) ht fun _ u hu _ => hf e u hu he

/-! ## Statements -/

/-- What is known of a statement when it was read: it can be printed, and if it ends in a branch
without an `else`, no `else` follows. -/
structure WasRead (a : Stmt) (u : Stream) : Prop where
  printable : a.Printable
  next : a.endsOpen = true → u.NoElse

/-- A statement whose last part is a statement. -/
theorem obeys_body
    (ih : ∀ {s : Stream}, s.Lexed → Obeys lexing s (statementWithin n) WasRead) {f : Stmt → Stmt} (hs : s.Lexed)
    (hprintable : ∀ body, body.Printable → (f body).Printable)
    (hends : ∀ body, (f body).endsOpen = body.endsOpen) :
    Obeys lexing s (do let body ← statementWithin n; return f body) WasRead :=
  (ih hs).bind fun body _ ht _ hbody =>
    .pure ht ⟨hprintable body hbody.printable, fun h => hbody.next (hends body ▸ h)⟩

section Step

variable (ihStmt : ∀ {s : Stream}, s.Lexed → Obeys lexing s (statementWithin n) WasRead)
  (ihBlock : Keeps Stream.Lexed (blockWithin n) Stmt.PrintableAll)
include ihStmt ihBlock

theorem keeps_block_succ : Keeps Stream.Lexed (blockWithin (n + 1)) Stmt.PrintableAll := by
  have hstmt : Keeps Stream.Lexed (statementWithin n) Stmt.Printable := fun s hs =>
    ⟨(ihStmt hs).inv, fun a ha => ((ihStmt hs).value a ha).printable⟩
  unfold blockWithin
  refine keeps_token.bind fun t ht => ?_
  split
  · exact keeps_pure trivial
  · split
    · exact keeps_complain _
    · refine (keeps_pushBack ht).bind fun _ _ => hstmt.bind fun first hfirst => ?_
      exact ihBlock.bind fun rest hrest => keeps_pure ⟨hfirst, hrest⟩

theorem obeys_statement_succ (hs : s.Lexed) :
    Obeys lexing s (statementWithin (n + 1)) WasRead := by
  unfold statementWithin
  refine obeys_bind_of_keeps keeps_token hs fun t s ht hlexed => ?_
  refine obeys_bind_of_keeps (keeps_look (P := fun _ => True) fun _ _ => trivial) ht fun loc s hs _ => ?_
  split
  · exact obeys_bind_of_keeps ihBlock hs fun body s hs hbody => .pure hs ⟨hbody, nofun⟩
  · refine obeys_bind_of_keeps (keeps_expect _ _) hs fun _ s hs _ => ?_
    refine obeys_expression_expect hs fun cond s hs hcond => ?_
    refine (ihStmt hs).bind fun yes s hs _ hyes => ?_
    refine (obeys_token hs).bind fun next s hs _ ⟨hlexed, hnext⟩ => ?_
    split
    · rename_i helse
      have hclosed : yes.endsOpen = false := Bool.eq_false_iff.mpr fun hopen =>
        Bool.false_ne_true ((hnext (hyes.next hopen)).symm.trans helse)
      exact (ihStmt hs).bind fun no s hs _ hno =>
        .pure hs ⟨⟨hcond, hclosed, hyes.printable, hno.printable⟩, hno.next⟩
    · rename_i helse
      have hpush : Stream.Lexed { s with pushed := next :: s.pushed } :=
        List.forall_mem_cons.mpr ⟨hlexed, hs⟩
      exact .of_run rfl hpush trivial
        ⟨⟨hcond, hyes.printable⟩, fun _ => noElse_pushBack (Bool.eq_false_iff.mpr helse) s⟩
  · refine obeys_bind_of_keeps (keeps_expect _ _) hs fun _ s hs _ => ?_
    refine obeys_bind_of_keeps keeps_foreachHead hs fun head s hs hhead => ?_
    split
    · rename_i name
      refine obeys_expression_expect hs fun items s hs hitems => ?_
      exact obeys_body ihStmt hs (fun body h => ⟨hhead name rfl, hitems, h⟩) fun _ => rfl
    · refine obeys_bind_of_keeps (keeps_clauseWithin n _) hs fun init s hs hinit => ?_
      refine obeys_bind_of_keeps (keeps_expect _ _) hs fun _ s hs _ => ?_
      refine obeys_bind_of_keeps (keeps_clauseWithin n _) hs fun cond s hs hcond => ?_
      refine obeys_bind_of_keeps (keeps_expect _ _) hs fun _ s hs _ => ?_
      refine obeys_bind_of_keeps (keeps_clauseWithin n _) hs fun next s hs hnext => ?_
      refine obeys_bind_of_keeps (keeps_expect _ _) hs fun _ s hs _ => ?_
      exact obeys_body ihStmt hs (fun body h => ⟨hinit, hcond, hnext, h⟩) fun _ => rfl
  · refine obeys_bind_of_keeps (keeps_expect _ _) hs fun _ s hs _ => ?_
    refine obeys_expression_expect hs fun cond s hs hcond => ?_
    refine obeys_body ihStmt hs (fun body h => ⟨by simp, by simpa using hcond, by simp, h⟩)
      fun _ => rfl
  · exact obeys_bind_of_keeps (keeps_expect _ _) hs fun _ s hs _ => .pure hs ⟨trivial, nofun⟩
  · exact obeys_bind_of_keeps (keeps_expect _ _) hs fun _ s hs _ => .pure hs ⟨trivial, nofun⟩
  · refine obeys_bind_of_keeps (keeps_clauseWithin n _) hs fun value s hs hvalue => ?_
    exact obeys_bind_of_keeps (keeps_expect _ _) hs fun _ s hs _ => .pure hs ⟨hvalue, nofun⟩
  · refine obeys_bind_of_keeps (keeps_expect _ _) hs fun _ s hs _ => ?_
    refine obeys_expression_expect hs fun paths s hs hpaths => ?_
    exact obeys_body ihStmt hs (fun body h => ⟨hpaths, h⟩) fun _ => rfl
  · exact obeys_expression_expect hs fun path s hs hpath => .pure hs ⟨hpath, nofun⟩
  · exact obeys_expression_expect hs fun path s hs hpath => .pure hs ⟨hpath, nofun⟩
  · refine obeys_bind_of_keeps (keeps_pushBack hlexed) hs fun _ s hs _ => ?_
    exact obeys_expression_expect hs fun e s hs he => .pure hs ⟨he, nofun⟩

end Step

theorem obeys_statementWithin_keeps_blockWithin : ∀ n,
    (∀ {s : Stream}, s.Lexed → Obeys lexing s (statementWithin n) WasRead) ∧
      Keeps Stream.Lexed (blockWithin n) Stmt.PrintableAll
  | 0 => by
    unfold statementWithin blockWithin
    exact ⟨fun hs => .stuck hs, keeps_stuck⟩
  | n + 1 => by
    obtain ⟨hs, hb⟩ := obeys_statementWithin_keeps_blockWithin n
    exact ⟨fun hlexed => obeys_statement_succ hs hb hlexed, keeps_block_succ hs hb⟩

/-- A statement that was read is printable. -/
theorem printable_of_statementWithin {n : Nat} {stream stream' : Stream} {s : Stmt}
    (hs : stream.Lexed) (h : statementWithin n stream = (.ok s, stream')) : s.Printable :=
  (((obeys_statementWithin_keeps_blockWithin n).1 hs).of_eq_ok h).printable

end Parser

end Kiln
