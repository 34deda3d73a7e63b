import Kiln.Module
import Kiln.Proofs.Fingerprint.Agreement
import Kiln.Proofs.Parser.Words

/-!
# Kiln.Proofs.Parser.Layout — only words count

Two texts with the same words are read as the same module up to locations, or are refused with the
same complaint about the same word.  Blanks, line ends and comments, which stand between words, make
no difference, and neither do the bounds on depth, which come from the lengths of the texts.

Both runs are followed at once: `Twins k p p' Q` says that on alike streams with `k` words to come
either both computations yield values with `Q`, or both fail in the same way.  How many words are
left is part of `Q`; it falls from one token to the next, so eight levels of depth a word are enough
for either run.
-/

namespace Kiln

open Kiln.Parser

namespace Parser

variable {α β : Type}

/-! ## Two runs at once -/

/-- On alike streams with `k` words to come both yield values with `Q`, which is told how many words
are left, or both fail with the same error up to its location. -/
def Twins (k : Nat) (p p' : Parser α) (Q : Nat → α → α → Prop) : Prop :=
  ∀ s s', s.Alike s' → s.count = k →
    (∃ a a' t t', p s = (.ok a, t) ∧ p' s' = (.ok a', t') ∧ t.Alike t' ∧ Q t.count a a') ∨
    ∃ e e' t t', p s = (.error e, t) ∧ p' s' = (.error e', t') ∧ e'.unlocated = e.unlocated

/-- The values are the same, and fewer than `b` words are left. -/
abbrev Below (b : Nat) : Nat → α → α → Prop := fun j a a' => j < b ∧ a' = a

variable {k b : Nat} {p p' q q' : Parser α} {P Q : Nat → α → α → Prop} {R : Nat → β → β → Prop}

theorem twins_pure {a a' : α} (h : Q k a a') : Twins k (pure a) (pure a') Q :=
  fun s s' hs hk => .inl ⟨a, a', s, s', rfl, rfl, hs, hk ▸ h⟩

theorem Twins.bind {f f' : α → Parser β} (hp : Twins k p p' Q)
    (hf : ∀ j a a', Q j a a' → Twins j (f a) (f' a') R) : Twins k (p >>= f) (p' >>= f') R := by
  intro s s' hs hk
  rcases hp s s' hs hk with ⟨a, a', t, t', hrun, hrun', ht, ha⟩ | ⟨e, e', t, t', hrun, hrun', he⟩
  · rw [Step.bind_run_ok hrun, Step.bind_run_ok hrun']
    exact hf t.count a a' ha t t' ht rfl
  · rw [Step.bind_run_error hrun, Step.bind_run_error hrun']
    exact .inr ⟨e, e', t, t', rfl, rfl, he⟩

theorem Twins.andThen {f f' : α → Parser β} (hp : Twins k p p' (Below b))
    (hf : ∀ j < b, ∀ a, Twins j (f a) (f' a) R) : Twins k (p >>= f) (p' >>= f') R := by
  refine hp.bind fun j a a' ⟨hj, ha⟩ => ?_
  rw [ha]
  exact hf j hj a

theorem Twins.mono (hp : Twins k p p' P) (h : ∀ j a a', P j a a' → Q j a a') : Twins k p p' Q := by
  intro s s' hs hk
  refine (hp s s' hs hk).imp_left ?_
  rintro ⟨a, a', t, t', hrun, hrun', ht, ha⟩
  exact ⟨a, a', t, t', hrun, hrun', ht, h _ a a' ha⟩

theorem Twins.ite {c c' : Prop} [Decidable c] [Decidable c'] (hc : c' ↔ c)
    (hp : c → Twins k p p' Q) (hq : ¬ c → Twins k q q' Q) :
    Twins k (if c then p else q) (if c' then p' else q') Q := by
  by_cases h : c
  · rw [if_pos h, if_pos (hc.mpr h)]
    exact hp h
  · rw [if_neg h, if_neg (mt hc.mp h)]
    exact hq h

/-- A token is read: the lines may differ. -/
theorem Twins.read {f f' : Token → Parser α}
    (hf : ∀ j t line, j + t.weight = k → Twins j (f t) (f' { t with line }) Q) :
    Twins k (token >>= f) (token >>= f') Q := by
  intro s s' hs hk
  rcases hs.token with ⟨t, t', u, u', hrun, hrun', ht, hu⟩ | ⟨e, e', u, u', hrun, hrun', he⟩
  · rw [Step.bind_run_ok hrun, Step.bind_run_ok hrun', Token.eq_of_word_eq ht]
    exact hf u.count t t'.line (hk ▸ Stream.count_of_ok hrun) u u' hu rfl
  · rw [Step.bind_run_error hrun, Step.bind_run_error hrun']
    exact .inr ⟨e, e', u, u', rfl, rfl, he⟩

theorem Twins.unread {t : Token} {line : Nat} (h : Twins (k + t.weight) p p' Q) :
    Twins k (do pushBack t; p) (do pushBack { t with line }; p') Q := by
  intro s s' hs hk
  exact h _ _ (hs.push rfl) (hk ▸ Stream.count_push t s)

theorem twins_giveBack {t : Token} {line : Nat} {a a' : α} (h : Q (k + t.weight) a a') :
    Twins k (do pushBack t; return a) (do pushBack { t with line }; return a') Q :=
  Twins.unread (twins_pure h)

theorem twins_complain (text : String) : Twins k (complain text) (complain text) Q := by
  intro s s' hs _
  refine .inr ⟨s.complaint text, s'.complaint text, s, s', rfl, rfl, ?_⟩
  simp only [Stream.complaint, Error.unlocated, hs.last]

theorem Twins.expect {text complaint : String} (h : ∀ j ≤ k, Twins j p p' Q) :
    Twins k (do let _ ← expect text complaint; p) (do let _ ← expect text complaint; p') Q := by
  refine Twins.bind (Q := fun j _ _ => j ≤ k) ?_ fun j _ _ hj => h j hj
  refine .read fun j t line hj => .ite Iff.rfl (fun _ => twins_pure ?_) fun _ => twins_complain _
  omega

/-- What is looked up in the streams may differ. -/
theorem Twins.look {g g' : Stream → β} {f f' : β → Parser α}
    (h : ∀ b b', Twins k (f b) (f' b') Q) :
    Twins k (Step.look g >>= f) (Step.look g' >>= f') Q :=
  fun s s' hs hk => h (g s) (g' s') s s' hs hk

/-! ## Expressions -/

theorem twins_finishCall (name : String) (args : List Expr) :
    Twins k (finishCall name args) (finishCall name args) (Below (k + 1)) := by
  unfold finishCall
  split
  · exact twins_pure ⟨Nat.lt_succ_self k, rfl⟩
  · split
    · exact twins_complain _
    · exact twins_pure ⟨Nat.lt_succ_self k, rfl⟩

theorem twins_closeSubscript (op : BinaryOp) :
    Twins k (closeSubscript op) (closeSubscript op) (Below (k + 1)) := by
  unfold closeSubscript
  split
  · exact .expect fun j hj => twins_pure ⟨Nat.lt_succ_of_le hj, rfl⟩
  · exact twins_pure ⟨Nat.lt_succ_self k, rfl⟩

/-- How items with commas between them are read, once it is known of an item and of the rest. -/
theorem twins_separated {close complaint : String} {item item' : Token → Parser α}
    {rest rest' : Parser (List α)}
    (hitem : ∀ j t line, j + t.weight = k → Twins j (item t) (item' { t with line }) (Below k))
    (hrest : ∀ j < k, Twins j rest rest' (Below (j + 1))) :
    Twins k (separated close complaint item rest) (separated close complaint item' rest')
      (Below (k + 1)) := by
  unfold separated
  refine .read fun j t line hj => .ite Iff.rfl (fun _ => twins_pure ⟨by omega, rfl⟩) fun _ => ?_
  refine (hitem j t line hj).andThen fun i hi a => .read fun l separator line hl => ?_
  refine .ite Iff.rfl (fun _ => twins_pure ⟨by omega, rfl⟩) fun _ => ?_
  refine .ite Iff.rfl (fun _ => ?_) fun _ => twins_complain _
  exact (hrest l (by omega)).andThen fun r hr more => twins_pure ⟨by omega, rfl⟩

/-- With bounds that are large enough for the words to come, both runs agree. -/
structure TwinsWithin (n m : Nat) : Prop where
  expression : ∀ {k} level, 8 * k + 3 ≤ min n m →
    Twins k (expressionWithin n level) (expressionWithin m level) (Below k)
  operators : ∀ {k} level left, 8 * k + 1 ≤ min n m →
    Twins k (operatorsWithin n level left) (operatorsWithin m level left) (Below (k + 1))
  operand : ∀ {k}, 8 * k + 2 ≤ min n m → Twins k (operandWithin n) (operandWithin m) (Below k)
  primary : ∀ {k}, 8 * k + 1 ≤ min n m → Twins k (primaryWithin n) (primaryWithin m) (Below k)
  arguments : ∀ {k}, 8 * k + 4 ≤ min n m →
    Twins k (argumentsWithin n) (argumentsWithin m) (Below (k + 1))
  elements : ∀ {k}, 8 * k + 4 ≤ min n m →
    Twins k (elementsWithin n) (elementsWithin m) (Below (k + 1))
  pairs : ∀ {k}, 8 * k + 5 ≤ min n m → Twins k (pairsWithin n) (pairsWithin m) (Below (k + 1))
  key : ∀ {k} (t : Token) (line : Nat), 8 * (k + t.weight) + 4 ≤ min n m →
    Twins k (keyWithin n t) (keyWithin m { t with line }) (Below (k + t.weight + 1))

section Step

variable {n m : Nat} (ih : TwinsWithin n m)
include ih

theorem twins_operators_succ (level : Nat) (left : Expr) (hk : 8 * k ≤ min n m) :
    Twins k (operatorsWithin (n + 1) level left) (operatorsWithin (m + 1) level left)
      (Below (k + 1)) := by
  unfold operatorsWithin
  refine .read fun j t line hj => .ite Iff.rfl (fun _ => twins_giveBack ⟨by omega, rfl⟩) fun hkind => ?_
  have ht : t.weight = 1 := Token.weight_of_ne_eof fun heof => hkind (by simp [heof])
  refine .ite Iff.rfl (fun _ => ?_) fun _ => .ite Iff.rfl (fun _ => ?_) fun _ => ?_
  · refine .read fun i name line hi => .ite Iff.rfl (fun _ => ?_) fun hname => ?_
    · exact .unread (twins_giveBack ⟨by omega, rfl⟩)
    have hweight : name.weight = 1 := Token.weight_of_ne_eof fun heof => hname (by simp [heof])
    refine .read fun l next line hl => .ite Iff.rfl (fun _ => ?_) fun _ => .unread ?_
    · refine (ih.arguments (by omega)).andThen fun a ha args => ?_
      refine (twins_finishCall _ _).andThen fun c hc call => ?_
      exact (ih.operators level call (by omega)).mono fun _ _ _ h => ⟨by omega, h.2⟩
    · exact (ih.operators level _ (by omega)).mono fun _ _ _ h => ⟨by omega, h.2⟩
  · refine .ite Iff.rfl (fun _ => twins_giveBack ⟨by omega, rfl⟩) fun _ => ?_
    refine (ih.expression 0 (by omega)).andThen fun y hy yes => .expect fun c hc => ?_
    refine (ih.expression 0 (by omega)).andThen fun o ho no => ?_
    exact (ih.operators level _ (by omega)).mono fun _ _ _ h => ⟨by omega, h.2⟩
  · dsimp only
    split
    · exact twins_giveBack ⟨by omega, rfl⟩
    · rename_i op compound _
      refine .ite Iff.rfl (fun _ => twins_giveBack ⟨by omega, rfl⟩) fun _ => ?_
      refine (ih.expression op.level (by omega)).andThen fun r hr right => ?_
      refine (twins_closeSubscript op).andThen fun c hc _ => ?_
      exact (ih.operators level _ (by omega)).mono fun _ _ _ h => ⟨by omega, h.2⟩

theorem twins_operand_succ (hk : 8 * k + 1 ≤ min n m) :
    Twins k (operandWithin (n + 1)) (operandWithin (m + 1)) (Below k) := by
  unfold operandWithin
  refine (ih.primary hk).andThen fun j hj base => .read fun i t line hi => ?_
  dsimp only
  split
  · exact twins_pure ⟨by omega, rfl⟩
  · exact twins_giveBack ⟨by omega, rfl⟩

theorem twins_primary_succ (hk : 8 * k ≤ min n m) :
    Twins k (primaryWithin (n + 1)) (primaryWithin (m + 1)) (Below k) := by
  unfold primaryWithin
  refine .read fun j t line hj => ?_
  by_cases heof : t.kind = .eof
  · simp only [heof]
    exact twins_complain _
  have ht : t.weight = 1 := Token.weight_of_ne_eof heof
  dsimp only
  split
  · exact twins_pure ⟨by omega, rfl⟩
  · exact twins_pure ⟨by omega, rfl⟩
  · refine .read fun i next line hi => .ite Iff.rfl (fun _ => ?_) fun _ => ?_
    · refine (ih.arguments (by omega)).andThen fun a ha args => ?_
      exact (twins_finishCall _ _).mono fun _ _ _ h => ⟨by omega, h.2⟩
    · exact twins_giveBack ⟨by omega, rfl⟩
  · split
    · refine (ih.operand (by omega)).andThen fun a ha arg => twins_pure ⟨by omega, rfl⟩
    · refine (ih.operand (by omega)).andThen fun a ha arg => twins_pure ⟨by omega, rfl⟩
    · exact twins_complain _
  · refine .ite Iff.rfl (fun _ => ?_) fun _ => .ite Iff.rfl (fun _ => ?_) fun _ => .ite Iff.rfl
      (fun _ => ?_) fun _ => twins_complain _
    · refine (ih.expression 0 (by omega)).andThen fun i hi e => .expect fun l hl => ?_
      exact twins_pure ⟨by omega, rfl⟩
    · exact (ih.elements (by omega)).andThen fun i hi es => twins_pure ⟨by omega, rfl⟩
    · exact (ih.pairs (by omega)).andThen fun i hi ps => twins_pure ⟨by omega, rfl⟩
  · exact twins_complain _

theorem twins_expressionFrom (hk : 8 * k + 3 ≤ min n m) (j : Nat) (t : Token) (line : Nat)
    (hj : j + t.weight = k) :
    Twins j (expressionFrom n t) (expressionFrom m { t with line }) (Below k) := by
  subst hj
  exact .unread (ih.expression 0 hk)

theorem twins_pairFrom (hk : 8 * k + 4 ≤ min n m) (j : Nat) (t : Token) (line : Nat)
    (hj : j + t.weight = k) : Twins j (pairFrom n t) (pairFrom m { t with line }) (Below k) := by
  unfold pairFrom
  refine (ih.key t line (by omega)).andThen fun i hi key => .expect fun l hl => ?_
  exact (ih.expression 0 (by omega)).andThen fun r hr value => twins_pure ⟨by omega, rfl⟩

theorem twins_key_succ (t : Token) (line : Nat) (hk : 8 * (k + t.weight) + 3 ≤ min n m) :
    Twins k (keyWithin (n + 1) t) (keyWithin (m + 1) { t with line })
      (Below (k + t.weight + 1)) := by
  unfold keyWithin
  refine .ite Iff.rfl (fun _ => ?_) fun _ => .unread ?_
  · refine .read fun j name line hj => .ite Iff.rfl (fun _ => ?_) fun _ => twins_complain _
    exact twins_pure ⟨by omega, rfl⟩
  · exact (ih.expression 0 hk).mono fun _ _ _ h => ⟨by omega, h.2⟩

theorem twinsWithin_succ : TwinsWithin (n + 1) (m + 1) where
  expression level hk := by
    unfold expressionWithin
    refine (ih.operand (by omega)).andThen fun j hj left => ?_
    exact (ih.operators level left (by omega)).mono fun _ _ _ h => ⟨by omega, h.2⟩
  operators level left hk := twins_operators_succ ih level left (by omega)
  operand hk := twins_operand_succ ih (by omega)
  primary hk := twins_primary_succ ih (by omega)
  arguments {k} hk := by
    rw [argumentsWithin_succ, argumentsWithin_succ]
    exact twins_separated (twins_expressionFrom ih (by omega)) fun j hj => ih.arguments (by omega)
  elements hk := by
    rw [elementsWithin_succ, elementsWithin_succ]
    exact twins_separated (twins_expressionFrom ih (by omega)) fun j hj => ih.elements (by omega)
  pairs hk := by
    rw [pairsWithin_succ, pairsWithin_succ]
    exact twins_separated (twins_pairFrom ih (by omega)) fun j hj => ih.pairs (by omega)
  key t line hk := twins_key_succ ih t line (by omega)

end Step

theorem twinsWithin : ∀ n m, TwinsWithin n m
  | 0, _ => by constructor <;> omega
  | _ + 1, 0 => by constructor <;> omega
  | n + 1, m + 1 => twinsWithin_succ (twinsWithin n m)

/-! ## Statements -/

variable {n m : Nat}

theorem twins_expression (hk : 8 * k + 3 ≤ min n m) :
    Twins k (expressionWithin n 0) (expressionWithin m 0) (Below k) :=
  (twinsWithin n m).expression 0 hk

theorem twins_clauseWithin (stop : String) (hk : 8 * k + 3 ≤ min n m) :
    Twins k (clauseWithin n stop) (clauseWithin m stop) (Below (k + 1)) := by
  unfold clauseWithin
  refine .read fun j t line hj => .unread ?_
  subst hj
  refine .ite Iff.rfl (fun _ => twins_pure ⟨by omega, rfl⟩) fun _ => ?_
  exact (twins_expression hk).andThen fun i hi e => twins_pure ⟨by omega, rfl⟩

theorem twins_foreachHead : Twins k foreachHead foreachHead (Below (k + 1)) := by
  unfold foreachHead
  refine .read fun j first line hj => .ite Iff.rfl (fun _ => ?_) fun _ => ?_
  · refine .read fun i second line hi => .ite Iff.rfl (fun _ => twins_pure ⟨by omega, rfl⟩) fun _ => ?_
    exact .unread (twins_giveBack ⟨by omega, rfl⟩)
  · exact twins_giveBack ⟨by omega, rfl⟩

/-- An expression and the word after it. -/
theorem twins_expressionExpect {text complaint : String} {f f' : Expr → Parser α}
    (hk : 8 * k + 3 ≤ min n m) (h : ∀ j < k, ∀ e, Twins j (f e) (f' e) Q) :
    Twins k (do let e ← expressionWithin n 0; let _ ← expect text complaint; f e)
      (do let e ← expressionWithin m 0; let _ ← expect text complaint; f' e) Q :=
  (twins_expression hk).andThen fun _ hj e => .expect fun i hi => h i (by omega) e

/-- The statements are the same up to locations, and fewer than `b` words are left. -/
abbrev BelowStmt (b : Nat) : Nat → Stmt → Stmt → Prop :=
  fun j s s' => j < b ∧ s'.unlocated = s.unlocated

/-- The same for lists of statements. -/
abbrev BelowStmts (b : Nat) : Nat → List Stmt → List Stmt → Prop :=
  fun j ss ss' => j < b ∧ Stmt.unlocatedAll ss' = Stmt.unlocatedAll ss

/-- A statement whose last part is a statement. -/
theorem twins_body {f f' : Stmt → Stmt}
    (ih : Twins k (statementWithin n) (statementWithin m) (BelowStmt k)) (hb : k ≤ b)
    (hf : ∀ body body' : Stmt, body'.unlocated = body.unlocated →
      (f' body').unlocated = (f body).unlocated) :
    Twins k (do let body ← statementWithin n; return f body)
      (do let body ← statementWithin m; return f' body) (BelowStmt b) :=
  ih.bind fun _ body body' hbody => twins_pure ⟨by omega, hf body body' hbody.2⟩

theorem weight_of_keyword {t : Token} (h : keyword t ≠ "") : t.weight = 1 :=
  Token.weight_of_ne_eof fun heof => h (by rw [keyword, heof])

section Step

variable
  (ihStmt : ∀ {k}, 8 * k + 4 ≤ min n m → Twins k (statementWithin n) (statementWithin m) (BelowStmt k))
  (ihBlock : ∀ {k}, 8 * k + 5 ≤ min n m → Twins k (blockWithin n) (blockWithin m) (BelowStmts (k + 1)))
include ihStmt ihBlock

theorem twins_block_succ (hk : 8 * k + 4 ≤ min n m) :
    Twins k (blockWithin (n + 1)) (blockWithin (m + 1)) (BelowStmts (k + 1)) := by
  unfold blockWithin
  refine .read fun j t line hj => .ite Iff.rfl (fun _ => twins_pure ⟨by omega, rfl⟩) fun _ => ?_
  refine .ite Iff.rfl (fun _ => twins_complain _) fun _ => .unread ?_
  subst hj
  refine (ihStmt hk).bind fun i first first' hfirst => ?_
  refine (ihBlock (by omega)).bind fun l rest rest' hrest => twins_pure ⟨by omega, ?_⟩
  simp only [Stmt.unlocatedAll, hfirst.2, hrest.2]

theorem twins_statement_succ (hk : 8 * k + 3 ≤ min n m) :
    Twins k (statementWithin (n + 1)) (statementWithin (m + 1)) (BelowStmt k) := by
  unfold statementWithin
  refine .read fun j t line hj => .look fun loc loc' => ?_
  have hweight := weight_of_keyword (t := t)
  have hword : keyword { t with line } = keyword t := rfl
  rw [hword]
  generalize keyword t = word at hweight
  split
  case h_11 =>
    subst hj
    exact .unread (twins_expressionExpect hk fun i hi e => twins_pure ⟨by omega, rfl⟩)
  -- A keyword has been taken, so fewer words are left for what follows it.
  all_goals replace hweight : t.weight = 1 := hweight (by decide)
  · refine (ihBlock (by omega)).bind fun i body body' hbody => twins_pure ⟨by omega, ?_⟩
    simp only [Stmt.unlocated, hbody.2]
  · refine .expect fun o ho => twins_expressionExpect (by omega) fun c hc cond => ?_
    refine (ihStmt (by omega)).bind fun y yes yes' hyes => .read fun i next line hi => ?_
    refine .ite Iff.rfl (fun _ => ?_) fun _ => ?_
    · exact twins_body (ihStmt (by omega)) (by omega) fun no no' hno => by
        simp only [Stmt.unlocated, hyes.2, hno]
    · refine twins_giveBack ⟨by omega, ?_⟩
      simp only [Stmt.unlocated, hyes.2]
  · refine .expect fun o ho => twins_foreachHead.andThen fun h hh head => ?_
    cases head with
    | some name =>
      refine twins_expressionExpect (by omega) fun i hi items => ?_
      exact twins_body (ihStmt (by omega)) (by omega) fun body body' hbody => by
        simp only [Stmt.unlocated, hbody]
    | none =>
      refine (twins_clauseWithin ";" (by omega)).andThen fun i hi init => .expect fun i' hi' => ?_
      refine (twins_clauseWithin ";" (by omega)).andThen fun c hc cond => .expect fun c' hc' => ?_
      refine (twins_clauseWithin ")" (by omega)).andThen fun x hx next => .expect fun x' hx' => ?_
      exact twins_body (ihStmt (by omega)) (by omega) fun body body' hbody => by
        simp only [Stmt.unlocated, hbody]
  · refine .expect fun o ho => twins_expressionExpect (by omega) fun c hc cond => ?_
    exact twins_body (ihStmt (by omega)) (by omega) fun body body' hbody => by
      simp only [Stmt.unlocated, hbody]
  · exact .expect fun i hi => twins_pure ⟨by omega, rfl⟩
  · exact .expect fun i hi => twins_pure ⟨by omega, rfl⟩
  · refine (twins_clauseWithin ";" (by omega)).andThen fun i hi value => .expect fun l hl => ?_
    exact twins_pure ⟨by omega, rfl⟩
  · refine .expect fun o ho => twins_expressionExpect (by omega) fun p hp paths => ?_
    exact twins_body (ihStmt (by omega)) (by omega) fun action action' haction => by
      simp only [Stmt.unlocated, haction]
  · exact twins_expressionExpect (by omega) fun i hi path => twins_pure ⟨by omega, rfl⟩
  · exact twins_expressionExpect (by omega) fun i hi path => twins_pure ⟨by omega, rfl⟩

end Step

theorem twins_statementWithin_blockWithin : ∀ n m,
    (∀ {k}, 8 * k + 4 ≤ min n m → Twins k (statementWithin n) (statementWithin m) (BelowStmt k)) ∧
      ∀ {k}, 8 * k + 5 ≤ min n m → Twins k (blockWithin n) (blockWithin m) (BelowStmts (k + 1))
  | 0, _ => by constructor <;> omega
  | _ + 1, 0 => by constructor <;> omega
  | n + 1, m + 1 => by
    obtain ⟨hs, hb⟩ := twins_statementWithin_blockWithin n m
    exact ⟨fun hk => twins_statement_succ hs hb (by omega),
      fun hk => twins_block_succ hs hb (by omega)⟩

theorem twins_statement (hk : 8 * k + 4 ≤ min n m) :
    Twins k (statementWithin n) (statementWithin m) (BelowStmt k) :=
  (twins_statementWithin_blockWithin n m).1 hk

end Parser

/-- The function with the locations in its body forgotten. -/
def Function.unlocated (f : Function) : Function := { f with body := f.body.unlocated }

/-- The module with all locations forgotten, and its path, which names it in them. -/
def Module.unlocated (m : Module) : Module :=
  ⟨"", m.functions.map Function.unlocated, m.targets, Stmt.unlocatedAll m.body⟩

theorem Module.unlocated_eq_iff {a a' : Module} : a'.unlocated = a.unlocated ↔
    a'.functions.map Function.unlocated = a.functions.map Function.unlocated ∧
      a'.targets = a.targets ∧ Stmt.unlocatedAll a'.body = Stmt.unlocatedAll a.body := by
  simp only [Module.unlocated, Module.mk.injEq, true_and]

namespace Parser

variable {k n m : Nat}

/-! ## Modules -/

theorem twins_parametersWithin : ∀ {k n m}, k + 1 ≤ min n m →
    Twins k (parametersWithin n) (parametersWithin m) (Below (k + 1))
  | k, 0, _, hk => by omega
  | k, _ + 1, 0, hk => by omega
  | k, n + 1, m + 1, hk => by
    unfold parametersWithin
    refine .read fun j t line hj => .ite Iff.rfl (fun _ => twins_pure ⟨by omega, rfl⟩) fun _ => ?_
    refine .ite Iff.rfl (fun _ => twins_complain _) fun hname => ?_
    have ht : t.weight = 1 := Token.weight_of_ne_eof fun heof => hname (by simp [heof])
    refine .read fun i separator line hi => .ite Iff.rfl (fun _ => twins_pure ⟨by omega, rfl⟩) fun _ => ?_
    refine .ite Iff.rfl (fun _ => ?_) fun _ => twins_complain _
    exact (twins_parametersWithin (by omega)).andThen fun l hl rest => twins_pure ⟨by omega, rfl⟩

theorem twins_definitionWithin (isTarget : Bool) {known known' : Table Function}
    (hknown : known'.map Function.unlocated = known.map Function.unlocated)
    (hk : 8 * k + 4 ≤ min n m) :
    Twins k (definitionWithin n isTarget known) (definitionWithin m isTarget known')
      fun j f f' => j < k + 1 ∧ f'.unlocated = f.unlocated := by
  have hcontains (name : String) : known'.contains name = known.contains name := by
    rw [← Table.contains_map Function.unlocated, hknown, Table.contains_map]
  unfold definitionWithin
  refine .read fun j name line hj => .ite Iff.rfl (fun _ => twins_complain _) fun _ => ?_
  refine .expect fun o ho => (twins_parametersWithin (by omega)).andThen fun p hp params => ?_
  refine (twins_statement (by omega)).bind fun i body body' hbody => ?_
  refine .ite (by rw [hcontains]) (fun _ => twins_complain _) fun _ => twins_pure ⟨by omega, ?_⟩
  simp only [Function.unlocated, hbody.2]

theorem twins_unitsWithin (path path' : String) : ∀ {k n m} {known known' : Table Function},
    known'.map Function.unlocated = known.map Function.unlocated → 8 * k + 5 ≤ min n m →
    Twins k (unitsWithin path n known) (unitsWithin path' m known')
      fun _ a a' => a'.unlocated = a.unlocated
  | k, 0, _, _, _, _, hk => by omega
  | k, _ + 1, 0, _, _, _, hk => by omega
  | k, n + 1, m + 1, known, known', hknown, hk => by
    unfold unitsWithin
    refine .read fun j t line hj => .ite Iff.rfl (fun _ => twins_pure ?_) fun heof => ?_
    · simp only [Module.unlocated, hknown]
    have ht : t.weight = 1 := Token.weight_of_ne_eof heof
    refine .ite Iff.rfl (fun _ => ?_) fun _ => .unread ?_
    · refine (twins_definitionWithin _ hknown (by omega)).bind fun i f f' ⟨hi, hf⟩ => ?_
      have hname : f'.name = f.name := congrArg (fun g => g.name) hf
      have htarget : f'.isTarget = f.isTarget := congrArg (fun g => g.isTarget) hf
      have hinsert : (known'.insert f'.name f').map Function.unlocated =
          (known.insert f.name f).map Function.unlocated := by
        rw [← Table.insert_map, ← Table.insert_map, hknown, hf, hname]
      refine (twins_unitsWithin path path' hinsert (by omega)).bind fun l a a' ha => twins_pure ?_
      obtain ⟨hfunctions, htargets, hbody⟩ := Module.unlocated_eq_iff.mp ha
      rw [htarget]
      split
      · exact Module.unlocated_eq_iff.mpr ⟨hfunctions, by simp only [hname, htargets], hbody⟩
      · exact ha
    · subst hj
      refine (twins_statement (by omega)).bind fun i s s' hs => ?_
      refine (twins_unitsWithin path path' hknown (by omega)).bind fun l a a' ha => twins_pure ?_
      obtain ⟨hfunctions, htargets, hbody⟩ := Module.unlocated_eq_iff.mp ha
      exact Module.unlocated_eq_iff.mpr
        ⟨hfunctions, htargets, by simp only [Stmt.unlocatedAll, hs.2, hbody]⟩

end Parser

/-! ## Steps -/

namespace Stmt

mutual

/-- The actions of the `depends` statements in a statement, at any depth. -/
def actions : Stmt → List Stmt
  | .block _ ss => actionsAll ss
  | .branch _ _ yes none => actions yes
  | .branch _ _ yes (some no) => actions yes ++ actions no
  | .loop _ _ _ _ body | .foreach _ _ _ body => actions body
  | .depends _ _ action => action :: actions action
  | .expr .. | .breakStmt _ | .continueStmt _ | .returnStmt .. | .includeStmt .. | .usingStmt .. => []

/-- The actions in a list of statements. -/
def actionsAll : List Stmt → List Stmt
  | [] => []
  | s :: rest => actions s ++ actionsAll rest

end

mutual

theorem actions_unlocated : ∀ s : Stmt, s.unlocated.actions = s.actions.map unlocated
  | .block _ ss => by simp only [unlocated, actions, actionsAll_unlocatedAll ss]
  | .branch _ _ yes none => by simp only [unlocated, actions, actions_unlocated yes]
  | .branch _ _ yes (some no) => by
    simp only [unlocated, actions, actions_unlocated yes, actions_unlocated no, List.map_append]
  | .loop _ _ _ _ body | .foreach _ _ _ body => by
    simp only [unlocated, actions, actions_unlocated body]
  | .depends _ _ action => by
    simp only [unlocated, actions, actions_unlocated action, List.map_cons]
  | .expr .. | .breakStmt _ | .continueStmt _ | .returnStmt .. | .includeStmt ..
  | .usingStmt .. => by
    simp only [unlocated, actions, List.map_nil]

theorem actionsAll_unlocatedAll :
    ∀ ss : List Stmt, actionsAll (unlocatedAll ss) = (actionsAll ss).map unlocated
  | [] => by simp only [unlocatedAll, actionsAll, List.map_nil]
  | s :: rest => by
    simp only [unlocatedAll, actionsAll, actions_unlocated s, actionsAll_unlocatedAll rest,
      List.map_append]

end

end Stmt

/-- The actions of all `depends` statements in a module, first those in its functions. -/
def Module.actions (m : Module) : List Stmt :=
  (m.functions.values.flatMap fun f => f.body.actions) ++ Stmt.actionsAll m.body

theorem Module.actions_unlocated (m : Module) :
    m.unlocated.actions = m.actions.map Stmt.unlocated := by
  simp only [actions, unlocated, Stmt.actionsAll_unlocatedAll, List.map_append, List.map_flatMap,
    Table.values, Table.map, List.flatMap_map, List.map_map, Function.comp_def,
    Kiln.Function.unlocated, Stmt.actions_unlocated]

namespace Fingerprint

/-- The views show the same values, and the same functions up to locations. -/
structure SameContext (view view' : View) : Prop where
  value : ∀ x, view'.value x = view.value x
  functions : view'.functions.map Function.unlocated = view.functions.map Function.unlocated

theorem SameContext.stmt_eq {view view' : View} (h : SameContext view view') (s : Stmt) :
    stmt view' s = stmt view s := by
  refine (stmt_rel congruence_eq rfl ⟨fun x _ => ?_, fun name _ => ?_⟩).symm
  · simp only [reference, h.value x]
  · have hget := congrArg (fun t => (t.get? name).map fun f => (f.params, f.body)) h.functions
    simp only [Table.get?_map, Option.map_map] at hget
    exact hget

theorem map_stmt_unlocated (view : View) (ss : List Stmt) :
    (ss.map Stmt.unlocated).map (stmt view) = ss.map (stmt view) := by
  rw [List.map_map]
  exact List.map_congr_left fun s _ => stmtWith_unlocated view _ s

end Fingerprint

/-- Texts with the same words are refused with the same complaint about the same word, or are modules
with the same functions, targets and statements up to locations.  Every step in them then has the
same fingerprint on either side, so what one has recorded is up to date for the other. -/
theorem Module.parse_of_words {text text' path path' : String}
    (h : (Stream.ofText text' path').words = (Stream.ofText text path).words) :
    (∃ e e', Module.parse text path = .error e ∧ Module.parse text' path' = .error e' ∧
        e'.unlocated = e.unlocated) ∨
      ∃ m m', Module.parse text path = .ok m ∧ Module.parse text' path' = .ok m' ∧
        m'.unlocated = m.unlocated ∧
        ∀ view view', Fingerprint.SameContext view view' →
          m'.actions.map (Fingerprint.stmt view') = m.actions.map (Fingerprint.stmt view) := by
  have halike := Stream.alike_ofText h
  have hbound := Stream.count_ofText text path
  have hbound' := Stream.count_ofText text' path'
  rw [halike.count] at hbound'
  have htwins := twins_unitsWithin path path' (rfl : Table.empty.map Function.unlocated = _)
    (k := (Stream.ofText text path).count) (n := (Stream.ofText text path).depthBound)
    (m := (Stream.ofText text' path').depthBound) (by omega)
  rcases htwins _ _ halike rfl with ⟨a, a', t, t', hrun, hrun', -, ha⟩ |
    ⟨e, e', t, t', hrun, hrun', he⟩
  · refine .inr ⟨a, a', by rw [Module.parse, hrun], by rw [Module.parse, hrun'], ha, ?_⟩
    intro view view' hview
    have hactions : a'.actions.map Stmt.unlocated = a.actions.map Stmt.unlocated := by
      rw [← Module.actions_unlocated, ha, Module.actions_unlocated]
    rw [funext hview.stmt_eq, ← Fingerprint.map_stmt_unlocated, hactions,
      Fingerprint.map_stmt_unlocated]
  · exact .inl ⟨e, e', by rw [Module.parse, hrun], by rw [Module.parse, hrun'], he⟩

/-- A file on one line. -/
def Module.onOneLine : String :=
  "depends(\"a\")x=1;target t(p)\x7bif(p)depends(b)f(p);\x7d"

/-- The same file with comments and indentation. -/
def Module.indented : String :=
  "// a file\ndepends (\"a\")\n\tx = 1; /* a\n step */\n\n" ++
    "target t ( p )\r\n\x7b\n\tif (p)\n\t\tdepends (b)\n\t\t\tf (p) ;\n\x7d"

theorem Module.parse_of_words_indented :
    (Stream.ofText Module.indented "/n").words = (Stream.ofText Module.onOneLine "/m").words ∧
      ∃ m m', Module.parse Module.onOneLine "/m" = .ok m ∧ m.actions.length = 2 ∧
        Module.parse Module.indented "/n" = .ok m' ∧ m'.unlocated = m.unlocated ∧
        ∀ view, m'.actions.map (Fingerprint.stmt view) = m.actions.map (Fingerprint.stmt view) := by
  have hwords : (Stream.ofText Module.indented "/n").words =
      (Stream.ofText Module.onOneLine "/m").words := by decide +kernel
  have hparse : (do return (← Module.parse Module.onOneLine "/m").actions.length) = .ok 2 := by
    decide +kernel
  obtain ⟨read, hread, hsteps⟩ := Outcome.bind_eq_ok.mp hparse
  rcases Module.parse_of_words hwords with ⟨e, e', he, -⟩ | ⟨m, m', hm, hm', hmm', hprints⟩
  · rw [he] at hread
    cases hread
  · obtain rfl : read = m := Outcome.ok.inj (hread.symm.trans hm)
    rw [Outcome.pure_eq_ok] at hsteps
    exact ⟨hwords, read, m', hm, hsteps, hm', hmm',
      fun view => hprints view view ⟨fun _ => rfl, rfl⟩⟩

end Kiln
