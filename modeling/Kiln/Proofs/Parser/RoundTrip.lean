import Mathlib.Data.List.Forall2
import Mathlib.Tactic.TFAE
import Kiln.Proofs.Law
import Kiln.Proofs.Parser.Printing

/-!
# Kiln.Proofs.Parser.RoundTrip — printed expressions read back

Reading the text of an expression gives the expression back.  The proof is about the words that come
next: `Reads p a before after` says that where the words `before` come next, `p` yields `a` and
leaves the words `after`.  What a parser pushes back is among them again, so looking ahead leaves no
trace.  By induction on the expression its words read as it wherever an expression may end.
-/

namespace Kiln

namespace Parser

theorem scan_with_last (s : Stream) (last : String) :
    scan { s with last } = ((scan s).1, { (scan s).2 with last }) := by
  rcases s with ⟨file, rest, torn, line, pushed, last'⟩
  cases torn with
  | succ n => rfl
  | zero =>
    simp only [scan]
    rcases Token.skipGap .blanks line rest with ⟨rest', line'⟩
    cases rest' with
    | nil => rfl
    | cons c after =>
      dsimp only
      cases Token.lexeme? c after <;> rfl

theorem token_with_last {s s' : Stream} {t : Token} (h : token s = (.ok t, s')) (last : String) :
    token { s with last } = (.ok t, s') := by
  rcases s with ⟨file, rest, torn, line, pushed, last'⟩
  cases pushed with
  | cons u pushed => exact h
  | nil =>
    have hscan := scan_with_last ⟨file, rest, torn, line, [], last'⟩ last
    simp only [token] at h ⊢
    rw [hscan]
    rcases hrun : scan ⟨file, rest, torn, line, [], last'⟩ with ⟨o, u⟩
    rw [hrun] at h
    cases o with
    | ok u => exact h
    | error e => cases h
    | exhausted => cases h

end Parser

/-- The text of the last token has no influence on what is read. -/
theorem Stream.Ahead.with_last {stop : Stream} {ts : List Token} {s : Stream} (h : Ahead stop ts s)
    (last : String) : Ahead stop ts { s with last } := by
  cases ts with
  | nil =>
    obtain ⟨last', rfl⟩ := h
    exact ⟨last, rfl⟩
  | cons t ts =>
    obtain ⟨s', htoken, hrest⟩ := h
    exact ⟨s', Parser.token_with_last htoken last, hrest⟩

namespace Parser

open Token

variable {α β : Type} {a : α} {b : β} {t : Token} {ts before between after : List Token}

/-! ## What parsers read -/

/-- Where the words `before` come next, `p` yields `a` and leaves the words `after`. -/
def Reads (p : Parser α) (a : α) (before after : List Token) : Prop :=
  ∀ stop s, Stream.Ahead stop before s → ∃ s', p s = (.ok a, s') ∧ Stream.Ahead stop after s'

theorem reads_pure (a : α) (ts : List Token) : Reads (pure a) a ts ts :=
  fun _ s hs => ⟨s, rfl, hs⟩

theorem Reads.bind {p : Parser α} {f : α → Parser β} (hp : Reads p a before between)
    (hf : Reads (f a) b between after) : Reads (p >>= f) b before after := by
  intro stop s hs
  obtain ⟨s', hrun, hs'⟩ := hp stop s hs
  rw [Step.bind_run_ok hrun]
  exact hf stop s' hs'

theorem reads_token (t : Token) (ts : List Token) : Reads token t (t :: ts) ts :=
  fun _ _ hs => hs

theorem reads_pushBack (t : Token) (ts : List Token) : Reads (pushBack t) () ts (t :: ts) :=
  fun _ s hs => ⟨{ s with pushed := t :: s.pushed }, rfl, { s with last := t.text }, rfl, hs.with_last t.text⟩

theorem reads_expect {text complaint : String} (h : t.reads text = true) :
    Reads (expect text complaint) t (t :: ts) ts := by
  refine (reads_token t ts).bind ?_
  rw [if_pos h]
  exact reads_pure t ts

theorem reads_giveBack (t : Token) (a : α) : Reads (do pushBack t; return a) a ts (t :: ts) :=
  (reads_pushBack t ts).bind (reads_pure a _)

/-! ## Around expressions -/

/-- The words after which an expression may end. -/
def ends : List Token :=
  [.punct ")", .punct "]", .punct "\x7d", .punct ",", .punct ";", .op ":", .eof]

/-- The token is no `++` or `--` that an operand in front of it would take. -/
def Stays (t : Token) : Prop := t.kind ≠ .op ∨ Bump.ofText? t.text = none

/-- The words do not start like the end of a list or a key after a point. -/
def Starts (ws : List Token) : Prop :=
  ∃ t us, ws = t :: us ∧ ∀ text ∈ [")", "]", "\x7d", "."], t.reads text = false

theorem Starts.length_pos {ws : List Token} (h : Starts ws) : 1 ≤ ws.length := by
  obtain ⟨t, us, rfl, -⟩ := h
  exact Nat.succ_pos _

theorem starts_of_head {p : Char → Bool} {c : Char} {cs : List Char}
    (htext : t.text.toList = c :: cs) (hc : p c = true)
    (hp : ∀ text ∈ [")", "]", "\x7d", "."], text.toList.any p = false) (us : List Token) :
    Starts (t :: us) := by
  refine ⟨t, us, rfl, fun text hmem => ?_⟩
  have hne : t.text ≠ text := by
    rintro rfl
    refine List.any_eq_false.mp (hp _ hmem) c ?_ hc
    rw [htext]
    exact List.mem_cons_self ..
  simp [Token.reads, hne]

/-- The words read as `e` wherever an expression may end. -/
structure ReadsAs (e : Expr) (ws : List Token) : Prop where
  starts : Starts ws
  reads : ∀ {n : Nat}, 8 * ws.length ≤ n → ∀ {t : Token}, t ∈ ends → ∀ ts,
    Reads (expressionWithin n 0) e (ws ++ t :: ts) (t :: ts)

variable {n level : Nat} {e : Expr} {ws : List Token}

theorem stays_of_ends (ht : t ∈ ends) : Stays t :=
  (by decide : ∀ t ∈ ends, t.kind ≠ .op ∨ Bump.ofText? t.text = none) t ht

theorem reads_operators_end (ht : t ∈ ends) :
    Reads (operatorsWithin (n + 1) level e) e (t :: ts) (t :: ts) := by
  have hends : ∀ t ∈ ends, (t.kind ≠ .op ∧ t.kind ≠ .punct) ∨
      (¬ (t.kind ≠ .op ∧ t.kind ≠ .punct) ∧ t.text ≠ "." ∧ t.text ≠ "?" ∧
        BinaryOp.ofToken? t.text = none) := by decide
  unfold operatorsWithin
  refine (reads_token t ts).bind ?_
  rcases hends t ht with hkind | ⟨hkind, hpoint, hternary, hop⟩
  · rw [if_pos hkind]
    exact reads_giveBack t e
  · rw [if_neg hkind, if_neg hpoint, if_neg hternary, hop]
    exact reads_giveBack t e

/-- An operand that no `++` or `--` follows. -/
theorem reads_operand (h : Reads (primaryWithin n) e before (t :: ts)) (ht : Stays t) :
    Reads (operandWithin (n + 1)) e before (t :: ts) := by
  unfold operandWithin
  refine h.bind ((reads_token t ts).bind ?_)
  split
  · rename_i hkind hbump
    rcases ht with hop | hnone
    · exact absurd hkind hop
    · rw [hnone] at hbump
      cases hbump
  · exact reads_giveBack t e

theorem reads_expression (h : Reads (operandWithin (n + 1)) e before (t :: ts)) (ht : t ∈ ends) :
    Reads (expressionWithin (n + 2) level) e before (t :: ts) := by
  unfold expressionWithin
  exact h.bind (reads_operators_end ht)

/-! ## Operands -/

theorem ReadsAs.primary (h : ReadsAs e ws) (hn : 8 * ws.length ≤ n) (ts : List Token) :
    Reads (primaryWithin (n + 1)) e (bracketed ws ++ ts) ts := by
  unfold primaryWithin
  rw [bracketed_append]
  refine (reads_token (.punct "(") _).bind ?_
  exact (h.reads hn (by decide) ts).bind ((reads_expect rfl).bind (reads_pure e ts))

theorem ReadsAs.operand (h : ReadsAs e ws) (hn : 8 * ws.length ≤ n) (ht : Stays t)
    (ts : List Token) : Reads (operandWithin (n + 2)) e (bracketed ws ++ t :: ts) (t :: ts) :=
  reads_operand (h.primary hn _) ht

theorem ReadsAs.bracketed (h : ReadsAs e ws) (hn : 8 * ws.length ≤ n) (ht : t ∈ ends)
    (ts : List Token) :
    Reads (expressionWithin (n + 3) level) e (bracketed ws ++ t :: ts) (t :: ts) :=
  reads_expression (h.operand hn (stays_of_ends ht) ts) ht

/-- What reads as a primary expression reads as an expression. -/
theorem readsAs_of_primary (hstarts : Starts ws) (h : ∀ {n}, 8 * ws.length ≤ n + 3 → ∀ {t},
    t ∈ ends → ∀ ts, Reads (primaryWithin (n + 1)) e (ws ++ t :: ts) (t :: ts)) : ReadsAs e ws := by
  refine ⟨hstarts, fun {n} hn t ht ts => ?_⟩
  have hlength := hstarts.length_pos
  obtain ⟨k, rfl⟩ : ∃ k, n = k + 3 := ⟨n - 3, by omega⟩
  exact reads_expression (reads_operand (h hn ht ts) (stays_of_ends ht)) ht

/-- What starts with an operand in parentheses and goes on with an operator reads as an expression. -/
theorem readsAs_of_operators {left : Expr} {us : List Token} (h : ReadsAs left ws)
    (hus : ∃ t vs, us = t :: vs ∧ Stays t) (hops : ∀ {n}, 8 * us.length ≤ n + 8 → ∀ {t}, t ∈ ends →
      ∀ ts, Reads (operatorsWithin (n + 1) 0 left) e (us ++ t :: ts) (t :: ts)) :
    ReadsAs e (bracketed ws ++ us) := by
  refine ⟨⟨_, _, rfl, by decide⟩, fun {n} hn t ht ts => ?_⟩
  rw [List.length_append, length_bracketed] at hn
  obtain ⟨k, rfl⟩ : ∃ k, n = k + 3 := ⟨n - 3, by omega⟩
  have hoperators := hops (show 8 * us.length ≤ k + 1 + 8 by omega) ht ts
  obtain ⟨u, vs, rfl, hu⟩ := hus
  unfold expressionWithin
  rw [List.append_assoc]
  exact (h.operand (by omega) hu _).bind hoperators

theorem ReadsAs.item (h : ReadsAs e ws) (wrapped : Bool) : ReadsAs e (Expr.item wrapped ws) := by
  cases wrapped with
  | false => exact h
  | true =>
    refine readsAs_of_primary ⟨_, _, rfl, by decide⟩ fun {n} hn t _ ts => h.primary ?_ _
    rw [Expr.item, if_pos rfl, length_bracketed] at hn
    omega

/-! ## Operators -/

theorem reads_closeSubscript_of_ne {op : BinaryOp} (h : op ≠ .subscript) (ts : List Token) :
    Reads (closeSubscript op) () ts ts := by
  rw [closeSubscript, if_neg h]
  exact reads_pure () ts

theorem reads_closeSubscript (ts : List Token) :
    Reads (closeSubscript .subscript) () (.punct "]" :: ts) ts := by
  rw [closeSubscript, if_pos rfl]
  exact (reads_expect rfl).bind (reads_pure () ts)

theorem ofToken?_text (op : BinaryOp) : BinaryOp.ofToken? op.text = some (op, false) := by
  cases op <;> decide

/-- The sign of an operator between two operands and what it starts. -/
theorem reads_operators_sign {op : BinaryOp} {left right : Expr}
    (hkind : t.kind = .op ∨ t.kind = .punct) (htext : t.text = op.text) (hlevel : level ≤ op.level)
    (hright : Reads (expressionWithin n op.level) right before between)
    (hclose : Reads (closeSubscript op) () between after) {ts : List Token}
    (hrest : Reads (operatorsWithin n level (.binary op left right)) e after ts) :
    Reads (operatorsWithin (n + 1) level left) e (t :: before) ts := by
  have hpoint : op.text ≠ "." := by cases op <;> decide
  have hternary : op.text ≠ "?" := by cases op <;> decide
  unfold operatorsWithin
  refine (reads_token t before).bind ?_
  rw [if_neg (by rcases hkind with h | h <;> simp [h]), htext, if_neg hpoint, if_neg hternary,
    ofToken?_text]
  dsimp only
  rw [if_neg (Nat.not_lt.mpr hlevel)]
  exact hright.bind (hclose.bind hrest)

theorem ReadsAs.onto {left : Expr} (h : ReadsAs e ws) (op : BinaryOp)
    (hn : 8 * ws.length ≤ n) (ht : t ∈ ends) (ts : List Token) :
    Reads (operatorsWithin (n + 4) 0 left) (.binary op left e)
      (op.onto (Token.bracketed ws) ++ t :: ts) (t :: ts) := by
  by_cases hop : op = .subscript
  · subst hop
    have hright : Reads (expressionWithin (n + 3) (BinaryOp.level .subscript)) e _ _ :=
      h.bracketed hn (t := .punct "]") (by decide) (t :: ts)
    rw [BinaryOp.onto, if_pos rfl, List.cons_append, List.append_assoc]
    exact reads_operators_sign (.inr rfl) rfl (Nat.zero_le _) hright (reads_closeSubscript _)
      (reads_operators_end ht)
  · have hright : Reads (expressionWithin (n + 3) op.level) e _ _ := h.bracketed hn ht ts
    rw [BinaryOp.onto, if_neg hop, List.cons_append]
    exact reads_operators_sign (.inl rfl) rfl (Nat.zero_le _) hright
      (reads_closeSubscript_of_ne hop _) (reads_operators_end ht)

theorem stays_onto (op : BinaryOp) (ws : List Token) :
    ∃ t us, op.onto ws = t :: us ∧ Stays t := by
  by_cases hop : op = .subscript
  · subst hop
    exact ⟨_, _, rfl, .inl nofun⟩
  · refine ⟨.op op.text, ws, if_neg hop, .inr ?_⟩
    cases op <;> decide

theorem ReadsAs.binary {left right : Expr} {ws us : List Token} (hleft : ReadsAs left ws)
    (hright : ReadsAs right us) (op : BinaryOp) :
    ReadsAs (.binary op left right) (Token.bracketed ws ++ op.onto (Token.bracketed us)) := by
  refine readsAs_of_operators hleft (stays_onto op _) fun {n} hn t ht ts => ?_
  have hlength : us.length + 3 ≤ (op.onto (Token.bracketed us)).length := by
    unfold BinaryOp.onto
    split <;> simp [length_bracketed]
  obtain ⟨k, rfl⟩ : ∃ k, n = k + 3 := ⟨n - 3, by omega⟩
  exact hright.onto op (by omega) ht ts

theorem ReadsAs.ternary {cond yes no : Expr} {ws us vs : List Token} (hcond : ReadsAs cond ws)
    (hyes : ReadsAs yes us) (hno : ReadsAs no vs) :
    ReadsAs (.ternary cond yes no) (Token.bracketed ws ++ .op "?" ::
      (Token.bracketed us ++ .op ":" :: Token.bracketed vs)) := by
  refine readsAs_of_operators hcond ⟨_, _, rfl, .inr rfl⟩ fun {n} hn t ht ts => ?_
  simp only [List.length_cons, List.length_append, length_bracketed] at hn
  obtain ⟨k, rfl⟩ : ∃ k, n = k + 3 := ⟨n - 3, by omega⟩
  unfold operatorsWithin
  rw [List.cons_append, List.append_assoc, List.cons_append]
  refine (reads_token (.op "?") _).bind ?_
  refine (hyes.bracketed (by omega) (t := .op ":") (by decide) _).bind ?_
  refine (reads_expect rfl).bind ?_
  exact (hno.bracketed (by omega) ht ts).bind (reads_operators_end ht)

/-! ## Primary expressions -/

theorem readsAs_int (k : Int32) :
    ReadsAs (.const (.int k)) [.num (String.ofList (Nat.toDigits 10 k.toUInt32.toNat))] := by
  refine readsAs_of_primary ?_ fun {n} _ t _ ts => ?_
  · cases hdigits : Nat.toDigits 10 k.toUInt32.toNat with
    | nil => exact absurd hdigits Nat.toDigits_ne_nil
    | cons c ds =>
      have hc : c.isDigit = true :=
        Nat.isDigit_of_mem_toDigits (b := 10) (by decide) (by decide) (by rw [hdigits]; simp)
      exact starts_of_head String.toList_ofList hc (by decide) []
  · have hread : Reads (pure (Expr.const (.int (Text.Numeral.literal
        (String.ofList (Nat.toDigits 10 k.toUInt32.toNat))))))
        (.const (.int k)) (t :: ts) (t :: ts) := by
      rw [Text.Numeral.literal_unsigned]
      exact reads_pure _ _
    unfold primaryWithin
    exact (reads_token _ _).bind hread

theorem readsAs_str (text : String) : ReadsAs (.const (.str text)) [.str text] := by
  refine readsAs_of_primary ⟨_, _, rfl, fun _ _ => rfl⟩ fun {n} _ t _ ts => ?_
  unfold primaryWithin
  exact (reads_token _ _).bind (reads_pure _ _)

theorem starts_name {name : String} (h : IsName name) (us : List Token) :
    Starts (.name name :: us) := by
  obtain ⟨c, cs, htext, hc, -⟩ := h
  exact starts_of_head htext (isNameChar_of_start hc) (by decide) us

theorem readsAs_var {name : String} (h : IsName name) : ReadsAs (.var name) [.name name] := by
  refine readsAs_of_primary (starts_name h []) fun {n} _ t ht ts => ?_
  have hnext : t.reads "(" = false := (by decide : ∀ t ∈ ends, t.reads "(" = false) t ht
  unfold primaryWithin
  refine (reads_token _ _).bind ((reads_token t ts).bind ?_)
  rw [hnext]
  exact reads_giveBack t _

/-- An operator before an operand in parentheses. -/
theorem ReadsAs.signed {e' : Expr} {sign : String} (h : ReadsAs e ws)
    (hstarts : ∀ text ∈ [")", "]", "\x7d", "."], (op sign).reads text = false)
    (hsign : ∀ {n before after}, Reads (operandWithin n) e before after →
      Reads (primaryWithin (n + 1)) e' (.op sign :: before) after) :
    ReadsAs e' (.op sign :: Token.bracketed ws) := by
  refine readsAs_of_primary ⟨_, _, rfl, hstarts⟩ fun {n} hn t ht ts => ?_
  rw [List.length_cons, length_bracketed] at hn
  obtain ⟨k, rfl⟩ : ∃ k, n = k + 2 := ⟨n - 2, by omega⟩
  exact hsign (h.operand (by omega) (stays_of_ends ht) ts)

theorem ReadsAs.unary (h : ReadsAs e ws) (op : UnaryOp) :
    ReadsAs (.unary op e) (.op op.text :: Token.bracketed ws) := by
  refine h.signed (by cases op <;> decide) fun harg => ?_
  unfold primaryWithin
  refine (reads_token _ _).bind ?_
  cases op <;> exact harg.bind (reads_pure _ _)

theorem ReadsAs.bump_before (h : ReadsAs e ws) (op : Bump) :
    ReadsAs (.bump op .before e) (.op op.text :: Token.bracketed ws) := by
  refine h.signed (by cases op <;> decide) fun harg => ?_
  unfold primaryWithin
  refine (reads_token _ _).bind ?_
  cases op <;> exact harg.bind (reads_pure _ _)

theorem ReadsAs.bump_after (h : ReadsAs e ws) (op : Bump) :
    ReadsAs (.bump op .after e) (Token.bracketed ws ++ [.op op.text]) := by
  refine ⟨⟨_, _, rfl, by decide⟩, fun {n} hn t ht ts => ?_⟩
  rw [List.length_append, length_bracketed, List.length_singleton] at hn
  obtain ⟨k, rfl⟩ : ∃ k, n = k + 3 := ⟨n - 3, by omega⟩
  rw [List.append_assoc]
  refine reads_expression ?_ ht
  unfold operandWithin
  refine (h.primary (by omega) _).bind ((reads_token (.op op.text) _).bind ?_)
  cases op <;> exact reads_pure _ _

/-! ## Lists -/

/-- How items with commas between them are read up to the word `close`; `item` reads an item whose
first word has been read. -/
def separated (close complaint : String) (item : Token → Parser α) (rest : Parser (List α)) :
    Parser (List α) := do
  let t ← token
  if t.reads close then return []
  else do
    let a ← item t
    let separator ← token
    if separator.reads close then return [a]
    else if separator.reads "," then do
      let more ← rest
      return a :: more
    else complain complaint

/-- An expression whose first word has been read. -/
def expressionFrom (n : Nat) (t : Token) : Parser Expr := do
  pushBack t
  expressionWithin n 0

/-- A pair whose first word has been read. -/
def pairFrom (n : Nat) (t : Token) : Parser (Expr × Expr) := do
  let key ← keyWithin n t
  let _ ← expect ":" "Expected :"
  let value ← expressionWithin n 0
  return (key, value)

theorem argumentsWithin_succ (n : Nat) :
    argumentsWithin (n + 1) =
      separated ")" "Expected ) or ," (expressionFrom n) (argumentsWithin n) := by
  rw [argumentsWithin]
  simp only [separated, expressionFrom, bind_assoc]

theorem elementsWithin_succ (n : Nat) :
    elementsWithin (n + 1) =
      separated "]" "Expected , or ]" (expressionFrom n) (elementsWithin n) := by
  rw [elementsWithin]
  simp only [separated, expressionFrom, bind_assoc]

theorem pairsWithin_succ (n : Nat) :
    pairsWithin (n + 1) =
      separated "\x7d" "Expected , or \x7d" (pairFrom n) (pairsWithin n) := by
  rw [pairsWithin]
  simp only [separated, pairFrom, bind_assoc, pure_bind]

/-- The words read as an item of a list, once the first of them has been read. -/
def ReadsItem (item : Nat → Token → Parser α) (a : α) (ws : List Token) : Prop :=
  ∃ t us, ws = t :: us ∧ (∀ text ∈ [")", "]", "\x7d", "."], t.reads text = false) ∧
    ∀ {n : Nat}, 8 * ws.length ≤ n → ∀ {u : Token}, u ∈ ends → ∀ ts,
      Reads (item n t) a (us ++ u :: ts) (u :: ts)

theorem reads_separated {p : Nat → Parser (List α)} {item : Nat → Token → Parser α}
    {close complaint : String} (hclose : close ∈ [")", "]", "\x7d"])
    (hp : ∀ n, p (n + 1) = separated close complaint (item n) (p n)) {as : List α}
    {groups : List (List Token)} (h : List.Forall₂ (ReadsItem item) as groups)
    (hn : 8 * (commas groups).length ≤ n) (ts : List Token) :
    Reads (p (n + 1)) as (commas groups ++ .punct close :: ts) ts := by
  have hself : (punct close).reads close = true := by simp [Token.reads, punct]
  have hends : punct close ∈ ends :=
    (by decide : ∀ c ∈ [")", "]", "\x7d"], punct c ∈ ends) close hclose
  have hcomma : (punct ",").reads close = false :=
    (by decide : ∀ c ∈ [")", "]", "\x7d"], (punct ",").reads c = false) close hclose
  have hstart : close ∈ [")", "]", "\x7d", "."] :=
    (by decide : ∀ c ∈ [")", "]", "\x7d"], c ∈ [")", "]", "\x7d", "."]) close hclose
  induction h generalizing n with
  | nil =>
    rw [hp]
    refine (reads_token (.punct close) ts).bind ?_
    rw [hself]
    exact reads_pure [] ts
  | cons hitem hrest ih =>
    obtain ⟨t, us, rfl, hfirst, hreads⟩ := hitem
    rw [hp]
    cases hrest with
    | nil =>
      rw [show commas [t :: us] = t :: us by simp [commas, List.intercalate]] at hn ⊢
      refine (reads_token t _).bind ?_
      rw [hfirst close hstart]
      refine (hreads hn hends ts).bind ((reads_token (.punct close) ts).bind ?_)
      rw [hself]
      exact reads_pure _ ts
    | cons hitem' hrest' =>
      simp only [commas_cons_cons, List.length_append, List.length_cons] at hn
      obtain ⟨k, rfl⟩ : ∃ k, n = k + 1 := ⟨n - 1, by omega⟩
      have hlength : 8 * (t :: us).length ≤ k + 1 := by
        rw [List.length_cons]
        omega
      rw [commas_cons_cons, List.append_assoc]
      refine (reads_token t _).bind ?_
      rw [hfirst close hstart]
      refine (hreads hlength (u := .punct ",") (by decide) _).bind ?_
      refine (reads_token (.punct ",") _).bind ?_
      rw [hcomma]
      exact (ih (by omega)).bind (reads_pure _ ts)

theorem ReadsAs.expressionFrom (h : ReadsAs e ws) : ReadsItem expressionFrom e ws := by
  obtain ⟨t, us, rfl, hfirst⟩ := h.starts
  refine ⟨t, us, rfl, hfirst, fun hn u hu ts => ?_⟩
  exact (reads_pushBack t _).bind (h.reads hn hu ts)

theorem ReadsAs.pairFrom {value : Expr} {us : List Token} (hkey : ReadsAs e ws)
    (hvalue : ReadsAs value us) : ReadsItem pairFrom (e, value) (ws ++ .op ":" :: us) := by
  obtain ⟨t, vs, rfl, hfirst⟩ := hkey.starts
  refine ⟨t, vs ++ .op ":" :: us, rfl, hfirst, fun {n} hn u hu ts => ?_⟩
  simp only [List.length_append, List.length_cons] at hn
  obtain ⟨k, rfl⟩ : ∃ k, n = k + 1 := ⟨n - 1, by omega⟩
  have hlength : 8 * (t :: vs).length ≤ k := by
    rw [List.length_cons]
    omega
  have hexpression := hkey.reads hlength (t := .op ":") (by decide) (us ++ u :: ts)
  have hread : Reads (keyWithin (k + 1) t) e (vs ++ .op ":" :: (us ++ u :: ts))
      (.op ":" :: (us ++ u :: ts)) := by
    rw [keyWithin, hfirst "." (by decide)]
    exact (reads_pushBack t _).bind hexpression
  rw [List.append_assoc]
  exact hread.bind ((reads_expect rfl).bind ((hvalue.reads (by omega) hu ts).bind (reads_pure _ _)))

section Lists

variable {es : List Expr} {ps : List (Expr × Expr)} {groups : List (List Token)}

theorem readsAs_enclosed {first last : String}
    (hstarts : ∀ text ∈ [")", "]", "\x7d", "."], (punct first).reads text = false)
    (h : ∀ {n}, 8 * ws.length ≤ n → ∀ ts,
      Reads (primaryWithin (n + 2)) e (.punct first :: (ws ++ .punct last :: ts)) ts) :
    ReadsAs e (.punct first :: (ws ++ [.punct last])) := by
  refine readsAs_of_primary ⟨_, _, rfl, hstarts⟩ fun {n} hn t _ ts => ?_
  simp only [List.length_cons, List.length_append, List.length_nil] at hn
  obtain ⟨k, rfl⟩ : ∃ k, n = k + 1 := ⟨n - 1, by omega⟩
  rw [List.cons_append, List.append_assoc]
  exact h (by omega) (t :: ts)

theorem readsAs_array (h : List.Forall₂ ReadsAs es groups) :
    ReadsAs (.array es) (.punct "[" :: (commas groups ++ [.punct "]"])) := by
  refine readsAs_enclosed (by decide) fun hn ts => ?_
  have helements := reads_separated (by decide) elementsWithin_succ
    (h.imp fun _ _ he => he.expressionFrom) hn ts
  unfold primaryWithin
  exact (reads_token _ _).bind (helements.bind (reads_pure _ _))

theorem readsAs_dict (h : List.Forall₂ (ReadsItem pairFrom) ps groups) :
    ReadsAs (.dict ps) (.punct "\x7b" :: (commas groups ++ [.punct "\x7d"])) := by
  refine readsAs_enclosed (by decide) fun hn ts => ?_
  have hpairs := reads_separated (by decide) pairsWithin_succ h hn ts
  unfold primaryWithin
  exact (reads_token _ _).bind (hpairs.bind (reads_pure _ _))

theorem readsAs_named {name : String} (hname : IsName name) (h : List.Forall₂ ReadsAs es groups)
    (hcall : finishCall name es = pure e) :
    ReadsAs e (.name name :: Token.bracketed (commas groups)) := by
  refine readsAs_of_primary (starts_name hname _) fun {n} hn t _ ts => ?_
  rw [List.length_cons, length_bracketed] at hn
  obtain ⟨k, rfl⟩ : ∃ k, n = k + 1 := ⟨n - 1, by omega⟩
  have harguments := reads_separated (n := k) (by decide) argumentsWithin_succ
    (h.imp fun _ _ he => he.expressionFrom) (by omega) (t :: ts)
  rw [List.cons_append, bracketed_append]
  unfold primaryWithin
  refine (reads_token (.name name) _).bind ((reads_token (.punct "(") _).bind ?_)
  refine harguments.bind ?_
  show Reads (finishCall name es) e _ _
  rw [hcall]
  exact reads_pure e _

end Lists

theorem ofName?_name (fn : Builtin) : Builtin.ofName? fn.name = some fn := by
  cases fn <;> rfl

theorem finishCall_name {fn : Builtin} {args : List Expr}
    (h : fn.arity.admits args.length = true) :
    finishCall fn.name args = pure (.builtin fn args) := by
  rw [finishCall, ofName?_name]
  simp only [Builtin.arityComplaint?, h, if_true]

/-! ## Every expression -/

mutual

theorem readsAs_words (wrapped : Bool) :
    ∀ {e : Expr}, e.Readable → ReadsAs e (e.words wrapped)
  | .const (.int k), _ => readsAs_int k
  | .const (.str text), _ => readsAs_str text
  | .var _, h => readsAs_var h
  | .array _, h => readsAs_array (readsAs_wordsOfAll wrapped h)
  | .dict _, h => readsAs_dict (readsItem_wordsOfEntries wrapped h)
  | .unary op arg, h => (readsAs_words wrapped (e := arg) h).unary op
  | .bump op .before arg, h => (readsAs_words wrapped (e := arg) h).bump_before op
  | .bump op .after arg, h => (readsAs_words wrapped (e := arg) h).bump_after op
  | .binary op _ _, h => (readsAs_words wrapped h.1).binary (readsAs_words wrapped h.2) op
  | .ternary _ _ _, h =>
    (readsAs_words wrapped h.1).ternary (readsAs_words wrapped h.2.1) (readsAs_words wrapped h.2.2)
  | .builtin fn _, h =>
    readsAs_named fn.isName_name (readsAs_wordsOfAll wrapped h.2) (finishCall_name h.1)
  | .call _ _, h => by
    refine readsAs_named h.1.1 (readsAs_wordsOfAll wrapped h.2) ?_
    rw [finishCall, h.1.2]

theorem readsAs_wordsOfAll (wrapped : Bool) :
    ∀ {es : List Expr}, Expr.ReadableIn es →
      List.Forall₂ ReadsAs es (Expr.wordsOfAll wrapped es)
  | [], _ => .nil
  | _ :: _, h => .cons ((readsAs_words wrapped h.1).item wrapped) (readsAs_wordsOfAll wrapped h.2)

theorem readsItem_wordsOfEntries (wrapped : Bool) :
    ∀ {ps : List (Expr × Expr)}, Expr.ReadableInEntries ps →
      List.Forall₂ (ReadsItem pairFrom) ps (Expr.wordsOfEntries wrapped ps)
  | [], _ => .nil
  | (_, _) :: _, h =>
    .cons (((readsAs_words wrapped h.1).item wrapped).pairFrom
      ((readsAs_words wrapped h.2.1).item wrapped)) (readsItem_wordsOfEntries wrapped h.2.2)

end

end Parser

/-- A text whose words read as an expression, with nothing after them, is read as the expression. -/
theorem Expr.parse_of_ahead {e : Expr} {text : String} {ts : List Token} {stop : Stream}
    (h : Parser.ReadsAs e ts) (hlength : ts.length ≤ text.toList.length)
    (hahead : Stream.Ahead stop (ts ++ [.eof]) (.ofText text "<expr>")) :
    Expr.parse text = .ok e := by
  have hdepth : 8 * ts.length ≤ Stream.depthBound (.ofText text "<expr>") := by
    simp only [Stream.depthBound, Stream.ofText]
    omega
  obtain ⟨s, hread, hend⟩ := h.reads hdepth (t := .eof) (by decide) [] stop _ hahead
  obtain ⟨s', htoken, -⟩ := hend
  have hwhole : Parser.wholeExpression (.ofText text "<expr>") = (.ok e, s') := by
    unfold Parser.wholeExpression
    rw [Step.bind_run_ok (show Parser.expression 0 _ = _ from hread), Step.bind_run_ok htoken]
    rfl
  rw [Expr.parse, hwhole]

/-- The text a readable expression is printed as is read as the expression. -/
theorem Expr.Readable.parse_print {e : Expr} (h : e.Readable) (wrapped : Bool) :
    Expr.parse (e.print wrapped) = .ok e := by
  have hfit : Token.FitAll (e.words wrapped) [] :=
    Expr.fitAnywhere_words wrapped h [] Token.edge_nil
  have htext : (e.print wrapped).toList = Token.spell (e.words wrapped) := String.toList_ofList
  obtain ⟨stop, hahead⟩ :=
    Stream.ahead_spell hfit (s := .ofText (e.print wrapped) "<expr>") htext rfl rfl rfl
  have hlength := Token.length_le_spell hfit
  rw [← htext] at hlength
  exact Expr.parse_of_ahead (Parser.readsAs_words wrapped h) hlength hahead

example : (Expr.binary .subscript (.var "a") (.unary .negate (.const (.int (-1))))).print false =
    "(a)[(-(4294967295))]" := by decide

example : (Expr.call "f" [.array [.str "x\"y\\\n"], .var "z"]).print false =
    "f([\"x\\\"y\\\\\\n\"],z)" := by decide

/-- What a text is read as is readable. -/
theorem Expr.readable_of_parse {text : String} {e : Expr} (h : Expr.parse text = .ok e) :
    e.Readable := by
  have hlexed : (Stream.ofText text "<expr>").Lexed := fun _ ht => by cases ht
  obtain ⟨e', s, hread, hrest⟩ := Step.bind_eq_ok.mp (Step.eq_of_fst h)
  obtain ⟨t, s', -, hend⟩ := Step.bind_eq_ok.mp hrest
  have he : e' = e := by
    split at hend
    · cases hend
      rfl
    · cases hend
  rw [← he]
  exact Parser.readable_of_expressionWithin hlexed hread

/-- Reading inverts printing, and what can be read is just what can be printed and read back: an
expression is what some text is read as, if and only if it is readable, and if and only if the text
it is printed as is read as the same expression. -/
theorem Expr.parse_print_tfae (e : Expr) (wrapped : Bool) :
    List.TFAE [∃ text, Expr.parse text = .ok e, e.Readable,
      Expr.parse (e.print wrapped) = .ok e] := by
  tfae_have 1 → 2 := fun ⟨_, h⟩ => Expr.readable_of_parse h
  tfae_have 2 → 3 := fun h => h.parse_print wrapped
  tfae_have 3 → 1 := fun h => ⟨_, h⟩
  tfae_finish

end Kiln
