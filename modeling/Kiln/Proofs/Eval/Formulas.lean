import Kiln.Eval
import Kiln.Proofs.Eval.Regime
import Kiln.Proofs.Parser.StmtRoundTrip
import Kiln.Proofs.Text.Literals

/-!
# Kiln.Proofs.Eval.Formulas — integers modulo 2 ^ 32

A formula is put together of numerals of any length by `+`, `-`, `*`, a minus sign and `~`.  Its value
is an integer, however large.  The program reads the text of a formula as an expression and computes
that expression step by step in 32 bits; what comes out is the value, wrapped once.  A quotient of two
formulas is the quotient of their wrapped values, and wraps again.
-/

namespace Kiln

open Kiln.Text

/-- A numeral as it stands in a source text, with the number it stands for. -/
structure SourceNumeral where
  text : String
  number : Nat
  source : Numeral.Source text.toList number

/-- A number in decimal. -/
def SourceNumeral.decimal (n : Nat) : SourceNumeral where
  text := String.ofList (Nat.toDigits 10 n)
  number := n
  source := by
    rw [String.toList_ofList]
    exact (Numeral.common_toDigits n).source

/-- The text of tokens with a blank in front of each. -/
def Token.spread (ts : List Token) : List Char := ts.flatMap fun t => ' ' :: t.text.toList

/-- What is computed from numerals without a division. -/
inductive Formula where
  | numeral (l : SourceNumeral)
  | negate (a : Formula)
  | complement (a : Formula)
  | add (a b : Formula)
  | subtract (a b : Formula)
  | multiply (a b : Formula)

namespace Formula

/-- The number, in unbounded integers. -/
def value : Formula → Int
  | numeral l => l.number
  | negate a => -a.value
  | complement a => -a.value - 1
  | add a b => a.value + b.value
  | subtract a b => a.value - b.value
  | multiply a b => a.value * b.value

/-- The expression. -/
def expr : Formula → Expr
  | numeral l => .const (.int (Numeral.literal l.text))
  | negate a => .unary .negate a.expr
  | complement a => .unary .complement a.expr
  | add a b => .binary .add a.expr b.expr
  | subtract a b => .binary .subtract a.expr b.expr
  | multiply a b => .binary .multiply a.expr b.expr

/-- How many operators there are one inside of the other. -/
def depth : Formula → Nat
  | numeral _ => 0
  | negate a | complement a => a.depth + 1
  | add a b | subtract a b | multiply a b => max a.depth b.depth + 1

open Token in
/-- The words, with all operands of operators in brackets. -/
def words : Formula → List Token
  | numeral l => [.num l.text]
  | negate a => .op UnaryOp.negate.text :: bracketed a.words
  | complement a => .op UnaryOp.complement.text :: bracketed a.words
  | add a b => bracketed a.words ++ BinaryOp.add.onto (bracketed b.words)
  | subtract a b => bracketed a.words ++ BinaryOp.subtract.onto (bracketed b.words)
  | multiply a b => bracketed a.words ++ BinaryOp.multiply.onto (bracketed b.words)

/-- A formula as a text. -/
def text (a : Formula) : String := String.ofList (Token.spread a.words)

open Token in
/-- The quotient of two formulas as a text. -/
def quotientText (a b : Formula) : String :=
  String.ofList (spread (bracketed a.words ++ BinaryOp.divide.onto (bracketed b.words)))

end Formula

/-! ## Computing -/

section Computing

variable {s : Machine} {n : Nat} {e e' : Expr} {v w : Value} {i : Int32} {a b : Formula}

theorem eval_unary (op : UnaryOp) (h : eval n e s = (.ok (.int i), s)) :
    eval (n + 1) (.unary op e) s = (.ok (op.apply i), s) := by
  show (eval n e >>= fun v => pure (op.apply v.toInt)) s = _
  rw [Step.bind_run_ok h]
  rfl

/-- The operands of an operator are computed, and then the operator is applied. -/
theorem eval_binary {op : BinaryOp} (hop : op ≠ .assign) (hv : eval n e s = (.ok v, s))
    (hw : eval n e' s = (.ok w, s)) : eval (n + 1) (.binary op e e') s = op.apply v w s := by
  have hrun : eval (n + 1) (.binary op e e') =
      (eval n e >>= fun v => eval n e' >>= fun w => op.apply v w) := by
    cases op with
    | assign => exact absurd rfl hop
    | _ => rfl
  rw [hrun, Step.bind_run_ok hv, Step.bind_run_ok hw]

/-- A formula computes to its value, wrapped, within any bound that its depth allows. -/
def Formula.Computes (s : Machine) (a : Formula) : Prop :=
  ∀ n, a.depth ≤ n → eval (n + 1) a.expr s = (.ok (.int (Int32.ofInt a.value)), s)

theorem Formula.Computes.unary (ha : a.Computes s) (op : UnaryOp) (hn : a.depth + 1 ≤ n) :
    eval (n + 1) (.unary op a.expr) s = (.ok (op.apply (Int32.ofInt a.value)), s) := by
  obtain ⟨k, rfl⟩ : ∃ k, n = k + 1 := ⟨n - 1, by omega⟩
  exact eval_unary op (ha k (by omega))

theorem Formula.Computes.binary (ha : a.Computes s) (hb : b.Computes s) (op : BinaryOp)
    (hop : op ≠ .assign) (hn : max a.depth b.depth + 1 ≤ n) :
    eval (n + 1) (.binary op a.expr b.expr) s =
      op.apply (.int (Int32.ofInt a.value)) (.int (Int32.ofInt b.value)) s := by
  obtain ⟨k, rfl⟩ : ∃ k, n = k + 1 := ⟨n - 1, by omega⟩
  exact eval_binary hop (ha k (by omega)) (hb k (by omega))

/-- Every step wraps, and that comes to wrapping once at the end. -/
theorem Formula.computes (s : Machine) (a : Formula) : a.Computes s := by
  induction a with
  | numeral l =>
    intro n _
    have hliteral : Numeral.literal l.text = Int32.ofInt l.number :=
      Numeral.literal_of_source l.source
    rw [Formula.expr, hliteral]
    rfl
  | negate a ih =>
    intro n hn
    rw [Formula.expr, ih.unary .negate hn, Formula.value, Int32.ofInt_neg]
    rfl
  | complement a ih =>
    intro n hn
    rw [Formula.expr, ih.unary .complement hn, Formula.value, Int32.ofInt_sub, Int32.ofInt_neg,
      UnaryOp.apply, Int32.not_eq_neg_sub]
    rfl
  | add a b iha ihb =>
    intro n hn
    rw [Formula.expr, iha.binary ihb .add nofun hn, Formula.value, Int32.ofInt_add]
    rfl
  | subtract a b iha ihb =>
    intro n hn
    rw [Formula.expr, iha.binary ihb .subtract nofun hn, Formula.value, Int32.ofInt_sub]
    rfl
  | multiply a b iha ihb =>
    intro n hn
    rw [Formula.expr, iha.binary ihb .multiply nofun hn, Formula.value, Int32.ofInt_mul]
    rfl

theorem ofInt_eq_zero_iff {v : Int} : Int32.ofInt v = 0 ↔ v.bmod (2 ^ 32) = 0 :=
  Int32.ofInt_eq_iff_bmod_eq_toInt v 0

/-- A quotient of formulas is that of their wrapped values, or there is none. -/
theorem eval_quotient (a b : Formula) {n : Nat} (hn : max a.depth b.depth ≤ n) :
    eval (n + 2) (.binary .divide a.expr b.expr) s =
      if b.value.bmod (2 ^ 32) = 0 then (.error (.fault .divisionByZero), s)
      else (.ok (.int (Int32.ofInt a.value / Int32.ofInt b.value)), s) := by
  have hrun := (a.computes s).binary (b.computes s) .divide nofun (Nat.succ_le_succ hn)
  rw [hrun]
  show Kiln.divide (Int32.ofInt a.value) (Int32.ofInt b.value) s = _
  rw [divide]
  simp only [ofInt_eq_zero_iff]
  split_ifs
  · rfl
  · rfl

end Computing

/-! ## Reading -/

namespace Token

/-- The token stands for itself in a text of one line. -/
def IsPlain (t : Token) : Prop := t.line = 1 ∧ Plain t.kind t.text.toList

variable {t : Token} {ts us : List Token}

theorem beforeBlank_spread (ts : List Token) : BeforeBlank (spread ts) := by
  cases ts with
  | nil => exact nofun
  | cons t ts =>
    intro c hc
    cases hc
    rfl

theorem length_le_spread (ts : List Token) : ts.length ≤ (spread ts).length := by
  induction ts with
  | nil => exact Nat.le_refl 0
  | cons t ts ih =>
    simp only [spread, List.flatMap_cons, List.length_append, List.length_cons] at ih ⊢
    omega

theorem isPlain_op {text : String} (h : text ∈ operators) : IsPlain (.op text) :=
  ⟨rfl, .op (by rwa [Token.op, String.ofList_toList])⟩

theorem isPlain_bracketed (h : ∀ t ∈ ts, t.IsPlain) : ∀ t ∈ bracketed ts, t.IsPlain := by
  simp only [bracketed, List.forall_mem_cons, List.forall_mem_append]
  exact ⟨⟨rfl, .punct (c := '(') rfl⟩, h, ⟨rfl, .punct (c := ')') rfl⟩, nofun⟩

theorem isPlain_binary (op : BinaryOp) (hop : op ≠ .subscript) (htext : op.text ∈ operators)
    (hts : ∀ t ∈ ts, t.IsPlain) (hus : ∀ t ∈ us, t.IsPlain) :
    ∀ t ∈ bracketed ts ++ op.onto (bracketed us), t.IsPlain := by
  rw [BinaryOp.onto, if_neg hop]
  simp only [List.forall_mem_append, List.forall_mem_cons]
  exact ⟨isPlain_bracketed hts, isPlain_op htext, isPlain_bracketed hus⟩

/-- A token that stands for itself is read after a blank and before one. -/
theorem IsPlain.token (h : t.IsPlain) {r : List Char} (hr : BeforeBlank r) {s : Stream}
    (hrest : s.rest = ' ' :: (t.text.toList ++ r)) (htorn : s.torn = 0) (hline : s.line = 1)
    (hpushed : s.pushed = []) :
    Parser.token s = (.ok t, { s with rest := r, last := t.text }) := by
  obtain ⟨ht, hplain⟩ := h
  cases hchars : t.text.toList with
  | nil =>
    rw [hchars] at hplain
    exact absurd rfl hplain.ne_nil
  | cons c cs =>
    rw [hchars] at hplain hrest
    have hlexeme := lexeme?_of_plain hplain hr
    have hgap := skipGap_of_plain hplain hr 1
    have hself : t = ⟨t.kind, String.ofList (c :: cs), 1⟩ := by
      rw [← hchars, String.ofList_toList, ← ht]
    have hscan : Parser.scan { s with rest := c :: (cs ++ r) } = (.ok t, { s with rest := r }) := by
      rw [hself]
      simp only [Parser.scan, htorn, hline, hgap, hlexeme, Nat.add_zero]
    have hblank := Parser.token_blank htorn hpushed (c :: (cs ++ r))
    have hsame : ({ s with rest := ' ' :: (c :: (cs ++ r)) } : Stream) = s := by
      rw [← List.cons_append, ← hrest]
    rw [hsame] at hblank
    rw [hblank]
    exact Parser.token_of_scan (s := { s with rest := c :: (cs ++ r) }) hpushed hscan

end Token

/-- Tokens that stand for themselves are read from a text that has a blank in front of each. -/
theorem Stream.ahead_spread {ts : List Token} (h : ∀ t ∈ ts, t.IsPlain) {s : Stream}
    (hrest : s.rest = Token.spread ts) (htorn : s.torn = 0) (hline : s.line = 1)
    (hpushed : s.pushed = []) : ∃ stop, Stream.Ahead stop (ts ++ [.eof]) s := by
  induction ts generalizing s with
  | nil =>
    exact ⟨_, _, Parser.token_of_scan hpushed (Parser.scan_at_end hrest htorn hline), _, rfl⟩
  | cons t ts ih =>
    obtain ⟨ht, hts⟩ := List.forall_mem_cons.mp h
    have htoken := ht.token (Token.beforeBlank_spread ts) hrest htorn hline hpushed
    obtain ⟨stop, hahead⟩ := ih hts (s := { s with rest := Token.spread ts, last := t.text }) rfl
      htorn hline hpushed
    exact ⟨stop, _, htoken, hahead⟩

/-- A text of tokens that read as an expression is read as the expression. -/
theorem Expr.parse_spread {e : Expr} {ts : List Token} (h : Parser.ReadsAs e ts)
    (hplain : ∀ t ∈ ts, t.IsPlain) : Expr.parse (String.ofList (Token.spread ts)) = .ok e := by
  have htext : (String.ofList (Token.spread ts)).toList = Token.spread ts := String.toList_ofList
  obtain ⟨stop, hahead⟩ := Stream.ahead_spread hplain
    (s := .ofText (String.ofList (Token.spread ts)) "<expr>") htext rfl rfl rfl
  have hlength := Token.length_le_spread ts
  rw [← htext] at hlength
  exact Expr.parse_of_ahead h hlength hahead

namespace Formula

open Token

theorem isPlain_words : ∀ a : Formula, ∀ t ∈ a.words, t.IsPlain
  | numeral l => List.forall_mem_singleton.mpr ⟨rfl, l.source.plain⟩
  | negate a | complement a =>
    List.forall_mem_cons.mpr ⟨isPlain_op (by decide), isPlain_bracketed (isPlain_words a)⟩
  | add a b | subtract a b | multiply a b =>
    isPlain_binary _ nofun (by decide) (isPlain_words a) (isPlain_words b)

theorem readsAs_numeral (l : SourceNumeral) :
    Parser.ReadsAs (numeral l).expr (numeral l).words := by
  refine Parser.readsAs_of_primary ?_ fun {n} _ t _ ts => ?_
  · obtain ⟨c, cs, hchars, hc⟩ := l.source.head
    exact Parser.starts_of_head hchars hc (by decide) []
  · unfold Parser.primaryWithin
    exact (Parser.reads_token _ _).bind (Parser.reads_pure _ _)

theorem readsAs_words : ∀ a : Formula, Parser.ReadsAs a.expr a.words
  | numeral l => readsAs_numeral l
  | negate a => (readsAs_words a).unary .negate
  | complement a => (readsAs_words a).unary .complement
  | add a b => (readsAs_words a).binary (readsAs_words b) .add
  | subtract a b => (readsAs_words a).binary (readsAs_words b) .subtract
  | multiply a b => (readsAs_words a).binary (readsAs_words b) .multiply

end Formula

/-- Formulas compute modulo 2 ^ 32.  The text of a formula is read as its expression, and whatever the
state is, that gives the value of the formula wrapped to 32 bits.  The quotient of two formulas fails
if the divisor wraps to zero, and only then; otherwise it is the quotient of the wrapped values,
rounded towards zero and wrapped. -/
theorem formulas_wrap (a b : Formula) :
    Expr.parse a.text = .ok a.expr ∧
    Expr.parse (a.quotientText b) = .ok (.binary .divide a.expr b.expr) ∧
    ∀ (n : Nat) (s : Machine), max a.depth b.depth ≤ n →
      (∃ k : Int32, eval (n + 1) a.expr s = (.ok (.int k), s) ∧
        k.toInt = a.value.bmod (2 ^ 32)) ∧
      (b.value.bmod (2 ^ 32) = 0 →
        eval (n + 2) (.binary .divide a.expr b.expr) s = (.error (.fault .divisionByZero), s)) ∧
      (b.value.bmod (2 ^ 32) ≠ 0 →
        ∃ q : Int32, eval (n + 2) (.binary .divide a.expr b.expr) s = (.ok (.int q), s) ∧
          q.toInt = ((a.value.bmod (2 ^ 32)).tdiv (b.value.bmod (2 ^ 32))).bmod (2 ^ 32)) := by
  have hwords := Formula.isPlain_words
  have hquotient := (Formula.readsAs_words a).binary (Formula.readsAs_words b) .divide
  have hplain := Token.isPlain_binary .divide nofun (by decide) (hwords a) (hwords b)
  refine ⟨Expr.parse_spread (Formula.readsAs_words a) (hwords a),
    Expr.parse_spread hquotient hplain, fun n s hn => ⟨?_, fun hzero => ?_, fun hzero => ?_⟩⟩
  · exact ⟨_, a.computes s n (by omega), Int32.toInt_ofInt⟩
  · rw [eval_quotient a b hn, if_pos hzero]
  · refine ⟨Int32.ofInt a.value / Int32.ofInt b.value, ?_, ?_⟩
    · rw [eval_quotient a b hn, if_neg hzero]
    · rw [Int32.toInt_div, Int32.toInt_ofInt, Int32.toInt_ofInt]
      rfl

/-- A number of 29 digits, negated, which wraps to the least number. -/
def Formula.least : Formula := .negate (.numeral (.decimal (2 ^ 96 + 2 ^ 31)))

/-- The least number divided by `-1` is the least number, and a square is no divisor if it wraps to
zero. -/
theorem formulas_wrap_least :
    let minusOne : Formula := .complement (.numeral (.decimal 0))
    let square : Formula := .multiply (.numeral (.decimal 65536)) (.numeral (.decimal 65536))
    Formula.least.text = " - ( 79228162514264337595691433984 )" ∧
    Expr.parse Formula.least.text = .ok Formula.least.expr ∧
    max Formula.least.depth minusOne.depth ≤ 1 ∧ max Formula.least.depth square.depth ≤ 1 ∧
    minusOne.value.bmod (2 ^ 32) ≠ 0 ∧ square.value.bmod (2 ^ 32) = 0 ∧
    (∃ q : Int32, eval 3 (.binary .divide Formula.least.expr minusOne.expr) .blank =
      (.ok (.int q), .blank) ∧ q.toInt = -2147483648) ∧
    eval 3 (.binary .divide Formula.least.expr square.expr) .blank =
      (.error (.fault .divisionByZero), .blank) := by
  intro minusOne square
  have hdepth : max Formula.least.depth minusOne.depth ≤ 1 := by decide
  have hdepth' : max Formula.least.depth square.depth ≤ 1 := by decide
  have hminusOne : minusOne.value.bmod (2 ^ 32) ≠ 0 := by decide
  have hsquare : square.value.bmod (2 ^ 32) = 0 := by decide
  obtain ⟨hparse, -, hrun⟩ := formulas_wrap .least minusOne
  obtain ⟨-, -, hrun'⟩ := formulas_wrap .least square
  exact ⟨by decide, hparse, hdepth, hdepth', hminusOne, hsquare,
    (hrun 1 .blank hdepth).2.2 hminusOne, (hrun' 1 .blank hdepth').2.1 hsquare⟩

end Kiln
