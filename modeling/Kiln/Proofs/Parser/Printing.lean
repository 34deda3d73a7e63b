import Kiln.Proofs.Parser.Image
import Kiln.Proofs.Token.Lexemes

/-!
# Kiln.Proofs.Parser.Printing — expressions as texts

The words of an expression, with every operand in parentheses, and the text they make when they are
written one after another.  Strings stand in quotes, with escapes where a character would end them or
the line; integers are unsigned decimal literals.

Nothing separates the words, so where one ends is up to the next: names, numerals and most operators
stand only before a parenthesis, a comma, a colon or a quote.  `Fits` says so of one word and what
follows it, and reading gives back the words of any text that is put together like this.
-/

namespace Kiln

open Kiln.Text

namespace Token

/-! ## Words -/

/-- A string on the first line. -/
def str (text : String) : Token := ⟨.str, text, 1⟩

/-- A numeral on the first line. -/
def num (text : String) : Token := ⟨.num, text, 1⟩

/-- A name on the first line. -/
def name (text : String) : Token := ⟨.name, text, 1⟩

/-- Punctuation on the first line. -/
def punct (text : String) : Token := ⟨.punct, text, 1⟩

/-- An operator on the first line. -/
def op (text : String) : Token := ⟨.op, text, 1⟩

/-- The end of a text of one line. -/
def eof : Token := ⟨.eof, "", 1⟩

/-- A character as it stands in a string. -/
def escape (c : Char) : List Char :=
  if c = '\n' then ['\\', 'n']
  else if c = '\r' then ['\\', 'r']
  else if c = '\t' then ['\\', 't']
  else if c = '"' ∨ c = '\\' then ['\\', c]
  else [c]

/-- The text of a token in a source. -/
def spelling (t : Token) : List Char :=
  if t.kind = .str then '"' :: (t.text.toList.flatMap escape ++ ['"']) else t.text.toList

/-- The text of tokens with nothing between them. -/
def spell (ts : List Token) : List Char := ts.flatMap spelling

/-- Tokens in parentheses. -/
def bracketed (ts : List Token) : List Token := punct "(" :: (ts ++ [punct ")"])

theorem bracketed_append (ts us : List Token) :
    bracketed ts ++ us = punct "(" :: (ts ++ punct ")" :: us) := by
  simp [bracketed]

theorem length_bracketed (ts : List Token) : (bracketed ts).length = ts.length + 2 := by
  simp [bracketed]

/-- Groups of tokens with commas between them. -/
def commas (groups : List (List Token)) : List Token := List.intercalate [punct ","] groups

end Token

/-- The text of the operator. -/
def UnaryOp.text : UnaryOp → String
  | negate => "-"
  | complement => "~"
  | not => "!"

/-- The text of the operator. -/
def Bump.text : Bump → String
  | up => "++"
  | down => "--"

/-- The operator and its right operand. -/
def BinaryOp.onto (op : BinaryOp) (right : List Token) : List Token :=
  if op = .subscript then .punct "[" :: (right ++ [.punct "]"]) else .op op.text :: right

namespace Expr

open Token

/-- An element, a key, a value or an argument; only if it is `wrapped`, in parentheses. -/
def item (wrapped : Bool) (ts : List Token) : List Token := if wrapped then bracketed ts else ts

mutual

/-- The words of an expression.  All operands stand in parentheses; elements of arrays, keys and
values of dictionaries and arguments of calls do if they are `wrapped`. -/
def words (wrapped : Bool) : Expr → List Token
  | .const (.int n) => [.num (String.ofList (Nat.toDigits 10 n.toUInt32.toNat))]
  | .const (.str s) => [.str s]
  | .var name => [.name name]
  | .array es => punct "[" :: (commas (wordsOfAll wrapped es) ++ [punct "]"])
  | .dict ps => punct "\x7b" :: (commas (wordsOfEntries wrapped ps) ++ [punct "\x7d"])
  | .unary op arg => .op op.text :: bracketed (words wrapped arg)
  | .bump op .before arg => .op op.text :: bracketed (words wrapped arg)
  | .bump op .after arg => bracketed (words wrapped arg) ++ [.op op.text]
  | .binary op left right =>
    bracketed (words wrapped left) ++ op.onto (bracketed (words wrapped right))
  | .ternary cond yes no =>
    bracketed (words wrapped cond) ++ .op "?" ::
      (bracketed (words wrapped yes) ++ .op ":" :: bracketed (words wrapped no))
  | .builtin fn args => .name fn.name :: bracketed (commas (wordsOfAll wrapped args))
  | .call name args => .name name :: bracketed (commas (wordsOfAll wrapped args))

/-- The words of each expression of a list. -/
def wordsOfAll (wrapped : Bool) : List Expr → List (List Token)
  | [] => []
  | e :: rest => item wrapped (words wrapped e) :: wordsOfAll wrapped rest

/-- The words of each pair. -/
def wordsOfEntries (wrapped : Bool) : List (Expr × Expr) → List (List Token)
  | [] => []
  | (k, v) :: rest =>
    (item wrapped (words wrapped k) ++ .op ":" :: item wrapped (words wrapped v)) ::
      wordsOfEntries wrapped rest

end

/-- An expression as a text. -/
def print (wrapped : Bool) (e : Expr) : String := String.ofList (spell (e.words wrapped))

end Expr

namespace Token

/-! ## Where words end -/

/-- The characters before which every token ends. -/
def edges : List Char := "()[]\x7b\x7d;,.~?:\" ".toList

/-- A text before which every token ends. -/
def Edge (r : List Char) : Prop := ∀ c ∈ r.head?, c ∈ edges

/-- The punctuation of expressions and statements. -/
def punctuation : List String := ["(", ")", "[", "]", "\x7b", "\x7d", ",", ";"]

/-- The operators of expressions that no sign after them would be part of. -/
def loneOps : List String := ["?", ":", "~", "==", "!=", "<=", ">=", "++", "--"]

/-- The operators of expressions that may be doubled. -/
def doubleOps : List String := ["=", "<", ">", "+", "-"]

/-- The other operators of expressions that may be followed by `=`. -/
def singleOps : List String := ["&&", "||", "/", "*", "!"]

/-- The token is read from its spelling if the text `r` follows it. -/
inductive Fits : Token → List Char → Prop where
  | str (text : String) (r : List Char) : Fits (.str text) r
  | punct {text : String} (h : text ∈ punctuation) (r : List Char) : Fits (.punct text) r
  | lone {text : String} (h : text ∈ loneOps) (r : List Char) : Fits (.op text) r
  | double {text : String} (h : text ∈ doubleOps) {r : List Char} (hr : Edge r) : Fits (.op text) r
  | single {text : String} (h : text ∈ singleOps) {r : List Char} (hr : Edge r) : Fits (.op text) r
  | num (n : Nat) {r : List Char} (hr : Edge r) : Fits (.num (String.ofList (Nat.toDigits 10 n))) r
  | name {text : String} (h : IsName text) {r : List Char} (hr : Edge r) : Fits (.name text) r

/-- Each of the tokens fits before the next ones, and the last one before `r`. -/
def FitAll : List Token → List Char → Prop
  | [], _ => True
  | t :: ts, r => Fits t (spell ts ++ r) ∧ FitAll ts r

variable {r : List Char}

theorem edge_nil : Edge [] := fun c hc => by cases hc

theorem edge_cons {c : Char} (h : c ∈ edges) : Edge (c :: r) := by
  intro d hd
  cases hd
  exact h

theorem Edge.of_any {p : Char → Bool} (hr : Edge r) (hp : edges.any p = false) :
    ∀ c ∈ r.head?, p c = false :=
  fun c hc => Bool.not_eq_true _ ▸ List.any_eq_false.mp hp c (hr c hc)

theorem Edge.head_ne {c : Char} (hr : Edge r) (hc : c ∉ edges) : r.head? ≠ some c :=
  fun h => hc (hr c h)

theorem Edge.takeWhile_append {p : Char → Bool} {cs : List Char} (hr : Edge r)
    (hcs : ∀ c ∈ cs, p c = true) (hp : edges.any p = false) :
    (cs ++ r).takeWhile p = cs ∧ (cs ++ r).dropWhile p = r :=
  takeWhile_append_of_head hcs (hr.of_any hp)

theorem Edge.withEquals (hr : Edge r) (op : List Char) : withEquals op r = (op, r) :=
  withEquals_of_head (hr.head_ne (by decide)) op

theorem Edge.doubleOp (hr : Edge r) {c : Char} (hc : isDoubleOp c = true) :
    doubleOp c r = ([c], r) := by
  have hedge : c ∉ edges := fun hmem => List.any_eq_false.mp (by decide) c hmem hc
  exact doubleOp_of_head (hr.head_ne hedge) (hr.head_ne (by decide))

/-! ## One word -/

theorem stringBody_escape (cs r : List Char) :
    stringBody (cs.flatMap escape ++ '"' :: r) = (cs, 0, r) := by
  induction cs with
  | nil => rfl
  | cons c cs ih =>
    rw [List.flatMap_cons, List.append_assoc]
    generalize cs.flatMap escape ++ '"' :: r = after at ih ⊢
    unfold escape
    split_ifs with hn hr ht hq
    · subst hn
      simp [stringBody, ih, unescape, lineEnds]
    · subst hr
      simp [stringBody, ih, unescape, lineEnds]
    · subst ht
      simp [stringBody, ih, unescape, lineEnds]
    · rcases hq with rfl | rfl
      · simp [stringBody, ih, unescape, lineEnds]
      · simp [stringBody, ih, unescape, lineEnds]
    · rw [not_or] at hq
      have hend : lineEnds c = 0 := if_neg hn
      simp [stringBody, ih, hq, hend]

theorem skipGap_of_not_blank {c : Char} (hblank : isBlank c = false) (hr : c = '/' → Edge r)
    (lines : Nat) : skipGap .blanks lines (c :: r) = (c :: r, lines) := by
  have hnext {d : Char} {rest : List Char} (hc : c = '/') (h : r = d :: rest) (hd : d ∉ edges) :
      False := hd (hr hc d (by rw [h]; rfl))
  rw [skipGap, hblank]
  · rfl
  · exact fun rest hc h => hnext hc h (by decide)
  · exact fun rest hc h => hnext hc h (by decide)

theorem numeral_toDigits {n : Nat} {c : Char} {ds : List Char} (hr : Edge r)
    (h : Nat.toDigits 10 n = c :: ds) : numeral c (ds ++ r) = (c :: ds, r) := by
  have hdigits : ∀ d ∈ ds, Numeral.isDigit d = true := by
    intro d hd
    have hmem : d ∈ Nat.toDigits 10 n := by
      rw [h]
      exact List.mem_cons_of_mem c hd
    rw [Numeral.isDigit_eq]
    exact Nat.isDigit_of_mem_toDigits (by decide) (by decide) hmem
  exact numeral_of_head hdigits (hr.of_any (by decide)) (hr.head_ne (by decide))

/-- What is read of a token that fits. -/
theorem lexeme?_of_fits {t : Token} (h : Fits t r) : ∃ c cs, t.spelling = c :: cs ∧
    isBlank c = false ∧ (c = '/' → Edge (cs ++ r)) ∧
    lexeme? c (cs ++ r) = some ⟨t.kind, t.text.toList, 0, r⟩ := by
  cases h with
  | str text =>
    have hbody := stringBody_escape text.toList r
    refine ⟨'"', text.toList.flatMap escape ++ ['"'], rfl, rfl, nofun, ?_⟩
    rw [List.append_assoc, List.singleton_append, lexeme?, if_pos rfl, hbody]
    rfl
  | punct h =>
    simp only [punctuation, List.mem_cons, List.not_mem_nil, or_false] at h
    rcases h with rfl | rfl | rfl | rfl | rfl | rfl | rfl | rfl
    all_goals exact ⟨_, _, rfl, rfl, fun he => absurd he (by decide), rfl⟩
  | lone h =>
    simp only [loneOps, List.mem_cons, List.not_mem_nil, or_false] at h
    rcases h with rfl | rfl | rfl | rfl | rfl | rfl | rfl | rfl | rfl
    all_goals exact ⟨_, _, rfl, rfl, fun he => absurd he (by decide), rfl⟩
  | double h hr =>
    simp only [doubleOps, List.mem_cons, List.not_mem_nil, or_false] at h
    rcases h with rfl | rfl | rfl | rfl | rfl
    all_goals
      refine ⟨_, [], rfl, rfl, fun _ => hr, ?_⟩
      exact congrArg (fun p => some (Lexeme.ofPair .op p)) (hr.doubleOp rfl)
  | single h hr =>
    simp only [singleOps, List.mem_cons, List.not_mem_nil, or_false] at h
    rcases h with rfl | rfl | rfl | rfl | rfl
    all_goals
      refine ⟨_, _, rfl, rfl, fun he => ?_, ?_⟩
      · first
        | exact hr
        | exact absurd he (by decide)
      · exact congrArg (fun p => some (Lexeme.ofPair .op p)) (hr.withEquals _)
  | num n hr =>
    cases hdigits : Nat.toDigits 10 n with
    | nil => exact absurd hdigits Nat.toDigits_ne_nil
    | cons c ds =>
      have hc : Numeral.isDigit c = true := by
        rw [Numeral.isDigit_eq]
        exact Nat.isDigit_of_mem_toDigits (b := 10) (n := n) (by decide) (by decide)
          (by simp [hdigits])
      refine ⟨c, ds, by simp [spelling, num], isBlank_of_pos hc (by decide),
        fun he => absurd he (ne_of_pos hc (by decide)), ?_⟩
      rw [lexeme?, if_neg (ne_of_pos hc (by decide)), if_pos hc, numeral_toDigits hr hdigits]
      simp [Lexeme.ofPair, num]
  | name hname hr =>
    obtain ⟨c, cs, htext, hstart, hcs⟩ := hname
    have hc := isNameChar_of_start hstart
    obtain ⟨htake, hdrop⟩ := hr.takeWhile_append (List.all_eq_true.mp hcs) (by decide)
    refine ⟨c, cs, htext, isBlank_of_pos hc (by decide),
      fun he => absurd he (ne_of_pos hc (by decide)), ?_⟩
    rw [lexeme?, if_neg (ne_of_pos hc (by decide)), if_neg (by simp [isDigit_of_start hstart]),
      if_pos hstart, htake, hdrop]
    simp [Lexeme.ofPair, name, htext]

theorem line_of_fits {t : Token} (h : Fits t r) : t.line = 1 := by
  cases h <;> rfl

theorem fitAll_append {ts us : List Token} :
    FitAll (ts ++ us) r ↔ FitAll ts (spell us ++ r) ∧ FitAll us r := by
  induction ts with
  | nil => simp [FitAll]
  | cons t ts ih =>
    have hspell : spell (ts ++ us) ++ r = spell ts ++ (spell us ++ r) := by simp [spell]
    rw [List.cons_append, FitAll, FitAll, ih, hspell, and_assoc]

/-- No word is empty. -/
theorem length_le_spell {ts : List Token} (h : FitAll ts r) : ts.length ≤ (spell ts).length := by
  induction ts with
  | nil => exact Nat.le_refl 0
  | cons t ts ih =>
    obtain ⟨c, cs, hspelling, -⟩ := lexeme?_of_fits h.1
    have hrest := ih h.2
    rw [spell, List.flatMap_cons, List.length_append, hspelling, List.length_cons, List.length_cons,
      ← spell]
    omega

/-! ## The words of expressions -/

theorem edge_punct {text : String} (h : text ∈ punctuation) (ts : List Token) :
    Edge (spell (punct text :: ts) ++ r) := by
  simp only [punctuation, List.mem_cons, List.not_mem_nil, or_false] at h
  rcases h with rfl | rfl | rfl | rfl | rfl | rfl | rfl | rfl
  all_goals exact edge_cons (by decide)

theorem edge_colon (ts : List Token) : Edge (spell (op ":" :: ts) ++ r) := edge_cons (by decide)

theorem commas_cons_cons (g g' : List Token) (gs : List (List Token)) :
    commas (g :: g' :: gs) = g ++ punct "," :: commas (g' :: gs) := by
  simp [commas, List.intercalate]

/-- Tokens that fit wherever every token ends. -/
def FitAnywhere (ts : List Token) : Prop := ∀ r, Edge r → FitAll ts r

theorem FitAnywhere.closed {ts : List Token} (h : FitAnywhere ts) {text : String}
    (htext : text ∈ punctuation) (r : List Char) : FitAll (ts ++ [punct text]) r :=
  fitAll_append.mpr ⟨h _ (edge_punct htext []), .punct htext _, trivial⟩

theorem FitAnywhere.bracketed {ts : List Token} (h : FitAnywhere ts) (r : List Char) :
    FitAll (bracketed ts) r :=
  ⟨.punct (by decide) _, h.closed (by decide) r⟩

theorem FitAnywhere.onto {ts : List Token} (h : FitAnywhere ts) (op : BinaryOp) (r : List Char) :
    FitAll (op.onto (Token.bracketed ts)) r := by
  have hright := h.bracketed r
  have hedge : Edge (spell (Token.bracketed ts) ++ r) := edge_punct (by decide) _
  cases op with
  | subscript =>
    exact ⟨.punct (by decide) _, fitAll_append.mpr ⟨h.bracketed _, .punct (by decide) _, trivial⟩⟩
  | and => exact ⟨.single (by decide) hedge, hright⟩
  | or => exact ⟨.single (by decide) hedge, hright⟩
  | divide => exact ⟨.single (by decide) hedge, hright⟩
  | multiply => exact ⟨.single (by decide) hedge, hright⟩
  | assign => exact ⟨.double (by decide) hedge, hright⟩
  | less => exact ⟨.double (by decide) hedge, hright⟩
  | more => exact ⟨.double (by decide) hedge, hright⟩
  | add => exact ⟨.double (by decide) hedge, hright⟩
  | subtract => exact ⟨.double (by decide) hedge, hright⟩
  | equal => exact ⟨.lone (by decide) _, hright⟩
  | notEqual => exact ⟨.lone (by decide) _, hright⟩
  | lessEqual => exact ⟨.lone (by decide) _, hright⟩
  | moreEqual => exact ⟨.lone (by decide) _, hright⟩

theorem FitAnywhere.item {ts : List Token} (h : FitAnywhere ts) (wrapped : Bool) :
    FitAnywhere (Expr.item wrapped ts) := by
  cases wrapped with
  | true => exact fun r _ => h.bracketed r
  | false => exact h

theorem fitAnywhere_commas : ∀ {groups : List (List Token)}, (∀ g ∈ groups, FitAnywhere g) →
    FitAnywhere (commas groups)
  | [], _ => fun _ _ => trivial
  | [g], h => by simpa [commas, List.intercalate] using h
  | g :: g' :: gs, h => by
    intro r hr
    have hrest : FitAnywhere (commas (g' :: gs)) :=
      fitAnywhere_commas fun g hg => h g (List.mem_cons_of_mem _ hg)
    rw [commas_cons_cons]
    exact fitAll_append.mpr ⟨h g (List.mem_cons_self ..) _ (edge_punct (by decide) _),
      .punct (by decide) _, hrest r hr⟩

end Token

theorem Bump.text_mem (op : Bump) : op.text ∈ Token.loneOps := by
  cases op <;> decide

theorem Builtin.isName_name (fn : Builtin) : Token.IsName fn.name := by
  cases fn
  all_goals exact ⟨_, _, rfl, by decide, by decide⟩

namespace Expr

open Token

variable (wrapped : Bool)

mutual

/-- The words of a readable expression can be written without anything between them. -/
theorem fitAnywhere_words : ∀ {e : Expr}, e.Readable → FitAnywhere (e.words wrapped)
  | .const (.int _), _ => fun _ hr => ⟨.num _ hr, trivial⟩
  | .const (.str _), _ => fun _ _ => ⟨.str _ _, trivial⟩
  | .var _, h => fun _ hr => ⟨.name h hr, trivial⟩
  | .array _, h => fun r _ =>
    ⟨.punct (by decide) _,
      (fitAnywhere_commas (fitAnywhere_wordsOfAll h)).closed (by decide) r⟩
  | .dict _, h => fun r _ =>
    ⟨.punct (by decide) _,
      (fitAnywhere_commas (fitAnywhere_wordsOfEntries h)).closed (by decide) r⟩
  | .unary op arg, h => fun r _ => by
    have harg := (fitAnywhere_words (e := arg) h).bracketed r
    cases op with
    | negate => exact ⟨.double (by decide) (edge_punct (by decide) _), harg⟩
    | complement => exact ⟨.lone (by decide) _, harg⟩
    | not => exact ⟨.single (by decide) (edge_punct (by decide) _), harg⟩
  | .bump op .before arg, h => fun r _ =>
    ⟨.lone op.text_mem _, (fitAnywhere_words (e := arg) h).bracketed r⟩
  | .bump op .after arg, h => fun _ _ =>
    fitAll_append.mpr
      ⟨(fitAnywhere_words (e := arg) h).bracketed _, .lone op.text_mem _, trivial⟩
  | .binary op _ _, h => fun r _ =>
    fitAll_append.mpr ⟨(fitAnywhere_words h.1).bracketed _, (fitAnywhere_words h.2).onto op r⟩
  | .ternary _ _ _, h => fun r _ =>
    fitAll_append.mpr ⟨(fitAnywhere_words h.1).bracketed _, .lone (by decide) _,
      fitAll_append.mpr ⟨(fitAnywhere_words h.2.1).bracketed _, .lone (by decide) _,
        (fitAnywhere_words h.2.2).bracketed r⟩⟩
  | .builtin fn _, h => fun r _ =>
    ⟨.name fn.isName_name (edge_punct (by decide) _),
      (fitAnywhere_commas (fitAnywhere_wordsOfAll h.2)).bracketed r⟩
  | .call _ _, h => fun r _ =>
    ⟨.name h.1.1 (edge_punct (by decide) _),
      (fitAnywhere_commas (fitAnywhere_wordsOfAll h.2)).bracketed r⟩

theorem fitAnywhere_wordsOfAll :
    ∀ {es : List Expr}, ReadableIn es → ∀ g ∈ wordsOfAll wrapped es, FitAnywhere g
  | [], _ => fun _ hg => by cases hg
  | _ :: _, h => fun g hg => by
    rcases List.mem_cons.mp hg with rfl | hg
    · exact (fitAnywhere_words h.1).item wrapped
    · exact fitAnywhere_wordsOfAll h.2 g hg

theorem fitAnywhere_wordsOfEntries :
    ∀ {ps : List (Expr × Expr)}, ReadableInEntries ps →
      ∀ g ∈ wordsOfEntries wrapped ps, FitAnywhere g
  | [], _ => fun _ hg => by cases hg
  | (_, _) :: _, h => fun g hg => by
    rcases List.mem_cons.mp hg with rfl | hg
    · exact fun r hr => fitAll_append.mpr
        ⟨(fitAnywhere_words h.1).item wrapped _ (edge_colon _), .lone (by decide) _,
          (fitAnywhere_words h.2.1).item wrapped r hr⟩
    · exact fitAnywhere_wordsOfEntries h.2.2 g hg

end

end Expr

/-! ## Reading words -/

/-- The next tokens are those of `ts`, and reading them leads to `stop`, up to the text of the last
token that was read. -/
def Stream.Ahead (stop : Stream) : List Token → Stream → Prop
  | [], s => ∃ last, s = { stop with last }
  | t :: ts, s => ∃ s', Parser.token s = (.ok t, s') ∧ Stream.Ahead stop ts s'

namespace Parser

open Token

theorem scan_of_fits {t : Token} {r : List Char} {s : Stream} (h : Fits t r)
    (hrest : s.rest = t.spelling ++ r) (htorn : s.torn = 0) (hline : s.line = 1) :
    scan s = (.ok t, { s with rest := r }) := by
  obtain ⟨c, cs, hspelling, hblank, hslash, hlexeme⟩ := lexeme?_of_fits h
  have hgap := skipGap_of_not_blank hblank hslash 1
  have ht : t = ⟨t.kind, String.ofList t.text.toList, 1⟩ := by
    rw [String.ofList_toList, ← line_of_fits h]
  rw [hspelling, List.cons_append] at hrest
  rw [ht]
  simp only [scan, htorn, hrest, hline, hgap, hlexeme, Nat.add_zero]

theorem scan_at_end {s : Stream} (hrest : s.rest = []) (htorn : s.torn = 0) (hline : s.line = 1) :
    scan s = (.ok .eof, s) := by
  cases s
  cases hrest
  cases htorn
  cases hline
  rfl

theorem token_of_scan {t : Token} {s s' : Stream} (hpushed : s.pushed = [])
    (h : scan s = (.ok t, s')) : token s = (.ok t, { s' with last := t.text }) := by
  rw [token, hpushed, h]

end Parser

/-- The words of a text that is put together of fitting ones are read from it, and then its end. -/
theorem Stream.ahead_spell {ts : List Token} (h : Token.FitAll ts []) {s : Stream}
    (hrest : s.rest = Token.spell ts) (htorn : s.torn = 0) (hline : s.line = 1)
    (hpushed : s.pushed = []) : ∃ stop, Stream.Ahead stop (ts ++ [.eof]) s := by
  induction ts generalizing s with
  | nil =>
    exact ⟨_, _, Parser.token_of_scan hpushed (Parser.scan_at_end hrest htorn hline), _, rfl⟩
  | cons t ts ih =>
    obtain ⟨hfits, hfit⟩ := h
    rw [List.append_nil] at hfits
    have hscan := Parser.scan_of_fits hfits hrest htorn hline
    obtain ⟨stop, hahead⟩ := ih hfit (s := { s with rest := Token.spell ts, last := t.text }) rfl
      htorn hline hpushed
    exact ⟨stop, _, Parser.token_of_scan hpushed hscan, hahead⟩

end Kiln
