import Kiln.Proofs.Text.Numeral
import Kiln.Proofs.Token.Strings

/-!
# Kiln.Proofs.Token.Lexemes — words, as a grammar

What a word looks like, apart from how one is found.  Names, numerals, punctuation and operators
stand for themselves, and a string for what its characters decode to.  A word that is cut off a text
belongs to the grammar; where none is, no word of the grammar starts with that character; and a word
that stands before a blank or at the end of the text is cut off whole.
-/

namespace Kiln.Token

open Kiln.Text

/-! ## The grammar -/

/-- The operators. -/
def operators : List String :=
  ["~", "?", ":", "/", "*", "%", "^", "!", "+", "-", "=", "&", "|", "<", ">",
    "/=", "*=", "%=", "^=", "!=", "+=", "-=", "&=", "|=", "<=", ">=",
    "++", "--", "==", "&&", "||", "<<", ">>", "&&=", "||=", "<<=", ">>="]

/-- The words that stand for themselves. -/
inductive Plain : TokenKind → List Char → Prop where
  | name {c : Char} {cs : List Char} (hc : c.isAlpha = true ∨ c = '_')
      (hcs : ∀ d ∈ cs, isNameChar d = true) : Plain .name (c :: cs)
  | decimal {c : Char} {cs : List Char} (hc : c.isDigit = true) (hcs : ∀ d ∈ cs, d.isDigit = true) :
      Plain .num (c :: cs)
  /-- There may be no digit after the `x`. -/
  | hexadecimal {cs : List Char} (hcs : ∀ d ∈ cs, Numeral.isHexDigit d = true) :
      Plain .num ('0' :: 'x' :: cs)
  | punct {c : Char} (h : isPunct c = true) : Plain .punct [c]
  | op {cs : List Char} (h : String.ofList cs ∈ operators) : Plain .op cs

/-- A part of a text and the token it is, with its kind and text.  A string at the end of the text
need not be closed. -/
inductive Spells (atEnd : Bool) : List Char → TokenKind → List Char → Prop where
  | plain {kind : TokenKind} {span : List Char} (h : Plain kind span) : Spells atEnd span kind span
  | str {inner content : List Char} (h : Interior atEnd inner content) :
      Spells atEnd ('"' :: inner) .str content

/-! ## Operators -/

/-- The signs of `isLoneOp`. -/
def loneSigns : List Char := "~?:".toList

/-- The signs of `isSingleOp`. -/
def singleSigns : List Char := "/*%^!".toList

/-- The signs of `isDoubleOp`. -/
def doubleSigns : List Char := "+-=&|<>".toList

/-- Operators are one sign, or a sign doubled, before `=` or both. -/
theorem operators_eq : operators.map String.toList =
    (loneSigns ++ singleSigns ++ doubleSigns).map (fun c => [c]) ++
      (singleSigns ++ doubleSigns.filter (· ≠ '=')).map (fun c => [c, '=']) ++
      doubleSigns.map (fun c => [c, c]) ++
      (doubleSigns.filter (· ∉ ['+', '-', '='])).map (fun c => [c, c, '=']) := by
  decide

theorem isLoneOp_iff {c : Char} : isLoneOp c = true ↔ c ∈ loneSigns := List.contains_iff_mem

theorem isSingleOp_iff {c : Char} : isSingleOp c = true ↔ c ∈ singleSigns := List.contains_iff_mem

theorem isDoubleOp_iff {c : Char} : isDoubleOp c = true ↔ c ∈ doubleSigns := List.contains_iff_mem

theorem mem_operators {cs : List Char} : String.ofList cs ∈ operators ↔
    (∃ c, (isLoneOp c = true ∨ isSingleOp c = true ∨ isDoubleOp c = true) ∧ cs = [c]) ∨
      (∃ c, (isSingleOp c = true ∨ isDoubleOp c = true ∧ c ≠ '=') ∧ cs = [c, '=']) ∨
      (∃ c, isDoubleOp c = true ∧ cs = [c, c]) ∨
      ∃ c, (isDoubleOp c = true ∧ ¬ (c = '+' ∨ c = '-' ∨ c = '=')) ∧ cs = [c, c, '='] := by
  have hmap : String.ofList cs ∈ operators ↔ cs ∈ operators.map String.toList := by
    rw [List.mem_map]
    constructor
    · exact fun h => ⟨_, h, String.toList_ofList⟩
    · rintro ⟨op, h, rfl⟩
      rwa [String.ofList_toList]
  simp only [hmap, operators_eq, List.mem_append, List.mem_map, List.mem_filter, decide_eq_true_eq,
    List.mem_cons, List.not_mem_nil, or_false, or_assoc, isLoneOp_iff, isSingleOp_iff,
    isDoubleOp_iff, ne_eq, @eq_comm _ cs]

theorem sign_of_mem {c : Char} {cs : List Char} (h : String.ofList (c :: cs) ∈ operators) :
    isLoneOp c = true ∨ isSingleOp c = true ∨ isDoubleOp c = true := by
  rcases mem_operators.mp h with ⟨d, hd, he⟩ | ⟨d, hd, he⟩ | ⟨d, hd, he⟩ | ⟨d, ⟨hd, -⟩, he⟩
  all_goals cases he
  · exact hd
  · exact .inr (hd.imp_right And.left)
  · exact .inr (.inr hd)
  · exact .inr (.inr hd)

/-! ## Words and blanks -/

section Blanks

variable {kind : TokenKind} {cs : List Char}

theorem Plain.not_blank (h : Plain kind cs) : ∀ c ∈ cs, isBlank c = false := by
  cases h with
  | name hc hcs =>
    refine List.forall_mem_cons.mpr ⟨?_, fun d hd => isBlank_of_pos (hcs d hd) (by decide)⟩
    rcases hc with hc | rfl
    · exact isBlank_of_pos hc (by decide)
    · decide
  | decimal hc hcs =>
    exact List.forall_mem_cons.mpr ⟨isBlank_of_pos hc (by decide), fun d hd =>
      isBlank_of_pos (hcs d hd) (by decide)⟩
  | hexadecimal hcs =>
    refine List.forall_mem_cons.mpr ⟨by decide, List.forall_mem_cons.mpr ⟨by decide, fun d hd => ?_⟩⟩
    exact isBlank_of_pos (hcs d hd) (by decide)
  | punct h => exact List.forall_mem_singleton.mpr (isBlank_of_pos h (by decide))
  | op h =>
    have hdouble {c : Char} (hc : isDoubleOp c = true) : isBlank c = false :=
      isBlank_of_pos hc (by decide)
    have hsign {c : Char} (hc : isSingleOp c = true ∨ isDoubleOp c = true) : isBlank c = false :=
      hc.elim (fun hc => isBlank_of_pos hc (by decide)) hdouble
    have hequals : isBlank '=' = false := by decide
    rcases mem_operators.mp h with ⟨c, hc, rfl⟩ | ⟨c, hc, rfl⟩ | ⟨c, hc, rfl⟩ | ⟨c, ⟨hc, -⟩, rfl⟩
    · rcases hc with hc | hc
      · simpa using isBlank_of_pos hc (by decide)
      · simpa using hsign hc
    · simpa [hequals] using hsign (hc.imp_right And.left)
    · simpa using hdouble hc
    · simpa [hequals] using hdouble hc

theorem Plain.count_lineFeed (h : Plain kind cs) : cs.count '\n' = 0 :=
  List.count_eq_zero.mpr fun hmem => absurd (h.not_blank '\n' hmem) (by decide)

end Blanks

/-! ## Words are something -/

section Something

variable {atEnd : Bool} {kind : TokenKind} {span content : List Char}

theorem Plain.kind_ne_eof (h : Plain kind span) : kind ≠ .eof := by
  cases h <;> nofun

theorem Plain.ne_nil (h : Plain kind span) : span ≠ [] := by
  cases h with
  | op h =>
    rintro rfl
    exact absurd h (by decide)
  | _ => nofun

theorem Spells.kind_ne_eof (h : Spells atEnd span kind content) : kind ≠ .eof := by
  cases h with
  | plain h => exact h.kind_ne_eof
  | str h => nofun

theorem Spells.span_ne_nil (h : Spells atEnd span kind content) : span ≠ [] := by
  cases h with
  | plain h => exact h.ne_nil
  | str h => nofun

end Something

/-! ## What is cut off is a word -/

section Cut

variable {c : Char} {cs : List Char}

/-- The text that starts with `c` is the word and what comes after it. -/
def Cuts (kind : TokenKind) (c : Char) (cs : List Char) (p : List Char × List Char) : Prop :=
  c :: cs = p.1 ++ p.2 ∧ Plain kind p.1

theorem withEquals_split (op cs : List Char) : op ++ cs = (withEquals op cs).1 ++ (withEquals op cs).2 ∧
    ((withEquals op cs).1 = op ∨ (withEquals op cs).1 = op ++ ['=']) := by
  unfold withEquals
  split
  · simp
  · simp

theorem cuts_withEquals (h : isSingleOp c = true) (cs : List Char) :
    Cuts .op c cs (withEquals [c] cs) := by
  obtain ⟨hsplit, hword⟩ := withEquals_split [c] cs
  refine ⟨hsplit, .op (mem_operators.mpr ?_)⟩
  rcases hword with hword | hword
  · exact .inl ⟨c, .inr (.inl h), hword⟩
  · exact .inr (.inl ⟨c, .inl h, hword⟩)

theorem cuts_doubleOp (h : isDoubleOp c = true) (cs : List Char) :
    Cuts .op c cs (doubleOp c cs) := by
  unfold doubleOp
  split
  · exact ⟨rfl, .op (mem_operators.mpr (.inl ⟨c, .inr (.inr h), rfl⟩))⟩
  · rename_i d rest
    split_ifs with hd hc
    · subst hd
      exact ⟨rfl, .op (mem_operators.mpr (.inr (.inr (.inl ⟨d, h, rfl⟩))))⟩
    · subst hd
      obtain ⟨hsplit, hword⟩ := withEquals_split [d, d] rest
      refine ⟨hsplit, .op (mem_operators.mpr (.inr (.inr ?_)))⟩
      rcases hword with hword | hword
      · exact .inl ⟨d, h, hword⟩
      · exact .inr ⟨d, ⟨h, hc⟩, hword⟩
    · obtain ⟨hsplit, hword⟩ := withEquals_split [c] (d :: rest)
      refine ⟨hsplit, .op (mem_operators.mpr ?_)⟩
      rcases hword with hword | hword
      · exact .inl ⟨c, .inr (.inr h), hword⟩
      · by_cases hequals : c = '='
        · subst hequals
          exact .inr (.inr (.inl ⟨'=', h, hword⟩))
        · exact .inr (.inl ⟨c, .inr ⟨h, hequals⟩, hword⟩)

theorem cuts_numeral (h : Numeral.isDigit c = true) (cs : List Char) :
    Cuts .num c cs (numeral c cs) := by
  rw [Numeral.isDigit_eq] at h
  unfold numeral
  split
  · rename_i rest
    split_ifs with hc
    · subst hc
      refine ⟨?_, .hexadecimal fun d hd => List.mem_takeWhile_imp hd⟩
      rw [List.cons_append, List.cons_append, List.takeWhile_append_dropWhile]
    · exact ⟨rfl, .decimal h (by simp)⟩
  · refine ⟨?_, .decimal h fun d hd => ?_⟩
    · rw [List.cons_append, List.takeWhile_append_dropWhile]
    · rw [← Numeral.isDigit_eq]
      exact List.mem_takeWhile_imp hd

/-- A lexeme is what the text starts with, and its line feeds are counted. -/
theorem lexeme?_split {l : Lexeme} (h : lexeme? c cs = some l) : ∃ span,
    c :: cs = span ++ l.rest ∧ Spells l.rest.isEmpty span l.kind l.text ∧
      l.lines = span.count '\n' := by
  have hplain {kind : TokenKind} {p : List Char × List Char} (hcuts : Cuts kind c cs p)
      (hl : some (Lexeme.ofPair kind p) = some l) : ∃ span, c :: cs = span ++ l.rest ∧
        Spells l.rest.isEmpty span l.kind l.text ∧ l.lines = span.count '\n' := by
    cases hl
    exact ⟨p.1, hcuts.1, .plain hcuts.2, hcuts.2.count_lineFeed.symm⟩
  unfold lexeme? at h
  split_ifs at h with hquote hdigit hname hpunct hlone hsingle hdouble
  · subst hquote
    obtain ⟨inner, content, after, rfl, hbody, hinterior⟩ := stringBody_split cs
    simp only [hbody] at h
    cases h
    refine ⟨'"' :: inner, rfl, .str hinterior, ?_⟩
    rw [count_lineFeed_cons]
    simp [lineEnds]
  · exact hplain (cuts_numeral hdigit cs) h
  · refine hplain ⟨?_, .name hname fun d hd => List.mem_takeWhile_imp hd⟩ h
    rw [List.cons_append, List.takeWhile_append_dropWhile]
  · exact hplain ⟨rfl, .punct hpunct⟩ h
  · exact hplain ⟨rfl, .op (mem_operators.mpr (.inl ⟨c, .inl hlone, rfl⟩))⟩ h
  · exact hplain (cuts_withEquals hsingle cs) h
  · exact hplain (cuts_doubleOp hdouble cs) h

theorem kind_of_lexeme? {l : Lexeme} (h : lexeme? c cs = some l) : l.kind ≠ .eof := by
  obtain ⟨span, -, hspells, -⟩ := lexeme?_split h
  exact hspells.kind_ne_eof

theorem length_lexeme? {l : Lexeme} (h : lexeme? c cs = some l) : l.rest.length ≤ cs.length := by
  obtain ⟨span, hsplit, hspells, -⟩ := lexeme?_split h
  have hspan := List.length_pos_iff.mpr hspells.span_ne_nil
  have hlength := congrArg List.length hsplit
  simp only [List.length_cons, List.length_append] at hlength
  omega

end Cut

/-! ## What starts a word -/

section Start

variable {c : Char} {cs : List Char}

theorem ne_of_pos {p : Char → Bool} {c d : Char} (hc : p c = true) (hd : p d = false) : c ≠ d := by
  rintro rfl
  rw [hc] at hd
  cases hd

theorem isDigit_of_start {c : Char} (h : c.isAlpha = true ∨ c = '_') :
    Numeral.isDigit c = false := by
  have hletter : 65 ≤ c.toNat := by
    rcases h with h | rfl
    · rcases (Bool.or_eq_true _ _).mp h with hupper | hlower
      · exact (of_decide_eq_true hupper).1
      · have hlow : 97 ≤ c.toNat := of_decide_eq_true ((Bool.and_eq_true _ _).mp hlower).1
        omega
    · decide
  rw [Numeral.isDigit_eq, Bool.eq_false_iff, Ne, Numeral.isDigit_iff_range]
  omega

theorem lexeme?_digit (h : Numeral.isDigit c = true) (cs : List Char) :
    lexeme? c cs = some (.ofPair .num (numeral c cs)) := by
  rw [lexeme?, if_neg (ne_of_pos h (by decide)), if_pos h]

theorem lexeme?_letter (h : c.isAlpha = true ∨ c = '_') (cs : List Char) : lexeme? c cs =
    some (.ofPair .name (c :: cs.takeWhile isNameChar, cs.dropWhile isNameChar)) := by
  have hquote : c ≠ '"' := by
    rcases h with h | rfl
    · exact ne_of_pos h (by decide)
    · decide
  rw [lexeme?, if_neg hquote, isDigit_of_start h, if_neg Bool.false_ne_true, if_pos h]

theorem lexeme?_punct (h : isPunct c = true) (cs : List Char) :
    lexeme? c cs = some (.ofPair .punct ([c], cs)) := by
  have hmem : c ∈ ['(', ')', '[', ']', '\x7b', '\x7d', ';', ',', '.'] := List.contains_iff_mem.mp h
  simp only [List.mem_cons, List.not_mem_nil, or_false] at hmem
  rcases hmem with rfl | rfl | rfl | rfl | rfl | rfl | rfl | rfl | rfl
  all_goals rfl

theorem lexeme?_lone (h : isLoneOp c = true) (cs : List Char) :
    lexeme? c cs = some (.ofPair .op ([c], cs)) := by
  have hmem : c ∈ ['~', '?', ':'] := isLoneOp_iff.mp h
  simp only [List.mem_cons, List.not_mem_nil, or_false] at hmem
  rcases hmem with rfl | rfl | rfl
  all_goals rfl

theorem lexeme?_single (h : isSingleOp c = true) (cs : List Char) :
    lexeme? c cs = some (.ofPair .op (withEquals [c] cs)) := by
  have hmem : c ∈ ['/', '*', '%', '^', '!'] := isSingleOp_iff.mp h
  simp only [List.mem_cons, List.not_mem_nil, or_false] at hmem
  rcases hmem with rfl | rfl | rfl | rfl | rfl
  all_goals rfl

theorem lexeme?_double (h : isDoubleOp c = true) (cs : List Char) :
    lexeme? c cs = some (.ofPair .op (doubleOp c cs)) := by
  have hmem : c ∈ ['+', '-', '=', '&', '|', '<', '>'] := isDoubleOp_iff.mp h
  simp only [List.mem_cons, List.not_mem_nil, or_false] at hmem
  rcases hmem with rfl | rfl | rfl | rfl | rfl | rfl | rfl
  all_goals rfl

/-- A text that starts like a word goes on with a lexeme. -/
theorem lexeme?_of_spells {atEnd : Bool} {kind : TokenKind} {span content : List Char}
    (h : Spells atEnd (c :: span) kind content) (cs : List Char) : ∃ l, lexeme? c cs = some l := by
  generalize hspan : c :: span = text at h
  cases h with
  | str h =>
    cases hspan
    exact ⟨_, rfl⟩
  | plain h =>
    cases h with
    | name hc hcs =>
      cases hspan
      exact ⟨_, lexeme?_letter hc cs⟩
    | decimal hc hcs =>
      cases hspan
      exact ⟨_, lexeme?_digit (by rwa [Numeral.isDigit_eq]) cs⟩
    | hexadecimal hcs =>
      cases hspan
      exact ⟨_, lexeme?_digit (by decide) cs⟩
    | punct h =>
      cases hspan
      exact ⟨_, lexeme?_punct h cs⟩
    | op h =>
      subst hspan
      rcases sign_of_mem h with hc | hc | hc
      · exact ⟨_, lexeme?_lone hc cs⟩
      · exact ⟨_, lexeme?_single hc cs⟩
      · exact ⟨_, lexeme?_double hc cs⟩

end Start

/-! ## A word before a blank is cut off whole -/

section Whole

variable {c : Char} {cs r : List Char}

/-- The text goes on with a blank, or it ends. -/
def BeforeBlank (r : List Char) : Prop := ∀ c ∈ r.head?, isBlank c = true

theorem BeforeBlank.of_any (hr : BeforeBlank r) {p : Char → Bool}
    (hp : " \t\n\r".toList.any p = false) : ∀ c ∈ r.head?, p c = false := by
  intro c hc
  rw [← Bool.not_eq_true]
  intro h
  exact Bool.false_ne_true ((isBlank_of_pos h hp).symm.trans (hr c hc))

theorem BeforeBlank.head_ne (hr : BeforeBlank r) (hc : isBlank c = false) : r.head? ≠ some c :=
  fun h => Bool.false_ne_true (hc.symm.trans (hr c h))

theorem takeWhile_append_of_head {p : Char → Bool} (hcs : ∀ c ∈ cs, p c = true)
    (hr : ∀ c ∈ r.head?, p c = false) : (cs ++ r).takeWhile p = cs ∧ (cs ++ r).dropWhile p = r := by
  rw [List.takeWhile_append_of_pos hcs, List.dropWhile_append_of_pos hcs]
  cases r with
  | nil => exact ⟨List.append_nil cs, rfl⟩
  | cons c r => simp [hr c rfl]

theorem withEquals_of_head (hr : r.head? ≠ some '=') (op : List Char) :
    withEquals op r = (op, r) := by
  unfold withEquals
  split
  · exact absurd rfl hr
  · rfl

theorem doubleOp_of_head (hr : r.head? ≠ some c) (hequals : r.head? ≠ some '=') :
    doubleOp c r = ([c], r) := by
  cases r with
  | nil => rfl
  | cons d r =>
    have hd : d ≠ c := fun he => hr (congrArg some he)
    rw [doubleOp, if_neg hd, withEquals_of_head hequals]

theorem numeral_of_head (hcs : ∀ d ∈ cs, Numeral.isDigit d = true)
    (hr : ∀ d ∈ r.head?, Numeral.isDigit d = false) (hx : r.head? ≠ some 'x') :
    numeral c (cs ++ r) = (c :: cs, r) := by
  obtain ⟨htake, hdrop⟩ := takeWhile_append_of_head hcs hr
  unfold numeral
  split
  · rename_i rest hrest
    cases cs with
    | nil =>
      rw [List.nil_append] at hrest
      exact absurd (by rw [hrest]; rfl) hx
    | cons d cs =>
      obtain ⟨rfl, -⟩ := List.cons.inj hrest
      exact absurd (hcs 'x' (List.mem_cons_self ..)) (by decide)
  · rw [htake, hdrop]

theorem lexeme?_of_operator (h : String.ofList (c :: cs) ∈ operators) (hr : BeforeBlank r) :
    lexeme? c (cs ++ r) = some ⟨.op, c :: cs, 0, r⟩ := by
  have hequals (op : List Char) : withEquals op r = (op, r) :=
    withEquals_of_head (hr.head_ne (by decide)) op
  have hof (p : List Char × List Char) (hp : p = (c :: cs, r)) :
      some (Lexeme.ofPair .op p) = some ⟨.op, c :: cs, 0, r⟩ := by
    rw [hp]
    rfl
  rcases mem_operators.mp h with ⟨d, hd, he⟩ | ⟨d, hd, he⟩ | ⟨d, hd, he⟩ | ⟨d, ⟨hd, hnot⟩, he⟩
  all_goals cases he
  · rcases hd with hd | hd | hd
    · exact lexeme?_lone hd r
    · exact (lexeme?_single hd r).trans (hof _ (hequals [c]))
    · have hblank : isBlank c = false := isBlank_of_pos hd (by decide)
      exact (lexeme?_double hd r).trans
        (hof _ (doubleOp_of_head (hr.head_ne hblank) (hr.head_ne (by decide))))
  · rcases hd with hd | ⟨hd, hne⟩
    · exact lexeme?_single hd ('=' :: r)
    · refine (lexeme?_double hd ('=' :: r)).trans (hof _ ?_)
      rw [doubleOp, if_neg hne.symm]
      rfl
  · refine (lexeme?_double hd (c :: r)).trans (hof _ ?_)
    rw [doubleOp, if_pos rfl, hequals, ite_self]
  · refine (lexeme?_double hd (c :: '=' :: r)).trans (hof _ ?_)
    rw [doubleOp, if_pos rfl, if_neg hnot]
    rfl

/-- Where a word stands before a blank, it is the lexeme. -/
theorem lexeme?_of_plain {kind : TokenKind} (h : Plain kind (c :: cs)) (hr : BeforeBlank r) :
    lexeme? c (cs ++ r) = some ⟨kind, c :: cs, 0, r⟩ := by
  generalize hword : c :: cs = word at h
  cases h with
  | name hc hcs =>
    cases hword
    obtain ⟨htake, hdrop⟩ := takeWhile_append_of_head hcs (hr.of_any (by decide))
    rw [lexeme?_letter hc, htake, hdrop]
    rfl
  | decimal hc hcs =>
    cases hword
    simp only [← Numeral.isDigit_eq] at hc hcs
    rw [lexeme?_digit hc, numeral_of_head hcs (hr.of_any (by decide)) (hr.head_ne (by decide))]
    rfl
  | hexadecimal hcs =>
    cases hword
    obtain ⟨htake, hdrop⟩ := takeWhile_append_of_head hcs (hr.of_any (by decide))
    rw [lexeme?_digit (by decide), List.cons_append, numeral, if_pos rfl, htake, hdrop]
    rfl
  | punct h =>
    cases hword
    exact lexeme?_punct h r
  | op h =>
    subst hword
    exact lexeme?_of_operator h hr

/-- A word that starts with a slash is no comment. -/
theorem Plain.slash {kind : TokenKind} (h : Plain kind ('/' :: cs)) : cs = [] ∨ cs = ['='] := by
  cases h with
  | name hc _ => exact absurd hc (by decide)
  | decimal hc _ => exact absurd hc (by decide)
  | punct h => exact .inl rfl
  | op h =>
    rcases mem_operators.mp h with ⟨d, hd, he⟩ | ⟨d, hd, he⟩ | ⟨d, hd, he⟩ | ⟨d, ⟨hd, -⟩, he⟩
    all_goals cases he
    · exact .inl rfl
    · exact .inr rfl
    · exact absurd hd (by decide)
    · exact absurd hd (by decide)

/-- No gap starts with a word. -/
theorem skipGap_of_plain {kind : TokenKind} (h : Plain kind (c :: cs)) (hr : BeforeBlank r)
    (lines : Nat) : skipGap .blanks lines (c :: (cs ++ r)) = (c :: (cs ++ r), lines) := by
  have hblank : isBlank c = false := h.not_blank c (List.mem_cons_self ..)
  have hnext {d : Char} {rest : List Char} (hc : c = '/') (hd : cs ++ r = d :: rest)
      (hne : d ≠ '=') (hd' : isBlank d = false) : False := by
    subst hc
    rcases h.slash with rfl | rfl
    · exact hr.head_ne hd' (congrArg List.head? hd)
    · exact hne (List.cons.inj hd).1.symm
  rw [skipGap, hblank]
  · rfl
  · exact fun rest hc hd => hnext hc hd (by decide) (by decide)
  · exact fun rest hc hd => hnext hc hd (by decide) (by decide)

end Whole

end Kiln.Token
