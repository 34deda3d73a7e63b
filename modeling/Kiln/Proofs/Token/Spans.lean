import Kiln.Token.Stream
import Kiln.Proofs.Token.Lexemes

/-!
# Kiln.Proofs.Token.Spans — where the tokens of a text stand

A text is its tokens one after another, with gaps between them, and nothing else: every token has a
part of the text that spells it, and what is left between these parts is blanks and comments.  The
line of a token is that of the place where its part begins.  Reading stops at the end of the text or
at the first place where no token begins; the error names the character there.
-/

namespace Kiln

open Kiln.Text.Lossy Kiln.Token

/-- A token with its part of a text and the gap before that. -/
structure Piece where
  gap : List Char
  span : List Char
  token : Token

namespace Piece

/-- The text of the gap and the token. -/
def chars (p : Piece) : List Char := p.gap ++ p.span

/-- The text that the pieces make. -/
def spread (ps : List Piece) : List Char := ps.flatMap chars

/-- What is so of a piece that stands between the texts `before` and `after`. -/
structure StandsAt (p : Piece) (before after : List Char) : Prop where
  gap : Filler false p.gap
  span : Spells after.isEmpty p.span p.token.kind p.token.text.toList
  /-- Where a string is read byte by byte, its bytes are those of its text. -/
  bytes : p.token.kind = .str →
    stringBytes (utf8 (p.span.tail ++ after)) = (utf8 p.token.text.toList, utf8 after)
  line : p.token.line = 1 + (before ++ p.gap).count '\n'

/-- Each of the pieces stands where it has to in a text that has `before` in front of them and `tail`
after them. -/
def Laid (before : List Char) (ps : List Piece) (tail : List Char) : Prop :=
  ∀ l p r, ps = l ++ p :: r → p.StandsAt (before ++ spread l) (spread r ++ tail)

section Laid

variable {p : Piece} {ps : List Piece} {before tail : List Char}

theorem spread_cons : spread (p :: ps) = p.chars ++ spread ps := rfl

theorem laid_nil : Laid before [] tail := fun l p r h => absurd h (by simp)

theorem Laid.cons (h : p.StandsAt before (spread ps ++ tail))
    (hps : Laid (before ++ p.chars) ps tail) : Laid before (p :: ps) tail := by
  intro l q r hsplit
  cases l with
  | nil =>
    cases hsplit
    rw [spread, List.flatMap_nil, List.append_nil]
    exact h
  | cons p' l =>
    cases hsplit
    have hq := hps l q r rfl
    rwa [List.append_assoc, ← spread_cons] at hq

end Laid

end Piece

/-- How the tokens of a text of the file end, after those that stand in `before`: with its end, or
with an error at a character that no token starts with. -/
inductive Closing (file : String) (before : List Char) :
    List Char → List Token → Outcome Unit → Prop where
  | atEnd {gap : List Char} (hgap : Filler true gap) :
      Closing file before gap [⟨.eof, "", 1 + (before ++ gap).count '\n'⟩] (.ok ())
  | stuck {gap : List Char} {c : Char} {after : List Char} (hgap : Filler false gap)
      (hblank : isBlank c = false)
      (hnone : ∀ atEnd span kind content, ¬ Spells atEnd (c :: span) kind content) :
      Closing file before (gap ++ c :: after) []
        (.error (.badCharacter ⟨file, 1 + (before ++ gap).count '\n'⟩ c))

/-! ## One token -/

namespace Token

theorem Spells.bytes {span content after : List Char} (h : Spells after.isEmpty span .str content) :
    stringBytes (utf8 (span.tail ++ after)) = (utf8 content, utf8 after) := by
  cases h with
  | plain h => cases h
  | str h => exact h.stringBytes_utf8

end Token

namespace Parser

/-- What is read where nothing was pushed back: the end, a token, or an error. -/
theorem token_split (file : String) (cs : List Char) (line : Nat) (last : String) :
    (∃ u, Filler true cs ∧
      token ⟨file, cs, 0, line, [], last⟩ = (.ok ⟨.eof, "", line + cs.count '\n'⟩, u)) ∨
    (∃ gap span after kind content, cs = gap ++ (span ++ after) ∧ Filler false gap ∧
      Spells after.isEmpty span kind content ∧ token ⟨file, cs, 0, line, [], last⟩ =
        (.ok ⟨kind, String.ofList content, line + gap.count '\n'⟩,
          ⟨file, after, 0, line + (gap ++ span).count '\n', [], String.ofList content⟩)) ∨
    ∃ gap c after u, cs = gap ++ c :: after ∧ Filler false gap ∧ isBlank c = false ∧
      (∀ atEnd span kind content, ¬ Spells atEnd (c :: span) kind content) ∧
      token ⟨file, cs, 0, line, [], last⟩ =
        (.error (.badCharacter ⟨file, line + gap.count '\n'⟩ c), u) := by
  obtain ⟨gap, rest, rfl, hskip, hgap, hblank⟩ := skipGap_split .blanks line cs
  cases rest with
  | nil =>
    left
    rw [List.append_nil] at hskip ⊢
    refine ⟨⟨file, [], 0, line + gap.count '\n', [], ""⟩, hgap, ?_⟩
    simp only [token, scan, hskip]
  | cons c rest =>
    right
    rcases hlexeme : lexeme? c rest with - | l
    · right
      have hnone (atEnd span kind content) : ¬ Spells atEnd (c :: span) kind content := by
        intro h
        obtain ⟨l, hl⟩ := lexeme?_of_spells h rest
        cases hlexeme.symm.trans hl
      refine ⟨gap, c, rest, ⟨file, rest, c.utf8Size - 1, line + gap.count '\n', [], last⟩, rfl, hgap,
        hblank c rfl, hnone, ?_⟩
      simp only [token, scan, hskip, hlexeme, Stream.locationAt]
    · left
      obtain ⟨span, hspan, hspells, hlines⟩ := lexeme?_split hlexeme
      refine ⟨gap, span, l.rest, l.kind, l.text, by rw [hspan], hgap, hspells, ?_⟩
      simp only [token, scan, hskip, hlexeme, hlines, List.count_append, Nat.add_assoc]

/-- The tokens of a text that is read from its start or after what stands in `before`. -/
theorem tokensWithin_split {n : Nat} {cs : List Char} (hn : cs.length < n) (file : String)
    (before : List Char) (last : String) : ∃ ps tail closing outcome,
      cs = Piece.spread ps ++ tail ∧ Piece.Laid before ps tail ∧
      Closing file (before ++ Piece.spread ps) tail closing outcome ∧
      (tokensWithin n ⟨file, cs, 0, 1 + before.count '\n', [], last⟩).1 =
        ps.map Piece.token ++ closing ∧
      (tokensWithin n ⟨file, cs, 0, 1 + before.count '\n', [], last⟩).2.1 = outcome := by
  induction n generalizing cs before last with
  | zero => exact absurd hn (Nat.not_lt_zero _)
  | succ n ih =>
    rcases token_split file cs (1 + before.count '\n') last with
      ⟨u, hfiller, htoken⟩ | ⟨gap, span, after, kind, content, rfl, hgap, hspells, htoken⟩ |
        ⟨gap, c, after, u, rfl, hgap, hblank, hnone, htoken⟩
    · refine ⟨[], cs, _, _, rfl, Piece.laid_nil, .atEnd hfiller, ?_, ?_⟩
      · rw [tokensWithin, htoken, Nat.add_assoc, ← List.count_append]
        simp [Piece.spread]
      · rw [tokensWithin, htoken]
        simp
    · have hshort : after.length < n := by
        have hspan := List.length_pos_iff.mpr hspells.span_ne_nil
        simp only [List.length_append] at hn
        omega
      obtain ⟨ps, tail, closing, outcome, rfl, hps, hclosing, htokens, houtcome⟩ :=
        ih hshort (before ++ (gap ++ span)) (String.ofList content)
      rw [List.count_append, ← Nat.add_assoc] at htokens houtcome
      refine ⟨⟨gap, span, ⟨kind, String.ofList content, 1 + (before ++ gap).count '\n'⟩⟩ :: ps, tail,
        closing, outcome, ?_, .cons ⟨hgap, ?_, ?_, rfl⟩ hps, ?_, ?_, ?_⟩
      · simp only [Piece.spread_cons, Piece.chars, List.append_assoc]
      · rwa [String.toList_ofList]
      · rintro rfl
        rw [String.toList_ofList]
        exact hspells.bytes
      · rwa [Piece.spread_cons, ← List.append_assoc]
      · rw [tokensWithin, htoken]
        simp only [if_neg hspells.kind_ne_eof, htokens, List.map_cons, List.cons_append]
        rw [Nat.add_assoc, ← List.count_append]
      · rw [tokensWithin, htoken]
        simp only [if_neg hspells.kind_ne_eof, houtcome]
    · refine ⟨[], gap ++ c :: after, _, _, rfl, Piece.laid_nil, .stuck hgap hblank hnone, ?_, ?_⟩
      · rw [tokensWithin, htoken]
        simp
      · rw [tokensWithin, htoken, Nat.add_assoc, ← List.count_append]
        simp [Piece.spread]

end Parser

/-- Every text is its tokens with gaps between them, up to its end or to the first character that no
token starts with, and nothing else is read from it. -/
theorem tokens_account_for_text (text file : String) : ∃ ps tail closing outcome,
    text.toList = Piece.spread ps ++ tail ∧ Piece.Laid [] ps tail ∧
      Closing file (Piece.spread ps) tail closing outcome ∧
      (Stream.ofText text file).tokens.1 = ps.map Piece.token ++ closing ∧
      (Stream.ofText text file).tokens.2.1 = outcome :=
  Parser.tokensWithin_split (Nat.lt_succ_self _) file [] ""

end Kiln
