import Kiln.Proofs.Parser.Words
import Kiln.Proofs.Token.Spans

/-!
# Kiln.Proofs.Token.RoundTrip — words printed and read back

Any words can be written down one after another so that they are read back: strings between quotes,
with a backslash before every quote and backslash, the other words as they are, and between two of
them anything that starts with a blank and goes on with blanks and closed comments.  The blank is what
keeps the words apart, whatever they are: no word goes on with a blank, and a blank starts none.

The words this is about are all there are: each of them can be read, and no other is.
-/

namespace Kiln

namespace Token

/-! ## Printing -/

/-- The words of texts, without their ends. -/
inductive Word : TokenKind × String → Prop where
  | plain {kind : TokenKind} {text : String} (h : Plain kind text.toList) : Word (kind, text)
  | str (text : String) : Word (.str, text)

/-- The content of a string as it stands between the quotes. -/
def quoted (cs : List Char) : List Char :=
  cs.flatMap fun c => if c = '"' ∨ c = '\\' then ['\\', c] else [c]

/-- A word as it is printed. -/
def printed (w : TokenKind × String) : List Char :=
  if w.1 = .str then '"' :: (quoted w.2.toList ++ ['"']) else w.2.toList

/-- Words as they are printed, with `sep i` after the word number `i` if it is not the last one. -/
def joined : (Nat → List Char) → List (TokenKind × String) → List Char
  | _, [] => []
  | _, [w] => printed w
  | sep, w :: v :: ws => printed w ++ (sep 0 ++ joined (fun i => sep (i + 1)) (v :: ws))

/-- What may stand between two words: a blank, and then blanks and closed comments. -/
def Separator (s : List Char) : Prop := ∃ c g, s = c :: g ∧ isBlank c = true ∧ Filler false g

theorem Separator.filler {s : List Char} (h : Separator s) : Filler false s := by
  obtain ⟨c, g, rfl, hc, hg⟩ := h
  exact .blank hc hg

theorem Separator.beforeBlank {s : List Char} (h : Separator s) (r : List Char) :
    BeforeBlank (s ++ r) := by
  obtain ⟨c, g, rfl, hc, -⟩ := h
  intro d hd
  cases hd
  exact hc

theorem decodes_quoted (cs : List Char) : Decodes (quoted cs) cs := by
  induction cs with
  | nil => exact .nil
  | cons c cs ih =>
    rw [quoted, List.flatMap_cons]
    split_ifs with hc
    · rcases hc with rfl | rfl
      · exact .escaped '"' ih
      · exact .escaped '\\' ih
    · rw [not_or] at hc
      exact .plain hc.1 hc.2 ih

/-- After a gap a printed word is the lexeme, if a blank or the end follows it. -/
theorem lexeme?_printed {w : TokenKind × String} (hw : Word w) {r : List Char} (hr : BeforeBlank r) :
    ∃ c cs lines, printed w ++ r = c :: cs ∧
      (∀ n, skipGap .blanks n (c :: cs) = (c :: cs, n)) ∧
      lexeme? c cs = some ⟨w.1, w.2.toList, lines, r⟩ := by
  cases hw with
  | @plain kind text h =>
    have hkind : kind ≠ .str := by
      rintro rfl
      cases h
    rw [printed, if_neg hkind]
    cases hchars : text.toList with
    | nil =>
      rw [hchars] at h
      exact absurd rfl h.ne_nil
    | cons c cs =>
      rw [hchars] at h
      exact ⟨c, cs ++ r, 0, rfl, fun n => skipGap_of_plain h hr n, lexeme?_of_plain h hr⟩
  | str text =>
    have hbody := stringBody_decodes (decodes_quoted text.toList) ('"' :: r)
    rw [stringBody, List.append_nil] at hbody
    refine ⟨'"', quoted text.toList ++ '"' :: r, (quoted text.toList).count '\n', by simp [printed],
      fun n => ?_, ?_⟩
    · rw [skipGap]
      · rfl
      · exact fun _ hquote => absurd hquote (by decide)
      · exact fun _ hquote => absurd hquote (by decide)
    · rw [lexeme?, if_pos rfl, hbody]
      rfl

end Token

/-! ## Reading -/

namespace Stream

open Kiln.Parser Kiln.Token

variable {file last : String} {line : Nat}

theorem words_filler {g : List Char} (hg : Filler false g) :
    words ⟨file, g, 0, line, [], last⟩ = ([(.eof, "")], .ok ()) := by
  have hskip := skipGap_filler hg line []
  rw [List.append_nil, skipGap] at hskip
  have htoken : token ⟨file, g, 0, line, [], last⟩ =
      (.ok ⟨.eof, "", line + g.count '\n'⟩, ⟨file, [], 0, line + g.count '\n', [], ""⟩) := by
    simp only [token, scan, hskip]
  rw [words_of_ok htoken, if_pos rfl]
  rfl

theorem words_printed {w : TokenKind × String} (hw : Word w) {g r : List Char}
    (hg : Filler false g) (hr : BeforeBlank r) : ∃ line' last', 
    words ⟨file, g ++ (printed w ++ r), 0, line, [], last⟩ =
      (w :: (words ⟨file, r, 0, line', [], last'⟩).1, (words ⟨file, r, 0, line', [], last'⟩).2) := by
  obtain ⟨c, cs, lines, hsplit, hgap, hlexeme⟩ := lexeme?_printed hw hr
  have hskip : skipGap .blanks line (g ++ c :: cs) = (c :: cs, line + g.count '\n') := by
    rw [skipGap_filler hg, hgap]
  have htoken : token ⟨file, g ++ c :: cs, 0, line, [], last⟩ =
      (.ok ⟨w.1, w.2, line + g.count '\n'⟩, ⟨file, r, 0, line + g.count '\n' + lines, [], w.2⟩) := by
    simp only [token, scan, hskip, hlexeme, String.ofList_toList]
  refine ⟨line + g.count '\n' + lines, w.2, ?_⟩
  rw [hsplit, words_of_ok htoken, if_neg (kind_of_lexeme? hlexeme)]
  rfl

/-- What is read of printed words after a gap. -/
theorem words_joined {ws : List (TokenKind × String)} (hws : ∀ w ∈ ws, Word w)
    {sep : Nat → List Char} (hsep : ∀ i, Separator (sep i)) {g : List Char} (hg : Filler false g) :
    words ⟨file, g ++ joined sep ws, 0, line, [], last⟩ = (ws ++ [(.eof, "")], .ok ()) := by
  induction sep, ws using joined.induct generalizing g line last with
  | case1 sep =>
    rw [joined, List.append_nil]
    exact words_filler hg
  | case2 sep w =>
    obtain ⟨hw, -⟩ := List.forall_mem_cons.mp hws
    obtain ⟨line', last', hwords⟩ := words_printed hw (r := []) hg nofun
    rw [List.append_nil, words_filler .nil] at hwords
    exact hwords
  | case3 sep w v ws ih =>
    obtain ⟨hw, hrest⟩ := List.forall_mem_cons.mp hws
    obtain ⟨line', last', hwords⟩ := words_printed hw hg ((hsep 0).beforeBlank _)
    rw [joined, hwords, ih hrest (fun i => hsep (i + 1)) (hsep 0).filler]
    rfl

end Stream

open Kiln.Token

theorem word_of_spells {atEnd : Bool} {span : List Char} {kind : TokenKind} {text : String}
    (h : Spells atEnd span kind text.toList) : Word (kind, text) := by
  generalize htext : text.toList = content at h
  cases h with
  | plain h =>
    subst htext
    exact .plain h
  | str h => exact .str text

/-- These are the words that can be read. -/
theorem word_iff {w : TokenKind × String} :
    Word w ↔ w.1 ≠ .eof ∧ ∃ text file, w ∈ (Stream.ofText text file).words.1 := by
  constructor
  · intro hw
    refine ⟨?_, String.ofList (printed w), "", ?_⟩
    · cases hw with
      | plain h => exact h.kind_ne_eof
      | str text => nofun
    · obtain ⟨line, last, hread⟩ := Stream.words_printed hw (r := []) .nil nofun
      rw [List.append_nil, List.nil_append] at hread
      rw [Stream.ofText, String.toList_ofList, hread]
      exact List.mem_cons_self ..
  · rintro ⟨hkind, text, file, hmem⟩
    obtain ⟨ps, tail, closing, outcome, -, hps, hclosing, htokens, -⟩ :=
      Parser.tokensWithin_split (Nat.lt_succ_self text.toList.length) file [] ""
    have htokens' : (Stream.ofText text file).tokens.1 = ps.map Piece.token ++ closing := htokens
    rw [Stream.words, htokens', List.map_append, List.mem_append, List.map_map] at hmem
    rcases hmem with hmem | hmem
    · obtain ⟨p, hp, rfl⟩ := List.mem_map.mp hmem
      obtain ⟨l, r, hsplit⟩ := List.append_of_mem hp
      exact word_of_spells (hps l p r hsplit).span
    · cases hclosing with
      | atEnd hgap =>
        rw [List.map_singleton, List.mem_singleton] at hmem
        exact absurd (congrArg Prod.fst hmem) hkind
      | stuck => cases hmem

/-- Words that are printed with separators between them are read back. -/
theorem words_of_joined {ws : List (TokenKind × String)} (hws : ∀ w ∈ ws, Word w)
    {sep : Nat → List Char} (hsep : ∀ i, Separator (sep i)) (file : String) :
    (Stream.ofText (String.ofList (joined sep ws)) file).words = (ws ++ [(.eof, "")], .ok ()) := by
  rw [Stream.ofText, String.toList_ofList]
  exact Stream.words_joined hws hsep .nil

/-- Slashes between comments, a numeral without a digit, and a string with quotes and a line end. -/
theorem words_of_slashes : (Stream.ofText
    "/ // é\n/= /* / */\t0x // é\nx1 /* / */\t\"\\\"\\\\n\n€\" // é\n&&= /* / */\t=" "f").words =
      ([(.op, "/"), (.op, "/="), (.num, "0x"), (.name, "x1"), (.str, "\"\\n\n€"), (.op, "&&="),
        (.op, "="), (.eof, "")], .ok ()) := by
  have hwords : ∀ w ∈ [(.op, "/"), (.op, "/="), (.num, "0x"), (.name, "x1"),
      (.str, "\"\\n\n€"), (.op, "&&="), (.op, "=")], Word w := by
    simp only [List.forall_mem_cons]
    exact ⟨.plain (.op (mem_operators.mpr (.inl ⟨'/', .inr (.inl rfl), rfl⟩))),
      .plain (.op (mem_operators.mpr (.inr (.inl ⟨'/', .inl rfl, rfl⟩)))),
      .plain (@Plain.hexadecimal [] (by simp)),
      .plain (@Plain.name 'x' ['1'] (.inl rfl) (List.forall_mem_singleton.mpr rfl)), .str _,
      .plain (.op (mem_operators.mpr (.inr (.inr (.inr ⟨'&', ⟨rfl, by decide⟩, rfl⟩))))),
      .plain (.op (mem_operators.mpr (.inl ⟨'=', .inr (.inr rfl), rfl⟩))), by simp⟩
  have hsep (i : Nat) :
      Separator (if i % 2 = 0 then " // é\n".toList else " /* / */\t".toList) := by
    split_ifs
    · exact ⟨' ', _, rfl, rfl, @Filler.line _ [' ', 'é'] _ _ (by simp [OnOneLine]) (.inl rfl) .nil⟩
    · have hbody : NoClose [' ', '/', ' '] := by simp [noClose_cons, noClose_nil]
      exact ⟨' ', _, rfl, rfl, @Filler.block _ [' ', '/', ' '] _ hbody (.blank rfl .nil)⟩
  exact words_of_joined hwords hsep "f"

end Kiln
