import Kiln.Token
import Mathlib.Tactic.SplitIfs

/-!
# Kiln.Proofs.Token.Gaps — what stands between two words

Blanks and comments, as a grammar: a comment to the end of its line has no line end inside, and one
between `/*` and `*/` has no `*/` inside.  Only where the text ends may the last comment be open.
Passing over a gap takes a text of the grammar away and counts its line feeds, and it stops where
neither a blank nor a comment begins; what the grammar allows is passed over whatever follows.
-/

namespace Kiln.Token

/-- The text is on one line. -/
def OnOneLine (cs : List Char) : Prop := ∀ c ∈ cs, c ≠ '\n' ∧ c ≠ '\r'

/-- Nowhere in the text is the end of a comment. -/
def NoClose (cs : List Char) : Prop := ¬ ['*', '/'] <:+: cs

/-- Blanks and comments.  If they stand at the end of a text, the last comment may be left open. -/
inductive Filler (atEnd : Bool) : List Char → Prop where
  | nil : Filler atEnd []
  | blank {c : Char} {g : List Char} (hc : isBlank c = true) (hg : Filler atEnd g) :
      Filler atEnd (c :: g)
  | line {body g : List Char} {c : Char} (hbody : OnOneLine body) (hc : c = '\n' ∨ c = '\r')
      (hg : Filler atEnd g) : Filler atEnd ('/' :: '/' :: (body ++ c :: g))
  | block {body g : List Char} (hbody : NoClose body) (hg : Filler atEnd g) :
      Filler atEnd ('/' :: '*' :: (body ++ '*' :: '/' :: g))
  | openLine {body : List Char} (hend : atEnd = true) (hbody : OnOneLine body) :
      Filler atEnd ('/' :: '/' :: body)
  | openBlock {body : List Char} (hend : atEnd = true) (hbody : NoClose body) :
      Filler atEnd ('/' :: '*' :: body)

/-! ## Blanks and comments -/

theorem isBlank_of_pos {p : Char → Bool} {c : Char} (hc : p c = true)
    (hp : " \t\n\r".toList.any p = false) : isBlank c = false := by
  have hne : ∀ d ∈ " \t\n\r".toList, c ≠ d := by
    rintro d hd rfl
    exact List.any_eq_false.mp hp c hd hc
  simpa [isBlank, and_assoc] using hne

theorem onOneLine_cons {c : Char} {cs : List Char} :
    OnOneLine (c :: cs) ↔ (c ≠ '\n' ∧ c ≠ '\r') ∧ OnOneLine cs := by
  simp [OnOneLine]

theorem noClose_nil : NoClose [] := by
  simp [NoClose]

theorem noClose_cons {c : Char} {cs : List Char} :
    NoClose (c :: cs) ↔ (c = '*' → cs.head? ≠ some '/') ∧ NoClose cs := by
  have hhead : ['*', '/'] <+: c :: cs ↔ c = '*' ∧ cs.head? = some '/' := by
    cases cs with
    | nil => simp [List.prefix_cons_iff]
    | cons d ds => simp [List.cons_prefix_cons, eq_comm]
  rw [NoClose, List.infix_cons_iff, hhead, not_or, not_and]
  rfl

section Forms

variable {atEnd : Bool} {c : Char} {g : List Char}

/-- A comment to the end of its line goes on with a character that does not end it. -/
theorem Filler.line_cons (hc : c ≠ '\n' ∧ c ≠ '\r') (h : Filler atEnd ('/' :: '/' :: g)) :
    Filler atEnd ('/' :: '/' :: c :: g) := by
  cases h with
  | blank hblank _ => cases hblank
  | line hbody hend hg => exact @Filler.line _ (c :: _) _ _ (onOneLine_cons.mpr ⟨hc, hbody⟩) hend hg
  | openLine hend hbody => exact .openLine hend (onOneLine_cons.mpr ⟨hc, hbody⟩)

/-- The other kind of comment goes on with a character that is not the start of its end. -/
theorem Filler.block_cons (hc : c = '*' → g.head? ≠ some '/')
    (h : Filler atEnd ('/' :: '*' :: g)) : Filler atEnd ('/' :: '*' :: c :: g) := by
  cases h with
  | blank hblank _ => cases hblank
  | @block body g' hbody hg =>
    have hnext : NoClose (c :: body) :=
      noClose_cons.mpr ⟨fun hstar hslash => hc hstar (by simp [List.head?_append, hslash]), hbody⟩
    exact @Filler.block _ (c :: body) _ hnext hg
  | openBlock hend hbody => exact .openBlock hend (noClose_cons.mpr ⟨hc, hbody⟩)

end Forms

/-! ## Passing over a gap -/

/-- How a gap that is being passed over began. -/
def Gap.opening : Gap → List Char
  | .blanks => []
  | .lineComment => ['/', '/']
  | .blockComment => ['/', '*']

theorem count_lineFeed_cons (c : Char) (cs : List Char) :
    (c :: cs).count '\n' = lineEnds c + cs.count '\n' := by
  rw [List.count_cons, Nat.add_comm, lineEnds]
  simp only [beq_iff_eq]

/-- What is passed over is a gap, its line feeds are counted, and no blank comes next. -/
theorem skipGap_split (gap : Gap) (lines : Nat) (cs : List Char) : ∃ g rest,
    cs = g ++ rest ∧ skipGap gap lines cs = (rest, lines + g.count '\n') ∧
      Filler rest.isEmpty (gap.opening ++ g) ∧ ∀ c ∈ rest.head?, isBlank c = false := by
  fun_induction skipGap gap lines cs with
  | case1 lines rest ih =>
    obtain ⟨g, rest', rfl, hskip, hfiller, hhead⟩ := ih
    exact ⟨'/' :: '/' :: g, rest', rfl, by simpa using hskip, hfiller, hhead⟩
  | case2 lines rest ih =>
    obtain ⟨g, rest', rfl, hskip, hfiller, hhead⟩ := ih
    exact ⟨'/' :: '*' :: g, rest', rfl, by simpa using hskip, hfiller, hhead⟩
  | case3 lines c rest _ _ hc ih =>
    obtain ⟨g, rest', rfl, hskip, hfiller, hhead⟩ := ih
    refine ⟨c :: g, rest', rfl, ?_, .blank hc hfiller, hhead⟩
    rw [hskip, count_lineFeed_cons, Nat.add_assoc]
  | case4 lines c rest _ _ hc =>
    exact ⟨[], c :: rest, rfl, rfl, .nil, by simpa using hc⟩
  | case5 lines c rest hc ih =>
    obtain ⟨g, rest', rfl, hskip, hfiller, hhead⟩ := ih
    refine ⟨c :: g, rest', rfl, ?_, @Filler.line _ [] _ _ (by simp [OnOneLine]) hc hfiller, hhead⟩
    rw [hskip, count_lineFeed_cons, Nat.add_assoc]
  | case6 lines c rest hc ih =>
    rw [not_or] at hc
    obtain ⟨g, rest', rfl, hskip, hfiller, hhead⟩ := ih
    exact ⟨c :: g, rest', rfl, by simpa [hc.1] using hskip, .line_cons hc hfiller, hhead⟩
  | case7 lines rest ih =>
    obtain ⟨g, rest', rfl, hskip, hfiller, hhead⟩ := ih
    exact ⟨'*' :: '/' :: g, rest', rfl, by simpa using hskip,
      @Filler.block _ [] _ noClose_nil hfiller, hhead⟩
  | case8 lines c rest hclose ih =>
    obtain ⟨g, rest', rfl, hskip, hfiller, hhead⟩ := ih
    refine ⟨c :: g, rest', rfl, ?_, .block_cons (fun hstar hslash => ?_) hfiller, hhead⟩
    · rw [hskip, count_lineFeed_cons, Nat.add_assoc]
    · obtain ⟨g', rfl⟩ : ∃ g', g = '/' :: g' := by
        cases g with
        | nil => cases hslash
        | cons d g' => cases hslash; exact ⟨g', rfl⟩
      exact hclose _ hstar rfl
  | case9 gap lines =>
    refine ⟨[], [], rfl, rfl, ?_, by simp⟩
    cases gap with
    | blanks => exact .nil
    | lineComment => exact .openLine rfl (by simp [OnOneLine])
    | blockComment => exact .openBlock rfl noClose_nil

theorem length_skipGap (gap : Gap) (lines : Nat) (cs : List Char) :
    (skipGap gap lines cs).1.length ≤ cs.length := by
  obtain ⟨g, rest, rfl, hskip, -⟩ := skipGap_split gap lines cs
  simp [hskip]

section Over

variable {body g : List Char}

theorem skipGap_line (hbody : OnOneLine body) {c : Char} (hc : c = '\n' ∨ c = '\r') (lines : Nat)
    (r : List Char) : skipGap .lineComment lines (body ++ c :: r) =
      skipGap .blanks (lines + lineEnds c) r := by
  induction body with
  | nil => simp only [List.nil_append, skipGap, if_pos hc]
  | cons b body ih =>
    obtain ⟨hb, hbody⟩ := onOneLine_cons.mp hbody
    rw [List.cons_append, skipGap, if_neg (not_or.mpr hb), ih hbody]

theorem skipGap_block (hbody : NoClose body) (lines : Nat) (r : List Char) :
    skipGap .blockComment lines (body ++ '*' :: '/' :: r) =
      skipGap .blanks (lines + body.count '\n') r := by
  induction body generalizing lines with
  | nil => simp only [List.nil_append, skipGap, List.count_nil, Nat.add_zero]
  | cons b body ih =>
    obtain ⟨hb, hbody⟩ := noClose_cons.mp hbody
    rw [List.cons_append, skipGap, ih hbody, count_lineFeed_cons, Nat.add_assoc]
    -- The end of the comment is not at its first character.
    intro rest hstar hrest
    refine hb hstar ?_
    cases body with
    | nil => cases hrest
    | cons d body => exact congrArg some (List.cons.inj hrest).1

/-- Blanks and closed comments are passed over, whatever follows. -/
theorem skipGap_filler (hg : Filler false g) (lines : Nat) (r : List Char) :
    skipGap .blanks lines (g ++ r) = skipGap .blanks (lines + g.count '\n') r := by
  induction hg generalizing lines with
  | nil => rfl
  | @blank c g hc _ ih =>
    have hslash : c ≠ '/' := by
      rintro rfl
      cases hc
    rw [List.cons_append, skipGap, if_pos hc, ih, count_lineFeed_cons, Nat.add_assoc]
    · exact fun _ he _ => hslash he
    · exact fun _ he _ => hslash he
  | @line body g c hbody hc _ ih =>
    have hnone : body.count '\n' = 0 := List.count_eq_zero.mpr fun h => (hbody _ h).1 rfl
    have hcount : ('/' :: '/' :: (body ++ c :: g)).count '\n' = lineEnds c + g.count '\n' := by
      rw [count_lineFeed_cons, count_lineFeed_cons, List.count_append, hnone, count_lineFeed_cons]
      simp [lineEnds]
    have hskip : skipGap .blanks lines ('/' :: '/' :: (body ++ c :: g) ++ r) =
        skipGap .lineComment lines (body ++ c :: (g ++ r)) := by
      simp [skipGap]
    rw [hskip, skipGap_line hbody hc, ih, hcount, Nat.add_assoc]
  | @block body g hbody _ ih =>
    have hcount : ('/' :: '*' :: (body ++ '*' :: '/' :: g)).count '\n' =
        body.count '\n' + g.count '\n' := by
      simp [List.count_append]
    have hskip : skipGap .blanks lines ('/' :: '*' :: (body ++ '*' :: '/' :: g) ++ r) =
        skipGap .blockComment lines (body ++ '*' :: '/' :: (g ++ r)) := by
      simp [skipGap]
    rw [hskip, skipGap_block hbody, ih, hcount, Nat.add_assoc]
  | openLine hend _ => cases hend
  | openBlock hend _ => cases hend

end Over

end Kiln.Token
