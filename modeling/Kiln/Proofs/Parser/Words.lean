import Kiln.Proofs.Fingerprint.Written
import Kiln.Proofs.Parser.RoundTrip

/-!
# Kiln.Proofs.Parser.Words — what a source text says

The words of a text are the kinds and texts of its tokens up to its end, or up to a character that no
token starts with.  Lines and files are left out, and so is what stands between the tokens.  Reading
a token takes the first of the words away, and every token but the end takes a character at least, so
the words are found with any bound on their number that is large enough.
-/

namespace Kiln

/-! ## Locations left out -/

/-- The error with all locations forgotten. -/
def Error.unlocated : Error → Error
  | badCharacter _ char => badCharacter Stmt.nowhere char
  | badToken _ complaint got => badToken Stmt.nowhere complaint got
  | located _ cause => located Stmt.nowhere cause.unlocated
  | fault cause => fault cause
  | io cause => io cause

/-- The outcome with all locations in its error forgotten. -/
def Outcome.unlocated {α : Type} : Outcome α → Outcome α
  | error e => error e.unlocated
  | o => o

namespace Token

/-- The kind and the text of a token. -/
def word (t : Token) : TokenKind × String := (t.kind, t.text)

/-- A token that differs in its line only. -/
theorem eq_of_word_eq {t t' : Token} (h : t'.word = t.word) : t' = { t with line := t'.line } := by
  obtain ⟨kind, text, line⟩ := t
  obtain ⟨kind', text', line'⟩ := t'
  cases h
  rfl

/-- How much reading the token brings the end nearer: the end itself can be read over and over. -/
def weight (t : Token) : Nat := if t.kind = .eof then 0 else 1

theorem weight_of_ne_eof {t : Token} (h : t.kind ≠ .eof) : t.weight = 1 := if_neg h

end Token

namespace Parser

open Token

/-- A token that was read is the end, or the lexeme that the text goes on with after a gap. -/
theorem scan_eq_ok {s s' : Stream} {t : Token} (h : scan s = (.ok t, s')) : s.torn = 0 ∧
    ((∃ line, skipGap .blanks s.line s.rest = ([], line) ∧ t = ⟨.eof, "", line⟩ ∧
        s' = { s with rest := [], line }) ∨
      ∃ line c after l, skipGap .blanks s.line s.rest = (c :: after, line) ∧
        lexeme? c after = some l ∧ t = ⟨l.kind, String.ofList l.text, line⟩ ∧
        s' = { s with rest := l.rest, line := line + l.lines }) := by
  unfold scan at h
  split at h
  · cases h
  · rename_i htorn
    refine ⟨htorn, ?_⟩
    rcases hgap : skipGap .blanks s.line s.rest with ⟨rest, line⟩
    rw [hgap] at h
    cases rest with
    | nil =>
      cases h
      exact .inl ⟨line, rfl, rfl, rfl⟩
    | cons c after =>
      rcases hlexeme : lexeme? c after with - | l
      · simp only [hlexeme] at h
        cases h
      · simp only [hlexeme] at h
        cases h
        exact .inr ⟨line, c, after, l, rfl, hlexeme, rfl, rfl⟩

/-- At the end of the text the end is read, over and over. -/
theorem scan_eof {s s' : Stream} {t : Token} (h : scan s = (.ok t, s')) (ht : t.kind = .eof) :
    scan s' = (.ok t, s') := by
  obtain ⟨htorn, ⟨line, -, rfl, rfl⟩ | ⟨line, c, after, l, -, hlexeme, rfl, -⟩⟩ := scan_eq_ok h
  · simp [scan, htorn, skipGap]
  · exact absurd ht (kind_of_lexeme? hlexeme)

theorem scan_shorter {s s' : Stream} {t : Token} (h : scan s = (.ok t, s')) (ht : t.kind ≠ .eof) :
    s'.rest.length + s'.torn < s.rest.length + s.torn := by
  obtain ⟨htorn, ⟨line, -, rfl, -⟩ | ⟨line, c, after, l, hgap, hlexeme, -, rfl⟩⟩ := scan_eq_ok h
  · exact absurd rfl ht
  · have hlength := length_skipGap .blanks s.line s.rest
    have hrest := length_lexeme? hlexeme
    rw [hgap, List.length_cons] at hlength
    show l.rest.length + s.torn < _
    omega

theorem pushed_of_scan {s s' : Stream} {o : Outcome Token} (h : scan s = (o, s')) :
    s'.pushed = s.pushed := by
  unfold scan at h
  split at h
  · cases h; rfl
  · dsimp only at h
    split at h
    · cases h; rfl
    · split at h <;> cases h <;> rfl

end Parser

namespace Stream

/-- How much can still be read. -/
def length (s : Stream) : Nat := s.rest.length + s.torn + s.pushed.length

end Stream

namespace Parser

open Token

theorem token_shorter {s s' : Stream} {t : Token} (h : token s = (.ok t, s')) (ht : t.kind ≠ .eof) :
    s'.length < s.length := by
  unfold token at h
  split at h
  · rename_i u pushed hpushed
    cases h
    simp only [Stream.length, hpushed, List.length_cons]
    omega
  · rename_i hpushed
    rcases hscan : scan s with ⟨o, u⟩
    rw [hscan] at h
    cases o with
    | ok a =>
      cases h
      have hshorter := scan_shorter hscan ht
      have hsame := pushed_of_scan hscan
      simp only [Stream.length, hsame]
      omega
    | error e => cases h
    | exhausted => cases h

/-- The text of the last token has no influence on how reading a token ends. -/
theorem token_outcome_with_last (s : Stream) (last : String) :
    (token { s with last }).1 = (token s).1 := by
  obtain ⟨file, rest, torn, line, pushed, last'⟩ := s
  cases pushed with
  | cons t pushed => rfl
  | nil =>
    have hscan := scan_with_last ⟨file, rest, torn, line, [], last'⟩ last
    simp only [token]
    rw [hscan]
    rcases scan ⟨file, rest, torn, line, [], last'⟩ with ⟨o, u⟩
    cases o <;> rfl

theorem token_ne_exhausted (s : Stream) : (token s).1 ≠ .exhausted := by
  unfold token
  split
  · exact nofun
  · have hscan : (scan s).1 ≠ .exhausted := by
      unfold scan
      split
      · exact nofun
      · dsimp only
        split
        · exact nofun
        · split <;> exact nofun
    rcases h : scan s with ⟨o, u⟩
    rw [h] at hscan
    cases o with
    | ok t => exact nofun
    | error e => exact nofun
    | exhausted => exact absurd rfl hscan

theorem token_ok_or_error (s : Stream) :
    (∃ t u, token s = (.ok t, u)) ∨ ∃ e u, token s = (.error e, u) := by
  have hnot := token_ne_exhausted s
  rcases h : token s with ⟨o, u⟩
  rw [h] at hnot
  cases o with
  | ok t => exact .inl ⟨t, u, rfl⟩
  | error e => exact .inr ⟨e, u, rfl⟩
  | exhausted => exact absurd rfl hnot

theorem last_of_token {s u : Stream} {t : Token} (h : token s = (.ok t, u)) : u.last = t.text := by
  unfold token at h
  split at h
  · cases h
    rfl
  · rcases hscan : scan s with ⟨o, v⟩
    rw [hscan] at h
    cases o with
    | ok a =>
      cases h
      rfl
    | error e => cases h
    | exhausted => cases h

/-! ## Words -/

/-- The words up to the end or to an error, at most `n` of them, and how they end. -/
def wordsWithin (n : Nat) (s : Stream) : List (TokenKind × String) × Outcome Unit :=
  ((tokensWithin n s).1.map word, (tokensWithin n s).2.1.unlocated)

section Words

variable {s u : Stream} {t : Token} {e : Error}

theorem wordsWithin_of_ok (h : token s = (.ok t, u)) (n : Nat) : wordsWithin (n + 1) s =
    if t.kind = .eof then ([t.word], .ok ())
    else (t.word :: (wordsWithin n u).1, (wordsWithin n u).2) := by
  simp only [wordsWithin, tokensWithin, h]
  split_ifs <;> rfl

theorem wordsWithin_of_error (h : token s = (.error e, u)) (n : Nat) :
    wordsWithin (n + 1) s = ([], .error e.unlocated) := by
  simp only [wordsWithin, tokensWithin, h]
  rfl

/-- Any bound that is large enough will do, and the last token does not matter. -/
theorem wordsWithin_eq {n m : Nat} (hn : s.length < n) (hm : s.length < m) (last : String) :
    wordsWithin n { s with last } = wordsWithin m s := by
  induction n generalizing m s last with
  | zero => exact absurd hn (Nat.not_lt_zero _)
  | succ n ih =>
    obtain ⟨m, rfl⟩ : ∃ k, m = k + 1 := ⟨m - 1, by omega⟩
    have houtcome := token_outcome_with_last s last
    rcases token_ok_or_error s with ⟨t, u, h⟩ | ⟨e, u, h⟩
    · rw [wordsWithin_of_ok h, wordsWithin_of_ok (token_with_last h last)]
      split_ifs with ht
      · rfl
      · have hshorter := token_shorter h ht
        rw [ih (m := m) (s := u) (by omega) (by omega) u.last]
    · rw [h] at houtcome
      rw [wordsWithin_of_error h, wordsWithin_of_error (Step.eq_of_fst houtcome)]

end Words

end Parser

open Kiln.Parser Kiln.Token

namespace Stream

variable {s u : Stream} {t : Token} {e : Error}

/-- The words of the text that is left, and how they end. -/
def words (s : Stream) : List (TokenKind × String) × Outcome Unit :=
  (s.tokens.1.map word, s.tokens.2.1.unlocated)

theorem words_eq {n : Nat} (hn : s.length < n) (last : String) :
    wordsWithin n { s with last } = s.words :=
  wordsWithin_eq hn (Nat.lt_succ_self _) last

theorem words_with_last (s : Stream) (last : String) : words { s with last } = s.words :=
  words_eq (s := s) (Nat.lt_succ_self _) last

theorem words_of_ok (h : token s = (.ok t, u)) : s.words =
    if t.kind = .eof then ([t.word], .ok ()) else (t.word :: u.words.1, u.words.2) := by
  rw [show s.words = wordsWithin (s.length + 1) s from rfl, wordsWithin_of_ok h]
  split_ifs with ht
  · rfl
  · rw [words_eq (s := u) (token_shorter h ht) u.last]

theorem words_of_error (h : token s = (.error e, u)) : s.words = ([], .error e.unlocated) :=
  wordsWithin_of_error h s.length

/-- The words of the text that has never been read, whatever was pushed back. -/
def unread (s : Stream) : List (TokenKind × String) × Outcome Unit :=
  words { s with pushed := [] }

/-- The words to come, those pushed back first. -/
def upcoming (s : Stream) : List (TokenKind × String) := s.pushed.map word ++ s.unread.1

/-- How many words are to come before the end. -/
def count (s : Stream) : Nat := s.upcoming.countP fun w => w.1 ≠ .eof

/-- The streams go on with the same words, end alike, and the same word was read last. -/
structure Alike (s s' : Stream) : Prop where
  pushed : s'.pushed.map word = s.pushed.map word
  unread : s'.unread = s.unread
  last : s'.last = s.last

theorem Alike.count (h : s.Alike u) : u.count = s.count := by
  simp only [Stream.count, upcoming, h.pushed, h.unread]

theorem count_push (t : Token) (s : Stream) :
    count { s with pushed := t :: s.pushed } = s.count + t.weight := by
  simp only [Stream.count, upcoming, List.map_cons, List.cons_append, List.countP_cons, weight, word]
  show _ = List.countP _ (_ ++ s.unread.1) + _
  by_cases h : t.kind = .eof <;> simp [h, unread]

/-- What reading a token leaves of the text that has never been read. -/
theorem unread_of_ok (hpushed : s.pushed = []) (h : token s = (.ok t, u)) :
    u.pushed = [] ∧
      if t.kind = .eof then s.unread = ([t.word], .ok ()) ∧ u.unread = s.unread
      else s.unread = (t.word :: u.unread.1, u.unread.2) := by
  have hscan : ∃ v, scan s = (.ok t, v) ∧ u = { v with last := t.text } := by
    rw [token, hpushed] at h
    rcases hscan : scan s with ⟨o, v⟩
    rw [hscan] at h
    cases o with
    | ok a => cases h; exact ⟨v, rfl, rfl⟩
    | error e => cases h
    | exhausted => cases h
  obtain ⟨v, hscan, rfl⟩ := hscan
  have hv : v.pushed = [] := (pushed_of_scan hscan).trans hpushed
  have hraw : ({ s with pushed := [] } : Stream) = s := by rw [← hpushed]
  have hleft : unread { v with last := t.text } = v.words := by
    have hsame : ({ v with pushed := [], last := t.text } : Stream) = { v with last := t.text } := by
      rw [← hv]
    rw [unread, hsame, words_with_last]
  have hwords := words_of_ok h
  rw [words_with_last v t.text] at hwords
  refine ⟨hv, ?_⟩
  rw [unread, hraw, hwords, hleft]
  split_ifs with ht
  · refine ⟨rfl, ?_⟩
    have hagain := words_of_ok (token_of_scan hv (scan_eof hscan ht))
    rw [if_pos ht] at hagain
    exact hagain
  · rfl

theorem head_unread (hpushed : s.pushed = []) (h : token s = (.ok t, u)) :
    s.unread.1.head? = some t.word := by
  obtain ⟨-, hunread⟩ := unread_of_ok hpushed h
  split_ifs at hunread with ht
  · rw [hunread.1]
    rfl
  · rw [hunread]
    rfl

theorem unread_ne_error (hpushed : s.pushed = []) (h : token s = (.ok t, u)) (e : Error) :
    s.unread ≠ ([], .error e) := by
  intro herror
  have hhead := head_unread hpushed h
  rw [herror] at hhead
  cases hhead

theorem unread_of_error (hpushed : s.pushed = []) (h : token s = (.error e, u)) :
    s.unread = ([], .error e.unlocated) := by
  have hraw : ({ s with pushed := [] } : Stream) = s := by rw [← hpushed]
  rw [unread, hraw, words_of_error h]

theorem token_of_pushed {pushed : List Token} (h : s.pushed = t :: pushed) :
    token s = (.ok t, { s with pushed, last := t.text }) := by
  rw [token, h]

theorem unread_with (s : Stream) (pushed : List Token) (last : String) :
    unread { s with pushed, last } = s.unread :=
  words_with_last { s with pushed := [] } last

/-- How much reading a token leaves. -/
theorem count_of_ok (h : token s = (.ok t, u)) : u.count + t.weight = s.count := by
  rcases hpushed : s.pushed with - | ⟨a, pushed⟩
  · obtain ⟨hnone, hunread⟩ := unread_of_ok hpushed h
    by_cases ht : t.kind = .eof
    · rw [if_pos ht] at hunread
      simp [count, upcoming, hpushed, hnone, hunread, weight, ht]
    · rw [if_neg ht] at hunread
      simp [count, upcoming, hpushed, hnone, hunread, weight, ht, word]
  · cases (token_of_pushed hpushed).symm.trans h
    have hpush := count_push t { s with pushed, last := t.text }
    simp only [count, upcoming, unread_with, hpushed] at hpush ⊢
    exact hpush.symm

/-- Every word before the end takes a character at least. -/
theorem countP_words_le : (s.words.1.countP fun w => w.1 ≠ .eof) ≤ s.length := by
  induction hlength : s.length using Nat.strong_induction_on generalizing s with
  | _ n ih =>
    subst hlength
    rcases token_ok_or_error s with ⟨t, u, h⟩ | ⟨e, u, h⟩
    · rw [words_of_ok h]
      split_ifs with ht
      · simp [word, ht]
      · have hshorter := token_shorter h ht
        have hrest := ih u.length hshorter rfl
        rw [List.countP_cons_of_pos (by simp [word, ht])]
        omega
    · rw [words_of_error h]
      exact Nat.zero_le _

/-- Reading a text from its start meets no more words than the bound on its depth allows for. -/
theorem count_ofText (text file : String) :
    8 * (ofText text file).count + 8 ≤ (ofText text file).depthBound :=
  Nat.add_le_add_right (Nat.mul_le_mul_left 8 (countP_words_le (s := ofText text file))) 8

theorem alike_ofText {text text' file file' : String}
    (h : (ofText text' file').words = (ofText text file).words) :
    (ofText text file).Alike (ofText text' file') := ⟨rfl, h, rfl⟩

namespace Alike

variable {s' u' : Stream}

theorem push (h : s.Alike s') {t t' : Token} (ht : t'.word = t.word) :
    Alike { s with pushed := t :: s.pushed } { s' with pushed := t' :: s'.pushed } where
  pushed := by simp only [List.map_cons, ht, h.pushed]
  unread := h.unread
  last := h.last

theorem of_token (h : s.Alike s') {t t' : Token} (hpushed : s.pushed = [])
    (hpushed' : s'.pushed = []) (hrun : Parser.token s = (.ok t, u))
    (hrun' : Parser.token s' = (.ok t', u')) : t'.word = t.word ∧ u.Alike u' := by
  obtain ⟨hnone, hunread⟩ := unread_of_ok hpushed hrun
  obtain ⟨hnone', hunread'⟩ := unread_of_ok hpushed' hrun'
  have hsame := h.unread
  have hword : t'.word = t.word := by
    have hhead := head_unread hpushed' hrun'
    rw [hsame, head_unread hpushed hrun] at hhead
    exact (Option.some.inj hhead).symm
  refine ⟨hword, by rw [hnone, hnone'], ?_, ?_⟩
  · have hkind : t'.kind = t.kind := congrArg Prod.fst hword
    rw [hkind] at hunread'
    split_ifs at hunread hunread' with ht
    · rw [hunread.2, hunread'.2, hsame]
    · rw [hunread, hunread'] at hsame
      injection hsame with hwords hend
      exact Prod.ext (List.tail_eq_of_cons_eq hwords) hend
  · rw [last_of_token hrun, last_of_token hrun']
    exact congrArg Prod.snd hword

/-- Reading a token of alike streams. -/
theorem token (h : s.Alike s') :
    (∃ t t' u u', Parser.token s = (.ok t, u) ∧ Parser.token s' = (.ok t', u') ∧
      t'.word = t.word ∧ u.Alike u') ∨
    ∃ e e' u u', Parser.token s = (.error e, u) ∧ Parser.token s' = (.error e', u') ∧
      e'.unlocated = e.unlocated := by
  have hsame := h.pushed
  rcases hpushed : s.pushed with - | ⟨t, pushed⟩ <;> rw [hpushed] at hsame
  · have hpushed' : s'.pushed = [] := List.map_eq_nil_iff.mp hsame
    rcases token_ok_or_error s with ⟨t, u, hrun⟩ | ⟨e, u, hrun⟩ <;>
      rcases token_ok_or_error s' with ⟨t', u', hrun'⟩ | ⟨e', u', hrun'⟩
    · exact .inl ⟨t, t', u, u', hrun, hrun', h.of_token hpushed hpushed' hrun hrun'⟩
    · exact absurd (h.unread.symm.trans (unread_of_error hpushed' hrun'))
        (unread_ne_error hpushed hrun _)
    · exact absurd (h.unread.trans (unread_of_error hpushed hrun))
        (unread_ne_error hpushed' hrun' _)
    · have hunread := h.unread
      rw [unread_of_error hpushed hrun, unread_of_error hpushed' hrun'] at hunread
      injection hunread with _ herror
      injection herror with herror
      exact .inr ⟨e, e', u, u', hrun, hrun', herror⟩
  · obtain ⟨t', pushed', hpushed', ht, hrest⟩ := List.map_eq_cons_iff.mp hsame
    refine .inl ⟨t, t', _, _, token_of_pushed hpushed, token_of_pushed hpushed', ht, hrest, ?_, ?_⟩
    · exact (unread_with s' pushed' _).trans (h.unread.trans (unread_with s pushed _).symm)
    · exact congrArg Prod.snd ht

end Alike

end Stream

end Kiln
