import Kiln.Proofs.Parser.Layout

/-!
# Kiln.Proofs.Parser.Termination — reading a text comes to an end

Every function of the parser takes a bound on its depth.  Here it is shown that the bound is no more
than a form: `Stream.depthBound` is enough for any text and any tokens pushed back, whatever larger
bound is given makes no difference, and a result found with a smaller one is the result.  What makes
it enough is that everything that is read takes a word at least: of the words to come before the end,
pushed back ones included, fewer are left.

The lexer needs no bound: every token but the end takes a byte at least, and the end is a fixed point.
-/

namespace Kiln

namespace Step

variable {σ α β : Type}

/-- The second computation ends like the first, unless the first ran out of depth. -/
def Deepens (m m' : Step σ α) : Prop := ∀ s, (m s).1 ≠ .exhausted → m' s = m s

namespace Deepens

variable {m m' m'' : Step σ α}

theorem refl (m : Step σ α) : Deepens m m := fun _ _ => rfl

theorem trans (h : Deepens m m') (h' : Deepens m' m'') : Deepens m m'' := by
  intro s hs
  have heq := h s hs
  rw [h' s (by rwa [heq]), heq]

theorem stuck : Deepens (stuck : Step σ α) m := fun _ hs => absurd rfl hs

theorem bind {f f' : α → Step σ β} (h : Deepens m m') (hf : ∀ a, Deepens (f a) (f' a)) :
    Deepens (m >>= f) (m' >>= f') := by
  intro s hs
  rcases hm : m s with ⟨o, t⟩
  rw [bind_run, hm] at hs
  cases o with
  | ok a =>
    have hm' : m' s = (.ok a, t) := (h s (by rw [hm]; nofun)).trans hm
    rw [bind_run_ok hm, bind_run_ok hm']
    exact hf a t hs
  | error e =>
    have hm' : m' s = (.error e, t) := (h s (by rw [hm]; nofun)).trans hm
    rw [bind_run_error hm, bind_run_error hm']
  | exhausted => exact absurd rfl hs

/-- What comes first is the same. -/
theorem andThen {f f' : α → Step σ β} (hf : ∀ a, Deepens (f a) (f' a)) :
    Deepens (m >>= f) (m >>= f') :=
  (refl m).bind hf

/-- What comes after is the same. -/
theorem before (h : Deepens m m') (f : α → Step σ β) : Deepens (m >>= f) (m' >>= f) :=
  h.bind fun a => refl (f a)

theorem ite {c : Prop} [Decidable c] {q q' : Step σ α} (hm : Deepens m m') (hq : Deepens q q') :
    Deepens (if c then m else q) (if c then m' else q') := by
  split
  · exact hm
  · exact hq

end Deepens

/-- From one bound to the next, from any bound to any larger one. -/
theorem deepens_of_le {p : Nat → Step σ α} (h : ∀ n, Deepens (p n) (p (n + 1))) {n m : Nat}
    (hnm : n ≤ m) : Deepens (p n) (p m) := by
  induction m, hnm using Nat.le_induction with
  | base => exact .refl _
  | succ m _ ih => exact ih.trans (h m)

end Step

namespace Parser

open Step

/-! ## One more level of depth -/

/-- Items with commas between them. -/
theorem deepens_separated {α : Type} {close complaint : String} {item item' : Token → Parser α}
    {rest rest' : Parser (List α)} (hitem : ∀ t, Deepens (item t) (item' t))
    (hrest : Deepens rest rest') :
    Deepens (separated close complaint item rest) (separated close complaint item' rest') := by
  refine .andThen fun t => .ite (.refl _) ((hitem t).bind fun a => .andThen fun separator => ?_)
  exact .ite (.refl _) (.ite (hrest.before _) (.refl _))

/-- One more level of depth makes no difference to the functions that read expressions. -/
structure DeepensExpressions (n : Nat) : Prop where
  expression : ∀ level, Deepens (expressionWithin n level) (expressionWithin (n + 1) level)
  operators : ∀ level left,
    Deepens (operatorsWithin n level left) (operatorsWithin (n + 1) level left)
  operand : Deepens (operandWithin n) (operandWithin (n + 1))
  primary : Deepens (primaryWithin n) (primaryWithin (n + 1))
  arguments : Deepens (argumentsWithin n) (argumentsWithin (n + 1))
  elements : Deepens (elementsWithin n) (elementsWithin (n + 1))
  pairs : Deepens (pairsWithin n) (pairsWithin (n + 1))
  key : ∀ t, Deepens (keyWithin n t) (keyWithin (n + 1) t)

namespace DeepensExpressions

variable {n : Nat} (h : DeepensExpressions n)
include h

theorem operators_succ (level : Nat) (left : Expr) :
    Deepens (operatorsWithin (n + 1) level left) (operatorsWithin (n + 2) level left) := by
  refine .andThen fun t => .ite (.refl _) (.ite ?_ (.ite ?_ ?_))
  · refine .andThen fun name => .ite (.refl _) (.andThen fun next => .ite ?_ ?_)
    · exact h.arguments.bind fun args => .andThen fun call => h.operators level call
    · exact .andThen fun _ => h.operators level _
  · refine .ite (.refl _) ((h.expression 0).bind fun yes => .andThen fun _ => ?_)
    exact (h.expression 0).bind fun no => h.operators level _
  · split
    · exact .refl _
    · refine .ite (.refl _) ((h.expression _).bind fun right => .andThen fun _ => ?_)
      exact h.operators level _

theorem primary_succ : Deepens (primaryWithin (n + 1)) (primaryWithin (n + 2)) := by
  refine .andThen fun t => ?_
  split
  · exact .refl _
  · exact .refl _
  · exact .andThen fun next => .ite (h.arguments.before _) (.refl _)
  · split
    · exact h.operand.before _
    · exact h.operand.before _
    · exact .refl _
  · refine .ite ((h.expression 0).before _) (.ite (h.elements.before _) (.ite ?_ (.refl _)))
    exact h.pairs.before _
  · exact .refl _

theorem succ : DeepensExpressions (n + 1) where
  expression level := h.operand.bind fun left => h.operators level left
  operators := h.operators_succ
  operand := h.primary.before _
  primary := h.primary_succ
  arguments := by
    rw [argumentsWithin_succ, argumentsWithin_succ]
    exact deepens_separated (fun _ => .andThen fun _ => h.expression 0) h.arguments
  elements := by
    rw [elementsWithin_succ, elementsWithin_succ]
    exact deepens_separated (fun _ => .andThen fun _ => h.expression 0) h.elements
  pairs := by
    rw [pairsWithin_succ, pairsWithin_succ]
    refine deepens_separated (fun t => ?_) h.pairs
    exact (h.key t).bind fun key => .andThen fun _ => (h.expression 0).before _
  key t := .ite (.refl _) (.andThen fun _ => h.expression 0)

end DeepensExpressions

theorem deepensExpressions : ∀ n, DeepensExpressions n
  | 0 => ⟨fun _ => .stuck, fun _ _ => .stuck, .stuck, .stuck, .stuck, .stuck, .stuck, fun _ => .stuck⟩
  | n + 1 => (deepensExpressions n).succ

theorem deepens_expression (n level : Nat) :
    Deepens (expressionWithin n level) (expressionWithin (n + 1) level) :=
  (deepensExpressions n).expression level

theorem deepens_clauseWithin (n : Nat) (stop : String) :
    Deepens (clauseWithin n stop) (clauseWithin (n + 1) stop) :=
  .andThen fun _ => .andThen fun _ => .ite (.refl _) ((deepens_expression n 0).before _)

/-- An expression and the word after it. -/
theorem deepens_expressionExpect {α : Type} {n : Nat} {text complaint : String}
    {f f' : Expr → Parser α} (h : ∀ e, Deepens (f e) (f' e)) :
    Deepens (do let e ← expressionWithin n 0; let _ ← expect text complaint; f e)
      (do let e ← expressionWithin (n + 1) 0; let _ ← expect text complaint; f' e) :=
  (deepens_expression n 0).bind fun e => .andThen fun _ => h e

section Statements

variable {n : Nat} (hstmt : Deepens (statementWithin n) (statementWithin (n + 1)))
  (hblock : Deepens (blockWithin n) (blockWithin (n + 1)))
include hstmt hblock

theorem deepens_block_succ : Deepens (blockWithin (n + 1)) (blockWithin (n + 2)) :=
  .andThen fun _ => .ite (.refl _) (.ite (.refl _) (.andThen fun _ =>
    hstmt.bind fun _ => hblock.before _))

theorem deepens_statement_succ : Deepens (statementWithin (n + 1)) (statementWithin (n + 2)) := by
  refine .andThen fun t => .andThen fun loc => ?_
  generalize keyword t = word
  split
  · exact hblock.before _
  · refine .andThen fun _ => deepens_expressionExpect fun cond => hstmt.bind fun yes => ?_
    exact .andThen fun next => .ite (hstmt.before _) (.refl _)
  · refine .andThen fun _ => .andThen fun head => ?_
    cases head with
    | some name => exact deepens_expressionExpect fun items => hstmt.before _
    | none =>
      refine (deepens_clauseWithin n ";").bind fun init => .andThen fun _ => ?_
      refine (deepens_clauseWithin n ";").bind fun cond => .andThen fun _ => ?_
      exact (deepens_clauseWithin n ")").bind fun next => .andThen fun _ => hstmt.before _
  · exact .andThen fun _ => deepens_expressionExpect fun cond => hstmt.before _
  · exact .refl _
  · exact .refl _
  · exact (deepens_clauseWithin n ";").before _
  · exact .andThen fun _ => deepens_expressionExpect fun paths => hstmt.before _
  · exact (deepens_expression n 0).before _
  · exact (deepens_expression n 0).before _
  · exact .andThen fun _ => (deepens_expression n 0).before _

end Statements

theorem deepens_statement_block : ∀ n, Deepens (statementWithin n) (statementWithin (n + 1)) ∧
    Deepens (blockWithin n) (blockWithin (n + 1))
  | 0 => ⟨.stuck, .stuck⟩
  | n + 1 =>
    have ih := deepens_statement_block n
    ⟨deepens_statement_succ ih.1 ih.2, deepens_block_succ ih.1 ih.2⟩

theorem deepens_parametersWithin : ∀ n, Deepens (parametersWithin n) (parametersWithin (n + 1))
  | 0 => .stuck
  | n + 1 => .andThen fun _ => .ite (.refl _) (.ite (.refl _) (.andThen fun _ =>
      .ite (.refl _) (.ite ((deepens_parametersWithin n).before _) (.refl _))))

theorem deepens_definitionWithin (n : Nat) (isTarget : Bool) (known : Table Function) :
    Deepens (definitionWithin n isTarget known) (definitionWithin (n + 1) isTarget known) :=
  .andThen fun _ => .ite (.refl _) (.andThen fun _ => (deepens_parametersWithin n).bind fun _ =>
    (deepens_statement_block n).1.before _)

theorem deepens_unitsWithin (path : String) :
    ∀ n known, Deepens (unitsWithin path n known) (unitsWithin path (n + 1) known)
  | 0, _ => .stuck
  | n + 1, known => .andThen fun _ => .ite (.refl _) (.ite
      ((deepens_definitionWithin n _ known).bind fun _ => (deepens_unitsWithin path n _).before _)
      (.andThen fun _ => (deepens_statement_block n).1.bind fun _ =>
        (deepens_unitsWithin path n known).before _))

end Parser

/-! ## The bound is large enough -/

namespace Stream

theorem Alike.refl (s : Stream) : s.Alike s := ⟨rfl, rfl, rfl⟩

/-- Every word to come before the end takes a character or was pushed back. -/
theorem count_le_length (s : Stream) : s.count ≤ s.length := by
  have hunread := countP_words_le (s := { s with pushed := [] })
  have hpushed := List.countP_le_length (p := fun w : TokenKind × String => w.1 ≠ .eof)
    (l := s.pushed.map Token.word)
  rw [List.length_map] at hpushed
  simp only [length, List.length_nil] at hunread ⊢
  rw [count, upcoming, List.countP_append]
  have hsame : s.unread.1 = ({ s with pushed := [] } : Stream).words.1 := rfl
  rw [hsame]
  omega

theorem count_le_depthBound (s : Stream) : 8 * s.count + 8 ≤ s.depthBound :=
  Nat.add_le_add_right (Nat.mul_le_mul_left 8 s.count_le_length) 8

end Stream

namespace Parser

open Step

variable {α : Type}

/-- From `s` on the computation comes to an end, with a value or with an error: the bound that the
text supplies is large enough, and no larger one makes a difference. -/
structure Ends (p : Nat → Parser α) (s : Stream) : Prop where
  settled : (∃ a t, p s.depthBound s = (.ok a, t)) ∨ ∃ e t, p s.depthBound s = (.error e, t)
  stable : ∀ n, s.depthBound ≤ n → p n s = p s.depthBound s

/-- Whatever the bound, a value that is read from `s` takes a word before the end at least. -/
def Consumes (p : Nat → Parser α) (s : Stream) : Prop :=
  ∀ n a t, p n s = (.ok a, t) → t.count < s.count

theorem ends_of_twins {p : Nat → Parser α} {s : Stream} {Q : Nat → α → α → Prop}
    (hdeepens : ∀ n, Deepens (p n) (p (n + 1)))
    (htwins : Twins s.count (p s.depthBound) (p s.depthBound) Q) : Ends p s := by
  have hsettled : (∃ a t, p s.depthBound s = (.ok a, t)) ∨
      ∃ e t, p s.depthBound s = (.error e, t) := by
    rcases htwins s s (.refl s) rfl with ⟨a, -, t, -, hrun, -⟩ | ⟨e, -, t, -, hrun, -⟩
    · exact .inl ⟨a, t, hrun⟩
    · exact .inr ⟨e, t, hrun⟩
  refine ⟨hsettled, fun n hn => deepens_of_le hdeepens hn s ?_⟩
  rcases hsettled with ⟨a, t, hrun⟩ | ⟨e, t, hrun⟩
  · rw [hrun]
    nofun
  · rw [hrun]
    nofun

/-- A value found with any bound is found with one that is large enough, too. -/
theorem consumes_of_twins {p : Nat → Parser α} {s : Stream} {R : α → α → Prop}
    (hdeepens : ∀ n, Deepens (p n) (p (n + 1)))
    (htwins : ∀ n, s.depthBound ≤ n →
      Twins s.count (p n) (p n) fun j a a' => j < s.count ∧ R a a') : Consumes p s := by
  intro n a t hrun
  have hlarge : p (max n s.depthBound) s = (.ok a, t) := by
    rw [deepens_of_le hdeepens (Nat.le_max_left n s.depthBound) s (by rw [hrun]; nofun), hrun]
  rcases htwins _ (Nat.le_max_right n s.depthBound) s s (.refl s) rfl with
    ⟨b, -, u, -, hends, -, -, hcount, -⟩ | ⟨e, -, u, -, hends, -⟩
  · cases hlarge.symm.trans hends
    exact hcount
  · cases hlarge.symm.trans hends

section Functions

variable (s : Stream)

theorem ends_expression (level : Nat) :
    Ends (expressionWithin · level) s ∧ Consumes (expressionWithin · level) s := by
  have hbound := s.count_le_depthBound
  have htwins (n : Nat) (hn : s.depthBound ≤ n) :=
    (twinsWithin n n).expression (k := s.count) level (by omega)
  have hdeepens (n : Nat) := (deepensExpressions n).expression level
  exact ⟨ends_of_twins hdeepens (htwins _ (Nat.le_refl _)), consumes_of_twins hdeepens htwins⟩

theorem ends_operand : Ends operandWithin s ∧ Consumes operandWithin s := by
  have hbound := s.count_le_depthBound
  have htwins (n : Nat) (hn : s.depthBound ≤ n) :=
    (twinsWithin n n).operand (k := s.count) (by omega)
  have hdeepens (n : Nat) := (deepensExpressions n).operand
  exact ⟨ends_of_twins hdeepens (htwins _ (Nat.le_refl _)), consumes_of_twins hdeepens htwins⟩

theorem ends_primary : Ends primaryWithin s ∧ Consumes primaryWithin s := by
  have hbound := s.count_le_depthBound
  have htwins (n : Nat) (hn : s.depthBound ≤ n) :=
    (twinsWithin n n).primary (k := s.count) (by omega)
  have hdeepens (n : Nat) := (deepensExpressions n).primary
  exact ⟨ends_of_twins hdeepens (htwins _ (Nat.le_refl _)), consumes_of_twins hdeepens htwins⟩

theorem ends_statement : Ends statementWithin s ∧ Consumes statementWithin s := by
  have hbound := s.count_le_depthBound
  have htwins (n : Nat) (hn : s.depthBound ≤ n) :=
    twins_statement (k := s.count) (n := n) (m := n) (by omega)
  have hdeepens (n : Nat) := (deepens_statement_block n).1
  exact ⟨ends_of_twins hdeepens (htwins _ (Nat.le_refl _)), consumes_of_twins hdeepens htwins⟩

theorem ends_units (path : String) (known : Table Function) :
    Ends (unitsWithin path · known) s := by
  have hbound := s.count_le_depthBound
  exact ends_of_twins (fun n => deepens_unitsWithin path n known)
    (twins_unitsWithin path path (k := s.count) rfl (by omega))

end Functions

/-! ## The lexer -/

/-- The end of the text is read over and over, and nothing changes. -/
theorem token_eof {s t : Stream} {e : Token} (hpushed : s.pushed = [])
    (h : token s = (.ok e, t)) (he : e.kind = .eof) : token t = (.ok e, t) := by
  rw [token, hpushed] at h
  rcases hscan : scan s with ⟨o, u⟩
  rw [hscan] at h
  cases o with
  | ok a =>
    cases h
    have hagain : scan { u with last := e.text } = (.ok e, { u with last := e.text }) := by
      rw [scan_with_last, scan_eof hscan he]
    exact @token_of_scan e _ { u with last := e.text } ((pushed_of_scan hscan).trans hpushed) hagain
  | error e' => cases h
  | exhausted => cases h

/-- From a text on, with nothing pushed back: tokens that are not the end, no more than there are
characters, and then the end, for ever, or an error. -/
theorem tokensWithin_ends {n : Nat} {s : Stream} (hpushed : s.pushed = []) (hn : s.length < n) :
    ∃ front t, (∀ u ∈ front, u.kind ≠ .eof) ∧ front.length ≤ s.length ∧
      ((∃ e, tokensWithin n s = (front ++ [e], .ok (), t) ∧ e.kind = .eof ∧ token t = (.ok e, t)) ∨
        ∃ e, tokensWithin n s = (front, .error e, t)) := by
  induction n generalizing s with
  | zero => exact absurd hn (Nat.not_lt_zero _)
  | succ n ih =>
    rcases token_ok_or_error s with ⟨u, t, hrun⟩ | ⟨e, t, hrun⟩
    · by_cases hu : u.kind = .eof
      · refine ⟨[], t, by simp, Nat.zero_le _, .inl ⟨u, ?_, hu, token_eof hpushed hrun hu⟩⟩
        simp [tokensWithin, hrun, hu]
      · have hshorter := token_shorter hrun hu
        have hnone := (Stream.unread_of_ok hpushed hrun).1
        obtain ⟨front, v, hfront, hlength, hend⟩ := ih hnone (by omega)
        refine ⟨u :: front, v, ?_, ?_, ?_⟩
        · simpa [hu] using hfront
        · rw [List.length_cons]
          omega
        · refine hend.imp ?_ ?_
          · rintro ⟨e, htokens, he, hfixed⟩
            exact ⟨e, by simp [tokensWithin, hrun, hu, htokens], he, hfixed⟩
          · rintro ⟨e, htokens⟩
            exact ⟨e, by simp [tokensWithin, hrun, hu, htokens]⟩
    · exact ⟨[], t, by simp, Nat.zero_le _, .inr ⟨e, by simp [tokensWithin, hrun]⟩⟩

end Parser

open Kiln.Parser

/-- Every character takes a byte. -/
theorem Stream.length_ofText_le (text file : String) :
    (ofText text file).length ≤ text.utf8ByteSize := by
  have hbytes (cs : List Char) : cs.length ≤ (String.ofList cs).utf8ByteSize := by
    induction cs with
    | nil => exact Nat.zero_le _
    | cons c cs ih =>
      have hc := c.utf8Size_pos
      rw [String.ofList_cons, String.utf8ByteSize_append, String.utf8ByteSize_singleton,
        List.length_cons]
      omega
  have htext := hbytes text.toList
  rw [String.ofList_toList] at htext
  exact htext

/-- Reading comes to an end, with a value or an error: a module from any text, and a statement, an
expression at any level, an operand and a primary from any place in a text, whatever was pushed back.
Everything that is read leaves fewer words to come before the end.  The tokens of a text are no more
than its bytes, and then come its end, over and over, or an error. -/
theorem reading_ends (text file : String) (s : Stream) (level : Nat) :
    (Ends (unitsWithin file · .empty) (.ofText text file) ∧
      ((∃ m, Module.parse text file = .ok m) ∨ ∃ e, Module.parse text file = .error e)) ∧
    (Ends statementWithin s ∧ Consumes statementWithin s) ∧
    (Ends (expressionWithin · level) s ∧ Consumes (expressionWithin · level) s) ∧
    (Ends operandWithin s ∧ Consumes operandWithin s) ∧
    (Ends primaryWithin s ∧ Consumes primaryWithin s) ∧
    ∃ front t, (∀ u ∈ front, u.kind ≠ .eof) ∧ front.length ≤ text.utf8ByteSize ∧
      ((∃ e, (Stream.ofText text file).tokens = (front ++ [e], .ok (), t) ∧ e.kind = .eof ∧
          token t = (.ok e, t)) ∨
        ∃ e, (Stream.ofText text file).tokens = (front, .error e, t)) := by
  have hunits := ends_units (.ofText text file) file .empty
  refine ⟨⟨hunits, ?_⟩, ends_statement s, ends_expression s level, ends_operand s, ends_primary s, ?_⟩
  · rcases hunits.settled with ⟨m, t, hrun⟩ | ⟨e, t, hrun⟩
    · exact .inl ⟨m, by rw [Module.parse, hrun]⟩
    · exact .inr ⟨e, by rw [Module.parse, hrun]⟩
  · obtain ⟨front, t, hfront, hlength, hend⟩ :=
      tokensWithin_ends (s := .ofText text file) rfl (Nat.lt_succ_self _)
    exact ⟨front, t, hfront, Nat.le_trans hlength (Stream.length_ofText_le text file), hend⟩

end Kiln
