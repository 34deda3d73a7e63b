import Mathlib
import Kiln.Proofs.Parser.Statements
import Kiln.Proofs.Parser.Words

/-!
# Kiln.Proofs.Parser.StmtRoundTrip — printed statements read back

The words of a statement, with every expression in parentheses, and the text they make with a blank
after each.  Reading the text gives a printable statement back, up to locations, and stops right
behind it.  As for expressions, the proof is about the words that come next, by induction on the
statement; what it needs to know of the word behind is that no `else` follows an open branch.
-/

namespace Kiln

open Token

/-! ## Words -/

namespace Stmt

/-- An optional expression, in parentheses. -/
def clauseWords (wrapped : Bool) : Option Expr → List Token
  | none => []
  | some e => bracketed (e.words wrapped)

mutual

/-- The words of a statement.  Its expressions stand in parentheses, and every loop is a `for`. -/
def words (wrapped : Bool) : Stmt → List Token
  | .expr _ e => bracketed (e.words wrapped) ++ [.punct ";"]
  | .block _ ss => .punct "\x7b" :: (wordsOfAll wrapped ss ++ [.punct "\x7d"])
  | .branch _ cond yes none =>
    .name "if" :: (bracketed (bracketed (cond.words wrapped)) ++ words wrapped yes)
  | .branch _ cond yes (some no) =>
    .name "if" :: (bracketed (bracketed (cond.words wrapped)) ++
      (words wrapped yes ++ .name "else" :: words wrapped no))
  | .loop _ init cond next body =>
    .name "for" :: (bracketed (clauseWords wrapped init ++ .punct ";" ::
      (clauseWords wrapped cond ++ .punct ";" :: clauseWords wrapped next)) ++ words wrapped body)
  | .foreach _ name items body =>
    .name "for" :: (bracketed (.name name :: .name "in" :: bracketed (items.words wrapped)) ++
      words wrapped body)
  | .breakStmt _ => [.name "break", .punct ";"]
  | .continueStmt _ => [.name "continue", .punct ";"]
  | .returnStmt _ value => .name "return" :: (clauseWords wrapped value ++ [.punct ";"])
  | .depends _ paths action =>
    .name "depends" :: (bracketed (bracketed (paths.words wrapped)) ++ words wrapped action)
  | .includeStmt _ path => .name "include" :: (bracketed (path.words wrapped) ++ [.punct ";"])
  | .usingStmt _ path => .name "using" :: (bracketed (path.words wrapped) ++ [.punct ";"])

/-- The words of the statements of a list. -/
def wordsOfAll (wrapped : Bool) : List Stmt → List Token
  | [] => []
  | s :: rest => words wrapped s ++ wordsOfAll wrapped rest

end

end Stmt

namespace Parser

/-! ## What parsers read -/

variable {α β : Type} {p : Parser α} {P : α → Prop} {Q : β → Prop} {a : α} {t : Token}
  {before between after : List Token}

/-- Where the words `before` come next, `p` yields a value with `P` and leaves the words `after`. -/
def ReadsTo (p : Parser α) (P : α → Prop) (before after : List Token) : Prop :=
  ∀ stop s, Stream.Ahead stop before s →
    ∃ a s', p s = (.ok a, s') ∧ P a ∧ Stream.Ahead stop after s'

theorem Reads.readsTo (h : Reads p a before after) (ha : P a) : ReadsTo p P before after := by
  intro stop s hs
  obtain ⟨s', hrun, hs'⟩ := h stop s hs
  exact ⟨a, s', hrun, ha, hs'⟩

theorem ReadsTo.bind {f : α → Parser β} (hp : ReadsTo p P before between)
    (hf : ∀ a, P a → ReadsTo (f a) Q between after) : ReadsTo (p >>= f) Q before after := by
  intro stop s hs
  obtain ⟨a, s', hrun, ha, hs'⟩ := hp stop s hs
  rw [Step.bind_run_ok hrun]
  exact hf a ha stop s' hs'

theorem Reads.andThen {f : α → Parser β} (hp : Reads p a before between)
    (hf : ReadsTo (f a) Q between after) : ReadsTo (p >>= f) Q before after :=
  (hp.readsTo (P := fun b => b = a) rfl).bind fun _ hb => hb ▸ hf

theorem readsTo_look {γ : Type} {g : Stream → γ} {f : γ → Parser β}
    (h : ∀ c, ReadsTo (f c) Q before after) : ReadsTo (Step.look g >>= f) Q before after :=
  fun stop s hs => h (g s) stop s hs

theorem readsTo_pure {ts : List Token} (ha : P a) : ReadsTo (pure a) P ts ts :=
  (reads_pure a ts).readsTo ha

/-! ## Statements -/

/-- The first word neither ends a block nor goes on with a branch. -/
def StartsStmt (ws : List Token) : Prop :=
  ∃ t us, ws = t :: us ∧ t.kind ≠ .eof ∧ ∀ text ∈ ["\x7d", "else"], t.reads text = false

/-- The statements are the same up to locations. -/
abbrev Like (s : Stmt) : Stmt → Prop := fun a => a.unlocated = s.unlocated

/-- The words read as the statement, up to locations, wherever no `else` follows that the statement
would take. -/
structure ReadsAsStmt (s : Stmt) (ws : List Token) : Prop where
  starts : StartsStmt ws
  reads : ∀ {n : Nat}, 8 * ws.length ≤ n → ∀ {t : Token},
    (s.endsOpen = true → t.reads "else" = false) → ∀ ts,
      ReadsTo (statementWithin n) (Like s) (ws ++ t :: ts) (t :: ts)

/-- The words read as the statements of a block, up to locations, before the closing brace. -/
structure ReadsAsBlock (ss : List Stmt) (ws : List Token) : Prop where
  next : ∀ ts, ∃ t us, ws ++ .punct "\x7d" :: ts = t :: us ∧ t.reads "else" = false
  reads : ∀ {n : Nat}, 8 * ws.length ≤ n → ∀ ts,
    ReadsTo (blockWithin (n + 1)) (fun as => Stmt.unlocatedAll as = Stmt.unlocatedAll ss)
      (ws ++ .punct "\x7d" :: ts) ts

variable {n : Nat} {s : Stmt} {e : Expr} {ws us ts : List Token}

theorem ReadsAs.bracketed_zero (h : ReadsAs e ws) (hn : 8 * ws.length + 3 ≤ n) (ht : t ∈ ends)
    (ts : List Token) :
    Reads (expressionWithin n 0) e (Token.bracketed ws ++ t :: ts) (t :: ts) := by
  obtain ⟨k, rfl⟩ : ∃ k, n = k + 3 := ⟨n - 3, by omega⟩
  exact h.bracketed (by omega) ht ts

/-- An expression in the parentheses of a keyword. -/
theorem ReadsAs.condition (h : ReadsAs e ws) (hn : 8 * ws.length + 3 ≤ n) {c c' : String}
    {f : Expr → Parser β} (hf : ReadsTo (f e) Q ts after) :
    ReadsTo (do
      let _ ← expect "(" c
      let e ← expressionWithin n 0
      let _ ← expect ")" c'
      f e) Q (Token.bracketed (Token.bracketed ws) ++ ts) after := by
  rw [bracketed_append]
  refine (reads_expect rfl).andThen ?_
  exact (h.bracketed_zero hn (by decide) ts).andThen ((reads_expect rfl).andThen hf)

/-- An expression with a semicolon. -/
theorem ReadsAs.semicolon (h : ReadsAs e ws) (hn : 8 * ws.length + 3 ≤ n) {c : String}
    {f : Expr → Parser β} (hf : ReadsTo (f e) Q ts after) :
    ReadsTo (do
      let e ← expressionWithin n 0
      let _ ← expect ";" c
      f e) Q (Token.bracketed ws ++ .punct ";" :: ts) after :=
  (h.bracketed_zero hn (by decide) ts).andThen ((reads_expect rfl).andThen hf)

/-- A statement that starts with a keyword. -/
theorem readsAsStmt_keyword {word : String}
    (hfirst : ∀ text ∈ ["\x7d", "else"], (name word).reads text = false)
    (h : ∀ {k}, 8 * us.length + 7 ≤ k → ∀ {t : Token}, (s.endsOpen = true → t.reads "else" = false) →
      ∀ ts, ReadsTo (statementWithin (k + 1)) (Like s) (.name word :: (us ++ t :: ts)) (t :: ts)) :
    ReadsAsStmt s (.name word :: us) := by
  refine ⟨⟨_, _, rfl, nofun, hfirst⟩, fun {n} hn t ht ts => ?_⟩
  rw [List.length_cons] at hn
  obtain ⟨k, rfl⟩ : ∃ k, n = k + 1 := ⟨n - 1, by omega⟩
  exact h (by omega) ht ts

theorem ReadsAs.exprStmt (h : ReadsAs e ws) (loc : Location) :
    ReadsAsStmt (.expr loc e) (Token.bracketed ws ++ [.punct ";"]) := by
  refine ⟨⟨_, _, rfl, by decide, by decide⟩, fun {n} hn t _ ts => ?_⟩
  rw [List.length_append, length_bracketed] at hn
  obtain ⟨k, rfl⟩ : ∃ k, n = k + 1 := ⟨n - 1, by omega⟩
  unfold statementWithin
  rw [List.append_assoc]
  refine (reads_token (.punct "(") _).andThen (readsTo_look fun loc => ?_)
  refine (reads_pushBack _ _).andThen ?_
  exact h.semicolon (by omega) (readsTo_pure rfl)

theorem ReadsAsStmt.branch {yes : Stmt} (h : ReadsAs e ws) (hyes : ReadsAsStmt yes us)
    (loc : Location) :
    ReadsAsStmt (.branch loc e yes none)
      (.name "if" :: (Token.bracketed (Token.bracketed ws) ++ us)) := by
  refine readsAsStmt_keyword (by decide) fun {k} hk t ht ts => ?_
  simp only [List.length_append, length_bracketed] at hk
  unfold statementWithin
  rw [List.append_assoc]
  refine (reads_token (.name "if") _).andThen (readsTo_look fun loc => ?_)
  refine h.condition (by omega) ?_
  refine (hyes.reads (by omega) (fun _ => ht rfl) ts).bind fun yes' hyes' => ?_
  refine (reads_token t ts).andThen ?_
  rw [ht rfl]
  refine (reads_giveBack t _).readsTo ?_
  simp only [Like, Stmt.unlocated, hyes']

theorem ReadsAsStmt.branch_else {yes no : Stmt} {vs : List Token} (h : ReadsAs e ws)
    (hyes : ReadsAsStmt yes us) (hclosed : yes.endsOpen = false) (hno : ReadsAsStmt no vs)
    (loc : Location) :
    ReadsAsStmt (.branch loc e yes (some no))
      (.name "if" :: (bracketed (bracketed ws) ++ (us ++ .name "else" :: vs))) := by
  refine readsAsStmt_keyword (by decide) fun {k} hk t ht ts => ?_
  simp only [List.length_append, List.length_cons, length_bracketed] at hk
  unfold statementWithin
  rw [List.append_assoc, List.append_assoc, List.cons_append]
  refine (reads_token (.name "if") _).andThen (readsTo_look fun loc => ?_)
  refine h.condition (by omega) ?_
  refine (hyes.reads (by omega) (by simp [hclosed]) _).bind fun yes' hyes' => ?_
  refine (reads_token (.name "else") _).andThen ?_
  refine (hno.reads (by omega) ht ts).bind fun no' hno' => readsTo_pure ?_
  simp only [Like, Stmt.unlocated, hyes', hno']

theorem ReadsAsStmt.depends {action : Stmt} (h : ReadsAs e ws) (haction : ReadsAsStmt action us)
    (loc : Location) :
    ReadsAsStmt (.depends loc e action)
      (.name "depends" :: (bracketed (bracketed ws) ++ us)) := by
  refine readsAsStmt_keyword (by decide) fun {k} hk t ht ts => ?_
  simp only [List.length_append, length_bracketed] at hk
  unfold statementWithin
  rw [List.append_assoc]
  refine (reads_token (.name "depends") _).andThen (readsTo_look fun loc => ?_)
  refine h.condition (by omega) ?_
  refine (haction.reads (by omega) ht ts).bind fun action' haction' => readsTo_pure ?_
  simp only [Like, Stmt.unlocated, haction']

theorem ReadsAsStmt.foreach {body : Stmt} {x : String} (h : ReadsAs e ws)
    (hbody : ReadsAsStmt body us) (loc : Location) :
    ReadsAsStmt (.foreach loc x e body)
      (.name "for" :: (bracketed (.name x :: .name "in" :: bracketed ws) ++ us)) := by
  refine readsAsStmt_keyword (by decide) fun {k} hk t ht ts => ?_
  simp only [List.length_append, List.length_cons, length_bracketed] at hk
  unfold statementWithin
  rw [List.append_assoc, bracketed_append]
  refine (reads_token (.name "for") _).andThen (readsTo_look fun loc => ?_)
  refine (reads_expect rfl).andThen ?_
  refine Reads.andThen (a := some x) ((reads_token (.name x) _).bind
    ((reads_token (.name "in") _).bind (reads_pure _ _))) ?_
  refine (h.bracketed_zero (by omega) (by decide) _).andThen ((reads_expect rfl).andThen ?_)
  refine (hbody.reads (by omega) ht ts).bind fun body' hbody' => readsTo_pure ?_
  simp only [Like, Stmt.unlocated, hbody']

/-- An optional expression and the word behind it. -/
theorem readsTo_clause {wrapped : Bool} {clause : Option Expr}
    (h : ∀ e ∈ clause, ReadsAs e (e.words wrapped))
    (hn : 8 * (Stmt.clauseWords wrapped clause).length ≤ n) {stop complaint : String}
    (hstop : stop ∈ [";", ")"]) {f : Option Expr → Parser β} (hf : ReadsTo (f clause) Q ts after) :
    ReadsTo (do
      let c ← clauseWithin n stop
      let _ ← expect stop complaint
      f c) Q (Stmt.clauseWords wrapped clause ++ .punct stop :: ts) after := by
  have hends : punct stop ∈ ends := (by decide : ∀ c ∈ [";", ")"], punct c ∈ ends) stop hstop
  have hself : (punct stop).reads stop = true :=
    (by decide : ∀ c ∈ [";", ")"], (punct c).reads c = true) stop hstop
  have hopen : (punct "(").reads stop = false :=
    (by decide : ∀ c ∈ [";", ")"], (punct "(").reads c = false) stop hstop
  have hread : Reads (clauseWithin n stop) clause
      (Stmt.clauseWords wrapped clause ++ .punct stop :: ts) (.punct stop :: ts) := by
    unfold clauseWithin
    cases clause with
    | none =>
      refine (reads_token (.punct stop) ts).bind ((reads_pushBack _ ts).bind ?_)
      rw [hself]
      exact reads_pure none _
    | some e =>
      rw [Stmt.clauseWords, length_bracketed] at hn
      have hexpression := (h e rfl).bracketed_zero (n := n) (by omega) hends ts
      refine (reads_token (.punct "(") _).bind ((reads_pushBack (.punct "(") _).bind ?_)
      rw [hopen]
      exact hexpression.bind (reads_pure (some e) _)
  exact hread.andThen ((reads_expect hself).andThen hf)

/-- A loop with clauses does not start like one over a collection. -/
theorem reads_foreachHead_clause (wrapped : Bool) (clause : Option Expr) (text : String)
    (ts : List Token) :
    Reads foreachHead none (Stmt.clauseWords wrapped clause ++ .punct text :: ts)
      (Stmt.clauseWords wrapped clause ++ .punct text :: ts) := by
  unfold foreachHead
  cases clause with
  | none => exact (reads_token (.punct text) _).bind (reads_giveBack _ none)
  | some e => exact (reads_token (.punct "(") _).bind (reads_giveBack _ none)

theorem ReadsAsStmt.loop {wrapped : Bool} {init cond next : Option Expr} {body : Stmt}
    (hinit : ∀ e ∈ init, ReadsAs e (e.words wrapped))
    (hcond : ∀ e ∈ cond, ReadsAs e (e.words wrapped))
    (hnext : ∀ e ∈ next, ReadsAs e (e.words wrapped)) (hbody : ReadsAsStmt body us)
    (loc : Location) :
    ReadsAsStmt (.loop loc init cond next body)
      (.name "for" :: (bracketed (Stmt.clauseWords wrapped init ++ .punct ";" ::
        (Stmt.clauseWords wrapped cond ++ .punct ";" :: Stmt.clauseWords wrapped next)) ++ us)) := by
  refine readsAsStmt_keyword (by decide) fun {k} hk t ht ts => ?_
  simp only [List.length_append, List.length_cons, length_bracketed] at hk
  unfold statementWithin
  simp only [List.append_assoc, List.cons_append, bracketed_append]
  refine (reads_token (.name "for") _).andThen (readsTo_look fun loc => ?_)
  refine (reads_expect rfl).andThen ?_
  refine (reads_foreachHead_clause wrapped init ";" _).andThen ?_
  refine readsTo_clause hinit (by omega) (by decide) ?_
  refine readsTo_clause hcond (by omega) (by decide) ?_
  refine readsTo_clause hnext (by omega) (by decide) ?_
  refine (hbody.reads (by omega) ht ts).bind fun body' hbody' => readsTo_pure ?_
  simp only [Like, Stmt.unlocated, hbody']

theorem readsAsStmt_return {wrapped : Bool} {value : Option Expr}
    (h : ∀ e ∈ value, ReadsAs e (e.words wrapped)) (loc : Location) :
    ReadsAsStmt (.returnStmt loc value)
      (.name "return" :: (Stmt.clauseWords wrapped value ++ [.punct ";"])) := by
  refine readsAsStmt_keyword (by decide) fun {k} hk t _ ts => ?_
  simp only [List.length_append, List.length_cons] at hk
  unfold statementWithin
  rw [List.append_assoc]
  refine (reads_token (.name "return") _).andThen (readsTo_look fun loc => ?_)
  exact readsTo_clause h (by omega) (by decide) (readsTo_pure rfl)

theorem readsAsStmt_break (loc : Location) :
    ReadsAsStmt (.breakStmt loc) [.name "break", .punct ";"] := by
  refine readsAsStmt_keyword (by decide) fun {k} _ t _ ts => ?_
  unfold statementWithin
  refine (reads_token (.name "break") _).andThen (readsTo_look fun loc => ?_)
  exact (reads_expect rfl).andThen (readsTo_pure rfl)

theorem readsAsStmt_continue (loc : Location) :
    ReadsAsStmt (.continueStmt loc) [.name "continue", .punct ";"] := by
  refine readsAsStmt_keyword (by decide) fun {k} _ t _ ts => ?_
  unfold statementWithin
  refine (reads_token (.name "continue") _).andThen (readsTo_look fun loc => ?_)
  exact (reads_expect rfl).andThen (readsTo_pure rfl)

theorem ReadsAs.includeStmt (h : ReadsAs e ws) (loc : Location) :
    ReadsAsStmt (.includeStmt loc e)
      (.name "include" :: (Token.bracketed ws ++ [.punct ";"])) := by
  refine readsAsStmt_keyword (by decide) fun {k} hk t _ ts => ?_
  simp only [List.length_append, List.length_cons, length_bracketed] at hk
  unfold statementWithin
  rw [List.append_assoc]
  refine (reads_token (.name "include") _).andThen (readsTo_look fun loc => ?_)
  exact h.semicolon (by omega) (readsTo_pure rfl)

theorem ReadsAs.usingStmt (h : ReadsAs e ws) (loc : Location) :
    ReadsAsStmt (.usingStmt loc e) (.name "using" :: (Token.bracketed ws ++ [.punct ";"])) := by
  refine readsAsStmt_keyword (by decide) fun {k} hk t _ ts => ?_
  simp only [List.length_append, List.length_cons, length_bracketed] at hk
  unfold statementWithin
  rw [List.append_assoc]
  refine (reads_token (.name "using") _).andThen (readsTo_look fun loc => ?_)
  exact h.semicolon (by omega) (readsTo_pure rfl)

/-! ## Blocks -/

theorem readsAsBlock_nil : ReadsAsBlock [] [] := by
  refine ⟨fun ts => ⟨_, ts, rfl, by decide⟩, fun {n} _ ts => ?_⟩
  unfold blockWithin
  exact (reads_token (.punct "\x7d") ts).andThen (readsTo_pure rfl)

theorem ReadsAsStmt.cons {ss : List Stmt} (h : ReadsAsStmt s ws) (hrest : ReadsAsBlock ss us) :
    ReadsAsBlock (s :: ss) (ws ++ us) := by
  obtain ⟨t, vs, rfl, heof, hfirst⟩ := h.starts
  refine ⟨fun ts => ⟨t, _, rfl, hfirst _ (by decide)⟩, fun {n} hn ts => ?_⟩
  obtain ⟨u, xs, hnext, helse⟩ := hrest.next ts
  have hlength : (t :: vs).length = vs.length + 1 := rfl
  rw [List.length_append] at hn
  obtain ⟨k, rfl⟩ : ∃ k, n = k + 1 := ⟨n - 1, by omega⟩
  have hread := h.reads (n := k + 1) (by omega) (fun _ => helse) xs
  rw [← hnext] at hread
  unfold blockWithin
  rw [List.append_assoc]
  refine (reads_token t _).andThen ?_
  rw [hfirst _ (by decide), if_neg (by decide), if_neg heof]
  refine (reads_pushBack t _).andThen (hread.bind fun s' hs' => ?_)
  refine (hrest.reads (by omega) ts).bind fun ss' hss' => readsTo_pure ?_
  simp only [Stmt.unlocatedAll, hs', hss']

theorem ReadsAsBlock.block {ss : List Stmt} (h : ReadsAsBlock ss ws) (loc : Location) :
    ReadsAsStmt (.block loc ss) (.punct "\x7b" :: (ws ++ [.punct "\x7d"])) := by
  refine ⟨⟨_, _, rfl, by decide, by decide⟩, fun {n} hn t _ ts => ?_⟩
  simp only [List.length_append, List.length_cons] at hn
  obtain ⟨k, rfl⟩ : ∃ k, n = k + 2 := ⟨n - 2, by omega⟩
  unfold statementWithin
  rw [List.cons_append, List.append_assoc]
  refine (reads_token (.punct "\x7b") _).andThen (readsTo_look fun loc => ?_)
  refine (h.reads (by omega) _).bind fun ss' hss' => readsTo_pure ?_
  simp only [Like, Stmt.unlocated, hss']

/-! ## Every statement -/

theorem readsAs_of_parsed (wrapped : Bool) {e : Expr} (h : e.Parsed) : ReadsAs e (e.words wrapped) :=
  readsAs_words wrapped (Expr.parsed_iff.mp h)

mutual

theorem readsAsStmt_words (wrapped : Bool) :
    ∀ {s : Stmt}, s.Printable → ReadsAsStmt s (s.words wrapped)
  | .expr loc e, h => (readsAs_of_parsed wrapped (e := e) h).exprStmt loc
  | .block loc _, h => (readsAsBlock_wordsOfAll wrapped h).block loc
  | .branch loc _ _ none, h =>
    .branch (readsAs_of_parsed wrapped h.1) (readsAsStmt_words wrapped h.2) loc
  | .branch loc _ _ (some _), h =>
    .branch_else (readsAs_of_parsed wrapped h.1) (readsAsStmt_words wrapped h.2.2.1) h.2.1
      (readsAsStmt_words wrapped h.2.2.2) loc
  | .loop loc _ _ _ _, h =>
    .loop (fun e he => readsAs_of_parsed wrapped (h.1 e he))
      (fun e he => readsAs_of_parsed wrapped (h.2.1 e he))
      (fun e he => readsAs_of_parsed wrapped (h.2.2.1 e he)) (readsAsStmt_words wrapped h.2.2.2) loc
  | .foreach loc _ _ _, h =>
    .foreach (readsAs_of_parsed wrapped h.2.1) (readsAsStmt_words wrapped h.2.2) loc
  | .breakStmt loc, _ => readsAsStmt_break loc
  | .continueStmt loc, _ => readsAsStmt_continue loc
  | .returnStmt loc value, h =>
    readsAsStmt_return (fun e (he : e ∈ value) => readsAs_of_parsed wrapped (h e he)) loc
  | .depends loc _ _, h =>
    .depends (readsAs_of_parsed wrapped h.1) (readsAsStmt_words wrapped h.2) loc
  | .includeStmt loc path, h => (readsAs_of_parsed wrapped (e := path) h).includeStmt loc
  | .usingStmt loc path, h => (readsAs_of_parsed wrapped (e := path) h).usingStmt loc

theorem readsAsBlock_wordsOfAll (wrapped : Bool) :
    ∀ {ss : List Stmt}, Stmt.PrintableAll ss → ReadsAsBlock ss (Stmt.wordsOfAll wrapped ss)
  | [], _ => readsAsBlock_nil
  | _ :: _, h => (readsAsStmt_words wrapped h.1).cons (readsAsBlock_wordsOfAll wrapped h.2)

end

end Parser

/-! ## Texts with blanks between their words -/

namespace Token

/-- The text of tokens with a blank after each. -/
def spaced (ts : List Token) : List Char := ts.flatMap fun t => t.spelling ++ [' ']

/-- The token is read from its spelling in some place. -/
def Spelled (t : Token) : Prop := ∃ r, Fits t r

theorem Fits.blank {t : Token} {r : List Char} (h : Fits t r) (r' : List Char) :
    Fits t (' ' :: r') := by
  have hedge : Edge (' ' :: r') := edge_cons (by decide)
  cases h with
  | str text => exact .str text _
  | punct h => exact .punct h _
  | lone h => exact .lone h _
  | double h _ => exact .double h hedge
  | single h _ => exact .single h hedge
  | num n _ => exact .num n hedge
  | name h _ => exact .name h hedge

theorem spelled_of_fitAll {ts : List Token} {r : List Char} (h : FitAll ts r) :
    ∀ t ∈ ts, Spelled t := by
  induction ts with
  | nil => exact nofun
  | cons t ts ih => exact List.forall_mem_cons.mpr ⟨⟨_, h.1⟩, ih h.2⟩

theorem spelled_punct {text : String} (h : text ∈ punctuation) : Spelled (.punct text) :=
  ⟨[], .punct h []⟩

theorem spelled_semicolon : ∀ t ∈ [punct ";"], Spelled t :=
  List.forall_mem_singleton.mpr (spelled_punct (by decide))

theorem spelled_name {text : String} (h : IsName text) : Spelled (.name text) :=
  ⟨[], .name h edge_nil⟩

/-- The words that statements are recognised by. -/
def keywords : List String :=
  ["if", "else", "for", "in", "break", "continue", "return", "depends", "include", "using"]

theorem spelled_keyword {text : String} (h : text ∈ keywords) : Spelled (.name text) := by
  simp only [keywords, List.mem_cons, List.not_mem_nil, or_false] at h
  rcases h with rfl | rfl | rfl | rfl | rfl | rfl | rfl | rfl | rfl | rfl
  all_goals exact spelled_name ⟨_, _, rfl, by decide, by decide⟩

theorem spelled_bracketed {ts : List Token} (h : ∀ t ∈ ts, Spelled t) :
    ∀ t ∈ bracketed ts, Spelled t := by
  simp only [bracketed, List.forall_mem_cons, List.forall_mem_append]
  exact ⟨spelled_punct (by decide), h, spelled_punct (by decide), nofun⟩

end Token

namespace Stmt

variable (wrapped : Bool)

theorem spelled_of_parsed {e : Expr} (h : e.Parsed) : ∀ t ∈ bracketed (e.words wrapped), Spelled t :=
  spelled_bracketed (spelled_of_fitAll
    (Expr.fitAnywhere_words wrapped (Expr.parsed_iff.mp h) [] edge_nil))

theorem spelled_clauseWords {clause : Option Expr} (h : ∀ e ∈ clause, e.Parsed) :
    ∀ t ∈ clauseWords wrapped clause, Spelled t := by
  cases clause with
  | none => exact nofun
  | some e => exact spelled_of_parsed wrapped (h e rfl)

mutual

theorem spelled_words : ∀ {s : Stmt}, s.Printable → ∀ t ∈ s.words wrapped, Spelled t
  | .expr _ e, h => List.forall_mem_append.mpr
    ⟨spelled_of_parsed wrapped (e := e) h, spelled_semicolon⟩
  | .block _ _, h => List.forall_mem_cons.mpr ⟨spelled_punct (by decide),
    List.forall_mem_append.mpr ⟨spelled_wordsOfAll h,
      List.forall_mem_singleton.mpr (spelled_punct (by decide))⟩⟩
  | .branch _ _ _ none, h => List.forall_mem_cons.mpr ⟨spelled_keyword (by decide),
    List.forall_mem_append.mpr ⟨spelled_bracketed (spelled_of_parsed wrapped h.1),
      spelled_words h.2⟩⟩
  | .branch _ _ _ (some _), h => List.forall_mem_cons.mpr ⟨spelled_keyword (by decide),
    List.forall_mem_append.mpr ⟨spelled_bracketed (spelled_of_parsed wrapped h.1),
      List.forall_mem_append.mpr ⟨spelled_words h.2.2.1,
        List.forall_mem_cons.mpr ⟨spelled_keyword (by decide), spelled_words h.2.2.2⟩⟩⟩⟩
  | .loop _ _ _ _ _, h => by
    have hsemicolon : Spelled (punct ";") := spelled_punct (by decide)
    have hclauses := List.forall_mem_append.mpr ⟨spelled_clauseWords wrapped h.1,
      List.forall_mem_cons.mpr ⟨hsemicolon,
        List.forall_mem_append.mpr ⟨spelled_clauseWords wrapped h.2.1,
          List.forall_mem_cons.mpr ⟨hsemicolon, spelled_clauseWords wrapped h.2.2.1⟩⟩⟩⟩
    exact List.forall_mem_cons.mpr ⟨spelled_keyword (by decide),
      List.forall_mem_append.mpr ⟨spelled_bracketed hclauses, spelled_words h.2.2.2⟩⟩
  | .foreach _ _ _ _, h => by
    have hname : IsName _ := Expr.parsed_iff.mp h.1
    have hin : Spelled (name "in") := spelled_keyword (by decide)
    have hhead := List.forall_mem_cons.mpr ⟨spelled_name hname,
      List.forall_mem_cons.mpr ⟨hin, spelled_of_parsed wrapped h.2.1⟩⟩
    exact List.forall_mem_cons.mpr ⟨spelled_keyword (by decide),
      List.forall_mem_append.mpr ⟨spelled_bracketed hhead, spelled_words h.2.2⟩⟩
  | .breakStmt _, _ | .continueStmt _, _ =>
    List.forall_mem_cons.mpr ⟨spelled_keyword (by decide), spelled_semicolon⟩
  | .returnStmt _ value, h => by
    have hvalue : ∀ e ∈ value, e.Parsed := h
    exact List.forall_mem_cons.mpr ⟨spelled_keyword (by decide),
      List.forall_mem_append.mpr ⟨spelled_clauseWords wrapped hvalue, spelled_semicolon⟩⟩
  | .depends _ _ _, h => List.forall_mem_cons.mpr ⟨spelled_keyword (by decide),
    List.forall_mem_append.mpr ⟨spelled_bracketed (spelled_of_parsed wrapped h.1),
      spelled_words h.2⟩⟩
  | .includeStmt _ path, h | .usingStmt _ path, h =>
    List.forall_mem_cons.mpr ⟨spelled_keyword (by decide),
      List.forall_mem_append.mpr
        ⟨spelled_of_parsed wrapped (e := path) h, spelled_semicolon⟩⟩

theorem spelled_wordsOfAll :
    ∀ {ss : List Stmt}, PrintableAll ss → ∀ t ∈ wordsOfAll wrapped ss, Spelled t
  | [], _ => nofun
  | _ :: _, h => List.forall_mem_append.mpr ⟨spelled_words h.1, spelled_wordsOfAll h.2⟩

end

/-- A statement as a text. -/
def print (s : Stmt) : String := String.ofList (spaced (s.words wrapped))

end Stmt

namespace Parser

/-- A blank before the next word makes no difference. -/
theorem token_blank {s : Stream} (htorn : s.torn = 0) (hpushed : s.pushed = []) (cs : List Char) :
    token { s with rest := ' ' :: cs } = token { s with rest := cs } := by
  have hgap : skipGap .blanks s.line (' ' :: cs) = skipGap .blanks s.line cs := by
    simp [skipGap, isBlank, lineEnds]
  have hscan : scan { s with rest := ' ' :: cs } = scan { s with rest := cs } := by
    simp only [scan, htorn, hgap, Stream.locationAt]
  simp only [token, hpushed]
  simp only [hpushed] at hscan
  rw [hscan]

end Parser

/-- The words of a text that has a blank after each of them are read from it, and then what follows
it. -/
theorem Stream.ahead_spaced {ts : List Token} (h : ∀ t ∈ ts, Spelled t) {s stop : Stream} {t : Token}
    {rest : List Char} (hrest : s.rest = spaced ts ++ rest) (htorn : s.torn = 0) (hline : s.line = 1)
    (hpushed : s.pushed = []) (hnext : Parser.token { s with rest } = (.ok t, stop)) :
    Ahead stop (ts ++ [t]) s := by
  induction ts generalizing s with
  | nil =>
    have hsame : ({ s with rest } : Stream) = s := by
      rw [show rest = s.rest from hrest.symm]
    rw [hsame] at hnext
    exact ⟨stop, hnext, stop.last, rfl⟩
  | cons u us ih =>
    obtain ⟨⟨r, hfits⟩, hus⟩ := List.forall_mem_cons.mp h
    have hspelling : s.rest = u.spelling ++ ' ' :: (spaced us ++ rest) := by
      rw [hrest]
      simp [spaced]
    have hscan := Parser.scan_of_fits (hfits.blank _) hspelling htorn hline
    have hahead := ih hus (s := { s with rest := spaced us ++ rest, last := u.text }) rfl htorn hline
      hpushed (Parser.token_with_last hnext u.text)
    have hblank := Parser.token_blank (s := { s with last := u.text }) htorn hpushed
      (spaced us ++ rest)
    obtain ⟨v, vs, hcons⟩ : ∃ v vs, us ++ [t] = v :: vs := List.exists_cons_of_ne_nil (by simp)
    rw [List.cons_append, hcons]
    rw [hcons] at hahead
    refine ⟨_, Parser.token_of_scan hpushed hscan, ?_⟩
    obtain ⟨s', htoken, hrest'⟩ := hahead
    exact ⟨s', hblank.trans htoken, hrest'⟩

theorem Token.length_le_spaced (ts : List Token) : ts.length ≤ (spaced ts).length := by
  induction ts with
  | nil => exact Nat.le_refl 0
  | cons t ts ih =>
    simp only [spaced, List.flatMap_cons, List.length_append, List.length_cons] at ih ⊢
    omega

/-- What is read as a statement is printable, and a printable statement, printed before any text, is
read back up to locations.  Reading goes on with the first token of that text and then as if it had
started there.  The one condition is that no `else` follows a statement that ends in a branch without
one. -/
theorem Stmt.printable_and_statement_print (s : Stmt) (wrapped : Bool) :
    (∀ n stream u, stream.Lexed → Parser.statementWithin n stream = (.ok s, u) → s.Printable) ∧
      (s.Printable → ∀ rest file t v, Parser.token (.ofText rest file) = (.ok t, v) →
        (s.endsOpen = true → t.reads "else" = false) →
        ∃ s' u, Parser.statement (.ofText (s.print wrapped ++ rest) file) = (.ok s', u) ∧
          s'.unlocated = s.unlocated ∧ Parser.token u = (.ok t, v)) := by
  refine ⟨fun n stream u hlexed hrun => Parser.printable_of_statementWithin hlexed hrun, ?_⟩
  intro hprintable rest file t v hnext helse
  have hrest : (s.print wrapped ++ rest).toList = spaced (s.words wrapped) ++ rest.toList := by
    rw [String.toList_append, print, String.toList_ofList]
  have hahead := Stream.ahead_spaced (spelled_words wrapped hprintable)
    (s := .ofText (s.print wrapped ++ rest) file) hrest rfl rfl rfl hnext
  have hdepth : 8 * (s.words wrapped).length ≤
      Stream.depthBound (.ofText (s.print wrapped ++ rest) file) := by
    have hlength := Token.length_le_spaced (s.words wrapped)
    simp only [Stream.depthBound, Stream.ofText, hrest, List.length_append]
    omega
  obtain ⟨s', u, hrun, hs', u', htoken, last, rfl⟩ :=
    (Parser.readsAsStmt_words wrapped hprintable).reads hdepth helse [] v _ hahead
  have hlast : last = v.last :=
    (Parser.last_of_token htoken).trans (Parser.last_of_token hnext).symm
  rw [hlast] at htoken
  exact ⟨s', u, hrun, hs', htoken⟩

/-- `if (a) depends (b) if (c) x; else y;` as it is read: the `else` belongs to the second `if`. -/
def Stmt.nearestIf : Stmt :=
  .branch ⟨"/m", 1⟩ (.var "a")
    (.depends ⟨"/m", 1⟩ (.var "b")
      (.branch ⟨"/m", 1⟩ (.var "c") (.expr ⟨"/m", 1⟩ (.var "x"))
        (some (.expr ⟨"/m", 1⟩ (.var "y"))))) none

theorem Stmt.printable_and_statement_print_nearestIf :
    nearestIf.Printable ∧ nearestIf.endsOpen = true ∧
      ∃ s' u v, Parser.statement (.ofText (nearestIf.print true ++ "z;") "/n") = (.ok s', u) ∧
        s'.unlocated = nearestIf.unlocated ∧ Parser.token u = (.ok (.name "z"), v) := by
  have hread : (Parser.statementWithin 300
      (.ofText "if (a) depends (b) if (c) x; else y;" "/m")).1 = .ok nearestIf := by cbv
  have hprintable := (printable_and_statement_print nearestIf true).1 300 _ _
    (fun _ ht => absurd ht List.not_mem_nil) (Step.eq_of_fst hread)
  obtain ⟨s', u, hrun, hs', htoken⟩ := (printable_and_statement_print nearestIf true).2 hprintable
    "z;" "/n" (.name "z") _ rfl (by decide)
  exact ⟨hprintable, rfl, s', u, _, hrun, hs', htoken⟩

end Kiln
