import Kiln.Proofs.Parser.Statements

/-!
# Kiln.Proofs.Parser.Names — the names in what was read

Every name in an expression or a statement that was read is the text of a name token, so it is made
of letters, digits and underscores only.
-/

namespace Kiln

/-! ## Predicates on the leaves of syntax -/

namespace Expr

mutual

/-- Every constant of the expression satisfies `p`, and every name in it `q`. -/
def Every (p : Literal → Prop) (q : String → Prop) : Expr → Prop
  | .const value => p value
  | .var name => q name
  | .array es => EveryIn p q es
  | .dict ps => EveryInEntries p q ps
  | .unary _ arg => Every p q arg
  | .bump _ _ arg => Every p q arg
  | .binary _ left right => Every p q left ∧ Every p q right
  | .ternary cond yes no => Every p q cond ∧ Every p q yes ∧ Every p q no
  | .builtin _ args => EveryIn p q args
  | .call name args => q name ∧ EveryIn p q args

/-- `Every` for each expression of a list. -/
def EveryIn (p : Literal → Prop) (q : String → Prop) : List Expr → Prop
  | [] => True
  | e :: rest => Every p q e ∧ EveryIn p q rest

/-- `Every` for each key and value. -/
def EveryInEntries (p : Literal → Prop) (q : String → Prop) : List (Expr × Expr) → Prop
  | [] => True
  | (k, v) :: rest => Every p q k ∧ Every p q v ∧ EveryInEntries p q rest

end

end Expr

namespace Stmt

mutual

/-- Every constant of the statement satisfies `p`, and every name in it `q`. -/
def Every (p : Literal → Prop) (q : String → Prop) : Stmt → Prop
  | .expr _ e => e.Every p q
  | .block _ ss => EveryIn p q ss
  | .branch _ cond yes none => cond.Every p q ∧ Every p q yes
  | .branch _ cond yes (some no) => cond.Every p q ∧ Every p q yes ∧ Every p q no
  | .loop _ init cond next body =>
    (∀ e ∈ init, e.Every p q) ∧ (∀ e ∈ cond, e.Every p q) ∧ (∀ e ∈ next, e.Every p q) ∧
      Every p q body
  | .foreach _ name items body => q name ∧ items.Every p q ∧ Every p q body
  | .breakStmt _ => True
  | .continueStmt _ => True
  | .returnStmt _ value => ∀ e ∈ value, e.Every p q
  | .depends _ paths action => paths.Every p q ∧ Every p q action
  | .includeStmt _ path => path.Every p q
  | .usingStmt _ path => path.Every p q

/-- `Every` for each statement of a list. -/
def EveryIn (p : Literal → Prop) (q : String → Prop) : List Stmt → Prop
  | [] => True
  | s :: rest => Every p q s ∧ EveryIn p q rest

end

end Stmt

mutual

/-- What holds of the constants and what holds of the names hold together. -/
theorem Expr.every_of {p : Literal → Prop} {q : String → Prop} :
    ∀ {e : Expr}, e.Every p (fun _ => True) → e.Every (fun _ => True) q → e.Every p q
  | .const _, hp, _ => hp
  | .var _, _, hq => hq
  | .array es, hp, hq => (Expr.everyIn_of hp hq : Expr.EveryIn p q es)
  | .dict ps, hp, hq => (Expr.everyInEntries_of hp hq : Expr.EveryInEntries p q ps)
  | .unary _ arg, hp, hq | .bump _ _ arg, hp, hq => Expr.every_of (e := arg) hp hq
  | .binary _ _ _, hp, hq => ⟨Expr.every_of hp.1 hq.1, Expr.every_of hp.2 hq.2⟩
  | .ternary _ _ _, hp, hq =>
    ⟨Expr.every_of hp.1 hq.1, Expr.every_of hp.2.1 hq.2.1, Expr.every_of hp.2.2 hq.2.2⟩
  | .builtin _ args, hp, hq => (Expr.everyIn_of hp hq : Expr.EveryIn p q args)
  | .call _ _, hp, hq => ⟨hq.1, Expr.everyIn_of hp.2 hq.2⟩

theorem Expr.everyIn_of {p : Literal → Prop} {q : String → Prop} :
    ∀ {es : List Expr}, Expr.EveryIn p (fun _ => True) es → Expr.EveryIn (fun _ => True) q es →
      Expr.EveryIn p q es
  | [], _, _ => trivial
  | _ :: _, hp, hq => ⟨Expr.every_of hp.1 hq.1, Expr.everyIn_of hp.2 hq.2⟩

theorem Expr.everyInEntries_of {p : Literal → Prop} {q : String → Prop} :
    ∀ {ps : List (Expr × Expr)}, Expr.EveryInEntries p (fun _ => True) ps →
      Expr.EveryInEntries (fun _ => True) q ps → Expr.EveryInEntries p q ps
  | [], _, _ => trivial
  | (_, _) :: _, hp, hq =>
    ⟨Expr.every_of hp.1 hq.1, Expr.every_of hp.2.1 hq.2.1, Expr.everyInEntries_of hp.2.2 hq.2.2⟩

end

theorem Expr.every_of_option {p : Literal → Prop} {q : String → Prop} {clause : Option Expr}
    (hp : ∀ e ∈ clause, e.Every p fun _ => True) (hq : ∀ e ∈ clause, e.Every (fun _ => True) q) :
    ∀ e ∈ clause, e.Every p q :=
  fun e he => Expr.every_of (hp e he) (hq e he)

mutual

theorem Stmt.every_of {p : Literal → Prop} {q : String → Prop} :
    ∀ {s : Stmt}, s.Every p (fun _ => True) → s.Every (fun _ => True) q → s.Every p q
  | .expr _ e, hp, hq => Expr.every_of (e := e) hp hq
  | .block _ ss, hp, hq => (Stmt.everyIn_of hp hq : Stmt.EveryIn p q ss)
  | .branch _ _ _ none, hp, hq => ⟨Expr.every_of hp.1 hq.1, Stmt.every_of hp.2 hq.2⟩
  | .branch _ _ _ (some _), hp, hq =>
    ⟨Expr.every_of hp.1 hq.1, Stmt.every_of hp.2.1 hq.2.1, Stmt.every_of hp.2.2 hq.2.2⟩
  | .loop .., hp, hq =>
    ⟨Expr.every_of_option hp.1 hq.1, Expr.every_of_option hp.2.1 hq.2.1,
      Expr.every_of_option hp.2.2.1 hq.2.2.1, Stmt.every_of hp.2.2.2 hq.2.2.2⟩
  | .foreach .., hp, hq => ⟨hq.1, Expr.every_of hp.2.1 hq.2.1, Stmt.every_of hp.2.2 hq.2.2⟩
  | .breakStmt _, _, _ => trivial
  | .continueStmt _, _, _ => trivial
  | .returnStmt _ value, hp, hq =>
    (Expr.every_of_option hp hq : ∀ e ∈ value, e.Every p q)
  | .depends .., hp, hq => ⟨Expr.every_of hp.1 hq.1, Stmt.every_of hp.2 hq.2⟩
  | .includeStmt _ path, hp, hq | .usingStmt _ path, hp, hq => Expr.every_of (e := path) hp hq

theorem Stmt.everyIn_of {p : Literal → Prop} {q : String → Prop} :
    ∀ {ss : List Stmt}, Stmt.EveryIn p (fun _ => True) ss → Stmt.EveryIn (fun _ => True) q ss →
      Stmt.EveryIn p q ss
  | [], _, _ => trivial
  | _ :: _, hp, hq => ⟨Stmt.every_of hp.1 hq.1, Stmt.everyIn_of hp.2 hq.2⟩

end

/-- Made of the characters of names. -/
def Identifier (name : String) : Prop := ∀ c ∈ name.toList, Token.isNameChar c = true

theorem Token.IsName.identifier {name : String} (h : IsName name) : Identifier name := by
  obtain ⟨c, cs, htext, hc, hcs⟩ := h
  intro d hd
  rw [htext, List.mem_cons] at hd
  rcases hd with rfl | hd
  · exact isNameChar_of_start hc
  · exact List.all_eq_true.mp hcs d hd

/-! ## Expressions -/

/-- Every name in the expression is made of the characters of names. -/
abbrev Expr.Named (e : Expr) : Prop := e.Every (fun _ => True) Identifier

mutual

theorem Expr.Readable.named : ∀ {e : Expr}, e.Readable → e.Named
  | .const _, _ => trivial
  | .var _, h => Token.IsName.identifier h
  | .array es, h => (Expr.named_of_readableIn h : Expr.EveryIn (fun _ => True) Identifier es)
  | .dict ps, h =>
    (Expr.named_of_readableInEntries h : Expr.EveryInEntries (fun _ => True) Identifier ps)
  | .unary _ arg, h | .bump _ _ arg, h => Expr.Readable.named (e := arg) h
  | .binary _ _ _, h => ⟨h.1.named, h.2.named⟩
  | .ternary _ _ _, h => ⟨h.1.named, h.2.1.named, h.2.2.named⟩
  | .builtin _ args, h =>
    (Expr.named_of_readableIn h.2 : Expr.EveryIn (fun _ => True) Identifier args)
  | .call _ _, h => ⟨h.1.1.identifier, Expr.named_of_readableIn h.2⟩

theorem Expr.named_of_readableIn :
    ∀ {es : List Expr}, Expr.ReadableIn es → Expr.EveryIn (fun _ => True) Identifier es
  | [], _ => trivial
  | _ :: _, h => ⟨h.1.named, Expr.named_of_readableIn h.2⟩

theorem Expr.named_of_readableInEntries :
    ∀ {ps : List (Expr × Expr)}, Expr.ReadableInEntries ps →
      Expr.EveryInEntries (fun _ => True) Identifier ps
  | [], _ => trivial
  | (_, _) :: _, h => ⟨h.1.named, h.2.1.named, Expr.named_of_readableInEntries h.2.2⟩

end

/-! ## Statements -/

theorem Expr.Parsed.named {e : Expr} (h : e.Parsed) : e.Named := (parsed_iff.mp h).named

/-- Every name in the statement is made of the characters of names. -/
abbrev Parser.NamedStmt (s : Stmt) : Prop := s.Every (fun _ => True) Identifier

mutual

theorem Stmt.Printable.named : ∀ {s : Stmt}, s.Printable → Parser.NamedStmt s
  | .expr _ e, h | .includeStmt _ e, h | .usingStmt _ e, h => Expr.Parsed.named (e := e) h
  | .block _ ss, h => (Stmt.named_of_printableAll h : Stmt.EveryIn (fun _ => True) Identifier ss)
  | .branch _ _ _ none, h => ⟨h.1.named, h.2.named⟩
  | .branch _ _ _ (some _), h => ⟨h.1.named, h.2.2.1.named, h.2.2.2.named⟩
  | .loop .., h =>
    ⟨fun e he => (h.1 e he).named, fun e he => (h.2.1 e he).named,
      fun e he => (h.2.2.1 e he).named, h.2.2.2.named⟩
  | .foreach .., h => ⟨h.1.named, h.2.1.named, h.2.2.named⟩
  | .breakStmt _, _ | .continueStmt _, _ => trivial
  | .returnStmt _ value, h => (fun e he => (h e he).named : ∀ e ∈ value, e.Named)
  | .depends .., h => ⟨h.1.named, h.2.named⟩

theorem Stmt.named_of_printableAll :
    ∀ {ss : List Stmt}, Stmt.PrintableAll ss → Stmt.EveryIn (fun _ => True) Identifier ss
  | [], _ => trivial
  | _ :: _, h => ⟨h.1.named, Stmt.named_of_printableAll h.2⟩

end

/-- A statement that was read has proper names only. -/
theorem Parser.named_of_statementWithin {n : Nat} {stream stream' : Stream} {s : Stmt}
    (hs : stream.Lexed) (h : statementWithin n stream = (.ok s, stream')) : NamedStmt s :=
  (printable_of_statementWithin hs h).named

end Kiln
