import Mathlib.Data.List.TakeWhile
import Mathlib.Tactic.SplitIfs
import Kiln.Expr.Parser
import Kiln.Proofs.Keeps

/-!
# Kiln.Proofs.Parser.Image — what expressions can be read

An expression that was read is `Readable`: its names were name tokens, no call by name is one of a
built-in function, and a call of a built-in function has as many arguments as it may have.  Constants
and operators are free.  Every readable expression can be read; `Kiln.Proofs.Parser.RoundTrip` shows
this with the text it is printed as.
-/

namespace Kiln

/-- A letter or an underscore, and then characters of names. -/
def Token.IsName (text : String) : Prop :=
  ∃ c cs, text.toList = c :: cs ∧ (c.isAlpha = true ∨ c = '_') ∧ cs.all isNameChar = true

theorem Token.isNameChar_of_start {c : Char} (h : c.isAlpha = true ∨ c = '_') :
    isNameChar c = true := by
  rcases h with h | rfl
  · simp [isNameChar, Char.isAlphanum, h]
  · decide

/-! ## The predicate -/

namespace Expr

mutual

/-- An expression that can be read. -/
def Readable : Expr → Prop
  | .const _ => True
  | .var name => Token.IsName name
  | .array es => ReadableIn es
  | .dict ps => ReadableInEntries ps
  | .unary _ arg => Readable arg
  | .bump _ _ arg => Readable arg
  | .binary _ left right => Readable left ∧ Readable right
  | .ternary cond yes no => Readable cond ∧ Readable yes ∧ Readable no
  | .builtin fn args => fn.arity.admits args.length = true ∧ ReadableIn args
  | .call name args => (Token.IsName name ∧ Builtin.ofName? name = none) ∧ ReadableIn args

/-- `Readable` for each expression of a list. -/
def ReadableIn : List Expr → Prop
  | [] => True
  | e :: rest => Readable e ∧ ReadableIn rest

/-- `Readable` for each key and value. -/
def ReadableInEntries : List (Expr × Expr) → Prop
  | [] => True
  | (k, v) :: rest => Readable k ∧ Readable v ∧ ReadableInEntries rest

end

end Expr

/-! ## Tokens -/

/-- The text of a name token is a name. -/
def Token.Lexed (t : Token) : Prop := t.kind = .name → IsName t.text

/-- The tokens that were pushed back had been read. -/
def Stream.Lexed (s : Stream) : Prop := ∀ t ∈ s.pushed, t.Lexed

/-- Only what starts like a name is a name token. -/
theorem Token.isName_of_lexeme? {c : Char} {rest : List Char} {l : Lexeme}
    (h : lexeme? c rest = some l) (hk : l.kind = .name) : IsName (String.ofList l.text) := by
  unfold lexeme? at h
  split_ifs at h with hstr hnum hname hpunct hlone hsingle hdouble
  · cases h; cases hk
  · cases h; cases hk
  · cases h
    exact ⟨c, rest.takeWhile isNameChar, String.toList_ofList, hname, List.all_takeWhile⟩
  · cases h; cases hk
  · cases h; cases hk
  · cases h; cases hk
  · cases h; cases hk

namespace Parser

open Step

theorem keeps_scan : Keeps Stream.Lexed scan Token.Lexed := by
  intro s hs
  unfold scan
  split
  · exact ⟨hs, fun t ht => by cases ht⟩
  · simp only
    split
    · refine ⟨hs, fun t ht => ?_⟩
      injection ht with ht
      subst ht
      intro hk
      cases hk
    · split
      · rename_i l hl
        refine ⟨hs, fun t ht => ?_⟩
        injection ht with ht
        subst ht
        exact fun hk => Token.isName_of_lexeme? hl hk
      · exact ⟨hs, fun t ht => by cases ht⟩

theorem keeps_token : Keeps Stream.Lexed token Token.Lexed := by
  intro s hs
  unfold token
  split
  · rename_i t pushed hp
    rw [Stream.Lexed, hp] at hs
    refine ⟨fun u hu => hs u (List.mem_cons_of_mem _ hu), fun u hu => ?_⟩
    injection hu with hu
    exact hu ▸ hs t (by simp)
  · obtain ⟨hinv, hval⟩ := keeps_scan s hs
    split
    · rename_i t s' hscan
      rw [hscan] at hinv hval
      refine ⟨hinv, fun u hu => ?_⟩
      injection hu with hu
      exact hu ▸ hval t rfl
    · exact ⟨hinv, hval⟩

theorem keeps_pushBack {t : Token} (ht : t.Lexed) :
    Keeps Stream.Lexed (pushBack t) fun _ => True :=
  keeps_change fun s hs u hu => by
    rcases List.mem_cons.1 hu with rfl | hu
    · exact ht
    · exact hs u hu

theorem keeps_complain {α : Type} {P : α → Prop} (text : String) :
    Keeps Stream.Lexed (complain text : Parser α) P :=
  fun _ hs => ⟨hs, fun _ hb => by cases hb⟩

theorem keeps_expect (text complaint : String) :
    Keeps Stream.Lexed (expect text complaint) fun _ => True := by
  refine keeps_token.bind fun t _ => ?_
  split
  · exact keeps_pure trivial
  · exact keeps_complain _

/-! ## Expressions -/

/-- What reading with the bound `n` yields is readable. -/
structure ReadableWithin (n : Nat) : Prop where
  expression : ∀ level, Keeps Stream.Lexed (expressionWithin n level) Expr.Readable
  operators : ∀ level left, left.Readable →
    Keeps Stream.Lexed (operatorsWithin n level left) Expr.Readable
  operand : Keeps Stream.Lexed (operandWithin n) Expr.Readable
  primary : Keeps Stream.Lexed (primaryWithin n) Expr.Readable
  arguments : Keeps Stream.Lexed (argumentsWithin n) Expr.ReadableIn
  elements : Keeps Stream.Lexed (elementsWithin n) Expr.ReadableIn
  pairs : Keeps Stream.Lexed (pairsWithin n) Expr.ReadableInEntries
  key : ∀ t : Token, t.Lexed → Keeps Stream.Lexed (keyWithin n t) Expr.Readable

theorem keeps_finishCall {name : String} {args : List Expr} (hname : Token.IsName name)
    (hargs : Expr.ReadableIn args) :
    Keeps Stream.Lexed (finishCall name args) Expr.Readable := by
  unfold finishCall
  split
  · rename_i hbuiltin
    exact keeps_pure ⟨⟨hname, hbuiltin⟩, hargs⟩
  · split
    · exact keeps_complain _
    · rename_i fn _ _ harity
      have hadmits : fn.arity.admits args.length = true := by
        simpa [Builtin.arityComplaint?] using harity
      exact keeps_pure ⟨hadmits, hargs⟩

theorem keeps_closeSubscript (op : BinaryOp) :
    Keeps Stream.Lexed (closeSubscript op) fun _ => True := by
  unfold closeSubscript
  split
  · exact (keeps_expect _ _).bind fun _ _ => keeps_pure trivial
  · exact keeps_pure trivial

theorem readable_join {op : BinaryOp} {compound : Bool} {left right : Expr} (hl : left.Readable)
    (hr : right.Readable) : (op.join compound left right).Readable := by
  cases compound
  · exact ⟨hl, hr⟩
  · exact ⟨hl, hl, hr⟩

/-- Gives a token back and ends. -/
theorem keeps_giveBack {α : Type} {P : α → Prop} {t : Token} {a : α} (ht : t.Lexed) (ha : P a) :
    Keeps Stream.Lexed (do pushBack t; return a) P :=
  (keeps_pushBack ht).bind fun _ _ => keeps_pure ha

theorem readableWithin_zero : ReadableWithin 0 where
  expression _ := by unfold expressionWithin; exact keeps_stuck
  operators _ _ _ := by unfold operatorsWithin; exact keeps_stuck
  operand := by unfold operandWithin; exact keeps_stuck
  primary := by unfold primaryWithin; exact keeps_stuck
  arguments := by unfold argumentsWithin; exact keeps_stuck
  elements := by unfold elementsWithin; exact keeps_stuck
  pairs := by unfold pairsWithin; exact keeps_stuck
  key _ _ := by unfold keyWithin; exact keeps_stuck

section Step

variable {n : Nat} (ih : ReadableWithin n)
include ih

theorem keeps_operators_succ {level : Nat} {left : Expr} (hleft : left.Readable) :
    Keeps Stream.Lexed (operatorsWithin (n + 1) level left) Expr.Readable := by
  unfold operatorsWithin
  refine keeps_token.bind fun t ht => ?_
  split
  · exact keeps_giveBack ht hleft
  · split
    · refine keeps_token.bind fun name hname => ?_
      split
      · exact (keeps_pushBack hname).bind fun _ _ => keeps_giveBack ht hleft
      · rename_i hkind
        refine keeps_token.bind fun next hnext => ?_
        split
        · refine ih.arguments.bind fun args hargs => ?_
          have hid : Token.IsName name.text := hname (Decidable.not_not.1 hkind)
          have hall : Expr.ReadableIn (left :: args) := ⟨hleft, hargs⟩
          refine (keeps_finishCall hid hall).bind fun call hcall => ?_
          exact ih.operators level call hcall
        · exact (keeps_pushBack hnext).bind fun _ _ => ih.operators level _ ⟨hleft, trivial⟩
    · split
      · split
        · exact keeps_giveBack ht hleft
        · refine (ih.expression 0).bind fun yes hyes => (keeps_expect _ _).bind fun _ _ => ?_
          exact (ih.expression 0).bind fun no hno => ih.operators level _ ⟨hleft, hyes, hno⟩
      · split
        · exact keeps_giveBack ht hleft
        · split
          · exact keeps_giveBack ht hleft
          · rename_i op compound _ _
            refine (ih.expression op.level).bind fun right hright => ?_
            refine (keeps_closeSubscript op).bind fun _ _ => ?_
            exact ih.operators level _ (readable_join hleft hright)

theorem keeps_operand_succ : Keeps Stream.Lexed (operandWithin (n + 1)) Expr.Readable := by
  unfold operandWithin
  refine ih.primary.bind fun base hbase => keeps_token.bind fun t ht => ?_
  split
  · exact keeps_pure hbase
  · exact keeps_giveBack ht hbase

theorem keeps_primary_succ : Keeps Stream.Lexed (primaryWithin (n + 1)) Expr.Readable := by
  unfold primaryWithin
  refine keeps_token.bind fun t ht => ?_
  split
  · exact keeps_pure trivial
  · exact keeps_pure trivial
  · rename_i hkind
    refine keeps_token.bind fun next hnext => ?_
    split
    · exact ih.arguments.bind fun args hargs => keeps_finishCall (ht hkind) hargs
    · exact keeps_giveBack hnext (ht hkind)
  · split
    · exact ih.operand.bind fun arg harg => keeps_pure harg
    · exact ih.operand.bind fun arg harg => keeps_pure harg
    · exact keeps_complain _
  · split
    · exact (ih.expression 0).bind fun e he => (keeps_expect _ _).bind fun _ _ => keeps_pure he
    · split
      · exact ih.elements.bind fun es hes => keeps_pure hes
      · split
        · exact ih.pairs.bind fun ps hps => keeps_pure hps
        · exact keeps_complain _
  · exact keeps_complain _

theorem keeps_arguments_succ :
    Keeps Stream.Lexed (argumentsWithin (n + 1)) Expr.ReadableIn := by
  unfold argumentsWithin
  refine keeps_token.bind fun t ht => ?_
  split
  · exact keeps_pure trivial
  · refine (keeps_pushBack ht).bind fun _ _ => (ih.expression 0).bind fun arg harg => ?_
    refine keeps_token.bind fun separator _ => ?_
    split
    · exact keeps_pure ⟨harg, trivial⟩
    · split
      · exact ih.arguments.bind fun rest hrest => keeps_pure ⟨harg, hrest⟩
      · exact keeps_complain _

theorem keeps_elements_succ :
    Keeps Stream.Lexed (elementsWithin (n + 1)) Expr.ReadableIn := by
  unfold elementsWithin
  refine keeps_token.bind fun t ht => ?_
  split
  · exact keeps_pure trivial
  · refine (keeps_pushBack ht).bind fun _ _ => (ih.expression 0).bind fun element helement => ?_
    refine keeps_token.bind fun separator _ => ?_
    split
    · exact keeps_pure ⟨helement, trivial⟩
    · split
      · exact ih.elements.bind fun rest hrest => keeps_pure ⟨helement, hrest⟩
      · exact keeps_complain _

theorem keeps_key_succ {t : Token} (ht : t.Lexed) :
    Keeps Stream.Lexed (keyWithin (n + 1) t) Expr.Readable := by
  unfold keyWithin
  split
  · refine keeps_token.bind fun name _ => ?_
    split
    · exact keeps_pure trivial
    · exact keeps_complain _
  · exact (keeps_pushBack ht).bind fun _ _ => ih.expression 0

theorem keeps_pairs_succ :
    Keeps Stream.Lexed (pairsWithin (n + 1))
      Expr.ReadableInEntries := by
  unfold pairsWithin
  refine keeps_token.bind fun t ht => ?_
  split
  · exact keeps_pure trivial
  · refine (ih.key t ht).bind fun key hkey => (keeps_expect _ _).bind fun _ _ => ?_
    refine (ih.expression 0).bind fun value hvalue => keeps_token.bind fun separator _ => ?_
    split
    · exact keeps_pure ⟨hkey, hvalue, trivial⟩
    · split
      · exact ih.pairs.bind fun rest hrest => keeps_pure ⟨hkey, hvalue, hrest⟩
      · exact keeps_complain _

theorem readableWithin_succ : ReadableWithin (n + 1) where
  expression level := by
    unfold expressionWithin
    exact ih.operand.bind fun left hleft => ih.operators level left hleft
  operators _ _ hleft := keeps_operators_succ ih hleft
  operand := keeps_operand_succ ih
  primary := keeps_primary_succ ih
  arguments := keeps_arguments_succ ih
  elements := keeps_elements_succ ih
  pairs := keeps_pairs_succ ih
  key _ ht := keeps_key_succ ih ht

end Step

theorem readableWithin : ∀ n, ReadableWithin n
  | 0 => readableWithin_zero
  | n + 1 => readableWithin_succ (readableWithin n)

/-- An expression that was read is readable. -/
theorem readable_of_expressionWithin {n level : Nat} {stream stream' : Stream} {e : Expr}
    (hs : stream.Lexed) (h : expressionWithin n level stream = (.ok e, stream')) : e.Readable := by
  obtain ⟨-, hval⟩ := (readableWithin n).expression level stream hs
  exact hval e (by rw [h])

end Parser

end Kiln
