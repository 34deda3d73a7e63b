import Mathlib.Data.Nat.Find
import Kiln.Proofs.Eval.Regime
import Kiln.Proofs.Fingerprint.Mentions
import Kiln.Proofs.Text.Numeral

/-!
# Kiln.Proofs.Fingerprint.Sensitivity — a changed variable changes the fingerprint

Two fingerprints of one statement, in states that differ in the value of one variable only, differ in
what stands for that value and nowhere else.  If both texts of the value have the same length, the two
fingerprints can be compared place by place; if not, the fingerprints have different lengths.  So they
differ as soon as the variable is read once, whatever the value imitates.
-/

namespace Kiln

open Fingerprint

/-! ## One text in place of another -/

/-- The second text is the first with `new` in the place of `old`, as many times as the number
says. -/
inductive Trades (old new : List Char) : Nat → List Char → List Char → Prop
  | same (a : List Char) : Trades old new 0 a a
  | swap : Trades old new 1 old new
  | append {j k : Nat} {a a' b b' : List Char} : Trades old new j a a' → Trades old new k b b' →
    Trades old new (j + k) (a ++ b) (a' ++ b')

namespace Trades

variable {old new a b : List Char} {k : Nat}

theorem length (h : Trades old new k a b) :
    b.length + k * old.length = a.length + k * new.length := by
  induction h with
  | same => simp
  | swap => omega
  | append _ _ ih ih' =>
    simp only [List.length_append, Nat.add_mul]
    omega

/-- Texts of one length stay in line. -/
theorem eq_zero_of_length (hlen : old.length = new.length) (hne : old ≠ new)
    (h : Trades old new k a b) (heq : a = b) : k = 0 := by
  induction h with
  | same => rfl
  | swap => exact absurd heq hne
  | append ha _ ih ih' =>
    have hsame := ha.length
    rw [hlen] at hsame
    obtain ⟨hfirst, hrest⟩ := List.append_inj heq (by omega)
    rw [ih hfirst, ih' hrest]

/-- What is traded at least once is not the same. -/
theorem eq_zero (hne : old ≠ new) (h : Trades old new k a b) (heq : a = b) : k = 0 := by
  by_cases hlen : old.length = new.length
  · exact eq_zero_of_length hlen hne h heq
  · have htotal := h.length
    rw [heq] at htotal
    by_contra hk
    exact hlen (Nat.eq_of_mul_eq_mul_left (Nat.pos_of_ne_zero hk) (by omega))

end Trades

/-- The texts of some code that refers to the names `ms`: one text is traded for another, and if the
value shows in one of the names, at least once. -/
def Swaps (old new : List Char) (shows : Mention → Prop) (ms : List Mention) (a b : List Char) :
    Prop :=
  ∃ k, Trades old new k a b ∧ ((∃ m ∈ ms, shows m) → k ≠ 0)

namespace Swaps

variable {old new a a' b b' : List Char} {shows shows' : Mention → Prop} {ms ns : List Mention}

theorem mono (h : Swaps old new shows ms a b) (hms : (∃ m ∈ ns, shows' m) → ∃ m ∈ ms, shows m) :
    Swaps old new shows' ns a b := by
  obtain ⟨k, htrades, hk⟩ := h
  exact ⟨k, htrades, fun hn => hk (hms hn)⟩

theorem same (a : List Char) (h : ∀ m ∈ ms, ¬ shows m) : Swaps old new shows ms a a :=
  ⟨0, .same a, fun ⟨m, hm, hshows⟩ => absurd hshows (h m hm)⟩

theorem nil (a : List Char) : Swaps old new shows [] a a := same a (by simp)

theorem append (ha : Swaps old new shows ms a a') (hb : Swaps old new shows ns b b') :
    Swaps old new shows (ms ++ ns) (a ++ b) (a' ++ b') := by
  obtain ⟨j, hj, hms⟩ := ha
  obtain ⟨k, hk, hns⟩ := hb
  refine ⟨j + k, hj.append hk, ?_⟩
  rintro ⟨m, hm, hshows⟩
  rcases List.mem_append.mp hm with hm | hm
  · have := hms ⟨m, hm, hshows⟩
    omega
  · have := hns ⟨m, hm, hshows⟩
    omega

theorem after (c : List Char) (h : Swaps old new shows ms a b) :
    Swaps old new shows ms (c ++ a) (c ++ b) :=
  (nil c).append h

theorem before (c : List Char) (h : Swaps old new shows ms a b) :
    Swaps old new shows ms (a ++ c) (b ++ c) := by
  simpa using h.append (nil c)

end Swaps

/-! ## What is written -/

/-- What stands for a name. -/
def Fingerprint.Glossary.text (g : Glossary) : Mention → List Char
  | .var name => g.value name
  | .fn name => g.function name

section Written

variable {old new : List Char} {shows : Mention → Prop} {g g' : Glossary}

/-- What stands for the names is traded. -/
def SwapsNames (old new : List Char) (shows : Mention → Prop) (g g' : Glossary)
    (ms : List Mention) : Prop :=
  ∀ m ∈ ms, Swaps old new shows [m] (g.text m) (g'.text m)

theorem swapsNames_append {ms ns : List Mention} :
    SwapsNames old new shows g g' (ms ++ ns) ↔
      SwapsNames old new shows g g' ms ∧ SwapsNames old new shows g g' ns :=
  List.forall_mem_append

mutual

theorem Expr.swaps_written : ∀ e : Expr, SwapsNames old new shows g g' e.mentions →
    Swaps old new shows e.mentions (e.written g) (e.written g')
  | .const value, _ => by
    simp only [Expr.written]
    exact .nil _
  | .var name, h => by
    simp only [Expr.written, headed]
    exact ((h (.var name) (List.mem_singleton_self _)).after _).after _
  | .array es, h => by
    simp only [Expr.written, headed]
    exact (Expr.swaps_writtenList _ es h).after _
  | .dict ps, h => by
    simp only [Expr.written, headed]
    exact (Expr.swaps_writtenEntries ps h).after _
  | .unary op arg, h => by
    simp only [Expr.written, headed]
    exact (((Expr.swaps_written arg h).after [':']).after _).after _
  | .bump op side arg, h => by
    simp only [Expr.written, headed]
    exact (((Expr.swaps_written arg h).after [':']).after _).after _
  | .binary op left right, h => by
    obtain ⟨hl, hr⟩ := swapsNames_append.mp h
    simp only [Expr.written, headed]
    have hleft := (Expr.swaps_written left hl).after ((toString op.level).toList ++ ':' :: mark ":lhs:")
    exact ((hleft.before _).append (Expr.swaps_written right hr)).after _
  | .ternary cond yes no, h => by
    obtain ⟨hcy, hn⟩ := swapsNames_append.mp h
    obtain ⟨hc, hy⟩ := swapsNames_append.mp hcy
    simp only [Expr.written, headed]
    have hfirst := (Expr.swaps_written cond hc).append (Expr.swaps_written yes hy)
    exact (hfirst.append (Expr.swaps_written no hn)).after _
  | .builtin fn args, h => by
    simp only [Expr.written, headed]
    exact (Expr.swaps_writtenList _ args h).after _
  | .call name args, h => by
    obtain ⟨hf, hargs⟩ := List.forall_mem_cons.mp h
    simp only [Expr.written, headed]
    exact ((hf.after _).append (Expr.swaps_writtenList _ args hargs)).after _

theorem Expr.swaps_writtenList (label : String) : ∀ es : List Expr,
    SwapsNames old new shows g g' (Expr.mentionsAll es) →
      Swaps old new shows (Expr.mentionsAll es) (Expr.writtenList g label es)
        (Expr.writtenList g' label es)
  | [], _ => by
    simp only [Expr.writtenList]
    exact .nil _
  | e :: rest, h => by
    obtain ⟨he, hrest⟩ := swapsNames_append.mp h
    simp only [Expr.writtenList]
    exact ((Expr.swaps_written e he).after _).append (Expr.swaps_writtenList label rest hrest)

theorem Expr.swaps_writtenEntries : ∀ ps : List (Expr × Expr),
    SwapsNames old new shows g g' (Expr.mentionsEntries ps) →
      Swaps old new shows (Expr.mentionsEntries ps) (Expr.writtenEntries g ps)
        (Expr.writtenEntries g' ps)
  | [], _ => by
    simp only [Expr.writtenEntries]
    exact .nil _
  | (k, v) :: rest, h => by
    obtain ⟨hkv, hrest⟩ := swapsNames_append.mp h
    obtain ⟨hk, hv⟩ := swapsNames_append.mp hkv
    simp only [Expr.writtenEntries]
    have hkey := ((Expr.swaps_written k hk).after (mark ":key:")).before (mark ":value:")
    exact (hkey.append (Expr.swaps_written v hv)).append (Expr.swaps_writtenEntries rest hrest)

end

theorem Expr.swaps_writtenClause (label : String) (clause : Option Expr)
    (h : SwapsNames old new shows g g' (Expr.mentionsClause clause)) :
    Swaps old new shows (Expr.mentionsClause clause) (Expr.writtenClause g label clause)
      (Expr.writtenClause g' label clause) := by
  cases clause with
  | none => exact .nil _
  | some e => exact (Expr.swaps_written e h).after _

mutual

/-- What is traded in the names a statement refers to is traded in its text. -/
theorem Stmt.swaps_written : ∀ s : Stmt, SwapsNames old new shows g g' s.mentions →
    Swaps old new shows s.mentions (s.written g) (s.written g')
  | .expr _ e, h | .includeStmt _ e, h | .usingStmt _ e, h => by
    simp only [Stmt.written, headed]
    exact (Expr.swaps_written e h).after _
  | .block _ ss, h => by
    simp only [Stmt.written, headed]
    exact (Stmt.swaps_writtenList ss h).after _
  | .branch _ cond yes none, h => by
    obtain ⟨hc, hy⟩ := swapsNames_append.mp h
    simp only [Stmt.written, headed]
    have hcond := ((Expr.swaps_written cond hc).after (mark "expr:")).before (mark "then:")
    exact (hcond.append (Stmt.swaps_written yes hy)).after _
  | .branch _ cond yes (some no), h => by
    obtain ⟨hcy, hn⟩ := swapsNames_append.mp h
    obtain ⟨hc, hy⟩ := swapsNames_append.mp hcy
    simp only [Stmt.written, headed]
    have hcond := ((Expr.swaps_written cond hc).after (mark "expr:")).before (mark "then:")
    have hyes := (hcond.append (Stmt.swaps_written yes hy)).before (mark "else:")
    exact (hyes.append (Stmt.swaps_written no hn)).after _
  | .loop _ init cond next body, h => by
    obtain ⟨hicn, hb⟩ := swapsNames_append.mp h
    obtain ⟨hic, hn⟩ := swapsNames_append.mp hicn
    obtain ⟨hi, hc⟩ := swapsNames_append.mp hic
    simp only [Stmt.written, headed]
    have hclauses := ((Expr.swaps_writtenClause "init:" init hi).append
      (Expr.swaps_writtenClause "while:" cond hc)).append (Expr.swaps_writtenClause "next:" next hn)
    exact ((hclauses.before (mark "loop:")).append (Stmt.swaps_written body hb)).after _
  | .foreach _ name items body, h => by
    obtain ⟨hi, hb⟩ := swapsNames_append.mp h
    simp only [Stmt.written, headed]
    have hitems := ((Expr.swaps_written items hi).after (mark "init:")).before (mark "loop:")
    have hbody := (hitems.append (Stmt.swaps_written body hb)).before (mark "foreach:")
    exact (hbody.before name.toList).after _
  | .breakStmt _, _ | .continueStmt _, _ => by
    simp only [Stmt.written]
    exact .nil _
  | .returnStmt _ value, h => by
    simp only [Stmt.written, headed]
    exact (Expr.swaps_writtenClause "" value h).after _
  | .depends _ paths action, h => by
    obtain ⟨hp, ha⟩ := swapsNames_append.mp h
    simp only [Stmt.written, headed]
    have hpaths := ((Expr.swaps_written paths hp).after (mark "expr:")).before (mark "stmt:")
    exact (hpaths.append (Stmt.swaps_written action ha)).after _

theorem Stmt.swaps_writtenList : ∀ ss : List Stmt,
    SwapsNames old new shows g g' (Stmt.mentionsAll ss) →
      Swaps old new shows (Stmt.mentionsAll ss) (Stmt.writtenList g ss) (Stmt.writtenList g' ss)
  | [], _ => by
    simp only [Stmt.writtenList]
    exact .nil _
  | s :: rest, h => by
    obtain ⟨hs, hrest⟩ := swapsNames_append.mp h
    simp only [Stmt.writtenList]
    exact (Stmt.swaps_written s hs).append (Stmt.swaps_writtenList rest hrest)

end

end Written

/-! ## Functions -/

namespace Stmt

variable {functions : Table Function} {x : String} {s : Stmt}

/-- The statement reads the variable through so many calls. -/
inductive ReadsIn (functions : Table Function) (x : String) : Nat → Stmt → Prop
  | here {s : Stmt} : .var x ∈ s.mentions → ReadsIn functions x 0 s
  | call {s : Stmt} {name : String} {f : Function} {k : Nat} : .fn name ∈ s.mentions →
    functions.get? name = some f → ReadsIn functions x k f.body → ReadsIn functions x (k + 1) s

theorem Reads.readsIn (h : s.Reads functions x) : ∃ k, s.ReadsIn functions x k := by
  induction h with
  | here hmem => exact ⟨0, .here hmem⟩
  | call hmem hf _ ih =>
    obtain ⟨k, hk⟩ := ih
    exact ⟨k + 1, .call hmem hf hk⟩

/-- The statement reads the variable through so many calls and not through fewer. -/
def ReadsFirst (functions : Table Function) (x : String) (k : Nat) (s : Stmt) : Prop :=
  s.ReadsIn functions x k ∧ ∀ j < k, ¬ s.ReadsIn functions x j

open Classical in
theorem ReadsIn.readsFirst {k : Nat} (h : s.ReadsIn functions x k) :
    ∃ j, s.ReadsFirst functions x j := by
  have hsome : ∃ j, s.ReadsIn functions x j := ⟨k, h⟩
  exact ⟨Nat.find hsome, Nat.find_spec hsome, fun _ => Nat.find_min hsome⟩

end Stmt

/-- Inside of the bodies of the functions `active`, the name is the variable, or a function that reads
it through fewer calls than any of them. -/
def Shows (functions : Table Function) (x : String) (active : List String) : Mention → Prop
  | .var name => name = x
  | .fn name => ∃ f k, functions.get? name = some f ∧ f.body.ReadsFirst functions x k ∧
      ∀ other ∈ active, ∀ g, functions.get? other = some g →
        ∀ j ≤ k, ¬ g.body.ReadsIn functions x j

/-- A statement that reads the variable, first in so many calls, shows it: a call that is on the
shortest way to the variable leads out of the active functions. -/
theorem Stmt.ReadsFirst.shows {functions : Table Function} {x : String} {active : List String}
    {k : Nat} {s : Stmt} (h : s.ReadsFirst functions x k)
    (hactive : ∀ other ∈ active, ∀ g, functions.get? other = some g →
      ∀ j < k, ¬ g.body.ReadsIn functions x j) :
    ∃ m ∈ s.mentions, Shows functions x active m := by
  obtain ⟨hreads, hmin⟩ := h
  cases hreads with
  | here hmem => exact ⟨_, hmem, rfl⟩
  | @call _ name f k hmem hf hbody =>
    refine ⟨_, hmem, f, k, hf, ⟨hbody, fun j hj hfewer => ?_⟩, fun other hother g hg j hj => ?_⟩
    · exact hmin (j + 1) (by omega) (.call hmem hf hfewer)
    · exact hactive other hother g hg j (by omega)

/-- The second state has another value for one variable, and the same for every other. -/
structure View.Changes (view view' : View) (x : String) (old new : Tree) : Prop where
  functions : view'.functions = view.functions
  others : ∀ name, name ≠ x → view'.value name = view.value name
  before : view.value x = some old
  after : view'.value x = some new

namespace Fingerprint

variable {view view' : View} {x : String} {old new : Tree}

/-- What is written of a function in the first state is written in the second, with the value of the
variable traded. -/
def SwapsCall (old new : Tree) (shows : Mention → Prop) (callee callee' : String → Outcome String)
    (name : String) : Prop :=
  ∀ a, callee name = .ok a → ∃ a', callee' name = .ok a' ∧
    Swaps old.encode.toList new.encode.toList shows [.fn name] a.toList a'.toList

theorem swaps_stmtWith (h : view.Changes view' x old new) {shows : Mention → Prop}
    (hshows : ∀ name, shows (.var name) → name = x) {callee callee' : String → Outcome String}
    (hcallee : ∀ name, SwapsCall old new shows callee callee' name) {s : Stmt} {a : String}
    (ha : stmtWith view callee s = .ok a) :
    ∃ a', stmtWith view' callee' s = .ok a' ∧
      Swaps old.encode.toList new.encode.toList shows s.mentions a.toList a'.toList := by
  have hknown := (isOk_stmtWith s).mp ⟨a, ha⟩
  obtain ⟨a', ha'⟩ : (stmtWith view' callee' s).IsOk := by
    refine (isOk_stmtWith s).mpr fun m hm => ?_
    cases m with
    | var name =>
      by_cases hx : name = x
      · exact ⟨new, hx ▸ h.after⟩
      · obtain ⟨t, ht⟩ := hknown _ hm
        exact ⟨t, (h.others name hx).trans ht⟩
    | fn name =>
      obtain ⟨b, hb⟩ := hknown _ hm
      obtain ⟨b', hb', -⟩ := hcallee name b hb
      exact ⟨b', hb'⟩
  refine ⟨a', ha', ?_⟩
  rw [stmtWith_eq_ok s ha, stmtWith_eq_ok s ha']
  refine Stmt.swaps_written s fun m hm => ?_
  cases m with
  | var name =>
    by_cases hx : name = x
    · subst hx
      simp only [Glossary.text, glossary, h.before, h.after, Option.elim_some]
      exact ⟨1, .swap, fun _ => Nat.one_ne_zero⟩
    · simp only [Glossary.text, glossary, h.others name hx]
      exact .same _ fun m hm hm' => hx (hshows name (List.mem_singleton.mp hm ▸ hm'))
  | fn name =>
    obtain ⟨b, hb⟩ := hknown _ hm
    obtain ⟨b', hb', hswaps⟩ := hcallee name b hb
    simpa only [Glossary.text, glossary, hb, hb'] using hswaps

theorem functionWithin_of_active {active : List String} {name : String}
    (h : active.contains name = true) (view : View) (depth : Nat) :
    functionWithin view depth active name = .ok "" := by
  cases depth <;> rw [functionWithin, if_pos h]

/-- An active function contributes its name only, and shows nothing. -/
theorem swapsCall_of_active {functions : Table Function} {active : List String} {name : String}
    (h : active.contains name = true) (depth : Nat) :
    SwapsCall old new (Shows functions x active) (functionWithin view depth active)
      (functionWithin view' depth active) name := by
  intro a ha
  cases ha.symm.trans (functionWithin_of_active h view depth)
  refine ⟨"", functionWithin_of_active h view' depth, .same _ fun m hm => ?_⟩
  rw [List.mem_singleton.mp hm]
  rintro ⟨f, k, hf, ⟨hreads, -⟩, hactive⟩
  exact hactive name (List.contains_iff_mem.mp h) f hf k le_rfl hreads

/-- A function shows the variable if it reads it through fewer calls than the active functions. -/
theorem swaps_functionWithin (h : view.Changes view' x old new) (depth : Nat) (active : List String)
    (name : String) :
    SwapsCall old new (Shows view.functions x active) (functionWithin view depth active)
      (functionWithin view' depth active) name := by
  induction depth generalizing active name with
  | zero =>
    by_cases hactive : active.contains name = true
    · exact swapsCall_of_active hactive 0
    · intro a ha
      rw [functionWithin, if_neg hactive] at ha
      split at ha <;> cases ha
  | succ depth ih =>
    by_cases hactive : active.contains name = true
    · exact swapsCall_of_active hactive (depth + 1)
    · intro a ha
      rw [functionWithin, if_neg hactive] at ha
      cases hf : view.functions.get? name with
      | none =>
        rw [hf] at ha
        cases ha
      | some f =>
        rw [hf] at ha
        obtain ⟨body, hbody, hpure⟩ := Outcome.bind_eq_ok.mp ha
        cases hpure
        obtain ⟨body', hbody', hswaps⟩ := swaps_stmtWith h (fun _ h => h) (ih (name :: active)) hbody
        have ha' : functionWithin view' (depth + 1) active name =
            .ok (parameters f.params ++ ":body:" ++ body') := by
          rw [functionWithin, if_neg hactive, h.functions, hf]
          exact Outcome.bind_eq_ok.mpr ⟨body', hbody', rfl⟩
        refine ⟨_, ha', ?_⟩
        simp only [String.toList_append]
        -- what the call shows, the body of the function shows with the function among the active
        refine (hswaps.after _).mono ?_
        rintro ⟨m, hm, hshows⟩
        rw [List.mem_singleton.mp hm] at hshows
        obtain ⟨f', k, hf', hfirst, hothers⟩ := hshows
        cases hf.symm.trans hf'
        refine hfirst.shows fun other hmem g hg j hj => ?_
        rcases List.mem_cons.mp hmem with rfl | hmem
        · cases hf.symm.trans hg
          exact hfirst.2 j hj
        · exact hothers other hmem g hg j hj.le

/-- If the statement reads the variable, its fingerprint is written in the second state too, with the
value of the variable traded at least once. -/
theorem swaps_stmt (h : view.Changes view' x old new) {s : Stmt} {a : String}
    (ha : stmt view s = .ok a) (hreads : s.Reads view.functions x) :
    ∃ a' k, stmt view' s = .ok a' ∧ k ≠ 0 ∧
      Trades old.encode.toList new.encode.toList k a.toList a'.toList := by
  have hcallee := swaps_functionWithin h view.functions.size []
  obtain ⟨a', ha', k, htrades, hk⟩ := swaps_stmtWith h (fun _ h => h) hcallee ha
  obtain ⟨j, hj⟩ := hreads.readsIn
  obtain ⟨i, hfirst⟩ := hj.readsFirst
  refine ⟨a', k, ?_, hk (hfirst.shows fun other hmem => by cases hmem), htrades⟩
  rw [stmt, function, h.functions]
  exact ha'

end Fingerprint

/-! ## Scalars -/

namespace Value

/-- What a scalar looks like. -/
def leaf : Value → Tree
  | int n => .int n
  | str s => .str s
  | _ => .void

theorem tree?_of_isScalar {v : Value} (h : v.IsScalar) (m : Memory) : m.tree? v = some v.leaf := by
  cases v with
  | void | int | str =>
    unfold Memory.tree? Memory.treeWithin
    rfl
  | array | dict => exact h.elim

/-- What is written of a scalar after its type. -/
def leafText : Value → String
  | int n => Text.Numeral.decimal n
  | str s => s
  | _ => ""

theorem encode_leaf {v : Value} (h : v.IsScalar) :
    v.leaf.encode = Digest.header v.tag ++ v.leafText := by
  cases v with
  | void => simp [leaf, Tree.encode, tag, leafText]
  | int | str => simp only [leaf, Tree.encode, tag, leafText]
  | array | dict => exact h.elim

/-- A scalar is told from every other by what is written of it. -/
theorem encode_leaf_injective {v w : Value} (hv : v.IsScalar) (hw : w.IsScalar)
    (h : v.leaf.encode.toList = w.leaf.encode.toList) : v = w := by
  have htag (v : Value) : ':' ∉ v.tag.toList := by
    cases v <;> simp only [tag] <;> decide +kernel
  rw [encode_leaf hv, encode_leaf hw, String.toList_append, String.toList_append] at h
  obtain ⟨htags, htext⟩ := header_append_inj (htag v) (htag w) h
  cases v with
  | array | dict => exact hv.elim
  | void =>
    cases w with
    | void => rfl
    | _ => simp [tag] at htags
  | int n =>
    cases w with
    | int k =>
      have hend : Text.Numeral.NoDigit [] := fun c hc => by cases hc
      rw [← List.append_nil (leafText _).toList, ← List.append_nil (leafText (int k)).toList] at htext
      exact congrArg int (Text.Numeral.decimal_append_inj hend hend htext).1
    | _ => simp [tag] at htags
  | str s =>
    cases w with
    | str t => exact congrArg str (String.toList_injective htext)
    | _ => simp [tag] at htags

end Value

/-- Two states with the same functions and with the same values of all variables but one, which is a
scalar in both, but another one: a statement that reads the variable, itself or in a function that is
reached through its calls, has other bytes for its fingerprint in the second state, if it has a
fingerprint in the first. -/
theorem scalar_change_changes_fingerprint {s s' : Machine} {x : String} {stmt : Stmt} {text : String}
    (hfunctions : s'.run.functions = s.run.functions)
    (hothers : ∀ name, name ≠ x → (Action.viewOf s').value name = (Action.viewOf s).value name)
    (hscalar : (s.memory.getVar s.frame.scope x).IsScalar)
    (hscalar' : (s'.memory.getVar s'.frame.scope x).IsScalar)
    (hne : s.memory.getVar s.frame.scope x ≠ s'.memory.getVar s'.frame.scope x)
    (hreads : stmt.Reads s.run.functions x)
    (htext : Fingerprint.stmt (Action.viewOf s) stmt = .ok text) :
    ∃ text', Fingerprint.stmt (Action.viewOf s') stmt = .ok text' ∧ text.toUTF8 ≠ text'.toUTF8 := by
  have hchanges : (Action.viewOf s).Changes (Action.viewOf s') x
      (s.memory.getVar s.frame.scope x).leaf (s'.memory.getVar s'.frame.scope x).leaf :=
    ⟨hfunctions, hothers, Value.tree?_of_isScalar hscalar _, Value.tree?_of_isScalar hscalar' _⟩
  obtain ⟨text', k, htext', hk, htrades⟩ := swaps_stmt hchanges htext hreads
  refine ⟨text', htext', fun hbytes => hk ?_⟩
  refine htrades.eq_zero (fun hleaf => ?_) (congrArg String.toList (String.toByteArray_inj.mp hbytes))
  exact hne (Value.encode_leaf_injective hscalar hscalar' hleaf)

/-- `function f() { g(); x; }` -/
def Function.readingX : Function :=
  ⟨"f", [], .block ⟨"/m", 1⟩ [.expr ⟨"/m", 1⟩ (.call "g" []), .expr ⟨"/m", 1⟩ (.var "x")], false⟩

/-- `function g() f();` -/
def Function.callingF : Function := ⟨"g", [], .expr ⟨"/m", 2⟩ (.call "f" []), false⟩

/-- A state with the two functions and with a value in `x`. -/
def Machine.holding (v : Value) : Machine :=
  { Machine.blank with
    memory := ⟨#[v], #[], #[], #[⟨⟨[("x", ⟨0⟩)], List.pairwise_singleton _ _⟩, []⟩]⟩
    run := ⟨⟨[("f", .readingX), ("g", .callingF)], by decide +kernel⟩, .empty, "/"⟩ }

theorem Machine.value_holding (v : Value) {name : String} (h : name ≠ "x") :
    (Action.viewOf (.holding v)).value name = some .void := by
  have hnone : (Machine.holding v).memory.findVar ⟨0⟩ name = none := by
    simp [holding, Memory.findVar, Memory.scope, Table.get?, Table.find, h]
  have hvoid : (Machine.holding v).memory.getVar ⟨0⟩ name = .void := by
    rw [Memory.getVar, hnone]
  show Memory.tree? _ (Memory.getVar _ ⟨0⟩ name) = _
  rw [hvoid]
  exact Value.tree?_of_isScalar (v := .void) trivial _

/-- The number 1 and the text 1, in a variable that is read two calls further on. -/
theorem scalar_change_changes_fingerprint_callingF :
    ∃ text text',
      Fingerprint.stmt (Action.viewOf (.holding (.int 1))) Function.callingF.body = .ok text ∧
      Fingerprint.stmt (Action.viewOf (.holding (.str "1"))) Function.callingF.body = .ok text' ∧
      text.toUTF8 ≠ text'.toUTF8 := by
  let s : Machine := .holding (.int 1)
  let s' : Machine := .holding (.str "1")
  obtain ⟨text, htext⟩ :
      ∃ text, Fingerprint.stmt (Action.viewOf s) Function.callingF.body = .ok text := ⟨_, rfl⟩
  have hfunctions : s'.run.functions = s.run.functions := rfl
  have hothers : ∀ name, name ≠ "x" →
      (Action.viewOf s').value name = (Action.viewOf s).value name := fun name hname => by
    rw [Machine.value_holding _ hname, Machine.value_holding _ hname]
  have hmentions : .var "x" ∈ Function.readingX.body.mentions := by
    simp [Function.readingX, Stmt.mentions, Stmt.mentionsAll, Expr.mentions, Expr.mentionsAll]
  have hreads : Function.callingF.body.Reads s.run.functions "x" :=
    .call (List.mem_singleton_self _) rfl (.here hmentions)
  have hscalar : (s.memory.getVar s.frame.scope "x").IsScalar := trivial
  have hscalar' : (s'.memory.getVar s'.frame.scope "x").IsScalar := trivial
  have hne : s.memory.getVar s.frame.scope "x" ≠ s'.memory.getVar s'.frame.scope "x" := by decide
  obtain ⟨text', htext', hbytes⟩ :=
    scalar_change_changes_fingerprint hfunctions hothers hscalar hscalar' hne hreads htext
  exact ⟨text, text', htext, htext', hbytes⟩

end Kiln
