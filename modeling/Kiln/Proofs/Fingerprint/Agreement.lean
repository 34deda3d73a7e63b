import Mathlib.Data.List.Perm.Basic
import Mathlib.Data.List.Perm.Subperm
import Kiln.Proofs.Fingerprint.Sensitivity
import Kiln.Proofs.Table

/-!
# Kiln.Proofs.Fingerprint.Agreement — what a fingerprint depends on

A fingerprint is a function of the code and of the data the code names.  Two states that agree about
the values of the variables a statement reads, and about the code of the functions it reaches, give
the statement the same fingerprint, or refuse one for the same reason.  What else differs between
them is not seen: other variables and functions, which values share a container, the working
directory, the module, the target, and where in which file the code stands.

The two function tables may have different sizes, so that the bodies are opened with different bounds
on their number.  That the bounds never matter rests on `Room`: the functions whose bodies are open
are different entries of the table, and there is a step left for each of the others.
-/

namespace Kiln

/-- What counts of a function: its parameters, and its body without locations. -/
def Function.code (f : Function) : List String × Stmt := (f.params, f.body.unlocated)

namespace Stmt

/-- The statement calls the function, itself or in the body of a function that is reached through its
calls. -/
inductive Reaches (functions : Table Function) (name : String) : Stmt → Prop
  | here {s : Stmt} : .fn name ∈ s.mentions → Reaches functions name s
  | call {s : Stmt} {caller : String} {f : Function} : .fn caller ∈ s.mentions →
    functions.get? caller = some f → Reaches functions name f.body → Reaches functions name s

section Closed

variable {functions : Table Function} {p : Mention → Prop}

/-- What holds of the names in a statement, and from a function's name passes to the names in its
body, holds of every variable that is read. -/
theorem Reads.closed (hp : ∀ name f, p (.fn name) → functions.get? name = some f →
    ∀ m ∈ f.body.mentions, p m) {x : String} {s : Stmt} (h : s.Reads functions x)
    (hs : ∀ m ∈ s.mentions, p m) : p (.var x) := by
  induction h with
  | here hm => exact hs _ hm
  | call hname hf _ ih => exact ih (hp _ _ (hs _ hname) hf)

theorem Reaches.closed (hp : ∀ name f, p (.fn name) → functions.get? name = some f →
    ∀ m ∈ f.body.mentions, p m) {name : String} {s : Stmt} (h : s.Reaches functions name)
    (hs : ∀ m ∈ s.mentions, p m) : p (.fn name) := by
  induction h with
  | here hm => exact hs _ hm
  | call hname hf _ ih => exact ih (hp _ _ (hs _ hname) hf)

end Closed

end Stmt

namespace Fingerprint

section Unlocated

variable (view : View) (callee : String → Outcome String)

mutual

/-- Locations are not fingerprinted. -/
theorem stmtWith_unlocated : ∀ s : Stmt, stmtWith view callee s.unlocated = stmtWith view callee s
  | .block _ ss => by simp only [Stmt.unlocated, stmtWith, stmtsWith_unlocatedAll ss]
  | .branch _ _ yes none => by simp only [Stmt.unlocated, stmtWith, stmtWith_unlocated yes]
  | .branch _ _ yes (some no) => by
    simp only [Stmt.unlocated, stmtWith, stmtWith_unlocated yes, stmtWith_unlocated no]
  | .loop _ _ _ _ body | .foreach _ _ _ body | .depends _ _ body => by
    simp only [Stmt.unlocated, stmtWith, stmtWith_unlocated body]
  | .expr .. | .breakStmt _ | .continueStmt _ | .returnStmt .. | .includeStmt ..
  | .usingStmt .. => by
    simp only [Stmt.unlocated, stmtWith]

theorem stmtsWith_unlocatedAll :
    ∀ ss : List Stmt, stmtsWith view callee (Stmt.unlocatedAll ss) = stmtsWith view callee ss
  | [] => by simp only [Stmt.unlocatedAll]
  | s :: rest => by
    simp only [Stmt.unlocatedAll, stmtsWith, stmtWith_unlocated s, stmtsWith_unlocatedAll rest]

end

end Unlocated

/-! ## Parts that are related make related fingerprints -/

/-- A relation that two computations have if their parts have it. -/
structure Congruence (R : Outcome String → Outcome String → Prop) : Prop where
  pure : ∀ text : String, R (pure text) (pure text)
  error : ∀ e : Error, R (.error e) (.error e)
  bind : ∀ {o o' : Outcome String} {f f' : String → Outcome String}, R o o' →
    (∀ text, R (f text) (f' text)) → R (o >>= f) (o' >>= f')

variable {R : Outcome String → Outcome String → Prop}

theorem Congruence.map (hR : Congruence R) {o o' : Outcome String} (h : R o o')
    (f : String → String) : R (o >>= fun text => Pure.pure (f text))
      (o' >>= fun text => Pure.pure (f text)) :=
  hR.bind h fun text => hR.pure (f text)

variable {view view' : View} {callee callee' : String → Outcome String}

/-- What is written for the name on either side is related. -/
def Related (R : Outcome String → Outcome String → Prop) (view view' : View)
    (callee callee' : String → Outcome String) : Mention → Prop
  | .var name => R (reference view name) (reference view' name)
  | .fn name => R (callee name) (callee' name)

section Rel

variable (hR : Congruence R)
include hR

mutual

theorem exprWith_rel : ∀ e : Expr, (∀ m ∈ e.mentions, Related R view view' callee callee' m) →
    R (exprWith view callee e) (exprWith view' callee' e)
  | .const value, _ => hR.pure _
  | .var name, h => h (.var name) (List.mem_singleton_self _)
  | .array es, h => hR.map (labelledWith_rel ":elem:" es h) _
  | .dict ps, h => hR.map (pairsWith_rel ps h) _
  | .unary _ arg, h | .bump _ _ arg, h => hR.map (exprWith_rel arg h) _
  | .binary _ left right, h => by
    obtain ⟨hl, hr⟩ := List.forall_mem_append.mp h
    exact hR.bind (exprWith_rel left hl) fun _ => hR.map (exprWith_rel right hr) _
  | .ternary cond yes no, h => by
    obtain ⟨hcy, hn⟩ := List.forall_mem_append.mp h
    obtain ⟨hc, hy⟩ := List.forall_mem_append.mp hcy
    exact hR.bind (exprWith_rel cond hc) fun _ => hR.bind (exprWith_rel yes hy) fun _ =>
      hR.map (exprWith_rel no hn) _
  | .builtin _ args, h => hR.map (labelledWith_rel ":arg:" args h) _
  | .call name args, h => by
    obtain ⟨hf, has⟩ := List.forall_mem_cons.mp h
    exact hR.bind hf fun _ => hR.map (labelledWith_rel ":arg:" args has) _

theorem labelledWith_rel (label : String) : ∀ es : List Expr,
    (∀ m ∈ Expr.mentionsAll es, Related R view view' callee callee' m) →
    R (labelledWith view callee label es) (labelledWith view' callee' label es)
  | [], _ => hR.pure _
  | e :: rest, h => by
    obtain ⟨he, hrest⟩ := List.forall_mem_append.mp h
    exact hR.bind (exprWith_rel e he) fun _ => hR.map (labelledWith_rel label rest hrest) _

theorem pairsWith_rel : ∀ ps : List (Expr × Expr),
    (∀ m ∈ Expr.mentionsEntries ps, Related R view view' callee callee' m) →
    R (pairsWith view callee ps) (pairsWith view' callee' ps)
  | [], _ => hR.pure _
  | (k, v) :: rest, h => by
    obtain ⟨hkv, hrest⟩ := List.forall_mem_append.mp h
    obtain ⟨hk, hv⟩ := List.forall_mem_append.mp hkv
    exact hR.bind (exprWith_rel k hk) fun _ => hR.bind (exprWith_rel v hv) fun _ =>
      hR.map (pairsWith_rel rest hrest) _

end

theorem clauseWith_rel (label : String) (clause : Option Expr)
    (h : ∀ m ∈ Expr.mentionsClause clause, Related R view view' callee callee' m) :
    R (clauseWith view callee label clause) (clauseWith view' callee' label clause) := by
  cases clause with
  | none => exact hR.pure _
  | some e => exact hR.map (exprWith_rel hR e h) _

mutual

theorem stmtWith_rel : ∀ s : Stmt, (∀ m ∈ s.mentions, Related R view view' callee callee' m) →
    R (stmtWith view callee s) (stmtWith view' callee' s)
  | .expr _ e, h | .includeStmt _ e, h | .usingStmt _ e, h => hR.map (exprWith_rel hR e h) _
  | .block _ ss, h => hR.map (stmtsWith_rel ss h) _
  | .branch _ cond yes none, h => by
    obtain ⟨hc, hy⟩ := List.forall_mem_append.mp h
    exact hR.bind (exprWith_rel hR cond hc) fun _ => hR.map (stmtWith_rel yes hy) _
  | .branch _ cond yes (some no), h => by
    obtain ⟨hcy, hn⟩ := List.forall_mem_append.mp h
    obtain ⟨hc, hy⟩ := List.forall_mem_append.mp hcy
    exact hR.bind (exprWith_rel hR cond hc) fun _ => hR.bind (stmtWith_rel yes hy) fun _ =>
      hR.map (stmtWith_rel no hn) _
  | .loop _ init cond next body, h => by
    obtain ⟨hclauses, hb⟩ := List.forall_mem_append.mp h
    obtain ⟨hic, hn⟩ := List.forall_mem_append.mp hclauses
    obtain ⟨hi, hc⟩ := List.forall_mem_append.mp hic
    exact hR.bind (clauseWith_rel hR _ init hi) fun _ => hR.bind (clauseWith_rel hR _ cond hc)
      fun _ => hR.bind (clauseWith_rel hR _ next hn) fun _ => hR.map (stmtWith_rel body hb) _
  | .foreach _ _ e body, h | .depends _ e body, h => by
    obtain ⟨he, hb⟩ := List.forall_mem_append.mp h
    exact hR.bind (exprWith_rel hR e he) fun _ => hR.map (stmtWith_rel body hb) _
  | .breakStmt _, _ | .continueStmt _, _ => hR.pure _
  | .returnStmt _ value, h => hR.map (clauseWith_rel hR "" value h) _

theorem stmtsWith_rel : ∀ ss : List Stmt,
    (∀ m ∈ Stmt.mentionsAll ss, Related R view view' callee callee' m) →
    R (stmtsWith view callee ss) (stmtsWith view' callee' ss)
  | [], _ => hR.pure _
  | s :: rest, h => by
    obtain ⟨hs, hrest⟩ := List.forall_mem_append.mp h
    exact hR.bind (stmtWith_rel s hs) fun _ => hR.map (stmtsWith_rel rest hrest) _

end

end Rel

/-! ## The bodies of functions -/

/-- The bodies of the functions `active` are open, and `depth` more can be opened. -/
structure Room (functions : Table Function) (depth : Nat) (active : List String) : Prop where
  nodup : active.Nodup
  entered : ∀ name ∈ active, name ∈ functions.keys
  enough : functions.size ≤ depth + active.length

namespace Room

variable {functions : Table Function} {depth : Nat} {active : List String} {name : String}

theorem start (functions : Table Function) : Room functions functions.size [] :=
  ⟨.nil, nofun, Nat.le_refl _⟩

/-- The body of a function that is not open can be opened. -/
theorem push (h : Room functions depth active) (hnew : name ∉ active) (hkey : name ∈ functions.keys) :
    ∃ d, depth = d + 1 ∧ Room functions d (name :: active) := by
  have hnodup : (name :: active).Nodup := List.nodup_cons.mpr ⟨hnew, h.nodup⟩
  have hsub : ∀ x ∈ name :: active, x ∈ functions.keys := List.forall_mem_cons.mpr ⟨hkey, h.entered⟩
  have hlength : (name :: active).length ≤ functions.keys.length :=
    (List.subperm_of_subset hnodup hsub).length_le
  have henough := h.enough
  rw [Table.keys, List.length_map, List.length_cons] at hlength
  rw [Table.size] at henough
  obtain ⟨d, rfl⟩ : ∃ d, depth = d + 1 := ⟨depth - 1, by omega⟩
  exact ⟨d, rfl, hnodup, hsub, by simp only [Table.size, List.length_cons]; omega⟩

end Room

theorem functionWithin_of_undefined {active : List String} {name : String} (h : name ∉ active)
    (hnone : view.functions.get? name = none) (depth : Nat) :
    functionWithin view depth active name = .error (.fault (.undefinedFunction name)) := by
  have hactive : ¬ active.contains name = true := fun hc => h (List.contains_iff_mem.mp hc)
  cases depth <;> simp only [functionWithin, if_neg hactive, hnone]

theorem functionWithin_succ {active : List String} {name : String} {f : Function}
    (h : name ∉ active) (hf : view.functions.get? name = some f) (depth : Nat) :
    functionWithin view (depth + 1) active name =
      (stmtWith view (functionWithin view depth (name :: active)) f.body >>= fun body =>
        pure (parameters f.params ++ ":body:" ++ body)) := by
  have hactive : ¬ active.contains name = true := fun hc => h (List.contains_iff_mem.mp hc)
  simp only [functionWithin, if_neg hactive, hf]

/-- The views agree about what a statement refers to, directly or through calls: what is written of a
variable is related, and every function has the same code. -/
structure Agrees (R : Outcome String → Outcome String → Prop) (view view' : View) (s : Stmt) :
    Prop where
  value : ∀ x, s.Reads view.functions x → R (reference view x) (reference view' x)
  code : ∀ name, s.Reaches view.functions name →
    (view'.functions.get? name).map Function.code = (view.functions.get? name).map Function.code

theorem Agrees.body {s : Stmt} {name : String} {f : Function} (h : Agrees R view view' s)
    (hname : .fn name ∈ s.mentions) (hf : view.functions.get? name = some f) :
    Agrees R view view' f.body :=
  ⟨fun x hx => h.value x (.call hname hf hx), fun g hg => h.code g (.call hname hf hg)⟩

/-- A call contributes related texts, whatever the bounds are and whichever bodies are open. -/
theorem functionWithin_rel (hR : Congruence R) {s : Stmt} (h : Agrees R view view' s) {name : String}
    (hname : .fn name ∈ s.mentions) {depth depth' : Nat} {active : List String}
    (hroom : Room view.functions depth active) (hroom' : Room view'.functions depth' active) :
    R (functionWithin view depth active name) (functionWithin view' depth' active name) := by
  by_cases hactive : name ∈ active
  · have hcontains := List.contains_iff_mem.mpr hactive
    rw [functionWithin_of_active hcontains, functionWithin_of_active hcontains]
    exact hR.pure ""
  have hcode := h.code name (.here hname)
  cases hf : view.functions.get? name with
  | none =>
    have hf' : view'.functions.get? name = none := by simpa [hf] using hcode
    rw [functionWithin_of_undefined hactive hf, functionWithin_of_undefined hactive hf']
    exact hR.error _
  | some f =>
    obtain ⟨f', hf', hff'⟩ : ∃ f', view'.functions.get? name = some f' ∧ f'.code = f.code := by
      simpa [hf] using hcode
    have hparams : f'.params = f.params := congrArg Prod.fst hff'
    have hbody : f'.body.unlocated = f.body.unlocated := congrArg Prod.snd hff'
    obtain ⟨d, rfl, hopen⟩ := hroom.push hactive (Table.mem_keys_of_get? hf)
    obtain ⟨d', rfl, hopen'⟩ := hroom'.push hactive (Table.mem_keys_of_get? hf')
    rw [functionWithin_succ hactive hf, functionWithin_succ hactive hf', hparams,
      ← stmtWith_unlocated view' _ f'.body, hbody, stmtWith_unlocated]
    have hagrees := h.body hname hf
    refine hR.map (stmtWith_rel hR f.body fun m hm => ?_) _
    cases m with
    | var x => exact hagrees.value x (.here hm)
    | fn callee => exact functionWithin_rel hR hagrees hm hopen hopen'
termination_by depth

/-- Statements that differ in their locations only, read against views that agree. -/
theorem stmt_rel (hR : Congruence R) {s s' : Stmt} (hs : s'.unlocated = s.unlocated)
    (h : Agrees R view view' s) : R (stmt view s) (stmt view' s') := by
  rw [stmt, stmt, ← stmtWith_unlocated view' _ s', hs, stmtWith_unlocated]
  refine stmtWith_rel hR s fun m hm => ?_
  cases m with
  | var x => exact h.value x (.here hm)
  | fn name => exact functionWithin_rel hR h hm (.start _) (.start _)

/-! ## The two relations -/

theorem congruence_eq : Congruence (· = ·) where
  pure _ := rfl
  error _ := rfl
  bind ho hf := by rw [ho, funext hf]

/-- The fingerprint is settled: it is a text or an error. -/
theorem congruence_settled : Congruence fun o _ => o ≠ .exhausted where
  pure _ := nofun
  error _ := nofun
  bind {o _ f _} ho hf := by
    cases o with
    | ok text => exact hf text
    | error e => exact nofun
    | exhausted => exact absurd rfl ho

end Fingerprint

/-- Two states in which all variables that a statement reads have the same values, and all functions
that it reaches have the same parameters and the same bodies up to locations: the statement has the
same fingerprint in both, wherever it stands, or in both none for the same reason.  The fingerprint is
settled if no variable that is read contains itself. -/
theorem fingerprint_of_agreement {m m' : Machine} {s s' : Stmt} (hs : s'.unlocated = s.unlocated)
    (hvalues : ∀ x, s.Reads m.run.functions x →
      (Action.viewOf m').value x = (Action.viewOf m).value x)
    (hcode : ∀ name, s.Reaches m.run.functions name →
      (m'.run.functions.get? name).map Function.code =
        (m.run.functions.get? name).map Function.code) :
    Fingerprint.stmt (Action.viewOf m') s' = Fingerprint.stmt (Action.viewOf m) s ∧
      ((∀ x, s.Reads m.run.functions x → (Action.viewOf m).value x ≠ none) →
        Fingerprint.stmt (Action.viewOf m) s ≠ .exhausted) := by
  constructor
  · refine (Fingerprint.stmt_rel Fingerprint.congruence_eq hs ⟨fun x hx => ?_, hcode⟩).symm
    simp only [Fingerprint.reference, hvalues x hx]
  · intro hfinite
    have hagrees : Fingerprint.Agrees (fun o _ => o ≠ .exhausted) (Action.viewOf m)
        (Action.viewOf m') s := by
      refine ⟨fun x hx => ?_, hcode⟩
      obtain ⟨t, ht⟩ := Option.ne_none_iff_exists'.mp (hfinite x hx)
      simp [Fingerprint.reference, ht]
    exact Fingerprint.stmt_rel Fingerprint.congruence_settled hs hagrees

/-- `f` and `g` call each other, and `f` reads `x`, which holds `[1]`, as `y` does. -/
def Machine.sharing : Machine :=
  { Machine.holding .void with
    memory := ⟨#[.array ⟨0⟩, .array ⟨0⟩, .int 1], #[#[⟨2⟩]], #[],
      #[⟨⟨[("x", ⟨0⟩), ("y", ⟨1⟩)], by decide +kernel⟩, []⟩]⟩ }

/-- The same code and the same `x`, but code that stands elsewhere, a function more, another `y` with
an array of its own, and another directory, module and target. -/
def Machine.apart : Machine :=
  { Machine.blank with
    memory := ⟨#[.int 1, .int 2, .array ⟨1⟩, .array ⟨0⟩], #[#[⟨1⟩], #[⟨0⟩]], #[],
      #[⟨.empty, []⟩, ⟨⟨[("x", ⟨2⟩), ("y", ⟨3⟩)], by decide +kernel⟩, []⟩]⟩
    frame := ⟨"other", "all", ⟨1⟩, .none⟩
    run := ⟨⟨[("e", ⟨"e", ["y"], .breakStmt ⟨"/o", 1⟩, true⟩),
      ("f", ⟨"f", [], Function.readingX.body.unlocated, true⟩),
      ("g", ⟨"g", [], .expr ⟨"/o", 7⟩ (.call "f" []), false⟩)], by decide +kernel⟩, .empty, "/tmp"⟩ }

theorem fingerprint_of_agreement_recursion :
    Fingerprint.stmt (Action.viewOf .apart) (.expr ⟨"/o", 9⟩ (.call "g" [])) =
        Fingerprint.stmt (Action.viewOf .sharing) (.expr ⟨"/m", 3⟩ (.call "g" [])) ∧
      Fingerprint.stmt (Action.viewOf .sharing) (.expr ⟨"/m", 3⟩ (.call "g" [])) ≠ .exhausted := by
  let known : Mention → Prop := fun m => m = .var "x" ∨ m = .fn "f" ∨ m = .fn "g"
  have hf : ∀ m ∈ Function.readingX.body.mentions, known m := by
    simp [known, Function.readingX, Stmt.mentions, Stmt.mentionsAll, Expr.mentions,
      Expr.mentionsAll]
  have hg : ∀ m ∈ Function.callingF.body.mentions, known m := by
    simp [known, Function.callingF, Stmt.mentions, Expr.mentions, Expr.mentionsAll]
  have hs : ∀ m ∈ (Stmt.expr ⟨"/m", 3⟩ (.call "g" [])).mentions, known m := by
    simp [known, Stmt.mentions, Expr.mentions, Expr.mentionsAll]
  have hclosed : ∀ name f, known (.fn name) → Machine.sharing.run.functions.get? name = some f →
      ∀ m ∈ f.body.mentions, known m := by
    rintro name f (hname | hname | hname) hget <;> cases hname <;> cases hget
    · exact hf
    · exact hg
  have hreads : ∀ x, Stmt.Reads Machine.sharing.run.functions x _ → x = "x" := fun x hx => by
    obtain h | h | h := hx.closed hclosed hs <;> cases h
    rfl
  have hvalue : (Action.viewOf .sharing).value "x" = some (.array [.int 1]) := rfl
  have hagreement := @fingerprint_of_agreement .sharing .apart (.expr ⟨"/m", 3⟩ (.call "g" []))
    (.expr ⟨"/o", 9⟩ (.call "g" [])) rfl
    (fun x hx => by rw [hreads x hx]; rfl)
    (fun name hname => by
      obtain h | h | h := hname.closed hclosed hs <;> cases h
      · rfl
      · rfl)
  exact ⟨hagreement.1, hagreement.2 fun x hx => by simp [hreads x hx, hvalue]⟩

end Kiln
