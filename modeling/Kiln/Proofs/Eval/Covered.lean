import Kiln.Proofs.Eval.Isolation
import Kiln.Proofs.Eval.Loaded

/-!
# Kiln.Proofs.Eval.Covered — blocks keep changes of the working directory to themselves

A statement is covered if no `cd` and no `include` stands in it outside of a block.  If all functions
of the run have covered bodies, then a covered statement leaves the working directory as it was,
however it ends: blocks and `using` put the directory back themselves, another build file has a run of
its own, and a function that is called is covered.

Which functions a run has may change while it goes on.  But a function that is bound stays bound, so
it is enough to look at the function table in the end.
-/

namespace Kiln

open Kiln.Action

/-! ## Covered statements -/

namespace Expr

mutual

/-- No `cd` is called in the expression itself. -/
def still : Expr → Bool
  | .const _ | .var _ => true
  | .array es => stillAll es
  | .dict ps => stillEntries ps
  | .unary _ arg | .bump _ _ arg => still arg
  | .binary _ left right => still left && still right
  | .ternary cond yes no => still cond && still yes && still no
  | .builtin fn args => fn != .cd && stillAll args
  | .call _ args => stillAll args

/-- No `cd` is called in a list of expressions. -/
def stillAll : List Expr → Bool
  | [] => true
  | e :: rest => still e && stillAll rest

/-- No `cd` is called in the entries of a dictionary. -/
def stillEntries : List (Expr × Expr) → Bool
  | [] => true
  | (k, v) :: rest => still k && still v && stillEntries rest

end

/-- No `cd` is called in an optional expression. -/
def stillClause : Option Expr → Bool
  | none => true
  | some e => e.still

theorem still_of_stillAll {es : List Expr} (h : stillAll es = true) : ∀ e ∈ es, e.still = true := by
  induction es with
  | nil => simp
  | cons e rest ih =>
    simp only [stillAll, Bool.and_eq_true] at h
    exact List.forall_mem_cons.mpr ⟨h.1, ih h.2⟩

theorem still_of_stillEntries {ps : List (Expr × Expr)} (h : stillEntries ps = true) :
    ∀ p ∈ ps, p.1.still = true ∧ p.2.still = true := by
  induction ps with
  | nil => simp
  | cons p rest ih =>
    obtain ⟨k, v⟩ := p
    simp only [stillEntries, Bool.and_eq_true] at h
    exact List.forall_mem_cons.mpr ⟨h.1, ih h.2⟩

end Expr

/-- Every `cd` and every `include` of the statement's own tree lies inside a block of that tree. -/
def Stmt.covered : Stmt → Bool
  | .expr _ e => e.still
  | .block _ _ => true
  | .branch _ cond yes none => cond.still && yes.covered
  | .branch _ cond yes (some no) => cond.still && yes.covered && no.covered
  | .loop _ init cond next body =>
    Expr.stillClause init && Expr.stillClause cond && Expr.stillClause next && body.covered
  | .foreach _ _ items body => items.still && body.covered
  | .breakStmt _ | .continueStmt _ => true
  | .returnStmt _ value => Expr.stillClause value
  | .depends _ paths action => paths.still && action.covered
  | .includeStmt _ _ => false
  | .usingStmt _ path => path.still

namespace Machine

/-- All functions of the run have covered bodies. -/
def Covered (s : Machine) : Prop :=
  ∀ name f, s.run.functions.get? name = some f → f.body.covered = true

theorem covered_iff {s : Machine} :
    s.Covered ↔ ∀ entry ∈ s.run.functions.entries, entry.2.body.covered = true := by
  simp only [Covered, Table.get?_eq_some_iff, Prod.forall]

instance (s : Machine) : Decidable s.Covered := decidable_of_iff _ covered_iff.symm

end Machine

/-! ## Staying in a directory -/

theorem functions_of_function {s : Machine} {name : String} {f : Function}
    (h : function name s = (.ok f, s)) : s.run.functions.get? name = some f := by
  rw [function, Step.look_bind_run] at h
  cases hfound : s.run.functions.get? name with
  | some g =>
    rw [hfound] at h
    cases h
    rfl
  | none =>
    rw [hfound] at h
    cases h

/-- The law of what stays in its directory if all functions are covered in the end. -/
def staying : Step.Law Machine where
  inv _ := True
  rel s t := t.run.functions.Extends s.run.functions ∧ (t.Covered → t.run.cwd = s.run.cwd)
  refl _ := ⟨.refl _, fun _ => rfl⟩
  trans h h' := ⟨h.1.trans h'.1, fun hu =>
    (h'.2 hu).trans (h.2 fun name f hf => hu name f (h'.1 name f hf))⟩

/-- The action stays in its directory if all functions are covered in the end. -/
abbrev Stays {α : Type} (s : Machine) (m : Action α) : Prop := m.Obeys staying s fun _ _ => True

section Rules

variable {α β : Type} {s : Machine} {m : Action α} {k : α → Action β}

namespace Stays

theorem of_run_eq (h : (m s).2.run = s.run) : Stays s m :=
  ⟨trivial, ⟨h ▸ .refl _, fun _ => h ▸ rfl⟩, fun _ _ => trivial⟩

theorem pure (a : α) : Stays s (pure a) := .of_run_eq rfl

theorem fault (f : Fault) : Stays s (.fault f : Action α) := .of_run_eq rfl

theorem stuck : Stays s (.stuck : Action α) := .of_run_eq rfl

theorem bind (hm : Stays s m) (hk : ∀ a t, staying.rel s t → Stays t (k a)) : Stays s (m >>= k) :=
  Step.Obeys.bind hm fun a t _ hst _ => hk a t hst

theorem quiet (h : m.Quiet) : Stays s m := .of_run_eq (h s).rel.run

/-- What is looked at is known afterwards. -/
theorem look {f : Machine → α} (h : Stays s (k (f s))) : Stays s (.look f >>= k) :=
  Step.Obeys.of_run_eq h (staying.refl s) rfl

theorem state {k : Machine → Action β} (h : Stays s (k s)) : Stays s (Step.state >>= k) :=
  Step.Obeys.of_run_eq h (staying.refl s) rfl

theorem each {f : α → Action β} {as : List α} (h : ∀ a ∈ as, ∀ t, Stays t (f a)) :
    Stays s (.each f as) :=
  (Step.Obeys.each trivial (fun _ _ _ _ _ => trivial) fun a ha t _ _ => h a ha t).mono
    fun _ _ _ _ _ => trivial

theorem keepingFrame (h : Stays s m) : Stays s (Interpreter.keepingFrame m) :=
  Step.Obeys.restoring h (fun _ _ hst => ⟨trivial, hst⟩) fun _ _ _ _ _ => trivial

end Stays

/-- What follows a course binds no name anew. -/
theorem Follows.extends {c : Chronicle α} (h : Follows s c m) :
    (m s).2.run.functions.Extends s.run.functions := by
  obtain ⟨es, hcourse, -⟩ := h
  exact hcourse.accumulates.later.functions

/-- What follows a course and goes back stays. -/
theorem Follows.stays {c : Chronicle α} (h : Follows s c m)
    (hback : (m s).2.Covered → (m s).2.run.cwd = s.run.cwd) : Stays s m :=
  ⟨trivial, ⟨h.extends, hback⟩, fun _ _ => trivial⟩

end Rules

/-- With one bound on the depth, what is covered stays in its directory. -/
structure CoveredStays (n : Nat) : Prop where
  eval : ∀ {s : Machine} (e : Expr), e.still = true → Stays s (Kiln.eval n e)
  evalCell : ∀ {s : Machine} (e : Expr), e.still = true → Stays s (Kiln.evalCell n e)
  enter : ∀ {s : Machine} (name : String) {f : Function} (values : List Value),
    s.run.functions.get? name = some f → Stays s (Kiln.enter n f values)
  exec : ∀ {s : Machine} (stmt : Stmt), stmt.covered = true → Stays s (Kiln.exec n stmt)
  iterate : ∀ {s : Machine} {cond next : Option Expr} {body : Stmt},
    Expr.stillClause cond = true → Expr.stillClause next = true → body.covered = true →
      Stays s (Kiln.iterate n cond next body)
  visit : ∀ {s : Machine} (a : ArrayId) (i : Nat) (name : String) {body : Stmt},
    body.covered = true → Stays s (Kiln.visit n a i name body)

namespace CoveredStays

variable {n : Nat} {s : Machine}

theorem zero : CoveredStays 0 where
  eval _ _ := .stuck
  evalCell _ _ := .stuck
  enter _ _ _ _ := .stuck
  exec _ _ := .stuck
  iterate _ _ _ := .stuck
  visit _ _ _ _ _ := .stuck

theorem arguments (h : CoveredStays n) {args : List Expr} (hargs : Expr.stillAll args = true) :
    Stays s (.each (Kiln.eval n) args) :=
  .each fun e he _ => h.eval e (Expr.still_of_stillAll hargs e he)

theorem eval_succ (h : CoveredStays n) (e : Expr) (he : e.still = true) :
    Stays s (Kiln.eval (n + 1) e) := by
  cases e with
  | const value => cases value <;> exact .pure _
  | var name => exact .quiet (.look _)
  | array elements => exact (h.arguments he).bind fun _ _ _ => .quiet (.onMemory _)
  | dict pairs =>
    have hpairs := Expr.still_of_stillEntries he
    refine Stays.bind (.each fun pair hpair t => ?_) fun _ _ _ => .quiet (.onMemory _)
    refine (h.eval pair.1 (hpairs pair hpair).1).bind fun k _ _ => ?_
    refine Stays.bind (.quiet (.textOf k)) fun key _ _ => ?_
    exact (h.eval pair.2 (hpairs pair hpair).2).bind fun _ _ _ => .pure _
  | unary op arg => exact (h.eval arg he).bind fun _ _ _ => .pure _
  | bump op side arg =>
    refine (h.evalCell arg he).bind fun c _ _ => .look ?_
    refine Stays.bind (.quiet (.onMemory _)) fun _ _ _ => ?_
    cases side <;> exact .pure _
  | binary op left right =>
    simp only [Expr.still, Bool.and_eq_true] at he
    have happly : Stays s (Kiln.eval n left >>= fun a => Kiln.eval n right >>= fun b => op.apply a b) :=
      (h.eval left he.1).bind fun a _ _ => (h.eval right he.2).bind fun b _ _ =>
        .quiet (op.quiet_apply a b)
    cases op with
    | assign =>
      refine (h.evalCell left he.1).bind fun c _ _ => (h.eval right he.2).bind fun v _ _ => ?_
      exact Stays.bind (.quiet (.onMemory _)) fun _ _ _ => .pure v
    | _ => exact happly
  | ternary cond yes no =>
    simp only [Expr.still, Bool.and_eq_true] at he
    refine (h.eval cond he.1.1).bind fun c _ _ => ?_
    split
    · exact h.eval yes he.1.2
    · exact h.eval no he.2
  | builtin fn args =>
    simp only [Expr.still, Bool.and_eq_true, bne_iff_ne] at he
    have hquiet : Stays s (Step.each (Kiln.eval n) args >>= fun values => fn.call values) :=
      (h.arguments he.2).bind fun values _ _ => .quiet (Builtin.quiet_call he.1 values)
    cases fn with
    | subrun =>
      -- Another build file has a run of its own, whatever its functions are.
      refine (h.arguments he.2).bind fun values t _ => .of_run_eq ?_
      exact (subrun_outlasting n values t).inv.run
    | _ => exact hquiet
  | call name args =>
    refine (idle_function name).obeys_bind trivial fun f hf => ?_
    split
    · exact Stays.fault _
    · refine (h.arguments he).bind fun values t hst => h.enter name values ?_
      exact hst.1 name f (functions_of_function hf)

theorem evalCell_succ (h : CoveredStays n) (e : Expr) (he : e.still = true) :
    Stays s (Kiln.evalCell (n + 1) e) := by
  cases e with
  | var name => exact .look (Stays.quiet (.onMemory _))
  | binary op left right =>
    simp only [Expr.still, Bool.and_eq_true] at he
    cases op with
    | subscript =>
      exact (h.eval left he.1).bind fun container _ _ => (h.eval right he.2).bind fun i _ _ =>
        .quiet (quiet_subscriptCell container i)
    | _ => exact .fault _
  | _ => exact .fault _

theorem enter_succ (h : CoveredStays n) (name : String) {f : Function} (values : List Value)
    (hf : s.run.functions.get? name = some f) : Stays s (Kiln.enter (n + 1) f values) := by
  have hfollows := (recounted (n + 1)).enter (s := s) f values
  by_cases hbody : f.body.covered = true
  · refine Stays.keepingFrame (.look ?_)
    refine (Stays.bind (.quiet (.onMemory _)) fun scope _ _ => ?_)
    refine Stays.bind (.quiet (.onMemory _)) fun _ _ _ => ?_
    refine Stays.bind (.quiet (.change fun _ => ⟨rfl, rfl⟩)) fun _ _ _ => ?_
    exact (h.exec f.body hbody).bind fun _ _ _ => .quiet (.look _)
  · -- The function is bound in the end, too, so not all are covered then.
    exact hfollows.stays fun hcovered => absurd (hcovered name f (hfollows.extends name f hf)) hbody

theorem exec_succ (h : CoveredStays n) (stmt : Stmt) (hstmt : stmt.covered = true) :
    Stays s (Kiln.exec (n + 1) stmt) := by
  have hsignals {s : Machine} (f : Signals → Signals) : Stays s (changeSignals f) :=
    .quiet (.changeSignals f)
  refine Step.Obeys.mapError ?_
  cases stmt with
  | expr loc e => exact (h.eval e hstmt).bind fun _ _ _ => .pure ()
  | block loc body =>
    have hpass (stmt : Stmt) (t : Machine) : Follows t
        (Chronicle.exec n stmt >>= fun _ => Interpreter.look fun m => m.frame.signals.interrupted)
        (Kiln.exec n stmt >>= fun _ => .look fun m => m.frame.signals.interrupted) :=
      ((recounted n).exec stmt).bind fun _ u _ => .still (.refl u) rfl fun _ => rfl
    exact (Follows.keepingDirectory (.eachUntil hpass body)).stays fun _ => rfl
  | branch loc cond yes no =>
    cases no with
    | some no =>
      simp only [Stmt.covered, Bool.and_eq_true] at hstmt
      refine (h.eval cond hstmt.1.1).bind fun c _ _ => ?_
      split
      · exact h.exec yes hstmt.1.2
      · exact h.exec no hstmt.2
    | none =>
      simp only [Stmt.covered, Bool.and_eq_true] at hstmt
      refine (h.eval cond hstmt.1).bind fun c _ _ => ?_
      split
      · exact h.exec yes hstmt.2
      · exact .pure ()
  | loop loc init cond next body =>
    simp only [Stmt.covered, Bool.and_eq_true] at hstmt
    obtain ⟨⟨⟨hinit, hcond⟩, hnext⟩, hbody⟩ := hstmt
    cases init with
    | some e => exact (h.eval e hinit).bind fun _ _ _ => h.iterate hcond hnext hbody
    | none => exact h.iterate hcond hnext hbody
  | foreach loc name items body =>
    simp only [Stmt.covered, Bool.and_eq_true] at hstmt
    obtain ⟨hitems, hbody⟩ := hstmt
    refine (h.eval items hitems).bind fun collection t _ => ?_
    have honce (v : Value) : Stays t (setVar name v >>= fun _ => Kiln.exec n body >>= fun _ =>
        changeSignals fun s => { s with breaking := false, continuing := false }) :=
      Stays.bind (.quiet (.setVar name v)) fun _ _ _ => (h.exec body hbody).bind fun _ _ _ => hsignals _
    cases collection with
    | dict d =>
      refine Stays.look (Step.Obeys.eachUntil trivial fun key _ u _ _ => ?_)
      refine Stays.bind (.quiet (.setVar name _)) fun _ _ _ => ?_
      exact (h.exec body hbody).bind fun _ _ _ => Stays.quiet quiet_settle
    | array a => exact h.visit a 0 name hbody
    | void => exact honce _
    | int i => exact honce _
    | str s => exact honce _
  | breakStmt loc => exact hsignals _
  | continueStmt loc => exact hsignals _
  | returnStmt loc value =>
    cases value with
    | some e => exact (h.eval e hstmt).bind fun v _ _ => hsignals _
    | none => exact hsignals _
  | depends loc paths action =>
    simp only [Stmt.covered, Bool.and_eq_true] at hstmt
    refine (h.eval paths hstmt.1).bind fun listed _ _ => .look ?_
    refine Stays.bind (.quiet (.textsOf _)) fun texts t _ => .state ?_
    refine Stays.bind (.of_run_eq rfl) fun code _ _ => ?_
    refine Stays.bind (.of_run_eq rfl) fun upToDate _ _ => ?_
    split
    · exact .pure ()
    · exact (h.exec action hstmt.2).bind fun _ _ _ => Stays.of_run_eq rfl
  | includeStmt loc path => cases hstmt
  | usingStmt loc path =>
    refine (h.eval path hstmt).bind fun v _ _ => Stays.bind (.quiet (.textOf v)) fun text t _ => ?_
    refine Stays.look (.state ?_)
    split
    · exact .pure ()
    · rename_i hnew
      exact ((recounted n).using_new text rfl (by simpa using hnew)).stays fun _ => rfl

/-- A pass of a loop that goes on, and what comes after it. -/
theorem goesOn (h : CoveredStays n) {body : Stmt} {again : Action Unit} (hbody : body.covered = true)
    (hagain : ∀ t, Stays t again) : Stays s (Interpreter.pass (Kiln.exec n body) again) := by
  refine (h.exec body hbody).bind fun _ _ _ => Stays.bind (.quiet quiet_settle) fun stop t _ => ?_
  split
  · exact .pure ()
  · exact hagain t

theorem iterate_succ (h : CoveredStays n) {cond next : Option Expr} {body : Stmt}
    (hcond : Expr.stillClause cond = true) (hnext : Expr.stillClause next = true)
    (hbody : body.covered = true) : Stays s (Kiln.iterate (n + 1) cond next body) := by
  have hagain (t : Machine) : Stays t
      (Interpreter.onward (next.map (Kiln.eval n)) (Kiln.iterate n cond next body)) := by
    cases next with
    | some e => exact (h.eval e hnext).bind fun _ _ _ => h.iterate hcond hnext hbody
    | none => exact h.iterate hcond hnext hbody
  cases cond with
  | some e =>
    refine (h.eval e hcond).bind fun v t _ => ?_
    show Stays t (if !v.isTrue then return () else _)
    split
    · exact .pure ()
    · exact h.goesOn hbody hagain
  | none => exact h.goesOn hbody hagain

theorem visit_succ (h : CoveredStays n) (a : ArrayId) (i : Nat) (name : String) {body : Stmt}
    (hbody : body.covered = true) : Stays s (Kiln.visit (n + 1) a i name body) := by
  refine Stays.state ?_
  split
  · refine Stays.bind (.quiet (.onMemory _)) fun v _ _ => ?_
    refine Stays.bind (.quiet (.setVar name v)) fun _ _ _ => ?_
    exact h.goesOn hbody fun _ => h.visit a (i + 1) name hbody
  · exact .pure ()

end CoveredStays

theorem coveredStays (n : Nat) : CoveredStays n := by
  induction n with
  | zero => exact .zero
  | succ n ih =>
    exact {
      eval := ih.eval_succ
      evalCell := ih.evalCell_succ
      enter := ih.enter_succ
      exec := ih.exec_succ
      iterate := ih.iterate_succ
      visit := ih.visit_succ }

/-- A covered statement leaves the working directory as it was, however it ends, if all functions that
are bound by then have covered bodies. -/
theorem covered_keeps_directory (n : Nat) (stmt : Stmt) (s : Machine) (hstmt : stmt.covered = true)
    (hfunctions : (exec n stmt s).2.Covered) : (exec n stmt s).2.run.cwd = s.run.cwd :=
  ((coveredStays n).exec stmt hstmt).rel.2 hfunctions

/-- `function f() { cd("lib"); fail(cwd()); }`, in a run that is in the directory above. -/
def Machine.besideFailing : Machine :=
  let loc : Location := ⟨"/w/lickable", 1⟩
  { Machine.blank with
    files := ⟨.dir [("w", .dir [("lib", .dir [] 0)] 0)] 0, 9, some "/"⟩
    run := ⟨Table.empty.insert "f" ⟨"f", [], .block loc [
      .expr loc (.builtin .cd [.const (.str "lib")]),
      .expr loc (.builtin .fail [.builtin .cwd []])], false⟩, .empty, "/w"⟩ }

/-- `f();` -/
def Stmt.callingF : Stmt := .expr ⟨"/w/lickable", 1⟩ (.call "f" [])

/-- The call fails inside of the library, and the run is back in the directory above. -/
theorem covered_keeps_directory_failing :
    Stmt.callingF.covered = true ∧ (exec 9 .callingF .besideFailing).2.Covered ∧
      (exec 9 .callingF .besideFailing).1 =
        .error (.located ⟨"/w/lickable", 1⟩ (.fault (.stopped "/w/lib"))) ∧
      (exec 9 .callingF .besideFailing).2.run.cwd = "/w" := by
  have hfunctions : (exec 9 .callingF .besideFailing).2.Covered := by decide +kernel
  exact ⟨rfl, hfunctions, by decide +kernel, covered_keeps_directory 9 _ _ rfl hfunctions⟩

end Kiln
