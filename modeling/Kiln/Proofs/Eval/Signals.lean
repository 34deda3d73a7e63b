import Kiln.Proofs.Eval.Frames

/-!
# Kiln.Proofs.Eval.Signals — signals are settled where they belong

A statement that ends well leaves at most one signal pending, and only one that a statement of its
own tree can have raised: `break` and `continue` outside of the loops of the tree, `return` anywhere
in it.  A loop leaves neither `break` nor `continue`.  Loading a module is left out, because the top
level of a module is executed in the frame that loads it.

The proof is an induction on the bound of depth over execution and the two forms of passes at once.
What a pass leaves is settled before the next one, so every pass starts with nothing pending.
-/

namespace Kiln

open Kiln.Action

/-! ## What a tree contains -/

namespace Stmt

/-- Some statement of the tree satisfies `p`.  With `loops` unset, one that no loop of the tree
encloses. -/
inductive Has (loops : Bool) (p : Stmt → Bool) : Stmt → Prop where
  | here {stmt : Stmt} : p stmt = true → Has loops p stmt
  | block {loc : Location} {body : List Stmt} {stmt : Stmt} :
      stmt ∈ body → Has loops p stmt → Has loops p (.block loc body)
  | yes {loc : Location} {cond : Expr} {yes : Stmt} {no : Option Stmt} :
      Has loops p yes → Has loops p (.branch loc cond yes no)
  | no {loc : Location} {cond : Expr} {yes no : Stmt} :
      Has loops p no → Has loops p (.branch loc cond yes (some no))
  | loop {loc : Location} {init cond next : Option Expr} {body : Stmt} :
      loops = true → Has loops p body → Has loops p (.loop loc init cond next body)
  | foreach {loc : Location} {name : String} {items : Expr} {body : Stmt} :
      loops = true → Has loops p body → Has loops p (.foreach loc name items body)
  | action {loc : Location} {paths : Expr} {action : Stmt} :
      Has loops p action → Has loops p (.depends loc paths action)

def isBreak : Stmt → Bool
  | breakStmt _ => true
  | _ => false

def isContinue : Stmt → Bool
  | continueStmt _ => true
  | _ => false

def isReturn : Stmt → Bool
  | returnStmt _ _ => true
  | _ => false

/-- Loads a module, in one way or the other. -/
def isLoad : Stmt → Bool
  | includeStmt _ _ | usingStmt _ _ => true
  | _ => false

def isLoop : Stmt → Bool
  | loop .. | foreach .. => true
  | _ => false

/-- No loop encloses a loop in its own tree, so nothing but the loop itself stands there outside of
loops. -/
theorem not_has_of_isLoop {p : Stmt → Bool} {stmt : Stmt} (hloop : stmt.isLoop = true)
    (hp : p stmt = false) : ¬ stmt.Has false p := by
  intro h
  cases h with
  | here h => rw [hp] at h; cases h
  | loop h _ => cases h
  | foreach h _ => cases h
  | _ => cases hloop

end Stmt

/-! ## What may be pending -/

namespace Signals

/-- How many of the three are pending. -/
def pending (s : Signals) : Nat := s.breaking.toNat + s.continuing.toNat + s.returning.toNat

/-- At most one is pending, and each of them only where it may be. -/
structure Allowed (s : Signals) (breaks continues returns : Prop) : Prop where
  single : s.pending ≤ 1
  breaking : s.breaking = true → breaks
  continuing : s.continuing = true → continues
  returning : s.returning = true → returns

variable {s : Signals} {b c r b' c' r' : Prop}

theorem Allowed.mono (h : s.Allowed b c r) (hb : b → b') (hc : c → c') (hr : r → r') :
    s.Allowed b' c' r' :=
  ⟨h.single, fun hs => hb (h.breaking hs), fun hs => hc (h.continuing hs),
    fun hs => hr (h.returning hs)⟩

theorem interrupted_eq_false_iff :
    s.interrupted = false ↔ s.breaking = false ∧ s.continuing = false ∧ s.returning = false := by
  simp [interrupted, and_assoc]

theorem allowed_of_quiet (h : s.interrupted = false) : s.Allowed b c r := by
  obtain ⟨hb, hc, hr⟩ := interrupted_eq_false_iff.mp h
  constructor <;> simp [pending, hb, hc, hr]

theorem others_quiet (h : s.pending ≤ 1) (hb : s.breaking = true) :
    s.continuing = false ∧ s.returning = false := by
  unfold pending at h
  rw [hb] at h
  cases hc : s.continuing <;> cases hr : s.returning <;> simp [hc, hr] at h ⊢

theorem Allowed.settled (h : s.Allowed b c r) :
    ({ s with breaking := false, continuing := false } : Signals).Allowed False False r := by
  refine ⟨?_, by simp, by simp, h.returning⟩
  cases hr : s.returning <;> simp [pending]

end Signals

/-- What executing the statement may leave pending. -/
abbrev Stmt.MayLeave (stmt : Stmt) (s : Signals) : Prop :=
  s.Allowed (stmt.Has false isBreak) (stmt.Has false isContinue) (stmt.Has true isReturn)

/-! ## One pass -/

section Passes

variable {s : Machine} {n : Nat} {b c r : Prop}

/-- Settling leaves no `break` and no `continue`, and nothing at all if the loop goes on. -/
theorem returns_settle (h : s.frame.signals.Allowed b c r) :
    Step.Returns s settle fun stop t =>
      t.frame.signals.Allowed False False r ∧ (stop = false → t.frame.signals.interrupted = false) := by
  cases hb : s.frame.signals.breaking with
  | true =>
    obtain ⟨hc, hr⟩ := Signals.others_quiet h.single hb
    refine ⟨trivial, trivial, fun stop hstop => ?_⟩
    rw [settle_of_breaking hb] at hstop ⊢
    have hquiet : ({ s.frame.signals with breaking := false } : Signals).interrupted = false :=
      Signals.interrupted_eq_false_iff.mpr ⟨rfl, hc, hr⟩
    exact ⟨Signals.allowed_of_quiet hquiet, fun _ => hquiet⟩
  | false =>
    refine ⟨trivial, trivial, fun stop hstop => ?_⟩
    rw [settle_of_not_breaking hb] at hstop ⊢
    cases hstop
    refine ⟨⟨?_, ?_, by simp, h.returning⟩, fun hr => ?_⟩
    · cases hr : s.frame.signals.returning <;> simp [Signals.pending, hb, hr]
    · simp [hb]
    · exact Signals.interrupted_eq_false_iff.mpr ⟨hb, rfl, hr⟩

theorem returns_eval (n : Nat) (e : Expr) (s : Machine) :
    Step.Returns s (eval n e) fun _ t => t.frame = s.frame :=
  ((frames.kept n).eval e trivial).returns.mono fun _ _ h => h.1

theorem returns_setVar (name : String) (v : Value) (s : Machine) :
    Step.Returns s (Action.setVar name v) fun _ t => t.frame = s.frame :=
  ⟨trivial, trivial, fun _ _ => rfl⟩

theorem returns_changeSignals (f : Signals → Signals) (s : Machine) :
    Step.Returns s (changeSignals f) fun _ t => t.frame.signals = f s.frame.signals :=
  ⟨trivial, trivial, fun _ _ => rfl⟩

end Passes

/-! ## The induction -/

/-- What execution leaves pending, with one bound on the depth. -/
structure Settled (n : Nat) : Prop where
  exec : ∀ {s : Machine} (stmt : Stmt), ¬ stmt.Has true Stmt.isLoad →
    s.frame.signals.interrupted = false → Step.Returns s (exec n stmt) fun _ t =>
      stmt.MayLeave t.frame.signals
  iterate : ∀ {s : Machine} (cond next : Option Expr) (body : Stmt), ¬ body.Has true Stmt.isLoad →
    s.frame.signals.interrupted = false → Step.Returns s (iterate n cond next body) fun _ t =>
      t.frame.signals.Allowed False False (body.Has true Stmt.isReturn)
  visit : ∀ {s : Machine} (a : ArrayId) (i : Nat) (name : String) (body : Stmt),
    ¬ body.Has true Stmt.isLoad → s.frame.signals.interrupted = false →
      Step.Returns s (visit n a i name body) fun _ t =>
        t.frame.signals.Allowed False False (body.Has true Stmt.isReturn)

namespace Settled

variable {s : Machine} {n : Nat}

/-- One pass of a loop over a container. -/
theorem pass (h : Settled n) (name : String) (v : Value) (body : Stmt)
    (hload : ¬ body.Has true Stmt.isLoad) (hs : s.frame.signals.interrupted = false) :
    Step.Returns s (Action.setVar name v >>= fun _ => Kiln.exec n body >>= fun _ => settle)
      fun stop t => t.frame.signals.Allowed False False (body.Has true Stmt.isReturn) ∧
        (stop = false → t.frame.signals.interrupted = false) := by
  refine (returns_setVar name v s).bind fun _ t ht => ?_
  rw [← ht] at hs
  exact (h.exec body hload hs).bind fun _ u hu => returns_settle hu

theorem block (h : Settled n) {body : List Stmt}
    (hload : ∀ stmt ∈ body, ¬ stmt.Has true Stmt.isLoad) (hs : s.frame.signals.interrupted = false) :
    Step.Returns s (Step.eachUntil (fun stmt => do
        Kiln.exec n stmt
        .look fun m => m.frame.signals.interrupted) body) fun _ t =>
      t.frame.signals.Allowed (∃ stmt ∈ body, stmt.Has false Stmt.isBreak)
        (∃ stmt ∈ body, stmt.Has false Stmt.isContinue)
        (∃ stmt ∈ body, stmt.Has true Stmt.isReturn) := by
  induction body generalizing s with
  | nil => exact .pure trivial (Signals.allowed_of_quiet hs)
  | cons stmt rest ih =>
    have hfirst : Step.Returns s (Kiln.exec n stmt >>= fun _ =>
        Step.look fun m => m.frame.signals.interrupted) fun stop t =>
          stmt.MayLeave t.frame.signals ∧ stop = t.frame.signals.interrupted := by
      refine (h.exec stmt (hload stmt (by simp)) hs).bind fun _ t ht => ?_
      exact (Step.Idle.look _).obeys trivial fun stop hstop => ⟨ht, by cases hstop; rfl⟩
    refine Step.Returns.bind hfirst fun stop t ht => ?_
    obtain ⟨hallowed, hstop⟩ := ht
    split
    · refine .pure trivial (hallowed.mono ?_ ?_ ?_)
      · exact fun hb => ⟨stmt, by simp, hb⟩
      · exact fun hc => ⟨stmt, by simp, hc⟩
      · exact fun hr => ⟨stmt, by simp, hr⟩
    · rename_i hgoes
      have hquiet : t.frame.signals.interrupted = false := by
        rw [← hstop]
        simpa using hgoes
      refine (ih (fun s' hs' => hload s' (by simp [hs'])) hquiet).mono fun _ u hu => hu.mono ?_ ?_ ?_
      · rintro ⟨s', hs', hb⟩
        exact ⟨s', by simp [hs'], hb⟩
      · rintro ⟨s', hs', hc⟩
        exact ⟨s', by simp [hs'], hc⟩
      · rintro ⟨s', hs', hr⟩
        exact ⟨s', by simp [hs'], hr⟩

theorem keys (h : Settled n) (name : String) (body : Stmt) (hload : ¬ body.Has true Stmt.isLoad)
    (keys : List String) (hs : s.frame.signals.interrupted = false) :
    Step.Returns s (Step.eachUntil (fun key => do
        setVar name (.str key)
        Kiln.exec n body
        settle) keys) fun _ t =>
      t.frame.signals.Allowed False False (body.Has true Stmt.isReturn) := by
  induction keys generalizing s with
  | nil => exact .pure trivial (Signals.allowed_of_quiet hs)
  | cons key rest ih =>
    refine Step.Returns.bind (h.pass name (.str key) body hload hs) fun stop t ht => ?_
    obtain ⟨hallowed, hquiet⟩ := ht
    split
    · exact .pure trivial hallowed
    · exact ih (hquiet (by simpa using ‹¬ stop = true›))

/-- A pass of a loop that goes on, and what comes after it. -/
theorem goesOn (h : Settled n) (body : Stmt) {again : Action Unit}
    (hload : ¬ body.Has true Stmt.isLoad) (hs : s.frame.signals.interrupted = false)
    (hagain : ∀ t, t.frame.signals.interrupted = false → Step.Returns t again fun _ u =>
      u.frame.signals.Allowed False False (body.Has true Stmt.isReturn)) :
    Step.Returns s (Interpreter.pass (Kiln.exec n body) again) fun _ t =>
      t.frame.signals.Allowed False False (body.Has true Stmt.isReturn) := by
  refine (h.exec body hload hs).bind fun _ t ht => (returns_settle ht).bind fun stop u hu => ?_
  obtain ⟨hallowed, hquiet⟩ := hu
  split
  · exact .pure trivial hallowed
  · exact hagain u (hquiet (by simpa using ‹¬ stop = true›))

theorem visit_succ (h : Settled n) (a : ArrayId) (i : Nat) (name : String) (body : Stmt)
    (hload : ¬ body.Has true Stmt.isLoad) (hs : s.frame.signals.interrupted = false) :
    Step.Returns s (Kiln.visit (n + 1) a i name body) fun _ t =>
      t.frame.signals.Allowed False False (body.Has true Stmt.isReturn) := by
  refine (Step.Idle.look id).obeys_bind trivial fun machine _ => ?_
  split
  · refine (idle_onMemory (.look _)).obeys_bind trivial fun v _ => ?_
    refine (returns_setVar name v s).bind fun _ t ht => ?_
    rw [← ht] at hs
    exact h.goesOn body hload hs fun _ hu => h.visit a (i + 1) name body hload hu
  · exact .pure trivial (Signals.allowed_of_quiet hs)

theorem iterate_succ (h : Settled n) (cond next : Option Expr) (body : Stmt)
    (hload : ¬ body.Has true Stmt.isLoad) (hs : s.frame.signals.interrupted = false) :
    Step.Returns s (Kiln.iterate (n + 1) cond next body) fun _ t =>
      t.frame.signals.Allowed False False (body.Has true Stmt.isReturn) := by
  have hagain (t : Machine) (ht : t.frame.signals.interrupted = false) : Step.Returns t
      (Interpreter.onward (next.map (Kiln.eval n)) (Kiln.iterate n cond next body)) fun _ u =>
        u.frame.signals.Allowed False False (body.Has true Stmt.isReturn) := by
    cases next with
    | some e =>
      refine (returns_eval n e t).bind fun _ u hu => h.iterate cond (some e) body hload ?_
      rw [hu]
      exact ht
    | none => exact h.iterate cond none body hload ht
  cases cond with
  | some e =>
    refine (returns_eval n e s).bind fun v t ht => ?_
    rw [← ht] at hs
    show Step.Returns t (if !v.isTrue then return () else _) _
    split
    · exact .pure trivial (Signals.allowed_of_quiet hs)
    · exact h.goesOn body hload hs hagain
  | none => exact h.goesOn body hload hs hagain

theorem exec_succ (h : Settled n) (stmt : Stmt) (hload : ¬ stmt.Has true Stmt.isLoad)
    (hs : s.frame.signals.interrupted = false) : Step.Returns s (Kiln.exec (n + 1) stmt) fun _ t =>
      stmt.MayLeave t.frame.signals := by
  have hquiet {t : Machine} (ht : t.frame = s.frame) : t.frame.signals.interrupted = false := by
    rw [ht]
    exact hs
  obtain ⟨hb, hc, hr⟩ := Signals.interrupted_eq_false_iff.mp hs
  refine Step.Obeys.mapError ?_
  cases stmt with
  | expr loc e =>
    exact (returns_eval n e s).bind fun _ t ht => .pure trivial (Signals.allowed_of_quiet (hquiet ht))
  | block loc body =>
    have hbody := h.block (fun s' hs' hmem => hload (.block hs' hmem)) hs
    refine Step.Obeys.restoring hbody (fun _ _ _ => ⟨trivial, trivial⟩) fun _ t _ _ ht => ?_
    refine Signals.Allowed.mono ht ?_ ?_ ?_
    · rintro ⟨s', hs', hb⟩
      exact .block hs' hb
    · rintro ⟨s', hs', hc⟩
      exact .block hs' hc
    · rintro ⟨s', hs', hr⟩
      exact .block hs' hr
  | branch loc cond yes no =>
    refine (returns_eval n cond s).bind fun c t ht => ?_
    split
    · have hyes := h.exec yes (fun hmem => hload (.yes hmem)) (hquiet ht)
      exact hyes.mono fun _ _ hu => hu.mono .yes .yes .yes
    · cases no with
      | some no =>
        have hno := h.exec no (fun hmem => hload (.no hmem)) (hquiet ht)
        exact hno.mono fun _ _ hu => hu.mono .no .no .no
      | none => exact .pure trivial (Signals.allowed_of_quiet (hquiet ht))
  | loop loc init cond next body =>
    have hloop {t : Machine} (ht : t.frame = s.frame) : Step.Returns t (Kiln.iterate n cond next body)
        fun _ u => (Stmt.loop loc init cond next body).MayLeave u.frame.signals :=
      (h.iterate cond next body (fun hmem => hload (.loop rfl hmem)) (hquiet ht)).mono
        fun _ _ hu => hu.mono False.elim False.elim (.loop rfl)
    cases init with
    | some e => exact (returns_eval n e s).bind fun _ t ht => hloop ht
    | none => exact hloop rfl
  | foreach loc name items body =>
    have hbody : ¬ body.Has true Stmt.isLoad := fun hmem => hload (.foreach rfl hmem)
    have hleaves {signals : Signals} (hu : signals.Allowed False False (body.Has true Stmt.isReturn)) :
        (Stmt.foreach loc name items body).MayLeave signals :=
      hu.mono False.elim False.elim (.foreach rfl)
    refine (returns_eval n items s).bind fun collection t ht => ?_
    -- Anything but a container is visited once, and settled without stopping.
    have honce : Step.Returns t (Action.setVar name collection >>= fun _ => Kiln.exec n body >>= fun _ =>
        changeSignals fun s => { s with breaking := false, continuing := false })
          fun _ u => (Stmt.foreach loc name items body).MayLeave u.frame.signals := by
      refine (returns_setVar name collection t).bind fun _ u hu => ?_
      refine (h.exec body hbody (hquiet (hu.trans ht))).bind fun _ w hw => ?_
      refine (returns_changeSignals _ w).mono fun _ x hx => hleaves ?_
      rw [hx]
      exact hw.settled
    cases collection with
    | dict d =>
      refine (Step.Idle.look _).obeys_bind trivial fun keys _ => ?_
      exact (h.keys name body hbody keys (hquiet ht)).mono fun _ _ hu => hleaves hu
    | array a => exact (h.visit a 0 name body hbody (hquiet ht)).mono fun _ _ hu => hleaves hu
    | _ => exact honce
  | breakStmt loc =>
    refine (returns_changeSignals _ s).mono fun _ t ht => ?_
    rw [ht]
    constructor
    · simp [Signals.pending, hc, hr]
    · exact fun _ => .here rfl
    · simp [hc]
    · simp [hr]
  | continueStmt loc =>
    refine (returns_changeSignals _ s).mono fun _ t ht => ?_
    rw [ht]
    constructor
    · simp [Signals.pending, hb, hr]
    · simp [hb]
    · exact fun _ => .here rfl
    · simp [hr]
  | returnStmt loc value =>
    have hreturned (v : Value) {t : Machine} (ht : t.frame = s.frame) : Step.Returns t
        (changeSignals fun s => { s with returning := true, result := v })
          fun _ u => (Stmt.returnStmt loc value).MayLeave u.frame.signals := by
      refine (returns_changeSignals _ t).mono fun _ u hu => ?_
      rw [hu, ht]
      constructor
      · simp [Signals.pending, hb, hc]
      · simp [hb]
      · simp [hc]
      · exact fun _ => .here rfl
    cases value with
    | some e => exact (returns_eval n e s).bind fun v t ht => hreturned v ht
    | none => exact hreturned .void rfl
  | depends loc paths action =>
    refine (returns_eval n paths s).bind fun listed t ht => ?_
    refine (Step.Idle.look _).obeys_bind trivial fun values _ => ?_
    refine (idle_textsOf values).obeys_bind trivial fun texts _ => ?_
    refine (Step.Idle.look id).obeys_bind trivial fun machine _ => ?_
    refine (Step.Idle.ofOutcome _).obeys_bind trivial fun code _ => ?_
    have hstore {α : Type} (m : Shelving α) (u : Machine) :
        Step.Returns u (onStore m) fun _ w => w.frame = u.frame := ⟨trivial, trivial, fun _ _ => rfl⟩
    refine (hstore _ t).bind fun hit u hu => ?_
    split
    · exact .pure trivial (Signals.allowed_of_quiet (hquiet (hu.trans ht)))
    · have haction := h.exec action (fun hmem => hload (.action hmem)) (hquiet (hu.trans ht))
      refine haction.bind fun _ w hw => (hstore _ w).mono fun _ x hx => ?_
      rw [hx]
      exact hw.mono .action .action .action
  | includeStmt loc path => exact absurd (.here rfl) hload
  | usingStmt loc path => exact absurd (.here rfl) hload

end Settled

theorem settled (n : Nat) : Settled n := by
  induction n with
  | zero =>
    exact {
      exec := fun _ _ _ => .stuck trivial
      iterate := fun _ _ _ _ _ => .stuck trivial
      visit := fun _ _ _ _ _ _ => .stuck trivial }
  | succ n ih =>
    exact {
      exec := fun stmt hload hs => ih.exec_succ stmt hload hs
      iterate := fun cond next body hload hs => ih.iterate_succ cond next body hload hs
      visit := fun a i name body hload hs => ih.visit_succ a i name body hload hs }

/-- A statement that ends well leaves at most one signal, a loop neither `break` nor `continue`, and
every signal that is left comes from a statement of the tree.  An expression leaves the signals and
the value to be returned as they are, however it ends. -/
theorem signals_settled (n : Nat) :
    (∀ (stmt : Stmt) (s t : Machine), ¬ stmt.Has true Stmt.isLoad →
      s.frame.signals.interrupted = false → exec n stmt s = (.ok (), t) →
        t.frame.signals.pending ≤ 1 ∧
        (stmt.isLoop = true →
          t.frame.signals.breaking = false ∧ t.frame.signals.continuing = false) ∧
        (t.frame.signals.breaking = true → stmt.Has false Stmt.isBreak) ∧
        (t.frame.signals.continuing = true → stmt.Has false Stmt.isContinue) ∧
        (t.frame.signals.returning = true → stmt.Has true Stmt.isReturn)) ∧
    ∀ (e : Expr) (s : Machine), (eval n e s).2.frame.signals = s.frame.signals := by
  constructor
  · intro stmt s t hload hs hrun
    have hleft := ((settled n).exec stmt hload hs).of_eq_ok hrun
    refine ⟨hleft.single, fun hloop => ?_, hleft.breaking, hleft.continuing, hleft.returning⟩
    have hbreak : stmt.isBreak = false := by cases stmt <;> first | rfl | cases hloop
    have hcontinue : stmt.isContinue = false := by cases stmt <;> first | rfl | cases hloop
    constructor
    · exact Bool.eq_false_iff.mpr fun hb => Stmt.not_has_of_isLoop hloop hbreak (hleft.breaking hb)
    · exact Bool.eq_false_iff.mpr fun hc => Stmt.not_has_of_isLoop hloop hcontinue (hleft.continuing hc)
  · intro e s
    rw [frame_eval]

/-- `for (;;) { if (0) break; return 7; }` -/
def Stmt.returningLoop : Stmt :=
  let loc : Location := ⟨"/m", 1⟩
  .loop loc none none none (.block loc
    [.branch loc (.const (.int 0)) (.breakStmt loc) none,
      .returnStmt loc (some (.const (.int 7)))])

theorem signals_settled_returningLoop :
    let signals := (exec 9 .returningLoop .blank).2.frame.signals
    signals.returning = true ∧ signals.pending ≤ 1 ∧
      (signals.breaking = false ∧ signals.continuing = false) ∧
      Stmt.returningLoop.Has true Stmt.isReturn := by
  intro signals
  have hload : ¬ Stmt.returningLoop.Has true Stmt.isLoad := by
    intro h
    cases h with
    | here h => cases h
    | loop _ h =>
      cases h with
      | here h => cases h
      | block hmem h =>
        simp only [List.mem_cons, List.not_mem_nil, or_false] at hmem
        rcases hmem with rfl | rfl
        · cases h with
          | here h => cases h
          | yes h => cases h; contradiction
        · cases h; contradiction
  obtain ⟨hsingle, hloop, -, -, hreturn⟩ :=
    (signals_settled 9).1 .returningLoop .blank _ hload rfl rfl
  exact ⟨rfl, hsingle, hloop rfl, hreturn rfl⟩

end Kiln
