import Kiln.Proofs.Eval.Manner
import Kiln.Proofs.Eval.Regime

/-!
# Kiln.Proofs.Eval.Blame — the statement an error blames

An error that leaves a statement has one location, and it is that of the innermost statement that
was in progress when the error was raised: in the call of a function, in a module that was loaded or
in the run of another build file, however deep.  The statements around it add nothing to it.
-/

namespace Kiln

/-- The statements in progress after an event, innermost first. -/
def Occurrence.progress : Occurrence → List Stmt → List Stmt
  | begins stmt, stack => stmt :: stack
  | ends _, stack => stack.tail
  | returned _, stack => stack
  | proceeds, stack => stack
  | within e, stack => e.progress stack

/-- The statements in progress after some events, innermost first, if those of `stack` were in
progress before. -/
def inProgress (stack : List Stmt) (events : List Occurrence) : List Stmt :=
  events.foldl (fun stack e => e.progress stack) stack

@[simp] theorem inProgress_append (stack : List Stmt) (es fs : List Occurrence) :
    inProgress stack (es ++ fs) = inProgress (inProgress stack es) fs :=
  List.foldl_append

@[simp] theorem inProgress_within (stack : List Stmt) (es : List Occurrence) :
    inProgress stack (es.map .within) = inProgress stack es :=
  List.foldl_map

/-- How the end of a computation and the statements then in progress fit together, if those of
`stack` were in progress at its start.  An error without a location was raised by none of the
computation's own statements. -/
inductive Outcome.Blames {α : Type} (stack : List Stmt) : Outcome α → List Stmt → Prop
  | ok (a : α) : Blames stack (.ok a) stack
  | nobody {e : Error} : e.Bare → Blames stack (.error e) stack
  | innermost {cause : Error} (blamed : Stmt) (outer : List Stmt) :
    cause.Bare → Blames stack (.error (.located blamed.location cause)) (blamed :: outer)
  | exhausted (left : List Stmt) : Blames stack .exhausted left

namespace Account

variable {α β τ : Type}

/-- A computation that ends well ends every statement it began, and one that fails blames the
innermost statement in progress. -/
def Blames (m : Account α) : Prop :=
  ∀ s stack, (m s).2.1.Blames stack (inProgress stack (m s).1)

namespace Blames

theorem silent {m : Action α} (h : m.Bare) : Blames (silent m) := by
  intro s stack
  have hbare := h s
  show (m s).1.Blames stack stack
  generalize (m s).1 = o at hbare
  cases o with
  | ok a => exact .ok a
  | error e => exact .nobody (hbare e rfl)
  | exhausted => exact .exhausted stack

theorem bind {m : Account α} {f : α → Account β} (hm : Blames m) (hf : ∀ a, Blames (f a)) :
    Blames (m >>= f) := by
  intro s stack
  rcases hrun : m s with ⟨es, o, t⟩
  have hfirst : o.Blames stack (inProgress stack es) := by
    have h := hm s stack
    rwa [hrun] at h
  generalize hend : inProgress stack es = left at hfirst
  cases hfirst with
  | ok a =>
    rw [bind_of_ok f hrun, inProgress_append, hend]
    exact hf a t stack
  | nobody he =>
    rw [bind_of_error f hrun, hend]
    exact .nobody he
  | innermost blamed outer hcause =>
    rw [bind_of_error f hrun, hend]
    exact .innermost blamed outer hcause
  | exhausted =>
    rw [bind_of_exhausted f hrun]
    exact .exhausted _

theorem inside {m : Account α} (hm : Blames m) : Blames (inside m) := by
  intro s stack
  show (m s).2.1.Blames stack (inProgress stack ((m s).1.map .within))
  rw [inProgress_within]
  exact hm s stack

theorem restoring {save : Machine → τ} {restore : τ → Machine → Machine} {m : Account α}
    (hm : Blames m) : Blames (restoring save restore m) :=
  fun s stack => hm s stack

/-- The execution of a statement is where a location is added: the statement is the innermost one in
progress if nothing inside it is blamed. -/
theorem executing {stmt : Stmt} {m : Account Unit} (hm : Blames m) :
    Blames (executing stmt m) := by
  intro s stack
  rcases hrun : m s with ⟨es, o, t⟩
  have hbody : o.Blames (stmt :: stack) (inProgress stack (.begins stmt :: es)) := by
    have h := hm s (stmt :: stack)
    rwa [hrun] at h
  rw [executing_run, hrun]
  generalize hend : inProgress stack (.begins stmt :: es) = left at hbody
  cases hbody with
  | ok a =>
    rw [inProgress_append, hend]
    exact .ok ()
  | @nobody e he =>
    rw [hend]
    show Outcome.Blames stack (.error (e.locate stmt.location)) (stmt :: stack)
    rw [he.locate]
    exact .innermost stmt stack he
  | innermost blamed outer hcause =>
    rw [hend]
    exact .innermost blamed outer hcause
  | exhausted => exact .exhausted _

end Blames

/-- Every run ends the statements it began, or blames the innermost one in progress. -/
def blaming : Manner where
  evaluates := Blames
  executes := Blames
  silent := .silent
  bind := .bind
  inside := .inside
  restoring := .restoring
  evaluation := id
  sequel := .bind
  goingBack := .restoring
  executing := .executing
  returned _ _ _ := .ok ()
  proceeds _ _ := .ok ()

end Account

/-- A statement that fails has an error with a location. -/
theorem not_bare_of_exec {n : Nat} {stmt : Stmt} {s t : Machine} {e : Error}
    (h : exec n stmt s = (.error e, t)) : ¬ e.Bare := by
  cases n with
  | zero => cases h
  | succ n =>
    obtain ⟨c, -, rfl⟩ := Step.mapError_eq_error.mp h
    exact Error.not_bare_locate _ _

/-- A statement that fails has an error with one location, which is that of the innermost statement
in progress when the error was raised. -/
theorem error_blames_innermost {n : Nat} {stmt : Stmt} {s t : Machine} {e : Error}
    (h : exec n stmt s = (.error e, t)) :
    ∃ (events : List Occurrence) (blamed : Stmt) (outer : List Stmt) (cause : Error),
      Account.exec n stmt s = (events, .error e, t) ∧
      inProgress [] events = blamed :: outer ∧
      e = .located blamed.location cause ∧ cause.Bare ∧ e.root = cause := by
  rcases hrun : Account.exec n stmt s with ⟨events, o, u⟩
  have hsame : (o, u) = (.error e, t) := by
    rw [← h, ← Account.run_exec, Account.run, hrun]
  have hblames : o.Blames [] (inProgress [] events) := by
    have hkept := (Account.blaming.kept n).exec stmt s []
    rwa [hrun] at hkept
  cases hsame
  generalize hend : inProgress [] events = left at hblames
  cases hblames with
  | nobody he => exact absurd he (not_bare_of_exec h)
  | innermost blamed outer hcause =>
    exact ⟨events, blamed, outer, _, rfl, hend, rfl, hcause, hcause.root⟩

/-- `function f() { 1 / 0; }`, in a file of its own. -/
def Function.dividing : Function :=
  ⟨"f", [], .block ⟨"/lib", 3⟩ [.expr ⟨"/lib", 4⟩ (.binary .divide (.const (.int 1)) (.const (.int 0)))], false⟩

/-- `for (;;) { f(); }` -/
def Stmt.callingLoop : Stmt :=
  .loop ⟨"/m", 1⟩ none none none (.block ⟨"/m", 1⟩ [.expr ⟨"/m", 2⟩ (.call "f" [])])

/-- A state in which `f` divides by zero. -/
def Machine.dividing : Machine :=
  { Machine.blank with run := ⟨⟨[("f", .dividing)], List.pairwise_singleton _ _⟩, .empty, "/"⟩ }

/-- The statement that is blamed is in the body of the function, not the one that calls it. -/
theorem error_blames_divisor :
    ∃ (events : List Occurrence) (blamed : Stmt) (outer : List Stmt) (t : Machine),
      Account.exec 12 .callingLoop .dividing =
        (events, .error (.located ⟨"/lib", 4⟩ (.fault .divisionByZero)), t) ∧
      inProgress [] events = blamed :: outer ∧
      blamed.location = ⟨"/lib", 4⟩ ∧
      outer.map Stmt.location = [⟨"/lib", 3⟩, ⟨"/m", 2⟩, ⟨"/m", 1⟩, ⟨"/m", 1⟩] := by
  have hrun : exec 12 .callingLoop .dividing =
    (.error (.located ⟨"/lib", 4⟩ (.fault .divisionByZero)), (exec 12 .callingLoop .dividing).2) := rfl
  obtain ⟨events, blamed, outer, cause, haccount, hend, hlocated, -, -⟩ :=
    error_blames_innermost hrun
  refine ⟨events, blamed, outer, _, haccount, hend, (Error.located.inj hlocated).1.symm, ?_⟩
  have hevents : events = (Account.exec 12 .callingLoop .dividing).1 := by rw [haccount]
  calc outer.map Stmt.location
      = ((inProgress [] events).map Stmt.location).tail := by rw [hend]; rfl
    _ = [⟨"/lib", 3⟩, ⟨"/m", 2⟩, ⟨"/m", 1⟩, ⟨"/m", 1⟩] := by rw [hevents]; rfl

end Kiln
