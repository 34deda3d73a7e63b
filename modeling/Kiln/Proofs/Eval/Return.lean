import Kiln.Proofs.Eval.Frames
import Kiln.Proofs.Eval.Manner

/-!
# Kiln.Proofs.Eval.Return — a return ends the activation

An activation is the call of a function (or of a target) or the top level of a module.  A return in
it leaves every block, branch and loop around it, through steps with dependencies and through the
modules that are being loaded: nothing is begun any more in the activation, and its value is the
value returned.  Only the top level of a module goes on after a return, with its next statement; the
value of the activation is then that of the last return.
-/

namespace Kiln

open Kiln.Action

/-- The call of a function with the values of its parameters, or the top level of a module in a
directory. -/
inductive Activation where
  | call (f : Function) (values : List Value)
  | top (m : Module) (cwd : String)

namespace Activation

/-- Runs the activation and gives back the value it returns. -/
def run (n : Nat) : Activation → Action Value
  | call f values => enter n f values
  | top m cwd => do
    start n m cwd
    Step.look fun s => s.frame.signals.result

/-- The same with an account of what happens. -/
def account (n : Nat) : Activation → Account Value
  | call f values => Account.enter n f values
  | top m cwd => do
    Account.start n m cwd
    Interpreter.look fun s => s.frame.signals.result

theorem run_account (a : Activation) (n : Nat) : (a.account n).run = a.run n := by
  cases a with
  | call f values => exact Account.run_enter n f values
  | top m cwd =>
    exact (Account.run_bind _ _).trans (congrArg (· >>= _) (Account.run_start n m cwd))

end Activation

/-! ## The order of events -/

/-- The statements that begin less those that end. -/
def balance : List Occurrence → Int
  | [] => 0
  | .begins _ :: es => balance es + 1
  | .ends _ :: es => balance es - 1
  | .returned _ :: es | .proceeds :: es | .within _ :: es => balance es

theorem balance_append (es fs : List Occurrence) : balance (es ++ fs) = balance es + balance fs := by
  induction es with
  | nil => simp [balance]
  | cons e es ih => cases e <;> simp only [List.cons_append, balance, ih] <;> omega

/-- The first statement that begins in these events has not ended. -/
def Underway (es : List Occurrence) : Prop := ∀ fs, fs ≠ [] → fs <+: es → 0 < balance fs

theorem Underway.concat {es : List Occurrence} {e : Occurrence} (h : Underway es)
    (he : 0 < balance (es ++ [e])) : Underway (es ++ [e]) := by
  intro fs hne hprefix
  rcases List.prefix_concat_iff.mp hprefix with rfl | hprefix
  · exact he
  · exact h fs hne hprefix

/-- How an activation stands. -/
structure Standing where
  /-- A return has taken effect, and no top level has gone on since, or the statement it went on to
  has ended. -/
  ended : Bool
  /-- For every statement a top level went on to after a return that has not ended, the innermost
  first: how many statements are in progress from it inwards. -/
  levels : List Nat
  /-- The value that would be returned. -/
  result : Value

namespace Standing

/-- The levels once a statement has begun. -/
def opened : List Nat → List Nat
  | [] => []
  | d :: rest => (d + 1) :: rest

/-- The levels once a statement that is about to begin has ended. -/
def around : List Nat → List Nat
  | 0 :: rest => rest
  | levels => levels

/-- The statement a top level goes on to has begun. -/
def Active (levels : List Nat) : Prop := ∀ rest, levels ≠ 0 :: rest

theorem active_opened (levels : List Nat) : Active (opened levels) := by
  cases levels <;> simp [opened, Active]

theorem around_of_active {levels : List Nat} (h : Active levels) : around levels = levels := by
  rcases levels with _ | ⟨_ | d, rest⟩
  · rfl
  · exact absurd rfl (h rest)
  · rfl

/-- How an activation comes to stand after an event.  Where a return has ended it, statements only
end, until the top level of a module goes on; when the statement it goes on to has ended, the
activation has ended again. -/
inductive Takes : Standing → Occurrence → Standing → Prop
  | begins (stmt : Stmt) (levels : List Nat) (v : Value) :
    Takes ⟨false, levels, v⟩ (.begins stmt) ⟨false, opened levels, v⟩
  | ends (stmt : Stmt) (p : Bool) (v : Value) : Takes ⟨p, [], v⟩ (.ends stmt) ⟨p, [], v⟩
  | endsInside (stmt : Stmt) (p : Bool) (d : Nat) (rest : List Nat) (v : Value) :
    Takes ⟨p, (d + 2) :: rest, v⟩ (.ends stmt) ⟨p, (d + 1) :: rest, v⟩
  | endsLevel (stmt : Stmt) (p : Bool) (rest : List Nat) (v : Value) :
    Takes ⟨p, 1 :: rest, v⟩ (.ends stmt) ⟨true, rest, v⟩
  | returned (w : Value) {levels : List Nat} (v : Value) : Active levels →
    Takes ⟨false, levels, v⟩ (.returned w) ⟨true, levels, w⟩
  | within (e : Occurrence) {levels : List Nat} (v : Value) : Active levels →
    Takes ⟨false, levels, v⟩ (.within e) ⟨false, levels, v⟩
  | proceeds {levels : List Nat} (v : Value) : Active levels →
    Takes ⟨false, levels, v⟩ .proceeds ⟨false, levels, v⟩
  | goesOn (levels : List Nat) (v : Value) :
    Takes ⟨true, levels, v⟩ .proceeds ⟨false, 0 :: levels, v⟩

/-- These events have followed a return; if the activation is not ended now, it is in a statement
that a top level went on to. -/
def Resumed (es : List Occurrence) (b : Standing) : Prop :=
  b.ended = false → ∃ (past more : List Occurrence) (d : Nat) (rest : List Nat),
    es = past ++ .proceeds :: more ∧ Underway more ∧ b.levels = d :: rest ∧ balance more = d

theorem Resumed.of_ended {es : List Occurrence} {b : Standing} (h : b.ended = true) : Resumed es b :=
  fun hb => by simp [h] at hb

/-- One event more in the statement that is underway. -/
theorem Resumed.concat {es : List Occurrence} {e : Occurrence} {b c : Standing} (h : Resumed es b)
    (hb : b.ended = false)
    (hstep : ∀ d rest, b.levels = d :: rest →
      ∃ d', c.levels = d' :: rest ∧ 0 < d' ∧ (d : Int) + balance [e] = d') :
    Resumed (es ++ [e]) c := by
  intro _
  obtain ⟨past, more, d, rest, rfl, hunder, hlevels, hd⟩ := h hb
  obtain ⟨d', hlevels', hpos, hsum⟩ := hstep d rest hlevels
  have hend : balance (more ++ [e]) = d' := by rw [balance_append, hd, hsum]
  refine ⟨past, more ++ [e], d', rest, by simp, hunder.concat ?_, hlevels', hend⟩
  omega

theorem Takes.resumed {es : List Occurrence} {e : Occurrence} {b c : Standing} (he : b.Takes e c)
    (h : Resumed es b) : Resumed (es ++ [e]) c := by
  cases he with
  | begins stmt levels v =>
    refine h.concat rfl fun d rest hlevels => ⟨d + 1, ?_, Nat.succ_pos d, rfl⟩
    cases hlevels
    rfl
  | ends stmt p v =>
    intro hc
    obtain ⟨-, -, d, rest, -, -, hlevels, -⟩ := h hc
    cases hlevels
  | endsInside stmt p d rest v =>
    cases p with
    | true => exact .of_ended rfl
    | false =>
      refine h.concat rfl fun d' rest' hlevels => ?_
      cases hlevels
      exact ⟨d + 1, rfl, Nat.succ_pos d, by simp only [balance]; omega⟩
  | endsLevel | returned => exact .of_ended rfl
  | within e v hactive =>
    refine h.concat rfl fun d rest hlevels => ⟨d, hlevels, ?_, by simp [balance]⟩
    exact Nat.pos_of_ne_zero fun hd => hactive rest (hd ▸ hlevels)
  | proceeds v hactive =>
    refine h.concat rfl fun d rest hlevels => ⟨d, hlevels, ?_, by simp [balance]⟩
    exact Nat.pos_of_ne_zero fun hd => hactive rest (hd ▸ hlevels)
  | goesOn levels v =>
    refine fun _ => ⟨es, [], 0, levels, rfl, ?_, rfl, rfl⟩
    intro fs hne hprefix
    exact absurd (List.prefix_nil.mp hprefix) hne

end Standing

/-- How an activation comes to stand after some events. -/
inductive Orderly : Standing → List Occurrence → Standing → Prop
  | nil (a : Standing) : Orderly a [] a
  | cons {a b c : Standing} {e : Occurrence} {es : List Occurrence} :
    a.Takes e b → Orderly b es c → Orderly a (e :: es) c

namespace Orderly

open Standing

variable {a b c : Standing} {e : Occurrence} {es fs : List Occurrence} {levels : List Nat} {v : Value}

theorem single (h : a.Takes e b) : Orderly a [e] b := .cons h (.nil b)

theorem append (h : Orderly a es b) (h' : Orderly b fs c) : Orderly a (es ++ fs) c := by
  induction h with
  | nil => exact h'
  | cons he _ ih => exact .cons he (ih h')

theorem of_append (h : Orderly a (es ++ fs) c) : ∃ b, Orderly a es b ∧ Orderly b fs c := by
  induction es generalizing a with
  | nil => exact ⟨a, .nil a, h⟩
  | cons e es ih =>
    cases h with
    | cons he h =>
      obtain ⟨b, hes, hfs⟩ := ih h
      exact ⟨b, .cons he hes, hfs⟩

theorem of_within (ha : Active levels) (h : ∀ e ∈ es, ∃ e', e = .within e') :
    Orderly ⟨false, levels, v⟩ es ⟨false, levels, v⟩ := by
  induction es with
  | nil => exact .nil _
  | cons e es ih =>
    obtain ⟨e', rfl⟩ := h e List.mem_cons_self
    exact .cons (.within e' v ha) (ih fun f hf => h f (List.mem_cons_of_mem _ hf))

theorem resumed (h : Orderly a fs b) (ha : Resumed es a) : Resumed (es ++ fs) b := by
  induction h generalizing es with
  | nil => rwa [List.append_nil]
  | cons he _ ih =>
    rw [List.append_cons]
    exact ih (he.resumed ha)

/-- After a return statements end, and otherwise there is a top level that has gone on since, to a
statement that has not ended. -/
theorem after_return (h : Orderly ⟨true, levels, v⟩ (es ++ e :: fs) c) :
    e = .proceeds ∨ (∃ stmt, e = .ends stmt) ∨
      ∃ past more, es = past ++ .proceeds :: more ∧ Underway more := by
  obtain ⟨b, hes, hrest⟩ := h.of_append
  obtain ⟨d, he⟩ : ∃ d, b.Takes e d := by
    cases hrest with
    | cons he _ => exact ⟨_, he⟩
  cases hb : b.ended with
  | false =>
    have hresumed : Resumed ([] ++ es) b := hes.resumed (.of_ended rfl)
    obtain ⟨past, more, -, -, hcut, hunder, -⟩ := hresumed hb
    exact .inr (.inr ⟨past, more, hcut, hunder⟩)
  | true =>
    cases he with
    | begins | returned | within | proceeds => cases hb
    | ends stmt | endsInside stmt | endsLevel stmt => exact .inr (.inl ⟨stmt, rfl⟩)
    | goesOn => exact .inl rfl

/-- A return takes effect after another one only if a top level has gone on in between. -/
theorem not_returned_of_not_proceeds (h : Orderly ⟨true, levels, v⟩ es b) (hes : .proceeds ∉ es)
    (w : Value) : .returned w ∉ es := by
  intro hw
  obtain ⟨earlier, later, rfl⟩ := List.append_of_mem hw
  rcases h.after_return with he | ⟨stmt, he⟩ | ⟨past, more, rfl, -⟩
  · cases he
  · cases he
  · exact hes (by simp)

/-- Only a return changes the value that would be returned. -/
theorem result_eq (h : Orderly a es b) (hes : ∀ w, .returned w ∉ es) : b.result = a.result := by
  induction h with
  | nil => rfl
  | cons he _ ih =>
    rw [ih fun w hw => hes w (List.mem_cons_of_mem _ hw)]
    cases he with
    | returned w => exact absurd List.mem_cons_self (hes w)
    | _ => rfl

end Orderly

/-! ## Computations in an activation -/

namespace Standing

/-- The frame has what the standing says: the value, and the signal once there was a return. -/
structure Holds (a : Standing) (s : Machine) : Prop where
  result : s.frame.signals.result = a.result
  returning : a.ended = true ∨ a.levels ≠ [] → s.frame.signals.returning = true

/-- Statements may begin. -/
structure Ready (a : Standing) (s : Machine) : Prop where
  holds : a.Holds s
  running : a.ended = false
  active : Active a.levels

/-- What an activation comes to, from one statement to the next. -/
structure Left (a : Standing) (t : Machine) (b : Standing) : Prop where
  holds : b.Holds t
  levels : b.levels = a.levels

variable {a b : Standing} {s t : Machine}

theorem Holds.of_signals (h : a.Holds s)
    (hresult : t.frame.signals.result = s.frame.signals.result)
    (hreturning : t.frame.signals.returning = s.frame.signals.returning) : a.Holds t :=
  ⟨hresult.trans h.result, fun ha => hreturning.trans (h.returning ha)⟩

theorem Holds.of_frame (h : a.Holds s) (hframe : t.frame = s.frame) : a.Holds t :=
  h.of_signals (by rw [hframe]) (by rw [hframe])

theorem Ready.of_frame (h : a.Ready s) (hframe : t.frame = s.frame) : a.Ready t :=
  ⟨h.holds.of_frame hframe, h.running, h.active⟩

theorem Ready.left (h : a.Ready s) : a.Left s a := ⟨h.holds, rfl⟩

theorem Left.ready (h : a.Left t b) (ha : Active a.levels) (hb : b.ended = false) : b.Ready t :=
  ⟨h.holds, hb, h.levels ▸ ha⟩

end Standing

namespace Account

open Standing

variable {α β τ : Type}

/-- Started in `s`, in an activation that stands as `a` says, the computation is orderly; if it ends
well, `P` holds of its value, its end state and how the activation stands then. -/
def Heeds (a : Standing) (s : Machine) (m : Account α) (P : α → Machine → Standing → Prop) : Prop :=
  ∃ b, Orderly a (m s).1 b ∧ ∀ x, (m s).2.1 = .ok x → P x (m s).2.2 b

namespace Heeds

variable {a : Standing} {s : Machine} {m : Account α} {P P' : α → Machine → Standing → Prop}
  {Q : β → Machine → Standing → Prop}

theorem mono (h : Heeds a s m P) (hP : ∀ x t b, P x t b → P' x t b) : Heeds a s m P' := by
  obtain ⟨b, horder, hval⟩ := h
  exact ⟨b, horder, fun x hx => hP x _ b (hval x hx)⟩

theorem bind {f : α → Account β} (hm : Heeds a s m P)
    (hf : ∀ x t b, P x t b → Heeds b t (f x) Q) : Heeds a s (m >>= f) Q := by
  obtain ⟨b, horder, hval⟩ := hm
  rcases hrun : m s with ⟨es, o, t⟩
  rw [hrun] at horder hval
  cases o with
  | ok x =>
    obtain ⟨c, hrest, hend⟩ := hf x t b (hval x rfl)
    rw [Heeds, bind_of_ok f hrun]
    exact ⟨c, horder.append hrest, hend⟩
  | error e =>
    rw [Heeds, bind_of_error f hrun]
    exact ⟨b, horder, fun x hx => by cases hx⟩
  | exhausted =>
    rw [Heeds, bind_of_exhausted f hrun]
    exact ⟨b, horder, fun x hx => by cases hx⟩

theorem silent {m : Action α} (hP : ∀ x, (m s).1 = .ok x → P x (m s).2 a) :
    Heeds a s (silent m) P :=
  ⟨a, .nil a, hP⟩

theorem pure {x : α} (hP : P x s a) : Heeds a s (pure x : Account α) P :=
  silent fun y hy => by
    cases hy
    exact hP

theorem stuck : Heeds a s (Interpreter.stuck : Account α) P := silent fun x hx => by cases hx

/-- What is not noted may change anything. -/
theorem silent_bind {m : Action α} {f : α → Account β}
    (hf : ∀ x t, m s = (.ok x, t) → Heeds a t (f x) Q) :
    Heeds a s (Account.silent m >>= f) Q :=
  bind (P := fun x t b => b = a ∧ m s = (.ok x, t)) (silent fun _ hx => ⟨rfl, Prod.ext hx rfl⟩)
    fun x t _ ⟨hb, hrun⟩ => hb ▸ hf x t hrun

/-- An evaluation starts other activations only, and leaves the frame as it is. -/
theorem evaluation {m : Account α} {f : α → Account β} (ha : a.Ready s)
    (hwithin : ∀ e ∈ (m s).1, ∃ e', e = .within e') (hframe : (m.run s).2.frame = s.frame)
    (hf : ∀ x t, a.Ready t → Heeds a t (f x) Q) : Heeds a s (m >>= f) Q := by
  refine bind (P := fun _ t b => b = a ∧ a.Ready t) ?_ ?_
  · obtain ⟨p, levels, v⟩ := a
    cases ha.running
    exact ⟨_, .of_within ha.active hwithin, fun x _ => ⟨rfl, ha.of_frame hframe⟩⟩
  · rintro x t b ⟨rfl, ht⟩
    exact hf x t ht

/-- An action that leaves the frame as it is. -/
theorem aside {m : Action α} {f : α → Account β} (ha : a.Ready s)
    (hframe : (m s).2.frame = s.frame) (hf : ∀ x t, a.Ready t → Heeds a t (f x) Q) :
    Heeds a s (Account.silent m >>= f) Q :=
  evaluation (m := Account.silent m) ha (by simp [Account.silent]) hframe hf

/-- A module that is used belongs to the activation. -/
theorem used {path : String} (h : Heeds a s m P) :
    Heeds a s (Interpreter.within (.used path) m) P := h

/-- The start of a top level is not noted. -/
theorem starts {path : String} (h : Heeds a s m P) :
    Heeds a s (Interpreter.mark (.starts path) m) P := h

/-- What is put back at the end does not change how the activation stands. -/
theorem restoring {save : Machine → τ} {restore : τ → Machine → Machine} (h : Heeds a s m P)
    (hP : ∀ x t b, P x t b → P' x (restore (save s) t) b) :
    Heeds a s (restoring save restore m) P' := by
  obtain ⟨b, horder, hval⟩ := h
  exact ⟨b, horder, fun x hx => hP x _ b (hval x hx)⟩

end Heeds

/-- All that happens in an evaluation happens in other activations. -/
def enclosed : Manner where
  evaluates m := ∀ s, ∀ e ∈ (m s).1, ∃ e', e = .within e'
  executes _ := True
  silent _ _ e he := absurd he List.not_mem_nil
  bind {α β m f} hm hf s e he := by
    rcases hrun : m s with ⟨es, o, t⟩
    have hfirst := hm s
    rw [hrun] at hfirst
    cases o with
    | ok a =>
      rw [bind_of_ok f hrun] at he
      rcases List.mem_append.mp he with he | he
      · exact hfirst e he
      · exact hf a t e he
    | error cause =>
      rw [bind_of_error f hrun] at he
      exact hfirst e he
    | exhausted =>
      rw [bind_of_exhausted f hrun] at he
      exact hfirst e he
  inside _ _ e he := by
    obtain ⟨e', -, rfl⟩ := List.mem_map.mp he
    exact ⟨e', rfl⟩
  restoring h := h
  evaluation _ := trivial
  sequel _ _ := trivial
  goingBack _ := trivial
  executing _ := trivial
  returned _ := trivial
  proceeds := trivial

theorem Heeds.eval {n : Nat} {e : Expr} {a : Standing} {s : Machine} {f : Value → Account β}
    {Q : β → Machine → Standing → Prop} (ha : a.Ready s)
    (hf : ∀ v t, a.Ready t → Heeds a t (f v) Q) : Heeds a s (eval n e >>= f) Q := by
  refine .evaluation ha ((enclosed.kept n).eval e s) ?_ hf
  rw [run_eval]
  exact frame_eval n e s

/-- The computation is orderly, and what it leaves is in the frame. -/
abbrev Stands (a : Standing) (s : Machine) (m : Account α) : Prop :=
  Heeds a s m fun _ t b => a.Left t b

/-- The end of a pass: if it says to go on, no return has ended the activation. -/
abbrev Passes (a : Standing) (s : Machine) (m : Account Bool) : Prop :=
  Heeds a s m fun stop t b => a.Left t b ∧ (stop = false → b.ended = false)

namespace Stands

variable {a : Standing} {s : Machine}

theorem pure {x : α} (ha : a.Ready s) : Stands a s (pure x : Account α) := Heeds.pure ha.left

/-- A statement may begin where a top level goes on to it, too. -/
theorem executing {stmt : Stmt} {m : Account Unit} (ha : a.Holds s) (hrunning : a.ended = false)
    (hm : ∀ b : Standing, b.Ready s → Stands b s m) :
    Heeds a s (executing stmt m) fun _ t b => b.Holds t ∧ b.levels = around a.levels := by
  obtain ⟨p, levels, v⟩ := a
  cases hrunning
  have hempty : levels = [] → opened levels = [] := by
    rintro rfl
    rfl
  have hready : Ready ⟨false, opened levels, v⟩ s :=
    ⟨⟨ha.result, fun h => ha.returning (h.imp id fun hne hnil => hne (hempty hnil))⟩, rfl,
      active_opened levels⟩
  obtain ⟨b, horder, hval⟩ := hm _ hready
  rw [Heeds, executing_run]
  generalize m s = r at horder hval
  rcases r with ⟨es, o, t⟩
  have hbegins : Orderly ⟨false, levels, v⟩ (.begins stmt :: es) b := .cons (.begins stmt levels v) horder
  cases o with
  | error e => exact ⟨b, hbegins, fun x hx => by cases hx⟩
  | exhausted => exact ⟨b, hbegins, fun x hx => by cases hx⟩
  | ok x =>
    obtain ⟨hholds, hlevels⟩ := hval x rfl
    obtain ⟨p, levels', w⟩ := b
    cases hlevels
    -- the statement was a step of no level, the outermost of one, or further inside
    rcases levels with _ | ⟨_ | d, rest⟩
    · exact ⟨_, hbegins.append (.single (.ends stmt p w)), fun _ _ => ⟨hholds, rfl⟩⟩
    · refine ⟨_, hbegins.append (.single (.endsLevel stmt p rest w)), fun _ _ => ⟨⟨hholds.result, ?_⟩, rfl⟩⟩
      exact fun _ => hholds.returning (.inr (List.cons_ne_nil _ _))
    · refine ⟨_, hbegins.append (.single (.endsInside stmt p d rest w)),
        fun _ _ => ⟨⟨hholds.result, fun _ => ?_⟩, rfl⟩⟩
      exact hholds.returning (.inr (List.cons_ne_nil _ _))

theorem keepingDirectory {m : Account α} (h : Stands a s m) :
    Stands a s (Interpreter.keepingDirectory m) :=
  Heeds.restoring h fun _ _ _ hb => ⟨hb.holds.of_frame rfl, hb.levels⟩

theorem eachUntil {f : α → Account Bool}
    (hf : ∀ x (a : Standing) t, a.Ready t → Passes a t (f x)) (as : List α) (ha : a.Ready s) :
    Stands a s (Step.eachUntil f as) := by
  induction as generalizing a s with
  | nil => exact .pure ha
  | cons x as ih =>
    refine Heeds.bind (hf x a s ha) ?_
    rintro stop t b ⟨hb, hgo⟩
    cases stop with
    | true => exact Heeds.pure hb
    | false =>
      refine (ih (hb.ready ha.active (hgo rfl))).mono fun _ u c hc => ?_
      exact ⟨hc.holds, hc.levels.trans hb.levels⟩

/-- A return that takes effect. -/
theorem leaveWith (v : Value) (ha : a.Ready s) :
    Stands a s (Interpreter.leaveWith v : Account Unit) := by
  obtain ⟨p, levels, w⟩ := a
  cases ha.running
  exact ⟨⟨true, levels, v⟩, .single (.returned v w ha.active), fun _ _ => ⟨⟨rfl, fun _ => rfl⟩, rfl⟩⟩

/-- The top level of a module goes on, after a return too. -/
theorem topLevel {f : α → Account Unit}
    (hf : ∀ x (a : Standing) t, a.Holds t → a.ended = false →
      Heeds a t (f x) fun _ u b => b.Holds u ∧ b.levels = around a.levels)
    (as : List α) (ha : a.Holds s) (hactive : Active a.levels) :
    Stands a s (Step.forAll (fun x => Interpreter.mark .proceeds (f x)) as) := by
  induction as generalizing a s with
  | nil => exact Heeds.pure ⟨ha, rfl⟩
  | cons x as ih =>
    have hproceeds : Heeds a s (note .proceeds) fun _ t b =>
        b.Holds t ∧ b.ended = false ∧ around b.levels = a.levels := by
      obtain ⟨p, levels, v⟩ := a
      cases p with
      | false =>
        exact ⟨_, .single (.proceeds v hactive), fun _ _ => ⟨ha, rfl, around_of_active hactive⟩⟩
      | true =>
        refine ⟨_, .single (.goesOn levels v), fun _ _ => ⟨⟨ha.result, fun _ => ?_⟩, rfl, rfl⟩⟩
        exact ha.returning (.inl rfl)
    have hfirst : Stands a s (Interpreter.mark .proceeds (f x)) := by
      refine Heeds.bind hproceeds ?_
      rintro _ t b ⟨hb, hrunning, hlevels⟩
      exact (hf x b t hb hrunning).mono fun _ u c hc => ⟨hc.1, hc.2.trans hlevels⟩
    refine Heeds.bind hfirst fun _ t b hb => ?_
    refine (ih hb.holds (hb.levels ▸ hactive)).mono fun _ u c hc => ?_
    exact ⟨hc.holds, hc.levels.trans hb.levels⟩

end Stands

/-- After the first part of a pass, its end. -/
theorem passes_settle {a b : Standing} {s : Machine} (hb : a.Left s b) :
    Heeds b s (Account.silent settle) fun stop t c => a.Left t c ∧ (stop = false → c.ended = false) := by
  have ha := hb.holds
  refine Heeds.silent (m := settle) fun stop hstop => ?_
  cases hbreak : s.frame.signals.breaking with
  | true =>
    rw [settle_of_breaking hbreak] at hstop ⊢
    cases hstop
    exact ⟨⟨ha.of_signals rfl rfl, hb.levels⟩, fun h => by cases h⟩
  | false =>
    rw [settle_of_not_breaking hbreak] at hstop ⊢
    injection hstop with hstop
    refine ⟨⟨ha.of_signals rfl rfl, hb.levels⟩, fun h => Bool.eq_false_iff.mpr fun hended => ?_⟩
    rw [← hstop, ha.returning (.inl hended)] at h
    cases h

theorem passes_interrupted {a b : Standing} {s : Machine} (hb : a.Left s b) :
    Heeds b s (Account.silent (.look fun t => t.frame.signals.interrupted)) fun stop t c =>
      a.Left t c ∧ (stop = false → c.ended = false) := by
  refine Heeds.silent fun stop hstop => ⟨hb, fun hgo => Bool.eq_false_iff.mpr fun hended => ?_⟩
  injection hstop with hstop
  have hall : s.frame.signals.interrupted = true := by
    simp [Signals.interrupted, hb.holds.returning (.inl hended)]
  cases hall.symm.trans (hstop.trans hgo)

/-! ## The evaluator -/

/-- With one bound on the depth, the functions that execute statements heed a return. -/
structure Ending (n : Nat) : Prop where
  exec : ∀ stmt (a : Standing) s, a.Holds s → a.ended = false →
    Heeds a s (exec n stmt) fun _ t b => b.Holds t ∧ b.levels = around a.levels
  iterate : ∀ cond next body (a : Standing) s, a.Ready s → Stands a s (iterate n cond next body)
  visit : ∀ c i name body (a : Standing) s, a.Ready s → Stands a s (visit n c i name body)
  loadInto : ∀ path targets (a : Standing) s, a.Ready s → Stands a s (loadInto n path targets)

namespace Ending

variable {n : Nat} {a : Standing} {s : Machine}

/-- A statement inside another one. -/
theorem inner (h : Ending n) (stmt : Stmt) (ha : a.Ready s) : Stands a s (Account.exec n stmt) :=
  (h.exec stmt a s ha.holds ha.running).mono fun _ _ _ hb =>
    ⟨hb.1, hb.2.trans (around_of_active ha.active)⟩

/-- The body of a loop, then `again` unless the loop must stop. -/
theorem pass (h : Ending n) (body : Stmt) {again : Account Unit} (ha : a.Ready s)
    (hagain : ∀ (b : Standing) t, b.Ready t → Stands b t again) :
    Stands a s (Interpreter.pass (Account.exec n body) again) := by
  refine Heeds.bind (h.inner body ha) fun _ t b hb => Heeds.bind (passes_settle hb) ?_
  rintro stop u c ⟨hc, hgo⟩
  cases stop with
  | true => exact Heeds.pure hc
  | false =>
    refine (hagain c u (hc.ready ha.active (hgo rfl))).mono fun _ w d hd => ?_
    exact ⟨hd.holds, hd.levels.trans hc.levels⟩

theorem iterate_succ (h : Ending n) (cond next : Option Expr) (body : Stmt) (a : Standing)
    (s : Machine) (ha : a.Ready s) : Stands a s (Account.iterate (n + 1) cond next body) := by
  have hagain (b : Standing) (t : Machine) (hb : b.Ready t) : Stands b t
      (Interpreter.onward (next.map (Account.eval n)) (Account.iterate n cond next body)) := by
    cases next with
    | some e => exact Heeds.eval hb fun _ u hu => h.iterate cond (some e) body b u hu
    | none => exact h.iterate cond none body b t hb
  cases cond with
  | some e =>
    refine Heeds.eval ha fun v t ht => ?_
    show Stands a t (if !v.isTrue then return () else _)
    split
    · exact Stands.pure ht
    · exact h.pass body ht hagain
  | none => exact h.pass body ha hagain

theorem visit_succ (h : Ending n) (c : ArrayId) (i : Nat) (name : String) (body : Stmt)
    (a : Standing) (s : Machine) (ha : a.Ready s) :
    Stands a s (Account.visit (n + 1) c i name body) := by
  refine Heeds.aside ha rfl fun s t ht => ?_
  split
  · refine Heeds.aside ht rfl fun v u hu => Heeds.aside hu rfl fun _ w hw => ?_
    exact h.pass body hw fun b x hb => h.visit c (i + 1) name body b x hb
  · exact Stands.pure ht

theorem loadInto_succ (h : Ending n) (path : String) (targets : Bool) (a : Standing) (s : Machine)
    (ha : a.Ready s) : Stands a s (Account.loadInto (n + 1) path targets) := by
  refine Heeds.aside ha (congrArg Machine.frame (idle_load path s)) fun m t ht => ?_
  refine Heeds.aside ht rfl fun _ u hu => Heeds.aside hu (Aside.addFunctions _ u).frame fun _ w hw => ?_
  exact Stands.topLevel h.exec m.body hw.holds hw.active

theorem exec_succ (h : Ending n) (stmt : Stmt) (a : Standing) (s : Machine) (ha : a.Holds s)
    (hrunning : a.ended = false) :
    Heeds a s (Account.exec (n + 1) stmt) fun _ t b => b.Holds t ∧ b.levels = around a.levels := by
  refine Stands.executing ha hrunning fun a ha => ?_
  cases stmt with
  | expr loc e => exact Heeds.eval ha fun _ t ht => Stands.pure ht
  | block loc body =>
    refine .keepingDirectory (.eachUntil (fun stmt b t hb => ?_) body ha)
    exact Heeds.bind (h.inner stmt hb) fun _ u c hc => passes_interrupted hc
  | branch loc cond yes no =>
    refine Heeds.eval ha fun c t ht => ?_
    split
    · exact h.inner yes ht
    · cases no with
      | some no => exact h.inner no ht
      | none => exact Stands.pure ht
  | loop loc init cond next body =>
    cases init with
    | some e => exact Heeds.eval ha fun _ t ht => h.iterate cond next body a t ht
    | none => exact h.iterate cond next body a s ha
  | foreach loc name items body =>
    refine Heeds.eval ha fun collection t ht => ?_
    have hscalar (v : Value) : Stands a t (do
        Account.silent (setVar name v)
        Account.exec n body
        Account.silent (changeSignals fun s => { s with breaking := false, continuing := false })) := by
      refine Heeds.aside ht rfl fun _ u hu => Heeds.bind (h.inner body hu) fun _ w b hb => ?_
      exact Heeds.silent fun _ _ => ⟨hb.holds.of_signals rfl rfl, hb.levels⟩
    cases collection with
    | array c => exact h.visit c 0 name body a t ht
    | dict d =>
      refine Heeds.aside ht rfl fun keys u hu => ?_
      refine Stands.eachUntil (fun key b w hw => ?_) keys hu
      refine Heeds.aside hw rfl fun _ x hx => ?_
      exact Heeds.bind (h.inner body hx) fun _ y c hc => passes_settle hc
    | void => exact hscalar _
    | int i => exact hscalar _
    | str text => exact hscalar _
  | breakStmt loc => exact Heeds.silent fun _ _ => ⟨ha.holds.of_signals rfl rfl, rfl⟩
  | continueStmt loc => exact Heeds.silent fun _ _ => ⟨ha.holds.of_signals rfl rfl, rfl⟩
  | returnStmt loc value =>
    cases value with
    | some e => exact Heeds.eval ha fun v t ht => Stands.leaveWith v ht
    | none => exact Stands.leaveWith .void ha
  | depends loc paths action =>
    refine Heeds.eval ha fun listed t ht => Heeds.aside ht rfl fun values t ht => ?_
    refine Heeds.aside ht (congrArg Machine.frame (idle_textsOf values t)) fun texts t ht => ?_
    refine Heeds.aside ht rfl fun s t ht => Heeds.aside ht rfl fun code t ht => ?_
    refine Heeds.aside ht rfl fun upToDate t ht => ?_
    split
    · exact Stands.pure ht
    · refine Heeds.bind (h.inner action ht) fun _ u b hb => ?_
      exact Heeds.silent fun _ _ => ⟨hb.holds.of_frame rfl, hb.levels⟩
  | includeStmt loc path =>
    refine Heeds.eval ha fun v t ht => ?_
    refine Heeds.aside ht (congrArg Machine.frame (idle_textOf v t)) fun text t ht => ?_
    refine Heeds.aside ht rfl fun path t ht => Heeds.aside ht rfl fun s t ht => ?_
    split
    · exact Stands.pure ht
    · exact h.loadInto path true a t ht
  | usingStmt loc path =>
    refine Heeds.eval ha fun v t ht => ?_
    refine Heeds.aside ht (congrArg Machine.frame (idle_textOf v t)) fun text t ht => ?_
    refine Heeds.aside ht rfl fun path t ht => Heeds.aside ht rfl fun s t ht => ?_
    split
    · exact Stands.pure ht
    · refine Heeds.aside (m := .change _) ht rfl fun _ t ht => Stands.keepingDirectory ?_
      exact Heeds.used (Heeds.aside ht rfl fun _ t ht => h.loadInto path false a t ht)

end Ending

theorem ending (n : Nat) : Ending n := by
  induction n with
  | zero =>
    exact {
      exec := fun _ _ _ _ _ => Heeds.stuck
      iterate := fun _ _ _ _ _ _ => Heeds.stuck
      visit := fun _ _ _ _ _ _ _ => Heeds.stuck
      loadInto := fun _ _ _ _ _ => Heeds.stuck }
  | succ n ih =>
    exact {
      exec := ih.exec_succ
      iterate := ih.iterate_succ
      visit := ih.visit_succ
      loadInto := ih.loadInto_succ }

end Account

/-! ## Activations -/

open Account in
/-- An activation starts without a value to return, and its value is the one it comes to stand with. -/
theorem Activation.heeds (a : Activation) (n : Nat) (s : Machine) :
    Heeds ⟨false, [], .void⟩ s (a.account n) fun v _ b => v = b.result := by
  have hfresh {t : Machine} (ht : t.frame.signals = .none) :
      (⟨false, [], .void⟩ : Standing).Ready t := by
    refine ⟨⟨by rw [ht]; rfl, fun h => ?_⟩, rfl, fun rest h => by cases h⟩
    rcases h with h | h
    · cases h
    · exact absurd rfl h
  cases a with
  | call f values =>
    cases n with
    | zero => exact Heeds.stuck
    | succ n =>
      show Heeds _ s (Interpreter.keepingFrame _) _
      refine Heeds.restoring (P := fun v _ b => v = b.result) ?_ fun _ _ _ h => h
      refine Heeds.silent_bind fun outer t _ => Heeds.silent_bind fun scope t _ => ?_
      refine Heeds.silent_bind fun _ t _ => Heeds.silent_bind fun _ t hchange => ?_
      cases hchange
      refine Heeds.bind ((ending n).inner f.body (hfresh rfl)) fun _ u b hb => ?_
      exact Heeds.silent fun v hv => (Outcome.ok.inj hv).symm.trans hb.holds.result
  | top m cwd =>
    refine Heeds.bind (P := fun _ t b => b.Holds t) ?_ fun _ u b hb =>
      Heeds.silent fun v hv => (Outcome.ok.inj hv).symm.trans hb.result
    cases n with
    | zero => exact Heeds.stuck
    | succ n =>
      refine Heeds.silent_bind fun _ t _ => Heeds.silent_bind fun _ t _ => ?_
      refine Heeds.silent_bind fun _ t _ => Heeds.starts ?_
      refine Heeds.silent_bind fun host t _ => Heeds.silent_bind fun scope t _ => ?_
      refine Heeds.silent_bind fun _ t hchange => ?_
      cases hchange
      have htop := hfresh (t := { t with frame := .top m.path scope }) rfl
      exact (Stands.topLevel (ending n).exec m.body htop.holds htop.active).mono fun _ _ _ hb => hb.holds

/-- What follows a return is orderly from there on, and what the activation then comes to stand with is
its value. -/
theorem Activation.orderly_after_return (a : Activation) (n : Nat) (s : Machine)
    {before after : List Occurrence} {v : Value}
    (h : (a.account n s).1 = before ++ .returned v :: after) :
    ∃ (levels : List Nat) (b : Standing), Orderly ⟨true, levels, v⟩ after b ∧
      ∀ w t, a.run n s = (.ok w, t) → w = b.result := by
  obtain ⟨b, horder, hvalue⟩ := a.heeds n s
  rw [h] at horder
  obtain ⟨c, -, hreturn⟩ := horder.of_append
  cases hreturn with
  | cons he hafter =>
    cases he
    refine ⟨_, b, hafter, fun w t hrun => ?_⟩
    rw [← a.run_account] at hrun
    exact hvalue w (congrArg Prod.fst hrun)

/-- After a return, statements of the activation end and nothing else happens in it, except that the
top level of a module goes on with its next statement: what happens then happens before that statement
has ended.  The value of the activation is that of the last return, and so that of the first if no
top level goes on after it. -/
theorem return_ends_activation (a : Activation) (n : Nat) (s : Machine) {before after : List Occurrence}
    {v : Value} (h : (a.account n s).1 = before ++ .returned v :: after) :
    (∀ mid e rest, after = mid ++ e :: rest → e = .proceeds ∨ (∃ stmt, e = .ends stmt) ∨
      ∃ past more, mid = past ++ .proceeds :: more ∧ Underway more) ∧
    (∀ w t, a.run n s = (.ok w, t) → .proceeds ∉ after ∨ (∀ u, .returned u ∉ after) → w = v) := by
  obtain ⟨levels, b, horder, hvalue⟩ := a.orderly_after_return n s h
  refine ⟨?_, fun w t hrun hlast => ?_⟩
  · rintro mid e rest rfl
    exact horder.after_return
  · have hnone : ∀ u, .returned u ∉ after := hlast.elim horder.not_returned_of_not_proceeds id
    exact (hvalue w t hrun).trans (horder.result_eq hnone)

/-- `return 7;` -/
def Stmt.returnSeven : Stmt := .returnStmt ⟨"/m", 1⟩ (some (.const (.int 7)))

/-- `return 8;` -/
def Stmt.returnEight : Stmt := .returnStmt ⟨"/m", 2⟩ (some (.const (.int 8)))

/-- `foreach (x in 0) return 7;` -/
def Stmt.innerLoop : Stmt := .foreach ⟨"/m", 1⟩ "x" (.const (.int 0)) .returnSeven

/-- `for (;;) foreach (x in 0) return 7;` -/
def Stmt.outerLoop : Stmt := .loop ⟨"/m", 1⟩ none none none .innerLoop

/-- `{ for (;;) foreach (x in 0) return 7; return 8; }` -/
def Stmt.nestedLoops : Stmt := .block ⟨"/m", 1⟩ [.outerLoop, .returnEight]

/-- A call of a function with the nested loops for its body. -/
def Activation.nestedLoops : Activation := .call ⟨"f", [], .nestedLoops, false⟩ []

/-- The top level `return 7; return 8;`. -/
def Activation.twoReturns : Activation := .top ⟨"/m", .empty, [], [.returnSeven, .returnEight]⟩ "/"

/-- The first return leaves both loops and ends the call, but it does not end the top level. -/
theorem return_ends_nestedLoops :
    (Activation.nestedLoops.run 12 .blank).1 = .ok (.int 7) ∧
    (∀ w t, Activation.nestedLoops.run 12 .blank = (.ok w, t) → w = .int 7) ∧
    (Activation.twoReturns.run 12 .blank).1 = .ok (.int 8) := by
  have hcall : (Activation.nestedLoops.account 12 .blank).1 =
      [.begins .nestedLoops, .begins .outerLoop, .begins .innerLoop, .begins .returnSeven] ++
        .returned (.int 7) ::
          [.ends .returnSeven, .ends .innerLoop, .ends .outerLoop, .ends .nestedLoops] := rfl
  refine ⟨rfl, fun w t hrun => ?_, ?_⟩
  · exact (return_ends_activation _ 12 _ hcall).2 w t hrun (.inl (by simp))
  · decide +kernel

end Kiln
