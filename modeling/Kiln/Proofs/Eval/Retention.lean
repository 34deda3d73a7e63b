import Kiln.Proofs.Eval.Evaluator
import Kiln.Proofs.Memory.Retention

/-!
# Kiln.Proofs.Eval.Retention — containers only grow

Whatever is evaluated or executed, in a function, another build file or an expression of a loop, and
however it ends: the arrays and dictionaries that there were have all their cells where they were.
So the passes of a loop over an array take its positions one after the other, whatever its body does
to the array: the cell at a position is the same as long as the loop goes on, and a loop that is not
stopped has come to the end of the array as it is then.
-/

namespace Kiln

open Kiln.Action

/-! ## The regime -/

theorem Host.retaining_newScope (h : Host) (m : Memory) :
    h.newScope.Obeys Memory.retaining m fun _ _ => True := by
  have hdescribe : h.describe.Obeys Memory.retaining m fun _ _ => True := by
    refine (Memory.retaining_newDict _ m).bind fun env t _ _ _ => ?_
    refine (Memory.retaining_newArray _ t).bind fun path u _ _ _ => ?_
    exact Memory.retaining_newDict _ u
  refine hdescribe.bind fun sys t _ _ _ => ?_
  refine (Memory.retaining_newScope none t).bind fun scope u _ _ _ => ?_
  refine (Memory.retaining_setVar scope "sys" sys u).bind fun _ _ _ _ _ => ?_
  exact .pure trivial trivial

theorem Machine.retains_entered (s : Machine) (f : Function) (values : List Value) :
    s.memory.Retains (s.entered f values).memory := by
  have hscope := Memory.retaining_newScope (some s.frame.scope) s.memory
  have hparams : (Step.forAll (fun p => Memory.setVar ⟨s.memory.scopes.size⟩ p.1 p.2)
      (f.params.zip values)).Obeys Memory.retaining
        (Memory.newScope (some s.frame.scope) s.memory).2 fun _ _ => True :=
    .forAll trivial fun p _ t _ _ => Memory.retaining_setVar _ p.1 p.2 t
  exact hscope.rel.trans hparams.rel

theorem Machine.retains_opened (s : Machine) (module : String) :
    s.memory.Retains (s.opened module).memory :=
  (s.host.retaining_newScope s.memory).rel

/-- The regime that looks at containers only. -/
def retentive : Regime where
  inv _ := True
  evaluated s t := s.memory.Retains t.memory
  executed s t := s.memory.Retains t.memory
  holds _ _ := True
  owns _ _ := True
  evaluated_refl s := .refl s.memory
  evaluated_trans := .trans
  executed_trans := .trans
  executed_of_evaluated := id
  holds_mono _ _ := trivial
  owns_mono _ _ := trivial
  holds_scalar _ := trivial
  holds_result _ := trivial
  holds_var _ _ := trivial
  holds_read _ _ := trivial
  owns_slot _ _ _ := trivial
  owns_entry _ _ _ := trivial
  newArray {s vs} _ _ := ⟨trivial, (Memory.retaining_newArray vs s.memory).rel, fun _ _ => trivial⟩
  newDict {s pairs} _ _ :=
    ⟨trivial, (Memory.retaining_newDict pairs s.memory).rel, fun _ _ => trivial⟩
  varCell {s} name _ :=
    ⟨trivial, (Memory.retaining_varCell s.frame.scope name s.memory).rel, fun _ _ => trivial⟩
  slotCell {s a} i _ _ :=
    ⟨trivial, (Memory.retaining_slotCell a i s.memory).rel, fun _ _ => trivial⟩
  entryCell {s d} key _ _ :=
    ⟨trivial, (Memory.retaining_entryCell d key s.memory).rel, fun _ _ => trivial⟩
  write {s c v} _ _ _ := ⟨trivial, (Memory.retaining_write c v s.memory).rel, fun _ _ => trivial⟩
  setVar {s v} name _ _ :=
    ⟨trivial, (Memory.retaining_setVar s.frame.scope name v s.memory).rel, fun _ _ => trivial⟩
  aside _ h := ⟨trivial, h.memory ▸ .refl _⟩
  signals {s _} _ _ := ⟨trivial, .refl s.memory⟩
  entered _ _ _ := trivial
  opened _ _ := trivial
  left {s f values _} _ _ _ h := ⟨trivial, (s.retains_entered f values).trans h⟩
  closed {s module _} _ _ h := ⟨trivial, (s.retains_opened module).trans h⟩

/-! ## The passes of a loop over an array -/

/-- One pass: the value at a position goes into the variable, and the body is executed.  Says whether
the loop must stop. -/
def pass (n : Nat) (a : ArrayId) (i : Nat) (name : String) (body : Stmt) : Action Bool := do
  let v ← onMemory (Memory.index (.array a) (Int32.ofNat i))
  setVar name v
  exec n body
  settle

theorem retains_pass (n : Nat) (a : ArrayId) (i : Nat) (name : String) (body : Stmt) (s : Machine) :
    s.memory.Retains (pass n a i name body s).2.memory := by
  have hpass : (pass n a i name body).Obeys retentive.executing s fun _ _ => True := by
    refine (retentive.executing_of_evaluating (retentive.yields_index _ trivial trivial)).bind
      fun v t ht _ hv => ?_
    refine (Regime.obeys_setVar name ht hv).bind fun _ u hu _ _ => ?_
    refine ((retentive.kept n).exec body hu).bind fun _ w hw _ _ => ?_
    exact Regime.obeys_settle hw
  exact hpass.rel

section Unfolding

variable {n i : Nat} {a : ArrayId} {name : String} {body : Stmt} {s : Machine}

theorem visit_of_lt (h : i < (s.memory.slots a).size) : visit (n + 1) a i name body s =
    (pass n a i name body >>= fun stop =>
      if stop then return () else visit n a (i + 1) name body) s := by
  simp only [pass, bind_assoc]
  exact congrFun (if_pos h) s

theorem visit_of_le (h : (s.memory.slots a).size ≤ i) :
    visit (n + 1) a i name body s = (.ok (), s) :=
  congrFun (if_neg (Nat.not_lt.mpr h)) s

end Unfolding

/-- A pass of a loop over an array. -/
structure Pass where
  position : Nat
  /-- The cell at that position. -/
  cell : CellId
  /-- The memory in which the pass begins. -/
  memory : Memory

/-- How a loop over an array ends: at the end of the array, because its body says so, or not at all
or with an error. -/
inductive LoopEnd where
  | through
  | stopped
  | failed
  deriving DecidableEq, Repr

/-- The passes of a loop over an array from a position on, and how the loop ends. -/
inductive Passes (a : ArrayId) (name : String) (body : Stmt) :
    Nat → Nat → Machine → List Pass → LoopEnd → Outcome Unit × Machine → Prop where
  | stuck {i : Nat} {s : Machine} : Passes a name body 0 i s [] .failed (.exhausted, s)
  | through {n i : Nat} {s : Machine} (h : (s.memory.slots a).size ≤ i) :
      Passes a name body (n + 1) i s [] .through (.ok (), s)
  | stopped {n i : Nat} {s t : Machine} {c : CellId} (hc : (s.memory.slots a)[i]? = some c)
      (hpass : pass n a i name body s = (.ok true, t)) :
      Passes a name body (n + 1) i s [⟨i, c, s.memory⟩] .stopped (.ok (), t)
  | failed {n i : Nat} {s t : Machine} {c : CellId} {o : Outcome Bool} {o' : Outcome Unit}
      (hc : (s.memory.slots a)[i]? = some c) (hpass : pass n a i name body s = (o, t))
      (ho : ∀ stop, o ≠ .ok stop) (ho' : ∀ u, o' ≠ .ok u) :
      Passes a name body (n + 1) i s [⟨i, c, s.memory⟩] .failed (o', t)
  | goesOn {n i : Nat} {s t : Machine} {c : CellId} {ps : List Pass} {e : LoopEnd}
      {r : Outcome Unit × Machine} (hc : (s.memory.slots a)[i]? = some c)
      (hpass : pass n a i name body s = (.ok false, t))
      (hrest : Passes a name body n (i + 1) t ps e r) :
      Passes a name body (n + 1) i s (⟨i, c, s.memory⟩ :: ps) e r

/-- Every loop over an array has its passes. -/
theorem passes_visit (n : Nat) (a : ArrayId) (i : Nat) (name : String) (body : Stmt) (s : Machine) :
    ∃ ps e, Passes a name body n i s ps e (visit n a i name body s) := by
  induction n generalizing i s with
  | zero => exact ⟨[], .failed, .stuck⟩
  | succ n ih =>
    rcases Nat.lt_or_ge i (s.memory.slots a).size with hi | hi
    · have hc : (s.memory.slots a)[i]? = some (s.memory.slots a)[i] := Array.getElem?_eq_getElem hi
      rw [visit_of_lt hi]
      rcases hpass : pass n a i name body s with ⟨o, t⟩
      cases o with
      | ok stop =>
        rw [Step.bind_run_ok hpass]
        cases stop with
        | true => exact ⟨_, .stopped, .stopped hc hpass⟩
        | false =>
          obtain ⟨ps, e, hrest⟩ := ih (i + 1) t
          exact ⟨_, e, .goesOn hc hpass hrest⟩
      | error e =>
        rw [Step.bind_run_error hpass]
        exact ⟨_, .failed, .failed hc hpass nofun nofun⟩
      | exhausted =>
        rw [Step.bind_run, hpass]
        exact ⟨_, .failed, .failed hc hpass nofun nofun⟩
    · rw [visit_of_le hi]
      exact ⟨[], .through, .through hi⟩

namespace Passes

variable {a : ArrayId} {name : String} {body : Stmt} {n i : Nat} {s t : Machine} {ps : List Pass}
  {e : LoopEnd} {r : Outcome Unit × Machine}

/-- The positions come one after the other. -/
theorem positions (h : Passes a name body n i s ps e r) :
    ps.map Pass.position = List.range' i ps.length := by
  induction h with
  | stuck => rfl
  | through => rfl
  | stopped => rfl
  | failed => rfl
  | goesOn _ _ _ ih => rw [List.map_cons, ih, List.length_cons, List.range'_succ]

theorem retains (h : Passes a name body n i s ps e r) : s.memory.Retains r.2.memory := by
  have hstep {n i : Nat} {s t : Machine} {o : Outcome Bool}
      (hpass : pass n a i name body s = (o, t)) : s.memory.Retains t.memory := by
    have hrel := retains_pass n a i name body s
    rwa [hpass] at hrel
  induction h with
  | stuck => exact .refl _
  | through => exact .refl _
  | stopped _ hpass => exact hstep hpass
  | failed _ hpass => exact hstep hpass
  | goesOn _ hpass _ ih => exact (hstep hpass).trans ih

/-- The cell of a pass is at its position when the pass begins, and when the loop ends. -/
theorem cells (h : Passes a name body n i s ps e r) : ∀ p ∈ ps,
    (p.memory.slots a)[p.position]? = some p.cell ∧
      (r.2.memory.slots a)[p.position]? = some p.cell := by
  have hretains := h.retains
  induction h with
  | stuck => simp
  | through => simp
  | stopped hc _ => exact List.forall_mem_singleton.mpr ⟨hc, hretains.getElem?_slots hc⟩
  | failed hc _ _ _ => exact List.forall_mem_singleton.mpr ⟨hc, hretains.getElem?_slots hc⟩
  | goesOn hc _ hrest ih =>
    exact List.forall_mem_cons.mpr ⟨⟨hc, hretains.getElem?_slots hc⟩, ih hrest.retains⟩

/-- A loop that is not stopped has come to the end of the array. -/
theorem length_of_through (h : Passes a name body n i s ps .through r)
    (hi : i ≤ (s.memory.slots a).size) : i + ps.length = (r.2.memory.slots a).size := by
  generalize hend : LoopEnd.through = e at h
  induction h with
  | stuck => cases hend
  | through hsize => exact Nat.le_antisymm hi hsize
  | stopped => cases hend
  | failed => cases hend
  | @goesOn n i s t c ps e r hc hpass hrest ih =>
    have hrel := retains_pass n a i name body s
    rw [hpass] at hrel
    obtain ⟨hlt, -⟩ := Array.getElem?_eq_some_iff.mp hc
    have hnext := ih (Nat.lt_of_lt_of_le hlt (hrel.size_slots a)) hend
    rw [List.length_cons]
    omega

end Passes

/-- What a pass reads is in the cell at its position, if the position is a 32-bit subscript. -/
theorem index_run {m : Memory} {a : ArrayId} {i : Nat} {c : CellId}
    (hi : (Int32.ofNat i).toInt = i) (hc : (m.slots a)[i]? = some c) :
    Memory.index (.array a) (Int32.ofNat i) m = (.ok (m.read c), m) := by
  have hnonneg : ¬ Int32.ofNat i < 0 := by
    rw [Int32.lt_iff_toInt_lt, hi]
    exact Int.not_lt.mpr (Int.natCast_nonneg i)
  have helement : m.element a (Int32.ofNat i) = m.read c := by
    rw [Memory.element, if_neg hnonneg, hi, Int.toNat_natCast, hc]
  rw [← helement]
  rfl

/-! ## All of evaluation -/

/-- Whatever a script does from the state, with the bound on its depth, retains the containers. -/
structure Machine.KeepsContainers (n : Nat) (s : Machine) : Prop where
  eval : ∀ e, s.memory.Retains (eval n e s).2.memory
  evalCell : ∀ e, s.memory.Retains (evalCell n e s).2.memory
  exec : ∀ stmt, s.memory.Retains (exec n stmt s).2.memory
  enter : ∀ f values, s.memory.Retains (enter n f values s).2.memory
  loadInto : ∀ path targets, s.memory.Retains (loadInto n path targets s).2.memory
  start : ∀ m cwd, s.memory.Retains (start n m cwd s).2.memory
  runTarget : ∀ m name params, s.memory.Retains (runTarget n m name params s).2.memory
  invoke : ∀ path target params, s.memory.Retains (invoke n path target params s).2.memory
  subrun : ∀ values, s.memory.Retains (subrun n values s).2.memory

theorem Machine.keepsContainers (n : Nat) (s : Machine) : s.KeepsContainers n where
  eval e := ((retentive.kept n).eval e trivial).rel
  evalCell e := ((retentive.kept n).evalCell e trivial).rel
  exec stmt := ((retentive.kept n).exec stmt trivial).rel
  enter f _ := ((retentive.kept n).enter f trivial fun _ _ => trivial).rel
  loadInto path targets := ((retentive.kept n).loadInto path targets trivial).rel
  start m cwd := ((retentive.kept n).start m cwd trivial).inv.2
  runTarget m name params := ((retentive.kept n).runTarget m name params trivial).rel
  invoke path target params := ((retentive.kept n).invoke path target params trivial).rel
  subrun values := ((retentive.kept n).subrun values trivial).rel

/-- The passes take the positions of the array from the first one on, none twice and none left out.
Each of them reads the cell at its position, which is still there in the end. -/
structure InTurn (a : ArrayId) (ps : List Pass) (final : Memory) : Prop where
  positions : ps.map Pass.position = List.range ps.length
  cell : ∀ p ∈ ps, (p.memory.slots a)[p.position]? = some p.cell
  /-- As far as 32-bit subscripts go. -/
  read : ∀ p ∈ ps, (Int32.ofNat p.position).toInt = p.position →
    Memory.index (.array a) (Int32.ofNat p.position) p.memory = (.ok (p.memory.read p.cell), p.memory)
  kept : ∀ p ∈ ps, (final.slots a)[p.position]? = some p.cell

theorem exec_foreach_array {n : Nat} {loc : Location} {name : String} {items : Expr} {body : Stmt}
    {s s' : Machine} {a : ArrayId} (h : eval n items s = (.ok (.array a), s')) :
    (exec (n + 1) (.foreach loc name items body) s).2 = (visit n a 0 name body s').2 := by
  have hloop : exec (n + 1) (.foreach loc name items body) s =
      Step.mapError (Error.locate loc) (visit n a 0 name body) s' :=
    Step.mapError_congr (Step.bind_run_ok h _)
  rw [hloop, Step.mapError_snd]

/-- Containers only grow, and their cells stay where they are, whatever a script does.  So a loop
over an array has one pass for each position in turn, and one that comes to an end by itself has had
one for every cell that is in the array then. -/
theorem containers_only_grow (n : Nat) : (∀ s : Machine, s.KeepsContainers n) ∧
    ∀ loc name items body (s s' : Machine) a, eval n items s = (.ok (.array a), s') →
      ∃ ps e, Passes a name body n 0 s' ps e (visit n a 0 name body s') ∧
        InTurn a ps (exec (n + 1) (.foreach loc name items body) s).2.memory ∧
        (e = .through → ps.length =
          ((exec (n + 1) (.foreach loc name items body) s).2.memory.slots a).size) := by
  refine ⟨Machine.keepsContainers n, fun loc name items body s s' a hitems => ?_⟩
  obtain ⟨ps, e, hpasses⟩ := passes_visit n a 0 name body s'
  rw [exec_foreach_array hitems]
  refine ⟨ps, e, hpasses, ⟨?_, fun p hp => (hpasses.cells p hp).1, fun p hp hlt => ?_,
    fun p hp => (hpasses.cells p hp).2⟩, ?_⟩
  · rw [hpasses.positions, List.range_eq_range']
  · exact index_run hlt (hpasses.cells p hp).1
  · rintro rfl
    simpa using hpasses.length_of_through (Nat.zero_le _)

/-- `a = [1]` -/
def Expr.settingA : Expr := .binary .assign (.var "a") (.array [.const (.int 1)])

/-- `if (x < 3) a[x] = x + 1;` -/
def Stmt.addingToA : Stmt :=
  .branch ⟨"/m", 1⟩ (.binary .less (.var "x") (.const (.int 3)))
    (.expr ⟨"/m", 1⟩ (.binary .assign (.binary .subscript (.var "a") (.var "x"))
      (.binary .add (.var "x") (.const (.int 1))))) none

/-- A loop over one element goes on to three, because the first two passes add one each. -/
theorem containers_only_grow_addingToA : ∃ s',
    eval 12 .settingA .blank = (.ok (.array ⟨0⟩), s') ∧ (s'.memory.slots ⟨0⟩).size = 1 ∧
      ∃ ps e, Passes ⟨0⟩ "x" .addingToA 12 0 s' ps e (visit 12 ⟨0⟩ 0 "x" .addingToA s') ∧
        InTurn ⟨0⟩ ps (exec (12 + 1) (.foreach ⟨"/m", 1⟩ "x" .settingA .addingToA) .blank).2.memory ∧
        (e = .through → ps.length = 3) := by
  have hitems : eval 12 .settingA .blank =
      (.ok (.array ⟨0⟩), (eval 12 .settingA .blank).2) := Step.eq_of_fst (by decide +kernel)
  have hsize : ((exec (12 + 1) (.foreach ⟨"/m", 1⟩ "x" .settingA .addingToA) .blank).2.memory.slots
      ⟨0⟩).size = 3 := by decide +kernel
  obtain ⟨ps, e, hpasses, hturn, hlength⟩ :=
    (containers_only_grow 12).2 ⟨"/m", 1⟩ "x" .settingA .addingToA _ _ _ hitems
  exact ⟨_, hitems, by decide +kernel, ps, e, hpasses, hturn, fun he => (hlength he).trans hsize⟩

end Kiln
