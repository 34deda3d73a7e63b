import Kiln.Proofs.Eval.Evaluator
import Kiln.Proofs.Memory.Separation

/-!
# Kiln.Proofs.Eval.Scopes — a call cannot change its caller's variables

Every state that a run passes through has a well-formed memory, so the cell of a variable belongs to
one name of one scope and lies in no container.  What a script writes is a cell of a container or of
its innermost scope; a call has a scope of its own, so no variable of its caller is written.
-/

namespace Kiln

open Kiln.Action

namespace Memory

variable {m : Memory} {cur : ScopeId} {v : Value}

/-- Well-formed memories, while `cur` is the innermost scope. -/
def tidy (cur : ScopeId) : Step.Law Memory :=
  ⟨WellFormed, Evolves cur, Evolves.refl cur, Evolves.trans⟩

/-! ## What the operations on memory keep to -/

theorem tidy_newArray {vs : List Value} (hm : m.WellFormed) (hvs : ∀ v ∈ vs, m.Holds v) :
    (newArray vs).Obeys (tidy cur) m fun v t => t.Holds v ∧ t.scopes.size = m.scopes.size := by
  have hcells := hm.withCells hvs
  have hstores : Stores (m.withCells vs)
      { m.withCells vs with arrays := m.arrays.push (m.nextCells vs.length).toArray } :=
    stores_push_array fun c hc => hm.fresh_nextCells (by simpa using hc)
  refine .of_run (newArray_run vs m) (hstores.wellFormed hcells) ?_ ⟨by simp [Holds], rfl⟩
  exact (evolves_withCells hm cur vs).trans (hstores.evolves cur)

theorem tidy_newDict {pairs : List (String × Value)} (hm : m.WellFormed)
    (hpairs : ∀ p ∈ pairs, m.Holds p.2) : (newDict pairs).Obeys (tidy cur) m
      fun v t => t.Holds v ∧ t.scopes.size = m.scopes.size := by
  obtain ⟨table, vs, hrun, hvs, hfresh⟩ := newDict_run pairs m
  have hcells : (m.withCells vs).WellFormed := by
    refine hm.withCells fun v hv => ?_
    obtain ⟨p, hp, rfl⟩ := hvs v hv
    exact hpairs p hp
  have hstores : Stores (m.withCells vs) { m.withCells vs with dicts := m.dicts.push table } :=
    stores_push_dict fun key c hc => hm.fresh_nextCells (hfresh key c hc)
  refine .of_run hrun (hstores.wellFormed hcells) ?_ ⟨by simp [Holds], rfl⟩
  exact (evolves_withCells hm cur vs).trans (hstores.evolves cur)

theorem tidy_growArray (a : ArrayId) (size : Nat) (hm : m.WellFormed)
    (ha : m.Holds (.array a)) : (growArray a size).Obeys (tidy cur) m
      fun _ t => size ≤ (t.slots a).size := by
  obtain ⟨n, hrun, -⟩ := growArray_run a size m
  have hcells : (m.withCells (List.replicate n .void)).WellFormed := by
    refine hm.withCells fun v hv => ?_
    rw [List.eq_of_mem_replicate hv]
    trivial
  have hstores : Stores (m.withCells (List.replicate n .void))
      { m.withCells (List.replicate n .void) with
        arrays := m.arrays.setIfInBounds a.index (m.slots a ++ (m.nextCells n).toArray) } := by
    refine stores_append fun c hc => hm.fresh_nextCells ?_
    simpa using hc
  have hgrown := size_growArray size ha
  rw [hrun] at hgrown
  refine .of_run hrun (hstores.wellFormed hcells) ?_ hgrown
  exact (evolves_withCells hm cur _).trans (hstores.evolves cur)

theorem tidy_slotCell {a : ArrayId} (i : Int32) (hm : m.WellFormed) (ha : m.Holds (.array a)) :
    (slotCell a i).Obeys (tidy cur) m fun c t => Owned cur t c := by
  unfold slotCell
  split
  · exact .fault hm
  · refine (tidy_growArray a _ hm ha).bind fun _ t ht _ hsize => ?_
    refine (Step.Idle.look _).obeys ht fun c hc => .inl (.inl ⟨a, ?_⟩)
    cases hc
    exact getD_mem_slots hsize ⟨0⟩

theorem tidy_entryCell {d : DictId} (key : String) (hm : m.WellFormed) (hd : m.Holds (.dict d)) :
    (entryCell d key).Obeys (tidy cur) m fun c t => Owned cur t c := by
  refine (Step.Idle.look _).obeys_bind hm fun found hfound => ?_
  replace hfound : (m.entries d).get? key = found := Outcome.ok.inj (Prod.ext_iff.mp hfound).1
  cases found with
  | some c => exact .pure hm (.inl (.inr ⟨d, key, hfound⟩))
  | none =>
    have hcells : (m.withCells [.void]).WellFormed := hm.withCells (by simp [Holds])
    have hfresh : (m.withCells [.void]).Fresh ⟨m.cells.size⟩ :=
      hm.fresh_nextCells (mem_nextCells.mpr (by simp))
    have hstores : Stores (m.withCells [.void]) { m.withCells [.void] with
        dicts := m.dicts.setIfInBounds d.index ((m.entries d).insert key ⟨m.cells.size⟩) } :=
      stores_insert hfound hfresh
    refine .of_run (Step.bind_run_ok (newCell_run .void m) _) (hstores.wellFormed hcells) ?_ ?_
    · exact (evolves_withCells hm cur _).trans (hstores.evolves cur)
    · refine .inl (.inr ⟨d, key, ?_⟩)
      have hentries := entries_set (m.withCells [.void]) d d
        ((m.entries d).insert key ⟨m.cells.size⟩)
      rw [if_pos ⟨rfl, hd⟩] at hentries
      have hget := Table.get?_insert_self (m.entries d) key ⟨m.cells.size⟩
      rw [← hentries] at hget
      exact hget

theorem tidy_write {c : CellId} (hm : m.WellFormed) (hc : Owned cur m c) (hv : m.Holds v) :
    (write c v).Obeys (tidy cur) m fun _ _ => True :=
  .of_run (write_run c v m) (hm.written hv) (hm.evolves_written hc) trivial

/-- A variable that the innermost scope does not bind yet gets a new cell. -/
theorem tidy_bound {name : String} (hm : m.WellFormed) (hcur : m.HasScope cur) (hv : m.Holds v)
    (hname : (m.scope cur).vars.get? name = none) :
    ((m.withCells [v]).bound cur name ⟨m.cells.size⟩).WellFormed ∧
      Evolves cur m ((m.withCells [v]).bound cur name ⟨m.cells.size⟩) ∧
      ((m.withCells [v]).bound cur name ⟨m.cells.size⟩).Binds cur name ⟨m.cells.size⟩ := by
  have hcells : (m.withCells [v]).WellFormed := hm.withCells (by simpa using hv)
  have hfresh : (m.withCells [v]).Fresh ⟨m.cells.size⟩ :=
    hm.fresh_nextCells (mem_nextCells.mpr (by simp))
  have hcur' : (m.withCells [v]).HasScope cur := hcur
  refine ⟨hcells.bind_fresh hcur' hfresh, ?_, ?_⟩
  · exact (evolves_withCells hm cur [v]).trans (evolves_bound hcur' hname)
  · rw [binds_bound_iff hcur', if_pos ⟨rfl, rfl⟩]

theorem tidy_setVar (name : String) (hm : m.WellFormed) (hcur : m.HasScope cur) (hv : m.Holds v) :
    (setVar cur name v).Obeys (tidy cur) m fun _ _ => True := by
  cases hname : (m.scope cur).vars.get? name with
  | some c =>
    exact .of_run (setVar_of_bound hname) (hm.written hv)
      (hm.evolves_written (.inr ⟨name, hname⟩)) trivial
  | none =>
    obtain ⟨hwell, hevolves, -⟩ := tidy_bound hm hcur hv hname
    exact .of_run (setVar_of_not_bound hname) hwell hevolves trivial

theorem WellFormed.holds_getVar (hm : m.WellFormed) (s : ScopeId) (name : String) :
    m.Holds (m.getVar s name) :=
  Memory.holds_getVar hm.held s name

theorem tidy_varCell (name : String) (hm : m.WellFormed) (hcur : m.HasScope cur) :
    (varCell cur name).Obeys (tidy cur) m fun c t => Owned cur t c := by
  cases hname : (m.scope cur).vars.get? name with
  | some c => exact .of_run (varCell_of_bound hname) hm (.refl cur m) (.inr ⟨name, hname⟩)
  | none =>
    obtain ⟨hwell, hevolves, hbinds⟩ := tidy_bound hm hcur (hm.holds_getVar cur name) hname
    exact .of_run (varCell_of_not_bound hname) hwell hevolves (.inr ⟨name, hbinds⟩)

end Memory

/-! ## Going in -/

theorem Host.tidy_describe {m : Memory} {cur : ScopeId} (h : Host) (hm : m.WellFormed) :
    h.describe.Obeys (Memory.tidy cur) m fun v t => t.Holds v ∧ t.scopes.size = m.scopes.size := by
  have hstrings {α : Type} (f : α → String × String) (as : List α) :
      ∀ p ∈ as.map fun a => ((f a).1, Value.str (f a).2), m.Holds p.2 := by
    intro p hp
    obtain ⟨a, -, rfl⟩ := List.mem_map.mp hp
    trivial
  refine (Memory.tidy_newDict hm (hstrings id _)).bind fun env t ht _ henv => ?_
  have hpath : ∀ v ∈ h.searchPath.map Value.str, t.Holds v := by
    intro v hv
    obtain ⟨p, -, rfl⟩ := List.mem_map.mp hv
    trivial
  refine (Memory.tidy_newArray ht hpath).bind fun path u hu htu hpath => ?_
  refine (Memory.tidy_newDict hu fun p hp => ?_).mono fun v w _ _ hv =>
    ⟨hv.1, hv.2.trans (hpath.2.trans henv.2)⟩
  simp only [List.mem_cons, List.not_mem_nil, or_false] at hp
  rcases hp with rfl | rfl | rfl | rfl | rfl | rfl
  · trivial
  · trivial
  · trivial
  · trivial
  · exact htu.holds henv.1
  · exact hpath.1

namespace Machine

/-- Everything a script refers to exists, and the cells of its variables are apart. -/
structure Tidy (s : Machine) : Prop where
  memory : s.memory.WellFormed
  scope : s.memory.HasScope s.frame.scope
  result : s.memory.Holds s.frame.signals.result

variable {s : Machine} {values : List Value}

/-- The scope that comes next. -/
def nextScope (s : Machine) : ScopeId := ⟨s.memory.scopes.size⟩

theorem not_hasScope_nextScope (s : Machine) : ¬ s.memory.HasScope s.nextScope :=
  Nat.lt_irrefl _

theorem Tidy.entered (h : s.Tidy) (f : Function) (hvalues : ∀ v ∈ values, s.memory.Holds v) :
    (s.entered f values).Tidy ∧ s.memory.Evolves s.nextScope (s.entered f values).memory := by
  let inside := (Memory.newScope (some s.frame.scope) s.memory).2
  have hevolves : s.memory.Evolves s.nextScope inside := Memory.evolves_newScope _ _ _
  have hinside : inside.WellFormed := h.memory.newScope fun o ho => by
    cases ho
    exact h.scope
  have hscope : inside.HasScope s.nextScope := by
    simp [inside, Memory.newScope, Memory.HasScope, nextScope]
  have hparams : (Step.forAll (fun p => Memory.setVar s.nextScope p.1 p.2)
      (f.params.zip values)).Obeys (Memory.tidy s.nextScope) inside fun _ _ => True := by
    refine .forAll hinside fun p hp t ht hst => ?_
    have hvalue := hvalues p.2 (List.of_mem_zip hp).2
    exact Memory.tidy_setVar p.1 ht (hst.hasScope hscope) (hst.holds (hevolves.holds hvalue))
  exact ⟨⟨hparams.inv, hparams.rel.hasScope hscope, trivial⟩, hevolves.trans hparams.rel⟩

theorem tidy_opened (h : s.memory.WellFormed) (module : String) :
    (s.opened module).Tidy ∧ s.memory.Evolves s.nextScope (s.opened module).memory := by
  have hnew : (s.host.newScope).Obeys (Memory.tidy s.nextScope) s.memory
      fun _ t => t.HasScope s.nextScope := by
    refine (s.host.tidy_describe h).bind fun sys t ht _ hsys => ?_
    have hscope : (⟨t.scopes.size⟩ : ScopeId) = s.nextScope := congrArg ScopeId.mk hsys.2
    have hinside : ((Memory.newScope none t).2).WellFormed := ht.newScope (by simp)
    have hnext : ((Memory.newScope none t).2).HasScope s.nextScope := by
      simp [Memory.newScope, Memory.HasScope, ← hscope]
    have hevolves := Memory.evolves_newScope none t s.nextScope
    have hset := Memory.tidy_setVar "sys" hinside hnext (hevolves.holds hsys.1)
    refine Step.Obeys.bind (P := fun id u => id = s.nextScope ∧ u = (Memory.newScope none t).2)
      (.of_run (Memory.newScope_run none t) hinside hevolves ⟨hscope, rfl⟩) ?_
    rintro id u - - ⟨rfl, rfl⟩
    exact hset.bind fun _ w hw huw _ => .pure hw (huw.hasScope hnext)
  obtain ⟨m', hrun⟩ := s.host.newScope_run s.memory
  have hend : (s.opened module).memory = m' := by
    simp only [opened]
    rw [hrun]
  have hscope := hnew.of_eq_ok hrun
  have hinv := hnew.inv
  have hrel := hnew.rel
  rw [hrun] at hinv hrel
  rw [hend]
  refine ⟨⟨?_, ?_, trivial⟩, hrel⟩
  · rw [hend]
    exact hinv
  · rw [hend]
    exact hscope

end Machine

/-! ## The regime -/

/-- Scripts in tidy states: what they have in hand exists, and they write cells of containers and of
their innermost scope. -/
def scopeCustoms : Customs where
  inv := Machine.Tidy
  evaluated s t := t.frame = s.frame ∧ s.memory.Evolves s.frame.scope t.memory
  executed s t := t.frame.scope = s.frame.scope ∧ s.memory.Evolves s.frame.scope t.memory
  holds := Memory.Holds
  owns s c := Memory.Owned s.frame.scope s.memory c
  evaluated_refl s := ⟨rfl, .refl _ _⟩
  evaluated_trans hst htu := by
    rw [hst.1] at htu
    exact ⟨htu.1, hst.2.trans htu.2⟩
  executed_trans hst htu := by
    rw [hst.1] at htu
    exact ⟨htu.1, hst.2.trans htu.2⟩
  executed_of_evaluated h := ⟨congrArg Frame.scope h.1, h.2⟩
  holds_mono h hv := h.2.holds hv
  owns_mono h hc := by
    rw [h.1]
    exact hc.evolves h.2

section Lift

variable {α : Type} {s : Machine} {m : Step Memory α} {P : α → Memory → Prop}

theorem evaluating_onMemory (hs : s.Tidy) (h : m.Obeys (Memory.tidy s.frame.scope) s.memory P) :
    (onMemory m).Obeys scopeCustoms.evaluating s fun a t => P a t.memory :=
  ⟨⟨h.inv, h.rel.hasScope hs.scope, h.rel.holds hs.result⟩, ⟨rfl, h.rel⟩, h.value⟩

theorem owning_onMemory {m : Step Memory CellId} (hs : s.Tidy)
    (h : m.Obeys (Memory.tidy s.frame.scope) s.memory fun c t => Memory.Owned s.frame.scope t c) :
    (onMemory m).Obeys scopeCustoms.evaluating s fun c t => scopeCustoms.owns t c :=
  ⟨⟨h.inv, h.rel.hasScope hs.scope, h.rel.holds hs.result⟩, ⟨rfl, h.rel⟩, h.value⟩

end Lift

/-- What happens in a scope of its own leaves the scope outside of it alone. -/
theorem Machine.Tidy.back {s t : Machine} (hs : s.Tidy) (ht : t.Tidy)
    (h : s.memory.Evolves s.nextScope t.memory) :
    ({ t with frame := s.frame } : Machine).Tidy ∧
      scopeCustoms.evaluated s { t with frame := s.frame } :=
  ⟨⟨ht.memory, h.hasScope hs.scope, h.holds hs.result⟩, rfl,
    h.outside s.not_hasScope_nextScope⟩

def scopes : Regime where
  toCustoms := scopeCustoms
  holds_scalar {m v} h := by cases v <;> trivial
  holds_result hs := hs.result
  holds_var name hs := hs.memory.holds_getVar _ name
  holds_read hs _ := hs.memory.held _
  owns_slot _ _ hc := .inl (.inl ⟨_, hc⟩)
  owns_entry _ _ hc := .inl (.inr ⟨_, _, hc⟩)
  newArray hs hvs := (evaluating_onMemory hs (Memory.tidy_newArray hs.memory hvs)).mono
    fun _ _ _ _ h => h.1
  newDict hs hpairs := (evaluating_onMemory hs (Memory.tidy_newDict hs.memory hpairs)).mono
    fun _ _ _ _ h => h.1
  varCell name hs := owning_onMemory hs (Memory.tidy_varCell name hs.memory hs.scope)
  slotCell i hs ha := owning_onMemory hs (Memory.tidy_slotCell i hs.memory ha)
  entryCell key hs hd := owning_onMemory hs (Memory.tidy_entryCell key hs.memory hd)
  write hs hc hv := evaluating_onMemory hs (Memory.tidy_write hs.memory hc hv)
  setVar name hs hv := evaluating_onMemory hs (Memory.tidy_setVar name hs.memory hs.scope hv)
  aside {s t} hs h := by
    refine ⟨⟨?_, ?_, ?_⟩, h.frame, ?_⟩
    · rw [h.memory]
      exact hs.memory
    · rw [h.memory, h.frame]
      exact hs.scope
    · rw [h.memory, h.frame]
      exact hs.result
    · rw [h.memory]
      exact .refl _ _
  signals hs hresult := ⟨⟨hs.memory, hs.scope, hresult⟩, rfl, .refl _ _⟩
  entered f hs hvalues := (hs.entered f hvalues).1
  opened module hs := (Machine.tidy_opened hs.memory module).1
  left {s f values t} hs hvalues ht hrel :=
    hs.back ht ((hs.entered f hvalues).2.trans hrel.2)
  closed {s module t} hs ht hrel :=
    hs.back ht ((Machine.tidy_opened hs.memory module).2.trans hrel.2)

/-! ## The states of a run -/

/-- The states that a run passes through wherever something is evaluated, executed or called. -/
inductive Reachable : Machine → Prop where
  /-- The first build file is opened. -/
  | first {s : Machine} (module : String) : s.memory = .empty → Reachable (s.opened module)
  /-- Another build file is opened. -/
  | opened {s : Machine} (module : String) : Reachable s → Reachable (s.opened module)
  /-- A function is called with values that exist. -/
  | entered {s : Machine} {values : List Value} (f : Function) :
      Reachable s → (∀ v ∈ values, s.memory.Holds v) → Reachable (s.entered f values)
  /-- A loop sets its variable. -/
  | set {s : Machine} {v : Value} (name : String) :
      Reachable s → s.memory.Holds v → Reachable (Action.setVar name v s).2
  /-- Something happens beside memory and scopes: files, the digest store, the function table, the
  working directory, a signal. -/
  | beside {s t : Machine} : Reachable s → t.memory = s.memory → t.frame.scope = s.frame.scope →
      t.memory.Holds t.frame.signals.result → Reachable t
  | eval {s : Machine} (n : Nat) (e : Expr) : Reachable s → Reachable (eval n e s).2
  | evalCell {s : Machine} (n : Nat) (e : Expr) : Reachable s → Reachable (evalCell n e s).2
  | exec {s : Machine} (n : Nat) (stmt : Stmt) : Reachable s → Reachable (exec n stmt s).2

theorem Memory.wellFormed_empty : Memory.empty.WellFormed := by
  have hbinds (s : ScopeId) (name : String) (c : CellId) : ¬ Memory.empty.Binds s name c :=
    fun h => absurd (hasScope_of_binds h) (Nat.not_lt_zero _)
  have hcontains (c : CellId) : ¬ Memory.empty.Contains c := by
    rintro (⟨a, hc⟩ | ⟨d, key, hc⟩)
    · rw [slots_eq_empty (Nat.zero_le _)] at hc
      simp at hc
    · rw [entries_eq_empty (Nat.zero_le _)] at hc
      cases hc
  refine ⟨⟨fun h => absurd h (hbinds _ _ _), fun h => absurd h (hbinds _ _ _)⟩, fun c => ?_,
    fun h => absurd h (hbinds _ _ _), fun h => absurd h (hcontains _), fun h => ?_⟩
  · rw [read_eq_void (Nat.zero_le _)]
    trivial
  · rw [scope_eq_empty (Nat.not_lt_zero _)] at h
    cases h

theorem Reachable.tidy {s : Machine} (h : Reachable s) : s.Tidy := by
  induction h with
  | first module hempty => exact (Machine.tidy_opened (hempty ▸ Memory.wellFormed_empty) module).1
  | opened module _ ih => exact (Machine.tidy_opened ih.memory module).1
  | entered f _ hvalues ih => exact (ih.entered f hvalues).1
  | set name _ hv ih => exact (Regime.obeys_setVar (r := scopes) name ih hv).inv
  | beside _ hmemory hscope hresult ih =>
    refine ⟨?_, ?_, hresult⟩
    · rw [hmemory]
      exact ih.memory
    · rw [hmemory, hscope]
      exact ih.scope
  | eval n e _ ih => exact ((scopes.kept n).eval e ih).inv
  | evalCell n e _ ih => exact ((scopes.kept n).evalCell e ih).inv
  | exec n stmt _ ih => exact ((scopes.kept n).exec stmt ih).inv

/-- A call of a function leaves all scopes of its caller alone. -/
theorem Machine.Tidy.enter {s : Machine} {values : List Value} (h : s.Tidy) (k : Nat)
    (f : Function) (hvalues : ∀ v ∈ values, s.memory.Holds v) :
    s.memory.Evolves s.nextScope (enter k f values s).2.memory := by
  cases k with
  | zero => exact .refl _ _
  | succ k =>
    obtain ⟨htidy, hevolves⟩ := h.entered f hvalues
    have hbody := ((scopes.kept k).exec f.body htidy).rel
    rw [enter_end]
    exact hevolves.trans hbody.2

/-- In every state of a run the cell of a variable belongs to one name of one scope and lies in no
container.  A call of a function, however it ends, leaves every scope of its caller's chain with the
same names, bound to the same cells, and the same values in them. -/
theorem call_keeps_variables {s₀ s : Machine} (hreachable : Reachable s₀) {n : Nat}
    {args : List Expr} {values : List Value}
    (hargs : Step.each (eval n) args s₀ = (.ok values, s)) (k : Nat) (f : Function) :
    s.memory.Separate ∧ (enter k f values s).2.memory.Separate ∧
      ∀ scope ∈ s.frame.scope :: (s.memory.scope s.frame.scope).around,
        (enter k f values s).2.memory.scope scope = s.memory.scope scope ∧
        ∀ name c, s.memory.Binds scope name c →
          (enter k f values s).2.memory.read c = s.memory.read c := by
  have hevaluated := (scopes.kept n).arguments args hreachable.tidy
  have hvalues : ∀ v ∈ values, s.memory.Holds v := hevaluated.of_eq_ok hargs
  have hs : s.Tidy := by
    have hend := hevaluated.inv
    rwa [hargs] at hend
  have hcall := (scopes.kept k).enter f hs hvalues
  have hevolves := hs.enter k f hvalues
  refine ⟨hs.memory.toSeparate, hcall.inv.memory.toSeparate, fun scope hscope => ?_⟩
  have hexists : s.memory.HasScope scope := by
    rcases List.mem_cons.mp hscope with rfl | haround
    · exact hs.scope
    · exact hs.memory.around haround
  have hne : scope ≠ s.nextScope := fun he => s.not_hasScope_nextScope (he ▸ hexists)
  exact hevolves.untouched hexists hne

/-- `x = 1;` -/
def Stmt.settingX : Stmt := .expr ⟨"/m", 1⟩ (.binary .assign (.var "x") (.const (.int 1)))

/-- `function f(x) return x = x + 1;` -/
def Function.shadowing : Function :=
  ⟨"f", ["x"], .returnStmt ⟨"/m", 2⟩ (some (.binary .assign (.var "x")
    (.binary .add (.var "x") (.const (.int 1))))), false⟩

/-- The function adds to the parameter it was given; the variable of the same name in the caller
keeps its cell and its value. -/
theorem call_keeps_variables_shadowing :
    ∃ s c, Reachable s ∧ s.memory.Binds s.frame.scope "x" c ∧ s.memory.read c = .int 1 ∧
      (enter 5 .shadowing [.int 7] s).1 = .ok (.int 8) ∧
      (enter 5 .shadowing [.int 7] s).2.memory.Binds s.frame.scope "x" c ∧
      (enter 5 .shadowing [.int 7] s).2.memory.read c = .int 1 := by
  let first : Machine := ({ Machine.blank with memory := .empty } : Machine).opened "/m"
  let s : Machine := (exec 3 .settingX first).2
  have hs : Reachable s := .exec 3 .settingX (.first "/m" rfl)
  obtain ⟨c, hbinds, hread⟩ : ∃ c, s.memory.Binds s.frame.scope "x" c ∧
      s.memory.read c = .int 1 := ⟨⟨s.memory.cells.size - 1⟩, by decide +kernel⟩
  have hargs : Step.each (eval 1) [.const (.int 7)] s = (.ok [.int 7], s) := rfl
  obtain ⟨-, -, hkept⟩ := call_keeps_variables hs hargs 5 .shadowing
  obtain ⟨hscope, hcells⟩ := hkept s.frame.scope (List.mem_cons_self ..)
  refine ⟨s, c, hs, hbinds, hread, by decide +kernel, ?_, ?_⟩
  · rw [Memory.Binds, hscope]
    exact hbinds
  · rw [hcells "x" c hbinds, hread]

end Kiln
