import Kiln.Memory
import Kiln.Proofs.Law
import Kiln.Proofs.Table
import Mathlib.Tactic.SplitIfs

/-!
# Kiln.Proofs.Memory.Operations — what the operations on memory do

Every operation that allocates or binds succeeds, and its end state is written down: new cells come
at the end, new containers and scopes get the next identity, and a write changes one cell.
-/

namespace Kiln.Memory

variable {m m' : Memory} {s s' : ScopeId} {name : String} {c : CellId} {v : Value}

/-! ## Looking -/

/-- The container of a value exists; a scalar needs none. -/
def Holds (m : Memory) : Value → Prop
  | .array a => a.index < m.arrays.size
  | .dict d => d.index < m.dicts.size
  | _ => True

instance (m : Memory) : (v : Value) → Decidable (m.Holds v)
  | .array a => inferInstanceAs (Decidable (a.index < m.arrays.size))
  | .dict d => inferInstanceAs (Decidable (d.index < m.dicts.size))
  | .void | .int _ | .str _ => isTrue trivial

/-- Where there are no fewer containers, what existed does. -/
theorem Holds.mono (hv : m.Holds v) (harrays : m.arrays.size ≤ m'.arrays.size)
    (hdicts : m.dicts.size ≤ m'.dicts.size) : m'.Holds v := by
  cases v with
  | array a => exact Nat.lt_of_lt_of_le hv harrays
  | dict d => exact Nat.lt_of_lt_of_le hv hdicts
  | _ => trivial

/-- The scope exists. -/
def HasScope (m : Memory) (s : ScopeId) : Prop := s.index < m.scopes.size

instance (m : Memory) (s : ScopeId) : Decidable (m.HasScope s) :=
  inferInstanceAs (Decidable (s.index < m.scopes.size))

/-- The scope itself binds the name to the cell. -/
def Binds (m : Memory) (s : ScopeId) (name : String) (c : CellId) : Prop :=
  (m.scope s).vars.get? name = some c

instance (m : Memory) (s : ScopeId) (name : String) (c : CellId) : Decidable (m.Binds s name c) :=
  inferInstanceAs (Decidable ((m.scope s).vars.get? name = some c))

/-- The cell is an element of an array or an entry of a dictionary. -/
def Contains (m : Memory) (c : CellId) : Prop :=
  (∃ a, c ∈ m.slots a) ∨ ∃ d key, (m.entries d).get? key = some c

theorem read_eq_void (h : m.cells.size ≤ c.index) : m.read c = .void := by
  simp [read, Array.getD, Nat.not_lt.mpr h]

theorem slots_eq_empty {a : ArrayId} (h : m.arrays.size ≤ a.index) : m.slots a = #[] := by
  simp [slots, Array.getD, Nat.not_lt.mpr h]

theorem entries_eq_empty {d : DictId} (h : m.dicts.size ≤ d.index) : m.entries d = .empty := by
  simp [entries, Array.getD, Nat.not_lt.mpr h]

theorem scope_eq_empty (h : ¬ m.HasScope s) : m.scope s = ⟨.empty, []⟩ := by
  unfold HasScope at h
  simp [scope, Array.getD, h]

theorem hasScope_of_binds (h : m.Binds s name c) : m.HasScope s := by
  refine Decidable.byContradiction fun hs => ?_
  rw [Binds, scope_eq_empty hs] at h
  cases h

/-- Where the containers of all cells exist, so do those of all variables. -/
theorem holds_getVar (h : ∀ c, m.Holds (m.read c)) (s : ScopeId) (name : String) :
    m.Holds (m.getVar s name) := by
  unfold getVar
  split
  · exact h _
  · trivial

/-! ## New cells -/

/-- Memory with values in new cells. -/
def withCells (m : Memory) (vs : List Value) : Memory := { m with cells := m.cells ++ vs.toArray }

/-- The identities of the next `n` cells. -/
def nextCells (m : Memory) (n : Nat) : List CellId := (List.range' m.cells.size n).map CellId.mk

theorem mem_nextCells {n : Nat} :
    c ∈ m.nextCells n ↔ m.cells.size ≤ c.index ∧ c.index < m.cells.size + n := by
  simp only [nextCells, List.mem_map, List.mem_range'_1]
  constructor
  · rintro ⟨i, hi, rfl⟩
    exact hi
  · exact fun h => ⟨c.index, h, rfl⟩

theorem read_withCells (vs : List Value) (h : c.index < m.cells.size) :
    (m.withCells vs).read c = m.read c := by
  simp [read, withCells, Array.getD, h, Array.getElem_append_left, Nat.lt_add_right]

/-- A cell past the old ones holds one of the new values, or nothing. -/
theorem read_withCells_new (vs : List Value) (h : m.cells.size ≤ c.index) :
    (m.withCells vs).read c ∈ vs ∨ (m.withCells vs).read c = .void := by
  by_cases hlt : c.index < (m.withCells vs).cells.size
  · left
    have hsub : c.index - m.cells.size < vs.length := by
      simp only [withCells, Array.size_append, List.size_toArray] at hlt
      omega
    have hread : (m.withCells vs).read c = vs[c.index - m.cells.size] := by
      simp [read, withCells, Array.getD, Array.getElem_append_right h,
        show c.index < m.cells.size + vs.length by omega]
    rw [hread]
    exact List.getElem_mem hsub
  · exact .inr (read_eq_void (Nat.not_lt.mp hlt))

theorem read_withCells_next (m : Memory) (v : Value) :
    (m.withCells [v]).read ⟨m.cells.size⟩ = v := by
  simp [read, withCells, Array.getD]

theorem newCell_run (v : Value) (m : Memory) :
    newCell v m = (.ok ⟨m.cells.size⟩, m.withCells [v]) := by
  simp [newCell, withCells]

theorem each_newCell (vs : List Value) (m : Memory) :
    Step.each newCell vs m = (.ok (m.nextCells vs.length), m.withCells vs) := by
  induction vs generalizing m with
  | nil => simp [Step.each, nextCells, withCells]
  | cons v vs ih =>
    have hcells : (m.withCells [v]).withCells vs = m.withCells (v :: vs) := by simp [withCells]
    rw [← hcells]
    refine Step.each_cons_eq_ok.mpr ⟨_, _, _, newCell_run v m, ih (m.withCells [v]), ?_⟩
    simp [nextCells, withCells, List.range'_succ]

theorem newArray_run (vs : List Value) (m : Memory) :
    newArray vs m =
      (.ok (.array ⟨m.arrays.size⟩),
        { m.withCells vs with arrays := m.arrays.push (m.nextCells vs.length).toArray }) := by
  unfold newArray
  rw [Step.bind_run_ok (each_newCell vs m)]
  rfl

/-- The entries of a new dictionary are old ones of the table or new cells. -/
theorem newEntries_run (t : Table CellId) (pairs : List (String × Value)) (m : Memory) :
    ∃ t' vs, newEntries t pairs m = (.ok t', m.withCells vs) ∧ (∀ v ∈ vs, ∃ p ∈ pairs, p.2 = v) ∧
      ∀ key c, t'.get? key = some c → t.get? key = some c ∨ c ∈ m.nextCells vs.length := by
  induction pairs generalizing t m with
  | nil => exact ⟨t, [], by simp [newEntries, withCells], by simp, fun key c h => .inl h⟩
  | cons p pairs ih =>
    obtain ⟨k, v⟩ := p
    by_cases hk : t.contains k = true
    · obtain ⟨t', vs, hrun, hvs, hkeys⟩ := ih t m
      refine ⟨t', vs, by rw [newEntries, if_pos hk, hrun], fun v hv => ?_, hkeys⟩
      obtain ⟨p, hp, hv⟩ := hvs v hv
      exact ⟨p, List.mem_cons_of_mem _ hp, hv⟩
    · obtain ⟨t', vs, hrun, hvs, hkeys⟩ := ih (t.insert k ⟨m.cells.size⟩) (m.withCells [v])
      refine ⟨t', v :: vs, ?_, ?_, ?_⟩
      · rw [newEntries, if_neg hk, Step.bind_run_ok (newCell_run v m), hrun]
        simp [withCells]
      · intro w hw
        rcases List.mem_cons.mp hw with rfl | hw
        · exact ⟨(k, w), List.mem_cons_self, rfl⟩
        · obtain ⟨p, hp, hw⟩ := hvs w hw
          exact ⟨p, List.mem_cons_of_mem _ hp, hw⟩
      · intro key c hc
        rw [mem_nextCells]
        rcases hkeys key c hc with hold | hnew
        · rw [Table.get?_insert] at hold
          split_ifs at hold
          · cases hold
            simp
          · exact .inl hold
        · rw [mem_nextCells] at hnew
          simp only [withCells, Array.size_append, List.size_toArray, List.length_singleton] at hnew
          simp only [List.length_cons]
          omega

theorem newDict_run (pairs : List (String × Value)) (m : Memory) :
    ∃ t vs, newDict pairs m =
        (.ok (.dict ⟨m.dicts.size⟩), { m.withCells vs with dicts := m.dicts.push t }) ∧
      (∀ v ∈ vs, ∃ p ∈ pairs, p.2 = v) ∧
      ∀ key c, t.get? key = some c → c ∈ m.nextCells vs.length := by
  obtain ⟨t, vs, hrun, hvs, hkeys⟩ := newEntries_run .empty pairs m
  refine ⟨t, vs, ?_, hvs, fun key c h => (hkeys key c h).resolve_left (by simp)⟩
  exact Step.bind_run_ok hrun _

/-! ## Containers that grow -/

theorem growArray_run (a : ArrayId) (size : Nat) (m : Memory) :
    ∃ n, growArray a size m = (.ok (), { m.withCells (List.replicate n .void) with
      arrays := m.arrays.setIfInBounds a.index (m.slots a ++ (m.nextCells n).toArray) }) ∧
        (m.slots a).size + n = max (m.slots a).size size := by
  refine ⟨size - (m.slots a).size, ?_, by omega⟩
  simp only [growArray, Step.look_bind_run]
  split_ifs with h
  · have hsame : m.arrays.setIfInBounds a.index (m.slots a) = m.arrays := by
      refine Array.ext_getElem? fun i => ?_
      by_cases hi : a.index = i
      · subst hi
        by_cases ha : a.index < m.arrays.size
        · simp [slots, Array.getD_eq_getD_getElem?, ha]
        · simp [ha]
      · rw [Array.getElem?_setIfInBounds_ne hi]
    rw [h]
    simp [withCells, nextCells, hsame]
  · refine (Step.bind_run_ok (each_newCell _ m) _).trans ?_
    simp [Step.change, withCells, slots]

/-! ## Variables -/

theorem newScope_run (outer : Option ScopeId) (m : Memory) :
    newScope outer m = (.ok ⟨m.scopes.size⟩, (newScope outer m).2) := rfl

/-- Memory in which a scope binds a name to a cell. -/
def bound (m : Memory) (s : ScopeId) (name : String) (c : CellId) : Memory :=
  (bind s name c m).2

theorem scope_bound_self (h : m.HasScope s) :
    (m.bound s name c).scope s = { m.scope s with vars := (m.scope s).vars.insert name c } := by
  unfold HasScope at h
  simp [bound, bind, Step.change, scope, Array.getD, h]

theorem scope_bound_of_ne (h : s' ≠ s) : (m.bound s name c).scope s' = m.scope s' := by
  have hne : s.index ≠ s'.index := fun he => h (by cases s; cases s'; simp_all)
  simp [bound, bind, Step.change, scope, Array.getD_eq_getD_getElem?, hne]

/-- Memory in which a cell holds a value. -/
def written (m : Memory) (c : CellId) (v : Value) : Memory := (write c v m).2

theorem write_run (c : CellId) (v : Value) (m : Memory) : write c v m = (.ok (), m.written c v) :=
  rfl

theorem read_written_of_ne {c' : CellId} (h : c' ≠ c) : (m.written c v).read c' = m.read c' := by
  have hne : c.index ≠ c'.index := fun he => h (by cases c; cases c'; simp_all)
  simp [written, write, Step.change, read, Array.getD_eq_getD_getElem?, hne]

theorem read_written_self (h : c.index < m.cells.size) : (m.written c v).read c = v := by
  simp [written, write, Step.change, read, Array.getD, h]

/-- A variable that is bound in the scope is written. -/
theorem setVar_of_bound (h : m.Binds s name c) :
    setVar s name v m = (.ok (), m.written c v) := by
  rw [Binds] at h
  simp only [setVar, Step.look_bind_run, h]
  rfl

/-- One that is not gets a new cell. -/
theorem setVar_of_not_bound (h : (m.scope s).vars.get? name = none) :
    setVar s name v m = (.ok (), (m.withCells [v]).bound s name ⟨m.cells.size⟩) := by
  simp only [setVar, Step.look_bind_run, h]
  exact Step.bind_run_ok (newCell_run v m) _

theorem setVar_ok (s : ScopeId) (name : String) (v : Value) (m : Memory) :
    ∃ m', setVar s name v m = (.ok (), m') := by
  cases h : (m.scope s).vars.get? name with
  | none => exact ⟨_, setVar_of_not_bound h⟩
  | some c => exact ⟨_, setVar_of_bound h⟩

theorem varCell_of_bound (h : m.Binds s name c) : varCell s name m = (.ok c, m) := by
  rw [Binds] at h
  simp only [varCell, Step.look_bind_run, h, Step.pure_run]

/-- A variable that is not bound in the scope starts with the value visible so far. -/
theorem varCell_of_not_bound (h : (m.scope s).vars.get? name = none) :
    varCell s name m = (.ok ⟨m.cells.size⟩,
      (m.withCells [m.getVar s name]).bound s name ⟨m.cells.size⟩) := by
  simp only [varCell, Step.look_bind_run, h]
  exact Step.bind_run_ok (newCell_run _ m) _

/-! ## Reading from the inside out -/

theorem get?_eq_none_iff : (m.scope s).vars.get? name = none ↔ ∀ c, ¬ m.Binds s name c := by
  simp only [Binds, Option.eq_none_iff_forall_ne_some, ne_eq]

theorem getVar_of_binds (h : m.Binds s name c) : m.getVar s name = m.read c := by
  have hfind : m.findVar s name = some c := by
    rw [Binds] at h
    simp [findVar, h]
  rw [getVar, hfind]

theorem getVar_of_around (h : ∀ c, ¬ m.Binds s name c)
    (haround : (m.scope s).around = s' :: (m.scope s').around) :
    m.getVar s name = m.getVar s' name := by
  have hfind : m.findVar s name = m.findVar s' name := by
    simp only [findVar, haround]
    rw [List.findSome?_cons, get?_eq_none_iff.mpr h]
  rw [getVar, hfind, getVar]

theorem getVar_of_root (h : ∀ c, ¬ m.Binds s name c) (haround : (m.scope s).around = []) :
    m.getVar s name = .void := by
  have hfind : m.findVar s name = none := by simp [findVar, haround, get?_eq_none_iff.mpr h]
  rw [getVar, hfind]

end Kiln.Memory
