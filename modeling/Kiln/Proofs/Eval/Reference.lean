import Kiln.Proofs.Eval.Scopes

/-!
# Kiln.Proofs.Eval.Reference — what is read is what is referred to

An assignment writes the cell that `evalCell` finds, and reading the same expression goes through
`eval`.  The two evaluate the same operands in the same order and part only at the end, where the one
looks into memory and the other makes what is not there: a variable of the innermost scope with the
value visible so far, void slots up to a position, a void entry under a key.  So the cell holds what
is read, and nothing else tells the two end states apart.
-/

namespace Kiln

open Kiln.Action

/-! ## What is made -/

namespace Memory

variable {m : Memory} {s : ScopeId} {name key : String} {a : ArrayId} {d : DictId} {i : Int32}
  {c : CellId} {k : Nat}

/-- Memory in which a scope binds a name to a new cell, with the value visible so far. -/
def snapshot (m : Memory) (s : ScopeId) (name : String) : Memory :=
  (m.withCells [m.getVar s name]).bound s name ⟨m.cells.size⟩

/-- Memory in which an array has `k` void slots more at its end. -/
def extended (m : Memory) (a : ArrayId) (k : Nat) : Memory :=
  { m.withCells (List.replicate k .void) with
    arrays := m.arrays.setIfInBounds a.index (m.slots a ++ (m.nextCells k).toArray) }

/-- Memory in which a dictionary has a void entry more. -/
def withEntry (m : Memory) (d : DictId) (key : String) : Memory :=
  { m.withCells [.void] with
    dicts := m.dicts.setIfInBounds d.index ((m.entries d).insert key ⟨m.cells.size⟩) }

theorem read_extended (hc : m.cells.size ≤ c.index) : (m.extended a k).read c = .void := by
  rcases read_withCells_new (List.replicate k .void) hc with hmem | hvoid
  · exact List.eq_of_mem_replicate hmem
  · exact hvoid

theorem getElem?_nextCells {j : Nat} (hj : j < k) :
    (m.nextCells k)[j]? = some ⟨m.cells.size + j⟩ := by
  simp [nextCells, hj]

theorem slots_extended (ha : m.Holds (.array a)) :
    (m.extended a k).slots a = m.slots a ++ (m.nextCells k).toArray :=
  (slots_set (m.withCells (List.replicate k .void)) a a _).trans (if_pos ⟨rfl, ha⟩)

theorem varCell_of_not_binds (h : ∀ c, ¬ m.Binds s name c) :
    varCell s name m = (.ok ⟨m.cells.size⟩, m.snapshot s name) :=
  varCell_of_not_bound (get?_eq_none_iff.mpr h)

theorem slotCell_of_neg (hi : i < 0) : slotCell a i m = (.error (.fault .negativeIndex), m) := by
  simp only [slotCell, if_pos hi]
  rfl

/-- An array that is long enough stays as it is. -/
theorem slotCell_of_slot (hi : ¬ i < 0) (hc : (m.slots a)[i.toInt.toNat]? = some c) :
    slotCell a i m = (.ok c, m) := by
  obtain ⟨hlt, -⟩ := Array.getElem?_eq_some_iff.mp hc
  have hgrow : growArray a (i.toInt.toNat + 1) m = (.ok (), m) := by
    simp only [growArray, Step.look_bind_run, Nat.sub_eq_zero_of_le hlt, if_true, Step.pure_run]
  simp only [slotCell, if_neg hi]
  rw [Step.bind_run_ok hgrow]
  simp only [Step.look, Array.getD_eq_getD_getElem?, hc, Option.getD_some]

/-- One that is not grows up to the position; the slot there is the last one. -/
theorem slotCell_of_size_le (hi : ¬ i < 0) (ha : m.Holds (.array a))
    (hsize : (m.slots a).size ≤ i.toInt.toNat) :
    slotCell a i m = (.ok ⟨m.cells.size + (i.toInt.toNat - (m.slots a).size)⟩,
      m.extended a (i.toInt.toNat + 1 - (m.slots a).size)) := by
  obtain ⟨n, hgrow, hn⟩ := growArray_run a (i.toInt.toNat + 1) m
  obtain rfl : n = i.toInt.toNat + 1 - (m.slots a).size := by omega
  have hslot : ((m.extended a (i.toInt.toNat + 1 - (m.slots a).size)).slots a)[i.toInt.toNat]? =
      some ⟨m.cells.size + (i.toInt.toNat - (m.slots a).size)⟩ := by
    rw [slots_extended ha, Array.getElem?_append_right hsize, List.getElem?_toArray,
      getElem?_nextCells (by omega)]
  simp only [slotCell, if_neg hi]
  rw [Step.bind_run_ok hgrow]
  show (Outcome.ok (((m.extended a _).slots a).getD _ _), m.extended a _) = _
  rw [Array.getD_eq_getD_getElem?, hslot, Option.getD_some]

theorem entryCell_of_entry (hc : (m.entries d).get? key = some c) :
    entryCell d key m = (.ok c, m) := by
  simp only [entryCell, Step.look_bind_run, hc, Step.pure_run]

theorem entryCell_of_none (hnone : (m.entries d).get? key = none) :
    entryCell d key m = (.ok ⟨m.cells.size⟩, m.withEntry d key) := by
  simp only [entryCell, Step.look_bind_run, hnone]
  exact Step.bind_run_ok (newCell_run .void m) _

end Memory

/-! ## The two ways -/

/-- Variables and subscripts can be assigned to. -/
def Expr.IsPlace : Expr → Prop
  | .var _ => True
  | .binary .subscript _ _ => True
  | _ => False

/-- The operands of a subscript are the container and the index, and `u` is the state behind them. -/
def Subscripts (n : Nat) (s : Machine) (left right : Expr) (container i : Value) (u : Machine) :
    Prop :=
  ∃ w, eval n left s = (.ok container, w) ∧ eval n right w = (.ok i, u)

/-- Reading the expression in `s` ends in `u`.  Taking the reference instead gives the cell and ends
with the memory, which is that of `u` but for what had to be made. -/
inductive Refers (n : Nat) (s u : Machine) : Expr → CellId → Memory → Prop
  /-- The innermost scope binds the variable. -/
  | bound {name c} : u.memory.Binds u.frame.scope name c → Refers n s u (.var name) c u.memory
  /-- It does not, and gets a binding of its own. -/
  | binding {name} : (∀ c, ¬ u.memory.Binds u.frame.scope name c) →
      Refers n s u (.var name) ⟨u.memory.cells.size⟩ (u.memory.snapshot u.frame.scope name)
  /-- The array is long enough. -/
  | slot {left right a i c} : Subscripts n s left right (.array a) i u → ¬ i.toInt < 0 →
      (u.memory.slots a)[i.toInt.toInt.toNat]? = some c →
      Refers n s u (.binary .subscript left right) c u.memory
  /-- It is not, and grows up to the position. -/
  | growth {left right a i} : Subscripts n s left right (.array a) i u → ¬ i.toInt < 0 →
      (u.memory.slots a).size ≤ i.toInt.toInt.toNat →
      Refers n s u (.binary .subscript left right)
        ⟨u.memory.cells.size + (i.toInt.toInt.toNat - (u.memory.slots a).size)⟩
        (u.memory.extended a (i.toInt.toInt.toNat + 1 - (u.memory.slots a).size))
  /-- The dictionary has the key. -/
  | entry {left right d i key c} : Subscripts n s left right (.dict d) i u →
      textOf i u = (.ok key, u) → (u.memory.entries d).get? key = some c →
      Refers n s u (.binary .subscript left right) c u.memory
  /-- It has not, and gets an entry. -/
  | newEntry {left right d i key} : Subscripts n s left right (.dict d) i u →
      textOf i u = (.ok key, u) → (u.memory.entries d).get? key = none →
      Refers n s u (.binary .subscript left right) ⟨u.memory.cells.size⟩ (u.memory.withEntry d key)

/-- What can be read has no cell: it is no place, or a position of an array below 0. -/
inductive Unreferable (n : Nat) (s u : Machine) : Expr → Fault → Prop
  | notPlace {e} : ¬ e.IsPlace → Unreferable n s u e .notAssignable
  | negative {left right a i} : Subscripts n s left right (.array a) i u → i.toInt < 0 →
      Unreferable n s u (.binary .subscript left right) .negativeIndex

/-- How reading an expression and taking a reference to it end, started in one state. -/
inductive Agree (n : Nat) (s : Machine) (e : Expr) :
    Outcome Value × Machine → Outcome CellId × Machine → Prop
  | both {u c m} : Refers n s u e c m →
      Agree n s e (.ok (m.read c), u) (.ok c, { u with memory := m })
  | refused {v u f t} : Unreferable n s u e f → Agree n s e (.ok v, u) (.error (.fault f), t)
  | neither {o o' u t} : (∀ v, o ≠ .ok v) → (∀ c, o' ≠ .ok c) → Agree n s e (o, u) (o', t)

variable {n : Nat} {s u : Machine}

theorem agree_var (name : String) :
    Agree n s (.var name) (eval (n + 1) (.var name) s) (evalCell (n + 1) (.var name) s) := by
  have hread : eval (n + 1) (.var name) s = (.ok (s.memory.getVar s.frame.scope name), s) := rfl
  have hcell {c : CellId} {m : Memory}
      (h : Memory.varCell s.frame.scope name s.memory = (.ok c, m)) :
      evalCell (n + 1) (.var name) s = (.ok c, { s with memory := m }) := onMemory_run h
  rw [hread]
  by_cases hbound : ∃ c, s.memory.Binds s.frame.scope name c
  · obtain ⟨c, hc⟩ := hbound
    rw [hcell (Memory.varCell_of_bound hc), Memory.getVar_of_binds hc]
    exact .both (.bound hc)
  · rw [not_exists] at hbound
    rw [hcell (Memory.varCell_of_not_binds hbound)]
    have hvalue : (s.memory.snapshot s.frame.scope name).read ⟨s.memory.cells.size⟩ =
        s.memory.getVar s.frame.scope name := Memory.read_withCells_next s.memory _
    rw [← hvalue]
    exact .both (.binding hbound)

/-- Where an operand does not end well, neither of the two does. -/
theorem agree_of_not_ok {α : Type} {m : Action α} {f : α → Action Value} {g : α → Action CellId}
    {e : Expr} {o : Outcome α} {t w : Machine} (hm : m t = (o, w)) (ho : ∀ a, o ≠ .ok a) :
    Agree n s e ((m >>= f) t) ((m >>= g) t) := by
  obtain ⟨o₁, ho₁, hf⟩ := Step.bind_run_of_not_ok hm ho f
  obtain ⟨o₂, ho₂, hg⟩ := Step.bind_run_of_not_ok hm ho g
  rw [hf, hg]
  exact .neither ho₁ ho₂

section Subscript

variable {left right : Expr} {container i : Value}

theorem agree_index {a : ArrayId} (hoperands : Subscripts n s left right (.array a) i u)
    (ha : u.memory.Holds (.array a)) :
    Agree n s (.binary .subscript left right) (subscript (.array a) i u)
      (subscriptCell (.array a) i u) := by
  have hread : subscript (.array a) i u = (.ok (u.memory.element a i.toInt), u) := rfl
  have hcell {o : Outcome CellId} {m : Memory} (h : Memory.slotCell a i.toInt u.memory = (o, m)) :
      subscriptCell (.array a) i u = (o, { u with memory := m }) := onMemory_run h
  rw [hread]
  by_cases hneg : i.toInt < 0
  · rw [hcell (Memory.slotCell_of_neg hneg)]
    exact .refused (.negative hoperands hneg)
  · simp only [Memory.element, if_neg hneg]
    cases hslot : (u.memory.slots a)[i.toInt.toInt.toNat]? with
    | some c =>
      rw [hcell (Memory.slotCell_of_slot hneg hslot)]
      exact .both (.slot hoperands hneg hslot)
    | none =>
      have hsize := Array.getElem?_eq_none_iff.mp hslot
      rw [hcell (Memory.slotCell_of_size_le hneg ha hsize)]
      have hagree := Agree.both (Refers.growth hoperands hneg hsize)
      rwa [Memory.read_extended (Nat.le_add_right _ _)] at hagree

theorem agree_key {d : DictId} (hoperands : Subscripts n s left right (.dict d) i u) :
    Agree n s (.binary .subscript left right) (subscript (.dict d) i u)
      (subscriptCell (.dict d) i u) := by
  rcases htext : textOf i u with ⟨o, w⟩
  obtain rfl : w = u := (idle_textOf i).eq_of_run htext
  by_cases ho : ∃ key, o = .ok key
  · obtain ⟨key, rfl⟩ := ho
    have hread : subscript (.dict d) i w = (.ok (w.memory.entry d key), w) :=
      Step.bind_run_ok htext _
    have hcell {c : CellId} {m : Memory} (h : Memory.entryCell d key w.memory = (.ok c, m)) :
        subscriptCell (.dict d) i w = (.ok c, { w with memory := m }) :=
      (Step.bind_run_ok htext _).trans (onMemory_run h)
    rw [hread, Memory.entry]
    cases hentry : (w.memory.entries d).get? key with
    | some c =>
      rw [hcell (Memory.entryCell_of_entry hentry)]
      exact .both (.entry hoperands htext hentry)
    | none =>
      rw [hcell (Memory.entryCell_of_none hentry)]
      have hvalue : (w.memory.withEntry d key).read ⟨w.memory.cells.size⟩ = .void :=
        Memory.read_withCells_next w.memory .void
      have hagree := Agree.both (Refers.newEntry hoperands htext hentry)
      rwa [hvalue] at hagree
  · exact agree_of_not_ok htext (not_exists.mp ho)

theorem agree_subscript (hs : s.Tidy) (left right : Expr) :
    Agree n s (.binary .subscript left right) (eval (n + 1) (.binary .subscript left right) s)
      (evalCell (n + 1) (.binary .subscript left right) s) := by
  rcases hleft : eval n left s with ⟨o, w⟩
  by_cases ho : ∃ container, o = .ok container
  · obtain ⟨container, rfl⟩ := ho
    have hkept := (scopes.kept n).eval left hs
    have hheld : w.memory.Holds container := hkept.of_eq_ok hleft
    have hw : w.Tidy := by
      have hinv := hkept.inv
      rwa [hleft] at hinv
    have hread : eval (n + 1) (.binary .subscript left right) s =
        (eval n right >>= subscript container) w := Step.bind_run_ok hleft _
    have hcell : evalCell (n + 1) (.binary .subscript left right) s =
        (eval n right >>= subscriptCell container) w := Step.bind_run_ok hleft _
    rw [hread, hcell]
    rcases hright : eval n right w with ⟨o, u⟩
    by_cases ho : ∃ i, o = .ok i
    · obtain ⟨i, rfl⟩ := ho
      have hrel := ((scopes.kept n).eval right hw).rel
      rw [hright] at hrel
      have hoperands : Subscripts n s left right container i u := ⟨w, hleft, hright⟩
      rw [Step.bind_run_ok hright, Step.bind_run_ok hright]
      cases container with
      | array a => exact agree_index hoperands (hrel.2.holds hheld)
      | dict d => exact agree_key hoperands
      | _ => exact .neither (by simp) (by simp)
    · exact agree_of_not_ok hright (not_exists.mp ho)
  · exact agree_of_not_ok hleft (not_exists.mp ho)

end Subscript

theorem evalCell_of_not_place {e : Expr} (he : ¬ e.IsPlace) :
    evalCell (n + 1) e s = (.error (.fault .notAssignable), s) := by
  cases e with
  | var name => exact absurd trivial he
  | binary op left right =>
    cases op with
    | subscript => exact absurd trivial he
    | _ => rfl
  | _ => rfl

theorem eval_agrees_evalCell (hs : s.Tidy) (e : Expr) :
    Agree n s e (eval (n + 1) e s) (evalCell (n + 1) e s) := by
  by_cases he : e.IsPlace
  · cases e with
    | var name => exact agree_var name
    | binary op left right =>
      cases op with
      | subscript => exact agree_subscript hs left right
      | _ => exact absurd he (by simp [Expr.IsPlace])
    | _ => exact absurd he (by simp [Expr.IsPlace])
  · rw [evalCell_of_not_place he]
    rcases eval (n + 1) e s with ⟨o, u⟩
    cases o with
    | ok v => exact .refused (.notPlace he)
    | _ => exact .neither (by simp) (by simp)

/-- In every state of a run, reading an expression and taking a reference to it agree.  Where there is
a reference, reading ends well from the same state with what is in the cell, and the end states differ
by what `Refers` allows.  Where there is none but reading ends well, the expression is no place, or
subscripts an array below 0. -/
theorem reference_agrees (hs : Reachable s) (n : Nat) (e : Expr) :
    (∀ c t, evalCell (n + 1) e s = (.ok c, t) → ∃ u,
      eval (n + 1) e s = (.ok (t.memory.read c), u) ∧ t = { u with memory := t.memory } ∧
        Refers n s u e c t.memory) ∧
    (∀ v u, eval (n + 1) e s = (.ok v, u) → (∀ c t, evalCell (n + 1) e s ≠ (.ok c, t)) →
      ∃ f t, evalCell (n + 1) e s = (.error (.fault f), t) ∧ Unreferable n s u e f) := by
  have hagree := eval_agrees_evalCell (n := n) hs.tidy e
  constructor
  · intro c t hcell
    rw [hcell] at hagree
    rcases hread : eval (n + 1) e s with ⟨o, u⟩
    rw [hread] at hagree
    cases hagree with
    | both hrefers => exact ⟨u, rfl, rfl, hrefers⟩
    | neither _ hc => exact absurd rfl (hc c)
  · intro v u hread hnone
    rw [hread] at hagree
    rcases hcell : evalCell (n + 1) e s with ⟨o, t⟩
    rw [hcell] at hagree hnone
    cases hagree with
    | both => exact absurd rfl (hnone _ _)
    | refused hunreferable => exact ⟨_, t, rfl, hunreferable⟩
    | neither hv => exact absurd rfl (hv v)

/-- `a = [1];` -/
def Stmt.settingA : Stmt :=
  .expr ⟨"/m", 1⟩ (.binary .assign (.var "a") (.array [.const (.int 1)]))

/-- `a[i]` -/
def Expr.inA (i : Int32) : Expr := .binary .subscript (.var "a") (.const (.int i))

/-- A position past the end reads as void, and so does the slot that is made for it; a position below
0 reads as void and has none. -/
theorem reference_agrees_past_the_end :
    ∃ s c t, Reachable s ∧ evalCell 2 (.inA 2) s = (.ok c, t) ∧
      (∃ u, eval 2 (.inA 2) s = (.ok .void, u) ∧ t = { u with memory := t.memory } ∧
        Refers 1 s u (.inA 2) c t.memory) ∧
      ∃ u f t, eval 2 (.inA (-1)) s = (.ok .void, u) ∧
        evalCell 2 (.inA (-1)) s = (.error (.fault f), t) ∧ Unreferable 1 s u (.inA (-1)) f := by
  obtain ⟨s, c, hs, hcell, hvoid, hread, hnone⟩ : ∃ s c, Reachable s ∧
      (evalCell 2 (.inA 2) s).1 = .ok c ∧ (evalCell 2 (.inA 2) s).2.memory.read c = .void ∧
      (eval 2 (.inA (-1)) s).1 = .ok .void ∧
      (evalCell 2 (.inA (-1)) s).1 = .error (.fault .negativeIndex) := by
    let first : Machine := ({ Machine.blank with memory := .empty } : Machine).opened "/m"
    let s : Machine := (exec 4 .settingA first).2
    have hs : Reachable s := .exec 4 .settingA (.first "/m" rfl)
    exact ⟨s, ⟨s.memory.cells.size + 1⟩, hs, by decide +kernel⟩
  obtain ⟨u, hu, hut, hrefers⟩ := (reference_agrees hs 1 (.inA 2)).1 c _ (Step.eq_of_fst hcell)
  rw [hvoid] at hu
  obtain ⟨f, t, ht, hunreferable⟩ := (reference_agrees hs 1 (.inA (-1))).2 .void _
    (Step.eq_of_fst hread) fun c t h => by
      rw [h] at hnone
      cases hnone
  exact ⟨s, c, _, hs, Step.eq_of_fst hcell, ⟨u, hu, hut, hrefers⟩, _, f, t, Step.eq_of_fst hread,
    ht, hunreferable⟩

end Kiln
