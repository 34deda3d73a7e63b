import Kiln.Proofs.Memory.Isolation
import Kiln.Proofs.Memory.Shape

/-!
# Kiln.Proofs.Memory.Concatenation — sums of arrays share no cells with what they are made of

The sum of two values, of which one is an array, is a new array with cells of its own.  What is in the
cells is what the operands have for elements, so containers among them are the same containers.

An `Edit` asks for a cell of a container, which may have to grow, and may put a value into it.  It
changes nothing but the contents of its container (`Changes`), and a container takes in new cells
only.  So an array whose cells no other container has stays `Alone`, and edits of it and edits of
anything else do not get into each other's way, in whatever order they come.
-/

namespace Kiln.Memory

variable {m m' m'' : Memory} {T : Value → Prop} {a r : ArrayId} {c : CellId} {v w x : Value}

/-! ## Edits -/

/-- A place in a container. -/
inductive Place where
  | position (i : Int32)
  | key (k : String)

/-- The cell at a place of a container, which is made if it is not there. -/
def Place.cell (target : Value) : Place → Step Memory CellId
  | position i => indexCell target i
  | key k => keyCell target k

/-- A container is asked for the cell at a place, and a value, if there is one, is put into it. -/
structure Edit where
  target : Value
  place : Place
  value : Option Value

def Edit.run (e : Edit) : Step Memory Unit := do
  let c ← e.place.cell e.target
  match e.value with
  | some x => write c x
  | none => return ()

/-- What edits leave, those that fail included. -/
def edited (m : Memory) (edits : List Edit) : Memory := edits.foldl (fun m e => (e.run m).2) m

theorem edited_append (m : Memory) (before later : List Edit) :
    m.edited (before ++ later) = (m.edited before).edited later := List.foldl_append ..

/-- The cells of containers exist. -/
def Allocated (m : Memory) : Prop := ∀ x c, m.Has x c → c.index < m.cells.size

/-- Containers took in new cells only, and of containers that are not in `T` nothing changed that no
container in `T` has as well. -/
structure Changes (T : Value → Prop) (m m' : Memory) : Prop where
  cellCount : m.cells.size ≤ m'.cells.size
  arrayCount : m'.arrays.size = m.arrays.size
  dictCount : m'.dicts.size = m.dicts.size
  gains : ∀ {x c}, m'.Has x c → m.Has x c ∨ m.cells.size ≤ c.index
  slots : ∀ {a}, ¬ T (.array a) → m'.slots a = m.slots a
  entries : ∀ {d}, ¬ T (.dict d) → m'.entries d = m.entries d
  read : ∀ {c}, c.index < m.cells.size → (∀ t, T t → ¬ m.Has t c) → m'.read c = m.read c

theorem WellFormed.allocated (h : m.WellFormed) : m.Allocated := by
  intro x c hc
  cases x with
  | array a => exact h.contained (.inl ⟨a, hc⟩)
  | dict d =>
    obtain ⟨key, hkey⟩ := hc
    exact h.contained (.inr ⟨d, key, hkey⟩)
  | _ => exact hc.elim

namespace Changes

theorem refl (T : Value → Prop) (m : Memory) : Changes T m m :=
  ⟨Nat.le_refl _, rfl, rfl, .inl, fun _ => rfl, fun _ => rfl, fun _ _ => rfl⟩

theorem trans (h : Changes T m m') (h' : Changes T m' m'') : Changes T m m'' where
  cellCount := Nat.le_trans h.cellCount h'.cellCount
  arrayCount := h'.arrayCount.trans h.arrayCount
  dictCount := h'.dictCount.trans h.dictCount
  gains hc := by
    rcases h'.gains hc with hold | hnew
    · exact h.gains hold
    · exact .inr (Nat.le_trans h.cellCount hnew)
  slots ha := (h'.slots ha).trans (h.slots ha)
  entries hd := (h'.entries hd).trans (h.entries hd)
  read {c} hc hT := by
    have hT' : ∀ t, T t → ¬ m'.Has t c := by
      intro t ht hhas
      rcases h.gains hhas with hold | hnew
      · exact hT t ht hold
      · exact Nat.not_lt.mpr hnew hc
    exact (h'.read (Nat.lt_of_lt_of_le hc h.cellCount) hT').trans (h.read hc hT)

theorem holds (h : Changes T m m') (hv : m.Holds v) : m'.Holds v :=
  hv.mono (Nat.le_of_eq h.arrayCount.symm) (Nat.le_of_eq h.dictCount.symm)

theorem has_iff (h : Changes T m m') (hx : ¬ T x) : m'.Has x c ↔ m.Has x c := by
  cases x with
  | array a => rw [Has, Has, h.slots hx]
  | dict d => rw [Has, Has, h.entries hx]
  | _ => rfl

/-- A value has the elements it had if no changed container has their cells. -/
theorem elements (h : Changes T m m') (hm : m.Allocated) (hx : ¬ T x)
    (hapart : ∀ c, m.Has x c → ∀ t, T t → ¬ m.Has t c) : m'.elements x = m.elements x := by
  cases x with
  | array a =>
    simp only [Memory.elements, h.slots hx]
    refine List.map_congr_left fun c hc => ?_
    have hhas : m.Has (.array a) c := Array.mem_toList_iff.mp hc
    exact h.read (hm _ c hhas) (hapart c hhas)
  | _ => rfl

end Changes

/-! ### What the operations on memory keep to -/

/-- Memories in which the containers of `T` are edited. -/
def editing (T : Value → Prop) : Step.Law Memory :=
  ⟨Allocated, Changes T, Changes.refl T, Changes.trans⟩

/-- New cells may come, and go into containers in `T`. -/
theorem changes_withCells (hm : m.Allocated) (vs : List Value) (arrays : Array (Array CellId))
    (dicts : Array (Table CellId)) (harrays : arrays.size = m.arrays.size)
    (hdicts : dicts.size = m.dicts.size)
    (hgains : ∀ x c, ({ m.withCells vs with arrays, dicts } : Memory).Has x c →
      m.Has x c ∨ c ∈ m.nextCells vs.length)
    (hslots : ∀ a, ¬ T (.array a) →
      ({ m.withCells vs with arrays, dicts } : Memory).slots a = m.slots a)
    (hentries : ∀ d, ¬ T (.dict d) →
      ({ m.withCells vs with arrays, dicts } : Memory).entries d = m.entries d) :
    ({ m.withCells vs with arrays, dicts } : Memory).Allocated ∧
      Changes T m { m.withCells vs with arrays, dicts } := by
  have hsize : (m.withCells vs).cells.size = m.cells.size + vs.length := by
    simp [Memory.withCells]
  refine ⟨fun x c hc => ?_, ⟨?_, harrays, hdicts, fun hc => ?_, hslots _, hentries _, ?_⟩⟩
  · show c.index < (m.withCells vs).cells.size
    rw [hsize]
    rcases hgains x c hc with hold | hnew
    · exact Nat.lt_of_lt_of_le (hm x c hold) (Nat.le_add_right ..)
    · exact (mem_nextCells.mp hnew).2
  · show m.cells.size ≤ (m.withCells vs).cells.size
    omega
  · exact (hgains _ _ hc).imp_right fun hnew => (mem_nextCells.mp hnew).1
  · exact fun hc _ => read_withCells vs hc

theorem editing_growArray (size : Nat) (hm : m.Allocated) (ha : m.Holds (.array a))
    (hT : T (.array a)) :
    (growArray a size).Obeys (editing T) m fun _ t => size ≤ (t.slots a).size := by
  obtain ⟨n, hrun, -⟩ := growArray_run a size m
  have hsize := size_growArray size ha
  rw [hrun] at hsize
  have hslots (b : ArrayId) := slots_set (m.withCells (List.replicate n .void)) a b
    (m.slots a ++ (m.nextCells n).toArray)
  have hend := changes_withCells (T := T) hm (List.replicate n .void)
    (m.arrays.setIfInBounds a.index (m.slots a ++ (m.nextCells n).toArray)) m.dicts (by simp) rfl
    (fun x c hc => ?_) (fun b hb => ?_) fun _ _ => rfl
  · exact .of_run hrun hend.1 hend.2 hsize
  · cases x with
    | array b =>
      specialize hslots b
      split_ifs at hslots with hb
      · replace hc : c ∈ m.slots a ++ (m.nextCells n).toArray := hslots ▸ hc
        rw [hb.1]
        rcases Array.mem_append.mp hc with hold | hnew
        · exact .inl hold
        · exact .inr (by simpa using hnew)
      · replace hc : c ∈ m.slots b := hslots ▸ hc
        exact .inl hc
    | dict d => exact .inl hc
    | _ => exact hc.elim
  · refine (hslots b).trans (if_neg ?_)
    rintro ⟨rfl, -⟩
    exact hb hT

theorem editing_slotCell (i : Int32) (hm : m.Allocated) (ha : m.Holds (.array a))
    (hT : T (.array a)) :
    (slotCell a i).Obeys (editing T) m fun c t => t.Has (.array a) c := by
  unfold slotCell
  split
  · exact .fault hm
  · refine (editing_growArray _ hm ha hT).bind fun _ t ht _ hsize => ?_
    refine (Step.Idle.look _).obeys ht fun c hc => ?_
    cases hc
    exact getD_mem_slots hsize ⟨0⟩

theorem editing_entryCell {d : DictId} (key : String) (hm : m.Allocated)
    (hd : m.Holds (.dict d)) (hT : T (.dict d)) :
    (entryCell d key).Obeys (editing T) m fun c t => t.Has (.dict d) c := by
  refine (Step.Idle.look _).obeys_bind hm fun found hfound => ?_
  replace hfound : (m.entries d).get? key = found := Outcome.ok.inj (Prod.ext_iff.mp hfound).1
  cases found with
  | some c => exact .pure hm ⟨key, hfound⟩
  | none =>
    have hentries (e : DictId) := entries_set (m.withCells [.void]) d e
      ((m.entries d).insert key ⟨m.cells.size⟩)
    have hend := changes_withCells (T := T) hm [.void] m.arrays
      (m.dicts.setIfInBounds d.index ((m.entries d).insert key ⟨m.cells.size⟩)) rfl (by simp)
      (fun x c hc => ?_) (fun _ _ => rfl) fun e he => ?_
    · refine .of_run (Step.bind_run_ok (newCell_run .void m) _) hend.1 hend.2 ⟨key, ?_⟩
      refine (congrArg (Table.get? · key) ((hentries d).trans (if_pos ⟨rfl, hd⟩))).trans ?_
      rw [Table.get?_insert, if_pos rfl]
    · cases x with
      | array b => exact .inl hc
      | dict e =>
        obtain ⟨k, hk⟩ := hc
        specialize hentries e
        split_ifs at hentries with he
        · replace hk : ((m.entries d).insert key ⟨m.cells.size⟩).get? k = some c := hentries ▸ hk
          rw [he.1]
          rw [Table.get?_insert] at hk
          split_ifs at hk
          · cases hk
            exact .inr (mem_nextCells.mpr ⟨Nat.le_refl _, Nat.lt_succ_self _⟩)
          · exact .inl ⟨k, hk⟩
        · exact .inl ⟨k, hentries ▸ hk⟩
      | _ => exact hc.elim
    · refine (hentries e).trans (if_neg ?_)
      rintro ⟨rfl, -⟩
      exact he hT

theorem editing_write (hm : m.Allocated) (hc : m.Has x c) (hx : T x) (v : Value) :
    (write c v).Obeys (editing T) m fun _ _ => True := by
  have hsize : (m.written c v).cells.size = m.cells.size := by
    simp [Memory.written, write, Step.change]
  have hallocated : (m.written c v).Allocated := fun x c' hc' => by
    rw [hsize]
    exact hm x c' hc'
  refine .of_run (write_run c v m) hallocated
    ⟨Nat.le_of_eq hsize.symm, rfl, rfl, .inl, fun _ => rfl, fun _ => rfl, ?_⟩ trivial
  intro c' _ hapart
  refine read_written_of_ne ?_
  rintro rfl
  exact hapart x hx hc

theorem editing_cell (p : Place) (hm : m.Allocated) (hx : m.Holds x) (hT : T x) :
    (p.cell x).Obeys (editing T) m fun c t => t.Has x c := by
  cases p with
  | position i =>
    cases x with
    | array a => exact editing_slotCell i hm hx hT
    | _ => exact .fault hm
  | key k =>
    cases x with
    | dict d => exact editing_entryCell k hm hx hT
    | _ => exact .fault hm

/-- An edit changes its container only. -/
theorem editing_run (e : Edit) (hm : m.Allocated) (he : m.Holds e.target) (hT : T e.target) :
    e.run.Obeys (editing T) m fun _ _ => True := by
  refine (editing_cell e.place hm he hT).bind fun c t ht _ hc => ?_
  cases e.value with
  | none => exact .pure ht trivial
  | some v => exact editing_write ht hc hT v

/-- Edits change their containers only. -/
theorem changes_edited {edits : List Edit} (hm : m.Allocated)
    (he : ∀ e ∈ edits, m.Holds e.target ∧ T e.target) :
    (m.edited edits).Allocated ∧ Changes T m (m.edited edits) := by
  induction edits generalizing m with
  | nil => exact ⟨hm, .refl T m⟩
  | cons e edits ih =>
    obtain ⟨⟨hheld, hT⟩, hrest⟩ := List.forall_mem_cons.mp he
    have hrun := editing_run e hm hheld hT
    have hchanges : Changes T m (e.run m).2 := hrun.rel
    obtain ⟨hallocated, hmore⟩ :=
      ih (m := (e.run m).2) hrun.inv fun e he => ⟨hchanges.holds (hrest e he).1, (hrest e he).2⟩
    exact ⟨hallocated, hchanges.trans hmore⟩

/-! ## Arrays that share no cell -/

/-- No other container has a cell of the array. -/
def Alone (m : Memory) (r : ArrayId) : Prop :=
  ∀ x c, x ≠ .array r → m.Has (.array r) c → ¬ m.Has x c

/-- An array stays alone when it is edited, and when it is not. -/
theorem Alone.changes (h : m.Alone r) (hm : m.Allocated) (hm' : Changes T m m')
    (hT : (∀ t, T t → t = .array r) ∨ ¬ T (.array r)) : m'.Alone r := by
  intro x c hx hr hxc
  have hsame : (m'.Has (.array r) c ↔ m.Has (.array r) c) ∨ (m'.Has x c ↔ m.Has x c) := by
    rcases hT with honly | hnot
    · exact .inr (hm'.has_iff fun ht => hx (honly x ht))
    · exact .inl (hm'.has_iff hnot)
  have hold : c.index < m.cells.size := by
    rcases hsame with hiff | hiff
    · exact hm _ c (hiff.mp hr)
    · exact hm x c (hiff.mp hxc)
  have hr' : m.Has (.array r) c := (hm'.gains hr).resolve_right (Nat.not_le.mpr hold)
  have hxc' : m.Has x c := (hm'.gains hxc).resolve_right (Nat.not_le.mpr hold)
  exact h x c hx hr' hxc'

/-- An array that is alone stays so, whatever is edited. -/
theorem Alone.edited {edits : List Edit} (h : m.Alone r) (hm : m.Allocated)
    (he : ∀ e ∈ edits, m.Holds e.target) : (m.edited edits).Alone r := by
  induction edits generalizing m with
  | nil => exact h
  | cons e edits ih =>
    obtain ⟨hheld, hrest⟩ := List.forall_mem_cons.mp he
    have hrun := editing_run (T := (· = e.target)) e hm hheld rfl
    have hchanges : Changes (· = e.target) m (e.run m).2 := hrun.rel
    refine ih (m := (e.run m).2) (h.changes hm hchanges ?_) hrun.inv
      fun e he => hchanges.holds (hrest e he)
    by_cases htarget : e.target = .array r
    · exact .inl fun t ht => ht.trans htarget
    · exact .inr fun ht => htarget ht.symm

/-- After any edits, those of the array leave all other values the elements they have, and those of
anything else leave the array its elements. -/
def Independent (m : Memory) (r : ArrayId) : Prop :=
  ∀ before later : List Edit, (∀ e ∈ before ++ later, m.Holds e.target) →
    ((∀ e ∈ later, e.target = .array r) → ∀ x, x ≠ .array r →
      (m.edited (before ++ later)).elements x = (m.edited before).elements x) ∧
    ((∀ e ∈ later, e.target ≠ .array r) →
      (m.edited (before ++ later)).elements (.array r) = (m.edited before).elements (.array r))

theorem Alone.independent (h : m.Alone r) (hm : m.Allocated) : m.Independent r := by
  intro before later hheld
  obtain ⟨hbefore, hlater⟩ := List.forall_mem_append.mp hheld
  obtain ⟨hm₁, hchanges⟩ :=
    changes_edited (T := fun _ => True) hm fun e he => ⟨hbefore e he, trivial⟩
  have halone := h.edited hm hbefore
  have hheld₁ : ∀ e ∈ later, (m.edited before).Holds e.target :=
    fun e he => hchanges.holds (hlater e he)
  rw [edited_append]
  constructor
  · intro honly x hx
    obtain ⟨-, hmore⟩ := changes_edited (T := (· = .array r)) hm₁
      fun e he => ⟨hheld₁ e he, honly e he⟩
    refine hmore.elements hm₁ hx fun c hc t ht => ?_
    rw [ht]
    exact fun hr => halone x c hx hr hc
  · intro hnot
    obtain ⟨-, hmore⟩ := changes_edited (T := (· ≠ .array r)) hm₁
      fun e he => ⟨hheld₁ e he, hnot e he⟩
    exact hmore.elements hm₁ (fun hne => hne rfl) fun c hc t ht => halone t c ht hc

/-! ## Sums -/

theorem add_void (v : Value) (m : Memory) : add v .void m = (.ok v, m) := by
  cases v <;> rfl

/-- Where an operand is an array and none is void, the elements of both go into a new array. -/
theorem add_run (hv : v ≠ .void) (hw : w ≠ .void) (h : (∃ a, v = .array a) ∨ ∃ b, w = .array b) :
    add v w m =
      (.ok (.array ⟨m.arrays.size⟩), (newArray (m.elements v ++ m.elements w) m).2) := by
  have hrun : add v w m = newArray (m.elements v ++ m.elements w) m := by
    cases v with
    | void => exact absurd rfl hv
    | array a =>
      cases w with
      | void => exact absurd rfl hw
      | _ => rfl
    | _ =>
      obtain ⟨b, rfl⟩ := h.resolve_left nofun
      rfl
  rw [hrun, newArray_run]

theorem has_newArray {vs : List Value} (hc : (newArray vs m).2.Has x c) :
    m.Has x c ∨ x = .array ⟨m.arrays.size⟩ ∧ c ∈ m.nextCells vs.length := by
  rw [newArray_run] at hc
  cases x with
  | array a =>
    have hslots := slots_push (m.withCells vs) (m.nextCells vs.length).toArray a
    split_ifs at hslots with ha
    · replace hc : c ∈ (m.nextCells vs.length).toArray := hslots ▸ hc
      exact .inr ⟨congrArg (fun i => Value.array ⟨i⟩) ha, by simpa using hc⟩
    · replace hc : c ∈ m.slots a := hslots ▸ hc
      exact .inl hc
  | dict d => exact .inl hc
  | _ => exact hc.elim

theorem Allocated.newArray (hm : m.Allocated) (vs : List Value) :
    (Memory.newArray vs m).2.Allocated := by
  intro x c hc
  have hsize : (Memory.newArray vs m).2.cells.size = m.cells.size + vs.length := by
    rw [newArray_run]
    simp [Memory.withCells]
  rw [hsize]
  rcases has_newArray hc with hold | ⟨-, hnew⟩
  · exact Nat.lt_of_lt_of_le (hm x c hold) (Nat.le_add_right ..)
  · exact (mem_nextCells.mp hnew).2

/-- A new array shares no cell with what there was. -/
theorem Allocated.alone_newArray (hm : m.Allocated) (vs : List Value) :
    (Memory.newArray vs m).2.Alone ⟨m.arrays.size⟩ := by
  intro x c hx hr hxc
  have hold : m.Has x c := (has_newArray hxc).resolve_right fun h => hx h.1
  rcases has_newArray hr with hr | ⟨-, hnew⟩
  · have hempty : m.slots ⟨m.arrays.size⟩ = #[] := slots_eq_empty (Nat.le_refl _)
    replace hr : c ∈ m.slots ⟨m.arrays.size⟩ := hr
    rw [hempty] at hr
    exact absurd hr (Array.not_mem_empty c)
  · exact absurd (hm x c hold) (Nat.not_lt.mpr (mem_nextCells.mp hnew).1)

theorem WellFormed.newArray (hm : m.WellFormed) (vs : List Value) (hvs : ∀ v ∈ vs, m.Holds v) :
    (Memory.newArray vs m).2.WellFormed := by
  have hrun : (Memory.newArray vs).Obeys (tidy ⟨0⟩) m _ := tidy_newArray hm hvs
  exact hrun.inv

/-! ### Sums of arrays and void -/

/-- The value is void or an array. -/
inductive IsRow : Value → Prop
  | void : IsRow .void
  | array (a : ArrayId) : IsRow (.array a)

/-- The elements of an array; void has none. -/
def row (m : Memory) : Value → List Value
  | .void => []
  | v => m.elements v

theorem Extends.row (h : m.Extends m') (hm : m.WellFormed) (hx : IsRow x) (hv : m.Holds x) :
    m'.row x = m.row x := by
  cases hx with
  | void => rfl
  | array a => exact h.elements hm hv

/-- Rows of the same elements look the same. -/
theorem alike_of_row (hv : IsRow v) (hw : IsRow w) (hheld : m.Holds v) (hheld' : m.Holds w)
    (hrow : m.row v = m.row w) (hvoid : v = .void ↔ w = .void) : Alike m m v w := by
  refine ⟨hheld, hheld', fun n => ?_⟩
  cases hv with
  | void =>
    rw [hvoid.mp rfl]
  | array a =>
    cases hw with
    | void => exact absurd (hvoid.mpr rfl) nofun
    | array b =>
      cases n with
      | zero => rfl
      | succ n => exact congrArg (fun es => Shape.array (es.map (m.shape n))) hrow

/-- A run of a sum of rows that yields a row, of the elements of both. -/
structure RowSum (m : Memory) (v w s : Value) (m' : Memory) : Prop where
  run : add v w m = (.ok s, m')
  wellFormed : m'.WellFormed
  grows : m.Extends m'
  isRow : IsRow s
  holds : m'.Holds s
  row : m'.row s = m.row v ++ m.row w
  void : s = .void ↔ v = .void ∧ w = .void

theorem add_rows (hm : m.WellFormed) (hv : IsRow v) (hw : IsRow w) (hheld : m.Holds v)
    (hheld' : m.Holds w) : ∃ s m', RowSum m v w s m' := by
  cases hv with
  | void => exact ⟨w, m, rfl, hm, .refl m, hw, hheld', rfl, by simp⟩
  | array a =>
    cases hw with
    | void => exact ⟨.array a, m, rfl, hm, .refl m, .array a, hheld, by simp [row], by simp⟩
    | array b =>
      have hrun := add_run (m := m) (v := .array a) (w := .array b) nofun nofun (.inl ⟨a, rfl⟩)
      have hvs : ∀ x ∈ m.elements (.array a) ++ m.elements (.array b), m.Holds x :=
        List.forall_mem_append.mpr ⟨hm.holds_elements hheld, hm.holds_elements hheld'⟩
      exact ⟨_, _, hrun, hm.newArray _ hvs, extends_newArray _ m, .array _, holds_newArray _ m,
        elements_newArray _ m, by simp⟩

/-- Sums of rows that are put together in the two ways are alike. -/
theorem add_assoc_rows (hm : m.WellFormed) {y z : Value} (hx : IsRow x) (hy : IsRow y)
    (hz : IsRow z) (hheldx : m.Holds x) (hheldy : m.Holds y) (hheldz : m.Holds z) :
    ∃ p q m₁ m₂, (add x y >>= fun s => add s z) m = (.ok p, m₁) ∧
      (add y z >>= fun s => add x s) m₁ = (.ok q, m₂) ∧ Alike m₂ m₂ p q := by
  obtain ⟨s, ms, hs⟩ := add_rows hm hx hy hheldx hheldy
  obtain ⟨p, m₁, hp⟩ := add_rows hs.wellFormed hs.isRow hz hs.holds (hs.grows.holds hheldz)
  have hm₁ := hp.wellFormed
  have hgrown := hs.grows.trans hp.grows
  obtain ⟨t, mt, ht⟩ := add_rows hm₁ hy hz (hgrown.holds hheldy) (hgrown.holds hheldz)
  have hgrown' := hgrown.trans ht.grows
  obtain ⟨q, m₂, hq⟩ := add_rows ht.wellFormed hx ht.isRow (hgrown'.holds hheldx) ht.holds
  have hp₂ := (ht.grows.trans hq.grows).holds hp.holds
  have hrow : m₂.row p = m₂.row q := by
    calc m₂.row p = m₁.row p := (ht.grows.trans hq.grows).row hm₁ hp.isRow hp.holds
      _ = m.row x ++ m.row y ++ m.row z := by
        rw [hp.row, hs.row, hs.grows.row hm hz hheldz]
      _ = m.row x ++ (m.row y ++ m.row z) := List.append_assoc ..
      _ = m₂.row q := by
        rw [hq.row, ht.row, hgrown'.row hm hx hheldx, hgrown.row hm hy hheldy,
          hgrown.row hm hz hheldz]
  have hvoid : p = .void ↔ q = .void := by
    rw [hp.void, hq.void, hs.void, ht.void, and_assoc]
  refine ⟨p, q, m₁, m₂, ?_, ?_, alike_of_row hp.isRow hq.isRow hp₂ hq.holds hrow hvoid⟩
  · rw [Step.bind_run_ok hs.run, hp.run]
  · rw [Step.bind_run_ok ht.run, hq.run]

/-- Void adds nothing.  If one of two other values is an array, their sum is a new array with the
elements of both, where anything that is no array is its one element.  Edits of the sum do not change
the elements of what there was, and edits of what there was do not change those of the sum, in
whatever order they come; but a container among the elements is the same in both, so what is done to
it is seen in the sum.  Sums of arrays and void are alike however they are put together. -/
theorem add_concatenates (hm : m.WellFormed) :
    (∀ v, add .void v m = (.ok v, m) ∧ add v .void m = (.ok v, m)) ∧
    (∀ v w, v ≠ .void → w ≠ .void → ((∃ a, v = .array a) ∨ ∃ b, w = .array b) →
      ∃ r m', add v w m = (.ok (.array r), m') ∧ m.Extends m' ∧
        ¬ m.Holds (.array r) ∧ m'.Holds (.array r) ∧
        m'.elements (.array r) = m.elements v ++ m.elements w ∧
        (∀ edits : List Edit, (∀ e ∈ edits, e.target = .array r) →
          ∀ x, m.Holds x → (m'.edited edits).elements x = m.elements x) ∧
        (∀ edits : List Edit, (∀ e ∈ edits, m.Holds e.target) →
          (m'.edited edits).elements (.array r) = m.elements v ++ m.elements w ∧
          ∀ n, (m'.edited edits).shape (n + 1) (.array r) =
            .array ((m.elements v ++ m.elements w).map ((m'.edited edits).shape n))) ∧
        m'.Independent r) ∧
    ∀ x y z, IsRow x → IsRow y → IsRow z → m.Holds x → m.Holds y → m.Holds z →
      ∃ p q m₁ m₂, (add x y >>= fun s => add s z) m = (.ok p, m₁) ∧
        (add y z >>= fun s => add x s) m₁ = (.ok q, m₂) ∧ Alike m₂ m₂ p q := by
  refine ⟨fun v => ⟨rfl, add_void v m⟩, fun v w hv hw harray => ?_, fun x y z hx hy hz =>
    add_assoc_rows hm hx hy hz⟩
  let vs : List Value := m.elements v ++ m.elements w
  have hnew : ¬ m.Holds (.array ⟨m.arrays.size⟩) := Nat.lt_irrefl _
  have hheld : (newArray vs m).2.Holds (.array ⟨m.arrays.size⟩) := holds_newArray vs m
  have hgrown : m.Extends (newArray vs m).2 := extends_newArray vs m
  have helements : (newArray vs m).2.elements (.array ⟨m.arrays.size⟩) = vs :=
    elements_newArray vs m
  have hallocated := hm.allocated.newArray vs
  have hindependent := (hm.allocated.alone_newArray vs).independent hallocated
  refine ⟨⟨m.arrays.size⟩, (newArray vs m).2, add_run hv hw harray, hgrown, hnew, hheld, helements,
    fun edits honly x hx => ?_, fun edits hold => ?_, hindependent⟩
  · have hne : x ≠ .array ⟨m.arrays.size⟩ := fun he => hnew (he ▸ hx)
    have hsame := (hindependent [] edits fun e he => honly e he ▸ hheld).1 honly x hne
    refine hsame.trans ?_
    cases x with
    | array a => exact hgrown.elements hm hx
    | _ => rfl
  · have hne : ∀ e ∈ edits, e.target ≠ .array ⟨m.arrays.size⟩ :=
      fun e he htarget => hnew (htarget ▸ hold e he)
    have hsame := (hindependent [] edits fun e he => hgrown.holds (hold e he)).2 hne
    have hkept : ((newArray vs m).2.edited edits).elements (.array ⟨m.arrays.size⟩) = vs :=
      hsame.trans helements
    refine ⟨hkept, fun n => ?_⟩
    rw [shape, hkept]

/-- The arrays `[1]` and `[[1]]`. -/
def nested : Memory := (newArray [.array ⟨0⟩] (newArray [.int 1] empty).2).2

/-- The sum of `[[1]]` and 2 is `[[1], 2]`.  A 7 at its fourth position leaves `[[1]]` as it is, and a
5 in the inner array is seen in it. -/
theorem add_concatenates_nested : ∃ r m',
    nested.WellFormed ∧ add (.array ⟨1⟩) (.int 2) nested = (.ok (.array r), m') ∧
    m'.elements (.array r) = [.array ⟨0⟩, .int 2] ∧
    (m'.edited [⟨.array r, .position 3, some (.int 7)⟩]).elements (.array ⟨1⟩) = [.array ⟨0⟩] ∧
    (m'.edited [⟨.array ⟨0⟩, .position 0, some (.int 5)⟩]).shape 2 (.array r) =
      .array [.array [.int 5], .int 2] ∧
    ∃ p q m₁ m₂, (add (.array ⟨0⟩) .void >>= fun s => add s (.array ⟨1⟩)) nested = (.ok p, m₁) ∧
      (add .void (.array ⟨1⟩) >>= fun s => add (.array ⟨0⟩) s) m₁ = (.ok q, m₂) ∧
      Alike m₂ m₂ p q := by
  have hinner := wellFormed_empty.newArray [.int 1] (by decide)
  have hm : nested.WellFormed := hinner.newArray [.array ⟨0⟩] (by decide)
  obtain ⟨-, hsum, hassoc⟩ := add_concatenates hm
  obtain ⟨r, m', hrun, -, -, -, helements, hown, hothers, -⟩ :=
    hsum (.array ⟨1⟩) (.int 2) nofun nofun (.inl ⟨⟨1⟩, rfl⟩)
  have hseven := hown [⟨.array r, .position 3, some (.int 7)⟩] (by simp) (.array ⟨1⟩) (by decide)
  have hseen := (hothers [⟨.array ⟨0⟩, .position 0, some (.int 5)⟩] (by decide)).2 1
  have hresult : add (.array ⟨1⟩) (.int 2) nested =
      (.ok (.array ⟨2⟩), (newArray [.array ⟨0⟩, .int 2] nested).2) := rfl
  have hsame := hrun
  rw [hresult] at hsame
  cases hsame
  have halike := hassoc (.array ⟨0⟩) .void (.array ⟨1⟩) (.array _) .void (.array _) (by decide)
    trivial (by decide)
  exact ⟨_, _, hm, hrun, helements, hseven, hseen, halike⟩

end Kiln.Memory
