import Kiln.Proofs.Memory.Separation

/-!
# Kiln.Proofs.Memory.Isolation — a part of the memory that nothing new refers to

`Extends base m`: all cells, containers and scopes of `base` are in `m` as they were.  A `Walled`
memory extends its base, and what is new in it refers to what is new only.  The operations keep the
wall up as long as they are given new containers, cells and scopes, and they hand out no others; so
they never get at the base.
-/

namespace Kiln.Memory

variable {base m m' m'' : Memory} {s s' : ScopeId} {name : String} {c : CellId} {v : Value}

/-- All cells, containers and scopes of `m` are in `m'` as they were. -/
structure Extends (m m' : Memory) : Prop where
  cellCount : m.cells.size ≤ m'.cells.size
  arrayCount : m.arrays.size ≤ m'.arrays.size
  dictCount : m.dicts.size ≤ m'.dicts.size
  scopeCount : m.scopes.size ≤ m'.scopes.size
  read : ∀ {c : CellId}, c.index < m.cells.size → m'.read c = m.read c
  slots : ∀ {a : ArrayId}, a.index < m.arrays.size → m'.slots a = m.slots a
  entries : ∀ {d : DictId}, d.index < m.dicts.size → m'.entries d = m.entries d
  scope : ∀ {s}, m.HasScope s → m'.scope s = m.scope s

theorem Extends.refl (m : Memory) : Extends m m :=
  ⟨Nat.le_refl _, Nat.le_refl _, Nat.le_refl _, Nat.le_refl _, fun _ => rfl, fun _ => rfl,
    fun _ => rfl, fun _ => rfl⟩

theorem Extends.trans (h : m.Extends m') (h' : m'.Extends m'') : m.Extends m'' where
  cellCount := Nat.le_trans h.cellCount h'.cellCount
  arrayCount := Nat.le_trans h.arrayCount h'.arrayCount
  dictCount := Nat.le_trans h.dictCount h'.dictCount
  scopeCount := Nat.le_trans h.scopeCount h'.scopeCount
  read hc := (h'.read (Nat.lt_of_lt_of_le hc h.cellCount)).trans (h.read hc)
  slots ha := (h'.slots (Nat.lt_of_lt_of_le ha h.arrayCount)).trans (h.slots ha)
  entries hd := (h'.entries (Nat.lt_of_lt_of_le hd h.dictCount)).trans (h.entries hd)
  scope hs := (h'.scope (Nat.lt_of_lt_of_le hs h.scopeCount)).trans (h.scope hs)

theorem Extends.holds (h : m.Extends m') (hv : m.Holds v) : m'.Holds v :=
  hv.mono h.arrayCount h.dictCount

/-- The value is a scalar, or a container of `m` that `base` has not. -/
def Adds (base m : Memory) : Value → Prop
  | .array a => base.arrays.size ≤ a.index ∧ a.index < m.arrays.size
  | .dict d => base.dicts.size ≤ d.index ∧ d.index < m.dicts.size
  | _ => True

/-- There are no fewer containers. -/
structure Grows (m m' : Memory) : Prop where
  arrays : m.arrays.size ≤ m'.arrays.size
  dicts : m.dicts.size ≤ m'.dicts.size

theorem Grows.refl (m : Memory) : Grows m m := ⟨Nat.le_refl _, Nat.le_refl _⟩

theorem Grows.trans (h : Grows m m') (h' : Grows m' m'') : Grows m m'' :=
  ⟨Nat.le_trans h.arrays h'.arrays, Nat.le_trans h.dicts h'.dicts⟩

theorem Adds.mono (hv : Adds base m v) (h : Grows m m') : Adds base m' v := by
  cases v with
  | array a => exact ⟨hv.1, Nat.lt_of_lt_of_le hv.2 h.arrays⟩
  | dict d => exact ⟨hv.1, Nat.lt_of_lt_of_le hv.2 h.dicts⟩
  | _ => trivial

/-- The memory extends `base`, and its new cells, containers and scopes refer to new ones only. -/
structure Walled (base m : Memory) : Prop extends Extends base m where
  held : ∀ {c : CellId}, base.cells.size ≤ c.index → Adds base m (m.read c)
  slot : ∀ {a : ArrayId} {c}, base.arrays.size ≤ a.index → c ∈ m.slots a →
    base.cells.size ≤ c.index
  entry : ∀ {d : DictId} {key c}, base.dicts.size ≤ d.index → (m.entries d).get? key = some c →
    base.cells.size ≤ c.index
  bound : ∀ {s name c}, ¬ base.HasScope s → m.Binds s name c → base.cells.size ≤ c.index
  around : ∀ {s s'}, ¬ base.HasScope s → s' ∈ (m.scope s).around → ¬ base.HasScope s'

namespace Walled

/-- Where nothing is new, nothing has to be kept apart. -/
theorem start (base : Memory) : Walled base base where
  toExtends := .refl base
  held h := by
    rw [read_eq_void h]
    trivial
  slot ha hc := by
    rw [slots_eq_empty ha] at hc
    simp at hc
  entry hd hc := by
    rw [entries_eq_empty hd] at hc
    cases hc
  bound hs hc := absurd (hasScope_of_binds hc) hs
  around hs hs' := by
    rw [scope_eq_empty hs] at hs'
    cases hs'

/-! ## One part of the memory is replaced -/

/-- New cells may change. -/
theorem replaceCells (h : Walled base m) {cells : Array Value} (hsize : m.cells.size ≤ cells.size)
    (hcells : ∀ c, ({ m with cells } : Memory).read c = m.read c ∨
      base.cells.size ≤ c.index ∧ Adds base m (({ m with cells } : Memory).read c)) :
    Walled base { m with cells } where
  cellCount := Nat.le_trans h.cellCount hsize
  arrayCount := h.arrayCount
  dictCount := h.dictCount
  scopeCount := h.scopeCount
  read {c} hc := by
    rcases hcells c with hsame | ⟨hnew, -⟩
    · rw [hsame, h.read hc]
    · exact absurd hc (Nat.not_lt.mpr hnew)
  slots := h.slots
  entries := h.entries
  scope := h.scope
  held {c} hc := by
    rcases hcells c with hsame | ⟨-, hadds⟩
    · rw [hsame]
      exact h.held hc
    · exact hadds
  slot := h.slot
  entry := h.entry
  bound := h.bound
  around := h.around

/-- New arrays may change. -/
theorem replaceArrays (h : Walled base m) (arrays : Array (Array CellId))
    (hsize : m.arrays.size ≤ arrays.size)
    (harrays : ∀ a, ({ m with arrays } : Memory).slots a = m.slots a ∨
      base.arrays.size ≤ a.index ∧
        ∀ c ∈ ({ m with arrays } : Memory).slots a, base.cells.size ≤ c.index) :
    Walled base { m with arrays } where
  cellCount := h.cellCount
  arrayCount := Nat.le_trans h.arrayCount hsize
  dictCount := h.dictCount
  scopeCount := h.scopeCount
  read := h.read
  slots {a} ha := by
    rcases harrays a with hsame | ⟨hnew, -⟩
    · rw [hsame, h.slots ha]
    · exact absurd ha (Nat.not_lt.mpr hnew)
  entries := h.entries
  scope := h.scope
  held hc := (h.held hc).mono ⟨hsize, Nat.le_refl _⟩
  slot {a c} ha hc := by
    rcases harrays a with hsame | ⟨-, hnew⟩
    · rw [hsame] at hc
      exact h.slot ha hc
    · exact hnew c hc
  entry := h.entry
  bound := h.bound
  around := h.around

/-- New dictionaries may change. -/
theorem replaceDicts (h : Walled base m) (dicts : Array (Table CellId))
    (hsize : m.dicts.size ≤ dicts.size)
    (hdicts : ∀ d, ({ m with dicts } : Memory).entries d = m.entries d ∨
      base.dicts.size ≤ d.index ∧
        ∀ key c, (({ m with dicts } : Memory).entries d).get? key = some c →
          base.cells.size ≤ c.index) :
    Walled base { m with dicts } where
  cellCount := h.cellCount
  arrayCount := h.arrayCount
  dictCount := Nat.le_trans h.dictCount hsize
  scopeCount := h.scopeCount
  read := h.read
  slots := h.slots
  entries {d} hd := by
    rcases hdicts d with hsame | ⟨hnew, -⟩
    · rw [hsame, h.entries hd]
    · exact absurd hd (Nat.not_lt.mpr hnew)
  scope := h.scope
  held hc := (h.held hc).mono ⟨Nat.le_refl _, hsize⟩
  slot := h.slot
  entry {d key c} hd hc := by
    rcases hdicts d with hsame | ⟨-, hnew⟩
    · rw [hsame] at hc
      exact h.entry hd hc
    · exact hnew key c hc
  bound := h.bound
  around := h.around

/-- New scopes may change. -/
theorem replaceScopes (h : Walled base m) {scopes : Array Scope} (hsize : m.scopes.size ≤ scopes.size)
    (hscopes : ∀ s, ({ m with scopes } : Memory).scope s = m.scope s ∨ ¬ base.HasScope s ∧
      (∀ name c, ({ m with scopes } : Memory).Binds s name c → base.cells.size ≤ c.index) ∧
      ∀ s' ∈ (({ m with scopes } : Memory).scope s).around, ¬ base.HasScope s') :
    Walled base { m with scopes } where
  cellCount := h.cellCount
  arrayCount := h.arrayCount
  dictCount := h.dictCount
  scopeCount := Nat.le_trans h.scopeCount hsize
  read := h.read
  slots := h.slots
  entries := h.entries
  scope {s} hs := by
    rcases hscopes s with hsame | ⟨hnew, -⟩
    · rw [hsame, h.scope hs]
    · exact absurd hs hnew
  held := h.held
  slot := h.slot
  entry := h.entry
  bound {s name c} hs hc := by
    rcases hscopes s with hsame | ⟨-, hnew, -⟩
    · rw [Binds, hsame] at hc
      exact h.bound hs hc
    · exact hnew name c hc
  around {s s'} hs hs' := by
    rcases hscopes s with hsame | ⟨-, -, hnew⟩
    · rw [hsame] at hs'
      exact h.around hs hs'
    · exact hnew s' hs'

/-! ## New cells -/

theorem withCells (h : Walled base m) {vs : List Value} (hvs : ∀ v ∈ vs, Adds base m v) :
    Walled base (m.withCells vs) := by
  refine h.replaceCells (by simp) fun c => ?_
  rcases Nat.lt_or_ge c.index m.cells.size with hc | hc
  · exact .inl (read_withCells vs hc)
  · refine .inr ⟨Nat.le_trans h.cellCount hc, ?_⟩
    rcases read_withCells_new vs hc with hmem | hvoid
    · exact hvs _ hmem
    · have hadds : Adds base m ((m.withCells vs).read c) := by
        rw [hvoid]
        trivial
      exact hadds

theorem nextCells (h : Walled base m) {n : Nat} (hc : c ∈ m.nextCells n) :
    base.cells.size ≤ c.index :=
  Nat.le_trans h.cellCount (mem_nextCells.mp hc).1

theorem written (h : Walled base m) (hc : base.cells.size ≤ c.index) (hv : Adds base m v) :
    Walled base (m.written c v) := by
  refine h.replaceCells (by simp) fun c' => ?_
  by_cases hne : c' = c
  · subst hne
    rcases Nat.lt_or_ge c'.index m.cells.size with hlt | hge
    · refine .inr ⟨hc, ?_⟩
      have hadds : Adds base m ((m.written c' v).read c') := by
        rw [read_written_self hlt]
        exact hv
      exact hadds
    · refine .inl ?_
      rw [read_eq_void hge, read_eq_void (by simpa using hge)]
  · exact .inl (read_written_of_ne hne)

end Walled

/-! ## What the operations on memory keep to -/

/-- Memories that are walled off from `base`. -/
def walled (base : Memory) : Step.Law Memory := ⟨Walled base, Grows, Grows.refl, Grows.trans⟩

theorem walled_newArray {vs : List Value} (h : Walled base m) (hvs : ∀ v ∈ vs, Adds base m v) :
    (newArray vs).Obeys (walled base) m fun v t => Adds base t v := by
  have hcells := h.withCells hvs
  have hpush := hcells.replaceArrays (m.arrays.push (m.nextCells vs.length).toArray)
    (by simp [Memory.withCells]) fun a => ?_
  · exact .of_run (newArray_run vs m) hpush ⟨by simp, Nat.le_refl _⟩ ⟨h.arrayCount, by simp⟩
  · have hslots := slots_push (m.withCells vs) (m.nextCells vs.length).toArray a
    split_ifs at hslots with ha
    · refine .inr ⟨ha ▸ h.arrayCount, fun c hc => ?_⟩
      replace hc : c ∈ (m.nextCells vs.length).toArray := hslots ▸ hc
      exact h.nextCells (by simpa using hc)
    · exact .inl hslots

theorem walled_newDict {pairs : List (String × Value)} (h : Walled base m)
    (hpairs : ∀ p ∈ pairs, Adds base m p.2) :
    (newDict pairs).Obeys (walled base) m fun v t => Adds base t v := by
  obtain ⟨table, vs, hrun, hvs, hfresh⟩ := newDict_run pairs m
  have hcells : Walled base (m.withCells vs) := h.withCells fun v hv => by
    obtain ⟨p, hp, rfl⟩ := hvs v hv
    exact hpairs p hp
  have hpush := hcells.replaceDicts (m.dicts.push table)
    (by simp [Memory.withCells]) fun d => ?_
  · exact .of_run hrun hpush ⟨Nat.le_refl _, by simp⟩ ⟨h.dictCount, by simp⟩
  · have hentries := entries_push (m.withCells vs) table d
    split_ifs at hentries with hd
    · refine .inr ⟨hd ▸ h.dictCount, fun key c hc => h.nextCells (hfresh key c ?_)⟩
      exact hentries ▸ hc
    · exact .inl hentries

theorem walled_growArray {a : ArrayId} (size : Nat) (h : Walled base m)
    (ha : Adds base m (.array a)) :
    (growArray a size).Obeys (walled base) m fun _ t => size ≤ (t.slots a).size := by
  obtain ⟨n, hrun, -⟩ := growArray_run a size m
  have hcells : Walled base (m.withCells (List.replicate n .void)) := h.withCells fun v hv => by
    rw [List.eq_of_mem_replicate hv]
    trivial
  have hgrown := size_growArray size ha.2
  rw [hrun] at hgrown
  have hset := hcells.replaceArrays
    (m.arrays.setIfInBounds a.index (m.slots a ++ (m.nextCells n).toArray))
    (by simp [Memory.withCells]) fun a' => ?_
  · exact .of_run hrun hset ⟨by simp, Nat.le_refl _⟩ hgrown
  · have hslots := slots_set (m.withCells (List.replicate n .void)) a a'
      (m.slots a ++ (m.nextCells n).toArray)
    split_ifs at hslots with ha'
    · refine .inr ⟨ha'.1 ▸ ha.1, fun c hc => ?_⟩
      replace hc : c ∈ m.slots a ++ (m.nextCells n).toArray := hslots ▸ hc
      rcases Array.mem_append.mp hc with hold | hnew
      · exact h.slot ha.1 hold
      · exact h.nextCells (by simpa using hnew)
    · exact .inl hslots

theorem walled_slotCell {a : ArrayId} (i : Int32) (h : Walled base m)
    (ha : Adds base m (.array a)) :
    (slotCell a i).Obeys (walled base) m fun c _ => base.cells.size ≤ c.index := by
  unfold slotCell
  split
  · exact .fault h
  · refine (walled_growArray _ h ha).bind fun _ t ht _ hsize => ?_
    refine (Step.Idle.look _).obeys ht fun c hc => ht.slot (a := a) ha.1 ?_
    cases hc
    exact getD_mem_slots hsize ⟨0⟩

theorem walled_entryCell {d : DictId} (key : String) (h : Walled base m)
    (hd : Adds base m (.dict d)) :
    (entryCell d key).Obeys (walled base) m fun c _ => base.cells.size ≤ c.index := by
  refine (Step.Idle.look _).obeys_bind h fun found hfound => ?_
  replace hfound : (m.entries d).get? key = found := Outcome.ok.inj (Prod.ext_iff.mp hfound).1
  cases found with
  | some c => exact .pure h (h.entry hd.1 hfound)
  | none =>
    have hcells : Walled base (m.withCells [.void]) := h.withCells (by simp [Adds])
    have hset := hcells.replaceDicts
      (m.dicts.setIfInBounds d.index ((m.entries d).insert key ⟨m.cells.size⟩))
      (by simp [Memory.withCells]) fun d' => ?_
    · exact .of_run (Step.bind_run_ok (newCell_run .void m) _) hset ⟨Nat.le_refl _, by simp [Memory.withCells]⟩
        h.cellCount
    · have hentries := entries_set (m.withCells [.void]) d d'
        ((m.entries d).insert key ⟨m.cells.size⟩)
      split_ifs at hentries with hd'
      · refine .inr ⟨hd'.1 ▸ hd.1, fun key' c hc => ?_⟩
        replace hc : ((m.entries d).insert key ⟨m.cells.size⟩).get? key' = some c := hentries ▸ hc
        rw [Table.get?_insert] at hc
        split_ifs at hc
        · cases hc
          exact h.cellCount
        · exact h.entry hd.1 hc
      · exact .inl hentries

theorem walled_write (h : Walled base m) (hc : base.cells.size ≤ c.index) (hv : Adds base m v) :
    (write c v).Obeys (walled base) m fun _ _ => True :=
  .of_run (write_run c v m) (h.written hc hv) ⟨Nat.le_refl _, Nat.le_refl _⟩ trivial

/-- A name of a new scope is bound to a new cell. -/
theorem Walled.bound_next (h : Walled base m) (hs : ¬ base.HasScope s) (hv : Adds base m v) :
    Walled base ((m.withCells [v]).bound s name ⟨m.cells.size⟩) := by
  refine (h.withCells (List.forall_mem_singleton.mpr hv)).replaceScopes (by simp) fun s' => ?_
  show ((m.withCells [v]).bound s name ⟨m.cells.size⟩).scope s' = _ ∨ _
  by_cases hss : s' = s
  · subst hss
    by_cases hexists : (m.withCells [v]).HasScope s'
    · refine .inr ⟨hs, fun name' c hc => ?_, fun s'' hs'' => ?_⟩
      · replace hc := (binds_bound_iff hexists).mp hc
        split_ifs at hc
        · exact hc ▸ h.cellCount
        · exact h.bound hs hc
      · replace hs'' : s'' ∈ (m.scope s').around := around_bound hexists ▸ hs''
        exact h.around hs hs''
    · refine .inl ?_
      rw [scope_eq_empty hexists, scope_eq_empty fun hbound => hexists (hasScope_bound.mp hbound)]
  · exact .inl (scope_bound_of_ne hss)

theorem Walled.adds_getVar (h : Walled base m) (hs : ¬ base.HasScope s) (name : String) :
    Adds base m (m.getVar s name) := by
  unfold getVar
  split
  · rename_i c hc
    obtain ⟨s', hs', hget⟩ := List.exists_of_findSome?_eq_some hc
    refine h.held (h.bound (s := s') ?_ hget)
    rcases List.mem_cons.mp hs' with rfl | haround
    · exact hs
    · exact h.around hs haround
  · trivial

theorem walled_setVar (name : String) (h : Walled base m) (hs : ¬ base.HasScope s)
    (hv : Adds base m v) : (setVar s name v).Obeys (walled base) m fun _ _ => True := by
  cases hname : (m.scope s).vars.get? name with
  | some c =>
    exact .of_run (setVar_of_bound hname) (h.written (h.bound hs hname) hv)
      ⟨Nat.le_refl _, Nat.le_refl _⟩ trivial
  | none =>
    exact .of_run (setVar_of_not_bound hname) (h.bound_next hs hv)
      ⟨Nat.le_refl _, Nat.le_refl _⟩ trivial

theorem walled_varCell (name : String) (h : Walled base m) (hs : ¬ base.HasScope s) :
    (varCell s name).Obeys (walled base) m fun c _ => base.cells.size ≤ c.index := by
  cases hname : (m.scope s).vars.get? name with
  | some c => exact .of_run (varCell_of_bound hname) h (.refl m) (h.bound hs hname)
  | none =>
    exact .of_run (varCell_of_not_bound hname) (h.bound_next hs (h.adds_getVar hs name))
      ⟨Nat.le_refl _, Nat.le_refl _⟩ h.cellCount

theorem Walled.newScope (h : Walled base m) {outer : Option ScopeId}
    (houter : ∀ o, outer = some o → ¬ base.HasScope o) : Walled base (Memory.newScope outer m).2 := by
  refine h.replaceScopes (by simp) fun s => ?_
  show (Memory.newScope outer m).2.scope s = _ ∨ _
  have hscope := scope_newScope outer m s
  split_ifs at hscope with hs
  · have hnew : ¬ base.HasScope s := fun hbase =>
      absurd (Nat.lt_of_lt_of_le hbase h.scopeCount) (by simp [hs])
    refine .inr ⟨hnew, fun name c hc => h.bound hnew (binds_newScope_iff.mp hc), fun s' hs' => ?_⟩
    replace hs' : s' ∈ ((Memory.newScope outer m).2.scope s).around := hs'
    rw [hscope] at hs'
    cases outer with
    | none => cases hs'
    | some o =>
      rcases List.mem_cons.mp hs' with rfl | haround
      · exact houter _ rfl
      · exact h.around (houter o rfl) haround
  · exact .inl hscope

theorem Walled.not_hasScope_next (h : Walled base m) : ¬ base.HasScope ⟨m.scopes.size⟩ :=
  Nat.not_lt.mpr h.scopeCount

theorem walled_newScope (h : Walled base m) {outer : Option ScopeId}
    (houter : ∀ o, outer = some o → ¬ base.HasScope o) :
    (newScope outer).Obeys (walled base) m fun s _ => ¬ base.HasScope s :=
  .of_run (newScope_run outer m) (h.newScope houter) ⟨Nat.le_refl _, Nat.le_refl _⟩
    h.not_hasScope_next

/-! ## What can be reached -/

/-- The cell is an element of the array, or an entry of the dictionary. -/
def Has (m : Memory) : Value → CellId → Prop
  | .array a, c => c ∈ m.slots a
  | .dict d, c => ∃ key, (m.entries d).get? key = some c
  | _, _ => False

/-- The cell is in the container, or in one that a cell in it holds, and so on. -/
inductive Reaches (m : Memory) (v : Value) : CellId → Prop
  | here {c : CellId} : m.Has v c → Reaches m v c
  | deeper {c c' : CellId} : Reaches m v c → m.Has (m.read c) c' → Reaches m v c'

theorem Walled.has (h : Walled base m) (hv : Adds base m v) (hc : m.Has v c) :
    base.cells.size ≤ c.index := by
  cases v with
  | array a => exact h.slot hv.1 hc
  | dict d =>
    obtain ⟨key, hkey⟩ := hc
    exact h.entry hv.1 hkey
  | _ => exact hc.elim

/-- Nothing of the base is reached from a new container. -/
theorem Walled.reaches (h : Walled base m) (hv : Adds base m v) (hc : m.Reaches v c) :
    base.cells.size ≤ c.index := by
  induction hc with
  | here hc => exact h.has hv hc
  | deeper _ hc ih => exact h.has (h.held ih) hc

end Kiln.Memory
