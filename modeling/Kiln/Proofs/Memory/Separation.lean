import Kiln.Proofs.Memory.Operations

/-!
# Kiln.Proofs.Memory.Separation — the cells of variables are apart

In a well-formed memory the cell of a variable belongs to one name of one scope and lies in no
container, and whatever is referred to exists.  The operations keep this up, because a cell is bound
or stored only when it is new.

`Evolves cur` is what may become of a memory while the scope `cur` is the innermost: scopes other
than `cur` that exist keep their variables and the values of them.  Contents of containers and the
variables of `cur` may change, and anything new may come.
-/

namespace Kiln.Memory

variable {m m' m'' : Memory} {s s' cur : ScopeId} {name name' : String} {c c' : CellId} {v : Value}

/-- The cell of a variable belongs to one name of one scope and lies in no container. -/
structure Separate (m : Memory) : Prop where
  unique : ∀ {s s' name name' c}, m.Binds s name c → m.Binds s' name' c → s = s' ∧ name = name'
  apart : ∀ {s name c}, m.Binds s name c → ¬ m.Contains c

/-- The cells of variables are apart, and whatever is referred to exists. -/
structure WellFormed (m : Memory) : Prop extends Separate m where
  held : ∀ c, m.Holds (m.read c)
  bound : ∀ {s name c}, m.Binds s name c → c.index < m.cells.size
  contained : ∀ {c}, m.Contains c → c.index < m.cells.size
  around : ∀ {s s'}, s' ∈ (m.scope s).around → m.HasScope s'

/-- The cell exists, and neither a variable nor a container has it. -/
structure Fresh (m : Memory) (c : CellId) : Prop where
  allocated : c.index < m.cells.size
  unbound : ∀ s name, ¬ m.Binds s name c
  uncontained : ¬ m.Contains c

/-- The scope, and the value of every variable of it, are the same. -/
def Untouched (s : ScopeId) (m m' : Memory) : Prop :=
  m'.scope s = m.scope s ∧ ∀ name c, m.Binds s name c → m'.read c = m.read c

/-- What may become of a memory while `cur` is the innermost scope. -/
structure Evolves (cur : ScopeId) (m m' : Memory) : Prop where
  arrays : m.arrays.size ≤ m'.arrays.size
  dicts : m.dicts.size ≤ m'.dicts.size
  scopes : m.scopes.size ≤ m'.scopes.size
  contains : ∀ {c}, m.Contains c → m'.Contains c
  binds : ∀ {name c}, m.Binds cur name c → m'.Binds cur name c
  untouched : ∀ {s}, m.HasScope s → s ≠ cur → Untouched s m m'

namespace Untouched

theorem binds_iff (h : Untouched s m m') : m'.Binds s name c ↔ m.Binds s name c := by
  rw [Binds, Binds, h.1]

theorem trans (h : Untouched s m m') (h' : Untouched s m' m'') : Untouched s m m'' :=
  ⟨h'.1.trans h.1, fun name c hc => (h'.2 name c (h.binds_iff.mpr hc)).trans (h.2 name c hc)⟩

end Untouched

namespace Evolves

theorem refl (cur : ScopeId) (m : Memory) : Evolves cur m m :=
  ⟨Nat.le_refl _, Nat.le_refl _, Nat.le_refl _, id, id, fun _ _ => ⟨rfl, fun _ _ _ => rfl⟩⟩

theorem hasScope (h : Evolves cur m m') (hs : m.HasScope s) : m'.HasScope s :=
  Nat.lt_of_lt_of_le hs h.scopes

theorem holds (h : Evolves cur m m') (hv : m.Holds v) : m'.Holds v := hv.mono h.arrays h.dicts

theorem trans (h : Evolves cur m m') (h' : Evolves cur m' m'') : Evolves cur m m'' where
  arrays := Nat.le_trans h.arrays h'.arrays
  dicts := Nat.le_trans h.dicts h'.dicts
  scopes := Nat.le_trans h.scopes h'.scopes
  contains hc := h'.contains (h.contains hc)
  binds hc := h'.binds (h.binds hc)
  untouched hs hne := (h.untouched hs hne).trans (h'.untouched (h.hasScope hs) hne)

/-- What happens while a newer scope is the innermost touches no older scope at all. -/
theorem outside {inner : ScopeId} (h : Evolves inner m m') (hinner : ¬ m.HasScope inner) :
    Evolves cur m m' := by
  have hne {s : ScopeId} (hs : m.HasScope s) : s ≠ inner := fun he => hinner (he ▸ hs)
  refine ⟨h.arrays, h.dicts, h.scopes, h.contains, fun hc => ?_, fun hs _ => h.untouched hs (hne hs)⟩
  have hcur := hasScope_of_binds hc
  exact (h.untouched hcur (hne hcur)).binds_iff.mpr hc

end Evolves

/-! ## New cells -/

section NewCells

variable {vs : List Value}

theorem evolves_withCells (h : m.WellFormed) (cur : ScopeId) (vs : List Value) :
    Evolves cur m (m.withCells vs) :=
  ⟨Nat.le_refl _, Nat.le_refl _, Nat.le_refl _, id, id, fun _ _ => ⟨rfl, fun _ _ hc => read_withCells vs (h.bound hc)⟩⟩

theorem WellFormed.withCells (h : m.WellFormed) (hvs : ∀ v ∈ vs, m.Holds v) :
    (m.withCells vs).WellFormed where
  unique := h.unique
  apart := h.apart
  held c := by
    rcases Nat.lt_or_ge c.index m.cells.size with hc | hc
    · rw [read_withCells vs hc]
      exact h.held c
    · rcases read_withCells_new vs hc with hmem | hvoid
      · exact hvs _ hmem
      · rw [hvoid]
        trivial
  bound hc := by
    have := h.bound hc
    simp only [Memory.withCells, Array.size_append]
    omega
  contained hc := by
    have := h.contained hc
    simp only [Memory.withCells, Array.size_append]
    omega
  around := h.around

theorem WellFormed.fresh_nextCells (h : m.WellFormed) (hc : c ∈ m.nextCells vs.length) :
    (m.withCells vs).Fresh c := by
  obtain ⟨hge, hlt⟩ := mem_nextCells.mp hc
  refine ⟨?_, fun s name hbinds => ?_, fun hcontains => ?_⟩
  · simpa [Memory.withCells] using hlt
  · exact absurd (h.bound hbinds) (Nat.not_lt.mpr hge)
  · exact absurd (h.contained hcontains) (Nat.not_lt.mpr hge)

end NewCells

/-! ## Storing cells in containers -/

/-- Only containers changed: they lost nothing and took in fresh cells. -/
structure Stores (m m' : Memory) : Prop where
  cells : m'.cells = m.cells
  scopes : m'.scopes = m.scopes
  arrays : m.arrays.size ≤ m'.arrays.size
  dicts : m.dicts.size ≤ m'.dicts.size
  contains : ∀ {c}, m.Contains c → m'.Contains c
  fresh : ∀ {c}, m'.Contains c → m.Contains c ∨ m.Fresh c

namespace Stores

theorem read (h : Stores m m') (c : CellId) : m'.read c = m.read c := by
  rw [Memory.read, Memory.read, h.cells]

theorem scope (h : Stores m m') (s : ScopeId) : m'.scope s = m.scope s := by
  rw [Memory.scope, Memory.scope, h.scopes]

theorem binds_iff (h : Stores m m') : m'.Binds s name c ↔ m.Binds s name c := by
  rw [Binds, Binds, h.scope]

theorem evolves (h : Stores m m') (cur : ScopeId) : Evolves cur m m' where
  arrays := h.arrays
  dicts := h.dicts
  scopes := Nat.le_of_eq (congrArg Array.size h.scopes.symm)
  contains := h.contains
  binds := h.binds_iff.mpr
  untouched _ _ := ⟨h.scope _, fun _ c _ => h.read c⟩

theorem wellFormed (h : Stores m m') (hm : m.WellFormed) : m'.WellFormed where
  unique hc hc' := hm.unique (h.binds_iff.mp hc) (h.binds_iff.mp hc')
  apart hc hcontains := by
    have hbinds := h.binds_iff.mp hc
    rcases h.fresh hcontains with hold | hnew
    · exact hm.apart hbinds hold
    · exact hnew.unbound _ _ hbinds
  held c := by
    rw [h.read]
    exact (h.evolves ⟨0⟩).holds (hm.held c)
  bound hc := by
    rw [h.cells]
    exact hm.bound (h.binds_iff.mp hc)
  contained hc := by
    rw [h.cells]
    rcases h.fresh hc with hold | hnew
    · exact hm.contained hold
    · exact hnew.allocated
  around hs := by
    rw [h.scope] at hs
    exact (h.evolves ⟨0⟩).hasScope (hm.around hs)

end Stores

theorem slots_push (m : Memory) (cells : Array CellId) (a : ArrayId) :
    ({ m with arrays := m.arrays.push cells } : Memory).slots a =
      if a.index = m.arrays.size then cells else m.slots a := by
  simp only [slots, Array.getD_eq_getD_getElem?, Array.getElem?_push]
  split <;> rfl

theorem entries_push (m : Memory) (t : Table CellId) (d : DictId) :
    ({ m with dicts := m.dicts.push t } : Memory).entries d =
      if d.index = m.dicts.size then t else m.entries d := by
  simp only [entries, Array.getD_eq_getD_getElem?, Array.getElem?_push]
  split <;> rfl

/-- A new array of fresh cells. -/
theorem stores_push_array {cells : Array CellId} (hcells : ∀ c ∈ cells, m.Fresh c) :
    Stores m { m with arrays := m.arrays.push cells } where
  cells := rfl
  scopes := rfl
  arrays := by simp
  dicts := Nat.le_refl _
  contains := by
    rintro c (⟨a, hc⟩ | hc)
    · refine .inl ⟨a, ?_⟩
      have ha : a.index < m.arrays.size := by
        refine Decidable.byContradiction fun ha => ?_
        rw [slots_eq_empty (Nat.not_lt.mp ha)] at hc
        simp at hc
      rw [slots_push, if_neg (Nat.ne_of_lt ha)]
      exact hc
    · exact .inr hc
  fresh := by
    rintro c (⟨a, hc⟩ | hc)
    · rw [slots_push] at hc
      split_ifs at hc
      · exact .inr (hcells c hc)
      · exact .inl (.inl ⟨a, hc⟩)
    · exact .inl (.inr hc)

/-- A new dictionary of fresh cells. -/
theorem stores_push_dict {t : Table CellId} (ht : ∀ key c, t.get? key = some c → m.Fresh c) :
    Stores m { m with dicts := m.dicts.push t } where
  cells := rfl
  scopes := rfl
  arrays := Nat.le_refl _
  dicts := by simp
  contains := by
    rintro c (hc | ⟨d, key, hc⟩)
    · exact .inl hc
    · refine .inr ⟨d, key, ?_⟩
      have hd : d.index < m.dicts.size := by
        refine Decidable.byContradiction fun hd => ?_
        rw [entries_eq_empty (Nat.not_lt.mp hd)] at hc
        cases hc
      rw [entries_push, if_neg (Nat.ne_of_lt hd)]
      exact hc
  fresh := by
    rintro c (hc | ⟨d, key, hc⟩)
    · exact .inl (.inl hc)
    · rw [entries_push] at hc
      split_ifs at hc
      · exact .inr (ht key c hc)
      · exact .inl (.inr ⟨d, key, hc⟩)

theorem slots_set (m : Memory) (a a' : ArrayId) (cells : Array CellId) :
    ({ m with arrays := m.arrays.setIfInBounds a.index cells } : Memory).slots a' =
      if a' = a ∧ a.index < m.arrays.size then cells else m.slots a' := by
  simp only [slots, Array.getD_eq_getD_getElem?]
  by_cases ha : a' = a
  · subst ha
    by_cases hlt : a'.index < m.arrays.size
    · simp [hlt]
    · simp [Array.setIfInBounds, hlt]
  · have hne : a.index ≠ a'.index := fun he => ha (by cases a; cases a'; simp_all)
    simp [ha, hne]

/-- An array that exists is as long as it was asked to grow. -/
theorem size_growArray {a : ArrayId} (size : Nat) (ha : m.Holds (.array a)) :
    size ≤ ((growArray a size m).2.slots a).size := by
  obtain ⟨n, hrun, hsize⟩ := growArray_run a size m
  have hgrown : size ≤ (m.slots a ++ (m.nextCells n).toArray).size := by
    simp only [nextCells, Array.size_append, List.size_toArray, List.length_map,
      List.length_range']
    omega
  have hslots := slots_set (m.withCells (List.replicate n .void)) a a
    (m.slots a ++ (m.nextCells n).toArray)
  rw [if_pos ⟨rfl, ha⟩] at hslots
  rw [← hslots] at hgrown
  rw [hrun]
  exact hgrown

/-- The cell at a position below its length is in the array. -/
theorem getD_mem_slots {a : ArrayId} {i : Nat} (hi : i < (m.slots a).size) (c : CellId) :
    (m.slots a).getD i c ∈ m.slots a := by
  rw [Array.getD_eq_getD_getElem?, Array.getElem?_eq_getElem hi, Option.getD_some]
  exact Array.getElem_mem _

theorem entries_set (m : Memory) (d d' : DictId) (t : Table CellId) :
    ({ m with dicts := m.dicts.setIfInBounds d.index t } : Memory).entries d' =
      if d' = d ∧ d.index < m.dicts.size then t else m.entries d' := by
  simp only [entries, Array.getD_eq_getD_getElem?]
  by_cases hd : d' = d
  · subst hd
    by_cases hlt : d'.index < m.dicts.size
    · simp [hlt]
    · simp [Array.setIfInBounds, hlt]
  · have hne : d.index ≠ d'.index := fun he => hd (by cases d; cases d'; simp_all)
    simp [hd, hne]

/-- An array with fresh cells at its end. -/
theorem stores_append {a : ArrayId} {cells : Array CellId} (hcells : ∀ c ∈ cells, m.Fresh c) :
    Stores m { m with arrays := m.arrays.setIfInBounds a.index (m.slots a ++ cells) } where
  cells := rfl
  scopes := rfl
  arrays := by simp
  dicts := Nat.le_refl _
  contains := by
    rintro c (⟨a', hc⟩ | hc)
    · refine .inl ⟨a', ?_⟩
      rw [slots_set]
      split_ifs with h
      · rw [h.1] at hc
        exact Array.mem_append_left _ hc
      · exact hc
    · exact .inr hc
  fresh := by
    rintro c (⟨a', hc⟩ | hc)
    · rw [slots_set] at hc
      split_ifs at hc
      · rcases Array.mem_append.mp hc with hold | hnew
        · exact .inl (.inl ⟨a, hold⟩)
        · exact .inr (hcells c hnew)
      · exact .inl (.inl ⟨a', hc⟩)
    · exact .inl (.inr hc)

/-- A dictionary with a fresh cell under a key it did not have. -/
theorem stores_insert {d : DictId} {key : String} (hkey : (m.entries d).get? key = none)
    (hc : m.Fresh c) :
    Stores m { m with dicts := m.dicts.setIfInBounds d.index ((m.entries d).insert key c) } where
  cells := rfl
  scopes := rfl
  arrays := Nat.le_refl _
  dicts := by simp
  contains := by
    rintro c' (hc' | ⟨d', key', hc'⟩)
    · exact .inl hc'
    · refine .inr ⟨d', key', ?_⟩
      rw [entries_set]
      split_ifs with h
      · rw [h.1] at hc'
        rw [Table.get?_insert, if_neg, hc']
        rintro rfl
        rw [hkey] at hc'
        cases hc'
      · exact hc'
  fresh := by
    rintro c' (hc' | ⟨d', key', hc'⟩)
    · exact .inl (.inl hc')
    · rw [entries_set] at hc'
      split_ifs at hc'
      · rw [Table.get?_insert] at hc'
        split_ifs at hc'
        · cases hc'
          exact .inr hc
        · exact .inl (.inr ⟨d, key', hc'⟩)
      · exact .inl (.inr ⟨d', key', hc'⟩)

/-! ## Variables -/

theorem binds_bound_iff (hs : m.HasScope s) :
    (m.bound s name c).Binds s' name' c' ↔
      if s' = s ∧ name' = name then c' = c else m.Binds s' name' c' := by
  by_cases hss : s' = s
  · subst hss
    rw [Binds, scope_bound_self hs, Table.get?_insert]
    by_cases hn : name' = name
    · simp [hn, eq_comm]
    · simp [hn, Binds]
  · rw [Binds, scope_bound_of_ne hss]
    simp [hss, Binds]

theorem around_bound (hs : m.HasScope s) :
    ((m.bound s name c).scope s').around = (m.scope s').around := by
  by_cases hss : s' = s
  · subst hss
    rw [scope_bound_self hs]
  · rw [scope_bound_of_ne hss]

theorem hasScope_bound : (m.bound s name c).HasScope s' ↔ m.HasScope s' := by
  simp [HasScope, bound, bind, Step.change]

/-- A name that is not bound in a scope is bound to a fresh cell. -/
theorem WellFormed.bind_fresh (h : m.WellFormed) (hs : m.HasScope s) (hc : m.Fresh c) :
    (m.bound s name c).WellFormed where
  unique := by
    intro s₁ s₂ name₁ name₂ c' h₁ h₂
    rw [binds_bound_iff hs] at h₁ h₂
    split_ifs at h₁ h₂ with hb₁ hb₂ hb₂
    · exact ⟨hb₁.1.trans hb₂.1.symm, hb₁.2.trans hb₂.2.symm⟩
    · subst h₁
      exact absurd h₂ (hc.unbound _ _)
    · subst h₂
      exact absurd h₁ (hc.unbound _ _)
    · exact h.unique h₁ h₂
  apart := by
    intro s₁ name₁ c' h₁
    rw [binds_bound_iff hs] at h₁
    split_ifs at h₁ with hb₁
    · subst h₁
      exact hc.uncontained
    · exact h.apart h₁
  held := h.held
  bound := by
    intro s₁ name₁ c' h₁
    rw [binds_bound_iff hs] at h₁
    split_ifs at h₁ with hb₁
    · subst h₁
      exact hc.allocated
    · exact h.bound h₁
  contained hc' := h.contained hc'
  around hs' := by
    rw [around_bound hs] at hs'
    exact hasScope_bound.mpr (h.around hs')

theorem evolves_bound (hs : m.HasScope s) (hname : (m.scope s).vars.get? name = none) :
    Evolves s m (m.bound s name c) where
  arrays := Nat.le_refl _
  dicts := Nat.le_refl _
  scopes := by simp [bound, bind, Step.change]
  contains := id
  binds hc := by
    rw [binds_bound_iff hs, if_neg]
    · exact hc
    · rintro ⟨-, rfl⟩
      rw [Binds, hname] at hc
      cases hc
  untouched _ hne := ⟨scope_bound_of_ne hne, fun _ _ _ => rfl⟩

/-- The cell is one that the innermost scope can write. -/
def Owned (cur : ScopeId) (m : Memory) (c : CellId) : Prop :=
  m.Contains c ∨ ∃ name, m.Binds cur name c

theorem Owned.evolves (h : Owned cur m c) (hm : Evolves cur m m') : Owned cur m' c := by
  rcases h with hc | ⟨name, hc⟩
  · exact .inl (hm.contains hc)
  · exact .inr ⟨name, hm.binds hc⟩

theorem WellFormed.written (h : m.WellFormed) (hv : m.Holds v) : (m.written c v).WellFormed where
  unique := h.unique
  apart := h.apart
  held c' := by
    by_cases hc : c' = c
    · subst hc
      rcases Nat.lt_or_ge c'.index m.cells.size with hlt | hge
      · rw [read_written_self hlt]
        exact hv
      · rw [read_eq_void (by simpa [Memory.written, write, Step.change] using hge)]
        trivial
    · rw [read_written_of_ne hc]
      exact h.held c'
  bound hc := by simpa [Memory.written, write, Step.change] using h.bound hc
  contained hc := by simpa [Memory.written, write, Step.change] using h.contained hc
  around := h.around

theorem WellFormed.evolves_written (h : m.WellFormed) (hc : Owned cur m c) :
    Evolves cur m (m.written c v) := by
  refine ⟨Nat.le_refl _, Nat.le_refl _, Nat.le_refl _, id, id, fun {s} _ hne => ⟨rfl, ?_⟩⟩
  intro name c' hbinds
  refine read_written_of_ne ?_
  rintro rfl
  rcases hc with hcontained | ⟨name', hcur⟩
  · exact h.apart hbinds hcontained
  · exact hne (h.unique hbinds hcur).1

/-! ## New scopes -/

theorem scope_newScope (outer : Option ScopeId) (m : Memory) (s : ScopeId) :
    (newScope outer m).2.scope s =
      if s.index = m.scopes.size then
        ⟨.empty, match outer with | some o => o :: (m.scope o).around | none => []⟩
      else m.scope s := by
  simp only [newScope, scope, Array.getD_eq_getD_getElem?, Array.getElem?_push]
  split <;> rfl

theorem binds_newScope_iff {outer : Option ScopeId} :
    (newScope outer m).2.Binds s name c ↔ m.Binds s name c := by
  rw [Binds, scope_newScope]
  split_ifs with hs
  · have hnone : ¬ m.Binds s name c := fun hc =>
      absurd (hasScope_of_binds hc) (by simp [HasScope, hs])
    simp [hnone]
  · rfl

theorem evolves_newScope (outer : Option ScopeId) (m : Memory) (cur : ScopeId) :
    Evolves cur m (newScope outer m).2 where
  arrays := Nat.le_refl _
  dicts := Nat.le_refl _
  scopes := by simp [newScope]
  contains := id
  binds := binds_newScope_iff.mpr
  untouched hs _ := by
    refine ⟨?_, fun _ _ _ => rfl⟩
    rw [scope_newScope, if_neg (Nat.ne_of_lt hs)]

theorem WellFormed.newScope (h : m.WellFormed) {outer : Option ScopeId}
    (houter : ∀ o, outer = some o → m.HasScope o) : (newScope outer m).2.WellFormed where
  unique hc hc' := h.unique (binds_newScope_iff.mp hc) (binds_newScope_iff.mp hc')
  apart hc := h.apart (binds_newScope_iff.mp hc)
  held := h.held
  bound hc := h.bound (binds_newScope_iff.mp hc)
  contained := h.contained
  around := by
    intro s s' hs
    refine (evolves_newScope outer m ⟨0⟩).hasScope ?_
    rw [scope_newScope] at hs
    split_ifs at hs
    · cases outer with
      | none => cases hs
      | some o =>
        rcases List.mem_cons.mp hs with rfl | hs
        · exact houter _ rfl
        · exact h.around hs
    · exact h.around hs

end Kiln.Memory
