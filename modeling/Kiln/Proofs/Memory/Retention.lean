import Mathlib.Data.List.Sort
import Kiln.Proofs.Memory.Separation

/-!
# Kiln.Proofs.Memory.Retention — containers lose nothing

An array that grows has its old cells in front, each at its old position, and a dictionary that grows
has its old cells under its old keys, among which the new keys take their places.  No operation does
anything else to a container that there is, whatever refers to it: values change in the cells, and
what is put together from other containers is a new one.
-/

namespace Kiln

namespace Table

variable {α : Type} {s t : Table α}

theorem keys_ordered (t : Table α) : t.keys.Pairwise (· < ·) := List.pairwise_map.mpr t.ordered

/-- New keys leave the order of the old ones as it is. -/
theorem Extends.keys_sublist (h : t.Extends s) : s.keys.Sublist t.keys := by
  have hnodup : s.keys.Nodup := by
    refine s.keys_ordered.imp ?_
    rintro k _ hlt rfl
    exact String.lt_irrefl k hlt
  have hsubset : s.keys ⊆ t.keys := fun k hk => mem_keys_iff.mpr (h.contains (mem_keys_iff.mp hk))
  exact List.sublist_of_subperm_of_pairwise (List.subperm_of_subset hnodup hsubset)
    s.keys_ordered t.keys_ordered

end Table

namespace Memory

variable {m m' m'' : Memory} {s : ScopeId} {name : String} {c : CellId} {v : Value}

/-- The containers of `m` are in `m'`, with their cells where they were. -/
structure Retains (m m' : Memory) : Prop where
  arrays : m.arrays.size ≤ m'.arrays.size
  dicts : m.dicts.size ≤ m'.dicts.size
  /-- The cells of an array are those it had and maybe more at the end. -/
  slots : ∀ a, (m.slots a).toList <+: (m'.slots a).toList
  /-- Every key of a dictionary has the cell it had. -/
  entries : ∀ d, (m'.entries d).Extends (m.entries d)
  /-- The keys of a dictionary stand in their order, and none stands there twice. -/
  ordered : ∀ d, (m'.entries d).keys.Pairwise (· < ·)
  /-- New keys come between the old ones. -/
  keys : ∀ d, (m.entries d).keys.Sublist (m'.entries d).keys

namespace Retains

theorem of_slots_entries (harrays : m.arrays.size ≤ m'.arrays.size)
    (hdicts : m.dicts.size ≤ m'.dicts.size)
    (hslots : ∀ a, (m.slots a).toList <+: (m'.slots a).toList)
    (hentries : ∀ d, (m'.entries d).Extends (m.entries d)) : Retains m m' where
  arrays := harrays
  dicts := hdicts
  slots := hslots
  entries := hentries
  ordered d := (m'.entries d).keys_ordered
  keys d := (hentries d).keys_sublist

/-- Cells and scopes are no containers. -/
theorem of_containers (harrays : m'.arrays = m.arrays) (hdicts : m'.dicts = m.dicts) :
    Retains m m' := by
  have hslots (a : ArrayId) : m'.slots a = m.slots a := by rw [Memory.slots, Memory.slots, harrays]
  have hentries (d : DictId) : m'.entries d = m.entries d := by
    rw [Memory.entries, Memory.entries, hdicts]
  refine of_slots_entries (by rw [harrays]) (by rw [hdicts]) (fun a => ?_) fun d => ?_
  · exact hslots a ▸ List.prefix_refl _
  · exact hentries d ▸ .refl _

theorem refl (m : Memory) : Retains m m := of_containers rfl rfl

theorem trans (h : Retains m m') (h' : Retains m' m'') : Retains m m'' :=
  of_slots_entries (Nat.le_trans h.arrays h'.arrays) (Nat.le_trans h.dicts h'.dicts)
    (fun a => (h.slots a).trans (h'.slots a)) fun d => (h.entries d).trans (h'.entries d)

/-- An array is as long as it was. -/
theorem size_slots (h : Retains m m') (a : ArrayId) : (m.slots a).size ≤ (m'.slots a).size := by
  simpa using (h.slots a).length_le

/-- A cell of an array stays at its position. -/
theorem getElem?_slots (h : Retains m m') {a : ArrayId} {i : Nat} (hc : (m.slots a)[i]? = some c) :
    (m'.slots a)[i]? = some c := by
  obtain ⟨more, hmore⟩ := h.slots a
  rw [← Array.getElem?_toList] at hc ⊢
  obtain ⟨hi, -⟩ := List.getElem?_eq_some_iff.mp hc
  rw [← hmore, List.getElem?_append_left hi, hc]

/-! ## Containers that are made or grow -/

theorem push_array (m : Memory) (cells : Array CellId) :
    Retains m { m with arrays := m.arrays.push cells } := by
  refine of_slots_entries (by simp) (Nat.le_refl _) (fun a => ?_) fun d => .refl _
  rw [slots_push]
  split_ifs with ha
  · rw [slots_eq_empty (Nat.le_of_eq ha.symm)]
    exact List.nil_prefix
  · exact List.prefix_refl _

theorem push_dict (m : Memory) (t : Table CellId) :
    Retains m { m with dicts := m.dicts.push t } := by
  refine of_slots_entries (Nat.le_refl _) (by simp) (fun a => List.prefix_refl _) fun d => ?_
  rw [entries_push]
  split_ifs with hd
  · rw [entries_eq_empty (Nat.le_of_eq hd.symm)]
    exact fun k c hc => by cases hc
  · exact .refl _

theorem append (m : Memory) (a : ArrayId) (cells : Array CellId) :
    Retains m { m with arrays := m.arrays.setIfInBounds a.index (m.slots a ++ cells) } := by
  refine of_slots_entries (by simp) (Nat.le_refl _) (fun a' => ?_) fun d => .refl _
  rw [slots_set]
  split_ifs with ha
  · rw [ha.1, Array.toList_append]
    exact List.prefix_append _ _
  · exact List.prefix_refl _

theorem insert {d : DictId} {key : String} (hkey : (m.entries d).get? key = none) (c : CellId) :
    Retains m { m with dicts := m.dicts.setIfInBounds d.index ((m.entries d).insert key c) } := by
  refine of_slots_entries (Nat.le_refl _) (by simp) (fun a => List.prefix_refl _) fun d' => ?_
  rw [entries_set]
  split_ifs with hd
  · rw [hd.1]
    exact .insert c (by rw [Table.contains, hkey]; rfl)
  · exact .refl _

end Retains

/-! ## What the operations on memory keep to -/

/-- Memories that retain the containers of the one a computation starts from. -/
def retaining : Step.Law Memory := ⟨fun _ => True, Retains, Retains.refl, Retains.trans⟩

theorem Retains.withCells (m : Memory) (vs : List Value) : Retains m (m.withCells vs) :=
  .of_containers rfl rfl

theorem retaining_newArray (vs : List Value) (m : Memory) :
    (newArray vs).Obeys retaining m fun _ _ => True :=
  .of_run (newArray_run vs m) trivial
    ((Retains.withCells m vs).trans (.push_array (m.withCells vs) _)) trivial

theorem retaining_newDict (pairs : List (String × Value)) (m : Memory) :
    (newDict pairs).Obeys retaining m fun _ _ => True := by
  obtain ⟨t, vs, hrun, -, -⟩ := newDict_run pairs m
  exact .of_run hrun trivial ((Retains.withCells m vs).trans (.push_dict (m.withCells vs) t)) trivial

theorem retaining_growArray (a : ArrayId) (size : Nat) (m : Memory) :
    (growArray a size).Obeys retaining m fun _ _ => True := by
  obtain ⟨n, hrun, -⟩ := growArray_run a size m
  exact .of_run hrun trivial
    ((Retains.withCells m (List.replicate n .void)).trans (.append (m.withCells _) a _)) trivial

theorem retaining_slotCell (a : ArrayId) (i : Int32) (m : Memory) :
    (slotCell a i).Obeys retaining m fun _ _ => True := by
  unfold slotCell
  split
  · exact .fault trivial
  · refine (retaining_growArray a _ m).bind fun _ t _ _ _ => ?_
    exact (Step.Idle.look _).obeys trivial fun _ _ => trivial

theorem retaining_entryCell (d : DictId) (key : String) (m : Memory) :
    (entryCell d key).Obeys retaining m fun _ _ => True := by
  refine (Step.Idle.look _).obeys_bind trivial fun found hfound => ?_
  replace hfound : (m.entries d).get? key = found := Outcome.ok.inj (Prod.ext_iff.mp hfound).1
  cases found with
  | some c => exact .pure trivial trivial
  | none =>
    have hinsert := Retains.insert (m := m.withCells [.void]) hfound ⟨m.cells.size⟩
    exact .of_run (Step.bind_run_ok (newCell_run .void m) _) trivial
      ((Retains.withCells m [.void]).trans hinsert) trivial

theorem retaining_write (c : CellId) (v : Value) (m : Memory) :
    (write c v).Obeys retaining m fun _ _ => True :=
  .of_run (write_run c v m) trivial (.of_containers rfl rfl) trivial

theorem retaining_newScope (outer : Option ScopeId) (m : Memory) :
    (newScope outer).Obeys retaining m fun _ _ => True :=
  .of_run (newScope_run outer m) trivial (.of_containers rfl rfl) trivial

theorem retaining_setVar (s : ScopeId) (name : String) (v : Value) (m : Memory) :
    (setVar s name v).Obeys retaining m fun _ _ => True := by
  cases h : (m.scope s).vars.get? name with
  | none => exact .of_run (setVar_of_not_bound h) trivial (.of_containers rfl rfl) trivial
  | some c => exact .of_run (setVar_of_bound h) trivial (.of_containers rfl rfl) trivial

theorem retaining_varCell (s : ScopeId) (name : String) (m : Memory) :
    (varCell s name).Obeys retaining m fun _ _ => True := by
  cases h : (m.scope s).vars.get? name with
  | none => exact .of_run (varCell_of_not_bound h) trivial (.of_containers rfl rfl) trivial
  | some c => exact .of_run (varCell_of_bound h) trivial (.refl m) trivial

end Memory

end Kiln
