import Kiln.Table

/-!
# Kiln.Proofs.Table — lookups in tables

The entries of a table and its lookups say the same, so tables with the same lookups are the same
(`ext_get?`).  Then what `insert`, `map` and `onKeys` do to a lookup.  A `NameSet` has the members that
were added to it.
-/

namespace Kiln

namespace Table

variable {α β : Type}

theorem find_eq_some_iff {k : String} {v : α} {l : List (String × α)}
    (hl : l.Pairwise fun a b => a.1 < b.1) : find k l = some v ↔ (k, v) ∈ l := by
  induction l with
  | nil => simp [find]
  | cons e rest ih =>
    obtain ⟨hhead, hrest⟩ := List.pairwise_cons.mp hl
    obtain ⟨k', v'⟩ := e
    by_cases hk : k = k'
    · subst hk
      have hnot : (k, v) ∉ rest := fun hmem => String.lt_irrefl k (hhead _ hmem)
      simp [find, hnot, eq_comm]
    · simp [find, hk, ih hrest]

theorem get?_eq_some_iff {t : Table α} {k : String} {v : α} :
    t.get? k = some v ↔ (k, v) ∈ t.entries :=
  find_eq_some_iff t.ordered

theorem get?_insert (t : Table α) (k k' : String) (v : α) :
    (t.insert k v).get? k' = if k' = k then some v else t.get? k' := by
  by_cases h : k' = k
  · subst h
    simp
  · rw [if_neg h]
    exact get?_insert_of_ne t v h

theorem ext_entries {s t : Table α} (h : s.entries = t.entries) : s = t := by
  cases s
  cases t
  cases h
  rfl

theorem map_congr {t : Table α} {f g : α → β} (h : ∀ key a, t.get? key = some a → f a = g a) :
    t.map f = t.map g := by
  refine ext_entries (List.map_congr_left fun e he => ?_)
  rw [h e.1 e.2 (get?_eq_some_iff.mpr he)]

theorem find_map (f : α → β) (k : String) (l : List (String × α)) :
    find k (l.map fun e => (e.1, f e.2)) = (find k l).map f := by
  induction l with
  | nil => rfl
  | cons e rest ih =>
    by_cases hk : k = e.1
    · simp [find, hk]
    · simp [find, hk, ih]

@[simp] theorem get?_map (f : α → β) (t : Table α) (k : String) :
    (t.map f).get? k = (t.get? k).map f :=
  find_map f k t.entries

theorem put_map (f : α → β) (k : String) (v : α) (l : List (String × α)) :
    put k (f v) (l.map fun e => (e.1, f e.2)) = (put k v l).map fun e => (e.1, f e.2) := by
  induction l with
  | nil => rfl
  | cons e rest ih =>
    simp only [List.map_cons, put, ih]
    split
    · rfl
    · split <;> rfl

/-- Setting a key after every value was changed. -/
theorem insert_map (f : α → β) (t : Table α) (k : String) (v : α) :
    (t.map f).insert k (f v) = (t.insert k v).map f := by
  simp only [insert, map, put_map]

theorem contains_map (f : α → β) (t : Table α) (k : String) : (t.map f).contains k = t.contains k := by
  simp only [contains, get?_map, Option.isSome_map]

theorem mem_keys_iff {t : Table α} {k : String} : k ∈ t.keys ↔ t.contains k = true := by
  rw [contains, Option.isSome_iff_exists]
  simp [keys, get?_eq_some_iff]

theorem mem_keys_of_get? {t : Table α} {k : String} {v : α} (h : t.get? k = some v) : k ∈ t.keys :=
  mem_keys_iff.mpr (by rw [contains, h]; rfl)

/-- Tables with the same bindings are the same. -/
theorem ext_get? {s t : Table α} (h : ∀ k, s.get? k = t.get? k) : s = t := by
  have hnodup (t : Table α) : t.entries.Nodup := by
    refine t.ordered.imp fun {a b} hlt heq => ?_
    subst heq
    exact String.lt_irrefl _ hlt
  have hperm : s.entries.Perm t.entries := by
    refine (List.perm_ext_iff_of_nodup (hnodup s) (hnodup t)).mpr fun e => ?_
    rw [← get?_eq_some_iff, ← get?_eq_some_iff, h e.1]
  refine ext_entries (hperm.eq_of_pairwise (fun a b _ _ hab hba => ?_) s.ordered t.ordered)
  exact absurd hba (String.lt_asymm hab)

theorem find_filter (p : String → Bool) (k : String) (l : List (String × α)) :
    find k (l.filter fun e => p e.1) = if p k then find k l else none := by
  induction l with
  | nil => simp [find]
  | cons e rest ih =>
    by_cases hk : k = e.1
    · subst hk
      by_cases hp : p e.1 = true
      · simp [find, hp]
      · simpa [hp] using ih
    · by_cases hp : p e.1 = true
      · simpa [find, hp, hk] using ih
      · simpa [find, hp, hk] using ih

/-- The part of a table whose keys satisfy `p`. -/
def onKeys (p : String → Bool) (t : Table α) : Table α :=
  ⟨t.entries.filter fun e => p e.1, t.ordered.filter _⟩

theorem get?_onKeys (p : String → Bool) (t : Table α) (k : String) :
    (t.onKeys p).get? k = if p k then t.get? k else none :=
  find_filter p k t.entries

theorem get?_foldl_insert {bindings : List (String × α)}
    (h : bindings.Pairwise fun a b => a.1 < b.1) (t : Table α) (k : String) :
    (bindings.foldl (fun t e => t.insert e.1 e.2) t).get? k = (find k bindings).or (t.get? k) := by
  induction bindings generalizing t with
  | nil => simp [find]
  | cons e rest ih =>
    obtain ⟨hhead, hrest⟩ := List.pairwise_cons.mp h
    rw [List.foldl_cons, ih hrest, get?_insert]
    by_cases hk : k = e.1
    · subst hk
      have hnone : find e.1 rest = none := by
        refine Option.eq_none_iff_forall_ne_some.mpr fun v hv => ?_
        exact String.lt_irrefl _ (hhead (e.1, v) ((find_eq_some_iff hrest).mp hv))
      simp [find, hnone]
    · simp [find, hk]

theorem ofList_entries (t : Table α) : ofList t.entries = t :=
  ext_get? fun k => by
    rw [ofList, get?_foldl_insert t.ordered, get?_empty, Option.or_none]
    rfl

/-! ## Listings -/

theorem keys_map_get? (t : Table α) (a : α) : (t.keys.map fun k => (t.get? k).getD a) = t.values := by
  rw [keys, values, List.map_map]
  refine List.map_congr_left fun e he => ?_
  have hget : t.get? e.1 = some e.2 := get?_eq_some_iff.mpr he
  simp [hget]

@[simp] theorem keys_map (f : α → β) (t : Table α) : (t.map f).keys = t.keys := by
  simp [keys, map]

@[simp] theorem values_map (f : α → β) (t : Table α) : (t.map f).values = t.values.map f := by
  simp [values, map]

theorem zip_keys_values (t : Table α) : t.keys.zip t.values = t.entries := by
  simp [keys, values, List.zip_map']

/-! ## Tables that got more bindings -/

/-- Every key of `s` is bound in `t` to what it is bound to in `s`. -/
def Extends (t s : Table α) : Prop := ∀ k v, s.get? k = some v → t.get? k = some v

namespace Extends

variable {s t u : Table α}

theorem refl (s : Table α) : s.Extends s := fun _ _ h => h

theorem trans (h : t.Extends s) (h' : u.Extends t) : u.Extends s := fun k v hv => h' k v (h k v hv)

theorem contains (h : t.Extends s) {k : String} (hk : s.contains k = true) : t.contains k = true := by
  obtain ⟨v, hv⟩ := Option.isSome_iff_exists.mp hk
  rw [Table.contains, h k v hv]
  rfl

/-- A new key disturbs no other. -/
theorem insert {k : String} (v : α) (h : s.contains k = false) : (s.insert k v).Extends s := by
  intro k' v' hv
  have hne : k' ≠ k := by
    rintro rfl
    simp [Table.contains, hv] at h
  rw [get?_insert, if_neg hne, hv]

end Extends

end Table

namespace NameSet

@[simp] theorem contains_empty (k : String) : (Table.empty : NameSet).contains k = false := rfl

theorem contains_add {s : NameSet} {k k' : String} :
    (s.add k).contains k' = true ↔ k' = k ∨ s.contains k' = true := by
  by_cases h : k' = k
  · simp [add, Table.contains, h]
  · simp [add, Table.contains, Table.get?_insert, h]

end NameSet

end Kiln
