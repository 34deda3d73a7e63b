/-!
# Kiln.Table — string-keyed tables in key order

A `Table α` is a finite map from strings whose entries are listed in strictly increasing key order,
so two tables with the same bindings are equal and every listing of one is sorted.  Strings are
ordered by code point, which is also the order of their UTF-8 bytes.

Main facts: `get?_insert_self`, `get?_insert_of_ne` (an insertion sets one key and no other), and the
order of the entries, which is a field of the type.
-/

namespace Kiln

/-- A finite map from strings, its entries in strictly increasing key order. -/
structure Table (α : Type) where
  entries : List (String × α)
  ordered : entries.Pairwise (fun a b => a.1 < b.1)

namespace Table

variable {α β : Type}

/-- The table without entries. -/
def empty : Table α := ⟨[], .nil⟩

instance : Inhabited (Table α) := ⟨empty⟩

/-- Puts `v` under `k` in an ordered list of entries, in place of an earlier entry of that key. -/
def put (k : String) (v : α) : List (String × α) → List (String × α)
  | [] => [(k, v)]
  | (k', v') :: rest =>
    if k < k' then (k, v) :: (k', v') :: rest
    else if k = k' then (k, v) :: rest
    else (k', v') :: put k v rest

theorem mem_put {k : String} {v : α} {e : String × α} :
    ∀ {l : List (String × α)}, e ∈ put k v l → e = (k, v) ∨ e ∈ l
  | [], h => by simpa [put] using h
  | (k', v') :: rest, h => by
    have ih := @mem_put k v e rest
    simp only [put] at h
    split at h
    · simpa using h
    · split at h
      · rcases List.mem_cons.1 h with h | h
        · exact .inl h
        · exact .inr (List.mem_cons_of_mem _ h)
      · rcases List.mem_cons.1 h with h | h
        · exact .inr (h ▸ List.mem_cons_self)
        · exact (ih h).imp id (List.mem_cons_of_mem _)

theorem put_ordered (k : String) (v : α) :
    ∀ {l : List (String × α)}, l.Pairwise (fun a b => a.1 < b.1) →
      (put k v l).Pairwise (fun a b => a.1 < b.1)
  | [], _ => by simp [put]
  | (k', v') :: rest, h => by
    have hrest := (List.pairwise_cons.1 h).2
    have hhead := (List.pairwise_cons.1 h).1
    simp only [put]
    split
    · rename_i hlt
      refine List.pairwise_cons.2 ⟨fun e he => ?_, h⟩
      rcases List.mem_cons.1 he with he | he
      · exact he ▸ hlt
      · exact String.lt_trans hlt (hhead e he)
    · split
      · rename_i heq
        exact List.pairwise_cons.2 ⟨fun e he => heq ▸ hhead e he, hrest⟩
      · rename_i hlt hne
        refine List.pairwise_cons.2 ⟨fun e he => ?_, put_ordered k v hrest⟩
        rcases mem_put he with he | he
        · subst he
          show k' < k
          grind
        · exact hhead e he

/-- Binds `k` to `v`, whether or not it was bound before. -/
def insert (t : Table α) (k : String) (v : α) : Table α :=
  ⟨put k v t.entries, put_ordered k v t.ordered⟩

/-- The first value under `k` in a list of entries. -/
def find (k : String) : List (String × α) → Option α
  | [] => none
  | (k', v) :: rest => if k = k' then some v else find k rest

/-- The value under `k`. -/
def get? (t : Table α) (k : String) : Option α :=
  find k t.entries

/-- Whether `k` is bound. -/
def contains (t : Table α) (k : String) : Bool :=
  (t.get? k).isSome

/-- The keys, in order. -/
def keys (t : Table α) : List String :=
  t.entries.map (·.1)

/-- The values, in key order. -/
def values (t : Table α) : List α :=
  t.entries.map (·.2)

/-- The number of entries. -/
def size (t : Table α) : Nat :=
  t.entries.length

/-- Applies `f` to every value and keeps the keys. -/
def map (f : α → β) (t : Table α) : Table β :=
  ⟨t.entries.map fun e => (e.1, f e.2), t.ordered.map _ fun _ _ h => h⟩

/-- The table of the given bindings; of several with one key the last counts. -/
def ofList (bindings : List (String × α)) : Table α :=
  bindings.foldl (fun t e => t.insert e.1 e.2) empty

theorem find_put_self (k : String) (v : α) (l : List (String × α)) :
    find k (put k v l) = some v := by
  induction l with
  | nil => simp [put, find]
  | cons e rest ih =>
    simp only [put]
    split
    · simp [find]
    · split
      · simp [find]
      · rename_i hne
        simp [find, hne, ih]

theorem find_put_of_ne {k k' : String} (v : α) (h : k' ≠ k) (l : List (String × α)) :
    find k' (put k v l) = find k' l := by
  induction l with
  | nil => simp [put, find, h]
  | cons e rest ih =>
    simp only [put]
    split
    · simp [find, h]
    · split
      · rename_i heq
        subst heq
        simp [find, h]
      · simp [find, ih]

@[simp] theorem get?_empty (k : String) : (empty : Table α).get? k = none := rfl

@[simp] theorem get?_insert_self (t : Table α) (k : String) (v : α) :
    (t.insert k v).get? k = some v := find_put_self k v t.entries

theorem get?_insert_of_ne (t : Table α) {k k' : String} (v : α) (h : k' ≠ k) :
    (t.insert k v).get? k' = t.get? k' := find_put_of_ne v h t.entries

end Table

/-- A set of strings, listed in order. -/
abbrev NameSet := Table Unit

namespace NameSet

/-- Adds one member. -/
def add (s : NameSet) (k : String) : NameSet := Table.insert s k ()

end NameSet

end Kiln
