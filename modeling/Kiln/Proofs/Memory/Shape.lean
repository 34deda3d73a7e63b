import Mathlib.Data.List.Forall2
import Kiln.Proofs.Eval.Scopes
import Kiln.Proofs.Memory.Acyclic

/-!
# Kiln.Proofs.Memory.Shape — what values look like

The shape of a value down to a depth is what can be seen of it without the identities of its
containers.  Values with one shape at every depth, in one memory or in two, are alike; a container
that is inside of itself has a shape at every depth too, though no tree.

A memory that only grew shows every old value as before, so alike values stay alike (`Alike.mono`).
Whatever an operation tells of a value comes from its shape: its number, its string form, its elements
and entries; so a value can be read off a shape it is known to have.  And containers that are made of
alike values are alike.
-/

namespace Kiln

/-- What can be seen of a value. -/
inductive Shape where
  | void
  | int (n : Int32)
  | str (s : String)
  | array (elements : List Shape)
  | dict (entries : List (String × Shape))
  /-- A container that is too deep to be looked into. -/
  | closed

namespace Table

variable {α β : Type}

/-- The table with the given bindings besides; of several values with one key the first counts. -/
def withFirsts : Table α → List (String × α) → Table α
  | t, [] => t
  | t, (k, a) :: rest => if t.contains k then withFirsts t rest else withFirsts (t.insert k a) rest

theorem withFirsts_map (f : α → β) (t : Table α) (pairs : List (String × α)) :
    (t.withFirsts pairs).map f = (t.map f).withFirsts (pairs.map fun p => (p.1, f p.2)) := by
  induction pairs generalizing t with
  | nil => rfl
  | cons p rest ih =>
    simp only [withFirsts, List.map_cons, contains_map]
    split
    · exact ih t
    · rw [ih, insert_map]

theorem get?_withFirsts (t : Table α) (pairs : List (String × α)) (k : String) :
    (t.withFirsts pairs).get? k = (t.get? k).or (find k pairs) := by
  induction pairs generalizing t with
  | nil => simp [withFirsts, find]
  | cons p rest ih =>
    obtain ⟨k', a⟩ := p
    by_cases hbound : t.contains k' = true
    · rw [withFirsts, if_pos hbound, ih]
      obtain ⟨b, hb⟩ := Option.isSome_iff_exists.mp hbound
      by_cases hk : k = k'
      · subst hk
        simp [hb]
      · simp [find, hk]
    · rw [withFirsts, if_neg hbound, ih, get?_insert]
      have hnone : t.get? k' = none := by simpa [contains] using hbound
      by_cases hk : k = k'
      · subst hk
        simp [find, hnone]
      · simp [find, hk]

theorem withFirsts_entries (t : Table α) : empty.withFirsts t.entries = t :=
  ext_get? fun k => by
    rw [get?_withFirsts, get?_empty, Option.none_or]
    rfl

end Table

namespace Memory

variable {m m' m'' : Memory} {v v' w w' : Value}

/-- The values of a dictionary. -/
def contents (m : Memory) (d : DictId) : Table Value := (m.entries d).map m.read

/-- What can be seen of a value down to a depth. -/
def shape (m : Memory) : Nat → Value → Shape
  | _, .void => .void
  | _, .int n => .int n
  | _, .str s => .str s
  | 0, _ => .closed
  | n + 1, .array a => .array ((m.elements (.array a)).map (m.shape n))
  | n + 1, .dict d => .dict ((m.contents d).map (m.shape n)).entries

@[simp] theorem shape_void (n : Nat) : m.shape n .void = .void := by cases n <;> rfl

@[simp] theorem shape_int (n : Nat) (i : Int32) : m.shape n (.int i) = .int i := by cases n <;> rfl

@[simp] theorem shape_str (n : Nat) (s : String) : m.shape n (.str s) = .str s := by cases n <;> rfl

theorem entry_eq (m : Memory) (d : DictId) (key : String) :
    m.entry d key = ((m.contents d).get? key).getD .void := by
  rw [entry, contents, Table.get?_map]
  cases (m.entries d).get? key <;> rfl

theorem element_eq (m : Memory) (a : ArrayId) (i : Int32) :
    m.element a i = if i < 0 then .void else (m.elements (.array a))[i.toInt.toNat]?.getD .void := by
  unfold element elements
  split
  · rfl
  · rw [List.getElem?_map, Array.getElem?_toList]
    cases (m.slots a)[i.toInt.toNat]? <;> rfl

theorem WellFormed.holds_elements (hm : m.WellFormed) (hv : m.Holds v) :
    ∀ w ∈ m.elements v, m.Holds w := by
  intro w hw
  cases v with
  | array a =>
    obtain ⟨c, -, rfl⟩ := List.mem_map.mp hw
    exact hm.held c
  | void | int | str | dict =>
    obtain rfl := List.mem_singleton.mp hw
    exact hv

theorem WellFormed.holds_contents (hm : m.WellFormed) {d : DictId} {key : String}
    (hw : (m.contents d).get? key = some w) : m.Holds w := by
  rw [contents, Table.get?_map, Option.map_eq_some_iff] at hw
  obtain ⟨c, -, rfl⟩ := hw
  exact hm.held c

/-- Containers do not show in what scope they are. -/
theorem shape_scopes (m : Memory) (scopes : Array Scope) (n : Nat) :
    ({ m with scopes } : Memory).shape n = m.shape n := by
  induction n with
  | zero =>
    funext v
    cases v <;> rfl
  | succ n ih =>
    funext v
    cases v with
    | array a =>
      simp only [shape, ih]
      rfl
    | dict d =>
      simp only [shape, ih]
      rfl
    | _ => rfl

/-! ## Memory that only grew -/

theorem Extends.elements (h : m.Extends m') (hm : m.WellFormed) {a : ArrayId}
    (ha : m.Holds (.array a)) : m'.elements (.array a) = m.elements (.array a) := by
  simp only [Memory.elements, h.slots ha]
  refine List.map_congr_left fun c hc => h.read (hm.contained (.inl ⟨a, ?_⟩))
  exact Array.mem_toList_iff.mp hc

theorem Extends.contents (h : m.Extends m') (hm : m.WellFormed) {d : DictId}
    (hd : m.Holds (.dict d)) : m'.contents d = m.contents d := by
  simp only [Memory.contents, h.entries hd]
  exact Table.map_congr fun key c hc => h.read (hm.contained (.inr ⟨d, key, hc⟩))

/-- Every value is seen as it was before. -/
theorem Extends.shape (h : m.Extends m') (hm : m.WellFormed) (n : Nat) (hv : m.Holds v) :
    m'.shape n v = m.shape n v := by
  induction n generalizing v with
  | zero => cases v <;> simp [Memory.shape]
  | succ n ih =>
    cases v with
    | void | int | str => simp
    | array a =>
      simp only [Memory.shape, h.elements hm hv]
      exact congrArg Shape.array (List.map_congr_left fun w hw => ih (hm.holds_elements hv w hw))
    | dict d =>
      simp only [Memory.shape, h.contents hm hv]
      refine congrArg (fun t => Shape.dict t.entries) (Table.map_congr fun key w hw => ih ?_)
      exact hm.holds_contents hw

/-! ## Alike values -/

/-- The two values exist, each in its memory, and look the same at every depth. -/
structure Alike (m m' : Memory) (v v' : Value) : Prop where
  left : m.Holds v
  right : m'.Holds v'
  shape : ∀ n, m.shape n v = m'.shape n v'

/-- Two scalars that are the same, or two containers of one kind. -/
inductive SameKind : Value → Value → Prop
  | void : SameKind .void .void
  | int (n : Int32) : SameKind (.int n) (.int n)
  | str (s : String) : SameKind (.str s) (.str s)
  | array (a a' : ArrayId) : SameKind (.array a) (.array a')
  | dict (d d' : DictId) : SameKind (.dict d) (.dict d')

theorem sameKind_of_shape {n : Nat} (h : m.shape (n + 1) v = m'.shape (n + 1) v') :
    SameKind v v' := by
  cases v <;> cases v' <;> simp [shape] at h
  case void.void => exact .void
  case int.int =>
    subst h
    exact .int _
  case str.str =>
    subst h
    exact .str _
  case array.array => exact .array _ _
  case dict.dict => exact .dict _ _

namespace Alike

variable {m₁ m₁' : Memory}

theorem void : Alike m m' .void .void := ⟨trivial, trivial, fun n => by simp⟩

theorem int (i : Int32) : Alike m m' (.int i) (.int i) := ⟨trivial, trivial, fun n => by simp⟩

theorem str (s : String) : Alike m m' (.str s) (.str s) := ⟨trivial, trivial, fun n => by simp⟩

theorem ofBool (b : Bool) : Alike m m' (.ofBool b) (.ofBool b) := int _

theorem refl (hv : m.Holds v) : Alike m m v v := ⟨hv, hv, fun _ => rfl⟩

theorem mono (h : Alike m m' v v') (hm : m.WellFormed) (hm' : m'.WellFormed)
    (hext : m.Extends m₁) (hext' : m'.Extends m₁') : Alike m₁ m₁' v v' := by
  refine ⟨hext.holds h.left, hext'.holds h.right, fun n => ?_⟩
  rw [hext.shape hm n h.left, hext'.shape hm' n h.right, h.shape n]

theorem sameKind (h : Alike m m' v v') : SameKind v v' := sameKind_of_shape (h.shape 1)

theorem toInt_eq (h : Alike m m' v v') : v.toInt = v'.toInt := by
  cases h.sameKind <;> rfl

theorem isTrue_eq (h : Alike m m' v v') : v.isTrue = v'.isTrue := by
  rw [Value.isTrue, Value.isTrue, h.toInt_eq]

end Alike

/-! ### Elements and entries -/

theorem map_eq_iff_forall₂ {α β γ : Type} {f : α → γ} {g : β → γ} {as : List α} {bs : List β} :
    as.map f = bs.map g ↔ List.Forall₂ (fun a b => f a = g b) as bs := by
  rw [← List.forall₂_eq_eq_eq, List.forall₂_map_left_iff, List.forall₂_map_right_iff]

theorem forall₂_alike {vs vs' : List Value} (hvs : ∀ v ∈ vs, m.Holds v)
    (hvs' : ∀ v ∈ vs', m'.Holds v) (h : ∀ n, vs.map (m.shape n) = vs'.map (m'.shape n)) :
    List.Forall₂ (Alike m m') vs vs' := by
  induction vs generalizing vs' with
  | nil =>
    obtain rfl := List.map_eq_nil_iff.mp (h 0).symm
    exact .nil
  | cons v rest ih =>
    cases vs' with
    | nil => simp at h
    | cons v' rest' =>
      simp only [List.map_cons, List.cons.injEq] at h
      simp only [List.mem_cons, forall_eq_or_imp] at hvs hvs'
      exact .cons ⟨hvs.1, hvs'.1, fun n => (h n).1⟩ (ih hvs.2 hvs'.2 fun n => (h n).2)

theorem alike_getD {o o' : Option Value} (ho : ∀ v, o = some v → m.Holds v)
    (ho' : ∀ v, o' = some v → m'.Holds v) (h : ∀ n, o.map (m.shape n) = o'.map (m'.shape n)) :
    Alike m m' (o.getD .void) (o'.getD .void) := by
  cases o with
  | none =>
    obtain rfl := Option.map_eq_none_iff.mp (h 0).symm
    exact .void
  | some v =>
    cases o' with
    | none => simp at h
    | some v' => exact ⟨ho v rfl, ho' v' rfl, fun n => Option.some.inj (h n)⟩

section Containers

variable {a a' : ArrayId} {d d' : DictId}

theorem Alike.map_elements (h : Alike m m' (.array a) (.array a')) (n : Nat) :
    (m.elements (.array a)).map (m.shape n) = (m'.elements (.array a')).map (m'.shape n) := by
  have hshape := h.shape (n + 1)
  simpa only [Memory.shape, Shape.array.injEq] using hshape

theorem Alike.map_contents (h : Alike m m' (.dict d) (.dict d')) (n : Nat) :
    (m.contents d).map (m.shape n) = (m'.contents d').map (m'.shape n) := by
  have hshape := h.shape (n + 1)
  simp only [Memory.shape, Shape.dict.injEq] at hshape
  exact Table.ext_entries hshape

theorem Alike.elements (h : Alike m m' v v') (hm : m.WellFormed) (hm' : m'.WellFormed) :
    List.Forall₂ (Alike m m') (m.elements v) (m'.elements v') := by
  have hkind := h.sameKind
  cases hkind with
  | array a a' =>
    exact forall₂_alike (hm.holds_elements h.left) (hm'.holds_elements h.right) h.map_elements
  | _ => exact .cons h .nil

theorem Alike.element (h : Alike m m' (.array a) (.array a')) (hm : m.WellFormed)
    (hm' : m'.WellFormed) (i : Int32) : Alike m m' (m.element a i) (m'.element a' i) := by
  rw [element_eq, element_eq]
  split
  · exact .void
  · refine alike_getD (fun v hv => ?_) (fun v hv => ?_) fun n => ?_
    · exact hm.holds_elements h.left v (List.mem_of_getElem? hv)
    · exact hm'.holds_elements h.right v (List.mem_of_getElem? hv)
    · rw [← List.getElem?_map, ← List.getElem?_map, h.map_elements n]

theorem Alike.entry (h : Alike m m' (.dict d) (.dict d')) (hm : m.WellFormed)
    (hm' : m'.WellFormed) (key : String) : Alike m m' (m.entry d key) (m'.entry d' key) := by
  rw [entry_eq, entry_eq]
  refine alike_getD (fun v hv => hm.holds_contents hv) (fun v hv => hm'.holds_contents hv) ?_
  intro n
  rw [← Table.get?_map, ← Table.get?_map, h.map_contents n]

end Containers

/-! ## Values of a known shape -/

section Known

variable {n : Nat}

theorem eq_str_of_shape {text : String} (h : m.shape n v = .str text) : v = .str text := by
  cases n <;> cases v <;> simp_all [shape]

theorem exists_array_of_shape {shapes : List Shape} (h : m.shape (n + 1) v = .array shapes) :
    ∃ a, v = .array a ∧ (m.elements (.array a)).map (m.shape n) = shapes := by
  cases v <;> simp [shape] at h
  exact ⟨_, rfl, h⟩

theorem exists_dict_of_shape {shapes : Table Shape} (h : m.shape (n + 1) v = .dict shapes.entries) :
    ∃ d, v = .dict d ∧ (m.contents d).map (m.shape n) = shapes := by
  cases v <;> simp [shape] at h
  exact ⟨_, rfl, Table.ext_entries h⟩

theorem shape_entry {d : DictId} {shapes : Table Shape} {sh : Shape} (key : String)
    (h : (m.contents d).map (m.shape n) = shapes) (hkey : shapes.get? key = some sh) :
    m.shape n (m.entry d key) = sh := by
  rw [← h, Table.get?_map, Option.map_eq_some_iff] at hkey
  obtain ⟨v, hv, hshape⟩ := hkey
  rw [entry_eq, hv]
  exact hshape

/-- Where all values are texts, they are read off the shape. -/
theorem elements_of_shape {vs : List Value} {texts : List String}
    (h : vs.map (m.shape n) = texts.map .str) : vs = texts.map .str := by
  rw [map_eq_iff_forall₂] at h
  induction h with
  | nil => rfl
  | cons hv _ ih => rw [eq_str_of_shape hv, ih, List.map_cons]

theorem contents_of_shape {t : Table Value} {texts : Table String}
    (h : t.map (m.shape n) = texts.map .str) : t = texts.map .str := by
  refine Table.ext_get? fun k => ?_
  have hget : (t.map (m.shape n)).get? k = (texts.map Shape.str).get? k := by rw [h]
  rw [Table.get?_map, Table.get?_map] at hget
  rw [Table.get?_map]
  cases hv : t.get? k with
  | none =>
    rw [hv] at hget
    rw [Option.map_eq_none_iff.mp hget.symm]
    rfl
  | some v =>
    rw [hv, Option.map_some] at hget
    obtain ⟨text, htext, hshape⟩ := Option.map_eq_some_iff.mp hget.symm
    rw [htext, eq_str_of_shape hshape.symm]
    rfl

/-- The values under the keys of a dictionary, in the order of the keys. -/
theorem keys_map_entry (m : Memory) (d : DictId) :
    (m.entries d).keys.map (m.entry d) = (m.contents d).values := by
  have hentry : m.entry d = fun key => ((m.contents d).get? key).getD .void :=
    funext (entry_eq m d)
  rw [hentry, ← Table.keys_map m.read (m.entries d)]
  exact Table.keys_map_get? (m.contents d) .void

end Known

/-! ### Trees -/

theorem treeWithin_array (n : Nat) (a : ArrayId) :
    m.treeWithin (n + 1) (.array a) =
      (m.elements (.array a)).mapM (m.treeWithin n) >>= fun es => some (.array es) := by
  rw [treeWithin, elements, List.mapM_map]
  rfl

theorem treeWithin_dict (n : Nat) (d : DictId) :
    m.treeWithin (n + 1) (.dict d) =
      ((m.contents d).entries.mapM fun e => (m.treeWithin n e.2).map (Prod.mk e.1)) >>=
        fun es => some (.dict es) := by
  rw [treeWithin, contents, Table.map, List.mapM_map]
  simp only [Option.bind_eq_bind, Option.pure_def, Option.map_eq_bind, Function.comp_def]

theorem mapM_congr_of_map {α β γ δ : Type} {f : α → γ} {f' : β → γ} {g : α → Option δ}
    {g' : β → Option δ} (hg : ∀ a b, f a = f' b → g a = g' b) {as : List α} {bs : List β}
    (h : as.map f = bs.map f') : as.mapM g = bs.mapM g' := by
  rw [map_eq_iff_forall₂] at h
  induction h with
  | nil => rfl
  | cons hab _ ih => rw [List.mapM_cons, List.mapM_cons, hg _ _ hab, ih]

/-- What looks the same down to a depth has the same tree down to it, or none. -/
theorem treeWithin_congr : ∀ {n : Nat} {v v' : Value}, m.shape n v = m'.shape n v' →
    m.treeWithin n v = m'.treeWithin n v'
  | 0, v, v', h => by
    cases v <;> cases v' <;> simp_all [shape, treeWithin]
  | n + 1, v, v', h => by
    cases sameKind_of_shape h with
    | void | int | str => simp [treeWithin]
    | array a a' =>
      simp only [shape, Shape.array.injEq] at h
      rw [treeWithin_array, treeWithin_array, mapM_congr_of_map (fun _ _ => treeWithin_congr) h]
    | dict d d' =>
      simp only [shape, Shape.dict.injEq] at h
      rw [treeWithin_dict, treeWithin_dict]
      refine congrArg (· >>= _) (mapM_congr_of_map (fun e e' he => ?_) h)
      simp only [Prod.mk.injEq] at he
      rw [he.1, treeWithin_congr he.2]

theorem Alike.tree?_eq (h : Alike m m' v v') (hm : m.WellFormed) (hm' : m'.WellFormed) :
    m.tree? v = m'.tree? v' := by
  have hwithin (n : Nat) : m.treeWithin n v = m'.treeWithin n v' := treeWithin_congr (h.shape n)
  refine Option.ext fun t => ⟨fun ht => ?_, fun ht => ?_⟩
  · exact tree?_of_treeWithin hm'.held h.right ((hwithin _).symm.trans ht)
  · exact tree?_of_treeWithin hm.held h.left ((hwithin _).trans ht)

/-! ## New containers -/

theorem extends_withCells (m : Memory) (vs : List Value) : m.Extends (m.withCells vs) where
  cellCount := by simp [withCells]
  arrayCount := Nat.le_refl _
  dictCount := Nat.le_refl _
  scopeCount := Nat.le_refl _
  read := read_withCells vs
  slots _ := rfl
  entries _ := rfl
  scope _ := rfl

theorem extends_push_array (m : Memory) (cells : Array CellId) :
    m.Extends { m with arrays := m.arrays.push cells } where
  cellCount := Nat.le_refl _
  arrayCount := by simp
  dictCount := Nat.le_refl _
  scopeCount := Nat.le_refl _
  read _ := rfl
  slots ha := (slots_push m cells _).trans (if_neg (Nat.ne_of_lt ha))
  entries _ := rfl
  scope _ := rfl

theorem extends_push_dict (m : Memory) (t : Table CellId) :
    m.Extends { m with dicts := m.dicts.push t } where
  cellCount := Nat.le_refl _
  arrayCount := Nat.le_refl _
  dictCount := by simp
  scopeCount := Nat.le_refl _
  read _ := rfl
  slots _ := rfl
  entries hd := (entries_push m t _).trans (if_neg (Nat.ne_of_lt hd))
  scope _ := rfl

theorem extends_newArray (vs : List Value) (m : Memory) : m.Extends (newArray vs m).2 := by
  rw [newArray_run]
  exact (extends_withCells m vs).trans (extends_push_array (m.withCells vs) _)

theorem newArray_eq (vs : List Value) (m : Memory) :
    newArray vs m = (.ok (.array ⟨m.arrays.size⟩), (newArray vs m).2) :=
  Step.eq_of_fst (by rw [newArray_run])

theorem holds_newArray (vs : List Value) (m : Memory) :
    (newArray vs m).2.Holds (.array ⟨m.arrays.size⟩) := by
  rw [newArray_run]
  simp [Holds]

/-- The new cells hold the values in order. -/
theorem map_read_nextCells (m : Memory) (vs : List Value) :
    (m.nextCells vs.length).map (m.withCells vs).read = vs := by
  refine List.ext_getElem (by simp [nextCells]) fun i hi hi' => ?_
  simp [nextCells, read, withCells, Array.getD, hi']

theorem elements_newArray (vs : List Value) (m : Memory) :
    (newArray vs m).2.elements (.array ⟨m.arrays.size⟩) = vs := by
  rw [newArray_run]
  have hslots := (slots_push (m.withCells vs) (m.nextCells vs.length).toArray
    ⟨m.arrays.size⟩).trans (if_pos rfl)
  refine Eq.trans ?_ (map_read_nextCells m vs)
  exact congrArg (fun cells => List.map (m.withCells vs).read (Array.toList cells)) hslots

theorem newDict_eq (pairs : List (String × Value)) (m : Memory) :
    newDict pairs m = (.ok (.dict ⟨m.dicts.size⟩), (newDict pairs m).2) := by
  obtain ⟨t, vs, hrun, -⟩ := newDict_run pairs m
  exact Step.eq_of_fst (by rw [hrun])

theorem holds_newDict (pairs : List (String × Value)) (m : Memory) :
    (newDict pairs m).2.Holds (.dict ⟨m.dicts.size⟩) := by
  obtain ⟨t, vs, hrun, -⟩ := newDict_run pairs m
  rw [hrun]
  simp [Holds]

/-- The entries of a new dictionary, with what is in their cells. -/
theorem newEntries_contents (t : Table CellId) (pairs : List (String × Value)) (m : Memory)
    (ht : ∀ key c, t.get? key = some c → c.index < m.cells.size) :
    ∃ t' vs, newEntries t pairs m = (.ok t', m.withCells vs) ∧
      t'.map (m.withCells vs).read = (t.map m.read).withFirsts pairs := by
  induction pairs generalizing t m with
  | nil => exact ⟨t, [], by simp [newEntries, withCells], by simp [withCells, Table.withFirsts]⟩
  | cons p pairs ih =>
    obtain ⟨k, v⟩ := p
    by_cases hk : t.contains k = true
    · obtain ⟨t', vs, hrun, hread⟩ := ih t m ht
      refine ⟨t', vs, by rw [newEntries, if_pos hk, hrun], ?_⟩
      rw [hread, Table.withFirsts, Table.contains_map, if_pos hk]
    · have hinserted : ∀ key c, (t.insert k ⟨m.cells.size⟩).get? key = some c →
          c.index < (m.withCells [v]).cells.size := by
        intro key c hc
        simp only [withCells, Array.size_append, List.size_toArray, List.length_singleton]
        rw [Table.get?_insert] at hc
        split at hc
        · cases hc
          simp
        · have := ht key c hc
          omega
      obtain ⟨t', vs, hrun, hread⟩ := ih (t.insert k ⟨m.cells.size⟩) (m.withCells [v]) hinserted
      have hcells : (m.withCells [v]).withCells vs = m.withCells (v :: vs) := by simp [withCells]
      have hold : t.map (m.withCells [v]).read = t.map m.read :=
        Table.map_congr fun key c hc => read_withCells [v] (ht key c hc)
      rw [← Table.insert_map, hold, read_withCells_next, hcells] at hread
      rw [hcells] at hrun
      refine ⟨t', v :: vs, ?_, ?_⟩
      · rw [newEntries, if_neg hk, Step.bind_run_ok (newCell_run v m), hrun]
      · rw [hread, Table.withFirsts, Table.contains_map, if_neg hk]

theorem newDict_contents (pairs : List (String × Value)) (m : Memory) :
    ∃ m', newDict pairs m = (.ok (.dict ⟨m.dicts.size⟩), m') ∧ m.Extends m' ∧
      m'.scopes = m.scopes ∧ m'.contents ⟨m.dicts.size⟩ = Table.empty.withFirsts pairs := by
  obtain ⟨t, vs, hrun, hread⟩ := newEntries_contents .empty pairs m (by simp)
  have hentries := (entries_push (m.withCells vs) t ⟨m.dicts.size⟩).trans (if_pos rfl)
  refine ⟨_, Step.bind_run_ok hrun _, ?_, rfl, ?_⟩
  · exact (extends_withCells m vs).trans (extends_push_dict (m.withCells vs) t)
  · refine Eq.trans ?_ hread
    exact congrArg (Table.map (m.withCells vs).read) hentries

end Memory

/-- A running script makes a new array with the values for its elements. -/
theorem Action.newArray_run (vs : List Value) (s : Machine) : ∃ m,
    onMemory (Memory.newArray vs) s =
      (.ok (.array ⟨s.memory.arrays.size⟩), { s with memory := m }) ∧
    m.elements (.array ⟨s.memory.arrays.size⟩) = vs := by
  have hnew := Memory.newArray_run vs s.memory
  have helements := Memory.elements_newArray vs s.memory
  rw [hnew] at helements
  exact ⟨_, onMemory_run hnew, helements⟩

end Kiln
