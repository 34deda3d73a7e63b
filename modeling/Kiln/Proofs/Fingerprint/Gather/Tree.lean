import Kiln.Value

/-!
# Kiln.Proofs.Fingerprint.Gather.Tree — values without an end mark

What is fingerprinted of a value lists the elements of an array and the entries of a dictionary
without saying where the list ends, and writes strings as they are.  Read from the left, an item that
follows a list which is still open belongs to that list, and whatever follows a string belongs to the
string.

* `take?` puts an item where it is read: into the innermost list of its kind that is open at the end
  of a value, or into the string there; `Takes` says whether there is one.
* `gather` moves every item to where it is read, and keeps what is written (`encode_gather`).
* `Gathered`: no item stands behind a list or a string that would take it, and no key holds the mark
  that ends keys.  `gather` makes it so (`gathered_gather`).
-/

namespace Kiln

namespace Tree

/-! ## Items of values -/

/-- An item of a container. -/
inductive Item where
  | element (t : Tree)
  | entry (key : String) (t : Tree)

/-- The kinds of containers. -/
inductive Listing where
  | elements
  | entries
  deriving DecidableEq

/-- The kind of container an item belongs to. -/
def Item.listing : Item → Listing
  | element _ => .elements
  | entry _ _ => .entries

/-- What is fingerprinted of an item. -/
def Item.encode : Item → String
  | element t => "ref:" ++ t.encode
  | entry k t => "key:" ++ k ++ "ref:" ++ t.encode

/-- The elements of an array with the item at their end. -/
def Item.ontoElements : Item → List Tree → Option (List Tree)
  | element t, ts => some (ts ++ [t])
  | entry .., _ => none

/-- The entries of a dictionary with the item at their end. -/
def Item.ontoEntries : Item → List (String × Tree) → Option (List (String × Tree))
  | entry k t, ps => some (ps ++ [(k, t)])
  | element _, _ => none

mutual

/-- The value with the item where it is read: in the innermost list that is open at its end, or in
the string there. -/
def take? (i : Item) : Tree → Option Tree
  | .void => none
  | .int _ => none
  | .str s => some (.str (s ++ i.encode))
  | .array ts => ((takeLast? i ts).or (i.ontoElements ts)).map .array
  | .dict ps => ((takeInLast? i ps).or (i.ontoEntries ps)).map .dict

/-- The values with the item in the last of them. -/
def takeLast? (i : Item) : List Tree → Option (List Tree)
  | [] => none
  | [t] => (take? i t).map fun t' => [t']
  | t :: rest => (takeLast? i rest).map (t :: ·)

/-- The entries with the item in the last of them. -/
def takeInLast? (i : Item) : List (String × Tree) → Option (List (String × Tree))
  | [] => none
  | [(k, t)] => (take? i t).map fun t' => [(k, t')]
  | p :: rest => (takeInLast? i rest).map (p :: ·)

end

mutual

/-- Whether an item of the kind behind the value is read as part of it. -/
def Takes (l : Listing) : Tree → Prop
  | .void => False
  | .int _ => False
  | .str _ => True
  | .array ts => l = .elements ∨ LastTakes l ts
  | .dict ps => l = .entries ∨ LastEntryTakes l ps

/-- Whether an item of the kind is read as part of the last value. -/
def LastTakes (l : Listing) : List Tree → Prop
  | [] => False
  | [t] => Takes l t
  | _ :: rest => LastTakes l rest

/-- Whether an item of the kind is read as part of the last entry. -/
def LastEntryTakes (l : Listing) : List (String × Tree) → Prop
  | [] => False
  | [(_, t)] => Takes l t
  | _ :: rest => LastEntryTakes l rest

end

/-- The value with the item where it is read, if it takes the item at all. -/
def extend (t : Tree) (i : Item) : Tree := (take? i t).getD t

mutual

/-- The value with every item moved to where it is read. -/
def gather : Tree → Tree
  | .void => .void
  | .int n => .int n
  | .str s => .str s
  | .array ts => ((gatherAll ts).map .element).foldl extend (.array [])
  | .dict ps => ((gatherEntries ps).map fun p => .entry p.1 p.2).foldl extend (.dict [])

/-- Each value with its items moved. -/
def gatherAll : List Tree → List Tree
  | [] => []
  | t :: rest => gather t :: gatherAll rest

/-- Each entry with its items moved. -/
def gatherEntries : List (String × Tree) → List (String × Tree)
  | [] => []
  | (k, t) :: rest => (k, gather t) :: gatherEntries rest

end

/-- The text that ends a key: the mark of a value, and the start of its header. -/
def keyEnd : String := "ref:class:"

/-- The key does not hold the text that ends keys. -/
def PlainKey (k : String) : Prop := ¬ keyEnd.toList <:+: k.toList

instance (k : String) : Decidable (PlainKey k) := inferInstanceAs (Decidable (¬ _))

mutual

/-- The keys of all dictionaries in the value are plain. -/
def PlainKeys : Tree → Prop
  | .void => True
  | .int _ => True
  | .str _ => True
  | .array ts => PlainKeysAll ts
  | .dict ps => PlainKeysEntries ps

/-- The keys of all dictionaries in the values are plain. -/
def PlainKeysAll : List Tree → Prop
  | [] => True
  | t :: rest => PlainKeys t ∧ PlainKeysAll rest

/-- The keys of the entries and of all dictionaries in them are plain. -/
def PlainKeysEntries : List (String × Tree) → Prop
  | [] => True
  | (k, t) :: rest => PlainKey k ∧ PlainKeys t ∧ PlainKeysEntries rest

end

mutual

/-- No item stands behind a list or a string that would take it, and all keys are plain. -/
def Gathered : Tree → Prop
  | .void => True
  | .int _ => True
  | .str _ => True
  | .array ts => GatheredList ts
  | .dict ps => GatheredEntries ps

/-- No element of an array stands behind a value that would take it. -/
def GatheredList : List Tree → Prop
  | [] => True
  | t :: rest => Gathered t ∧ (rest ≠ [] → ¬ Takes .elements t) ∧ GatheredList rest

/-- No entry of a dictionary stands behind a value that would take it. -/
def GatheredEntries : List (String × Tree) → Prop
  | [] => True
  | (k, t) :: rest =>
    PlainKey k ∧ Gathered t ∧ (rest ≠ [] → ¬ Takes .entries t) ∧ GatheredEntries rest

end

/-- The value of an item is gathered, and its key is plain. -/
def Item.Gathered : Item → Prop
  | element t => t.Gathered
  | entry k t => PlainKey k ∧ t.Gathered

/-! ## Taking an item -/

theorem Item.ontoElements_eq_none {i : Item} {ts : List Tree} :
    i.ontoElements ts = none ↔ i.listing ≠ .elements := by
  cases i <;> simp [Item.ontoElements, Item.listing]

theorem Item.ontoEntries_eq_none {i : Item} {ps : List (String × Tree)} :
    i.ontoEntries ps = none ↔ i.listing ≠ .entries := by
  cases i <;> simp [Item.ontoEntries, Item.listing]

mutual

/-- An item is refused exactly where no list of its kind is open and no string stands. -/
theorem take?_eq_none (i : Item) : ∀ t : Tree, take? i t = none ↔ ¬ Takes i.listing t
  | .void | .int _ | .str _ => by simp [take?, Takes]
  | .array ts => by
    simp [take?, Takes, takeLast?_eq_none i ts, Item.ontoElements_eq_none, and_comm]
  | .dict ps => by
    simp [take?, Takes, takeInLast?_eq_none i ps, Item.ontoEntries_eq_none, and_comm]

theorem takeLast?_eq_none (i : Item) :
    ∀ ts : List Tree, takeLast? i ts = none ↔ ¬ LastTakes i.listing ts
  | [] => by simp [takeLast?, LastTakes]
  | [t] => by simp [takeLast?, LastTakes, take?_eq_none i t]
  | _ :: t :: rest => by simp [takeLast?, LastTakes, takeLast?_eq_none i (t :: rest)]

theorem takeInLast?_eq_none (i : Item) :
    ∀ ps : List (String × Tree), takeInLast? i ps = none ↔ ¬ LastEntryTakes i.listing ps
  | [] => by simp [takeInLast?, LastEntryTakes]
  | [(_, t)] => by simp [takeInLast?, LastEntryTakes, take?_eq_none i t]
  | _ :: p :: rest => by
    simp [takeInLast?, LastEntryTakes, takeInLast?_eq_none i (p :: rest)]

end

theorem gatheredList_concat {t : Tree} (ht : t.Gathered) :
    ∀ {ts : List Tree}, GatheredList ts → ¬ LastTakes .elements ts → GatheredList (ts ++ [t])
  | [], _, _ => by simp [GatheredList, ht]
  | [a], h, hl => by
    simp only [LastTakes] at hl
    simp only [GatheredList] at h
    simp [GatheredList, h.1, hl, ht]
  | a :: b :: rest, h, hl => by
    simp only [LastTakes] at hl
    obtain ⟨ha, hab, hrest⟩ := h
    exact ⟨ha, fun _ => hab (by simp), gatheredList_concat ht hrest hl⟩

theorem gatheredEntries_concat {k : String} {t : Tree} (hk : PlainKey k) (ht : t.Gathered) :
    ∀ {ps : List (String × Tree)}, GatheredEntries ps → ¬ LastEntryTakes .entries ps →
      GatheredEntries (ps ++ [(k, t)])
  | [], _, _ => by simp [GatheredEntries, hk, ht]
  | [(a, b)], h, hl => by
    simp only [LastEntryTakes] at hl
    simp only [GatheredEntries] at h
    simp [GatheredEntries, h.1, h.2.1, hl, hk, ht]
  | (a, b) :: p :: rest, h, hl => by
    simp only [LastEntryTakes] at hl
    obtain ⟨ha, hb, hp, hrest⟩ := h
    exact ⟨ha, hb, fun _ => hp (by simp), gatheredEntries_concat hk ht hrest hl⟩

/-- The last value changes only within. -/
theorem takeLast?_cons_cons {i : Item} {a b : Tree} {rest ts' : List Tree}
    (h : takeLast? i (a :: b :: rest) = some ts') :
    ∃ rest', takeLast? i (b :: rest) = some rest' ∧ ts' = a :: rest' := by
  simp only [takeLast?, Option.map_eq_some_iff] at h
  obtain ⟨rest', hrest, rfl⟩ := h
  exact ⟨rest', hrest, rfl⟩

theorem takeInLast?_cons_cons {i : Item} {a b : String × Tree} {rest ps' : List (String × Tree)}
    (h : takeInLast? i (a :: b :: rest) = some ps') :
    ∃ rest', takeInLast? i (b :: rest) = some rest' ∧ ps' = a :: rest' := by
  simp only [takeInLast?, Option.map_eq_some_iff] at h
  obtain ⟨rest', hrest, rfl⟩ := h
  exact ⟨rest', hrest, rfl⟩

/-! An item goes into the last value of a container, or behind it where the last refuses it. -/

theorem take?_array {i : Item} {ts : List Tree} {t' : Tree} (h : take? i (.array ts) = some t') :
    (∃ ts', takeLast? i ts = some ts' ∧ t' = .array ts') ∨
      ∃ x, i = .element x ∧ ¬ LastTakes .elements ts ∧ t' = .array (ts ++ [x]) := by
  simp only [take?, Option.map_eq_some_iff, Option.or_eq_some_iff] at h
  obtain ⟨ts', hts | ⟨hnone, honto⟩, rfl⟩ := h
  · exact .inl ⟨ts', hts, rfl⟩
  · cases i <;> simp only [Item.ontoElements, Option.some.injEq, reduceCtorEq] at honto
    exact .inr ⟨_, rfl, (takeLast?_eq_none _ _).1 hnone, by rw [honto]⟩

theorem take?_dict {i : Item} {ps : List (String × Tree)} {t' : Tree}
    (h : take? i (.dict ps) = some t') :
    (∃ ps', takeInLast? i ps = some ps' ∧ t' = .dict ps') ∨
      ∃ k x, i = .entry k x ∧ ¬ LastEntryTakes .entries ps ∧ t' = .dict (ps ++ [(k, x)]) := by
  simp only [take?, Option.map_eq_some_iff, Option.or_eq_some_iff] at h
  obtain ⟨ps', hps | ⟨hnone, honto⟩, rfl⟩ := h
  · exact .inl ⟨ps', hps, rfl⟩
  · cases i <;> simp only [Item.ontoEntries, Option.some.injEq, reduceCtorEq] at honto
    exact .inr ⟨_, _, rfl, (takeInLast?_eq_none _ _).1 hnone, by rw [honto]⟩

mutual

/-- After an item was put in, the next one of its kind is taken as well. -/
theorem takes_of_take? {i : Item} : ∀ {t t' : Tree}, take? i t = some t' → Takes i.listing t'
  | .void, _, h | .int _, _, h => by simp [take?] at h
  | .str s, _, h => by
    simp only [take?, Option.some.injEq] at h
    subst h
    trivial
  | .array ts, _, h => by
    obtain ⟨ts', hts, rfl⟩ | ⟨x, rfl, -, rfl⟩ := take?_array h
    · exact .inr (lastTakes_of_takeLast? hts)
    · exact .inl rfl
  | .dict ps, _, h => by
    obtain ⟨ps', hps, rfl⟩ | ⟨k, x, rfl, -, rfl⟩ := take?_dict h
    · exact .inr (lastEntryTakes_of_takeInLast? hps)
    · exact .inl rfl

theorem lastTakes_of_takeLast? {i : Item} :
    ∀ {ts ts' : List Tree}, takeLast? i ts = some ts' → LastTakes i.listing ts'
  | [], _, h => by simp [takeLast?] at h
  | [t], _, h => by
    simp only [takeLast?, Option.map_eq_some_iff] at h
    obtain ⟨t', ht, rfl⟩ := h
    have ih := takes_of_take? ht
    exact ih
  | a :: b :: rest, _, h => by
    obtain ⟨rest', hrest, rfl⟩ := takeLast?_cons_cons h
    have ih := lastTakes_of_takeLast? hrest
    cases rest' with
    | nil => exact ih.elim
    | cons c rest' => exact ih

theorem lastEntryTakes_of_takeInLast? {i : Item} :
    ∀ {ps ps' : List (String × Tree)}, takeInLast? i ps = some ps' →
      LastEntryTakes i.listing ps'
  | [], _, h => by simp [takeInLast?] at h
  | [(k, t)], _, h => by
    simp only [takeInLast?, Option.map_eq_some_iff] at h
    obtain ⟨t', ht, rfl⟩ := h
    have ih := takes_of_take? ht
    exact ih
  | a :: b :: rest, _, h => by
    obtain ⟨rest', hrest, rfl⟩ := takeInLast?_cons_cons h
    have ih := lastEntryTakes_of_takeInLast? hrest
    cases rest' with
    | nil => exact ih.elim
    | cons c rest' => exact ih

end

mutual

/-- Putting a gathered item where it is read keeps a value gathered. -/
theorem gathered_take? {i : Item} (hi : i.Gathered) :
    ∀ {t t' : Tree}, t.Gathered → take? i t = some t' → t'.Gathered
  | .void, _, _, h | .int _, _, _, h => by simp [take?] at h
  | .str s, _, _, h => by
    simp only [take?, Option.some.injEq] at h
    subst h
    trivial
  | .array ts, _, ht, h => by
    obtain ⟨ts', hts, rfl⟩ | ⟨x, rfl, hlast, rfl⟩ := take?_array h
    · exact gatheredList_takeLast? hi ht hts
    · exact gatheredList_concat hi ht hlast
  | .dict ps, _, ht, h => by
    obtain ⟨ps', hps, rfl⟩ | ⟨k, x, rfl, hlast, rfl⟩ := take?_dict h
    · exact gatheredEntries_takeInLast? hi ht hps
    · exact gatheredEntries_concat hi.1 hi.2 ht hlast

theorem gatheredList_takeLast? {i : Item} (hi : i.Gathered) :
    ∀ {ts ts' : List Tree}, GatheredList ts → takeLast? i ts = some ts' → GatheredList ts'
  | [], _, _, h => by simp [takeLast?] at h
  | [t], _, ht, h => by
    simp only [takeLast?, Option.map_eq_some_iff] at h
    obtain ⟨t', ht', rfl⟩ := h
    exact ⟨gathered_take? hi ht.1 ht', fun hne => absurd rfl hne, trivial⟩
  | a :: b :: rest, _, ht, h => by
    obtain ⟨rest', hrest, rfl⟩ := takeLast?_cons_cons h
    exact ⟨ht.1, fun _ => ht.2.1 (by simp), gatheredList_takeLast? hi ht.2.2 hrest⟩

theorem gatheredEntries_takeInLast? {i : Item} (hi : i.Gathered) :
    ∀ {ps ps' : List (String × Tree)}, GatheredEntries ps → takeInLast? i ps = some ps' →
      GatheredEntries ps'
  | [], _, _, h => by simp [takeInLast?] at h
  | [(k, t)], _, ht, h => by
    simp only [takeInLast?, Option.map_eq_some_iff] at h
    obtain ⟨t', ht', rfl⟩ := h
    exact ⟨ht.1, gathered_take? hi ht.2.1 ht', fun hne => absurd rfl hne, trivial⟩
  | (k, t) :: b :: rest, _, ht, h => by
    obtain ⟨rest', hrest, rfl⟩ := takeInLast?_cons_cons h
    exact ⟨ht.1, ht.2.1, fun _ => ht.2.2.1 (by simp),
      gatheredEntries_takeInLast? hi ht.2.2.2 hrest⟩

end

theorem gathered_extend {t : Tree} {i : Item} (ht : t.Gathered) (hi : i.Gathered) :
    (t.extend i).Gathered := by
  unfold extend
  cases h : take? i t with
  | none => exact ht
  | some t' => exact gathered_take? hi ht h

theorem gathered_foldl_extend :
    ∀ {is : List Item} {t : Tree}, t.Gathered → (∀ i ∈ is, i.Gathered) →
      (is.foldl extend t).Gathered
  | [], _, ht, _ => ht
  | i :: is, t, ht, h => by
    have hi : (t.extend i).Gathered := gathered_extend ht (h i (by simp))
    have ih := gathered_foldl_extend hi fun j (hj : j ∈ is) => h j (by simp [hj])
    exact ih

mutual

/-- Gathering leaves no item behind a list or a string that would take it. -/
theorem gathered_gather : ∀ {t : Tree}, t.PlainKeys → t.gather.Gathered
  | .void, _ | .int _, _ | .str _, _ => trivial
  | .array ts, h => by
    refine gathered_foldl_extend trivial fun i hi => ?_
    obtain ⟨x, hx, rfl⟩ := List.mem_map.1 hi
    exact gathered_of_mem_gatherAll h x hx
  | .dict ps, h => by
    refine gathered_foldl_extend trivial fun i hi => ?_
    obtain ⟨p, hp, rfl⟩ := List.mem_map.1 hi
    exact gathered_of_mem_gatherEntries h p hp

theorem gathered_of_mem_gatherAll : ∀ {ts : List Tree}, PlainKeysAll ts →
    ∀ x ∈ gatherAll ts, x.Gathered
  | [], _, x, hx => by simp [gatherAll] at hx
  | t :: rest, h, x, hx => by
    rcases List.mem_cons.1 hx with rfl | hx
    · exact gathered_gather h.1
    · exact gathered_of_mem_gatherAll h.2 x hx

theorem gathered_of_mem_gatherEntries : ∀ {ps : List (String × Tree)}, PlainKeysEntries ps →
    ∀ p ∈ gatherEntries ps, PlainKey p.1 ∧ p.2.Gathered
  | [], _, p, hp => by simp [gatherEntries] at hp
  | (k, t) :: rest, h, p, hp => by
    rcases List.mem_cons.1 hp with rfl | hp
    · exact ⟨h.1, gathered_gather h.2.1⟩
    · exact gathered_of_mem_gatherEntries h.2.2 p hp

end

/-! ## Gathering keeps what is written -/

theorem encodeElements_append : ∀ ts us : List Tree,
    encodeElements (ts ++ us) = encodeElements ts ++ encodeElements us
  | [], us => by simp [encodeElements]
  | t :: ts, us => by
    simp only [List.cons_append, encodeElements, encodeElements_append ts us, String.append_assoc]

theorem encodeEntries_append : ∀ ps qs : List (String × Tree),
    encodeEntries (ps ++ qs) = encodeEntries ps ++ encodeEntries qs
  | [], qs => by simp [encodeEntries]
  | (k, t) :: ps, qs => by
    simp only [List.cons_append, encodeEntries, encodeEntries_append ps qs, String.append_assoc]

mutual

/-- An item is written behind the value that takes it. -/
theorem encode_take? {i : Item} :
    ∀ {t t' : Tree}, take? i t = some t' → t'.encode = t.encode ++ i.encode
  | .void, _, h | .int _, _, h => by simp [take?] at h
  | .str s, _, h => by
    simp only [take?, Option.some.injEq] at h
    subst h
    simp only [encode, String.append_assoc]
  | .array ts, _, h => by
    obtain ⟨ts', hts, rfl⟩ | ⟨x, rfl, -, rfl⟩ := take?_array h
    · simp only [encode, encodeElements_takeLast? hts, String.append_assoc]
    · simp only [encode, encodeElements_append, encodeElements, Item.encode, String.append_assoc,
        String.append_empty]
  | .dict ps, _, h => by
    obtain ⟨ps', hps, rfl⟩ | ⟨k, x, rfl, -, rfl⟩ := take?_dict h
    · simp only [encode, encodeEntries_takeInLast? hps, String.append_assoc]
    · simp only [encode, encodeEntries_append, encodeEntries, Item.encode, String.append_assoc,
        String.append_empty]

theorem encodeElements_takeLast? {i : Item} :
    ∀ {ts ts' : List Tree}, takeLast? i ts = some ts' →
      encodeElements ts' = encodeElements ts ++ i.encode
  | [], _, h => by simp [takeLast?] at h
  | [t], _, h => by
    simp only [takeLast?, Option.map_eq_some_iff] at h
    obtain ⟨t', ht, rfl⟩ := h
    simp only [encodeElements, encode_take? ht, String.append_assoc, String.append_empty]
  | a :: b :: rest, _, h => by
    obtain ⟨rest', hrest, rfl⟩ := takeLast?_cons_cons h
    have ih := encodeElements_takeLast? hrest
    show "ref:" ++ a.encode ++ encodeElements rest' =
      "ref:" ++ a.encode ++ encodeElements (b :: rest) ++ i.encode
    simp only [ih, String.append_assoc]

theorem encodeEntries_takeInLast? {i : Item} :
    ∀ {ps ps' : List (String × Tree)}, takeInLast? i ps = some ps' →
      encodeEntries ps' = encodeEntries ps ++ i.encode
  | [], _, h => by simp [takeInLast?] at h
  | [(k, t)], _, h => by
    simp only [takeInLast?, Option.map_eq_some_iff] at h
    obtain ⟨t', ht, rfl⟩ := h
    simp only [encodeEntries, encode_take? ht, String.append_assoc, String.append_empty]
  | (k, t) :: b :: rest, _, h => by
    obtain ⟨rest', hrest, rfl⟩ := takeInLast?_cons_cons h
    have ih := encodeEntries_takeInLast? hrest
    show "key:" ++ k ++ "ref:" ++ t.encode ++ encodeEntries rest' =
      "key:" ++ k ++ "ref:" ++ t.encode ++ encodeEntries (b :: rest) ++ i.encode
    simp only [ih, String.append_assoc]

end

/-- A value that takes an item goes on with it, and takes the next one of its kind. -/
theorem extend_of_takes {t : Tree} {i : Item} (h : Takes i.listing t) :
    (t.extend i).encode = t.encode ++ i.encode ∧ Takes i.listing (t.extend i) := by
  unfold extend
  cases htake : take? i t with
  | none => exact absurd h ((take?_eq_none i t).1 htake)
  | some t' => exact ⟨encode_take? htake, takes_of_take? htake⟩

theorem encode_foldl_elements : ∀ (ts : List Tree) {t : Tree}, Takes .elements t →
    ((ts.map Item.element).foldl extend t).encode = t.encode ++ encodeElements ts
  | [], _, _ => by simp [encodeElements]
  | x :: rest, t, h => by
    obtain ⟨htext, htakes⟩ := extend_of_takes (i := .element x) h
    have ih := encode_foldl_elements rest htakes
    rw [List.map_cons, List.foldl_cons, ih, htext, encodeElements, String.append_assoc]
    rfl

theorem encode_foldl_entries : ∀ (ps : List (String × Tree)) {t : Tree}, Takes .entries t →
    ((ps.map fun p => Item.entry p.1 p.2).foldl extend t).encode = t.encode ++ encodeEntries ps
  | [], _, _ => by simp [encodeEntries]
  | (k, x) :: rest, t, h => by
    obtain ⟨htext, htakes⟩ := extend_of_takes (i := .entry k x) h
    have ih := encode_foldl_entries rest htakes
    rw [List.map_cons, List.foldl_cons, ih, htext, encodeEntries, String.append_assoc]
    rfl

mutual

/-- What is fingerprinted of a value does not tell where its items stand. -/
theorem encode_gather : ∀ t : Tree, t.gather.encode = t.encode
  | .void | .int _ | .str _ => by simp only [gather]
  | .array ts => by
    have hopen : Takes .elements (.array []) := Or.inl rfl
    rw [gather, encode_foldl_elements _ hopen, encodeElements_gatherAll ts]
    simp [encode, encodeElements]
  | .dict ps => by
    have hopen : Takes .entries (.dict []) := Or.inl rfl
    rw [gather, encode_foldl_entries _ hopen, encodeEntries_gatherEntries ps]
    simp [encode, encodeEntries]

theorem encodeElements_gatherAll : ∀ ts : List Tree,
    encodeElements (gatherAll ts) = encodeElements ts
  | [] => rfl
  | t :: rest => by
    simp only [gatherAll, encodeElements, encode_gather t, encodeElements_gatherAll rest]

theorem encodeEntries_gatherEntries : ∀ ps : List (String × Tree),
    encodeEntries (gatherEntries ps) = encodeEntries ps
  | [] => rfl
  | (k, t) :: rest => by
    simp only [gatherEntries, encodeEntries, encode_gather t, encodeEntries_gatherEntries rest]

end

end Tree

end Kiln
