import Kiln.Expr

/-!
# Kiln.Proofs.Fingerprint.Gather.Expr — lists without an end mark

A fingerprint lists the elements of an array, the entries of a dictionary and the arguments of a
call without saying where the list ends.  Read from the left, an item that follows a list which is
still open belongs to that list.

* `take?` puts an item at the end of the innermost list of its kind that is open at the end of an
  expression; `Takes` says whether there is one.
* `gather` moves every item into the list it would be read into.
* `Gathered`: no item stands behind a list that would take it.  `gather` makes it so
  (`gathered_gather`).
-/

namespace Kiln

namespace Expr

/-! ## Items of expressions -/

/-- An item of a list in an expression. -/
inductive Item where
  | element (e : Expr)
  | entry (key value : Expr)
  | argument (e : Expr)

/-- The kinds of lists in expressions. -/
inductive Listing where
  | elements
  | entries
  | arguments
  deriving DecidableEq

/-- The kind of list an item belongs to. -/
def Item.listing : Item → Listing
  | element _ => .elements
  | entry _ _ => .entries
  | argument _ => .arguments

/-- The elements of an array with the item at their end. -/
def Item.ontoElements : Item → List Expr → Option (List Expr)
  | element e, es => some (es ++ [e])
  | _, _ => none

/-- The entries of a dictionary with the item at their end. -/
def Item.ontoEntries : Item → List (Expr × Expr) → Option (List (Expr × Expr))
  | entry k v, ps => some (ps ++ [(k, v)])
  | _, _ => none

/-- The arguments of a call with the item at their end. -/
def Item.ontoArguments : Item → List Expr → Option (List Expr)
  | argument e, es => some (es ++ [e])
  | _, _ => none

mutual

/-- The expression with the item in the innermost list that is open at its end. -/
def take? (i : Item) : Expr → Option Expr
  | .const _ => none
  | .var _ => none
  | .array es => ((takeLast? i es).or (i.ontoElements es)).map .array
  | .dict ps => ((takeInLast? i ps).or (i.ontoEntries ps)).map .dict
  | .unary op arg => (take? i arg).map (.unary op)
  | .bump op side arg => (take? i arg).map (.bump op side)
  | .binary op left right => (take? i right).map (.binary op left)
  | .ternary cond yes no => (take? i no).map (.ternary cond yes)
  | .builtin fn args => ((takeLast? i args).or (i.ontoArguments args)).map (.builtin fn)
  | .call name args => ((takeLast? i args).or (i.ontoArguments args)).map (.call name)

/-- The expressions with the item in a list that is open at the end of the last. -/
def takeLast? (i : Item) : List Expr → Option (List Expr)
  | [] => none
  | [e] => (take? i e).map fun e' => [e']
  | e :: rest => (takeLast? i rest).map (e :: ·)

/-- The entries with the item in a list that is open at the end of the last. -/
def takeInLast? (i : Item) : List (Expr × Expr) → Option (List (Expr × Expr))
  | [] => none
  | [(k, v)] => (take? i v).map fun v' => [(k, v')]
  | p :: rest => (takeInLast? i rest).map (p :: ·)

end

mutual

/-- Whether a list of the kind is open at the end of the expression. -/
def Takes (l : Listing) : Expr → Prop
  | .const _ => False
  | .var _ => False
  | .array es => l = .elements ∨ LastTakes l es
  | .dict ps => l = .entries ∨ LastEntryTakes l ps
  | .unary _ arg => Takes l arg
  | .bump _ _ arg => Takes l arg
  | .binary _ _ right => Takes l right
  | .ternary _ _ no => Takes l no
  | .builtin _ args => l = .arguments ∨ LastTakes l args
  | .call _ args => l = .arguments ∨ LastTakes l args

/-- Whether a list of the kind is open at the end of the last expression. -/
def LastTakes (l : Listing) : List Expr → Prop
  | [] => False
  | [e] => Takes l e
  | _ :: rest => LastTakes l rest

/-- Whether a list of the kind is open at the end of the last entry. -/
def LastEntryTakes (l : Listing) : List (Expr × Expr) → Prop
  | [] => False
  | [(_, v)] => Takes l v
  | _ :: rest => LastEntryTakes l rest

end

/-- The expression with the item in the list that takes it, if there is one. -/
def extend (e : Expr) (i : Item) : Expr := (take? i e).getD e

mutual

/-- The expression with every item moved into the list it would be read into. -/
def gather : Expr → Expr
  | .const value => .const value
  | .var name => .var name
  | .array es => ((gatherAll es).map .element).foldl extend (.array [])
  | .dict ps => ((gatherEntries ps).map fun p => .entry p.1 p.2).foldl extend (.dict [])
  | .unary op arg => .unary op (gather arg)
  | .bump op side arg => .bump op side (gather arg)
  | .binary op left right => .binary op (gather left) (gather right)
  | .ternary cond yes no => .ternary (gather cond) (gather yes) (gather no)
  | .builtin fn args => ((gatherAll args).map .argument).foldl extend (.builtin fn [])
  | .call name args => ((gatherAll args).map .argument).foldl extend (.call name [])

/-- Each expression with its items moved. -/
def gatherAll : List Expr → List Expr
  | [] => []
  | e :: rest => gather e :: gatherAll rest

/-- Each key and value with its items moved. -/
def gatherEntries : List (Expr × Expr) → List (Expr × Expr)
  | [] => []
  | (k, v) :: rest => (gather k, gather v) :: gatherEntries rest

end

mutual

/-- No item stands behind a list that would take it. -/
def Gathered : Expr → Prop
  | .const _ => True
  | .var _ => True
  | .array es => GatheredList .elements es
  | .dict ps => GatheredEntries ps
  | .unary _ arg => Gathered arg
  | .bump _ _ arg => Gathered arg
  | .binary _ left right => Gathered left ∧ Gathered right
  | .ternary cond yes no => Gathered cond ∧ Gathered yes ∧ Gathered no
  | .builtin _ args => GatheredList .arguments args
  | .call _ args => GatheredList .arguments args

/-- No item of a list stands behind a list that would take it. -/
def GatheredList (l : Listing) : List Expr → Prop
  | [] => True
  | e :: rest => Gathered e ∧ (rest ≠ [] → ¬ Takes l e) ∧ GatheredList l rest

/-- No entry of a dictionary stands behind a dictionary that would take it. -/
def GatheredEntries : List (Expr × Expr) → Prop
  | [] => True
  | (k, v) :: rest =>
    Gathered k ∧ Gathered v ∧ (rest ≠ [] → ¬ Takes .entries v) ∧ GatheredEntries rest

end

/-- The expressions of an item are gathered. -/
def Item.Gathered : Item → Prop
  | element e => e.Gathered
  | entry k v => k.Gathered ∧ v.Gathered
  | argument e => e.Gathered

/-! ## Taking an item -/

theorem Item.ontoElements_eq_none {i : Item} {es : List Expr} :
    i.ontoElements es = none ↔ i.listing ≠ .elements := by
  cases i <;> simp [Item.ontoElements, Item.listing]

theorem Item.ontoEntries_eq_none {i : Item} {ps : List (Expr × Expr)} :
    i.ontoEntries ps = none ↔ i.listing ≠ .entries := by
  cases i <;> simp [Item.ontoEntries, Item.listing]

theorem Item.ontoArguments_eq_none {i : Item} {es : List Expr} :
    i.ontoArguments es = none ↔ i.listing ≠ .arguments := by
  cases i <;> simp [Item.ontoArguments, Item.listing]

mutual

/-- An item is refused exactly where no list of its kind is open. -/
theorem take?_eq_none (i : Item) : ∀ e : Expr, take? i e = none ↔ ¬ Takes i.listing e
  | .const _ | .var _ => by simp [take?, Takes]
  | .array es => by
    simp [take?, Takes, takeLast?_eq_none i es, Item.ontoElements_eq_none, and_comm]
  | .dict ps => by
    simp [take?, Takes, takeInLast?_eq_none i ps, Item.ontoEntries_eq_none, and_comm]
  | .unary _ arg | .bump _ _ arg => by simp [take?, Takes, take?_eq_none i arg]
  | .binary _ _ right => by simp [take?, Takes, take?_eq_none i right]
  | .ternary _ _ no => by simp [take?, Takes, take?_eq_none i no]
  | .builtin _ args | .call _ args => by
    simp [take?, Takes, takeLast?_eq_none i args, Item.ontoArguments_eq_none, and_comm]

theorem takeLast?_eq_none (i : Item) :
    ∀ es : List Expr, takeLast? i es = none ↔ ¬ LastTakes i.listing es
  | [] => by simp [takeLast?, LastTakes]
  | [e] => by simp [takeLast?, LastTakes, take?_eq_none i e]
  | _ :: e :: rest => by simp [takeLast?, LastTakes, takeLast?_eq_none i (e :: rest)]

theorem takeInLast?_eq_none (i : Item) :
    ∀ ps : List (Expr × Expr), takeInLast? i ps = none ↔ ¬ LastEntryTakes i.listing ps
  | [] => by simp [takeInLast?, LastEntryTakes]
  | [(_, v)] => by simp [takeInLast?, LastEntryTakes, take?_eq_none i v]
  | _ :: p :: rest => by
    simp [takeInLast?, LastEntryTakes, takeInLast?_eq_none i (p :: rest)]

end

theorem gatheredList_concat {l : Listing} {e : Expr} (he : e.Gathered) :
    ∀ {es : List Expr}, GatheredList l es → ¬ LastTakes l es → GatheredList l (es ++ [e])
  | [], _, _ => by simp [GatheredList, he]
  | [a], h, hl => by
    simp only [LastTakes] at hl
    simp only [GatheredList] at h
    simp [GatheredList, h.1, hl, he]
  | a :: b :: rest, h, hl => by
    simp only [LastTakes] at hl
    obtain ⟨ha, hab, hrest⟩ := h
    exact ⟨ha, fun _ => hab (by simp), gatheredList_concat he hrest hl⟩

theorem gatheredEntries_concat {k v : Expr} (hk : k.Gathered) (hv : v.Gathered) :
    ∀ {ps : List (Expr × Expr)}, GatheredEntries ps → ¬ LastEntryTakes .entries ps →
      GatheredEntries (ps ++ [(k, v)])
  | [], _, _ => by simp [GatheredEntries, hk, hv]
  | [(a, b)], h, hl => by
    simp only [LastEntryTakes] at hl
    simp only [GatheredEntries] at h
    simp [GatheredEntries, h.1, h.2.1, hl, hk, hv]
  | (a, b) :: p :: rest, h, hl => by
    simp only [LastEntryTakes] at hl
    obtain ⟨ha, hb, hp, hrest⟩ := h
    exact ⟨ha, hb, fun _ => hp (by simp), gatheredEntries_concat hk hv hrest hl⟩

/-- The last expression changes only within. -/
theorem takeLast?_cons_cons {i : Item} {a b : Expr} {rest es' : List Expr}
    (h : takeLast? i (a :: b :: rest) = some es') :
    ∃ rest', takeLast? i (b :: rest) = some rest' ∧ es' = a :: rest' := by
  simp only [takeLast?, Option.map_eq_some_iff] at h
  obtain ⟨rest', hrest, rfl⟩ := h
  exact ⟨rest', hrest, rfl⟩

theorem takeInLast?_cons_cons {i : Item} {a b : Expr × Expr} {rest ps' : List (Expr × Expr)}
    (h : takeInLast? i (a :: b :: rest) = some ps') :
    ∃ rest', takeInLast? i (b :: rest) = some rest' ∧ ps' = a :: rest' := by
  simp only [takeInLast?, Option.map_eq_some_iff] at h
  obtain ⟨rest', hrest, rfl⟩ := h
  exact ⟨rest', hrest, rfl⟩

/-! An item goes into the last expression of a list, or behind it where the last refuses it. -/

theorem take?_array {i : Item} {es : List Expr} {e' : Expr} (h : take? i (.array es) = some e') :
    (∃ es', takeLast? i es = some es' ∧ e' = .array es') ∨
      ∃ x, i = .element x ∧ ¬ LastTakes .elements es ∧ e' = .array (es ++ [x]) := by
  simp only [take?, Option.map_eq_some_iff, Option.or_eq_some_iff] at h
  obtain ⟨es', hes | ⟨hnone, honto⟩, rfl⟩ := h
  · exact .inl ⟨es', hes, rfl⟩
  · cases i <;> simp only [Item.ontoElements, Option.some.injEq, reduceCtorEq] at honto
    exact .inr ⟨_, rfl, (takeLast?_eq_none _ _).1 hnone, by rw [honto]⟩

theorem take?_dict {i : Item} {ps : List (Expr × Expr)} {e' : Expr}
    (h : take? i (.dict ps) = some e') :
    (∃ ps', takeInLast? i ps = some ps' ∧ e' = .dict ps') ∨
      ∃ k v, i = .entry k v ∧ ¬ LastEntryTakes .entries ps ∧ e' = .dict (ps ++ [(k, v)]) := by
  simp only [take?, Option.map_eq_some_iff, Option.or_eq_some_iff] at h
  obtain ⟨ps', hps | ⟨hnone, honto⟩, rfl⟩ := h
  · exact .inl ⟨ps', hps, rfl⟩
  · cases i <;> simp only [Item.ontoEntries, Option.some.injEq, reduceCtorEq] at honto
    exact .inr ⟨_, _, rfl, (takeInLast?_eq_none _ _).1 hnone, by rw [honto]⟩

/-- The two forms of calls differ in what stands before the arguments only. -/
theorem take?_arguments {i : Item} {args : List Expr} {f : List Expr → Expr} {e' : Expr}
    (h : ((takeLast? i args).or (i.ontoArguments args)).map f = some e') :
    (∃ args', takeLast? i args = some args' ∧ e' = f args') ∨
      ∃ x, i = .argument x ∧ ¬ LastTakes .arguments args ∧ e' = f (args ++ [x]) := by
  simp only [Option.map_eq_some_iff, Option.or_eq_some_iff] at h
  obtain ⟨args', hargs | ⟨hnone, honto⟩, rfl⟩ := h
  · exact .inl ⟨args', hargs, rfl⟩
  · cases i <;> simp only [Item.ontoArguments, Option.some.injEq, reduceCtorEq] at honto
    exact .inr ⟨_, rfl, (takeLast?_eq_none _ _).1 hnone, by rw [honto]⟩

mutual

/-- After an item was put in, the list it is in is the open one of its kind. -/
theorem takes_of_take? {i : Item} :
    ∀ {e e' : Expr}, take? i e = some e' → Takes i.listing e'
  | .const _, _, h | .var _, _, h => by simp [take?] at h
  | .array es, _, h => by
    obtain ⟨es', hes, rfl⟩ | ⟨x, rfl, -, rfl⟩ := take?_array h
    · exact .inr (lastTakes_of_takeLast? hes)
    · exact .inl rfl
  | .dict ps, _, h => by
    obtain ⟨ps', hps, rfl⟩ | ⟨k, v, rfl, -, rfl⟩ := take?_dict h
    · exact .inr (lastEntryTakes_of_takeInLast? hps)
    · exact .inl rfl
  | .unary _ arg, _, h | .bump _ _ arg, _, h | .binary _ _ arg, _, h | .ternary _ _ arg, _, h => by
    simp only [take?, Option.map_eq_some_iff] at h
    obtain ⟨arg', harg, rfl⟩ := h
    have ih := takes_of_take? harg
    exact ih
  | .builtin _ args, _, h | .call _ args, _, h => by
    obtain ⟨args', hargs, rfl⟩ | ⟨x, rfl, -, rfl⟩ := take?_arguments h
    · exact .inr (lastTakes_of_takeLast? hargs)
    · exact .inl rfl

theorem lastTakes_of_takeLast? {i : Item} :
    ∀ {es es' : List Expr}, takeLast? i es = some es' → LastTakes i.listing es'
  | [], _, h => by simp [takeLast?] at h
  | [e], _, h => by
    simp only [takeLast?, Option.map_eq_some_iff] at h
    obtain ⟨e', he, rfl⟩ := h
    have ih := takes_of_take? he
    exact ih
  | a :: b :: rest, _, h => by
    obtain ⟨rest', hrest, rfl⟩ := takeLast?_cons_cons h
    have ih := lastTakes_of_takeLast? hrest
    cases rest' with
    | nil => exact ih.elim
    | cons c rest' => exact ih

theorem lastEntryTakes_of_takeInLast? {i : Item} :
    ∀ {ps ps' : List (Expr × Expr)}, takeInLast? i ps = some ps' →
      LastEntryTakes i.listing ps'
  | [], _, h => by simp [takeInLast?] at h
  | [(k, v)], _, h => by
    simp only [takeInLast?, Option.map_eq_some_iff] at h
    obtain ⟨v', hv, rfl⟩ := h
    have ih := takes_of_take? hv
    exact ih
  | a :: b :: rest, _, h => by
    obtain ⟨rest', hrest, rfl⟩ := takeInLast?_cons_cons h
    have ih := lastEntryTakes_of_takeInLast? hrest
    cases rest' with
    | nil => exact ih.elim
    | cons c rest' => exact ih

end

mutual

/-- Putting a gathered item where it would be read keeps an expression gathered. -/
theorem gathered_take? {i : Item} (hi : i.Gathered) :
    ∀ {e e' : Expr}, e.Gathered → take? i e = some e' → e'.Gathered
  | .const _, _, _, h | .var _, _, _, h => by simp [take?] at h
  | .array es, _, he, h => by
    obtain ⟨es', hes, rfl⟩ | ⟨x, rfl, hlast, rfl⟩ := take?_array h
    · exact gatheredList_takeLast? hi he hes
    · exact gatheredList_concat hi he hlast
  | .dict ps, _, he, h => by
    obtain ⟨ps', hps, rfl⟩ | ⟨k, v, rfl, hlast, rfl⟩ := take?_dict h
    · exact gatheredEntries_takeInLast? hi he hps
    · exact gatheredEntries_concat hi.1 hi.2 he hlast
  | .unary _ arg, _, he, h | .bump _ _ arg, _, he, h => by
    simp only [take?, Option.map_eq_some_iff] at h
    obtain ⟨arg', harg, rfl⟩ := h
    have ih := gathered_take? hi (e := arg) he harg
    exact ih
  | .binary _ left right, _, he, h => by
    simp only [take?, Option.map_eq_some_iff] at h
    obtain ⟨right', hright, rfl⟩ := h
    exact ⟨he.1, gathered_take? hi he.2 hright⟩
  | .ternary cond yes no, _, he, h => by
    simp only [take?, Option.map_eq_some_iff] at h
    obtain ⟨no', hno, rfl⟩ := h
    exact ⟨he.1, he.2.1, gathered_take? hi he.2.2 hno⟩
  | .builtin _ args, _, he, h | .call _ args, _, he, h => by
    obtain ⟨args', hargs, rfl⟩ | ⟨x, rfl, hlast, rfl⟩ := take?_arguments h
    · exact gatheredList_takeLast? hi (show GatheredList .arguments args from he) hargs
    · exact gatheredList_concat hi (show GatheredList .arguments args from he) hlast

theorem gatheredList_takeLast? {i : Item} {l : Listing} (hi : i.Gathered) :
    ∀ {es es' : List Expr}, GatheredList l es → takeLast? i es = some es' → GatheredList l es'
  | [], _, _, h => by simp [takeLast?] at h
  | [e], _, he, h => by
    simp only [takeLast?, Option.map_eq_some_iff] at h
    obtain ⟨e', he', rfl⟩ := h
    exact ⟨gathered_take? hi he.1 he', fun hne => absurd rfl hne, trivial⟩
  | a :: b :: rest, _, he, h => by
    obtain ⟨rest', hrest, rfl⟩ := takeLast?_cons_cons h
    exact ⟨he.1, fun _ => he.2.1 (by simp), gatheredList_takeLast? hi he.2.2 hrest⟩

theorem gatheredEntries_takeInLast? {i : Item} (hi : i.Gathered) :
    ∀ {ps ps' : List (Expr × Expr)}, GatheredEntries ps → takeInLast? i ps = some ps' →
      GatheredEntries ps'
  | [], _, _, h => by simp [takeInLast?] at h
  | [(k, v)], _, he, h => by
    simp only [takeInLast?, Option.map_eq_some_iff] at h
    obtain ⟨v', hv, rfl⟩ := h
    exact ⟨he.1, gathered_take? hi he.2.1 hv, fun hne => absurd rfl hne, trivial⟩
  | (k, v) :: b :: rest, _, he, h => by
    obtain ⟨rest', hrest, rfl⟩ := takeInLast?_cons_cons h
    exact ⟨he.1, he.2.1, fun _ => he.2.2.1 (by simp),
      gatheredEntries_takeInLast? hi he.2.2.2 hrest⟩

end

theorem gathered_extend {e : Expr} {i : Item} (he : e.Gathered) (hi : i.Gathered) :
    (e.extend i).Gathered := by
  unfold extend
  cases h : take? i e with
  | none => exact he
  | some e' => exact gathered_take? hi he h

theorem gathered_foldl_extend :
    ∀ {is : List Item} {e : Expr}, e.Gathered → (∀ i ∈ is, i.Gathered) →
      (is.foldl extend e).Gathered
  | [], _, he, _ => he
  | i :: is, e, he, h => by
    have hi : (e.extend i).Gathered := gathered_extend he (h i (by simp))
    have ih := gathered_foldl_extend hi fun j (hj : j ∈ is) => h j (by simp [hj])
    exact ih

mutual

/-- Gathering leaves no item behind a list that would take it. -/
theorem gathered_gather : ∀ e : Expr, e.gather.Gathered
  | .const _ | .var _ => trivial
  | .array es => by
    refine gathered_foldl_extend trivial fun i hi => ?_
    obtain ⟨x, hx, rfl⟩ := List.mem_map.1 hi
    exact gathered_of_mem_gatherAll es x hx
  | .dict ps => by
    refine gathered_foldl_extend trivial fun i hi => ?_
    obtain ⟨p, hp, rfl⟩ := List.mem_map.1 hi
    exact gathered_of_mem_gatherEntries ps p hp
  | .unary _ arg | .bump _ _ arg => gathered_gather arg
  | .binary _ left right => ⟨gathered_gather left, gathered_gather right⟩
  | .ternary cond yes no => ⟨gathered_gather cond, gathered_gather yes, gathered_gather no⟩
  | .builtin _ args | .call _ args => by
    refine gathered_foldl_extend trivial fun i hi => ?_
    obtain ⟨x, hx, rfl⟩ := List.mem_map.1 hi
    exact gathered_of_mem_gatherAll args x hx

theorem gathered_of_mem_gatherAll : ∀ es : List Expr, ∀ x ∈ gatherAll es, x.Gathered
  | [], x, hx => by simp [gatherAll] at hx
  | e :: rest, x, hx => by
    rcases List.mem_cons.1 hx with rfl | hx
    · exact gathered_gather e
    · exact gathered_of_mem_gatherAll rest x hx

theorem gathered_of_mem_gatherEntries : ∀ ps : List (Expr × Expr),
    ∀ p ∈ gatherEntries ps, p.1.Gathered ∧ p.2.Gathered
  | [], p, hp => by simp [gatherEntries] at hp
  | (k, v) :: rest, p, hp => by
    rcases List.mem_cons.1 hp with rfl | hp
    · exact ⟨gathered_gather k, gathered_gather v⟩
    · exact gathered_of_mem_gatherEntries rest p hp

end

end Expr

end Kiln
