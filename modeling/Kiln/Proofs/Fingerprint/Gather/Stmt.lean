import Kiln.Stmt
import Kiln.Proofs.Fingerprint.Gather.Expr

/-!
# Kiln.Proofs.Fingerprint.Gather.Stmt — blocks without an end mark

A fingerprint lists the statements of a block without saying where the block ends, and it writes the
`else` of an `if` after a branch that may end in an `if` itself.  `take?`, `gather` and `Gathered`
are for these what they are for the lists in an expression.
-/

namespace Kiln

namespace Stmt

/-! ## Items of statements -/

/-- What can follow a statement and belong to it. -/
inductive Item where
  | next (s : Stmt)
  | otherwise (s : Stmt)

/-- The kinds of places in statements where something can follow. -/
inductive Listing where
  | statements
  | branches
  deriving DecidableEq

/-- The kind of place an item goes to. -/
def Item.listing : Item → Listing
  | next _ => .statements
  | otherwise _ => .branches

/-- The statements of a block with the item at their end. -/
def Item.ontoStatements : Item → List Stmt → Option (List Stmt)
  | next s, ss => some (ss ++ [s])
  | _, _ => none

/-- The second branch that an item is. -/
def Item.asBranch : Item → Option Stmt
  | otherwise s => some s
  | _ => none

mutual

/-- The statement with the item in the innermost block, or at the innermost `if`, that is open at
its end. -/
def take? (i : Item) : Stmt → Option Stmt
  | .block loc ss => ((takeLast? i ss).or (i.ontoStatements ss)).map (.block loc)
  | .branch loc cond yes none =>
    ((take? i yes).map fun yes' => .branch loc cond yes' none).or
      (i.asBranch.map fun no => .branch loc cond yes (some no))
  | .branch loc cond yes (some no) => (take? i no).map fun no' => .branch loc cond yes (some no')
  | .loop loc init cond next body => (take? i body).map (.loop loc init cond next)
  | .depends loc paths action => (take? i action).map (.depends loc paths)
  | .expr .. | .foreach .. | .breakStmt _ | .continueStmt _ | .returnStmt .. | .includeStmt ..
  | .usingStmt .. => none

/-- The statements with the item in a block or at an `if` that is open at the end of the last. -/
def takeLast? (i : Item) : List Stmt → Option (List Stmt)
  | [] => none
  | [s] => (take? i s).map fun s' => [s']
  | s :: rest => (takeLast? i rest).map (s :: ·)

end

mutual

/-- Whether a place of the kind is open at the end of the statement. -/
def Takes (l : Listing) : Stmt → Prop
  | .block _ ss => l = .statements ∨ LastTakes l ss
  | .branch _ _ yes none => l = .branches ∨ Takes l yes
  | .branch _ _ _ (some no) => Takes l no
  | .loop _ _ _ _ body => Takes l body
  | .depends _ _ action => Takes l action
  | .expr .. | .foreach .. | .breakStmt _ | .continueStmt _ | .returnStmt .. | .includeStmt ..
  | .usingStmt .. => False

/-- Whether a place of the kind is open at the end of the last statement. -/
def LastTakes (l : Listing) : List Stmt → Prop
  | [] => False
  | [s] => Takes l s
  | _ :: rest => LastTakes l rest

end

/-- The statement with the item in the place that takes it, if there is one. -/
def extend (s : Stmt) (i : Item) : Stmt := (take? i s).getD s

mutual

/-- The statement with every item moved to the place it would be read into. -/
def gather : Stmt → Stmt
  | .expr loc e => .expr loc e.gather
  | .block loc ss => ((gatherAll ss).map .next).foldl extend (.block loc [])
  | .branch loc cond yes none => .branch loc cond.gather (gather yes) none
  | .branch loc cond yes (some no) =>
    (branch loc cond.gather (gather yes) none).extend (.otherwise (gather no))
  | .loop loc init cond next body =>
    .loop loc (init.map Expr.gather) (cond.map Expr.gather) (next.map Expr.gather) (gather body)
  | .foreach loc name items body => .foreach loc name items.gather (gather body)
  | .breakStmt loc => .breakStmt loc
  | .continueStmt loc => .continueStmt loc
  | .returnStmt loc value => .returnStmt loc (value.map Expr.gather)
  | .depends loc paths action => .depends loc paths.gather (gather action)
  | .includeStmt loc path => .includeStmt loc path.gather
  | .usingStmt loc path => .usingStmt loc path.gather

/-- Each statement with its items moved. -/
def gatherAll : List Stmt → List Stmt
  | [] => []
  | s :: rest => gather s :: gatherAll rest

end

mutual

/-- No item stands behind a place that would take it. -/
def Gathered : Stmt → Prop
  | .expr _ e => e.Gathered
  | .block _ ss => GatheredList ss
  | .branch _ cond yes none => cond.Gathered ∧ Gathered yes
  | .branch _ cond yes (some no) =>
    cond.Gathered ∧ Gathered yes ∧ ¬ Takes .branches yes ∧ Gathered no
  | .loop _ init cond next body =>
    (∀ e ∈ init, e.Gathered) ∧ (∀ e ∈ cond, e.Gathered) ∧ (∀ e ∈ next, e.Gathered) ∧ Gathered body
  | .foreach _ _ items body => items.Gathered ∧ Gathered body
  | .breakStmt _ => True
  | .continueStmt _ => True
  | .returnStmt _ value => ∀ e ∈ value, e.Gathered
  | .depends _ paths action => paths.Gathered ∧ Gathered action
  | .includeStmt _ path => path.Gathered
  | .usingStmt _ path => path.Gathered

/-- No statement of a list stands behind a block that would take it. -/
def GatheredList : List Stmt → Prop
  | [] => True
  | s :: rest => Gathered s ∧ (rest ≠ [] → ¬ Takes .statements s) ∧ GatheredList rest

end

/-- The statement of an item is gathered. -/
def Item.Gathered : Item → Prop
  | next s => s.Gathered
  | otherwise s => s.Gathered

/-! ## Taking an item -/

theorem Item.ontoStatements_eq_none {i : Item} {ss : List Stmt} :
    i.ontoStatements ss = none ↔ i.listing ≠ .statements := by
  cases i <;> simp [Item.ontoStatements, Item.listing]

theorem Item.asBranch_eq_none {i : Item} : i.asBranch = none ↔ i.listing ≠ .branches := by
  cases i <;> simp [Item.asBranch, Item.listing]

mutual

/-- An item is refused exactly where no place of its kind is open. -/
theorem take?_eq_none (i : Item) : ∀ s : Stmt, take? i s = none ↔ ¬ Takes i.listing s
  | .block _ ss => by
    simp [take?, Takes, takeLast?_eq_none i ss, Item.ontoStatements_eq_none, and_comm]
  | .branch _ _ yes none => by
    simp [take?, Takes, take?_eq_none i yes, Item.asBranch_eq_none, and_comm]
  | .branch _ _ _ (some no) => by simp [take?, Takes, take?_eq_none i no]
  | .loop _ _ _ _ body => by simp [take?, Takes, take?_eq_none i body]
  | .depends _ _ action => by simp [take?, Takes, take?_eq_none i action]
  | .expr .. | .foreach .. | .breakStmt _ | .continueStmt _ | .returnStmt .. | .includeStmt ..
  | .usingStmt .. => by simp [take?, Takes]

theorem takeLast?_eq_none (i : Item) :
    ∀ ss : List Stmt, takeLast? i ss = none ↔ ¬ LastTakes i.listing ss
  | [] => by simp [takeLast?, LastTakes]
  | [s] => by simp [takeLast?, LastTakes, take?_eq_none i s]
  | _ :: s :: rest => by simp [takeLast?, LastTakes, takeLast?_eq_none i (s :: rest)]

end

theorem gatheredList_concat {s : Stmt} (hs : s.Gathered) :
    ∀ {ss : List Stmt}, GatheredList ss → ¬ LastTakes .statements ss → GatheredList (ss ++ [s])
  | [], _, _ => by simp [GatheredList, hs]
  | [a], h, hl => by
    simp only [LastTakes] at hl
    simp only [GatheredList] at h
    simp [GatheredList, h.1, hl, hs]
  | a :: b :: rest, h, hl => by
    simp only [LastTakes] at hl
    obtain ⟨ha, hab, hrest⟩ := h
    exact ⟨ha, fun _ => hab (by simp), gatheredList_concat hs hrest hl⟩

/-- The last statement changes only within. -/
theorem takeLast?_cons_cons {i : Item} {a b : Stmt} {rest ss' : List Stmt}
    (h : takeLast? i (a :: b :: rest) = some ss') :
    ∃ rest', takeLast? i (b :: rest) = some rest' ∧ ss' = a :: rest' := by
  simp only [takeLast?, Option.map_eq_some_iff] at h
  obtain ⟨rest', hrest, rfl⟩ := h
  exact ⟨rest', hrest, rfl⟩

theorem take?_block {i : Item} {loc : Location} {ss : List Stmt} {s' : Stmt}
    (h : take? i (.block loc ss) = some s') :
    (∃ ss', takeLast? i ss = some ss' ∧ s' = .block loc ss') ∨
      ∃ x, i = .next x ∧ ¬ LastTakes .statements ss ∧ s' = .block loc (ss ++ [x]) := by
  simp only [take?, Option.map_eq_some_iff, Option.or_eq_some_iff] at h
  obtain ⟨ss', hss | ⟨hnone, honto⟩, rfl⟩ := h
  · exact .inl ⟨ss', hss, rfl⟩
  · cases i <;> simp only [Item.ontoStatements, Option.some.injEq, reduceCtorEq] at honto
    exact .inr ⟨_, rfl, (takeLast?_eq_none _ _).1 hnone, by rw [honto]⟩

theorem take?_branch {i : Item} {loc : Location} {cond : Expr} {yes s' : Stmt}
    (h : take? i (.branch loc cond yes none) = some s') :
    (∃ yes', take? i yes = some yes' ∧ s' = .branch loc cond yes' none) ∨
      ∃ x, i = .otherwise x ∧ ¬ Takes .branches yes ∧ s' = .branch loc cond yes (some x) := by
  simp only [take?, Option.map_eq_some_iff, Option.or_eq_some_iff, Option.map_eq_none_iff] at h
  obtain ⟨yes', hyes, rfl⟩ | ⟨hnone, x, hx, rfl⟩ := h
  · exact .inl ⟨yes', hyes, rfl⟩
  · cases i <;> simp only [Item.asBranch, Option.some.injEq, reduceCtorEq] at hx
    exact .inr ⟨_, rfl, (take?_eq_none _ _).1 hnone, by rw [hx]⟩

/-- A statement that was put in leaves its block open. -/
theorem takes_of_take?_next {x : Stmt} :
    ∀ {s s' : Stmt}, take? (.next x) s = some s' → Takes .statements s'
  | .block _ ss, _, h => by
    obtain ⟨_, _, rfl⟩ | ⟨_, _, -, rfl⟩ := take?_block h <;> exact .inl rfl
  | .branch _ _ yes none, _, h => by
    obtain ⟨yes', hyes, rfl⟩ | ⟨_, hx, -, rfl⟩ := take?_branch h
    · exact .inr (takes_of_take?_next hyes)
    · cases hx
  | .branch _ _ yes (some no), _, h => by
    simp only [take?, Option.map_eq_some_iff] at h
    obtain ⟨no', hno, rfl⟩ := h
    have ih := takes_of_take?_next hno
    exact ih
  | .loop _ _ _ _ body, _, h | .depends _ _ body, _, h => by
    simp only [take?, Option.map_eq_some_iff] at h
    obtain ⟨body', hbody, rfl⟩ := h
    have ih := takes_of_take?_next hbody
    exact ih
  | .expr .., _, h | .foreach .., _, h | .breakStmt _, _, h | .continueStmt _, _, h
  | .returnStmt .., _, h | .includeStmt .., _, h | .usingStmt .., _, h => by simp [take?] at h

mutual

/-- Putting a gathered item where it would be read keeps a statement gathered. -/
theorem gathered_take? {i : Item} (hi : i.Gathered) :
    ∀ {s s' : Stmt}, s.Gathered → take? i s = some s' → s'.Gathered
  | .block _ ss, _, hs, h => by
    obtain ⟨ss', hss, rfl⟩ | ⟨x, rfl, hlast, rfl⟩ := take?_block h
    · exact gatheredList_takeLast? hi hs hss
    · exact gatheredList_concat hi hs hlast
  | .branch _ cond yes none, _, hs, h => by
    obtain ⟨yes', hyes, rfl⟩ | ⟨x, rfl, hlast, rfl⟩ := take?_branch h
    · exact ⟨hs.1, gathered_take? hi hs.2 hyes⟩
    · exact ⟨hs.1, hs.2, hlast, hi⟩
  | .branch _ cond yes (some no), _, hs, h => by
    simp only [take?, Option.map_eq_some_iff] at h
    obtain ⟨no', hno, rfl⟩ := h
    obtain ⟨hcond, hyes, hopen, hno'⟩ := hs
    exact ⟨hcond, hyes, hopen, gathered_take? hi hno' hno⟩
  | .loop _ init cond next body, _, hs, h => by
    simp only [take?, Option.map_eq_some_iff] at h
    obtain ⟨body', hbody, rfl⟩ := h
    obtain ⟨hinit, hcond, hnext, hbody'⟩ := hs
    exact ⟨hinit, hcond, hnext, gathered_take? hi hbody' hbody⟩
  | .depends _ paths action, _, hs, h => by
    simp only [take?, Option.map_eq_some_iff] at h
    obtain ⟨action', haction, rfl⟩ := h
    exact ⟨hs.1, gathered_take? hi hs.2 haction⟩
  | .expr .., _, _, h | .foreach .., _, _, h | .breakStmt _, _, _, h | .continueStmt _, _, _, h
  | .returnStmt .., _, _, h | .includeStmt .., _, _, h | .usingStmt .., _, _, h => by
    simp [take?] at h

theorem gatheredList_takeLast? {i : Item} (hi : i.Gathered) :
    ∀ {ss ss' : List Stmt}, GatheredList ss → takeLast? i ss = some ss' → GatheredList ss'
  | [], _, _, h => by simp [takeLast?] at h
  | [s], _, hs, h => by
    simp only [takeLast?, Option.map_eq_some_iff] at h
    obtain ⟨s', hs', rfl⟩ := h
    exact ⟨gathered_take? hi hs.1 hs', fun hne => absurd rfl hne, trivial⟩
  | a :: b :: rest, _, hs, h => by
    obtain ⟨rest', hrest, rfl⟩ := takeLast?_cons_cons h
    exact ⟨hs.1, fun _ => hs.2.1 (by simp), gatheredList_takeLast? hi hs.2.2 hrest⟩

end

theorem gathered_extend {s : Stmt} {i : Item} (hs : s.Gathered) (hi : i.Gathered) :
    (s.extend i).Gathered := by
  unfold extend
  cases h : take? i s with
  | none => exact hs
  | some s' => exact gathered_take? hi hs h

theorem gathered_foldl_extend :
    ∀ {is : List Item} {s : Stmt}, s.Gathered → (∀ i ∈ is, i.Gathered) →
      (is.foldl extend s).Gathered
  | [], _, hs, _ => hs
  | i :: is, s, hs, h => by
    have hi : (s.extend i).Gathered := gathered_extend hs (h i (by simp))
    have ih := gathered_foldl_extend hi fun j (hj : j ∈ is) => h j (by simp [hj])
    exact ih

theorem gathered_of_mem_map {value : Option Expr} : ∀ e ∈ value.map Expr.gather, e.Gathered := by
  intro e he
  obtain ⟨x, -, rfl⟩ := Option.map_eq_some_iff.1 he
  exact Expr.gathered_gather x

mutual

/-- Gathering leaves no item behind a place that would take it. -/
theorem gathered_gather : ∀ s : Stmt, s.gather.Gathered
  | .expr _ e => Expr.gathered_gather e
  | .block _ ss => by
    refine gathered_foldl_extend trivial fun i hi => ?_
    obtain ⟨x, hx, rfl⟩ := List.mem_map.1 hi
    exact gathered_of_mem_gatherAll ss x hx
  | .branch _ cond yes none => ⟨Expr.gathered_gather cond, gathered_gather yes⟩
  | .branch loc cond yes (some no) => by
    have hs : (branch loc cond.gather yes.gather none).Gathered :=
      ⟨Expr.gathered_gather cond, gathered_gather yes⟩
    exact gathered_extend hs (i := .otherwise no.gather) (gathered_gather no)
  | .loop _ init cond next body =>
    ⟨gathered_of_mem_map, gathered_of_mem_map, gathered_of_mem_map, gathered_gather body⟩
  | .foreach _ _ items body => ⟨Expr.gathered_gather items, gathered_gather body⟩
  | .breakStmt _ => trivial
  | .continueStmt _ => trivial
  | .returnStmt _ value => gathered_of_mem_map
  | .depends _ paths action => ⟨Expr.gathered_gather paths, gathered_gather action⟩
  | .includeStmt _ path => Expr.gathered_gather path
  | .usingStmt _ path => Expr.gathered_gather path

theorem gathered_of_mem_gatherAll : ∀ ss : List Stmt, ∀ x ∈ gatherAll ss, x.Gathered
  | [], x, hx => by simp [gatherAll] at hx
  | s :: rest, x, hx => by
    rcases List.mem_cons.1 hx with rfl | hx
    · exact gathered_gather s
    · exact gathered_of_mem_gatherAll rest x hx

end

end Stmt

end Kiln
