import Mathlib.Data.Finset.Card
import Mathlib.Data.Finset.Sum
import Mathlib.Logic.Relation
import Kiln.Proofs.Memory.Isolation

/-!
# Kiln.Proofs.Memory.Acyclic — values with a tree

A value looks like a tree unless a container is inside of itself.  `treeWithin` stops at a depth that
is the number of containers there are: going in deeper than that comes through one of them twice
(`exists_descent`, `repeats`), and then no bound is enough (`LeadsBack.treeWithin`).  So the tree does
not depend on how many other containers there are (`tree?_of_treeWithin`).
-/

namespace Kiln.Memory

open Relation

variable {m : Memory} {v w : Value}

/-- The value `w` is in a cell of the container `v`. -/
def Encloses (m : Memory) (v w : Value) : Prop := ∃ c, m.Has v c ∧ m.read c = w

/-- The value exists, and so does whatever is in it at any depth; none of it is inside of itself. -/
structure Acyclic (m : Memory) (v : Value) : Prop where
  holds : ∀ w, ReflTransGen m.Encloses v w → m.Holds w
  apart : ∀ w, ReflTransGen m.Encloses v w → ¬ TransGen m.Encloses w w

/-- Where the containers of all cells exist, so does whatever is in a value that exists. -/
theorem holds_within (hcells : ∀ c, m.Holds (m.read c)) (hv : m.Holds v)
    (hw : ReflTransGen m.Encloses v w) : m.Holds w := by
  cases hw with
  | refl => exact hv
  | tail _ hlast =>
    obtain ⟨c, -, rfl⟩ := hlast
    exact hcells c

/-- Values that are ranked above what is in them are not inside of themselves. -/
theorem acyclic_of_rank (rank : Value → Nat) (hrank : ∀ v w, m.Encloses v w → rank w < rank v)
    (hholds : ∀ c, m.Holds (m.read c)) (hv : m.Holds v) : m.Acyclic v := by
  refine ⟨fun w => holds_within hholds hv, fun w _ hcycle => ?_⟩
  have hless : ∀ {x y}, TransGen m.Encloses x y → rank y < rank x := by
    intro x y h
    induction h with
    | single h => exact hrank _ _ h
    | tail _ h ih => exact Nat.lt_trans (hrank _ _ h) ih
  exact Nat.lt_irrefl _ (hless hcycle)

/-- When an array was made, counted from 1. -/
def age : Value → Nat
  | .array a => a.index + 1
  | _ => 0

theorem holds_read (hcells : ∀ i < m.cells.size, m.Holds (m.read ⟨i⟩)) (c : CellId) :
    m.Holds (m.read c) := by
  by_cases hc : c.index < m.cells.size
  · exact hcells c.index hc
  · rw [read_eq_void (Nat.not_lt.mp hc)]
    trivial

/-- Without dictionaries, and with older arrays in every array only, no value is inside of itself. -/
theorem acyclic_of_older (hcells : ∀ i < m.cells.size, m.Holds (m.read ⟨i⟩))
    (holder : ∀ i < m.arrays.size, ∀ c ∈ m.slots ⟨i⟩, age (m.read c) < i + 1)
    (hdicts : m.dicts.size = 0) (hv : m.Holds v) : m.Acyclic v := by
  refine acyclic_of_rank age (fun v w h => ?_) (holds_read hcells) hv
  obtain ⟨c, hc, rfl⟩ := h
  cases v with
  | void | int | str => exact hc.elim
  | array a =>
    have hc : c ∈ m.slots a := hc
    by_cases ha : a.index < m.arrays.size
    · exact holder a.index ha c hc
    · rw [slots_eq_empty (Nat.not_lt.mp ha)] at hc
      simp at hc
  | dict d =>
    obtain ⟨key, hkey⟩ := hc
    rw [entries_eq_empty (by omega)] at hkey
    cases hkey

/-! ## Going in -/

/-- The value is a container. -/
def IsContainer : Value → Prop
  | .array _ | .dict _ => True
  | _ => False

theorem exists_of_mapM_eq_none {α β : Type} {f : α → Option β} :
    ∀ {l : List α}, l.mapM f = none → ∃ x ∈ l, f x = none
  | [], h => by simp at h
  | x :: rest, h => by
    cases hx : f x with
    | none => exact ⟨x, List.mem_cons_self, hx⟩
    | some y =>
      cases hrest : rest.mapM f with
      | none =>
        obtain ⟨z, hz, hnone⟩ := exists_of_mapM_eq_none hrest
        exact ⟨z, List.mem_cons_of_mem _ hz, hnone⟩
      | some ys => simp [List.mapM_cons, hx, hrest] at h

/-- Where a tree is deeper than the bound, a value inside of it is deeper than the bound less one. -/
theorem enclosed_of_treeWithin {n : Nat} (h : m.treeWithin (n + 1) v = none) :
    ∃ w, m.Encloses v w ∧ m.treeWithin n w = none := by
  cases v with
  | void | int | str => simp [treeWithin] at h
  | array a =>
    simp only [treeWithin, Option.bind_eq_bind, Option.bind_eq_none_iff] at h
    cases hes : (m.slots a).toList.mapM fun c => treeWithin m n (m.read c) with
    | some es => cases h es hes
    | none =>
      obtain ⟨c, hc, hnone⟩ := exists_of_mapM_eq_none hes
      exact ⟨_, ⟨c, Array.mem_toList_iff.mp hc, rfl⟩, hnone⟩
  | dict d =>
    simp only [treeWithin, Option.bind_eq_bind, Option.bind_eq_none_iff] at h
    cases hes : (m.entries d).entries.mapM fun e => do
        let t ← treeWithin m n (m.read e.2)
        return (e.1, t) with
    | some es => cases h es hes
    | none =>
      obtain ⟨⟨k, c⟩, hc, hnone⟩ := exists_of_mapM_eq_none hes
      refine ⟨m.read c, ⟨c, ⟨k, Table.get?_eq_some_iff.mpr hc⟩, rfl⟩, ?_⟩
      cases ht : treeWithin m n (m.read c) with
      | none => rfl
      | some t => simp [ht] at hnone

/-- A value whose tree is deeper than the bound is a container. -/
theorem isContainer_of_treeWithin {n : Nat} (h : m.treeWithin n v = none) : IsContainer v := by
  cases v with
  | void | int | str => cases n <;> simp [treeWithin] at h
  | array | dict => trivial

/-- A way in, from container to container, as long as the bound. -/
theorem exists_descent : ∀ {n : Nat} {v : Value}, m.treeWithin n v = none →
    ∃ f : Nat → Value, f 0 = v ∧ (∀ i < n, m.Encloses (f i) (f (i + 1))) ∧
      ∀ i ≤ n, IsContainer (f i)
  | 0, v, h => ⟨fun _ => v, rfl, nofun, fun _ _ => isContainer_of_treeWithin h⟩
  | n + 1, v, h => by
    obtain ⟨w, hvw, hw⟩ := enclosed_of_treeWithin h
    obtain ⟨f, rfl, hstep, hcontainer⟩ := exists_descent hw
    refine ⟨fun i => i.casesOn v f, rfl, fun i hi => ?_, fun i hi => ?_⟩
    · cases i with
      | zero => exact hvw
      | succ i => exact hstep i (by omega)
    · cases i with
      | zero => exact isContainer_of_treeWithin h
      | succ i => exact hcontainer i (by omega)

/-- Every place on the way is reached from every earlier one. -/
theorem descends {f : Nat → Value} {n : Nat} (hstep : ∀ i < n, m.Encloses (f i) (f (i + 1)))
    {i : Nat} : ∀ {j : Nat}, i ≤ j → j ≤ n → ReflTransGen m.Encloses (f i) (f j) := by
  intro j hij hjn
  induction j, hij using Nat.le_induction with
  | base => exact .refl
  | succ j _ ih => exact (ih (by omega)).tail (hstep j (by omega))

/-- Where a container is: among the arrays, or among the dictionaries. -/
def place : Value → Nat ⊕ Nat
  | .array a => .inl a.index
  | .dict d => .inr d.index
  | _ => .inl 0

theorem eq_of_place_eq (hv : IsContainer v) (hw : IsContainer w) (h : place v = place w) :
    v = w := by
  cases v <;> cases w <;> simp only [IsContainer] at hv hw <;> simp only [place] at h
  case array.array a b =>
    have hab : a = b := congrArg ArrayId.mk (Sum.inl.inj h)
    rw [hab]
  case dict.dict a b =>
    have hab : a = b := congrArg DictId.mk (Sum.inr.inj h)
    rw [hab]
  all_goals cases h

/-- The places of all containers. -/
def places (m : Memory) : Finset (Nat ⊕ Nat) :=
  (Finset.range m.arrays.size).disjSum (Finset.range m.dicts.size)

theorem place_mem_places (hv : IsContainer v) (h : m.Holds v) : place v ∈ m.places := by
  cases v with
  | void | int | str => exact hv.elim
  | array a => exact Finset.inl_mem_disjSum.mpr (Finset.mem_range.mpr h)
  | dict d => exact Finset.inr_mem_disjSum.mpr (Finset.mem_range.mpr h)

/-- A way in that is longer than there are containers comes back to where it was. -/
theorem repeats {f : Nat → Value} (hcontainer : ∀ i ≤ m.arrays.size + m.dicts.size, IsContainer (f i))
    (hholds : ∀ i ≤ m.arrays.size + m.dicts.size, m.Holds (f i)) :
    ∃ i j, i < j ∧ j ≤ m.arrays.size + m.dicts.size ∧ f i = f j := by
  have hcard : m.places.card < (Finset.range (m.arrays.size + m.dicts.size + 1)).card := by
    simp [places, Finset.card_disjSum]
  have hmaps : ∀ i ∈ Finset.range (m.arrays.size + m.dicts.size + 1), place (f i) ∈ m.places := by
    intro i hi
    have hi : i ≤ m.arrays.size + m.dicts.size := by
      have := Finset.mem_range.mp hi
      omega
    exact place_mem_places (hcontainer i hi) (hholds i hi)
  obtain ⟨i, hi, j, hj, hne, heq⟩ := Finset.exists_ne_map_eq_of_card_lt_of_maps_to hcard hmaps
  rw [Finset.mem_range] at hi hj
  have hsame : f i = f j :=
    eq_of_place_eq (hcontainer i (by omega)) (hcontainer j (by omega)) heq
  rcases Nat.lt_or_gt_of_ne hne with hlt | hlt
  · exact ⟨i, j, hlt, by omega, hsame⟩
  · exact ⟨j, i, hlt, by omega, hsame.symm⟩

/-- A way from `v` leads to a value that is inside of itself. -/
def LeadsBack (m : Memory) (v : Value) : Prop :=
  ∃ w, ReflTransGen m.Encloses v w ∧ TransGen m.Encloses w w

/-- Where whatever is in a value exists, only what leads back into itself keeps it from having a
tree. -/
theorem leadsBack_of_tree?_eq_none (hnone : m.tree? v = none)
    (hholds : ∀ w, ReflTransGen m.Encloses v w → m.Holds w) : m.LeadsBack v := by
  obtain ⟨f, rfl, hstep, hcontainer⟩ := exists_descent hnone
  have hreach : ∀ i ≤ m.arrays.size + m.dicts.size, ReflTransGen m.Encloses (f 0) (f i) :=
    fun i hi => descends hstep (Nat.zero_le i) hi
  obtain ⟨i, j, hij, hj, heq⟩ := repeats hcontainer fun i hi => hholds _ (hreach i hi)
  -- the way from the first time to the second is a way from the container into itself
  have hcycle : TransGen m.Encloses (f i) (f i) := by
    have hfirst : m.Encloses (f i) (f (i + 1)) := hstep i (by omega)
    have hrest : ReflTransGen m.Encloses (f (i + 1)) (f j) := descends hstep hij hj
    rw [← heq] at hrest
    exact TransGen.head' hfirst hrest
  exact ⟨f i, hreach i (by omega), hcycle⟩

/-- A value that exists and of which no part is inside of itself has a tree. -/
theorem Acyclic.tree (h : m.Acyclic v) : ∃ t, m.tree? v = some t := by
  refine Option.ne_none_iff_exists'.mp fun hnone => ?_
  obtain ⟨w, hw, hcycle⟩ := leadsBack_of_tree?_eq_none hnone h.holds
  exact h.apart w hw hcycle

/-! ## Every bound that is large enough -/

theorem mapM_eq_none {α β : Type} {f : α → Option β} {x : α} :
    ∀ {l : List α}, x ∈ l → f x = none → l.mapM f = none
  | y :: rest, hx, hnone => by
    rcases List.mem_cons.mp hx with rfl | hx
    · simp [List.mapM_cons, hnone]
    · simp [List.mapM_cons, mapM_eq_none hx hnone]

theorem mapM_mono {α β : Type} {f g : α → Option β} (h : ∀ x y, f x = some y → g x = some y) :
    ∀ {l : List α} {ys : List β}, l.mapM f = some ys → l.mapM g = some ys
  | [], _, hys => hys
  | x :: rest, _, hys => by
    simp only [List.mapM_cons, Option.bind_eq_bind, Option.bind_eq_some_iff] at hys ⊢
    obtain ⟨y, hy, zs, hzs, hpure⟩ := hys
    exact ⟨y, h x y hy, zs, mapM_mono h hzs, hpure⟩

theorem treeWithin_succ : ∀ {n : Nat} {v : Value} {t : Tree}, m.treeWithin n v = some t →
    m.treeWithin (n + 1) v = some t
  | n, .void, _, h | n, .int _, _, h | n, .str _, _, h => by
    cases n <;> simpa [treeWithin] using h
  | 0, .array _, _, h | 0, .dict _, _, h => by simp [treeWithin] at h
  | n + 1, .array a, t, h => by
    simp only [treeWithin, Option.bind_eq_bind, Option.bind_eq_some_iff] at h
    obtain ⟨es, hes, hpure⟩ := h
    have hmore := mapM_mono (fun c _ hc => treeWithin_succ (v := m.read c) hc) hes
    rw [treeWithin]
    simp only [Option.bind_eq_bind, Option.bind_eq_some_iff]
    exact ⟨es, hmore, hpure⟩
  | n + 1, .dict d, t, h => by
    simp only [treeWithin, Option.bind_eq_bind, Option.bind_eq_some_iff] at h
    obtain ⟨es, hes, hpure⟩ := h
    have hmore := mapM_mono (g := fun e => do
      let t ← treeWithin m (n + 1) (m.read e.2)
      return (e.1, t)) (fun e p hp => ?_) hes
    · rw [treeWithin]
      simp only [Option.bind_eq_bind, Option.bind_eq_some_iff]
      exact ⟨es, hmore, hpure⟩
    · simp only [Option.bind_eq_bind, Option.bind_eq_some_iff] at hp ⊢
      obtain ⟨t, ht, hp⟩ := hp
      exact ⟨t, treeWithin_succ ht, hp⟩

theorem treeWithin_mono {n k : Nat} {t : Tree} (hnk : n ≤ k) (h : m.treeWithin n v = some t) :
    m.treeWithin k v = some t := by
  induction k, hnk using Nat.le_induction with
  | base => exact h
  | succ k _ ih => exact treeWithin_succ ih

/-- Where a value in a container is deeper than the bound, the container is deeper than the next. -/
theorem treeWithin_eq_none_of_encloses {n : Nat} (h : m.Encloses v w)
    (hw : m.treeWithin n w = none) : m.treeWithin (n + 1) v = none := by
  obtain ⟨c, hc, rfl⟩ := h
  cases v with
  | void | int | str => exact hc.elim
  | array a =>
    have hc : c ∈ (m.slots a).toList := Array.mem_toList_iff.mpr hc
    rw [treeWithin, mapM_eq_none hc hw]
    rfl
  | dict d =>
    obtain ⟨key, hkey⟩ := hc
    have hentry : (key, c) ∈ (m.entries d).entries := Table.get?_eq_some_iff.mp hkey
    rw [treeWithin, mapM_eq_none hentry (by simp [hw])]
    rfl

/-- One step along the way, or once around. -/
theorem LeadsBack.encloses (h : m.LeadsBack v) : ∃ w, m.Encloses v w ∧ m.LeadsBack w := by
  obtain ⟨w, hvw, hcycle⟩ := h
  rcases ReflTransGen.cases_head hvw with rfl | ⟨x, hvx, hxw⟩
  · obtain ⟨x, hvx, hxv⟩ := TransGen.head'_iff.mp hcycle
    exact ⟨x, hvx, v, hxv, hcycle⟩
  · exact ⟨x, hvx, w, hxw, hcycle⟩

/-- What leads back into itself is deeper than any bound. -/
theorem LeadsBack.treeWithin (h : m.LeadsBack v) (n : Nat) : m.treeWithin n v = none := by
  induction n generalizing v with
  | zero =>
    obtain ⟨w, ⟨c, hc, -⟩, -⟩ := h.encloses
    cases v with
    | void | int | str => exact hc.elim
    | array | dict => simp [Memory.treeWithin]
  | succ n ih =>
    obtain ⟨w, hvw, hw⟩ := h.encloses
    exact treeWithin_eq_none_of_encloses hvw (ih hw)

/-- The bound of `tree?` is as good as any. -/
theorem tree?_of_treeWithin {n : Nat} {t : Tree} (hcells : ∀ c, m.Holds (m.read c))
    (hv : m.Holds v) (h : m.treeWithin n v = some t) : m.tree? v = some t := by
  cases ht : m.tree? v with
  | none =>
    have hnone := (leadsBack_of_tree?_eq_none ht fun w => holds_within hcells hv).treeWithin n
    rw [h] at hnone
    cases hnone
  | some t' =>
    have hmax := treeWithin_mono (Nat.le_max_left n (m.arrays.size + m.dicts.size)) h
    have hmax' := treeWithin_mono (Nat.le_max_right n (m.arrays.size + m.dicts.size)) ht
    rw [hmax] at hmax'
    exact hmax'.symm

end Kiln.Memory
