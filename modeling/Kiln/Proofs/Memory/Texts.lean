import Kiln.Proofs.Eval.Aside
import Kiln.Proofs.Memory.Acyclic
import Kiln.Proofs.Text.Numeral

/-!
# Kiln.Proofs.Memory.Texts — string forms and the order of values

A value of which no part is inside of itself has a string form.  Values come out of a comparison as
equal just when their string forms are the same: two integers are compared as numbers, but no two
numbers have one decimal form.
-/

namespace Kiln

open Kiln.Text

namespace Memory

variable {m : Memory} {v w : Value} {t : Tree} {form form' : String}

/-! ## String forms -/

@[simp] theorem treeWithin_int (n : Nat) (i : Int32) : m.treeWithin n (.int i) = some (.int i) := by
  cases n <;> rfl

@[simp] theorem treeWithin_str (n : Nat) (s : String) : m.treeWithin n (.str s) = some (.str s) := by
  cases n <;> rfl

theorem treeOf_run (h : m.tree? v = some t) : treeOf v m = (.ok t, m) := by
  simp only [treeOf, h]

theorem textOf_run (h : m.tree? v = some t) : textOf v m = (.ok t.text, m) := by
  have hform : (do let t ← treeOf v; return t.text : Step Memory String) m = (.ok t.text, m) :=
    Step.bind_run_ok (treeOf_run h) _
  cases v with
  | str s =>
    obtain rfl : t = .str s := by simpa [tree?] using h.symm
    rfl
  | _ => exact hform

theorem textOf_int (n : Int32) (m : Memory) : textOf (.int n) m = (.ok (Numeral.decimal n), m) :=
  textOf_run (treeWithin_int _ n)

/-- Every value of which no part is inside of itself has a string form. -/
theorem Acyclic.text (h : m.Acyclic v) : ∃ form, textOf v m = (.ok form, m) := by
  obtain ⟨t, ht⟩ := h.tree
  exact ⟨t.text, textOf_run ht⟩

/-- What is in such a value is such a value. -/
theorem Acyclic.encloses (h : m.Acyclic v) (hw : m.Encloses v w) : m.Acyclic w :=
  ⟨fun _ hx => h.holds _ (.head hw hx), fun _ hx => h.apart _ (.head hw hx)⟩

theorem Acyclic.elements {a : ArrayId} (h : m.Acyclic (.array a)) :
    ∀ e ∈ m.elements (.array a), m.Acyclic e := by
  intro e he
  obtain ⟨c, hc, rfl⟩ := List.mem_map.mp he
  exact h.encloses ⟨c, Array.mem_toList_iff.mp hc, rfl⟩

/-! ## The order of values -/

theorem decimal_inj {i j : Int32} : Numeral.decimal i = Numeral.decimal j ↔ i = j := by
  refine ⟨fun h => ?_, congrArg _⟩
  have hend : Numeral.NoDigit [] := fun _ hc => by cases hc
  have happend := congrArg (fun s : String => s.toList ++ []) h
  exact (Numeral.decimal_append_inj hend hend happend).1

/-- Values that have string forms can be compared, and they are equal if the string forms are. -/
theorem order_run (hv : textOf v m = (.ok form, m)) (hw : textOf w m = (.ok form', m)) :
    ∃ o, order v w m = (.ok o, m) ∧ (o = .eq ↔ form = form') := by
  unfold order
  split
  · rename_i i j
    rw [textOf_int] at hv hw
    cases hv
    cases hw
    refine ⟨_, rfl, ?_⟩
    rw [Std.LawfulEqOrd.compare_eq_iff_eq, Int32.toInt_inj, decimal_inj]
  · refine ⟨compare form form', ?_, Std.LawfulEqOrd.compare_eq_iff_eq⟩
    rw [Step.bind_run_ok hv, Step.bind_run_ok hw]
    rfl

end Memory

end Kiln
