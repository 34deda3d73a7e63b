import Kiln.Proofs.Eval.Regime
import Kiln.Proofs.Memory.Texts

/-!
# Kiln.Proofs.Eval.Equality — when values are equal

The operators `==` and `!=` compare two integers as numbers and any other two values by their string
forms.  Both ways come to the same: equal are the values with one string form, so `==` is an
equivalence on the values that have one, across their types.  What `contains` finds in an array is an
element that equals what is looked for.
-/

namespace Kiln

open Kiln.Action

variable {s : Machine} {a b v : Value} {form form' : String}

/-- The operator `==` gives 1. -/
def Machine.Equates (s : Machine) (a b : Value) : Prop :=
  BinaryOp.equal.apply a b s = (.ok (.int 1), s)

theorem ofBool_eq_one_iff {b : Bool} : Value.ofBool b = .int 1 ↔ b = true := by
  cases b <;> decide

/-! ## Comparisons -/

theorem compareBy_run (f : Ordering → Bool) (ha : Memory.textOf a s.memory = (.ok form, s.memory))
    (hb : Memory.textOf b s.memory = (.ok form', s.memory)) :
    ∃ o, compareBy f a b s = (.ok (.ofBool (f o)), s) ∧ (o = .eq ↔ form = form') := by
  obtain ⟨o, horder, ho⟩ := Memory.order_run ha hb
  have hrun : onMemory (Memory.order a b) s = (.ok o, s) := onMemory_run horder
  exact ⟨o, Step.bind_run_ok hrun _, ho⟩

theorem equal_run (ha : Memory.textOf a s.memory = (.ok form, s.memory))
    (hb : Memory.textOf b s.memory = (.ok form', s.memory)) :
    BinaryOp.equal.apply a b s = (.ok (.ofBool (decide (form = form'))), s) := by
  obtain ⟨o, hrun, ho⟩ := compareBy_run (· == .eq) ha hb
  have hsame : (o == .eq) = decide (form = form') := by
    rw [Bool.eq_iff_iff, beq_iff_eq, decide_eq_true_iff]
    exact ho
  rw [← hsame]
  exact hrun

theorem notEqual_run (ha : Memory.textOf a s.memory = (.ok form, s.memory))
    (hb : Memory.textOf b s.memory = (.ok form', s.memory)) :
    BinaryOp.notEqual.apply a b s = (.ok (.ofBool (decide (form ≠ form'))), s) := by
  obtain ⟨o, hrun, ho⟩ := compareBy_run (· != .eq) ha hb
  have hsame : (o != .eq) = decide (form ≠ form') := by
    rw [Bool.eq_iff_iff, bne_iff_ne, decide_eq_true_iff]
    exact not_congr ho
  rw [← hsame]
  exact hrun

/-- Values are equal if and only if their string forms are. -/
theorem equates_iff (ha : Memory.textOf a s.memory = (.ok form, s.memory))
    (hb : Memory.textOf b s.memory = (.ok form', s.memory)) : s.Equates a b ↔ form = form' := by
  rw [Machine.Equates, equal_run ha hb]
  simp only [Prod.mk.injEq, Outcome.ok.injEq, and_true, ofBool_eq_one_iff, decide_eq_true_iff]

/-! ## Looking for an element -/

/-- The values have the string forms, one by one. -/
abbrev Machine.Forms (s : Machine) (vs : List Value) (forms : List String) : Prop :=
  List.Forall₂ (fun v form => Memory.textOf v s.memory = (.ok form, s.memory)) vs forms

theorem textsOf_of_forms {vs : List Value} {forms : List String} (h : s.Forms vs forms) :
    textsOf vs s = (.ok forms, s) := by
  induction h with
  | nil => rfl
  | cons hv _ ih => exact Step.each_cons_eq_ok.mpr ⟨_, s, _, onMemory_run hv, ih, rfl⟩

theorem forms_str (texts : List String) : s.Forms (texts.map .str) texts := by
  induction texts with
  | nil => exact .nil
  | cons text texts ih => exact .cons rfl ih

theorem exists_forms {vs : List Value} (hvs : ∀ v ∈ vs, s.memory.Acyclic v) :
    ∃ forms, s.Forms vs forms := by
  induction vs with
  | nil => exact ⟨[], .nil⟩
  | cons v vs ih =>
    obtain ⟨hv, hrest⟩ := List.forall_mem_cons.mp hvs
    obtain ⟨form, hform⟩ := hv.text
    obtain ⟨forms, hforms⟩ := ih hrest
    exact ⟨form :: forms, .cons hform hforms⟩

theorem mem_forms_iff {vs : List Value} {forms : List String} (h : s.Forms vs forms)
    (hb : Memory.textOf b s.memory = (.ok form, s.memory)) :
    form ∈ forms ↔ ∃ e ∈ vs, s.Equates e b := by
  induction h with
  | nil => simp
  | cons he _ ih => rw [List.mem_cons, ih, List.exists_mem_cons_iff, equates_iff he hb, eq_comm]

/-- An array contains a value just when one of its elements equals the value. -/
theorem contains_run {arr : ArrayId} (harr : s.memory.Acyclic (.array arr))
    (hb : s.memory.Acyclic b) :
    ∃ found, Builtin.call .contains [.array arr, b] s = (.ok (.ofBool found), s) ∧
      (found = true ↔ ∃ e ∈ s.memory.elements (.array arr), s.Equates e b) := by
  obtain ⟨form, hform⟩ := hb.text
  obtain ⟨forms, hforms⟩ := exists_forms harr.elements
  have hneedle : textOf b s = (.ok form, s) := onMemory_run hform
  refine ⟨forms.contains form, ?_, ?_⟩
  · show (textOf b >>= fun needle => _) s = _
    rw [Step.bind_run_ok hneedle]
    show (elementsOf (.array arr) >>= fun values => textsOf values >>= _) s = _
    rw [Step.bind_run_ok (rfl : elementsOf (.array arr) s = (.ok _, s)),
      Step.bind_run_ok (textsOf_of_forms hforms)]
    rfl
  · rw [List.contains_iff_mem]
    exact mem_forms_iff hforms hform

/-! ## Equality as a whole -/

/-- Of values without cycles, those are equal that have one string form, and integers are if they are
the same number; so `==` is an equivalence on them, `!=` is its opposite, and `contains` looks for an
element that `==` holds of. -/
theorem equality_of_forms (s : Machine) :
    (∀ a b, s.memory.Acyclic a → s.memory.Acyclic b → ∃ form form',
      Memory.textOf a s.memory = (.ok form, s.memory) ∧
      Memory.textOf b s.memory = (.ok form', s.memory) ∧
      BinaryOp.equal.apply a b s = (.ok (.ofBool (decide (form = form'))), s) ∧
      BinaryOp.notEqual.apply a b s = (.ok (.ofBool (decide (form ≠ form'))), s)) ∧
    (∀ i j : Int32, s.Equates (.int i) (.int j) ↔ i = j) ∧
    Equivalence (fun a b : {v : Value // s.memory.Acyclic v} => s.Equates a.val b.val) ∧
    ∀ (arr : ArrayId) (b : Value), s.memory.Acyclic (.array arr) → s.memory.Acyclic b → ∃ found,
      Builtin.call .contains [.array arr, b] s = (.ok (.ofBool found), s) ∧
      (found = true ↔ ∃ e ∈ s.memory.elements (.array arr), s.Equates e b) := by
  refine ⟨fun a b ha hb => ?_, fun i j => ?_, ⟨?_, ?_, ?_⟩, fun arr b => contains_run⟩
  · obtain ⟨form, hform⟩ := ha.text
    obtain ⟨form', hform'⟩ := hb.text
    exact ⟨form, form', hform, hform', equal_run hform hform', notEqual_run hform hform'⟩
  · rw [equates_iff (Memory.textOf_int i _) (Memory.textOf_int j _), Memory.decimal_inj]
  · rintro ⟨a, ha⟩
    obtain ⟨form, hform⟩ := ha.text
    exact (equates_iff hform hform).mpr rfl
  · rintro ⟨a, ha⟩ ⟨b, hb⟩ hab
    obtain ⟨form, hform⟩ := ha.text
    obtain ⟨form', hform'⟩ := hb.text
    rw [equates_iff hform hform'] at hab
    exact (equates_iff hform' hform).mpr hab.symm
  · rintro ⟨a, ha⟩ ⟨b, hb⟩ ⟨c, hc⟩ hab hbc
    obtain ⟨form₁, hform₁⟩ := ha.text
    obtain ⟨form₂, hform₂⟩ := hb.text
    obtain ⟨form₃, hform₃⟩ := hc.text
    rw [equates_iff hform₁ hform₂] at hab
    rw [equates_iff hform₂ hform₃] at hbc
    exact (equates_iff hform₁ hform₃).mpr (hab.trans hbc)

/-- A state with the arrays `[7]`, `["7"]` and `[[7], "7"]`. -/
def Machine.sevens : Machine :=
  { Machine.blank with
    memory := ⟨#[.int 7, .str "7", .array ⟨0⟩, .str "7"], #[#[⟨0⟩], #[⟨1⟩], #[⟨2⟩, ⟨3⟩]], #[],
      #[⟨.empty, []⟩]⟩ }

/-- The first two arrays are equal both ways round.  The third contains the second one and the number
7, though what is in it are the first one and a string. -/
theorem equality_of_forms_sevens : let s := Machine.sevens
    s.memory.Acyclic (.array ⟨0⟩) ∧ s.memory.Acyclic (.array ⟨1⟩) ∧ s.memory.Acyclic (.array ⟨2⟩) ∧
    BinaryOp.equal.apply (.array ⟨0⟩) (.array ⟨1⟩) s = (.ok (.int 1), s) ∧
    BinaryOp.notEqual.apply (.array ⟨0⟩) (.array ⟨1⟩) s = (.ok (.int 0), s) ∧
    BinaryOp.equal.apply (.array ⟨1⟩) (.array ⟨0⟩) s = (.ok (.int 1), s) ∧
    Builtin.call .contains [.array ⟨2⟩, .array ⟨1⟩] s = (.ok (.int 1), s) ∧
    Builtin.call .contains [.array ⟨2⟩, .int 7] s = (.ok (.int 1), s) := by
  intro s
  have hacyclic {v : Value} (hv : s.memory.Holds v) : s.memory.Acyclic v :=
    Memory.acyclic_of_older (by decide) (by decide) rfl hv
  have h₀ : s.memory.Acyclic (.array ⟨0⟩) := hacyclic (by decide)
  have h₁ : s.memory.Acyclic (.array ⟨1⟩) := hacyclic (by decide)
  have h₂ : s.memory.Acyclic (.array ⟨2⟩) := hacyclic (by decide)
  obtain ⟨hforms, -, hequivalence, hcontains⟩ := equality_of_forms s
  obtain ⟨form, form', hform, hform', hequal, hnotEqual⟩ := hforms _ _ h₀ h₁
  have htext : Memory.textOf (.array ⟨0⟩) s.memory = (.ok "[\"7\"]", s.memory) := rfl
  have htext' : Memory.textOf (.array ⟨1⟩) s.memory = (.ok "[\"7\"]", s.memory) := rfl
  rw [htext] at hform
  rw [htext'] at hform'
  cases hform
  cases hform'
  have hback : s.Equates (.array ⟨1⟩) (.array ⟨0⟩) :=
    hequivalence.symm (x := ⟨_, h₀⟩) (y := ⟨_, h₁⟩) hequal
  obtain ⟨found, hfound, hiff⟩ := hcontains ⟨2⟩ (.array ⟨1⟩) h₂ h₁
  obtain rfl := hiff.mpr ⟨.array ⟨0⟩, by decide, hequal⟩
  obtain ⟨found, hfound', hiff⟩ := hcontains ⟨2⟩ (.int 7) h₂ (hacyclic trivial)
  obtain rfl := hiff.mpr ⟨.str "7", by decide, rfl⟩
  exact ⟨h₀, h₁, h₂, hequal, hnotEqual, hback, hfound, hfound'⟩

end Kiln
