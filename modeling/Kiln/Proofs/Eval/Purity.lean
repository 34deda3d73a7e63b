import Kiln.Proofs.Memory.Likeness

/-!
# Kiln.Proofs.Eval.Purity — expressions that change nothing

An expression without assignments, `++`, `--` and calls only makes new containers: all else, whatever
existed in memory included, is as it was, however evaluation ends.  What it yields depends on what the
variables look like and on nothing else, so it yields the same when it is evaluated again.

Both are one induction over evaluation, with two runs side by side in states whose variables are
alike (`eval_mirrored`).
-/

namespace Kiln

open Kiln.Action Memory

namespace Expr

mutual

/-- Nothing in the expression assigns or calls. -/
def isPure : Expr → Bool
  | .const _ | .var _ => true
  | .array es => arePure es
  | .dict ps => areEntriesPure ps
  | .unary _ arg => isPure arg
  | .bump _ _ _ | .builtin _ _ | .call _ _ => false
  | .binary op left right => op != .assign && isPure left && isPure right
  | .ternary cond yes no => isPure cond && isPure yes && isPure no

/-- Nothing in the expressions assigns or calls. -/
def arePure : List Expr → Bool
  | [] => true
  | e :: rest => isPure e && arePure rest

/-- Nothing in the keys and values assigns or calls. -/
def areEntriesPure : List (Expr × Expr) → Bool
  | [] => true
  | (k, v) :: rest => isPure k && isPure v && areEntriesPure rest

end

theorem isPure_of_arePure {es : List Expr} (h : arePure es = true) : ∀ e ∈ es, e.isPure = true := by
  induction es with
  | nil => simp
  | cons e rest ih =>
    simp only [arePure, Bool.and_eq_true] at h
    exact List.forall_mem_cons.mpr ⟨h.1, ih h.2⟩

theorem isPure_of_areEntriesPure {ps : List (Expr × Expr)} (h : areEntriesPure ps = true) :
    ∀ p ∈ ps, p.1.isPure = true ∧ p.2.isPure = true := by
  induction ps with
  | nil => simp
  | cons p rest ih =>
    simp only [areEntriesPure, Bool.and_eq_true] at h
    exact List.forall_mem_cons.mpr ⟨h.1, ih h.2⟩

end Expr

namespace Machine

variable {s s' t t' u : Machine}

/-- Only memory may change: it may grow, and its scopes stay as they are. -/
structure Allocates (s t : Machine) : Prop where
  rest : t = { s with memory := t.memory }
  memory : s.memory.Extends t.memory
  scopes : t.memory.scopes = s.memory.scopes

theorem Allocates.frame (h : s.Allocates t) : t.frame = s.frame := by rw [h.rest]

theorem Allocates.trans (h : s.Allocates t) (h' : t.Allocates u) : s.Allocates u where
  rest := by
    rw [h'.rest, h.rest]
  memory := h.memory.trans h'.memory
  scopes := h'.scopes.trans h.scopes

/-- Memory may only grow, and nothing else changes. -/
def allocating : Step.Law Machine where
  inv s := s.memory.WellFormed
  rel := Allocates
  refl _ := ⟨rfl, .refl _, rfl⟩
  trans := .trans

/-- In both states every variable looks the same. -/
structure Mirrors (s s' : Machine) : Prop where
  left : s.memory.WellFormed
  right : s'.memory.WellFormed
  vars : ∀ name, Alike s.memory s'.memory (s.memory.getVar s.frame.scope name)
    (s'.memory.getVar s'.frame.scope name)

theorem leads_memory (h : allocating.Leads s t) : Memory.allocating.Leads s.memory t.memory :=
  ⟨h.start, h.finish, h.rel.memory, h.rel.scopes⟩

/-- What was alike stays so. -/
theorem alike_stays {v v' : Value} (h : Alike s.memory s'.memory v v')
    (hst : allocating.Leads s t) (hst' : allocating.Leads s' t') : Alike t.memory t'.memory v v' :=
  h.leads (leads_memory hst) (leads_memory hst')

theorem Mirrors.leads (h : s.Mirrors s') (hst : allocating.Leads s t)
    (hst' : allocating.Leads s' t') : t.Mirrors t' where
  left := hst.finish
  right := hst'.finish
  vars name := by
    have hvar := getVar_of_leads (leads_memory hst) s.frame.scope name
    have hvar' := getVar_of_leads (leads_memory hst') s'.frame.scope name
    rw [hst.rel.frame, hst'.rel.frame, hvar, hvar']
    exact alike_stays (h.vars name) hst hst'

end Machine

/-- The two runs yield alike values. -/
abbrev Machine.YieldAlike (s s' : Machine) (f f' : Action Value) : Prop :=
  f.Abreast Machine.allocating s s' f' fun v t v' t' => Alike t.memory t'.memory v v'

variable {s s' : Machine} {v v' w w' : Value}

theorem abreast_onMemory {α : Type} {f f' : Step Memory α}
    {R : α → Memory → α → Memory → Prop}
    (h : f.Abreast Memory.allocating s.memory s'.memory f' R) :
    (onMemory f).Abreast Machine.allocating s s' (onMemory f')
      fun a t a' t' => R a t.memory a' t'.memory := by
  refine ⟨⟨h.left.start, h.left.finish, rfl, h.left.rel.1, h.left.rel.2⟩,
    ⟨h.right.start, h.right.finish, rfl, h.right.rel.1, h.right.rel.2⟩, ?_⟩
  have hends := h.ends
  simp only [onMemory, Step.on]
  rcases hf : f s.memory with ⟨o, m⟩
  rcases hf' : f' s'.memory with ⟨o', m'⟩
  rw [hf, hf'] at hends
  cases hends with
  | ok ha => exact .ok ha
  | error => exact .error
  | exhausted => exact .exhausted

/-! ## Operators -/

theorem yieldAlike_int {i i' : Int32} (hs : s.Mirrors s') (h : i = i') :
    s.YieldAlike s' (pure (.int i)) (pure (.int i')) := by
  rw [h]
  exact .pure hs.left hs.right (.int i')

theorem yieldAlike_divide {a a' b b' : Int32} (hs : s.Mirrors s') (ha : a = a') (hb : b = b') :
    s.YieldAlike s' (divide a b) (divide a' b') := by
  rw [ha, hb]
  unfold divide
  split
  · exact .fault hs.left hs.right
  · exact yieldAlike_int hs rfl

section Operators

variable (hs : s.Mirrors s') (hv : Alike s.memory s'.memory v v')
  (hw : Alike s.memory s'.memory w w')

include hs hv hw

theorem yieldAlike_subscript : s.YieldAlike s' (subscript v w) (subscript v' w') := by
  have hindex : s.memory.YieldAlike s'.memory (index v w.toInt) (index v' w'.toInt) := by
    rw [← hw.toInt_eq]
    exact yieldAlike_index hs.left hs.right hv w.toInt
  have hkind := hv.sameKind
  cases hkind with
  | dict d d' =>
    have htext := abreast_onMemory (yieldSame_textOf hs.left hs.right hw)
    refine htext.bind fun k k' t t' hst hst' hk => ?_
    rw [hk]
    have hv := Machine.alike_stays hv hst hst'
    exact abreast_onMemory (yieldAlike_key hst.finish hst'.finish hv k')
  | _ => exact abreast_onMemory hindex

theorem yieldAlike_compareBy (f : Ordering → Bool) :
    s.YieldAlike s' (compareBy f v w) (compareBy f v' w') := by
  have horder := abreast_onMemory (yieldSame_order hs.left hs.right hv hw)
  refine horder.bind fun o o' t t' hst hst' ho => ?_
  rw [ho]
  exact .pure hst.finish hst'.finish (.ofBool _)

theorem yieldAlike_apply (op : BinaryOp) : s.YieldAlike s' (op.apply v w) (op.apply v' w') := by
  cases op with
  | assign => exact .pure hs.left hs.right hw
  | subscript => exact yieldAlike_subscript hs hv hw
  | add => exact abreast_onMemory (yieldAlike_add hs.left hs.right hv hw)
  | subtract | multiply => exact yieldAlike_int hs (by rw [hv.toInt_eq, hw.toInt_eq])
  | divide => exact yieldAlike_divide hs hv.toInt_eq hw.toInt_eq
  | and | or => exact yieldAlike_int hs (by rw [hv.isTrue_eq, hw.isTrue_eq])
  | _ => exact yieldAlike_compareBy hs hv hw _

end Operators

/-! ## Evaluation -/

theorem UnaryOp.alike_apply (op : UnaryOp) {m m' : Memory} (i : Int32) :
    Alike m m' (op.apply i) (op.apply i) := by
  cases op <;> exact .int _

/-- Evaluation of pure expressions with the bound `n`, where the variables look the same. -/
def Mirrored (n : Nat) : Prop :=
  ∀ {s s' : Machine} {e : Expr}, e.isPure = true → s.Mirrors s' →
    s.YieldAlike s' (eval n e) (eval n e)

namespace Mirrored

variable {n : Nat}

theorem elements (h : Mirrored n) {es : List Expr} (hes : Expr.arePure es = true)
    (hs : s.Mirrors s') : (Step.each (eval n) es).Abreast Machine.allocating s s'
      (Step.each (eval n) es) fun vs t vs' t' =>
        List.Forall₂ (Alike t.memory t'.memory) vs vs' :=
  .each (Q := fun v t v' t' => Alike t.memory t'.memory v v') hs.left hs.right
    (fun htu htu' hv => Machine.alike_stays hv htu htu')
    fun e hmem _ _ hst hst' => h (Expr.isPure_of_arePure hes e hmem) (hs.leads hst hst')

/-- A key is evaluated and takes its string form before its value is evaluated. -/
theorem entry (h : Mirrored n) {k e : Expr} (hk : k.isPure = true) (he : e.isPure = true)
    (hs : s.Mirrors s') :
    let entry : Action (String × Value) := do
      let k ← eval n k
      let key ← textOf k
      let value ← eval n e
      return (key, value)
    entry.Abreast Machine.allocating s s' entry fun p t p' t' =>
      p.1 = p'.1 ∧ Alike t.memory t'.memory p.2 p'.2 := by
  refine (h hk hs).bind fun k k' t t' hst hst' hk => ?_
  have htext := abreast_onMemory (yieldSame_textOf hst.finish hst'.finish hk)
  refine htext.bind fun key key' u u' htu htu' hkey => ?_
  have hu := (hs.leads hst hst').leads htu htu'
  refine (h he hu).bind fun v v' w w' huw huw' hv => ?_
  exact .pure huw.finish huw'.finish ⟨hkey, hv⟩

theorem operator (h : Mirrored n) {left right : Expr} (hleft : left.isPure = true)
    (hright : right.isPure = true) (op : BinaryOp) (hs : s.Mirrors s') :
    let result : Action Value := do
      let a ← eval n left
      let b ← eval n right
      op.apply a b
    s.YieldAlike s' result result := by
  refine (h hleft hs).bind fun a a' t t' hst hst' ha => ?_
  have ht := hs.leads hst hst'
  refine (h hright ht).bind fun b b' u u' htu htu' hb => ?_
  exact yieldAlike_apply (ht.leads htu htu') (Machine.alike_stays ha htu htu') hb op

end Mirrored

/-- Where the variables look the same, so does what a pure expression yields. -/
theorem eval_mirrored (n : Nat) : Mirrored n := by
  induction n with
  | zero => exact fun _ hs => .stuck hs.left hs.right
  | succ n ih =>
    intro s s' e he hs
    cases e with
    | const c =>
      cases c with
      | int i => exact .pure hs.left hs.right (.int i)
      | str text => exact .pure hs.left hs.right (.str text)
    | var name => exact .look hs.left hs.right (hs.vars name)
    | array es =>
      refine (ih.elements he hs).bind fun vs vs' t t' hst hst' hvs => ?_
      exact abreast_onMemory (yieldAlike_newArray hst.finish hst'.finish hvs)
    | dict ps =>
      have hps := Expr.isPure_of_areEntriesPure he
      refine (Step.Abreast.each
        (Q := fun (p : String × Value) t p' t' => p.1 = p'.1 ∧ Alike t.memory t'.memory p.2 p'.2)
        hs.left hs.right (fun htu htu' h => ⟨h.1, Machine.alike_stays h.2 htu htu'⟩)
        fun p hp t t' hst hst' =>
          ih.entry (hps p hp).1 (hps p hp).2 (hs.leads hst hst')).bind ?_
      intro entries entries' t t' hst hst' hentries
      exact abreast_onMemory (yieldAlike_newDict hst.finish hst'.finish hentries)
    | unary op arg =>
      have harg : arg.isPure = true := he
      refine (ih harg hs).bind fun v v' t t' hst hst' hv => ?_
      rw [hv.toInt_eq]
      exact .pure hst.finish hst'.finish (op.alike_apply _)
    | binary op left right =>
      simp only [Expr.isPure, Bool.and_eq_true, bne_iff_ne] at he
      obtain ⟨⟨hop, hleft⟩, hright⟩ := he
      have hresult := ih.operator hleft hright op hs
      cases op with
      | assign => exact absurd rfl hop
      | _ => exact hresult
    | ternary cond yes no =>
      simp only [Expr.isPure, Bool.and_eq_true] at he
      obtain ⟨⟨hcond, hyes⟩, hno⟩ := he
      refine (ih hcond hs).bind fun c c' t t' hst hst' hc => ?_
      rw [hc.isTrue_eq]
      split
      · exact ih hyes (hs.leads hst hst')
      · exact ih hno (hs.leads hst hst')
    | bump | builtin | call => cases he

theorem Machine.Mirrors.refl (hs : s.memory.WellFormed) : s.Mirrors s :=
  ⟨hs, hs, fun name => .refl (hs.holds_getVar s.frame.scope name)⟩

/-- In every state of a run, a pure expression changes nothing but that memory grows, however it ends:
the scopes, and all cells and containers that there were, are as they were.  Evaluated again in the
state `t` it ends in, it fails with the same error or yields a value that looks the same at every
depth. -/
theorem pure_expression (hs : Reachable s) (n : Nat) {e : Expr} (he : e.isPure = true) :
    let t := (eval n e s).2
    s.Allocates t ∧
      (∀ cause, (eval n e s).1 = .error cause → (eval n e t).1 = .error cause) ∧
      ∀ v, (eval n e s).1 = .ok v → ∃ v', (eval n e t).1 = .ok v' ∧
        ∀ depth, t.memory.shape depth v = (eval n e t).2.memory.shape depth v' := by
  intro t
  have hmirrors : s.Mirrors s := .refl hs.tidy.memory
  have hst : Machine.allocating.Leads s t := (eval_mirrored n he hmirrors).left
  have hagain := (eval_mirrored n he (hmirrors.leads (.refl hs.tidy.memory) hst)).ends
  refine ⟨hst.rel, fun cause hcause => ?_, fun v hv => ?_⟩
  · rw [Step.eq_of_fst hcause] at hagain
    generalize eval n e t = again at hagain
    cases hagain
    rfl
  · rw [Step.eq_of_fst hv] at hagain
    generalize eval n e t = again at hagain
    cases hagain with
    | ok halike => exact ⟨_, rfl, halike.shape⟩

/-- `[x] + [[x]]` -/
def Expr.wrappingX : Expr :=
  .binary .add (.array [.var "x"]) (.array [.array [.var "x"]])

/-- `x / 0` -/
def Expr.dividingX : Expr := .binary .divide (.var "x") (.const (.int 0))

/-- Evaluated twice, the one gives two arrays that look the same, and the other fails twice. -/
theorem pure_expression_again :
    ∃ s v v', Reachable s ∧ (eval 4 .wrappingX s).1 = .ok v ∧ v ≠ v' ∧
      (eval 4 .wrappingX (eval 4 .wrappingX s).2).1 = .ok v' ∧
      (∀ depth, (eval 4 .wrappingX s).2.memory.shape depth v =
        (eval 4 .wrappingX (eval 4 .wrappingX s).2).2.memory.shape depth v') ∧
      s.Allocates (eval 4 .wrappingX s).2 ∧
      (eval 4 .dividingX s).1 = .error (.fault .divisionByZero) ∧
      (eval 4 .dividingX (eval 4 .dividingX s).2).1 = .error (.fault .divisionByZero) := by
  let first : Machine := ({ Machine.blank with memory := .empty } : Machine).opened "/m"
  let s : Machine := (exec 3 .settingX first).2
  have hs : Reachable s := .exec 3 .settingX (.first "/m" rfl)
  let v : Value := .array ⟨s.memory.arrays.size + 3⟩
  have hv : (eval 4 .wrappingX s).1 = .ok v := by decide +kernel
  have hagain : (eval 4 .wrappingX (eval 4 .wrappingX s).2).1 ≠ .ok v := by decide +kernel
  have hfails : (eval 4 .dividingX s).1 = .error (.fault .divisionByZero) := by decide +kernel
  obtain ⟨hallocates, -, hvalue⟩ := pure_expression hs 4 (e := .wrappingX) rfl
  obtain ⟨v', hv', hshape⟩ := hvalue v hv
  have hne : v ≠ v' := fun heq => hagain (heq ▸ hv')
  have herror := (pure_expression hs 4 (e := .dividingX) rfl).2.1 _ hfails
  exact ⟨s, v, v', hs, hv, hne, hv', hshape, hallocates, hfails, herror⟩

end Kiln
