import Kiln.Eval
import Kiln.Proofs.Eval.Aside

/-!
# Kiln.Proofs.Eval.Regime — what evaluation keeps to

A `Regime` fixes an invariant of running scripts, what evaluating an expression and executing a
statement may do to the state, and which values and cells a script can have in hand.  Its fields say
that every primitive of the evaluator keeps to it: the operations on memory, a change of the
signals, whatever leaves memory and frame alone, and going into a function or another build file and
coming back.  That evaluation as a whole keeps to it then, is proved once for all regimes.
-/

namespace Kiln

open Kiln.Action

/-- The state in which the body of a called function starts: a scope of its own inside the caller's,
its parameters bound there, and a frame without signals. -/
def Machine.entered (s : Machine) (f : Function) (values : List Value) : Machine :=
  let scope : ScopeId := ⟨s.memory.scopes.size⟩
  let inside := (Memory.newScope (some s.frame.scope) s.memory).2
  { s with
    memory :=
      (Step.forAll (fun p => Memory.setVar scope p.1 p.2) (f.params.zip values) inside).2
    frame := s.frame.enter f scope }

/-- The state in which the top level of another build file starts: a scope on its own, with the
description of the host in it. -/
def Machine.opened (s : Machine) (module : String) : Machine :=
  { s with
    memory := (s.host.newScope s.memory).2
    frame := .top module ⟨s.memory.scopes.size⟩ }

/-- The top level of a module with one scope, in which nothing is bound, on an empty disk and without
programs. -/
def Machine.blank : Machine where
  memory := ⟨#[], #[], #[], #[⟨.empty, []⟩]⟩
  frame := .top "/m" ⟨0⟩
  run := .inDir "/"
  session := .inDir "/" false
  files := ⟨.dir [] 0, 0, some "/"⟩
  host := ⟨.empty, "", "", .none, Text.Regex.anchored⟩

/-- Values that are no containers. -/
def Value.IsScalar : Value → Prop
  | .array _ => False
  | .dict _ => False
  | _ => True

/-- What the states of a running script satisfy, and what may become of them. -/
structure Customs where
  inv : Machine → Prop
  /-- What evaluating an expression may do. -/
  evaluated : Machine → Machine → Prop
  /-- What executing a statement may do. -/
  executed : Machine → Machine → Prop
  /-- The values a script can have in hand. -/
  holds : Memory → Value → Prop
  /-- The cells a script can write. -/
  owns : Machine → CellId → Prop
  evaluated_refl : ∀ s, evaluated s s
  evaluated_trans : ∀ {s t u}, evaluated s t → evaluated t u → evaluated s u
  executed_trans : ∀ {s t u}, executed s t → executed t u → executed s u
  executed_of_evaluated : ∀ {s t}, evaluated s t → executed s t
  holds_mono : ∀ {s t v}, executed s t → holds s.memory v → holds t.memory v
  owns_mono : ∀ {s t c}, executed s t → owns s c → owns t c

namespace Customs

/-- The law of evaluation. -/
def evaluating (r : Customs) : Step.Law Machine :=
  ⟨r.inv, r.evaluated, r.evaluated_refl, r.evaluated_trans⟩

/-- The law of execution. -/
def executing (r : Customs) : Step.Law Machine :=
  ⟨r.inv, r.executed, fun s => r.executed_of_evaluated (r.evaluated_refl s), r.executed_trans⟩

/-- The action keeps to the law of evaluation and yields a value the script then has in hand. -/
abbrev Yields (r : Customs) (s : Machine) (m : Action Value) : Prop :=
  m.Obeys r.evaluating s fun v t => r.holds t.memory v

end Customs

/-- Customs that every primitive of the evaluator keeps to. -/
structure Regime extends Customs where
  /-- A scalar can always be had. -/
  holds_scalar : ∀ {m v}, v.IsScalar → holds m v
  holds_result : ∀ {s}, inv s → holds s.memory s.frame.signals.result
  holds_var : ∀ {s} name, inv s → holds s.memory (s.memory.getVar s.frame.scope name)
  holds_read : ∀ {s c}, inv s → owns s c → holds s.memory (s.memory.read c)
  owns_slot : ∀ {s a c}, inv s → holds s.memory (.array a) → c ∈ s.memory.slots a → owns s c
  owns_entry : ∀ {s d key c}, inv s → holds s.memory (.dict d) →
    (s.memory.entries d).get? key = some c → owns s c
  newArray : ∀ {s vs}, inv s → (∀ v ∈ vs, holds s.memory v) →
    toCustoms.Yields s (onMemory (Memory.newArray vs))
  newDict : ∀ {s pairs}, inv s → (∀ p ∈ pairs, holds s.memory p.2) →
    toCustoms.Yields s (onMemory (Memory.newDict pairs))
  varCell : ∀ {s} name, inv s →
    (onMemory (Memory.varCell s.frame.scope name)).Obeys toCustoms.evaluating s fun c t => owns t c
  slotCell : ∀ {s a} i, inv s → holds s.memory (.array a) →
    (onMemory (Memory.slotCell a i)).Obeys toCustoms.evaluating s fun c t => owns t c
  entryCell : ∀ {s d} key, inv s → holds s.memory (.dict d) →
    (onMemory (Memory.entryCell d key)).Obeys toCustoms.evaluating s fun c t => owns t c
  write : ∀ {s c v}, inv s → owns s c → holds s.memory v →
    (onMemory (Memory.write c v)).Obeys toCustoms.evaluating s fun _ _ => True
  setVar : ∀ {s v} name, inv s → holds s.memory v →
    (onMemory (Memory.setVar s.frame.scope name v)).Obeys toCustoms.evaluating s fun _ _ => True
  /-- What leaves memory and frame alone. -/
  aside : ∀ {s t : Machine}, inv s → s.Beside t → inv t ∧ evaluated s t
  signals : ∀ {s signals}, inv s → holds s.memory signals.result →
    inv { s with frame := { s.frame with signals } } ∧
      executed s { s with frame := { s.frame with signals } }
  /-- Going into a function. -/
  entered : ∀ {s values} f, inv s → (∀ v ∈ values, holds s.memory v) → inv (s.entered f values)
  /-- Going into another build file. -/
  opened : ∀ {s} module, inv s → inv (s.opened module)
  /-- Coming back from a function. -/
  left : ∀ {s f values t}, inv s → (∀ v ∈ values, holds s.memory v) → inv t →
    executed (s.entered f values) t →
      inv { t with frame := s.frame } ∧ evaluated s { t with frame := s.frame }
  /-- Coming back from another build file. -/
  closed : ∀ {s module t}, inv s → inv t → executed (s.opened module) t →
    inv { t with frame := s.frame } ∧ evaluated s { t with frame := s.frame }

namespace Regime

variable {α : Type} (r : Regime) {s t : Machine} {v : Value} {vs : List Value}

theorem executing_of_evaluating {m : Action α} {P : α → Machine → Prop}
    (h : m.Obeys r.evaluating s P) : m.Obeys r.executing s P :=
  h.weaken fun _ ht hst => ⟨ht, r.executed_of_evaluated hst⟩

theorem obeys_of_aside {m : Action α} (hm : Aside m) (hs : r.inv s) :
    m.Obeys r.evaluating s fun _ t => t.memory = s.memory :=
  have h := r.aside hs (hm s)
  ⟨h.1, h.2, fun _ _ => (hm s).memory⟩

/-- Looking, for a scalar. -/
theorem yields_of_idle {m : Action α} {f : α → Value} (hm : m.Idle) (hf : ∀ a, (f a).IsScalar)
    (hs : r.inv s) : r.Yields s (m >>= fun a => pure (f a)) :=
  hm.obeys_bind hs fun a _ => .pure hs (r.holds_scalar (hf a))

/-- An action that touches neither memory nor frame, for a scalar. -/
theorem yields_of_aside {m : Action α} {f : α → Value} (hm : Aside m) (hf : ∀ a, (f a).IsScalar)
    (hs : r.inv s) : r.Yields s (m >>= fun a => pure (f a)) :=
  (r.obeys_of_aside hm hs).bind fun a _ ht _ _ => .pure ht (r.holds_scalar (hf a))

theorem holds_elements (hs : r.inv s) (hv : r.holds s.memory v) :
    ∀ w ∈ s.memory.elements v, r.holds s.memory w := by
  intro w hw
  cases v with
  | array a =>
    obtain ⟨c, hc, rfl⟩ := List.mem_map.mp hw
    exact r.holds_read hs (r.owns_slot hs hv (Array.mem_toList_iff.mp hc))
  | _ =>
    obtain rfl := List.mem_singleton.mp hw
    exact hv

theorem holds_element {a : ArrayId} (hs : r.inv s) (hv : r.holds s.memory (.array a)) (i : Int32) :
    r.holds s.memory (s.memory.element a i) := by
  unfold Memory.element
  split
  · exact r.holds_scalar trivial
  · split
    · exact r.holds_read hs (r.owns_slot hs hv (Array.mem_of_getElem? ‹_›))
    · exact r.holds_scalar trivial

theorem holds_entry {d : DictId} (hs : r.inv s) (hv : r.holds s.memory (.dict d)) (key : String) :
    r.holds s.memory (s.memory.entry d key) := by
  unfold Memory.entry
  split
  · exact r.holds_read hs (r.owns_entry hs hv ‹_›)
  · exact r.holds_scalar trivial

/-! ## Operations on values -/

theorem yields_newArray_str {α : Type} (hs : r.inv s) (f : α → String) (as : List α) :
    r.Yields s (onMemory (Memory.newArray (as.map fun a => .str (f a)))) := by
  refine r.newArray hs fun v hv => ?_
  obtain ⟨a, -, rfl⟩ := List.mem_map.mp hv
  exact r.holds_scalar trivial

end Regime

end Kiln
