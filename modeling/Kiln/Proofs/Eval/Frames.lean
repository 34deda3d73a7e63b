import Kiln.Proofs.Eval.Evaluator

/-!
# Kiln.Proofs.Eval.Frames — evaluation keeps the frame

Evaluating an expression ends in the frame it started in, with whatever was pending there; executing
a statement changes nothing of the frame but what is pending.
-/

namespace Kiln

open Kiln.Action

/-- The same call, or the same top level of a module. -/
structure Frame.Same (a b : Frame) : Prop where
  module : b.module = a.module
  target : b.target = a.target
  scope : b.scope = a.scope

namespace Frame.Same

variable {a b c : Frame}

theorem refl (a : Frame) : Same a a := ⟨rfl, rfl, rfl⟩

theorem of_eq (h : b = a) : Same a b := h ▸ refl a

theorem trans (hab : Same a b) (hbc : Same b c) : Same a c :=
  ⟨hbc.module.trans hab.module, hbc.target.trans hab.target, hbc.scope.trans hab.scope⟩

end Frame.Same

/-- The regime that looks at frames only. -/
def frames : Regime where
  inv _ := True
  evaluated s t := t.frame = s.frame
  executed s t := s.frame.Same t.frame
  holds _ _ := True
  owns _ _ := True
  evaluated_refl _ := rfl
  evaluated_trans hst htu := htu.trans hst
  executed_trans hst htu := hst.trans htu
  executed_of_evaluated h := .of_eq h
  holds_mono _ _ := trivial
  owns_mono _ _ := trivial
  holds_scalar _ := trivial
  holds_result _ := trivial
  holds_var _ _ := trivial
  holds_read _ _ := trivial
  owns_slot _ _ _ := trivial
  owns_entry _ _ _ := trivial
  newArray _ _ := ⟨trivial, rfl, fun _ _ => trivial⟩
  newDict _ _ := ⟨trivial, rfl, fun _ _ => trivial⟩
  varCell _ _ := ⟨trivial, rfl, fun _ _ => trivial⟩
  slotCell _ _ _ := ⟨trivial, rfl, fun _ _ => trivial⟩
  entryCell _ _ _ := ⟨trivial, rfl, fun _ _ => trivial⟩
  write _ _ _ := ⟨trivial, rfl, fun _ _ => trivial⟩
  setVar _ _ _ := ⟨trivial, rfl, fun _ _ => trivial⟩
  aside _ h := ⟨trivial, h.frame⟩
  signals _ _ := ⟨trivial, ⟨rfl, rfl, rfl⟩⟩
  entered _ _ _ := trivial
  opened _ _ := trivial
  left _ _ _ _ := ⟨trivial, rfl⟩
  closed _ _ _ := ⟨trivial, rfl⟩

theorem frame_eval (n : Nat) (e : Expr) (s : Machine) : (eval n e s).2.frame = s.frame :=
  ((frames.kept n).eval e trivial).rel

theorem frame_exec (n : Nat) (stmt : Stmt) (s : Machine) :
    s.frame.Same (exec n stmt s).2.frame :=
  ((frames.kept n).exec stmt trivial).rel

end Kiln
