import Kiln.Step

/-!
# Kiln.Proofs.Keeps — invariants of computations

`Keeps I m P`: started in a state with the invariant `I`, the computation `m` ends in a state with
`I` however it ends, and the value it ends with, if any, satisfies `P`.  One rule for every
operation.
-/

namespace Kiln.Step

variable {σ α β : Type} {I : σ → Prop} {P : α → Prop} {Q : β → Prop}

/-- `m` keeps the invariant `I` and yields values that satisfy `P` only. -/
def Keeps (I : σ → Prop) (m : Step σ α) (P : α → Prop) : Prop :=
  ∀ s, I s → I (m s).2 ∧ ∀ a, (m s).1 = .ok a → P a

theorem keeps_pure {a : α} (h : P a) : Keeps I (pure a : Step σ α) P := by
  intro s hs
  refine ⟨hs, fun b hb => ?_⟩
  injection hb with hb
  exact hb ▸ h

theorem Keeps.bind {m : Step σ α} {f : α → Step σ β} (hm : Keeps I m P)
    (hf : ∀ a, P a → Keeps I (f a) Q) : Keeps I (m >>= f) Q := by
  intro s hs
  obtain ⟨hinv, hval⟩ := hm s hs
  rw [bind_run]
  rcases h : m s with ⟨o, t⟩
  rw [h] at hinv hval
  cases o with
  | ok a => exact hf a (hval a rfl) t hinv
  | error e => exact ⟨hinv, fun b hb => by cases hb⟩
  | exhausted => exact ⟨hinv, fun b hb => by cases hb⟩

theorem keeps_stuck : Keeps I (stuck : Step σ α) P :=
  fun _ hs => ⟨hs, fun _ hb => by cases hb⟩

theorem keeps_look {f : σ → α} (h : ∀ s, I s → P (f s)) : Keeps I (look f) P := by
  intro s hs
  refine ⟨hs, fun b hb => ?_⟩
  injection hb with hb
  exact hb ▸ h s hs

theorem keeps_change {f : σ → σ} (h : ∀ s, I s → I (f s)) :
    Keeps I (change f) fun _ => True :=
  fun s hs => ⟨h s hs, fun _ _ => trivial⟩

end Kiln.Step
