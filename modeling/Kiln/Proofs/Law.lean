import Kiln.Step

/-!
# Kiln.Proofs.Law — what a computation may do to the state

A `Law` is an invariant of states and a relation between the state a computation starts from and the
one it ends in.  `Obeys law s m P`: started in `s`, the computation `m` ends in a state with the
invariant that is related to `s`, however it ends, and `P` holds of the value it ends with, if any,
in that state.  It is stated for one start, so what is known of the start can be used along the way;
one rule for every operation.

A computation that is `Idle` leaves the state as it is and obeys every law.
-/

namespace Kiln.Step

variable {σ τ α β : Type}

instance : LawfulMonad (Step σ) := by
  refine .mk' (Step σ) (fun m => ?_) (fun a f => rfl) (fun m f g => ?_)
  · funext s
    show (m >>= fun a => pure a) s = m s
    rw [bind_run]
    rcases m s with ⟨o, t⟩
    cases o <;> rfl
  · funext s
    simp only [bind_run]
    rcases m s with ⟨o, t⟩
    cases o <;> rfl

/-- An invariant of states, and what may become of a state. -/
structure Law (σ : Type) where
  inv : σ → Prop
  rel : σ → σ → Prop
  refl : ∀ s, rel s s
  trans : ∀ {s t u}, rel s t → rel t u → rel s u

/-- Started in `s`, the computation obeys the law and yields values that satisfy `P` only. -/
structure Obeys (law : Law σ) (s : σ) (m : Step σ α) (P : α → σ → Prop) : Prop where
  inv : law.inv (m s).2
  rel : law.rel s (m s).2
  value : ∀ a, (m s).1 = .ok a → P a (m s).2

namespace Obeys

variable {law : Law σ} {s : σ} {m : Step σ α} {P P' : α → σ → Prop} {Q : β → σ → Prop}

theorem mono (h : Obeys law s m P) (hP : ∀ a t, law.inv t → law.rel s t → P a t → P' a t) :
    Obeys law s m P' :=
  ⟨h.inv, h.rel, fun a ha => hP a _ h.inv h.rel (h.value a ha)⟩

/-- A law that says less is obeyed too. -/
theorem weaken {law' : Law σ} (h : Obeys law s m P)
    (hlaw : ∀ t, law.inv t → law.rel s t → law'.inv t ∧ law'.rel s t) : Obeys law' s m P :=
  ⟨(hlaw _ h.inv h.rel).1, (hlaw _ h.inv h.rel).2, h.value⟩

/-- Only the run from the one state counts. -/
theorem of_run_eq {m' : Step σ α} {s' : σ} (h : Obeys law s' m' P) (hrel : law.rel s s')
    (hrun : m s = m' s') : Obeys law s m P := by
  constructor
  · rw [hrun]
    exact h.inv
  · rw [hrun]
    exact law.trans hrel h.rel
  · intro a ha
    rw [hrun] at ha ⊢
    exact h.value a ha

/-- A run whose end is known. -/
theorem of_run {a : α} {t : σ} (hrun : m s = (.ok a, t)) (hinv : law.inv t) (hrel : law.rel s t)
    (ha : P a t) : Obeys law s m P := by
  refine ⟨?_, ?_, fun b hb => ?_⟩
  · rwa [hrun]
  · rwa [hrun]
  · rw [hrun] at hb ⊢
    cases hb
    exact ha

/-- The value of a run. -/
theorem of_eq_ok (h : Obeys law s m P) {a : α} {t : σ} (ht : m s = (.ok a, t)) : P a t := by
  have hval := h.value a (by rw [ht])
  rwa [ht] at hval

theorem pure {a : α} (hs : law.inv s) (h : P a s) : Obeys law s (pure a : Step σ α) P := by
  refine ⟨hs, law.refl s, fun b hb => ?_⟩
  injection hb with hb
  exact hb ▸ h

theorem bind {f : α → Step σ β} (hm : Obeys law s m P)
    (hf : ∀ a t, law.inv t → law.rel s t → P a t → Obeys law t (f a) Q) :
    Obeys law s (m >>= f) Q := by
  obtain ⟨hinv, hrel, hval⟩ := hm
  rcases h : m s with ⟨o, t⟩
  rw [h] at hinv hrel hval
  cases o with
  | ok a =>
    have hnext := hf a t hinv hrel (hval a rfl)
    have hrun : (m >>= f) s = f a t := bind_run_ok h f
    exact ⟨hrun ▸ hnext.inv, hrun ▸ law.trans hrel hnext.rel, hrun ▸ hnext.value⟩
  | error e =>
    have hrun : (m >>= f) s = (.error e, t) := bind_run_error h f
    exact ⟨hrun ▸ hinv, hrun ▸ hrel, fun b hb => by simp [hrun] at hb⟩
  | exhausted =>
    have hrun : (m >>= f) s = (.exhausted, t) := by rw [bind_run, h]
    exact ⟨hrun ▸ hinv, hrun ▸ hrel, fun b hb => by simp [hrun] at hb⟩

theorem of_fail {o : Outcome α} (hs : law.inv s) (h : m s = (o, s)) (ho : ∀ a, o ≠ .ok a) :
    Obeys law s m P := by
  constructor
  · rw [h]
    exact hs
  · rw [h]
    exact law.refl s
  · intro a ha
    rw [h] at ha
    exact absurd ha (ho a)

theorem stuck (hs : law.inv s) : Obeys law s (stuck : Step σ α) P :=
  of_fail hs rfl (by simp)

theorem fault {f : Fault} (hs : law.inv s) : Obeys law s (fault f : Step σ α) P :=
  of_fail hs rfl (by simp)

theorem change {f : σ → σ} (hinv : law.inv (f s)) (hrel : law.rel s (f s)) :
    Obeys law s (change f) fun _ _ => True :=
  ⟨hinv, hrel, fun _ _ => trivial⟩

theorem mapError {f : Error → Error} (h : Obeys law s m P) : Obeys law s (mapError f m) P := by
  obtain ⟨hinv, hrel, hval⟩ := h
  rcases hm : m s with ⟨o, t⟩
  rw [hm] at hinv hrel hval
  have hrun : (Step.mapError f m s).2 = t ∧ ∀ a, (Step.mapError f m s).1 = .ok a → o = .ok a := by
    unfold Step.mapError
    rw [hm]
    cases o <;> simp
  refine ⟨hrun.1 ▸ hinv, hrun.1 ▸ hrel, fun a ha => ?_⟩
  rw [hrun.1]
  exact hval a (hrun.2 a ha)

/-- What is put back at the end brings the state under another law. -/
theorem restoring {law' : Law σ} {save : σ → τ} {restore : τ → σ → σ} (h : Obeys law s m P)
    (hlaw : ∀ t, law.inv t → law.rel s t →
      law'.inv (restore (save s) t) ∧ law'.rel s (restore (save s) t))
    (hP : ∀ a t, law.inv t → law.rel s t → P a t → P' a (restore (save s) t)) :
    Obeys law' s (restoring save restore m) P' :=
  ⟨(hlaw _ h.inv h.rel).1, (hlaw _ h.inv h.rel).2,
    fun a ha => hP a _ h.inv h.rel (h.value a ha)⟩

/-- Every item obeys the law wherever it starts, and what holds of a value goes on holding. -/
theorem each {f : α → Step σ β} {as : List α} {s : σ} (hs : law.inv s)
    (hQ : ∀ b t u, law.rel t u → Q b t → Q b u)
    (hf : ∀ a ∈ as, ∀ t, law.inv t → law.rel s t → Obeys law t (f a) Q) :
    Obeys law s (each f as) fun bs t => ∀ b ∈ bs, Q b t := by
  induction as generalizing s with
  | nil => exact pure hs (by simp)
  | cons a as ih =>
    refine bind (hf a (by simp) s hs (law.refl s)) fun b t ht hst hb => ?_
    have hrest : ∀ a ∈ as, ∀ u, law.inv u → law.rel t u → Obeys law u (f a) Q :=
      fun a ha u hu htu => hf a (by simp [ha]) u hu (law.trans hst htu)
    refine bind (ih ht hrest) fun bs u hu htu hbs => pure hu fun c hc => ?_
    rcases List.mem_cons.mp hc with rfl | hc
    · exact hQ c t u htu hb
    · exact hbs c hc

theorem forAll {f : α → Step σ Unit} {as : List α} {s : σ} (hs : law.inv s)
    (hf : ∀ a ∈ as, ∀ t, law.inv t → law.rel s t → Obeys law t (f a) fun _ _ => True) :
    Obeys law s (forAll f as) fun _ _ => True := by
  induction as generalizing s with
  | nil => exact pure hs trivial
  | cons a as ih =>
    refine bind (hf a (by simp) s hs (law.refl s)) fun _ t ht hst _ => ih ht ?_
    exact fun a ha u hu htu => hf a (by simp [ha]) u hu (law.trans hst htu)

theorem eachUntil {f : α → Step σ Bool} {as : List α} {s : σ} (hs : law.inv s)
    (hf : ∀ a ∈ as, ∀ t, law.inv t → law.rel s t → Obeys law t (f a) fun _ _ => True) :
    Obeys law s (eachUntil f as) fun _ _ => True := by
  induction as generalizing s with
  | nil => exact pure hs trivial
  | cons a as ih =>
    refine bind (hf a (by simp) s hs (law.refl s)) fun stop t ht hst _ => ?_
    split
    · exact pure ht trivial
    · exact ih ht fun a ha u hu htu => hf a (by simp [ha]) u hu (law.trans hst htu)

end Obeys

/-! ## Values alone -/

/-- The law that forbids nothing. -/
def Law.free : Law σ where
  inv _ := True
  rel _ _ := True
  refl _ := trivial
  trans _ _ := trivial

/-- Whenever the computation ends well from `s`, `P` holds of its value and its end state. -/
abbrev Returns (s : σ) (m : Step σ α) (P : α → σ → Prop) : Prop := Obeys Law.free s m P

namespace Returns

variable {s : σ} {m : Step σ α} {P P' : α → σ → Prop} {Q : β → σ → Prop}

theorem bind {f : α → Step σ β} (hm : Returns s m P)
    (hf : ∀ a t, P a t → Returns t (f a) Q) : Returns s (m >>= f) Q :=
  Obeys.bind hm fun a t _ _ ha => hf a t ha

theorem mono (hm : Returns s m P) (hP : ∀ a t, P a t → P' a t) : Returns s m P' :=
  Obeys.mono hm fun a t _ _ ha => hP a t ha

end Returns

/-- What is known of the end of a run under a law is known when it ends well. -/
theorem Obeys.returns {law : Law σ} {s : σ} {m : Step σ α} {P : α → σ → Prop}
    (h : Obeys law s m P) : Returns s m fun a t => law.rel s t ∧ P a t :=
  ⟨trivial, trivial, fun a ha => ⟨h.rel, h.value a ha⟩⟩

/-! ## Reworded errors -/

theorem mapError_congr {f : Error → Error} {m m' : Step σ α} {s s' : σ}
    (h : m s = m' s') : mapError f m s = mapError f m' s' := by
  unfold mapError
  rw [h]

theorem mapError_eq_error {f : Error → Error} {m : Step σ α} {s t : σ} {cause : Error} :
    mapError f m s = (.error cause, t) ↔ ∃ c, m s = (.error c, t) ∧ cause = f c := by
  unfold mapError
  rcases m s with ⟨o, u⟩
  cases o <;> simp [eq_comm, and_comm]

theorem mapError_snd (f : Error → Error) (m : Step σ α) (s : σ) :
    (mapError f m s).2 = (m s).2 := by
  unfold mapError
  rcases m s with ⟨o, u⟩
  cases o <;> rfl

/-! ## Computations that only look -/

theorem look_bind_run (f : σ → α) (g : α → Step σ β) (s : σ) : (look f >>= g) s = g (f s) s := rfl

/-- The computation leaves the state as it is, however it ends. -/
def Idle (m : Step σ α) : Prop := ∀ s, (m s).2 = s

namespace Idle

theorem pure (a : α) : Idle (pure a : Step σ α) := fun _ => rfl

theorem look (f : σ → α) : Idle (look f) := fun _ => rfl

theorem fault (f : Fault) : Idle (fault f : Step σ α) := fun _ => rfl

theorem ofOutcome (o : Outcome α) : Idle (ofOutcome o : Step σ α) := fun _ => rfl

theorem bind {m : Step σ α} {f : α → Step σ β} (hm : Idle m) (hf : ∀ a, Idle (f a)) :
    Idle (m >>= f) := by
  intro s
  have hs := hm s
  rw [bind_run]
  rcases h : m s with ⟨o, t⟩
  rw [h] at hs
  cases o with
  | ok a => exact (hf a t).trans hs
  | error e => exact hs
  | exhausted => exact hs

theorem each {f : α → Step σ β} (hf : ∀ a, Idle (f a)) : ∀ as, Idle (each f as)
  | [] => pure []
  | a :: as => (hf a).bind fun b => (each hf as).bind fun bs => pure (b :: bs)

theorem on {get : σ → τ} {set : τ → σ → σ} {m : Step τ α} (hm : Idle m)
    (hset : ∀ s, set (get s) s = s) : Idle (on get set m) := by
  intro s
  have ht := hm (get s)
  show set (m (get s)).2 s = s
  rw [ht, hset]

theorem eq_of_run {m : Step σ α} (hm : Idle m) {s t : σ} {o : Outcome α} (h : m s = (o, t)) :
    t = s := by
  have hs := hm s
  rwa [h] at hs

/-- It obeys every law, and its value is taken in the state it started from. -/
theorem obeys {law : Law σ} {m : Step σ α} {s : σ} {P : α → σ → Prop} (hm : Idle m)
    (hs : law.inv s) (hP : ∀ a, m s = (.ok a, s) → P a s) : Obeys law s m P := by
  have ht := hm s
  constructor
  · rwa [ht]
  · rw [ht]
    exact law.refl s
  · intro a ha
    rw [ht]
    exact hP a (Prod.ext ha ht)

/-- What follows it starts from the same state. -/
theorem obeys_bind {law : Law σ} {m : Step σ α} {f : α → Step σ β} {s : σ} {Q : β → σ → Prop}
    (hm : Idle m) (hs : law.inv s) (hf : ∀ a, m s = (.ok a, s) → Obeys law s (f a) Q) :
    Obeys law s (m >>= f) Q := by
  refine (hm.obeys (P := fun a t => t = s ∧ m s = (.ok a, s)) hs fun a ha => ⟨rfl, ha⟩).bind ?_
  rintro a t - - ⟨rfl, ha⟩
  exact hf a ha

end Idle

end Kiln.Step
