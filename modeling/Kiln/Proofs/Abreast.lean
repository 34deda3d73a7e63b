import Mathlib.Data.List.Forall2
import Kiln.Proofs.Law

/-!
# Kiln.Proofs.Abreast — two runs side by side

`Abreast law s s' m m' R`: the run of `m` from `s` and that of `m'` from `s'` keep to the law, and
they end in the same way, with values that are related by `R` in the states they end in or with the
same error.  There is one rule for every way of putting computations together; what is related has to
stay so under the law where it is kept for later.
-/

namespace Kiln.Step

variable {σ α β : Type} {law : Law σ} {s s' t t' u : σ}

/-- Under the law the one state may become the other. -/
structure Law.Leads (law : Law σ) (s t : σ) : Prop where
  start : law.inv s
  finish : law.inv t
  rel : law.rel s t

namespace Law.Leads

theorem refl (hs : law.inv s) : law.Leads s s := ⟨hs, hs, law.refl s⟩

theorem trans (h : law.Leads s t) (h' : law.Leads t u) : law.Leads s u :=
  ⟨h.start, h'.finish, law.trans h.rel h'.rel⟩

end Law.Leads

/-- The runs end in the same way: with related values, or with the same error. -/
inductive SameEnd (R : α → σ → α → σ → Prop) : Outcome α × σ → Outcome α × σ → Prop
  | ok {a a' : α} {t t' : σ} : R a t a' t' → SameEnd R (.ok a, t) (.ok a', t')
  | error {e : Error} {t t' : σ} : SameEnd R (.error e, t) (.error e, t')
  | exhausted {t t' : σ} : SameEnd R (.exhausted, t) (.exhausted, t')

/-- Both runs keep to the law, and they end in the same way. -/
structure Abreast (law : Law σ) (s s' : σ) (m m' : Step σ α) (R : α → σ → α → σ → Prop) : Prop where
  left : law.Leads s (m s).2
  right : law.Leads s' (m' s').2
  ends : SameEnd R (m s) (m' s')

namespace Abreast

variable {m m' : Step σ α} {R R' : α → σ → α → σ → Prop} {Q : β → σ → β → σ → Prop}

theorem of_run {a a' : α} (hrun : m s = (.ok a, t)) (hrun' : m' s' = (.ok a', t'))
    (hst : law.Leads s t) (hst' : law.Leads s' t') (h : R a t a' t') : Abreast law s s' m m' R := by
  refine ⟨?_, ?_, ?_⟩
  · rwa [hrun]
  · rwa [hrun']
  · rw [hrun, hrun']
    exact .ok h

theorem pure {a a' : α} (hs : law.inv s) (hs' : law.inv s') (h : R a s a' s') :
    Abreast law s s' (pure a) (pure a') R :=
  of_run rfl rfl (.refl hs) (.refl hs') h

theorem look {f f' : σ → α} (hs : law.inv s) (hs' : law.inv s') (h : R (f s) s (f' s') s') :
    Abreast law s s' (look f) (look f') R :=
  of_run rfl rfl (.refl hs) (.refl hs') h

theorem fault {f : Fault} (hs : law.inv s) (hs' : law.inv s') :
    Abreast law s s' (fault f) (fault f) R :=
  ⟨.refl hs, .refl hs', .error⟩

theorem stuck (hs : law.inv s) (hs' : law.inv s') : Abreast law s s' stuck stuck R :=
  ⟨.refl hs, .refl hs', .exhausted⟩

theorem bind {f f' : α → Step σ β} (h : Abreast law s s' m m' R)
    (hf : ∀ a a' t t', law.Leads s t → law.Leads s' t' → R a t a' t' →
      Abreast law t t' (f a) (f' a') Q) :
    Abreast law s s' (m >>= f) (m' >>= f') Q := by
  obtain ⟨hleft, hright, hends⟩ := h
  rcases hm : m s with ⟨o, t⟩
  rcases hm' : m' s' with ⟨o', t'⟩
  rw [hm] at hleft hends
  rw [hm'] at hright hends
  cases hends with
  | ok ha =>
    obtain ⟨hleft', hright', hends'⟩ := hf _ _ t t' hleft hright ha
    rw [← bind_run_ok hm f] at hleft' hends'
    rw [← bind_run_ok hm' f'] at hright' hends'
    exact ⟨hleft.trans hleft', hright.trans hright', hends'⟩
  | error =>
    refine ⟨?_, ?_, ?_⟩
    · rwa [bind_run_error hm]
    · rwa [bind_run_error hm']
    · rw [bind_run_error hm, bind_run_error hm']
      exact .error
  | exhausted =>
    have hrun : (m >>= f) s = (.exhausted, t) := by rw [bind_run, hm]
    have hrun' : (m' >>= f') s' = (.exhausted, t') := by rw [bind_run, hm']
    refine ⟨?_, ?_, ?_⟩
    · rwa [hrun]
    · rwa [hrun']
    · rw [hrun, hrun']
      exact .exhausted

/-- What is related stays so while the rest of the list is run. -/
theorem each {f : α → Step σ β} {as : List α} (hs : law.inv s) (hs' : law.inv s')
    (hQ : ∀ {b b' t t' u u'}, law.Leads t u → law.Leads t' u' → Q b t b' t' → Q b u b' u')
    (hf : ∀ a ∈ as, ∀ t t', law.Leads s t → law.Leads s' t' → Abreast law t t' (f a) (f a) Q) :
    Abreast law s s' (each f as) (each f as)
      fun bs t bs' t' => List.Forall₂ (fun b b' => Q b t b' t') bs bs' := by
  induction as generalizing s s' with
  | nil => exact pure hs hs' .nil
  | cons a as ih =>
    refine bind (hf a (by simp) s s' (.refl hs) (.refl hs')) fun b b' t t' hst hst' hb => ?_
    have hrest : ∀ a ∈ as, ∀ u u', law.Leads t u → law.Leads t' u' → Abreast law u u' (f a) (f a) Q :=
      fun a ha u u' htu htu' => hf a (by simp [ha]) u u' (hst.trans htu) (hst'.trans htu')
    refine bind (ih hst.finish hst'.finish hrest) fun bs bs' u u' htu htu' hbs => ?_
    exact pure htu.finish htu'.finish (.cons (hQ htu htu' hb) hbs)

end Abreast

end Kiln.Step
