import Kiln.Error

/-!
# Kiln.Step — computations that keep their state when they fail

`Step σ α` reads and writes a state `σ` and ends with a value, with an error, or because a bound on
its depth ran out.  The state is there in all three cases: what was done before an error stays done.
`exhausted` is kept apart from the errors so that "the bound was too small" is never mistaken for an
answer of the program.
-/

namespace Kiln

/-- How a computation ends. -/
inductive Outcome (α : Type) where
  | ok (value : α)
  | error (cause : Error)
  /-- The bound on depth was too small to tell. -/
  | exhausted
  deriving DecidableEq, Repr

namespace Outcome

/-- Goes on with the value of an outcome that has one. -/
def andThen {α β : Type} (o : Outcome α) (f : α → Outcome β) : Outcome β :=
  match o with
  | ok a => f a
  | error e => error e
  | exhausted => exhausted

instance : Monad Outcome where
  pure := ok
  bind := andThen

theorem bind_eq_ok {α β : Type} {o : Outcome α} {f : α → Outcome β} {b : β} :
    (o >>= f) = ok b ↔ ∃ a, o = ok a ∧ f a = ok b := by
  cases o <;> simp [bind, andThen]

@[simp] theorem pure_eq_ok {α : Type} {a b : α} : (pure a : Outcome α) = ok b ↔ a = b := by
  simp [pure]

end Outcome

/-- A computation over a state of type `σ`, which outlives errors. -/
def Step (σ α : Type) : Type := σ → Outcome α × σ

namespace Step

variable {σ τ α β : Type}

/-- Ends with `a` and leaves the state alone. -/
@[inline] def value (a : α) : Step σ α := fun s => (.ok a, s)

/-- Runs `m`, then `f` on its value. -/
@[inline] def andThen (m : Step σ α) (f : α → Step σ β) : Step σ β := fun s =>
  match m s with
  | (.ok a, s') => f a s'
  | (.error e, s') => (.error e, s')
  | (.exhausted, s') => (.exhausted, s')

instance : Monad (Step σ) where
  pure := value
  bind := andThen

/-- Ends with an error. -/
@[inline] def fail (e : Error) : Step σ α := fun s => (.error e, s)

/-- Ends with a fault of the running script. -/
@[inline] def fault (f : Fault) : Step σ α := fail (.fault f)

/-- Ends because the bound on depth ran out. -/
@[inline] def stuck : Step σ α := fun s => (.exhausted, s)

/-- The state. -/
@[inline] def state : Step σ σ := fun s => (.ok s, s)

/-- A part of the state. -/
@[inline] def look (f : σ → α) : Step σ α := fun s => (.ok (f s), s)

/-- Changes the state. -/
@[inline] def change (f : σ → σ) : Step σ Unit := fun s => (.ok (), f s)

/-- Ends as the given outcome. -/
@[inline] def ofOutcome (o : Outcome α) : Step σ α := fun s => (o, s)

/-- Ends with the value, or with the input or output error. -/
def ofIo : Except IoError α → Step σ α
  | .ok a => value a
  | .error e => fail (.io e)

/-- Runs `m` and rewords its error. -/
@[inline] def mapError (f : Error → Error) (m : Step σ α) : Step σ α := fun s =>
  match m s with
  | (.error e, s') => (.error (f e), s')
  | r => r

/-- Runs `m` and then puts a part of the state back as it was before, however `m` ended. -/
@[inline] def restoring (save : σ → τ) (restore : τ → σ → σ) (m : Step σ α) : Step σ α := fun s =>
  let saved := save s
  match m s with
  | (o, s') => (o, restore saved s')

/-- Runs a computation on a part of the state. -/
@[inline] def on (get : σ → τ) (set : τ → σ → σ) (m : Step τ α) : Step σ α := fun s =>
  match m (get s) with
  | (o, t) => (o, set t s)

/-! ### Lists of computations, of any kind -/

section Lists

variable {C : Type → Type} [Monad C]

/-- Runs `f` on every item from the left and collects the values. -/
@[specialize] def each (f : α → C β) : List α → C (List β)
  | [] => return []
  | a :: rest => do
    let b ← f a
    let bs ← each f rest
    return b :: bs

/-- Runs `f` on every item from the left. -/
@[specialize] def forAll (f : α → C Unit) : List α → C Unit
  | [] => return ()
  | a :: rest => do
    f a
    forAll f rest

/-- Runs `f` on the items from the left until it says to stop. -/
@[specialize] def eachUntil (f : α → C Bool) : List α → C Unit
  | [] => return ()
  | a :: rest => do
    let stop ← f a
    if stop then return () else eachUntil f rest

end Lists

/-! ### Equations -/

@[simp] theorem pure_run (a : α) (s : σ) : (pure a : Step σ α) s = (.ok a, s) := rfl

theorem bind_run (m : Step σ α) (f : α → Step σ β) (s : σ) :
    (m >>= f) s = match m s with
      | (.ok a, s') => f a s'
      | (.error e, s') => (.error e, s')
      | (.exhausted, s') => (.exhausted, s') := rfl

theorem bind_run_ok {m : Step σ α} {s s' : σ} {a : α} (h : m s = (.ok a, s'))
    (f : α → Step σ β) : (m >>= f) s = f a s' := by
  rw [bind_run, h]

theorem bind_run_error {m : Step σ α} {s s' : σ} {e : Error} (h : m s = (.error e, s'))
    (f : α → Step σ β) : (m >>= f) s = (.error e, s') := by
  rw [bind_run, h]

theorem bind_run_of_not_ok {m : Step σ α} {s s' : σ} {o : Outcome α} (h : m s = (o, s'))
    (ho : ∀ a, o ≠ .ok a) (f : α → Step σ β) :
    ∃ o' : Outcome β, (∀ b, o' ≠ .ok b) ∧ (m >>= f) s = (o', s') := by
  rw [bind_run, h]
  cases o with
  | ok a => exact absurd rfl (ho a)
  | error e => exact ⟨.error e, by simp, rfl⟩
  | exhausted => exact ⟨.exhausted, by simp, rfl⟩

theorem bind_eq_ok {m : Step σ α} {f : α → Step σ β} {s s' : σ} {b : β} :
    (m >>= f) s = (.ok b, s') ↔ ∃ a t, m s = (.ok a, t) ∧ f a t = (.ok b, s') := by
  rw [bind_run]
  constructor
  · intro h
    split at h
    · exact ⟨_, _, by assumption, h⟩
    · simp at h
    · simp at h
  · rintro ⟨a, t, hm, hf⟩
    rw [hm]
    exact hf

theorem eq_of_fst {x : Outcome α × σ} {o : Outcome α} (h : x.1 = o) : x = (o, x.2) :=
  Prod.ext h rfl

theorem bind_state (f : σ → Step σ α) (s : σ) : (state >>= f) s = f s s := rfl

theorem ofIo_eq_ok {r : Except IoError α} {s s' : σ} {a : α} :
    ofIo r s = (.ok a, s') ↔ r = .ok a ∧ s' = s := by
  cases r with
  | error e => simp [ofIo, fail]
  | ok b => simp [ofIo, value, eq_comm]

theorem mapError_eq_ok {f : Error → Error} {m : Step σ α} {s s' : σ} {a : α} :
    mapError f m s = (.ok a, s') ↔ m s = (.ok a, s') := by
  unfold mapError
  split
  · rename_i e t hm
    simp [hm]
  · exact Iff.rfl

theorem each_cons_eq_ok {f : α → Step σ β} {a : α} {as : List α} {s s' : σ} {bs : List β} :
    each f (a :: as) s = (.ok bs, s') ↔
      ∃ b t bs', f a s = (.ok b, t) ∧ each f as t = (.ok bs', s') ∧ bs = b :: bs' := by
  show (f a >>= fun b => each f as >>= fun bs => pure (b :: bs)) s = _ ↔ _
  rw [bind_eq_ok]
  constructor
  · rintro ⟨b, t, ha, hrest⟩
    obtain ⟨bs', t', has, hpure⟩ := bind_eq_ok.mp hrest
    cases hpure
    exact ⟨b, t, bs', ha, has, rfl⟩
  · rintro ⟨b, t, bs', ha, has, rfl⟩
    exact ⟨b, t, ha, bind_eq_ok.mpr ⟨bs', s', has, rfl⟩⟩

theorem each_append_eq_ok {f : α → Step σ β} {as cs : List α} {s s' : σ} {bs : List β} :
    each f (as ++ cs) s = (.ok bs, s') ↔
      ∃ bs₁ t bs₂, each f as s = (.ok bs₁, t) ∧ each f cs t = (.ok bs₂, s') ∧
        bs = bs₁ ++ bs₂ := by
  induction as generalizing s bs with
  | nil =>
    constructor
    · exact fun h => ⟨[], s, bs, rfl, h, rfl⟩
    · rintro ⟨bs₁, t, bs₂, has, hcs, rfl⟩
      cases has
      exact hcs
  | cons a as ih =>
    rw [List.cons_append, each_cons_eq_ok]
    constructor
    · rintro ⟨b, t, bs', ha, hrest, rfl⟩
      obtain ⟨bs₁, t', bs₂, has, hcs, rfl⟩ := ih.mp hrest
      exact ⟨b :: bs₁, t', bs₂, each_cons_eq_ok.mpr ⟨b, t, bs₁, ha, has, rfl⟩, hcs, rfl⟩
    · rintro ⟨bs₁, t', bs₂, has, hcs, rfl⟩
      obtain ⟨b, t, bs', ha, hrest, rfl⟩ := each_cons_eq_ok.mp has
      exact ⟨b, t, bs' ++ bs₂, ha, ih.mpr ⟨bs', t', bs₂, hrest, hcs, rfl⟩, rfl⟩

/-- Only the first item meets the state a run starts from. -/
theorem each_of_start {f : α → Step σ β} {s t : σ} (h : ∀ a, f a s = f a t) {as : List α}
    (hne : as ≠ []) : each f as s = each f as t := by
  cases as with
  | nil => exact absurd rfl hne
  | cons a as =>
    show (f a >>= _) s = (f a >>= _) t
    rw [bind_run, bind_run, h a]

theorem length_of_each {f : α → Step σ β} {as : List α} {s s' : σ} {bs : List β}
    (h : each f as s = (.ok bs, s')) : bs.length = as.length := by
  induction as generalizing s bs with
  | nil =>
    cases h
    rfl
  | cons a as ih =>
    obtain ⟨b, t, bs', -, hrest, rfl⟩ := each_cons_eq_ok.mp h
    simp [ih hrest]

end Step

end Kiln
