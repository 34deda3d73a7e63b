import Kiln.Proofs.Law
import Kiln.Store

/-!
# Kiln.Proofs.Bare — errors without a location

A bare error does not say which statement raised it.  Nothing below the evaluator knows of
statements, so every operation on files and on the digest store is `Bare`: it raises bare errors
only.  There is one rule for every way to put computations together.
-/

namespace Kiln

/-- The error does not say which statement raised it. -/
def Error.Bare : Error → Prop
  | located _ _ => False
  | _ => True

namespace Error

variable {e : Error} {location : Location}

theorem Bare.root (h : e.Bare) : e.root = e := by
  cases e with
  | located _ _ => exact h.elim
  | _ => rfl

/-- A location is added where there is none yet. -/
theorem Bare.locate (h : e.Bare) : e.locate location = .located location e := by
  cases e with
  | located _ _ => exact h.elim
  | _ => rfl

theorem not_bare_locate (e : Error) (location : Location) : ¬ (e.locate location).Bare := by
  cases e <;> exact id

end Error

namespace Outcome

variable {α β : Type}

/-- The error of the outcome, if it is one, is bare. -/
def Bare (o : Outcome α) : Prop := ∀ e, o = .error e → e.Bare

theorem Bare.ok (a : α) : Bare (ok a) := fun _ he => by cases he

theorem Bare.exhausted : Bare (exhausted : Outcome α) := fun _ he => by cases he

theorem Bare.error {e : Error} (h : e.Bare) : Bare (error e : Outcome α) := fun _ he => by
  cases he
  exact h

theorem Bare.bind {o : Outcome α} {f : α → Outcome β} (ho : Bare o) (hf : ∀ a, Bare (f a)) :
    Bare (o >>= f) := by
  cases o with
  | ok a => exact hf a
  | error e => exact .error (ho e rfl)
  | exhausted => exact .exhausted

end Outcome

namespace Step

variable {σ τ α β : Type}

/-- Every error of the computation is bare. -/
def Bare (m : Step σ α) : Prop := ∀ s, (m s).1.Bare

namespace Bare

variable {m : Step σ α}

theorem of_ok (h : ∀ s, ∃ a, (m s).1 = .ok a) : Bare m := by
  intro s e he
  obtain ⟨a, ha⟩ := h s
  rw [ha] at he
  cases he

theorem pure (a : α) : Bare (pure a : Step σ α) := of_ok fun _ => ⟨a, rfl⟩

theorem look (f : σ → α) : Bare (look f) := of_ok fun s => ⟨f s, rfl⟩

theorem state : Bare (state : Step σ σ) := of_ok fun s => ⟨s, rfl⟩

theorem change (f : σ → σ) : Bare (change f) := of_ok fun _ => ⟨(), rfl⟩

theorem stuck : Bare (stuck : Step σ α) := fun _ => .exhausted

theorem fail {e : Error} (h : e.Bare) : Bare (fail e : Step σ α) := fun _ => .error h

theorem fault (f : Fault) : Bare (fault f : Step σ α) := fail trivial

theorem ofOutcome {o : Outcome α} (h : o.Bare) : Bare (ofOutcome o : Step σ α) := fun _ => h

theorem ofIo (r : Except IoError α) : Bare (ofIo r : Step σ α) := by
  cases r with
  | ok a => exact pure a
  | error e => exact fail trivial

theorem bind {f : α → Step σ β} (hm : Bare m) (hf : ∀ a, Bare (f a)) : Bare (m >>= f) := by
  intro s e he
  rw [bind_run] at he
  rcases h : m s with ⟨o, t⟩
  rw [h] at he
  cases o with
  | ok a => exact hf a t e he
  | error e' =>
    cases he
    exact hm s e (by rw [h])
  | exhausted => cases he

theorem mapError {f : Error → Error} (hm : Bare m) (hf : ∀ e, e.Bare → (f e).Bare) :
    Bare (mapError f m) := by
  intro s e he
  unfold Step.mapError at he
  rcases h : m s with ⟨o, t⟩
  rw [h] at he
  cases o with
  | error e' =>
    cases he
    exact hf e' (hm s e' (by rw [h]))
  | ok a => cases he
  | exhausted => cases he

theorem on {get : σ → τ} {set : τ → σ → σ} {m : Step τ α} (hm : Bare m) : Bare (on get set m) :=
  fun s => hm (get s)

theorem each {f : α → Step σ β} (hf : ∀ a, Bare (f a)) : ∀ as, Bare (each f as)
  | [] => pure []
  | a :: as => (hf a).bind fun _ => (each hf as).bind fun _ => pure _

theorem forAll {f : α → Step σ Unit} (hf : ∀ a, Bare (f a)) : ∀ as, Bare (forAll f as)
  | [] => pure ()
  | a :: as => (hf a).bind fun _ => forAll hf as

end Bare

end Step

open Step

/-! ## Files -/

namespace FileSystem

theorem bare_write (path : String) (data : ByteArray) : Bare (write path data) := by
  intro fs e he
  unfold write at he
  split at he <;> cases he <;> trivial

theorem bare_makeDirUnlessThere (path : String) : Bare (makeDirUnlessThere path) := by
  have hmake : Bare (makeDir path) := by
    intro fs e he
    unfold makeDir at he
    split at he <;> cases he <;> trivial
  intro fs e he
  have hbare := hmake fs
  unfold makeDirUnlessThere at he
  rcases h : makeDir path fs with ⟨o, fs'⟩
  rw [h] at he hbare
  cases o with
  | ok a => cases he
  | error e' =>
    simp only at he
    split at he
    · cases he
    · cases he
      exact hbare e rfl
  | exhausted => cases he

theorem bare_makeDirsWithin (depth : Nat) (path : String) : Bare (makeDirsWithin depth path) := by
  induction depth generalizing path with
  | zero =>
    unfold makeDirsWithin
    split
    · exact .pure ()
    · exact bare_makeDirUnlessThere path
  | succ depth ih =>
    intro fs e he
    have hbare := bare_makeDirUnlessThere path fs
    unfold makeDirsWithin at he
    split at he
    · cases he
    · split at he
      · split at he
        · exact ((ih _).bind fun _ => bare_makeDirUnlessThere path) _ e he
        · cases he
          trivial
      · exact hbare e he

theorem bare_makeDirs (path : String) : Bare (makeDirs path) := bare_makeDirsWithin _ path

theorem bare_delete (path : String) : Bare (delete path) := by
  intro fs e he
  unfold delete at he
  split at he
  · cases he
  · cases he; trivial
  · cases he
  · cases he
  · simp only at he
    split at he
    · cases he; trivial
    · split at he <;> cases he

theorem bare_replaceFile (dir path : String) (data : ByteArray) :
    Bare (replaceFile dir path data) := by
  intro fs e he
  unfold replaceFile at he
  split at he
  · cases he; trivial
  · simp only at he
    split at he
    · cases he; trivial
    · cases he; trivial
    · cases he; trivial
    · unfold moveOnto at he
      split at he
      · cases he; trivial
      · cases he; trivial
      · exact bare_write path data _ e he

theorem bare_copyBytes (source target : String) : Bare (copyBytes source target) := by
  refine Bare.state.bind fun old => (Bare.ofIo _).bind fun _ => ?_
  refine (bare_write _ _).bind fun _ => Bare.state.bind fun emptied => ?_
  exact (Bare.ofIo _).bind fun data => bare_write _ _

theorem bare_copyTree {failure : Error} (hfailure : failure.Bare) (depth : Nat)
    (source target : String) : Bare (copyTree failure depth source target) := by
  induction depth generalizing source target with
  | zero => exact .fail trivial
  | succ depth ih =>
    refine Bare.state.bind fun _ => (bare_makeDirs target).bind fun _ => ?_
    refine (Bare.ofIo _).bind fun entries => ?_
    refine (Bare.each (fun entry => ?_) entries).bind fun _ => .pure ()
    dsimp only
    split
    · exact ih _ _
    · exact (bare_copyBytes _ _).mapError fun _ _ => hfailure

theorem bare_copy (source target : String) : Bare (copy source target) := by
  refine Bare.state.bind fun fs => ?_
  dsimp only
  split
  · exact (bare_copyBytes _ _).mapError fun _ _ => trivial
  · split
    · exact .fail trivial
    · exact bare_copyTree (show (Error.io (.copyFile source target)).Bare from trivial) _ _ _

end FileSystem

/-! ## The digest store -/

namespace Store

open FileSystem

theorem bare_onDisk {α : Type} {m : Disk α} (h : Bare m) : Bare (onDisk m) := h.on

theorem bare_makeHome (s : Store) : Bare s.makeHome := by
  unfold makeHome
  split
  · exact bare_makeDirs _
  · exact .pure ()

theorem bare_load : Bare load := by
  refine (Bare.look _).bind fun s => ?_
  split
  · exact .pure ()
  · refine (bare_onDisk (bare_makeHome s)).bind fun _ => (Bare.look _).bind fun files => ?_
    split
    · exact .change _
    · split
      · exact .change _
      · exact .fail trivial

theorem bare_save : Bare save :=
  (Bare.look _).bind fun _ => bare_onDisk (bare_replaceFile _ _ _)

theorem bare_contains (module target digest : String) : Bare (contains module target digest) := by
  refine bare_load.bind fun _ => (Bare.look _).bind fun records => ?_
  split
  · exact .pure _
  · split
    · exact bare_save.bind fun _ => .pure _
    · exact (Bare.change _).bind fun _ => bare_save.bind fun _ => .pure _

theorem bare_add (module target digest : String) : Bare (add module target digest) :=
  bare_load.bind fun _ => (Bare.change _).bind fun _ => bare_save

theorem bare_clear (module : String) : Bare (clear module) :=
  bare_load.bind fun _ => (Bare.change _).bind fun _ => bare_save

end Store

end Kiln
