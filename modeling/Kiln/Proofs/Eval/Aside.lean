import Kiln.Call
import Kiln.Proofs.Law

/-!
# Kiln.Proofs.Eval.Aside — what does not touch memory or the frame

Most of what a script does besides computing leaves its variables, its containers and its frame
alone: files, programs, the digest store, the output, the function table, the working directory.
Such an action is `Aside`; what it may change is `Machine.Beside`.  Those that only look are
`Step.Idle`.
-/

namespace Kiln

variable {α β : Type}

/-- The states differ beside memory and frame: in the run, the files, the digest store, and what was
printed. -/
structure Machine.Beside (s t : Machine) : Prop where
  memory : t.memory = s.memory
  frame : t.frame = s.frame
  host : t.host = s.host
  shows : t.session.showsPrograms = s.session.showsPrograms

namespace Machine.Beside

variable {s t u : Machine}

theorem refl (s : Machine) : s.Beside s := ⟨rfl, rfl, rfl, rfl⟩

theorem trans (h : s.Beside t) (h' : t.Beside u) : s.Beside u :=
  ⟨h'.memory.trans h.memory, h'.frame.trans h.frame, h'.host.trans h.host, h'.shows.trans h.shows⟩

end Machine.Beside

namespace Memory

theorem idle_treeOf (v : Value) : (treeOf v).Idle := by
  intro m
  unfold treeOf
  split <;> rfl

theorem idle_textOf (v : Value) : (textOf v).Idle := by
  cases v with
  | str s => exact Step.Idle.pure s
  | _ => exact (idle_treeOf _).bind fun t => .pure t.text

theorem idle_order (l r : Value) : (order l r).Idle := by
  unfold order
  split
  · exact .pure _
  · exact (idle_textOf _).bind fun s => (idle_textOf _).bind fun t => .pure _

end Memory

namespace Action

/-! ## Working on the memory -/

theorem onMemory_run {m : Step Memory α} {s : Machine} {o : Outcome α} {t : Memory}
    (h : m s.memory = (o, t)) : onMemory m s = (o, { s with memory := t }) := by
  simp only [onMemory, Step.on, h]

theorem onMemory_bind (m : Step Memory α) (f : α → Step Memory β) :
    onMemory (m >>= f) = onMemory m >>= fun a => onMemory (f a) := by
  funext s
  show (((m >>= f) s.memory).1, { s with memory := ((m >>= f) s.memory).2 }) = _
  simp only [Step.bind_run, onMemory, Step.on]
  rcases m s.memory with ⟨o, t⟩
  cases o <;> rfl

theorem onMemory_each (f : α → Step Memory β) (as : List α) :
    onMemory (Step.each f as) = Step.each (fun a => onMemory (f a)) as := by
  induction as with
  | nil => rfl
  | cons a as ih =>
    show onMemory (f a >>= fun b => Step.each f as >>= fun bs => pure (b :: bs)) = _
    rw [onMemory_bind]
    refine congrArg (Step.andThen (onMemory (f a))) (funext fun b => ?_)
    rw [onMemory_bind, ih]
    rfl

theorem idle_onMemory {m : Step Memory α} (h : m.Idle) : (onMemory m).Idle :=
  h.on fun _ => rfl

theorem idle_textOf (v : Value) : (textOf v).Idle := idle_onMemory (Memory.idle_textOf v)

theorem idle_textsOf (vs : List Value) : (textsOf vs).Idle := Step.Idle.each idle_textOf vs

theorem idle_function (name : String) : (function name).Idle := by
  refine (Step.Idle.look _).bind fun f => ?_
  cases f with
  | some f => exact .pure f
  | none => exact .fault _

theorem idle_load (path : String) : (load path).Idle := by
  refine (Step.Idle.look _).bind fun files => ?_
  cases files.text path with
  | ok text => exact .ofOutcome _
  | error e => exact .fault _

/-! ## Leaving memory and frame alone -/

/-- The action leaves the memory and the frame as they are, however it ends. -/
def Aside (m : Action α) : Prop := ∀ s : Machine, s.Beside (m s).2

namespace Aside

theorem of_idle {m : Action α} (h : m.Idle) : Aside m := fun s => by
  rw [h s]
  exact .refl s

theorem pure (a : α) : Aside (pure a) := of_idle (.pure a)

theorem fault (f : Fault) : Aside (.fault f : Action α) := of_idle (.fault f)

theorem change {f : Machine → Machine} (h : ∀ s : Machine, s.Beside (f s)) : Aside (.change f) := h

theorem bind {m : Action α} {f : α → Action β} (hm : Aside m) (hf : ∀ a, Aside (f a)) :
    Aside (m >>= f) := by
  intro s
  have hs := hm s
  rw [Step.bind_run]
  rcases h : m s with ⟨o, t⟩
  rw [h] at hs
  cases o with
  | ok a => exact hs.trans (hf a t)
  | error e => exact hs
  | exhausted => exact hs

theorem mapError {m : Action α} {f : Error → Error} (h : Aside m) : Aside (.mapError f m) := by
  intro s
  have hs := h s
  unfold Step.mapError
  rcases hm : m s with ⟨o, t⟩
  rw [hm] at hs
  cases o <;> exact hs

theorem forAll {f : α → Action Unit} (hf : ∀ a, Aside (f a)) : ∀ as, Aside (.forAll f as)
  | [] => pure ()
  | a :: as => (hf a).bind fun _ => forAll hf as

theorem onFiles (m : Disk α) : Aside (onFiles m) := fun _ => ⟨rfl, rfl, rfl, rfl⟩

theorem onStore (m : Shelving α) : Aside (onStore m) := fun _ => ⟨rfl, rfl, rfl, rfl⟩

theorem changeRun (f : Run → Run) : Aside (changeRun f) := fun _ => ⟨rfl, rfl, rfl, rfl⟩

theorem print (text : String) : Aside (print text) := fun _ => ⟨rfl, rfl, rfl, rfl⟩

theorem showProgram (output errors : ByteArray) (captured : Bool) :
    Aside (showProgram output errors captured) := by
  refine change fun s => ?_
  split <;> exact ⟨rfl, rfl, rfl, rfl⟩

theorem addIncluded (path : String) : Aside (addIncluded path) := changeRun _

theorem addFunctions (fs : List Function) : Aside (addFunctions fs) := by
  refine forAll (fun f => (of_idle (.look _)).bind fun functions => ?_) fs
  split
  · exact fault _
  · exact changeRun _

end Aside

end Action

/-! ## The helpers of the built-in functions -/

namespace Builtin

open Kiln.Action

theorem idle_bytePosition (b : Builtin) (s : String) (position : Int32) :
    (bytePosition b s position).Idle := by
  unfold bytePosition
  split
  · exact .pure _
  · exact .fault _

theorem idle_flatten (vs : List Value) : (flatten vs).Idle :=
  (Step.Idle.look _).bind fun values => idle_textsOf values

theorem idle_compileGlobs (vs : List Value) : (compileGlobs vs).Idle := by
  refine Step.Idle.each (fun v => (idle_textOf v).bind fun pattern => ?_) vs
  refine (Step.Idle.look _).bind fun regex => ?_
  split
  · exact .pure _
  · exact .fault _

theorem idle_commandWords (vs : List Value) : (commandWords vs).Idle := by
  induction vs with
  | nil => exact .pure []
  | cons v rest ih =>
    have hmore (words : List String) : (commandWords rest >>= fun more =>
        (pure (words ++ more) : Action (List String))).Idle := ih.bind fun more => .pure _
    cases v with
    | array a =>
      exact (Step.Idle.look _).bind fun values => (idle_textsOf values).bind fun _ => hmore _
    | _ => exact (idle_textOf _).bind fun s => hmore _

theorem idle_childEnvironment : childEnvironment.Idle := by
  refine Step.Idle.bind (Step.Idle.look id) fun s => (Step.Idle.look _).bind fun v => ?_
  split
  · split
    · refine (idle_textsOf _).bind fun texts => ?_
      split
      · exact (idle_textsOf _).bind fun dirs => .pure _
      · exact .pure _
    · exact .pure _
  · exact .pure _

end Builtin

end Kiln
