import Kiln.Proofs.Eval.Scopes
import Kiln.Proofs.Memory.Isolation

/-!
# Kiln.Proofs.Eval.Isolation — running another build file leaves the calling run alone

A build file that is run by another starts in a scope with nothing around it, with strings for its
parameters, and in a run of its own.  Everything that existed before is walled off from it: nothing
it can get at refers there.  So the calling run gets back its variables, containers, functions,
directory and signals as they were, and what it is given has no cell in common with what it had.
-/

namespace Kiln

open Kiln.Action

/-! ## Going in -/

section Opening

variable {base m : Memory}

theorem Host.walled_describe (h : Host) (hm : base.Walled m) :
    h.describe.Obeys base.walled m fun v t => base.Adds t v := by
  refine (Memory.walled_newDict hm fun p hp => ?_).bind fun env t ht _ henv => ?_
  · obtain ⟨e, -, rfl⟩ := List.mem_map.mp hp
    trivial
  refine (Memory.walled_newArray ht fun v hv => ?_).bind fun path u hu htu hpath => ?_
  · obtain ⟨p, -, rfl⟩ := List.mem_map.mp hv
    trivial
  refine Memory.walled_newDict hu fun p hp => ?_
  simp only [List.mem_cons, List.not_mem_nil, or_false] at hp
  rcases hp with rfl | rfl | rfl | rfl | rfl | rfl
  · trivial
  · trivial
  · trivial
  · trivial
  · exact henv.mono htu
  · exact hpath

theorem Host.walled_newScope (h : Host) (hm : base.Walled m) :
    h.newScope.Obeys base.walled m fun _ _ => True := by
  refine (h.walled_describe hm).bind fun sys t ht _ hsys => ?_
  refine (Memory.walled_newScope ht (by simp)).bind fun scope u hu htu hscope => ?_
  refine (Memory.walled_setVar "sys" hu hscope (hsys.mono htu)).bind fun _ w hw _ _ => ?_
  exact .pure hw trivial

end Opening

namespace Machine

variable {base : Memory} {s t : Machine} {values : List Value}

/-- The memory is walled off, and what is at hand is new. -/
structure Walled (base : Memory) (s : Machine) : Prop where
  memory : base.Walled s.memory
  scope : ¬ base.HasScope s.frame.scope
  result : base.Adds s.memory s.frame.signals.result

theorem Walled.entered (h : s.Walled base) (f : Function)
    (hvalues : ∀ v ∈ values, base.Adds s.memory v) :
    (s.entered f values).Walled base ∧ s.memory.Grows (s.entered f values).memory := by
  have houter : ∀ o ∈ some s.frame.scope, ¬ base.HasScope o := fun o ho => by
    cases ho
    exact h.scope
  have hscope := Memory.walled_newScope h.memory houter
  have hparams : (Step.forAll (fun p => Memory.setVar s.nextScope p.1 p.2)
      (f.params.zip values)).Obeys base.walled (Memory.newScope (some s.frame.scope) s.memory).2
        fun _ _ => True := by
    refine .forAll hscope.inv fun p hp t ht hst => ?_
    have hvalue := hvalues p.2 (List.of_mem_zip hp).2
    exact Memory.walled_setVar p.1 ht h.memory.not_hasScope_next (hvalue.mono (hscope.rel.trans hst))
  exact ⟨⟨hparams.inv, h.memory.not_hasScope_next, trivial⟩, hscope.rel.trans hparams.rel⟩

theorem walled_opened (h : base.Walled s.memory) (module : String) :
    (s.opened module).Walled base ∧ s.memory.Grows (s.opened module).memory := by
  have hnew := s.host.walled_newScope h
  exact ⟨⟨hnew.inv, h.not_hasScope_next, trivial⟩, hnew.rel⟩

/-- What may become of a state: there are no fewer containers, and host and settings stay. -/
structure Onward (s t : Machine) : Prop where
  grows : s.memory.Grows t.memory
  host : t.host = s.host
  shows : t.session.showsPrograms = s.session.showsPrograms

theorem Onward.refl (s : Machine) : s.Onward s := ⟨.refl _, rfl, rfl⟩

theorem Onward.trans {u : Machine} (h : s.Onward t) (h' : t.Onward u) : s.Onward u :=
  ⟨h.grows.trans h'.grows, h'.host.trans h.host, h'.shows.trans h.shows⟩

theorem Beside.onward (h : s.Beside t) : s.Onward t :=
  ⟨h.memory ▸ .refl _, h.host, h.shows⟩

/-- A frame that was at hand is so again when a run comes back to it. -/
theorem Walled.back (hs : s.Walled base) (ht : t.Walled base) (h : s.Onward t) :
    ({ t with frame := s.frame } : Machine).Walled base ∧ s.Onward { t with frame := s.frame } :=
  ⟨⟨ht.memory, hs.scope, hs.result.mono h.grows⟩, h.grows, h.host, h.shows⟩

end Machine

/-! ## The regime -/

/-- Scripts that are walled off from `base`: they have new containers in hand only, and write new
cells only. -/
def isolatedCustoms (base : Memory) : Customs where
  inv := Machine.Walled base
  evaluated := Machine.Onward
  executed := Machine.Onward
  holds := base.Adds
  owns _ c := base.cells.size ≤ c.index
  evaluated_refl := .refl
  evaluated_trans := .trans
  executed_trans := .trans
  executed_of_evaluated := id
  holds_mono h hv := hv.mono h.grows
  owns_mono _ hc := hc

section Lift

variable {α : Type} {base : Memory} {s : Machine} {m : Step Memory α}

theorem isolated_onMemory {P : α → Memory → Prop} (hs : s.Walled base)
    (h : m.Obeys base.walled s.memory P) :
    (onMemory m).Obeys (isolatedCustoms base).evaluating s fun a t => P a t.memory :=
  ⟨⟨h.inv, hs.scope, hs.result.mono h.rel⟩, ⟨h.rel, rfl, rfl⟩, h.value⟩

end Lift

def isolated (base : Memory) : Regime where
  toCustoms := isolatedCustoms base
  holds_scalar {m v} h := by cases v <;> trivial
  holds_result hs := hs.result
  holds_var name hs := hs.memory.adds_getVar hs.scope name
  holds_read hs hc := hs.memory.held hc
  owns_slot hs ha hc := hs.memory.slot ha.1 hc
  owns_entry hs hd hc := hs.memory.entry hd.1 hc
  newArray hs hvs := isolated_onMemory hs (Memory.walled_newArray hs.memory hvs)
  newDict hs hpairs := isolated_onMemory hs (Memory.walled_newDict hs.memory hpairs)
  varCell name hs := isolated_onMemory hs (Memory.walled_varCell name hs.memory hs.scope)
  slotCell i hs ha := isolated_onMemory hs (Memory.walled_slotCell i hs.memory ha)
  entryCell key hs hd := isolated_onMemory hs (Memory.walled_entryCell key hs.memory hd)
  write hs hc hv := isolated_onMemory hs (Memory.walled_write hs.memory hc hv)
  setVar name hs hv := isolated_onMemory hs (Memory.walled_setVar name hs.memory hs.scope hv)
  aside {s t} hs h := by
    refine ⟨⟨?_, ?_, ?_⟩, h.onward⟩
    · rw [h.memory]
      exact hs.memory
    · rw [h.frame]
      exact hs.scope
    · rw [h.memory, h.frame]
      exact hs.result
  signals hs hresult := ⟨⟨hs.memory, hs.scope, hresult⟩, .refl _, rfl, rfl⟩
  entered f hs hvalues := (hs.entered f hvalues).1
  opened module hs := (Machine.walled_opened hs.memory module).1
  left {s f values t} hs hvalues ht h :=
    hs.back ht ⟨(hs.entered f hvalues).2.trans h.grows, h.host, h.shows⟩
  closed {s module t} hs ht h :=
    hs.back ht ⟨(Machine.walled_opened hs.memory module).2.trans h.grows, h.host, h.shows⟩

/-! ## Running another build file -/

/-- What running another build file leaves of a state. -/
structure Machine.Outlasts (s t : Machine) : Prop where
  memory : s.memory.Walled t.memory
  frame : t.frame = s.frame
  run : t.run = s.run
  host : t.host = s.host
  shows : t.session.showsPrograms = s.session.showsPrograms

theorem Machine.Outlasts.refl (s : Machine) : s.Outlasts s := ⟨.start _, rfl, rfl, rfl, rfl⟩

theorem Machine.Outlasts.eq {s t : Machine} (h : s.Outlasts t) :
    t = ⟨t.memory, s.frame, s.run,
      ⟨t.session.store, t.session.output, t.session.errors, s.session.showsPrograms⟩, t.files,
      s.host⟩ := by
  rw [← h.frame, ← h.run, ← h.host, ← h.shows]

/-- The law of another build file that runs, until its caller gets back its run and its frame. -/
def visiting (s : Machine) : Step.Law Machine where
  inv t := s.memory.Walled t.memory ∧ s.Onward t
  rel _ _ := True
  refl _ := trivial
  trans _ _ := trivial

/-- The law of the caller. -/
def outlasting (s : Machine) : Step.Law Machine where
  inv t := s.Outlasts t
  rel _ _ := True
  refl _ := trivial
  trans _ _ := trivial

theorem visiting_of_isolated {α : Type} {s t : Machine} {m : Action α} {P : α → Machine → Prop}
    (ht : s.Onward t) (h : m.Obeys (isolated s.memory).executing t P) :
    m.Obeys (visiting s) t fun a u => P a u ∧ u.Walled s.memory ∧ s.Onward u :=
  ⟨⟨h.inv.memory, ht.trans h.rel⟩, trivial, fun a ha => ⟨h.value a ha, h.inv, ht.trans h.rel⟩⟩

/-- The caller's frame need not be walled off: it is left before anything is executed. -/
theorem start_visiting (n : Nat) (m : Module) (cwd : String) (s : Machine) :
    (start n m cwd).Obeys (visiting s) s fun _ t => t.Walled s.memory ∧ s.Onward t := by
  cases n with
  | zero => exact .stuck ⟨.start _, .refl s⟩
  | succ n =>
    obtain ⟨u, hbeside, hrun | ⟨o, ho, hrun⟩⟩ := start_run n m cwd s
    · have hmemory : s.memory.Walled u.memory := hbeside.memory ▸ .start _
      obtain ⟨hopened, hgrows⟩ := Machine.walled_opened hmemory m.path
      have honward : s.Onward (u.opened m.path) :=
        hbeside.onward.trans ⟨hgrows, rfl, rfl⟩
      have hbody : (Step.forAll (exec n) m.body).Obeys (isolated s.memory).executing
          (u.opened m.path) fun _ _ => True :=
        .forAll hopened fun stmt _ w hw _ => ((isolated s.memory).kept n).exec stmt hw
      refine Step.Obeys.of_run_eq ?_ trivial hrun
      exact (visiting_of_isolated honward hbody).mono fun _ _ _ _ h => h.2
    · refine ⟨?_, trivial, fun a ha => ?_⟩
      · rw [hrun]
        exact ⟨hbeside.memory ▸ .start _, hbeside.onward⟩
      · rw [hrun] at ha
        exact absurd ha (ho a)

theorem invoke_outlasting (n : Nat) (path : String) (target : Option String) (params : List String)
    (s : Machine) : (invoke n path target params).Obeys (outlasting s) s
      fun v t => s.memory.Adds t.memory v := by
  cases n with
  | zero => exact .stuck (.refl s)
  | succ n =>
    have hstart : (visiting s).inv s := ⟨.start _, .refl s⟩
    have hback {m : Action Value}
        (hm : m.Obeys (visiting s) s fun v t => s.memory.Adds t.memory v) :
        (Interpreter.keepingRun m).Obeys (outlasting s) s fun v t => s.memory.Adds t.memory v :=
      hm.restoring (fun t ht _ => ⟨⟨ht.1, rfl, rfl, ht.2.host, ht.2.shows⟩, trivial⟩)
        fun v t _ _ hv => hv
    refine hback ((idle_load path).obeys_bind hstart fun m _ => ?_)
    refine (start_visiting n m _ s).bind fun _ t ht _ hwalled => ?_
    split
    · rename_i name _
      have htarget := (isolated s.memory).executing_of_evaluating
        (((isolated s.memory).kept n).runTarget m name params hwalled.1)
      exact (visiting_of_isolated hwalled.2 htarget).mono fun _ _ _ _ h => h.1
    · exact .pure ht trivial

theorem subrun_outlasting (n : Nat) (values : List Value) (s : Machine) :
    (subrun n values).Obeys (outlasting s) s fun v t => s.memory.Adds t.memory v := by
  have hstart : (outlasting s).inv s := .refl s
  cases n with
  | zero => exact .stuck hstart
  | succ n =>
    refine (idle_textsOf values).obeys_bind hstart fun texts _ => ?_
    refine (Step.Idle.look _).obeys_bind hstart fun path _ => ?_
    refine (Step.Idle.look _).obeys_bind hstart fun isDir _ => ?_
    exact invoke_outlasting n _ _ _ s

/-- Running another build file, whatever is in it and however it ends, changes only the files, the
digest store and what was printed, and adds to the memory: the functions, the loaded modules, the
directory and the signals of the calling run are the same, and so are all cells, containers and scopes
that there were.  No cell that is reached from the value it gives back was there before; in a state of
a run, none is in an older container. -/
theorem subrun_isolated {s₀ s : Machine} {n : Nat} {args : List Expr} {values : List Value}
    (hargs : Step.each (eval n) args s₀ = (.ok values, s)) :
    ∃ memory files store output errors,
      (eval (n + 1) (.builtin .subrun args) s₀).2 =
        { s with memory, files, session := { s.session with store, output, errors } } ∧
      s.memory.Extends memory ∧
      ∀ v, (eval (n + 1) (.builtin .subrun args) s₀).1 = .ok v → ∀ c, memory.Reaches v c →
        s.memory.cells.size ≤ c.index ∧ (Reachable s₀ → ¬ s.memory.Contains c) := by
  have hrun : eval (n + 1) (.builtin .subrun args) s₀ = subrun n values s :=
    Step.bind_run_ok hargs _
  obtain ⟨houtlasts, -, hvalue⟩ := subrun_outlasting n values s
  rw [hrun]
  rcases hend : subrun n values s with ⟨o, t⟩
  rw [hend] at houtlasts hvalue
  replace houtlasts : s.Outlasts t := houtlasts
  refine ⟨t.memory, t.files, t.session.store, t.session.output, t.session.errors, houtlasts.eq,
    houtlasts.memory.toExtends, fun v hv c hc => ?_⟩
  have hnew := houtlasts.memory.reaches (hvalue v hv) hc
  refine ⟨hnew, fun hreachable hcontains => ?_⟩
  have htidy := ((scopes.kept n).arguments args hreachable.tidy).inv
  rw [hargs] at htidy
  exact absurd (htidy.memory.contained hcontains) (Nat.not_lt.mpr hnew)

/-- A build file whose target gives back an array of an array that it wrote to. -/
def Machine.besideFile : Machine :=
  { Machine.blank with
    memory := .empty
    files := ⟨.dir [("b", .file "x = [7]; target all() { x[0] = 8; return [x]; }".toUTF8 3)] 0, 9,
      some "/"⟩ }

/-- `x = [1];` -/
def Stmt.settingXArray : Stmt :=
  .expr ⟨"/m", 1⟩ (.binary .assign (.var "x") (.array [.const (.int 1)]))

/-- The element of the caller's `x` stays 1, and is not in what the build file gives back. -/
theorem subrun_isolated_besideFile :
    ∃ s v c, Reachable s ∧ s.memory.Contains c ∧ s.memory.read c = .int 1 ∧
      (eval 11 (.builtin .subrun [.const (.str "b")]) s).1 = .ok v ∧
      (eval 11 (.builtin .subrun [.const (.str "b")]) s).2.memory.read c = .int 1 ∧
      ¬ (eval 11 (.builtin .subrun [.const (.str "b")]) s).2.memory.Reaches v c := by
  obtain ⟨s, v, c, hs, hslot, hread, hexists, hv⟩ : ∃ s v c, Reachable s ∧
      c ∈ s.memory.slots ⟨1⟩ ∧ s.memory.read c = .int 1 ∧ c.index < s.memory.cells.size ∧
      (eval 11 (.builtin .subrun [.const (.str "b")]) s).1 = .ok v :=
    ⟨(exec 4 .settingXArray (Machine.besideFile.opened "/m")).2, .array ⟨4⟩, ⟨8⟩,
      .exec 4 .settingXArray (.first "/m" rfl), by decide +kernel⟩
  have hargs : Step.each (eval 10) [.const (.str "b")] s = (.ok [.str "b"], s) := rfl
  obtain ⟨memory, files, store, output, errors, hend, hextends, hreaches⟩ := subrun_isolated hargs
  refine ⟨s, v, c, hs, .inl ⟨_, hslot⟩, hread, hv, ?_, fun hreached => ?_⟩
  · rw [hend]
    exact (hextends.read hexists).trans hread
  · rw [hend] at hreached
    exact (hreaches v hv c hreached).2 hs (.inl ⟨_, hslot⟩)

end Kiln
