import Kiln.Proofs.Eval.Chronicle
import Kiln.Proofs.Eval.Quiet
import Kiln.Proofs.Table

/-!
# Kiln.Proofs.Eval.Course — what a run may come to

A `Course` leads from a state to a later one through the moments between them.  It has one case for
each thing that touches the run or the digest store: `cd`, the store asked or written to, a block
left, a module included or used, another build file run.  Whatever else happens is `quiet`.

Every function of the evaluator takes a course, and its record holds exactly the moments of it
(`recounted`).  What holds of every state of a run is proved by induction on courses from there on.
-/

namespace Kiln

open Kiln.Action

variable {α β τ : Type}

/-! ## Modules -/

/-- What holds of a module without anything read, and is kept by every definition and every statement
in front of what is read, holds of every module that is read. -/
theorem Parser.returns_units {path : String} {P : Table Function → Module → Prop}
    (hend : ∀ known, P known ⟨path, known, [], []⟩)
    (hfunction : ∀ known f m, P (known.insert f.name f) m → P known m)
    (htarget : ∀ known f m, P (known.insert f.name f) m →
      P known { m with targets := f.name :: m.targets })
    (hstatement : ∀ known s m, P known m → P known { m with body := s :: m.body })
    (n : Nat) (known : Table Function) (stream : Stream) :
    Step.Returns stream (unitsWithin path n known) fun m _ => P known m := by
  have hany {σ α : Type} {s : σ} {m : Step σ α} : Step.Returns s m fun _ _ => True :=
    ⟨trivial, trivial, fun _ _ => trivial⟩
  induction n generalizing known stream with
  | zero => exact .stuck trivial
  | succ n ih =>
    unfold unitsWithin
    refine hany.bind fun t s _ => ?_
    split
    · exact .pure trivial (hend known)
    · split
      · refine hany.bind fun f s _ => (ih _ s).bind fun m s hm => ?_
        split
        · exact .pure trivial (htarget known f m hm)
        · exact .pure trivial (hfunction known f m hm)
      · exact hany.bind fun _ s _ => hany.bind fun stmt s _ => (ih known s).bind fun m s hm =>
          .pure trivial (hstatement known stmt m hm)

theorem Parser.path_of_units (path : String) (n : Nat) (known : Table Function) (stream : Stream) :
    Step.Returns stream (unitsWithin path n known) fun m _ => m.path = path :=
  returns_units (P := fun _ m => m.path = path) (fun _ => rfl) (fun _ _ _ hm => hm)
    (fun _ _ _ hm => hm) (fun _ _ _ hm => hm) n known stream

/-- What is read as a module was read by the parser. -/
theorem units_of_load {path : String} {s t : Machine} {m : Module} (h : load path s = (.ok m, t)) :
    ∃ (n : Nat) (stream : Stream), (Parser.unitsWithin path n .empty stream).1 = .ok m := by
  obtain ⟨files, t', hlook, hrest⟩ := Step.bind_eq_ok.mp h
  cases hlook
  cases htext : s.files.text path with
  | error e =>
    rw [htext] at hrest
    cases hrest
  | ok text =>
    rw [htext] at hrest
    exact ⟨_, _, congrArg Prod.fst hrest⟩

/-- A module is named by the path it was read at. -/
theorem path_of_load {path : String} {s t : Machine} {m : Module} (h : load path s = (.ok m, t)) :
    m.path = path := by
  obtain ⟨n, stream, hunits⟩ := units_of_load h
  exact (Parser.path_of_units path n _ stream).value m hunits

/-! ## States along the way -/

namespace Machine

/-- The module at a path counts as loaded. -/
def including (s : Machine) (path : String) : Machine :=
  { s with run := { s.run with included := s.run.included.add path } }

/-- The digest store is moved beside the module at a path, unless it is open. -/
def movingStore (s : Machine) (path : String) : Machine :=
  { s with session := { s.session with store := s.session.store.moveTo path } }

/-- A run begins in a directory, with nothing loaded. -/
def beginning (s : Machine) (cwd : String) : Machine := { s with run := .inDir cwd }

/-- Back in the run and the frame of another state. -/
def backTo (t s : Machine) : Machine := { t with run := s.run, frame := s.frame }

end Machine

/-- New names are bound to functions of the list, and nothing else of the run or the digest store is
touched. -/
structure Machine.Binds (s : Machine) (fs : List Function) (t : Machine) : Prop where
  cwd : t.run.cwd = s.run.cwd
  included : t.run.included = s.run.included
  store : t.session.store = s.session.store
  kept : t.run.functions.Extends s.run.functions
  added : ∀ name f, t.run.functions.get? name = some f →
    s.run.functions.get? name = some f ∨ f ∈ fs ∧ f.name = name

namespace Machine.Binds

variable {s t u : Machine} {fs : List Function}

theorem refl (s : Machine) : s.Binds fs s := ⟨rfl, rfl, rfl, .refl _, fun _ _ => .inl⟩

theorem trans (h : s.Binds fs t) (h' : t.Binds fs u) : s.Binds fs u where
  cwd := h'.cwd.trans h.cwd
  included := h'.included.trans h.included
  store := h'.store.trans h.store
  kept := h.kept.trans h'.kept
  added name f hf := (h'.added name f hf).elim (h.added name f) .inr

end Machine.Binds

/-- The law of entering functions of a list into the function table. -/
def binding (fs : List Function) : Step.Law Machine where
  inv _ := True
  rel s t := s.Binds fs t
  refl := .refl
  trans := .trans

theorem binds_addFunctions (fs : List Function) (s : Machine) : s.Binds fs (addFunctions fs s).2 := by
  have hone : (addFunctions fs).Obeys (binding fs) s fun _ _ => True := by
    refine .forAll trivial fun f hf t _ _ => ?_
    refine (Step.Idle.look _).obeys_bind trivial fun functions hlook => ?_
    cases hlook
    split
    · exact .fault trivial
    · rename_i hnew
      refine .change trivial ⟨rfl, rfl, rfl, .insert f (by simpa using hnew), fun name g hg => ?_⟩
      rw [Table.get?_insert] at hg
      split at hg
      · exact .inr ⟨Option.some.inj hg ▸ hf, by rw [← Option.some.inj hg, ‹name = f.name›]⟩
      · exact .inl hg
  exact hone.rel

/-! ## The digest store -/

namespace Store

/-- The law of asking and writing: the store does not move, and one that is open stays open. -/
def standing : Step.Law Shelf where
  inv _ := True
  rel s t := t.store.path = s.store.path ∧ (s.store.isOpen = true → t.store.isOpen = true)
  refl _ := ⟨rfl, id⟩
  trans h h' := ⟨h'.1.trans h.1, fun hopen => h'.2 (h.2 hopen)⟩

variable {shelf : Shelf}

theorem standing_onDisk (m : Disk α) :
    (onDisk m).Obeys standing shelf fun _ t => t.store = shelf.store :=
  ⟨trivial, ⟨rfl, id⟩, fun _ _ => rfl⟩

theorem standing_load : load.Obeys standing shelf fun _ _ => True := by
  refine (Step.Idle.look _).obeys_bind trivial fun s hlook => ?_
  cases hlook
  split
  · exact .pure trivial trivial
  · refine (standing_onDisk _).bind fun _ t _ _ ht => ?_
    have hopened (records : Records) :
        standing.rel t { t with store := ⟨shelf.store.path, true, records⟩ } :=
      ⟨ht ▸ rfl, fun _ => rfl⟩
    refine (Step.Idle.look _).obeys_bind trivial fun files _ => ?_
    split
    · exact .change trivial (hopened _)
    · split
      · exact .change trivial (hopened _)
      · exact .of_fail trivial rfl (by simp)

theorem standing_save : save.Obeys standing shelf fun _ _ => True :=
  (Step.Idle.look _).obeys_bind trivial fun _ _ => (standing_onDisk _).mono fun _ _ _ _ _ => trivial

theorem standing_changeRecords (f : Records → Records) :
    (changeRecords f).Obeys standing shelf fun _ _ => True :=
  .change trivial ⟨rfl, id⟩

theorem standing_contains (module target digest : String) :
    (contains module target digest).Obeys standing shelf fun _ _ => True := by
  refine standing_load.bind fun _ t _ _ _ => (Step.Idle.look _).obeys_bind trivial fun records _ => ?_
  split
  · exact .pure trivial trivial
  · split
    · exact standing_save.bind fun _ _ _ _ _ => .pure trivial trivial
    · exact (standing_changeRecords _).bind fun _ _ _ _ _ => standing_save.bind fun _ _ _ _ _ =>
        .pure trivial trivial

theorem standing_add (module target digest : String) :
    (add module target digest).Obeys standing shelf fun _ _ => True :=
  standing_load.bind fun _ _ _ _ _ => (standing_changeRecords _).bind fun _ _ _ _ _ => standing_save

theorem standing_clear (module : String) :
    (clear module).Obeys standing shelf fun _ _ => True :=
  standing_load.bind fun _ _ _ _ _ => (standing_changeRecords _).bind fun _ _ _ _ _ => standing_save

end Store

/-! ## Courses -/

/-- A module that was not loaded yet is taken over in a state, and up to the start of its top level
the moments are these.  A name that is taken stops it. -/
inductive Loading (s : Machine) (path : String) (targets : Bool) : List Moment → Machine → Prop where
  | unread : Loading s path targets [] s
  | taken {m : Module} {t : Machine} {es : List Moment} :
      s.run.included.contains path = false → m.path = path →
      (s.including path).Binds (m.exported targets) t →
      es = [] ∨ es = [.here (.starts path)] →
      Loading s path targets ([.here (.loads m targets), .here (.reaches (s.including path)),
        .here (.reaches t)] ++ es) t

/-- The run goes from one state to another, through the moments between them. -/
inductive Course : Machine → List Moment → Machine → Prop where
  | refl (s : Machine) : Course s [] s
  | append {s t u : Machine} {es fs : List Moment} :
      Course s es t → Course t fs u → Course s (es ++ fs) u
  /-- Neither the run nor the digest store is touched. -/
  | quiet {s t : Machine} : s.Calm t → Course s [.here (.reaches t)] t
  | cd (s : Machine) (text : String) :
      Course s [.here (.reaches (s.inDirectory (s.run.resolve text)))]
        (s.inDirectory (s.run.resolve text))
  /-- A store that is open stays open, and it does not move. -/
  | asks {s t : Machine} :
      t.run = s.run → t.session.store.path = s.session.store.path →
      (s.session.store.isOpen = true → t.session.store.isOpen = true) →
      Course s [.here .asks, .here (.reaches t)] t
  /-- Back in the working directory of the start. -/
  | returns {s t : Machine} {es : List Moment} :
      Course s es t →
      Course s (es ++ [.here (.reaches (t.inDirectory s.run.cwd))]) (t.inDirectory s.run.cwd)
  | includes {s t : Machine} (text : String) {es : List Moment} :
      Loading s (s.run.resolve text) true es t → Course s es t
  | uses {s t u : Machine} (text : String) {path : String} {es fs : List Moment} :
      path = s.run.resolve text → s.run.included.contains path = false →
      Loading ((s.movingStore path).inDirectory (Path.directory path)) path false es t →
      Course t fs u →
      Course s ([.here (.uses path), .here (.reaches (s.movingStore path))] ++
          (.here (.reaches ((s.movingStore path).inDirectory (Path.directory path))) ::
            (es ++ fs)).map (.within (.used path)) ++
          [.here (.reaches (u.inDirectory s.run.cwd))])
        (u.inDirectory s.run.cwd)
  | runs {s t u : Machine} (text : String) {path : String} {es fs : List Moment} :
      path = s.run.resolve text ∨ path = Path.join (s.run.resolve text) "lickable" →
      Loading (s.beginning (Path.directory path)) path true es t → Course t fs u →
      Course s ((.here (.reaches (s.beginning (Path.directory path))) :: (es ++ fs)).map
          (.within (.ran path)) ++ [.here (.reaches (u.backTo s))]) (u.backTo s)

/-! ## Records -/

/-- The recorded computation is the plain one, and what it records and the state it ends in satisfy
`P`. -/
def Recounts (P : List Moment → Machine → Prop) (s : Machine) (c : Chronicle α) (m : Action α) :
    Prop :=
  ∃ es, P es (m s).2 ∧ ∀ past, c ⟨s, past⟩ = ((m s).1, ⟨(m s).2, past ++ es⟩)

namespace Recounts

variable {P Q : List Moment → Machine → Prop} {s : Machine} {c : Chronicle α} {m : Action α}
variable {d : α → Chronicle β} {k : α → Action β}

theorem mono (h : Recounts P s c m) (hPQ : ∀ es t, P es t → Q es t) : Recounts Q s c m :=
  let ⟨es, hes, hrun⟩ := h
  ⟨es, hPQ es _ hes, hrun⟩

/-- Nothing is recorded and nothing changed. -/
theorem still (hP : P [] s) (hm : (m s).2 = s) (hc : ∀ past, c ⟨s, past⟩ = ((m s).1, ⟨s, past⟩)) :
    Recounts P s c m :=
  ⟨[], hm.symm ▸ hP, fun past => by rw [hc, hm, List.append_nil]⟩

theorem bind (hm : Recounts P s c m) (hfail : ∀ es t, P es t → Q es t)
    (hk : ∀ a t es, m s = (.ok a, t) → P es t →
      Recounts (fun fs u => Q (es ++ fs) u) t (d a) (k a)) :
    Recounts Q s (c >>= d) (m >>= k) := by
  obtain ⟨es, hes, hrun⟩ := hm
  rcases h : m s with ⟨o, t⟩
  rw [h] at hes hrun
  cases o with
  | ok a =>
    obtain ⟨fs, hfs, hrest⟩ := hk a t es h hes
    refine ⟨es ++ fs, by rwa [Step.bind_run_ok h], fun past => ?_⟩
    rw [Step.bind_run_ok (hrun past), Step.bind_run_ok h, hrest, List.append_assoc]
  | error e =>
    refine ⟨es, by rw [Step.bind_run_error h]; exact hfail es t hes, fun past => ?_⟩
    rw [Step.bind_run_error (hrun past), Step.bind_run_error h]
  | exhausted =>
    refine ⟨es, by rw [Step.bind_run, h]; exact hfail es t hes, fun past => ?_⟩
    rw [Step.bind_run, hrun past, Step.bind_run, h]

theorem act (h : P [.here (.reaches (m s).2)] (m s).2) : Recounts P s (Chronicle.act m) m :=
  ⟨_, h, fun _ => rfl⟩

/-- A change is certain to be made, and what follows starts from there. -/
theorem change {f : Machine → Machine} {d : Unit → Chronicle β} {k : Unit → Action β}
    (h : Recounts (fun es t => P (.here (.reaches (f s)) :: es) t) (f s) (d ()) (k ())) :
    Recounts P s (Chronicle.act (.change f) >>= d) (.change f >>= k) := by
  obtain ⟨es, hes, hrun⟩ := h
  refine ⟨_, hes, fun past => ?_⟩
  have hrest := hrun (past ++ [.here (.reaches (f s))])
  rw [List.append_assoc] at hrest
  exact hrest

theorem noting {e : Moment.Event} (h : Recounts (fun es t => P (.here e :: es) t) s c m) :
    Recounts P s (Chronicle.noting e c) m := by
  obtain ⟨es, hes, hrun⟩ := h
  refine ⟨_, hes, fun past => ?_⟩
  have hrest := hrun (past ++ [.here e])
  rw [List.append_assoc] at hrest
  exact hrest

/-- An event at the start of the first of two computations. -/
theorem noting_bind {e : Moment.Event} {m : Action β}
    (h : Recounts (fun es t => P (.here e :: es) t) s (c >>= d) m) :
    Recounts P s (Chronicle.noting e c >>= d) m :=
  noting h

theorem peek (hm : m.Idle) (hfail : P [] s)
    (hk : ∀ a, m s = (.ok a, s) → Recounts P s (d a) (k a)) :
    Recounts P s (Chronicle.peek m >>= d) (m >>= k) := by
  refine bind (P := fun es t => es = [] ∧ t = s) (still ⟨rfl, rfl⟩ (hm s) fun _ => rfl) ?_ ?_
  · rintro es t ⟨rfl, rfl⟩
    exact hfail
  · rintro a t es hrun ⟨rfl, rfl⟩
    exact hk a hrun

theorem look {f : Machine → α} (h : Recounts P s (d (f s)) (k (f s))) :
    Recounts P s (Interpreter.look f >>= d) (.look f >>= k) := h

theorem state {d : Machine → Chronicle α} {k : Machine → Action α}
    (h : Recounts P s (d s) (k s)) :
    Recounts P s (Interpreter.state >>= d) (Step.state >>= k) := h

/-- A module is taken over, and what follows starts from there. -/
theorem takeOver {m : Module} {targets : Bool} {c : Chronicle Unit} {a : Action Unit}
    (hnew : s.run.included.contains m.path = false)
    (hfail : ∀ es t, Loading s m.path targets es t → P es t)
    (hk : ∀ es t, Loading s m.path targets es t → Recounts (fun fs u => P (es ++ fs) u) t c a) :
    Recounts P s (Interpreter.takeOver m.path m targets c)
      (Interpreter.takeOver m.path m targets a) := by
  have hbinds := binds_addFunctions (m.exported targets) (s.including m.path)
  refine noting_bind (change (bind (act (P := fun es t => es = [.here (.reaches t)] ∧
    (s.including m.path).Binds (m.exported targets) t) ⟨rfl, hbinds⟩) ?_ ?_))
  · rintro es t ⟨rfl, ht⟩
    exact hfail _ t (.taken hnew rfl ht (.inl rfl))
  · rintro ⟨⟩ t es hrun ⟨rfl, ht⟩
    exact noting (hk _ t (.taken hnew rfl ht (.inr rfl)))

theorem mapError {f : Error → Error} (h : Recounts P s c m) :
    Recounts P s (.mapError f c) (.mapError f m) := by
  obtain ⟨es, hes, hrun⟩ := h
  rcases hm : m s with ⟨o, t⟩
  rw [hm] at hes hrun
  have hmap : Step.mapError f m s = ((Step.mapError f (fun _ => (o, t)) s).1, t) := by
    simp only [Step.mapError, hm]
    cases o <;> rfl
  refine ⟨es, by rwa [hmap], fun past => ?_⟩
  rw [hmap]
  simp only [Step.mapError, hrun]
  cases o <;> rfl

theorem restoring {save : Machine → τ} {restore : τ → Machine → Machine} (h : Recounts P s c m)
    (hQ : ∀ es t, P es t →
      Q (es ++ [.here (.reaches (restore (save s) t))]) (restore (save s) t)) :
    Recounts Q s (Chronicle.restoring save restore c) (Step.restoring save restore m) := by
  obtain ⟨es, hes, hrun⟩ := h
  refine ⟨_, hQ es _ hes, fun past => ?_⟩
  unfold Chronicle.restoring
  rw [hrun]
  simp only [Trail.reach, List.append_assoc]
  rfl

theorem keepingRun (h : Recounts P s c m)
    (hQ : ∀ es t, P es t → Q (es ++ [.here (.reaches (t.backTo s))]) (t.backTo s)) :
    Recounts Q s (Interpreter.keepingRun c) (Interpreter.keepingRun m) :=
  restoring h hQ

theorem inside {a : Around} (h : Recounts (fun es t => P (es.map (.within a)) t) s c m) :
    Recounts P s (Chronicle.inside a c) m := by
  obtain ⟨es, hes, hrun⟩ := h
  refine ⟨_, hes, fun past => ?_⟩
  unfold Chronicle.inside
  rw [hrun]
  rfl

theorem ran {path : String} (h : Recounts (fun es t => P (es.map (.within (.ran path))) t) s c m) :
    Recounts P s (Interpreter.within (.ran path) c) (Interpreter.within (.ran path) m) :=
  inside h

theorem used {path : String} (h : Recounts (fun es t => P (es.map (.within (.used path))) t) s c m) :
    Recounts P s (Interpreter.within (.used path) c) (Interpreter.within (.used path) m) :=
  inside h

end Recounts

/-- The recorded computation is the plain one, and it takes a course. -/
abbrev Follows (s : Machine) (c : Chronicle α) (m : Action α) : Prop := Recounts (Course s) s c m

namespace Follows

variable {s : Machine} {c : Chronicle α} {m : Action α} {d : α → Chronicle β} {k : α → Action β}

theorem bind (hm : Follows s c m) (hk : ∀ a t, m s = (.ok a, t) → Follows t (d a) (k a)) :
    Follows s (c >>= d) (m >>= k) :=
  Recounts.bind hm (fun _ _ h => h) fun a t _ hrun hes =>
    (hk a t hrun).mono fun _ _ hfs => .append hes hfs

theorem pure (a : α) : Follows s (pure a) (pure a) := .still (.refl s) rfl fun _ => rfl

theorem stuck : Follows s (.stuck : Chronicle α) .stuck := .still (.refl s) rfl fun _ => rfl

theorem fault (f : Fault) : Follows s (.fault f : Chronicle α) (.fault f) :=
  .still (.refl s) rfl fun _ => rfl

theorem ofOutcome (o : Outcome α) : Follows s (.ofOutcome o : Chronicle α) (.ofOutcome o) :=
  .still (.refl s) rfl fun _ => rfl

theorem act (h : m.Quiet) : Follows s (Chronicle.act m) m :=
  Recounts.act (.quiet (h s).rel)

/-- What is seen is a part of the state that follows. -/
theorem sees (f : Machine → α) (hk : Follows s (d (f s)) (k (f s))) :
    Follows s (Chronicle.act (.look f) >>= d) (.look f >>= k) :=
  bind (act (.look f)) fun a t hrun => by
    cases hrun
    exact hk

theorem cd (args : List Value) : Follows s (Chronicle.act (Builtin.cd.call args)) (Builtin.cd.call args) := by
  refine Recounts.act ?_
  obtain ⟨text, hstays | hgoes⟩ := Builtin.call_cd args s
  · rw [hstays]
    exact .quiet (.refl s)
  · rw [hgoes]
    exact .cd s text

/-- The store is asked or written to; it may be opened by that. -/
theorem onStore {m : Shelving α} {P : α → Shelf → Prop}
    (hm : ∀ shelf, m.Obeys Store.standing shelf P) :
    Follows s (Interpreter.onStore m) (Action.onStore m) :=
  have hstanding := (hm ⟨s.session.store, s.files⟩).rel
  Recounts.noting (Recounts.act (.asks rfl hstanding.1 hstanding.2))

theorem keepingDirectory (h : Follows s c m) :
    Follows s (Interpreter.keepingDirectory c) (Interpreter.keepingDirectory m) :=
  Recounts.restoring h fun _ _ hes => .returns hes

theorem keepingFrame (h : Follows s c m) :
    Follows s (Interpreter.keepingFrame c) (Interpreter.keepingFrame m) :=
  Recounts.restoring h fun _ _ hes => .append hes (.quiet ⟨rfl, rfl⟩)

theorem each {f : α → Chronicle β} {g : α → Action β} (h : ∀ a t, Follows t (f a) (g a))
    (as : List α) : Follows s (.each f as) (.each g as) := by
  induction as generalizing s with
  | nil => exact pure []
  | cons a as ih => exact (h a s).bind fun b t _ => ih.bind fun bs u _ => pure (b :: bs)

theorem forAll {f : α → Chronicle Unit} {g : α → Action Unit} (h : ∀ a t, Follows t (f a) (g a))
    (as : List α) : Follows s (.forAll f as) (.forAll g as) := by
  induction as generalizing s with
  | nil => exact pure ()
  | cons a as ih => exact (h a s).bind fun _ t _ => ih

theorem eachUntil {f : α → Chronicle Bool} {g : α → Action Bool} (h : ∀ a t, Follows t (f a) (g a))
    (as : List α) : Follows s (.eachUntil f as) (.eachUntil g as) := by
  induction as generalizing s with
  | nil => exact pure ()
  | cons a as ih =>
    refine (h a s).bind fun stop t _ => ?_
    cases stop with
    | true => exact pure ()
    | false => exact ih

theorem attempt (h : Follows s c m) : Follows s (Step.attempt c) (Step.attempt m) := by
  obtain ⟨es, hes, hrun⟩ := h
  refine ⟨es, hes, fun past => ?_⟩
  simp only [Step.attempt, hrun]

end Follows

end Kiln
