import Kiln.Proofs.Eval.Loaded

/-!
# Kiln.Proofs.Eval.Refused — modules that are refused

A module that is to be included or used may be refused before its top level is executed.  If it
cannot be read as a module, nothing has happened to the run by then.  If one of its functions has a
name that is taken, the run is not what it was: the functions in front of that one are in the table,
and the path counts as loaded, so that the next attempt to load it does nothing and does not fail.
The working directory is back in either case.
-/

namespace Kiln

open Kiln.Action

/-! ## Functions under their names -/

namespace Table

/-- Every function of the table is listed under its own name. -/
def Named (t : Table Function) : Prop := ∀ e ∈ t.entries, e.2.name = e.1

theorem Named.insert {t : Table Function} (h : t.Named) (f : Function) :
    (t.insert f.name f).Named := by
  intro e he
  rcases mem_put he with rfl | he
  · rfl
  · exact h e he

/-- The table with the functions of a list under their names, entered from the left. -/
def enter (t : Table Function) (fs : List Function) : Table Function :=
  fs.foldl (fun t f => t.insert f.name f) t

theorem Named.nodup_values {t : Table Function} (h : t.Named) :
    (t.values.map Function.name).Nodup := by
  have hkeys : t.values.map Function.name = t.keys := by
    rw [values, keys, List.map_map]
    exact List.map_congr_left h
  have hordered : t.keys.Pairwise (· < ·) := List.pairwise_map.mpr t.ordered
  rw [hkeys]
  refine hordered.imp fun {k k'} hlt heq => ?_
  subst heq
  exact String.lt_irrefl k hlt

end Table

/-- The functions of a module are listed under their own names. -/
theorem Parser.named_of_units (path : String) (n : Nat) {known : Table Function} (stream : Stream)
    (hknown : known.Named) :
    Step.Returns stream (unitsWithin path n known) fun m _ => m.functions.Named := by
  have hunits : Step.Returns stream (unitsWithin path n known) fun m _ =>
      known.Named → m.functions.Named :=
    returns_units (P := fun known m => known.Named → m.functions.Named) (fun _ h => h)
      (fun _ f _ hm h => hm (h.insert f)) (fun _ f _ hm h => hm (h.insert f)) (fun _ _ _ hm h => hm h)
      n known stream
  exact hunits.mono fun m _ hm => hm hknown

/-- A run takes over no two functions of one name. -/
theorem nodup_exported_of_load {path : String} {s t : Machine} {m : Module}
    (h : load path s = (.ok m, t)) (targets : Bool) :
    ((m.exported targets).map Function.name).Nodup := by
  obtain ⟨n, stream, hunits⟩ := units_of_load h
  have hempty : (Table.empty : Table Function).Named := fun e he => by cases he
  have hnamed : m.functions.Named := (Parser.named_of_units path n stream hempty).value m hunits
  exact (List.filter_sublist.map _).nodup hnamed.nodup_values

/-! ## Entering functions -/

/-- The state with the functions of a list in its table. -/
def Machine.entering (s : Machine) (fs : List Function) : Machine :=
  { s with run := { s.run with functions := s.run.functions.enter fs } }

theorem addFunctions_cons (f : Function) (fs : List Function) (s : Machine) :
    addFunctions (f :: fs) s =
      if s.run.functions.contains f.name then (.error (.fault (.nameTaken f.name)), s)
      else addFunctions fs (s.entering [f]) := by
  unfold addFunctions
  rw [Step.forAll]
  by_cases htaken : s.run.functions.contains f.name = true
  · rw [if_pos htaken]
    refine Step.bind_run_error ?_ _
    rw [Step.look_bind_run, if_pos htaken]
    rfl
  · rw [if_neg htaken]
    refine Step.bind_run_ok (a := ()) ?_ _
    rw [Step.look_bind_run, if_neg htaken]
    rfl

/-- A list splits at the first function whose name is taken: those in front of it are new. -/
structure Clash (functions : Table Function) (fs before : List Function) (f : Function) : Prop where
  splits : ∃ after, fs = before ++ f :: after
  new : ∀ g ∈ before, functions.contains g.name = false
  taken : functions.contains f.name = true

/-- Functions of different names are all entered, or those in front of a clash are. -/
theorem addFunctions_run {fs : List Function} (hnames : (fs.map Function.name).Nodup)
    (s : Machine) :
    addFunctions fs s = (.ok (), s.entering fs) ∨
      ∃ before f, Clash s.run.functions fs before f ∧
        addFunctions fs s = (.error (.fault (.nameTaken f.name)), s.entering before) := by
  induction fs generalizing s with
  | nil => exact .inl rfl
  | cons f fs ih =>
    obtain ⟨hf, hfs⟩ := List.nodup_cons.mp hnames
    rw [addFunctions_cons]
    by_cases htaken : s.run.functions.contains f.name = true
    · rw [if_pos htaken]
      exact .inr ⟨[], f, ⟨⟨fs, rfl⟩, by simp, htaken⟩, rfl⟩
    · rw [if_neg htaken]
      -- A name of the rest is not the one that is new in the table, so the rest meets the old table.
      have hother (g : Function) (hg : g ∈ fs) :
          (s.entering [f]).run.functions.contains g.name = s.run.functions.contains g.name := by
        have hne : g.name ≠ f.name := fun heq => hf (heq ▸ List.mem_map_of_mem hg)
        exact congrArg Option.isSome (Table.get?_insert_of_ne _ f hne)
      rcases ih hfs (s.entering [f]) with hall | ⟨before, g, hclash, hrun⟩
      · exact .inl hall
      · obtain ⟨after, rfl⟩ := hclash.splits
        refine .inr ⟨f :: before, g, ⟨⟨after, rfl⟩, ?_, ?_⟩, hrun⟩
        · intro k hk
          rcases List.mem_cons.mp hk with rfl | hk
          · simpa using htaken
          · rw [← hother k (List.mem_append_left _ hk)]
            exact hclash.new k hk
        · rw [← hother g (by simp)]
          exact hclash.taken

/-! ## Refusals -/

theorem load_eq_of_files {path : String} {s t : Machine} (h : t.files = s.files) :
    (load path t).1 = (load path s).1 := by
  unfold load
  rw [Step.look_bind_run, Step.look_bind_run, h]
  cases s.files.text path <;> rfl

/-- The module at a path is not taken over in a state, for a cause, and the run is this afterwards. -/
inductive Refused (s : Machine) (path : String) (targets : Bool) : Error → Run → Prop where
  /-- It cannot be read as a module. -/
  | unread {cause : Error} :
      (load path s).1 = .error cause → Refused s path targets cause s.run
  /-- A name is taken; what was noted and entered until then stays. -/
  | clash {m : Module} {before : List Function} {f : Function} :
      (load path s).1 = .ok m → Clash s.run.functions (m.exported targets) before f →
      Refused s path targets (.fault (.nameTaken f.name))
        { s.run with
          functions := s.run.functions.enter before
          included := s.run.included.add path }

namespace Refused

variable {s : Machine} {path : String} {targets : Bool} {cause : Error} {r : Run}

theorem keeps_directory (h : Refused s path targets cause r) : r.cwd = s.run.cwd := by
  cases h <;> rfl

/-- Only a clash leaves something behind. -/
theorem run_eq_iff (h : Refused s path targets cause r) (hnew : s.run.included.contains path = false) :
    r = s.run ↔ ∃ e, (load path s).1 = .error e := by
  cases h with
  | unread hload => exact ⟨fun _ => ⟨cause, hload⟩, fun _ => rfl⟩
  | clash hload _ =>
    constructor
    · intro heq
      have hincluded : s.run.included.add path = s.run.included := congrArg Run.included heq
      have hin : (s.run.included.add path).contains path = true := NameSet.contains_add.mpr (.inl rfl)
      rw [hincluded, hnew] at hin
      cases hin
    · rintro ⟨e, herror⟩
      rw [hload] at herror
      cases herror

/-- A module is refused in the same way in its own directory. -/
theorem of_below (h : Refused ((s.movingStore path).inDirectory (Path.directory path)) path targets
    cause r) : Refused s path targets cause { r with cwd := s.run.cwd } := by
  have hsame : (load path ((s.movingStore path).inDirectory (Path.directory path))).1 =
      (load path s).1 := load_eq_of_files rfl
  cases h with
  | unread hload => exact .unread (hsame ▸ hload)
  | clash hload hclash => exact .clash (hsame ▸ hload) hclash

end Refused

/-! ## Starts on record -/

/-- The paths of the files whose top level the run itself starts. -/
def ownStarts (es : List Moment) : List String := startedPaths (ownEvents es)

theorem ownStarts_append (es fs : List Moment) :
    ownStarts (es ++ fs) = ownStarts es ++ ownStarts fs := by
  rw [ownStarts, ownEvents_append, startedPaths, List.filterMap_append]
  rfl

theorem ownStarts_within_used (es : List Moment) (path : String) :
    ownStarts (es.map (.within (.used path))) = ownStarts es := by
  rw [ownStarts, ownEvents_within_used]
  rfl

/-- A module that is taken over is started. -/
theorem mem_ownStarts_loadInto {n : Nat} {path : String} {targets : Bool} {s t : Machine} {m : Module}
    (past : List Moment) (hload : load path s = (.ok m, s))
    (henters : addFunctions (m.exported targets) (s.including path) = (.ok (), t)) :
    path ∈ ownStarts (Chronicle.loadInto (n + 1) path targets ⟨s, past⟩).2.past := by
  obtain rfl := path_of_load hload
  have hbody : Follows t (Interpreter.topLevel (Chronicle.exec n) m)
      (Interpreter.topLevel (exec n) m) := .forAll (fun stmt _ => (recounted n).exec stmt) m.body
  obtain ⟨es, -, hrun⟩ := hbody
  have henters' (trail : Trail) (hs : trail.machine = s.including m.path) :
      Chronicle.act (addFunctions (m.exported targets)) trail = (.ok (), trail.reach t) := by
    unfold Chronicle.act
    rw [hs, henters]
  have hpeek : Chronicle.peek (load m.path) ⟨s, past⟩ = (.ok m, ⟨s, past⟩) := by
    unfold Chronicle.peek
    rw [hload]
  have hstarted : Chronicle.loadInto (n + 1) m.path targets ⟨s, past⟩ =
      Interpreter.topLevel (Chronicle.exec n) m ⟨t, past ++
        [.here (.loads m targets)] ++ [.here (.reaches (s.including m.path))] ++
          [.here (.reaches t)] ++ [.here (.starts m.path)]⟩ :=
    (Step.bind_run_ok hpeek _).trans (Step.bind_run_ok (henters' ⟨s.including m.path, _⟩ rfl) _)
  rw [hstarted, hrun, ownStarts_append, ownStarts_append]
  exact List.mem_append_left _ (List.mem_append_right _ (List.mem_singleton_self _))

/-- A module whose top level is not started was refused. -/
theorem refused_of_loadInto {n : Nat} {path : String} {targets : Bool} {s t : Machine} {cause : Error}
    (past : List Moment) (hfails : loadInto n path targets s = (.error cause, t))
    (hearly : path ∉ ownStarts (Chronicle.loadInto n path targets ⟨s, past⟩).2.past) :
    Refused s path targets cause t.run := by
  cases n with
  | zero => cases hfails
  | succ n =>
    rcases hload : load path s with ⟨o, u⟩
    obtain rfl : u = s := (idle_load path).eq_of_run hload
    change (load path >>= fun m => Interpreter.takeOver path m targets
      (Interpreter.topLevel (exec n) m)) u = (.error cause, t) at hfails
    cases o with
    | exhausted =>
      rw [Step.bind_run, hload] at hfails
      cases hfails
    | error c =>
      rw [Step.bind_run_error hload] at hfails
      cases hfails
      exact .unread (congrArg Prod.fst hload)
    | ok m =>
      rw [Step.bind_run_ok hload] at hfails
      rcases addFunctions_run (nodup_exported_of_load hload targets) (u.including path) with
        hall | ⟨before, f, hclash, hrefuses⟩
      · exact absurd (mem_ownStarts_loadInto past hload hall) hearly
      · have hend : (addFunctions (m.exported targets) >>= fun _ => Interpreter.topLevel (exec n) m)
            (u.including path) = (.error cause, t) := hfails
        rw [Step.bind_run_error hrefuses] at hend
        cases hend
        exact .clash (congrArg Prod.fst hload) hclash

/-! ## Statements that load -/

/-- The statement that loads the module at a path: with its targets, or as a library in its own
directory. -/
def Stmt.loading : Bool → Location → Expr → Stmt
  | true, loc, path => .includeStmt loc path
  | false, loc, path => .usingStmt loc path

/-- What such a statement does about a module that is not loaded yet. -/
def Interpreter.loadNew {C : Type → Type} [Monad C] [Interpreter C] (n : Nat) : Bool → String → C Unit
  | true, path => loadInto n path true
  | false, path => usingModule path (loadInto n path false)

/-- The paths whose top level a statement starts in the run it belongs to. -/
def Stmt.starts (n : Nat) (stmt : Stmt) (s : Machine) : List String :=
  ownStarts (Chronicle.exec n stmt ⟨s, []⟩).2.past

theorem refused_of_loadNew {n : Nat} {targets : Bool} {path : String} {s t : Machine} {cause : Error}
    {past : List Moment}
    (hfails : (Interpreter.loadNew n targets path : Action Unit) s = (.error cause, t))
    (hearly : path ∉ ownStarts ((Interpreter.loadNew n targets path : Chronicle Unit) ⟨s, past⟩).2.past) :
    Refused s path targets cause t.run := by
  cases targets with
  | true => exact refused_of_loadInto past hfails hearly
  | false =>
    let below := (s.movingStore path).inDirectory (Path.directory path)
    rcases hload : loadInto n path false below with ⟨o, u⟩
    have hend : (Interpreter.loadNew n false path : Action Unit) s = (o, u.inDirectory s.run.cwd) :=
      congrArg (fun r : Outcome Unit × Machine => (r.1, r.2.inDirectory s.run.cwd)) hload
    rw [hend] at hfails
    cases hfails
    let way : List Moment := [.here (.reaches below)]
    refine Refused.of_below (refused_of_loadInto way hload fun hstarts => hearly ?_)
    have hpast : ((Interpreter.loadNew n false path : Chronicle Unit) ⟨s, past⟩).2.past =
        past ++ [.here (.uses path)] ++ [.here (.reaches (s.movingStore path))] ++
          (Chronicle.loadInto n path false ⟨below, way⟩).2.past.map (.within (.used path)) ++
          [.here (.reaches (((Chronicle.loadInto n path false ⟨below, way⟩).2.machine).inDirectory
            s.run.cwd))] := rfl
    rw [hpast, ownStarts_append, ownStarts_append, ownStarts_within_used]
    exact List.mem_append_left _ (List.mem_append_right _ hstarts)

section Loading

variable {n : Nat} {e : Expr} {s : Machine} {v : Value} {text : String}

/-- A path that is given by an expression without effects. -/
theorem eval_path (hvalue : eval n e s = (.ok v, s)) (htext : textOf v s = (.ok text, s))
    (k : String → Action Unit) :
    (eval n e >>= fun v => textOf v >>= fun text => resolve text >>= k) s =
      k (s.run.resolve text) s := by
  rw [Step.bind_run_ok hvalue, Step.bind_run_ok htext]
  rfl

theorem Chronicle.eval_path (hvalue : Kiln.eval n e s = (.ok v, s))
    (htext : textOf v s = (.ok text, s)) (k : String → Chronicle Unit) :
    ∃ past, (Chronicle.eval n e >>= fun v => Chronicle.act (textOf v) >>= fun text =>
      Chronicle.act (resolve text) >>= k) ⟨s, []⟩ = k (s.run.resolve text) ⟨s, past⟩ := by
  obtain ⟨es, -, hrun⟩ := (recounted n).eval (s := s) e
  have heval : Chronicle.eval n e ⟨s, []⟩ = (.ok v, ⟨s, es⟩) := by
    rw [hrun, hvalue]
    rfl
  have hact : Chronicle.act (textOf v) ⟨s, es⟩ = (.ok text, Trail.reach ⟨s, es⟩ s) := by
    unfold Chronicle.act
    rw [htext]
  rw [Step.bind_run_ok heval, Step.bind_run_ok hact]
  exact ⟨_, rfl⟩

variable (targets : Bool) (loc : Location)

theorem exec_loading (hvalue : eval n e s = (.ok v, s)) (htext : textOf v s = (.ok text, s)) :
    exec (n + 1) (.loading targets loc e) s = Step.mapError (Error.locate loc)
      (if s.run.included.contains (s.run.resolve text) then pure ()
        else Interpreter.loadNew n targets (s.run.resolve text)) s := by
  cases targets
  all_goals
    exact Step.mapError_congr (eval_path hvalue htext _)

theorem Chronicle.exec_loading (hvalue : Kiln.eval n e s = (.ok v, s))
    (htext : textOf v s = (.ok text, s)) :
    ∃ past, Chronicle.exec (n + 1) (.loading targets loc e) ⟨s, []⟩ =
      Step.mapError (Error.locate loc)
        (if s.run.included.contains (s.run.resolve text) then pure ()
          else Interpreter.loadNew n targets (s.run.resolve text)) ⟨s, past⟩ := by
  cases targets
  all_goals
    obtain ⟨past, hpast⟩ := Chronicle.eval_path hvalue htext _
    exact ⟨past, Step.mapError_congr hpast⟩

end Loading

/-- A statement that loads the module at the path of an expression without effects, and that fails
before the top level of the module is started, fails because the module is refused.  The working
directory is what it was.  So is everything else of the run if the module could not be read, and only
then: after a clash the path counts as loaded, and the functions in front of the one whose name is
taken are in the table. -/
theorem refused_before_start {n : Nat} {targets : Bool} {loc : Location} {e : Expr} {s t : Machine}
    {v : Value} {text : String} {cause : Error}
    (hvalue : eval n e s = (.ok v, s)) (htext : textOf v s = (.ok text, s))
    (hfails : exec (n + 1) (.loading targets loc e) s = (.error cause, t))
    (hearly : s.run.resolve text ∉ Stmt.starts (n + 1) (.loading targets loc e) s) :
    (∃ c, cause = c.locate loc ∧ Refused s (s.run.resolve text) targets c t.run) ∧
      t.run.cwd = s.run.cwd ∧
      (t.run = s.run ↔ ∃ c, (load (s.run.resolve text) s).1 = .error c) := by
  rw [exec_loading targets loc hvalue htext] at hfails
  obtain ⟨past, hpast⟩ := Chronicle.exec_loading targets loc hvalue htext
  rw [Stmt.starts, hpast, Step.mapError_snd] at hearly
  obtain ⟨c, hrun, rfl⟩ := Step.mapError_eq_error.mp hfails
  cases hin : s.run.included.contains (s.run.resolve text) with
  | true =>
    rw [hin, if_pos rfl] at hrun
    cases hrun
  | false =>
    rw [hin, if_neg Bool.false_ne_true] at hrun hearly
    have hrefused := refused_of_loadNew hrun hearly
    exact ⟨⟨c, rfl, hrefused⟩, hrefused.keeps_directory, hrefused.run_eq_iff hin⟩

/-- A build file whose function `f` is in the table, and a library with an `f` of its own. -/
def Machine.besideClash : Machine :=
  { Machine.blank with
    run :=
      { Run.inDir "/w" with
        functions := Table.empty.insert "f" ⟨"f", [], .block ⟨"/w/lickable", 1⟩ [], false⟩ }
    files := ⟨.dir [("w", .dir [("lib", .file
      "function a() {} function f() {} print(1);".toUTF8 3)] 0)] 0, 9, some "/"⟩ }

/-- The library is refused; its `a` is in the table then, and it counts as loaded. -/
theorem refused_before_start_clash :
    let t := (exec 9 (.includeStmt ⟨"/w/lickable", 2⟩ (.str "lib")) .besideClash).2
    t.run ≠ Machine.besideClash.run ∧ t.run.cwd = "/w" ∧
      t.run.functions.contains "a" = true ∧ t.run.included.contains "/w/lib" = true := by
  intro t
  have hvalue : eval 8 (.str "lib") .besideClash = (.ok (.str "lib"), .besideClash) := rfl
  have htext : textOf (.str "lib") .besideClash = (.ok "lib", .besideClash) := rfl
  have hfails : exec 9 (.loading true ⟨"/w/lickable", 2⟩ (.str "lib")) .besideClash =
      (.error (.located ⟨"/w/lickable", 2⟩ (.fault (.nameTaken "f"))), t) :=
    Step.eq_of_fst (by decide +kernel)
  have hearly : "/w/lib" ∉
      Stmt.starts 9 (.loading true ⟨"/w/lickable", 2⟩ (.str "lib")) .besideClash := by
    decide +kernel
  have hreads : ((load "/w/lib" Machine.besideClash).1.andThen fun _ => .ok ()) = .ok () := by
    decide +kernel
  obtain ⟨-, hcwd, hsame⟩ := refused_before_start hvalue htext hfails hearly
  refine ⟨fun heq => ?_, hcwd, by decide +kernel, by decide +kernel⟩
  obtain ⟨c, hload⟩ := hsame.mp heq
  rw [show Machine.besideClash.run.resolve "lib" = "/w/lib" by decide +kernel] at hload
  rw [hload] at hreads
  cases hreads

end Kiln
