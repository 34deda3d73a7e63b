import Kiln.Eval
import Kiln.Proofs.Eval.Aside

/-!
# Kiln.Proofs.Eval.Quiet — what touches neither the run nor the digest store

Variables, operators, the output, files and programs leave the function table, the modules loaded so
far, the working directory and the digest store alone.  So does every built-in function but `cd`,
which changes the working directory and nothing else.
-/

namespace Kiln

open Kiln.Action

variable {α β : Type}

/-- The run and the digest store are the same in both states. -/
structure Machine.Calm (s t : Machine) : Prop where
  run : t.run = s.run
  store : t.session.store = s.session.store

namespace Machine.Calm

variable {s t u : Machine}

theorem refl (s : Machine) : s.Calm s := ⟨rfl, rfl⟩

theorem trans (h : s.Calm t) (h' : t.Calm u) : s.Calm u :=
  ⟨h'.run.trans h.run, h'.store.trans h.store⟩

end Machine.Calm

/-- The law of what touches neither the run nor the digest store. -/
def calm : Step.Law Machine where
  inv _ := True
  rel := Machine.Calm
  refl := .refl
  trans := .trans

namespace Action

/-- The action touches neither the run nor the digest store, however it ends. -/
def Quiet (m : Action α) : Prop := ∀ s, m.Obeys calm s fun _ _ => True

namespace Quiet

theorem of_idle {m : Action α} (h : m.Idle) : Quiet m :=
  fun _ => h.obeys trivial fun _ _ => trivial

theorem pure (a : α) : Quiet (pure a) := of_idle (.pure a)

theorem fault (f : Fault) : Quiet (.fault f : Action α) := of_idle (.fault f)

theorem look (f : Machine → α) : Quiet (.look f) := of_idle (.look f)

theorem change {f : Machine → Machine} (h : ∀ s : Machine, s.Calm (f s)) : Quiet (.change f) :=
  fun s => .change trivial (h s)

theorem bind {m : Action α} {f : α → Action β} (hm : Quiet m) (hf : ∀ a, Quiet (f a)) :
    Quiet (m >>= f) :=
  fun s => (hm s).bind fun a t _ _ _ => hf a t

theorem mapError {m : Action α} {f : Error → Error} (h : Quiet m) : Quiet (.mapError f m) :=
  fun s => (h s).mapError

theorem forAll {f : α → Action Unit} (hf : ∀ a, Quiet (f a)) (as : List α) :
    Quiet (.forAll f as) :=
  fun _ => .forAll trivial fun a _ t _ _ => hf a t

theorem onMemory (m : Step Memory α) : Quiet (onMemory m) :=
  fun _ => ⟨trivial, ⟨rfl, rfl⟩, fun _ _ => trivial⟩

theorem onFiles (m : Disk α) : Quiet (onFiles m) :=
  fun _ => ⟨trivial, ⟨rfl, rfl⟩, fun _ _ => trivial⟩

theorem changeSignals (f : Signals → Signals) : Quiet (changeSignals f) :=
  change fun _ => ⟨rfl, rfl⟩

theorem print (text : String) : Quiet (print text) := change fun _ => ⟨rfl, rfl⟩

theorem showProgram (output errors : ByteArray) (captured : Bool) :
    Quiet (showProgram output errors captured) := by
  refine change fun s => ?_
  split <;> exact ⟨rfl, rfl⟩

theorem textOf (v : Value) : Quiet (textOf v) := onMemory _

theorem textsOf (vs : List Value) : Quiet (textsOf vs) := of_idle (idle_textsOf vs)

theorem setVar (name : String) (v : Value) : Quiet (setVar name v) :=
  (look _).bind fun _ => onMemory _

end Quiet

end Action

/-! ## Operators -/

theorem quiet_settle : settle.Quiet := by
  refine fun s => ⟨trivial, ?_, fun _ _ => trivial⟩
  unfold settle
  simp only
  split <;> exact ⟨rfl, rfl⟩

theorem quiet_subscript (container i : Value) : (subscript container i).Quiet := by
  unfold subscript
  split
  · exact (Quiet.textOf _).bind fun k => .onMemory _
  · exact .onMemory _

theorem quiet_subscriptCell (container i : Value) : (subscriptCell container i).Quiet := by
  unfold subscriptCell
  split
  · exact (Quiet.textOf _).bind fun k => .onMemory _
  · exact .onMemory _

theorem BinaryOp.quiet_apply (op : BinaryOp) (a b : Value) : (op.apply a b).Quiet := by
  cases op with
  | assign | subtract | multiply | and | or => exact .pure _
  | subscript => exact quiet_subscript a b
  | add => exact .onMemory _
  | divide =>
    show (Kiln.divide a.toInt b.toInt).Quiet
    unfold Kiln.divide
    split
    · exact .fault _
    · exact .pure _
  | equal | notEqual | less | lessEqual | more | moreEqual =>
    exact (Quiet.onMemory _).bind fun _ => .pure _

/-! ## Built-in functions -/

namespace Builtin

theorem quiet_filterGlob (wanted : Bool) (v : Value) (patterns : List (String → Bool)) :
    (filterGlob wanted v patterns).Quiet := by
  unfold filterGlob
  split
  · exact (Quiet.look _).bind fun values => (Quiet.textsOf _).bind fun texts => .onMemory _
  · exact (Quiet.textOf _).bind fun s => .pure _

theorem quiet_runProgram (captured : Bool) (args : List Value) : (runProgram captured args).Quiet := by
  refine (Quiet.of_idle (idle_commandWords args)).bind fun argv => ?_
  cases argv with
  | nil => exact .fault _
  | cons name rest =>
    refine (Quiet.of_idle idle_childEnvironment).bind fun env => (Quiet.look _).bind fun cwd => ?_
    refine (Quiet.look _).bind fun programs => ?_
    have hlaunch := Quiet.onFiles (programs.launch (name :: rest) cwd env)
    refine hlaunch.mapError.bind fun done => (Quiet.showProgram _ _ _).bind fun _ => ?_
    split
    · exact .fault _
    · exact .pure _

theorem quiet_call {b : Builtin} (hb : b ≠ cd) (args : List Value) : (b.call args).Quiet := by
  have htext (i : Nat) : (textOf (args.getD i .void)).Quiet := .textOf _
  have hpath {f : String → Action Value} (i : Nat) (hf : ∀ path, (f path).Quiet) :
      (textOf (args.getD i .void) >>= fun s => resolve s >>= f).Quiet :=
    (htext i).bind fun s => (Quiet.look _).bind hf
  cases b with
  | cd => exact absurd rfl hb
  | strlen | ord | dirName | fileName => exact (htext 0).bind fun _ => .pure _
  | length | cwd => exact (Quiet.look _).bind fun _ => .pure _
  | chr | hex | subrun => exact .pure _
  | replace => exact (htext 1).bind fun _ => (htext 2).bind fun _ => .onMemory _
  | contains =>
    refine (htext 1).bind fun needle => ?_
    dsimp only
    split
    · exact (Quiet.look _).bind fun values => (Quiet.textsOf _).bind fun texts => .pure _
    · exact (htext 0).bind fun _ => .pure _
  | implode =>
    dsimp only [Builtin.call]
    generalize args.getD 0 .void = v
    cases v with
    | array a =>
      have hjoined (sep : String) : (elementsOf (.array a) >>= fun values =>
          textsOf values >>= fun texts => return Value.str (Text.Pieces.join sep texts)).Quiet :=
        (Quiet.look _).bind fun values => (Quiet.textsOf _).bind fun texts => .pure _
      split
      · exact (htext 1).bind hjoined
      · exact hjoined " "
    | _ =>
      split
      · exact (htext 1).bind fun _ => .pure _
      · exact .pure _
  | explode =>
    have hwords (seps : String) : (textOf (args.getD 0 .void) >>= fun s =>
        onMemory (Memory.newArray
          ((Text.Pieces.words (fun c => seps.toList.contains c) s).map .str))).Quiet :=
      (htext 0).bind fun s => .onMemory _
    dsimp only [Builtin.call]
    split
    · exact (htext 1).bind hwords
    · exact hwords blanks
  | substr | charAt =>
    exact (htext 0).bind fun s => (Quiet.of_idle (idle_bytePosition _ _ _)).bind fun start => .pure _
  | print | println => exact (Quiet.textsOf _).bind fun texts => (Quiet.print _).bind fun _ => .pure _
  | fail => exact (htext 0).bind fun s => .fault _
  | matching | excluding =>
    exact (Quiet.of_idle (idle_compileGlobs _)).bind fun patterns => quiet_filterGlob _ _ _
  | absPath => exact (Quiet.look _).bind fun run => .onMemory _
  | relPath =>
    refine (Quiet.look _).bind fun run => ?_
    dsimp only
    split
    · exact (Quiet.textOf _).bind fun s => .onMemory _
    · exact .onMemory _
  | sep =>
    cases args with
    | nil => exact .pure _
    | cons v rest => exact .onMemory _
  | fileExists => exact hpath 0 fun path => (Quiet.look _).bind fun there => .pure _
  | files =>
    exact (htext 0).bind fun s => (Quiet.look _).bind fun _ => (Quiet.look _).bind fun _ => .onMemory _
  | readFile =>
    refine hpath 0 fun path => (Quiet.look _).bind fun files => ?_
    split
    · exact .pure _
    · exact .fault _
  | writeFile =>
    refine hpath 0 fun path => (htext 1).bind fun content => ?_
    have hwrite := Quiet.onFiles (FileSystem.write path content.toUTF8)
    exact hwrite.mapError.bind fun _ => .pure _
  | mkdir =>
    exact hpath 0 fun path => (Quiet.onFiles (FileSystem.makeDirs path)).bind fun _ => .pure _
  | delete =>
    refine (Quiet.of_idle (idle_flatten args)).bind fun names => ?_
    refine (Quiet.forAll (fun name => ?_) names).bind fun _ => .pure _
    exact (Quiet.look _).bind fun path => .onFiles (FileSystem.delete path)
  | copy =>
    refine (Quiet.textOf _).bind fun target => (Quiet.look _).bind fun target => ?_
    refine (Quiet.of_idle (idle_flatten _)).bind fun names => ?_
    refine (Quiet.forAll (fun name => ?_) names).bind fun _ => .pure _
    refine (Quiet.look _).bind fun source => ?_
    exact (Quiet.onFiles (FileSystem.copy source target)).mapError
  | run => exact quiet_runProgram false args
  | capture => exact quiet_runProgram true args

end Builtin

/-- The same state in another working directory. -/
def Machine.inDirectory (s : Machine) (dir : String) : Machine :=
  { s with run := { s.run with cwd := dir } }

theorem Builtin.changeDirectory_run (text : String) (s : Machine) :
    changeDirectory text s =
      if s.files.isDir (s.run.resolve text) then
        (.ok (.str (s.run.resolve text)), s.inDirectory (s.run.resolve text))
      else (.error (.fault (.cannotChangeDirectory text)), s) := by
  unfold changeDirectory
  rw [resolve, Step.look_bind_run, Step.look_bind_run]
  split <;> rfl

/-- `cd` goes to a directory as it is read against the working directory, or stays. -/
theorem Builtin.call_cd (args : List Value) (s : Machine) :
    ∃ text, (call cd args s).2 = s ∨ (call cd args s).2 = s.inDirectory (s.run.resolve text) := by
  have hcall : call cd args = textOf (args.getD 0 .void) >>= changeDirectory := rfl
  rcases htext : textOf (args.getD 0 .void) s with ⟨o, t⟩
  obtain rfl : t = s := (Action.idle_textOf _).eq_of_run htext
  rw [hcall]
  cases o with
  | ok text =>
    refine ⟨text, ?_⟩
    rw [Step.bind_run_ok htext, changeDirectory_run]
    split
    · exact .inr rfl
    · exact .inl rfl
  | error e => exact ⟨"", .inl (by rw [Step.bind_run_error htext])⟩
  | exhausted => exact ⟨"", .inl (by rw [Step.bind_run, htext])⟩

end Kiln
