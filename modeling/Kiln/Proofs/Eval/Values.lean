import Kiln.Proofs.Eval.Regime

/-!
# Kiln.Proofs.Eval.Values — operators and built-in functions keep to a regime

An operator or a built-in function computes a scalar from what it looks at, passes on a value it got
or found in a container it got, or makes a new array.
-/

namespace Kiln

open Kiln.Action

namespace Regime

variable {α : Type} (r : Regime) {s t : Machine} {v w : Value}

/-! ## Operators -/

theorem yields_index (i : Int32) (hs : r.inv s) (hv : r.holds s.memory v) :
    r.Yields s (onMemory (Memory.index v i)) := by
  cases v with
  | array a =>
    refine (idle_onMemory (Step.Idle.look _)).obeys hs fun w hw => ?_
    cases hw
    exact r.holds_element hs hv i
  | _ => exact .of_fail hs rfl (by simp)

theorem yields_key (key : String) (hs : r.inv s) (hv : r.holds s.memory v) :
    r.Yields s (onMemory (Memory.key v key)) := by
  cases v with
  | dict d =>
    refine (idle_onMemory (Step.Idle.look _)).obeys hs fun w hw => ?_
    cases hw
    exact r.holds_entry hs hv key
  | _ => exact .of_fail hs rfl (by simp)

theorem yields_subscript (i : Value) (hs : r.inv s) (hv : r.holds s.memory v) :
    r.Yields s (subscript v i) := by
  cases v with
  | dict d => exact (idle_textOf i).obeys_bind hs fun key _ => r.yields_key key hs hv
  | _ => exact r.yields_index i.toInt hs hv

theorem owns_subscriptCell (i : Value) (hs : r.inv s) (hv : r.holds s.memory v) :
    (subscriptCell v i).Obeys r.evaluating s fun c t => r.owns t c := by
  cases v with
  | dict d => exact (idle_textOf i).obeys_bind hs fun key _ => r.entryCell key hs hv
  | array a => exact r.slotCell i.toInt hs hv
  | _ => exact .of_fail hs rfl (by simp)

/-- A new array of the elements of values in hand. -/
theorem yields_joined (hs : r.inv s) (hv : r.holds s.memory v) (hw : r.holds s.memory w) :
    r.Yields s (onMemory (Step.look (fun m => m.elements v ++ m.elements w) >>= Memory.newArray)) := by
  rw [onMemory_bind]
  refine (idle_onMemory (.look _)).obeys_bind hs fun values hvalues => r.newArray hs fun x hx => ?_
  cases hvalues
  rcases List.mem_append.mp hx with hx | hx
  · exact r.holds_elements hs hv x hx
  · exact r.holds_elements hs hw x hx

theorem yields_text {f : String → String} (hs : r.inv s) :
    r.Yields s (onMemory (Memory.textOf v >>= fun x => pure (.str (f x)))) := by
  rw [onMemory_bind]
  exact r.yields_of_idle (idle_textOf v) (fun _ => trivial) hs

theorem yields_add (hs : r.inv s) (hv : r.holds s.memory v) (hw : r.holds s.memory w) :
    r.Yields s (onMemory (Memory.add v w)) := by
  cases v with
  | void => exact .pure hs hw
  | array a =>
    cases w with
    | void => exact .pure hs hv
    | _ => exact r.yields_joined hs hv hw
  | dict d =>
    cases w with
    | void => exact .pure hs hv
    | array b => exact r.yields_joined hs hv hw
    | str x => exact r.yields_text hs
    | _ => exact .pure hs (r.holds_scalar trivial)
  | int n =>
    cases w with
    | void => exact .pure hs hv
    | array b => exact r.yields_joined hs hv hw
    | str x => exact r.yields_text hs
    | _ => exact .pure hs (r.holds_scalar trivial)
  | str x =>
    cases w with
    | void => exact .pure hs hv
    | array b => exact r.yields_joined hs hv hw
    | _ => exact r.yields_text hs

theorem yields_compareBy (f : Ordering → Bool) (hs : r.inv s) : r.Yields s (compareBy f v w) :=
  r.yields_of_idle (f := fun o => .ofBool (f o)) (idle_onMemory (Memory.idle_order v w))
    (fun _ => trivial) hs

theorem yields_apply (op : BinaryOp) (hs : r.inv s) (hv : r.holds s.memory v)
    (hw : r.holds s.memory w) : r.Yields s (op.apply v w) := by
  cases op with
  | assign => exact .pure hs hw
  | subscript => exact r.yields_subscript w hs hv
  | add => exact r.yields_add hs hv hw
  | divide =>
    show r.Yields s (divide v.toInt w.toInt)
    unfold divide
    split
    · exact .fault hs
    · exact .pure hs (r.holds_scalar trivial)
  | subtract => exact .pure hs (r.holds_scalar trivial)
  | multiply => exact .pure hs (r.holds_scalar trivial)
  | and => exact .pure hs (r.holds_scalar trivial)
  | or => exact .pure hs (r.holds_scalar trivial)
  | _ => exact r.yields_compareBy _ hs

/-! ## Built-in functions -/

/-- The elements of an array are mapped to scalars, in a new array. -/
theorem yields_mapTexts (f : String → String) (hs : r.inv s) :
    r.Yields s (onMemory (Memory.mapTexts f v)) := by
  cases v with
  | array a =>
    show r.Yields s (onMemory (Step.look _ >>= fun values => Step.each _ values >>= fun results =>
      Memory.newArray results))
    rw [onMemory_bind]
    refine (idle_onMemory (.look _)).obeys_bind hs fun values _ => ?_
    rw [onMemory_bind, onMemory_each]
    have hone (w : Value) (t : Machine) (ht : r.inv t) :
        (onMemory (Memory.textOf w >>= fun x => pure (Value.str (f x)))).Obeys r.evaluating t
          fun x _ => x.IsScalar := by
      rw [onMemory_bind]
      exact (idle_textOf w).obeys_bind ht fun x _ => .pure ht trivial
    refine (Step.Obeys.each hs (fun _ _ _ _ h => h) fun w _ t ht _ => hone w t ht).bind ?_
    intro results t ht _ hscalars
    exact r.newArray ht fun w hw => r.holds_scalar (hscalars w hw)
  | _ => exact r.yields_text hs

theorem yields_filterGlob (wanted : Bool) (patterns : List (String → Bool)) (hs : r.inv s)
    (hv : r.holds s.memory v) : r.Yields s (Builtin.filterGlob wanted v patterns) := by
  cases v with
  | array a =>
    refine (Step.Idle.look _).obeys_bind hs fun values hvalues => ?_
    refine (idle_textsOf values).obeys_bind hs fun texts _ => ?_
    refine r.newArray hs fun w hw => ?_
    cases hvalues
    obtain ⟨e, he, rfl⟩ := List.mem_map.mp hw
    have hmem : e.1 ∈ s.memory.elements (.array a) :=
      (List.of_mem_zip (List.mem_filter.mp he).1).1
    exact r.holds_elements hs hv _ hmem
  | _ => exact r.yields_of_idle (idle_textOf _) (fun _ => trivial) hs

theorem yields_listFiles (argument : String) (hs : r.inv s) :
    r.Yields s (Builtin.listFiles argument) := by
  refine (Step.Idle.look _).obeys_bind hs fun path _ => ?_
  refine (Step.Idle.look _).obeys_bind hs fun names _ => ?_
  exact r.yields_newArray_str hs id names

theorem yields_changeDirectory (argument : String) (hs : r.inv s) :
    r.Yields s (Builtin.changeDirectory argument) := by
  refine (Step.Idle.look _).obeys_bind hs fun dir _ => ?_
  refine (Step.Idle.look _).obeys_bind hs fun isDir _ => ?_
  split
  · exact r.yields_of_aside (f := fun _ => .str dir) (Aside.changeRun _) (fun _ => trivial) hs
  · exact .fault hs

theorem yields_runProgram (captured : Bool) (args : List Value) (hs : r.inv s) :
    r.Yields s (Builtin.runProgram captured args) := by
  refine (Builtin.idle_commandWords args).obeys_bind hs fun argv _ => ?_
  cases argv with
  | nil => exact .fault hs
  | cons name rest =>
    refine Builtin.idle_childEnvironment.obeys_bind hs fun env _ => ?_
    refine (Step.Idle.look _).obeys_bind hs fun cwd _ => ?_
    refine (Step.Idle.look _).obeys_bind hs fun programs _ => ?_
    refine (r.obeys_of_aside (Aside.onFiles _).mapError hs).bind fun done t ht _ _ => ?_
    refine (r.obeys_of_aside (Aside.showProgram _ _ _) ht).bind fun _ u hu _ _ => ?_
    split
    · exact .fault hu
    · refine .pure hu (r.holds_scalar ?_)
      split <;> trivial

theorem yields_call (b : Builtin) (args : List Value) (hs : r.inv s)
    (hargs : ∀ v ∈ args, r.holds s.memory v) : r.Yields s (b.call args) := by
  have hscalar {m : Memory} {v : Value} (h : v.IsScalar) : r.holds m v := r.holds_scalar h
  have harg (i : Nat) : r.holds s.memory (args.getD i .void) := by
    rw [List.getD_eq_getElem?_getD]
    rcases h : args[i]? with - | v
    · exact hscalar trivial
    · exact hargs v (List.mem_of_getElem? h)
  have htext (i : Nat) : (textOf (args.getD i .void)).Idle := idle_textOf _
  cases b with
  | strlen => exact r.yields_of_idle (htext 0) (fun _ => trivial) hs
  | length => exact r.yields_of_idle (.look _) (fun _ => trivial) hs
  | replace =>
    refine (htext 1).obeys_bind hs fun what _ => ?_
    refine (htext 2).obeys_bind hs fun replacement _ => ?_
    exact r.yields_mapTexts _ hs
  | contains =>
    refine (htext 1).obeys_bind hs fun needle _ => ?_
    dsimp only
    split
    · refine (Step.Idle.look _).obeys_bind hs fun values _ => ?_
      exact r.yields_of_idle (idle_textsOf values) (fun _ => trivial) hs
    · exact r.yields_of_idle (htext 0) (fun _ => trivial) hs
  | implode =>
    have hjoined (sep : String) (a : ArrayId) : r.Yields s (do
        let values ← elementsOf (.array a)
        let texts ← textsOf values
        return .str (Text.Pieces.join sep texts)) := by
      refine (Step.Idle.look _).obeys_bind hs fun values _ => ?_
      exact r.yields_of_idle (idle_textsOf values) (fun _ => trivial) hs
    dsimp only [Builtin.call]
    split
    · refine (htext 1).obeys_bind hs fun sep _ => ?_
      split
      · exact hjoined sep _
      · exact .pure hs (harg 0)
    · split
      · exact hjoined " " _
      · exact .pure hs (harg 0)
  | explode =>
    have hrest (seps : String) : r.Yields s (textOf (args.getD 0 .void) >>= fun x =>
        onMemory (Memory.newArray
          ((Text.Pieces.words (fun c => seps.toList.contains c) x).map .str))) :=
      (htext 0).obeys_bind hs fun x _ => r.yields_newArray_str hs id _
    dsimp only [Builtin.call]
    split
    · exact (htext 1).obeys_bind hs fun seps _ => hrest seps
    · exact hrest Builtin.blanks
  | substr =>
    refine (htext 0).obeys_bind hs fun x _ => ?_
    exact r.yields_of_idle (Builtin.idle_bytePosition _ _ _) (fun _ => trivial) hs
  | charAt =>
    refine (htext 0).obeys_bind hs fun x _ => ?_
    exact r.yields_of_idle (Builtin.idle_bytePosition _ _ _) (fun _ => trivial) hs
  | chr => exact .pure hs (hscalar trivial)
  | ord => exact r.yields_of_idle (htext 0) (fun _ => trivial) hs
  | hex => exact .pure hs (hscalar trivial)
  | print =>
    refine (idle_textsOf args).obeys_bind hs fun texts _ => ?_
    exact r.yields_of_aside (Aside.print _) (fun _ => trivial) hs
  | println =>
    refine (idle_textsOf args).obeys_bind hs fun texts _ => ?_
    exact r.yields_of_aside (Aside.print _) (fun _ => trivial) hs
  | fail => exact (htext 0).obeys_bind hs fun x _ => .fault hs
  | matching =>
    refine (Builtin.idle_compileGlobs _).obeys_bind hs fun patterns _ => ?_
    exact r.yields_filterGlob _ _ hs (harg 0)
  | excluding =>
    refine (Builtin.idle_compileGlobs _).obeys_bind hs fun patterns _ => ?_
    exact r.yields_filterGlob _ _ hs (harg 0)
  | absPath => exact (Step.Idle.look _).obeys_bind hs fun run _ => r.yields_mapTexts _ hs
  | relPath =>
    refine (Step.Idle.look _).obeys_bind hs fun run _ => ?_
    dsimp only
    split
    · exact (idle_textOf _).obeys_bind hs fun x _ => r.yields_mapTexts _ hs
    · exact r.yields_mapTexts _ hs
  | dirName => exact r.yields_of_idle (htext 0) (fun _ => trivial) hs
  | fileName => exact r.yields_of_idle (htext 0) (fun _ => trivial) hs
  | sep =>
    cases args with
    | nil => exact .pure hs (hscalar trivial)
    | cons v rest => exact r.yields_mapTexts _ hs
  | cd => exact (htext 0).obeys_bind hs fun x _ => r.yields_changeDirectory x hs
  | cwd => exact r.yields_of_idle (.look _) (fun _ => trivial) hs
  | fileExists =>
    refine (htext 0).obeys_bind hs fun x _ => (Step.Idle.look _).obeys_bind hs fun path _ => ?_
    exact r.yields_of_idle (.look _) (fun _ => trivial) hs
  | files => exact (htext 0).obeys_bind hs fun x _ => r.yields_listFiles x hs
  | readFile =>
    refine (htext 0).obeys_bind hs fun x _ => (Step.Idle.look _).obeys_bind hs fun path _ => ?_
    refine (Step.Idle.look _).obeys_bind hs fun files _ => ?_
    split
    · exact .pure hs (hscalar trivial)
    · exact .fault hs
  | writeFile =>
    refine (htext 0).obeys_bind hs fun x _ => (Step.Idle.look _).obeys_bind hs fun path _ => ?_
    refine (htext 1).obeys_bind hs fun content _ => ?_
    exact r.yields_of_aside (Aside.onFiles _).mapError (fun _ => trivial) hs
  | mkdir =>
    refine (htext 0).obeys_bind hs fun x _ => (Step.Idle.look _).obeys_bind hs fun path _ => ?_
    exact r.yields_of_aside (Aside.onFiles _) (fun _ => trivial) hs
  | delete =>
    refine (Builtin.idle_flatten args).obeys_bind hs fun names _ => ?_
    have hone (name : String) : Aside (resolve name >>= fun path => onFiles (FileSystem.delete path)) :=
      (Aside.of_idle (.look _)).bind fun path => .onFiles _
    exact r.yields_of_aside (Aside.forAll hone names) (fun _ => trivial) hs
  | copy =>
    refine (idle_textOf _).obeys_bind hs fun target _ => ?_
    refine (Step.Idle.look _).obeys_bind hs fun target _ => ?_
    refine (Builtin.idle_flatten _).obeys_bind hs fun names _ => ?_
    refine r.yields_of_aside (Aside.forAll (fun name => ?_) names) (fun _ => trivial) hs
    exact (Aside.of_idle (.look _)).bind fun path => (Aside.onFiles _).mapError
  | run => exact r.yields_runProgram false args hs
  | capture => exact r.yields_runProgram true args hs
  | subrun => exact .pure hs (hscalar trivial)

end Regime

end Kiln
