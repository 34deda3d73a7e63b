import Kiln.Proofs.Eval.Equality
import Kiln.Proofs.Memory.Likeness
import Kiln.Proofs.Text.Joining

/-!
# Kiln.Proofs.Eval.Environment — the environment of a program

A script finds the variables of its host in `sys.env` and the search path, cut up, in `sys.path`; a
program gets what the two make up together.  While `sys` is as the script found it
(`Machine.Describes`) these are the variables of the host, but for the search path.  On the host every
variable counts as that whose name is PATH in any case of letters; a program always gets one PATH, with
the values of all of them, also where there is none (`environment_of_description`).
-/

namespace Kiln

open Kiln.Text

namespace Host

variable {h : Host}

/-! ## The variables of a host -/

/-- The variables other than the search path. -/
def plain (h : Host) : Table String := h.env.onKeys fun name => !isSearchPath name

/-- The variables of the search path. -/
def searchVariables (h : Host) : Table String := h.env.onKeys isSearchPath

/-- The variables other than the search path, and all of the search path under one name. -/
def exported (h : Host) : Table String :=
  h.plain.insert "PATH" (Pieces.join ":" h.searchVariables.values)

theorem join_searchPath (h : Host) :
    Pieces.join ":" h.searchPath = Pieces.join ":" h.searchVariables.values := by
  have hpieces := Pieces.join_flatMap_splitString Path.listSeparator h.searchVariables.values
  rw [Table.values, List.flatMap_map] at hpieces
  exact hpieces

theorem get?_exported (h : Host) (name : String) : h.exported.get? name =
    if name = "PATH" then some (Pieces.join ":" h.searchVariables.values)
    else if isSearchPath name then none else h.env.get? name := by
  rw [exported, Table.get?_insert, plain, Table.get?_onKeys]
  cases isSearchPath name <;> rfl

/-- Where PATH is the one variable of the search path, its value is all of the search path. -/
theorem join_searchVariables {value : String} (hvalue : h.env.get? "PATH" = some value)
    (halone : ∀ name, isSearchPath name = true → h.env.contains name = true → name = "PATH") :
    Pieces.join ":" h.searchVariables.values = value := by
  have hone : h.searchVariables = Table.empty.insert "PATH" value := by
    refine Table.ext_get? fun name => ?_
    rw [searchVariables, Table.get?_onKeys, Table.get?_insert]
    by_cases hname : name = "PATH"
    · subst hname
      rw [if_pos (by decide), if_pos rfl, hvalue]
    · rw [if_neg hname, Table.get?_empty]
      split
      · rename_i hsearch
        have hnot := mt (halone name hsearch) hname
        simpa [Table.contains] using hnot
      · rfl
  rw [hone]
  rfl

/-- What is exported is what was there just when PATH is the one variable of the search path. -/
theorem exported_eq_iff (h : Host) : h.exported = h.env ↔
    ∀ name, isSearchPath name = true → (h.env.contains name = true ↔ name = "PATH") := by
  constructor
  · intro heq name hsearch
    rw [Table.contains, ← heq, get?_exported]
    by_cases hname : name = "PATH"
    · simp [hname]
    · simp [hname, hsearch]
  · intro hnames
    obtain ⟨value, hvalue⟩ := Option.isSome_iff_exists.mp ((hnames "PATH" (by decide)).mpr rfl)
    have htext := join_searchVariables hvalue fun name hsearch => (hnames name hsearch).mp
    refine Table.ext_get? fun name => ?_
    rw [get?_exported, htext]
    by_cases hname : name = "PATH"
    · rw [if_pos hname, hname, hvalue]
    · rw [if_neg hname]
      split
      · rename_i hsearch
        have hnot := mt (hnames name hsearch).mp hname
        have hnone : h.env.get? name = none := by simpa [Table.contains] using hnot
        exact hnone.symm
      · rfl

/-! ## The description of a host -/

/-- The entries of the description, from what stands for texts, for numbers, for the variables and for
the directories. -/
def described {α : Type} (h : Host) (text : String → α) (number : Int32 → α) (env path : α) :
    List (String × α) :=
  [("platform", text "unix"), ("hostname", text h.hostname), ("username", text h.username),
    ("bits", number 64), ("env", env), ("path", path)]

/-- What the description of a host looks like. -/
def facts (h : Host) : List (String × Shape) :=
  h.described .str .int (.dict (h.plain.map Shape.str).entries) (.array (h.searchPath.map .str))

theorem shape_described (h : Host) (m : Memory) (n : Nat) (env path : Value) :
    (h.described .str .int env path).map (fun p => (p.1, m.shape n p.2)) =
      h.described .str .int (m.shape n env) (m.shape n path) := by
  simp only [described, List.map_cons, List.map_nil, Memory.shape_str, Memory.shape_int]

theorem holds_described {h : Host} {m : Memory} {env path : Value} (henv : m.Holds env)
    (hpath : m.Holds path) : ∀ p ∈ h.described .str .int env path, m.Holds p.2 := by
  simp only [described, List.forall_mem_cons]
  exact ⟨trivial, trivial, trivial, trivial, henv, hpath, by simp⟩

theorem describe_run (h : Host) {m : Memory} (hm : m.WellFormed) : ∃ sys m',
    h.describe m = (.ok sys, m') ∧ Memory.allocating.Leads m m' ∧ m'.Holds sys ∧
      ∀ n, m'.shape (n + 2) sys = .dict (Table.empty.withFirsts h.facts).entries := by
  let bindings := (h.plain.map Value.str).entries
  let dirs := h.searchPath.map Value.str
  let m₁ := (Memory.newDict bindings m).2
  let m₂ := (Memory.newArray dirs m₁).2
  let pairs := h.described Value.str .int (.dict ⟨m.dicts.size⟩) (.array ⟨m₁.arrays.size⟩)
  have hleads₁ : Memory.allocating.Leads m m₁ := Memory.leads_newDict hm (Memory.holds_bindings _)
  have hleads₂ : Memory.allocating.Leads m₁ m₂ :=
    Memory.leads_newArray hleads₁.finish (Memory.holds_texts _)
  have hheld : m₁.Holds (.dict ⟨m.dicts.size⟩) := Memory.holds_newDict bindings m
  have hpairs : ∀ p ∈ pairs, m₂.Holds p.2 :=
    holds_described (hleads₂.rel.1.holds hheld) (Memory.holds_newArray dirs m₁)
  have hleads₃ := Memory.leads_newDict hleads₂.finish hpairs
  have hrun : h.describe m = _ :=
    (Step.bind_run_ok (Memory.newDict_eq bindings m) _).trans
      ((Step.bind_run_ok (Memory.newArray_eq dirs m₁) _).trans (Memory.newDict_eq pairs m₂))
  refine ⟨_, _, hrun, hleads₁.trans (hleads₂.trans hleads₃), Memory.holds_newDict pairs m₂, ?_⟩
  intro n
  have henv : m₂.shape (n + 1) (.dict ⟨m.dicts.size⟩) = .dict (h.plain.map Shape.str).entries :=
    (hleads₂.rel.1.shape hleads₁.finish (n + 1) hheld).trans (Memory.shape_newDict_texts hm _ n)
  have hpath : m₂.shape (n + 1) (.array ⟨m₁.arrays.size⟩) = .array (h.searchPath.map .str) :=
    Memory.shape_newArray_texts hleads₁.finish h.searchPath n
  rw [Memory.shape_newDict hleads₂.finish hpairs, shape_described, henv, hpath]
  rfl

end Host

/-- The first variable of a scope on its own has the value it got, and whatever there is looks as it
does with one more cell. -/
theorem Memory.setVar_newScope (name : String) (v : Value) (m : Memory) : ∃ m',
    setVar ⟨m.scopes.size⟩ name v (newScope none m).2 = (.ok (), m') ∧
      m'.getVar ⟨m.scopes.size⟩ name = v ∧ ∀ n, m'.shape n = (m.withCells [v]).shape n := by
  let scope : ScopeId := ⟨m.scopes.size⟩
  let inside := (newScope none m).2
  have hscope : (inside.withCells [v]).HasScope scope := by
    simp [inside, scope, newScope, withCells, HasScope]
  have hempty : inside.scope scope = ⟨.empty, []⟩ := by
    simp [inside, scope, newScope, Memory.scope, Array.getD]
  have hunbound : (inside.scope scope).vars.get? name = none := by
    rw [hempty]
    rfl
  have hbinds : ((inside.withCells [v]).bound scope name ⟨inside.cells.size⟩).Binds scope name
      ⟨inside.cells.size⟩ := by
    rw [Binds, scope_bound_self hscope, Table.get?_insert_self]
  refine ⟨_, setVar_of_not_bound hunbound, ?_, fun n => ?_⟩
  · rw [getVar_of_binds hbinds]
    exact read_withCells_next inside v
  · exact shape_scopes (m.withCells [v]) _ n

namespace Machine

/-- The variable `sys` looks as the description of the host does when it is made. -/
def Describes (s : Machine) (h : Host) : Prop :=
  ∃ m sys m', m.WellFormed ∧ h.describe m = (.ok sys, m') ∧
    ∀ n, s.memory.shape n (s.memory.getVar s.frame.scope "sys") = m'.shape n sys

variable {s : Machine} {h : Host}

/-- A build file finds the description in place. -/
theorem describes_opened (hs : s.memory.WellFormed) (module : String) :
    (s.opened module).Describes s.host := by
  obtain ⟨sys, t, hdescribe, hleads, hsys, -⟩ := s.host.describe_run hs
  obtain ⟨u, hset, hget, hshape⟩ := Memory.setVar_newScope "sys" sys t
  have hrun : s.host.newScope s.memory = (.ok ⟨t.scopes.size⟩, u) :=
    (Step.bind_run_ok hdescribe _).trans
      ((Step.bind_run_ok (Memory.newScope_run none t) _).trans (Step.bind_run_ok hset _))
  have hmemory : (s.opened module).memory = u := congrArg Prod.snd hrun
  have hscope : (s.opened module).frame.scope = ⟨t.scopes.size⟩ :=
    congrArg (fun scopes => ScopeId.mk scopes.size) hleads.rel.2.symm
  refine ⟨s.memory, sys, t, hs, hdescribe, fun n => ?_⟩
  rw [hmemory, hscope, hget, hshape n]
  exact (Memory.extends_withCells t [sys]).shape hleads.finish n hsys

theorem childEnvironment_run (hs : s.Describes h) :
    Builtin.childEnvironment s = (.ok h.exported, s) := by
  obtain ⟨m, sys, m', hm, hrun, hsame⟩ := hs
  obtain ⟨sys', t, hrun', -, -, hshape⟩ := h.describe_run hm
  rw [hrun] at hrun'
  cases hrun'
  obtain ⟨d, hd, hcontents⟩ := Memory.exists_dict_of_shape ((hsame 3).trans (hshape 1))
  have henv := Memory.shape_entry "env" hcontents (Table.get?_withFirsts _ _ _)
  have hpath := Memory.shape_entry "path" hcontents (Table.get?_withFirsts _ _ _)
  obtain ⟨e, he, hvariables⟩ := Memory.exists_dict_of_shape henv
  obtain ⟨p, hp, hdirs⟩ := Memory.exists_array_of_shape hpath
  have hplain : s.memory.contents e = h.plain.map .str := Memory.contents_of_shape hvariables
  have hkeys : (s.memory.entries e).keys = h.plain.keys := by
    rw [← Table.keys_map s.memory.read, ← Table.keys_map Value.str h.plain]
    exact congrArg Table.keys hplain
  have hvalues : s.Forms ((s.memory.entries e).keys.map (s.memory.entry e)) h.plain.values := by
    rw [Memory.keys_map_entry, hplain, Table.values_map]
    exact forms_str _
  have hforms : s.Forms (s.memory.elements (.array p)) h.searchPath := by
    rw [Memory.elements_of_shape hdirs]
    exact forms_str _
  have hget : Action.getVar "sys" s = (.ok (.dict d), s) :=
    Prod.ext (congrArg Outcome.ok hd) rfl
  refine (Step.bind_run_ok (rfl : Step.state s = (.ok s, s)) _).trans ?_
  refine (Step.bind_run_ok hget _).trans ?_
  simp only [he, hp]
  refine (Step.bind_run_ok (textsOf_of_forms hvalues) _).trans ?_
  refine (Step.bind_run_ok (textsOf_of_forms hforms) _).trans ?_
  rw [hkeys, Table.zip_keys_values, Table.ofList_entries, Host.exported, ← h.join_searchPath]
  rfl

end Machine

/-- As long as a script leaves `sys` as it finds it, a program gets the variables of the host, but for
those of the search path: it gets the values of all these together under the name PATH.  So it gets
what the host has if PATH is the one variable of the search path, and something else if there is none
or another one. -/
theorem environment_of_description (h : Host) :
    (∀ (s : Machine) (module : String), s.host = h → s.memory.WellFormed →
      (s.opened module).Describes h) ∧
    ∀ s : Machine, s.Describes h → ∃ env,
      Builtin.childEnvironment s = (.ok env, s) ∧
      (∀ name, Host.isSearchPath name = false → env.get? name = h.env.get? name) ∧
      (∀ name, Host.isSearchPath name = true → name ≠ "PATH" → env.get? name = none) ∧
      env.get? "PATH" = some (Pieces.join ":" (h.env.onKeys Host.isSearchPath).values) ∧
      (env = h.env ↔ ∀ name, Host.isSearchPath name = true →
        (h.env.contains name = true ↔ name = "PATH")) := by
  refine ⟨fun s module hhost hs => ?_, fun s hs => ?_⟩
  · rw [← hhost]
    exact s.describes_opened hs module
  refine ⟨h.exported, s.childEnvironment_run hs, ?_, ?_, ?_, h.exported_eq_iff⟩
  · intro name hplain
    have hname : name ≠ "PATH" := by
      rintro rfl
      exact absurd hplain (by decide)
    rw [Host.get?_exported, if_neg hname, hplain]
    rfl
  · intro name hsearch hname
    rw [Host.get?_exported, if_neg hname, if_pos hsearch]
  · rw [Host.get?_exported, if_pos rfl]
    rfl

/-- A build file that was just opened on a host with the given variables. -/
def Machine.hostedBy (pairs : List (String × String)) : Machine :=
  let host : Host := { Machine.blank.host with env := Table.ofList pairs }
  ({ Machine.blank with memory := .empty, host } : Machine).opened "/m"

/-- Empty directories of PATH come back, but without PATH a program gets an empty one, and `path` is
handed on as a part of PATH. -/
theorem environment_of_description_paths :
    let whole := Machine.hostedBy [("HOME", "/h"), ("PATH", "/bin::/x")]
    let pathless := Machine.hostedBy [("HOME", "/h")]
    let doubled := Machine.hostedBy [("PATH", "/bin"), ("path", "x")]
    Memory.empty.WellFormed ∧
    (∃ env, Builtin.childEnvironment whole = (.ok env, whole) ∧ env = whole.host.env) ∧
    (∃ env, Builtin.childEnvironment pathless = (.ok env, pathless) ∧
      env.get? "PATH" = some "" ∧ pathless.host.env.get? "PATH" = none) ∧
    ∃ env, Builtin.childEnvironment doubled = (.ok env, doubled) ∧
      env.get? "PATH" = some "/bin:x" ∧ env.get? "path" = none ∧
      doubled.host.env.get? "path" = some "x" := by
  intro whole pathless doubled
  have hopened (pairs : List (String × String)) :
      (Machine.hostedBy pairs).Describes { Machine.blank.host with env := Table.ofList pairs } :=
    (environment_of_description _).1 _ "/m" rfl Memory.wellFormed_empty
  refine ⟨Memory.wellFormed_empty, ?_, ?_, ?_⟩
  · obtain ⟨env, hrun, -, -, -, hsame⟩ := (environment_of_description _).2 whole (hopened _)
    refine ⟨env, hrun, hsame.mpr fun name hsearch => ⟨fun hin => ?_, ?_⟩⟩
    · have hkeys : name ∈ ["HOME", "PATH"] := Table.mem_keys_iff.mpr hin
      simp only [List.mem_cons, List.not_mem_nil, or_false] at hkeys
      rcases hkeys with rfl | rfl
      · exact absurd hsearch (by decide)
      · rfl
    · rintro rfl
      rfl
  · obtain ⟨env, hrun, -, -, hpath, -⟩ := (environment_of_description _).2 pathless (hopened _)
    exact ⟨env, hrun, hpath, rfl⟩
  · obtain ⟨env, hrun, -, hlost, hpath, -⟩ := (environment_of_description _).2 doubled (hopened _)
    exact ⟨env, hrun, hpath, hlost "path" (by decide) (by decide), rfl⟩

end Kiln
