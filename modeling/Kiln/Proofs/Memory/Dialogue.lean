import Mathlib.Logic.Relation
import Kiln.Proofs.Eval.Scopes

/-!
# Kiln.Proofs.Memory.Dialogue — what is asked of variables

Scopes are made on their own or inside of one another, and variables are read and written in them in
any order, by name or through the cells that were handed out.  A `Dialogue` lists what was asked with
the answers, so which scope is inside of which, and whose cell is whose, is told by what was said; it
is `Coherent` if the memory agrees.

Reading a variable gives what is in the cell of the nearest scope that binds it.  Every operation that
changes variables is a `Puts`: it binds one name of one scope to a value and leaves all other
variables alone.  So it changes what is read of that name where the nearest scope is that one, and
nothing else (`sees_put`, `sees_other`); and a cell that is made with the value visible so far changes
nothing (`sees_snapshot`).
-/

namespace Kiln

/-- What can be asked of variables. -/
inductive Request where
  | root
  | child (outer : ScopeId)
  | get (s : ScopeId) (name : String)
  | set (s : ScopeId) (name : String) (v : Value)
  | ref (s : ScopeId) (name : String)
  | write (c : CellId) (v : Value)
  | isLocal (s : ScopeId) (name : String)

/-- What is answered. -/
inductive Reply where
  | done
  | scope (s : ScopeId)
  | value (v : Value)
  | cell (c : CellId)
  | truth (b : Bool)
  deriving DecidableEq

/-- Does what is asked. -/
def Request.perform : Request → Step Memory Reply
  | .root => do
    let s ← Memory.newScope none
    return .scope s
  | .child outer => do
    let s ← Memory.newScope (some outer)
    return .scope s
  | .get s name => do
    let v ← Step.look fun m => m.getVar s name
    return .value v
  | .set s name v => do
    Memory.setVar s name v
    return .done
  | .ref s name => do
    let c ← Memory.varCell s name
    return .cell c
  | .write c v => do
    Memory.write c v
    return .done
  | .isLocal s name => do
    let b ← Step.look fun m => m.isLocal s name
    return .truth b

/-- The request leaves the scope with a binding of the name. -/
def Request.Binds (r : Request) (s : ScopeId) (name : String) : Prop :=
  (∃ v, r = .set s name v) ∨ r = .ref s name

/-- The request changes the value of a variable. -/
def Request.Assigns : Request → Prop
  | .set _ _ _ | .write _ _ => True
  | _ => False

/-- What was asked and answered so far, the latest first, and the memory it led to. -/
structure Dialogue where
  exchanges : List (Request × Reply)
  memory : Memory

namespace Dialogue

/-- The scope was handed out. -/
def Knows (d : Dialogue) (s : ScopeId) : Prop := ∃ r, (r, .scope s) ∈ d.exchanges

/-- The cell was handed out for a variable. -/
def Lends (d : Dialogue) (s : ScopeId) (name : String) (c : CellId) : Prop :=
  (.ref s name, .cell c) ∈ d.exchanges

/-- The scope was made inside of the other. -/
def Inside (d : Dialogue) (s outer : ScopeId) : Prop := (.child outer, .scope s) ∈ d.exchanges

/-- Only scopes and cells that were handed out can be asked about, and only values that exist can be
assigned. -/
def Admits (d : Dialogue) : Request → Prop
  | .root => True
  | .child s | .get s _ | .ref s _ | .isLocal s _ => d.Knows s
  | .set s _ v => d.Knows s ∧ d.memory.Holds v
  | .write c v => (∃ s name, d.Lends s name c) ∧ d.memory.Holds v

/-- The request is answered, which leads from one dialogue to the other. -/
structure Answers (d : Dialogue) (r : Request) (a : Reply) (d' : Dialogue) : Prop where
  admits : d.Admits r
  run : r.perform d.memory = (.ok a, d'.memory)
  noted : d'.exchanges = (r, a) :: d.exchanges

/-- The dialogue goes on, by any number of requests. -/
def GoesOn : Dialogue → Dialogue → Prop :=
  Relation.ReflTransGen fun d d' => ∃ r a, d.Answers r a d'

/-- Of the scopes from `s` outwards, `home` is the first that binds the name. -/
inductive Nearest (d : Dialogue) (name : String) : ScopeId → ScopeId → CellId → Prop
  | here {s : ScopeId} {c : CellId} : d.memory.Binds s name c → Nearest d name s s c
  | outer {s outer home : ScopeId} {c : CellId} : (∀ c, ¬ d.memory.Binds s name c) →
      d.Inside s outer → Nearest d name outer home c → Nearest d name s home c

/-- What is read of a name in a scope. -/
def sees (d : Dialogue) (s : ScopeId) (name : String) : Value := d.memory.getVar s name

end Dialogue

/-! ## Putting a value into a variable -/

namespace Memory

variable {m m' : Memory} {s s' : ScopeId} {name name' : String} {c : CellId} {v : Value}

/-- One name of one scope is bound and has a value now; everything else is as it was. -/
structure Puts (m m' : Memory) (s : ScopeId) (name : String) (v : Value) : Prop where
  scopes : m'.scopes.size = m.scopes.size
  around : ∀ s', (m'.scope s').around = (m.scope s').around
  others : ∀ {s' name'}, ¬ (s' = s ∧ name' = name) → ∀ c, m'.Binds s' name' c ↔ m.Binds s' name' c
  values : ∀ {s' name' c}, ¬ (s' = s ∧ name' = name) → m.Binds s' name' c → m'.read c = m.read c
  put : ∃ c, m'.Binds s name c ∧ m'.read c = v
  stays : ∀ {c}, m.Binds s name c → m'.Binds s name c

theorem WellFormed.puts_written (hm : m.WellFormed) (hc : m.Binds s name c) :
    Puts m (m.written c v) s name v where
  scopes := rfl
  around _ := rfl
  others _ _ := Iff.rfl
  values hne hc' := by
    refine read_written_of_ne fun heq => hne ?_
    subst heq
    exact hm.unique hc' hc
  put := ⟨c, hc, read_written_self (hm.bound hc)⟩
  stays := id

theorem WellFormed.puts_bound (hm : m.WellFormed) (hs : m.HasScope s)
    (hname : ∀ c, ¬ m.Binds s name c) :
    Puts m ((m.withCells [v]).bound s name ⟨m.cells.size⟩) s name v where
  scopes := by simp [Memory.bound, Memory.withCells, Memory.bind, Step.change]
  around _ := around_bound (m := m.withCells [v]) hs
  others hne c := (binds_bound_iff (m := m.withCells [v]) hs).trans (iff_of_eq (if_neg hne))
  values hne hc := read_withCells [v] (hm.bound hc)
  put := by
    refine ⟨⟨m.cells.size⟩, (binds_bound_iff (m := m.withCells [v]) hs).mpr ?_, ?_⟩
    · rw [if_pos ⟨rfl, rfl⟩]
    · exact read_withCells_next m v
  stays hc := absurd hc (hname _)

theorem WellFormed.puts_setVar (hm : m.WellFormed) (hs : m.HasScope s)
    (hrun : setVar s name v m = (.ok (), m')) : Puts m m' s name v := by
  cases hname : (m.scope s).vars.get? name with
  | some c =>
    rw [setVar_of_bound hname] at hrun
    cases hrun
    exact hm.puts_written hname
  | none =>
    rw [setVar_of_not_bound hname] at hrun
    cases hrun
    exact hm.puts_bound hs (get?_eq_none_iff.mp hname)

/-- The cell of a variable is bound with the value that was visible. -/
theorem WellFormed.puts_varCell (hm : m.WellFormed) (hs : m.HasScope s)
    (hrun : varCell s name m = (.ok c, m')) :
    Puts m m' s name (m.getVar s name) ∧ m'.Binds s name c := by
  cases hname : (m.scope s).vars.get? name with
  | some c' =>
    have hbinds : m.Binds s name c' := hname
    rw [varCell_of_bound hbinds] at hrun
    cases hrun
    refine ⟨⟨rfl, fun _ => rfl, fun _ _ => Iff.rfl, fun _ _ => rfl, ?_, id⟩, hbinds⟩
    exact ⟨c, hbinds, (getVar_of_binds hbinds).symm⟩
  | none =>
    rw [varCell_of_not_bound hname] at hrun
    cases hrun
    refine ⟨hm.puts_bound hs (get?_eq_none_iff.mp hname), ?_⟩
    refine (binds_bound_iff (m := m.withCells [_]) hs).mpr ?_
    rw [if_pos ⟨rfl, rfl⟩]

end Memory

/-! ## What holds after every request -/

namespace Dialogue

variable {d d' : Dialogue} {s s' home : ScopeId} {name name' : String} {c : CellId} {v : Value}

/-- What was said describes the memory. -/
structure Coherent (d : Dialogue) : Prop where
  wellFormed : d.memory.WellFormed
  exist : ∀ {s}, d.Knows s ↔ d.memory.HasScope s
  around : ∀ {s outer}, d.Inside s outer →
    (d.memory.scope s).around = outer :: (d.memory.scope outer).around
  root : ∀ {s}, (∀ outer, ¬ d.Inside s outer) → (d.memory.scope s).around = []
  lent : ∀ {s name c}, d.Lends s name c → d.memory.Binds s name c
  bound : ∀ {s name}, (∃ c, d.memory.Binds s name c) ↔ ∃ e ∈ d.exchanges, e.1.Binds s name

namespace Coherent

/-- A fact about a scope that follows from the same fact about the scope around it. -/
theorem inward (h : d.Coherent) {P : ScopeId → Prop}
    (step : ∀ s, (∀ outer, d.Inside s outer → P outer) → P s) (s : ScopeId) : P s := by
  suffices hall : ∀ n s, (d.memory.scope s).around.length = n → P s from hall _ s rfl
  intro n
  induction n with
  | zero =>
    intro s hs
    refine step s fun outer hinside => ?_
    rw [h.around hinside] at hs
    cases hs
  | succ n ih =>
    intro s hs
    refine step s fun outer hinside => ih outer ?_
    rw [h.around hinside] at hs
    simpa using hs

theorem sees_of_nearest (h : d.Coherent) (hnearest : d.Nearest name s home c) :
    d.memory.Binds home name c ∧ d.sees s name = d.memory.read c := by
  induction hnearest with
  | here hbinds => exact ⟨hbinds, Memory.getVar_of_binds hbinds⟩
  | outer hnone hinside _ ih =>
    exact ⟨ih.1, (Memory.getVar_of_around hnone (h.around hinside)).trans ih.2⟩

/-- A name that no scope of the chain binds is void. -/
theorem sees_of_unbound (h : d.Coherent) :
    (∀ home c, ¬ d.Nearest name s home c) → d.sees s name = .void := by
  refine h.inward (P := fun s => (∀ home c, ¬ d.Nearest name s home c) → d.sees s name = .void)
    (fun s ih hnone => ?_) s
  have hunbound : ∀ c, ¬ d.memory.Binds s name c := fun c hc => hnone s c (.here hc)
  by_cases hinside : ∃ outer, d.Inside s outer
  · obtain ⟨outer, hinside⟩ := hinside
    have houter := ih outer hinside fun home c hc => hnone home c (.outer hunbound hinside hc)
    exact (Memory.getVar_of_around hunbound (h.around hinside)).trans houter
  · exact Memory.getVar_of_root hunbound (h.root fun outer ho => hinside ⟨outer, ho⟩)

end Coherent

/-- Scopes with the same bindings, values and scopes around them, in which the same is read. -/
theorem sees_congr (h : d.Coherent) (h' : d'.Coherent) (Q : ScopeId → Prop)
    (hbinds : ∀ s c, Q s → (d'.memory.Binds s name c ↔ d.memory.Binds s name c))
    (hvalues : ∀ s c, Q s → d.memory.Binds s name c → d'.memory.read c = d.memory.read c)
    (hinside : ∀ s outer, Q s → (d'.Inside s outer ↔ d.Inside s outer))
    (hQ : ∀ s outer, Q s → (∀ c, ¬ d'.memory.Binds s name c) → d.Inside s outer → Q outer)
    (s : ScopeId) : Q s → d'.sees s name = d.sees s name := by
  refine h.inward (P := fun s => Q s → d'.sees s name = d.sees s name) (fun s ih hs => ?_) s
  by_cases hbound : ∃ c, d.memory.Binds s name c
  · obtain ⟨c, hc⟩ := hbound
    have hc' := (hbinds s c hs).mpr hc
    exact (Memory.getVar_of_binds hc').trans
      ((hvalues s c hs hc).trans (Memory.getVar_of_binds hc).symm)
  · have hnone : ∀ c, ¬ d.memory.Binds s name c := fun c hc => hbound ⟨c, hc⟩
    have hnone' : ∀ c, ¬ d'.memory.Binds s name c := fun c hc => hnone c ((hbinds s c hs).mp hc)
    by_cases houter : ∃ outer, d.Inside s outer
    · obtain ⟨outer, houter⟩ := houter
      have haround' := h'.around ((hinside s outer hs).mpr houter)
      exact (Memory.getVar_of_around hnone' haround').trans ((ih outer houter
        (hQ s outer hs hnone' houter)).trans (Memory.getVar_of_around hnone (h.around houter)).symm)
    · have hroot : ∀ outer, ¬ d.Inside s outer := fun outer ho => houter ⟨outer, ho⟩
      have hroot' : ∀ outer, ¬ d'.Inside s outer := fun outer ho =>
        hroot outer ((hinside s outer hs).mp ho)
      exact (Memory.getVar_of_root hnone' (h'.root hroot')).trans
        (Memory.getVar_of_root hnone (h.root hroot)).symm

/-! ### Putting -/

/-- Where the nearest binding is the one that was put, its value is read. -/
theorem Coherent.sees_put {m : Memory} (h' : d'.Coherent) (hputs : m.Puts d'.memory s name v)
    (hnearest : ∃ c, d'.Nearest name s' s c) : d'.sees s' name = v := by
  obtain ⟨c, hc⟩ := hnearest
  obtain ⟨hbinds, hsees⟩ := h'.sees_of_nearest hc
  obtain ⟨c', hbinds', hread⟩ := hputs.put
  have heq : c = c' := Option.some.inj (hbinds.symm.trans hbinds')
  rw [hsees, heq, hread]

section Putting

variable (h : d.Coherent) (h' : d'.Coherent) (hputs : d.memory.Puts d'.memory s name v)
  (hinside : ∀ s outer, d'.Inside s outer ↔ d.Inside s outer)

include h h' hputs hinside

/-- Everywhere else the same value is read as before. -/
theorem sees_other (hnearest : ¬ (name' = name ∧ ∃ c, d'.Nearest name s' s c)) :
    d'.sees s' name' = d.sees s' name' := by
  have hne : ∀ s', ¬ (name' = name ∧ ∃ c, d'.Nearest name s' s c) →
      ¬ (s' = s ∧ name' = name) := by
    rintro s' hs' ⟨rfl, rfl⟩
    obtain ⟨c, hc, -⟩ := hputs.put
    exact hs' ⟨rfl, c, .here hc⟩
  refine sees_congr h h' (fun s' => ¬ (name' = name ∧ ∃ c, d'.Nearest name s' s c))
    (fun s' c hs' => hputs.others (hne s' hs') c) (fun s' c hs' hc => hputs.values (hne s' hs') hc)
    (fun s' outer _ => hinside s' outer) (fun s' outer hs' hnone houter => ?_) s' hnearest
  rintro ⟨rfl, c, hc⟩
  exact hs' ⟨rfl, c, .outer hnone ((hinside _ _).mpr houter) hc⟩

/-- The scopes on the way to a binding that was put did not bind the name before. -/
theorem sees_behind (hnearest : d'.Nearest name s' s c) : d.sees s' name = d.sees s name := by
  induction hnearest with
  | here => rfl
  | @outer s₁ outer home c hnone houter hrest ih =>
    have hne : ¬ (s₁ = home ∧ name = name) := by
      rintro ⟨rfl, -⟩
      exact hnone c (h'.sees_of_nearest hrest).1
    have hnone' : ∀ c, ¬ d.memory.Binds s₁ name c := fun c hc =>
      hnone c ((hputs.others hne c).mpr hc)
    exact (Memory.getVar_of_around hnone' (h.around ((hinside _ _).mp houter))).trans (ih hputs)

/-- What is put with the value that was visible is not seen anywhere. -/
theorem sees_snapshot (hv : v = d.sees s name) (s' : ScopeId) (name' : String) :
    d'.sees s' name' = d.sees s' name' := by
  by_cases hnearest : name' = name ∧ ∃ c, d'.Nearest name s' s c
  · obtain ⟨rfl, c, hc⟩ := hnearest
    rw [h'.sees_put hputs ⟨c, hc⟩, hv, sees_behind h h' hputs hinside hc]
  · exact sees_other h h' hputs hinside hnearest

end Putting

end Dialogue

end Kiln
