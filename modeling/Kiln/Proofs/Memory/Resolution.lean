import Kiln.Proofs.Memory.Dialogue

/-!
# Kiln.Proofs.Memory.Resolution — which scope a variable is found in

What each request does to the memory, and that all of them keep a dialogue coherent.  From this follow
the laws of variables after any number of requests (`Dialogue.Resolves`).
-/

namespace Kiln

/-! A new scope is asked for with a scope outside of it or without one. -/

theorem Request.root_eq : Request.root = (none : Option ScopeId).elim .root .child := rfl

theorem Request.child_eq (outer : ScopeId) :
    Request.child outer = (some outer).elim .root .child := rfl

namespace Dialogue

variable {d d' : Dialogue} {s s' : ScopeId} {name : String} {c : CellId} {v : Value} {r : Request}
  {a : Reply}

/-! ## What each request does -/

theorem perform_ok (r : Request) (m : Memory) : ∃ a, (r.perform m).1 = .ok a := by
  cases r with
  | root | child | get | write | isLocal => exact ⟨_, rfl⟩
  | set s name v =>
    obtain ⟨m', hrun⟩ := Memory.setVar_ok s name v m
    exact ⟨_, (Prod.ext_iff.mp (Step.bind_run_ok hrun _)).1⟩
  | ref s name =>
    cases hname : (m.scope s).vars.get? name with
    | some c => exact ⟨_, (Prod.ext_iff.mp (Step.bind_run_ok (Memory.varCell_of_bound hname) _)).1⟩
    | none =>
      exact ⟨_, (Prod.ext_iff.mp (Step.bind_run_ok (Memory.varCell_of_not_bound hname) _)).1⟩

/-- The dialogue with one more request and its answer. -/
def after (d : Dialogue) (r : Request) (a : Reply) : Dialogue :=
  ⟨(r, a) :: d.exchanges, (r.perform d.memory).2⟩

theorem answers_after (hadmits : d.Admits r) (ha : (r.perform d.memory).1 = .ok a) :
    d.Answers r a (d.after r a) :=
  ⟨hadmits, Prod.ext ha rfl, rfl⟩

theorem GoesOn.after (h : d.GoesOn d') (hadmits : d'.Admits r)
    (ha : (r.perform d'.memory).1 = .ok a) : d.GoesOn (d'.after r a) :=
  h.tail ⟨r, a, answers_after hadmits ha⟩

namespace Answers

theorem inside_iff (h : d.Answers r a d') (ha : ∀ s, a ≠ .scope s) (s outer : ScopeId) :
    d'.Inside s outer ↔ d.Inside s outer := by
  rw [Inside, h.noted, List.mem_cons, or_iff_right]
  · rfl
  · intro heq
    exact ha s (Prod.ext_iff.mp heq).2.symm

theorem knows_iff (h : d.Answers r a d') (ha : ∀ s, a ≠ .scope s) (s : ScopeId) :
    d'.Knows s ↔ d.Knows s := by
  refine exists_congr fun r' => ?_
  rw [h.noted, List.mem_cons, or_iff_right]
  intro heq
  exact ha s (Prod.ext_iff.mp heq).2.symm

theorem get (h : d.Answers (.get s name) a d') :
    a = .value (d.sees s name) ∧ d'.memory = d.memory := by
  have hrun := h.run
  exact ⟨(Outcome.ok.inj (Prod.ext_iff.mp hrun).1).symm, (Prod.ext_iff.mp hrun).2.symm⟩

theorem isLocal (h : d.Answers (.isLocal s name) a d') :
    a = .truth (d.memory.isLocal s name) ∧ d'.memory = d.memory := by
  have hrun := h.run
  exact ⟨(Outcome.ok.inj (Prod.ext_iff.mp hrun).1).symm, (Prod.ext_iff.mp hrun).2.symm⟩

theorem set (hd : d.Coherent) (h : d.Answers (.set s name v) a d') :
    a = .done ∧ d.memory.Puts d'.memory s name v ∧ d'.memory.WellFormed := by
  obtain ⟨hs, hv⟩ := h.admits
  have hexists := hd.exist.mp hs
  obtain ⟨_, m, hrun, hdone⟩ := Step.bind_eq_ok.mp h.run
  cases hdone
  have hwell := (Memory.tidy_setVar name hd.wellFormed hexists hv).inv
  rw [hrun] at hwell
  exact ⟨rfl, hd.wellFormed.puts_setVar hexists hrun, hwell⟩

theorem ref (hd : d.Coherent) (h : d.Answers (.ref s name) a d') :
    ∃ c, a = .cell c ∧ d'.memory.Binds s name c ∧
      d.memory.Puts d'.memory s name (d.sees s name) ∧ d'.memory.WellFormed := by
  have hexists := hd.exist.mp h.admits
  obtain ⟨c, m, hrun, hdone⟩ := Step.bind_eq_ok.mp h.run
  cases hdone
  have hwell := (Memory.tidy_varCell name hd.wellFormed hexists).inv
  rw [hrun] at hwell
  obtain ⟨hputs, hbinds⟩ := hd.wellFormed.puts_varCell hexists hrun
  exact ⟨c, rfl, hbinds, hputs, hwell⟩

theorem write (hd : d.Coherent) (h : d.Answers (.write c v) a d') (hlent : d.Lends s name c) :
    a = .done ∧ d.memory.Puts d'.memory s name v ∧ d'.memory.WellFormed := by
  obtain ⟨-, hv⟩ := h.admits
  obtain ⟨_, m, hrun, hdone⟩ := Step.bind_eq_ok.mp h.run
  cases hdone
  have hwritten : d'.memory = d.memory.written c v := (Prod.ext_iff.mp hrun).2.symm
  rw [hwritten]
  exact ⟨rfl, hd.wellFormed.puts_written (hd.lent hlent), hd.wellFormed.written hv⟩

theorem newScope {outer : Option ScopeId} (hr : r = outer.elim .root .child)
    (h : d.Answers r a d') : a = .scope ⟨d.memory.scopes.size⟩ ∧
      d'.memory = (Memory.newScope outer d.memory).2 := by
  have hrun := h.run
  cases outer <;> subst hr <;>
    exact ⟨(Outcome.ok.inj (Prod.ext_iff.mp hrun).1).symm, (Prod.ext_iff.mp hrun).2.symm⟩

end Answers

/-! ## Coherence -/

namespace Coherent

/-- Nothing was changed. -/
theorem looks (h : d.Coherent) (hanswers : d.Answers r a d') (hmemory : d'.memory = d.memory)
    (hscope : ∀ s, a ≠ .scope s) (hcell : ∀ c, a ≠ .cell c) (hr : ∀ s name, ¬ r.Binds s name) :
    d'.Coherent where
  wellFormed := hmemory ▸ h.wellFormed
  exist := by
    intro s
    rw [hanswers.knows_iff hscope, hmemory]
    exact h.exist
  around hinside := by
    rw [hmemory]
    exact h.around ((hanswers.inside_iff hscope _ _).mp hinside)
  root hroot := by
    rw [hmemory]
    exact h.root fun outer ho => hroot outer ((hanswers.inside_iff hscope _ _).mpr ho)
  lent {s name c} hlent := by
    rw [hmemory]
    rw [Lends, hanswers.noted] at hlent
    rcases List.mem_cons.mp hlent with heq | hlent
    · exact absurd (Prod.ext_iff.mp heq).2.symm (hcell c)
    · exact h.lent hlent
  bound {s name} := by
    rw [hmemory, h.bound, hanswers.noted]
    simp [hr s name]

/-- A value was put into one variable. -/
theorem puts (h : d.Coherent) (hanswers : d.Answers r a d')
    (hputs : d.memory.Puts d'.memory s name v) (hwell : d'.memory.WellFormed)
    (hscope : ∀ s, a ≠ .scope s) (hcell : ∀ c, a = .cell c → d'.memory.Binds s name c)
    (hr : ∀ s' name', r.Binds s' name' → s' = s ∧ name' = name)
    (hbinds : r.Binds s name ∨ ∃ c, d.memory.Binds s name c) : d'.Coherent where
  wellFormed := hwell
  exist := by
    intro s'
    rw [hanswers.knows_iff hscope, Memory.HasScope, hputs.scopes]
    exact h.exist
  around hinside := by
    rw [hputs.around, hputs.around]
    exact h.around ((hanswers.inside_iff hscope _ _).mp hinside)
  root hroot := by
    rw [hputs.around]
    exact h.root fun outer ho => hroot outer ((hanswers.inside_iff hscope _ _).mpr ho)
  lent {s' name' c} hlent := by
    rw [Lends, hanswers.noted] at hlent
    rcases List.mem_cons.mp hlent with heq | hlent
    · obtain ⟨hreq, hrep⟩ := Prod.ext_iff.mp heq
      obtain ⟨rfl, rfl⟩ := hr s' name' (.inr hreq.symm)
      exact hcell c hrep.symm
    · have hold := h.lent hlent
      by_cases hsame : s' = s ∧ name' = name
      · obtain ⟨rfl, rfl⟩ := hsame
        exact hputs.stays hold
      · exact (hputs.others hsame c).mpr hold
  bound {s' name'} := by
    simp only [hanswers.noted, List.mem_cons, exists_eq_or_imp]
    rw [← h.bound]
    by_cases hsame : s' = s ∧ name' = name
    · obtain ⟨rfl, rfl⟩ := hsame
      obtain ⟨c, hc, -⟩ := hputs.put
      exact iff_of_true ⟨c, hc⟩ hbinds
    · rw [or_iff_right fun hb => hsame (hr s' name' hb)]
      exact exists_congr fun c => hputs.others hsame c

section NewScope

variable {outer : Option ScopeId} (h : d.Coherent) (hr : r = outer.elim .root .child)
  (hanswers : d.Answers r a d')

include hr hanswers

theorem inside_newScope_iff : d'.Inside s s' ↔
    (outer = some s' ∧ s = ⟨d.memory.scopes.size⟩) ∨ d.Inside s s' := by
  rw [Inside, hanswers.noted, List.mem_cons, Inside, (hanswers.newScope hr).1, hr]
  refine or_congr_left ?_
  cases outer <;> simp [eq_comm]

theorem knows_newScope_iff : d'.Knows s ↔ s = ⟨d.memory.scopes.size⟩ ∨ d.Knows s := by
  simp only [Knows, hanswers.noted, (hanswers.newScope hr).1, List.mem_cons, Prod.mk.injEq,
    Reply.scope.injEq, exists_or, exists_eq_left]

theorem scope_of_old (hs : d.memory.HasScope s) : d'.memory.scope s = d.memory.scope s := by
  rw [(hanswers.newScope hr).2, Memory.scope_newScope, if_neg (Nat.ne_of_lt hs)]

include h

theorem outer_exists : ∀ o, outer = some o → d.memory.HasScope o := by
  rintro o rfl
  have hadmits := hanswers.admits
  subst hr
  exact h.exist.mp hadmits

/-- The new scope has the one it was made in around it, and the others what they had. -/
theorem around_newScope (hinside : d'.Inside s s') :
    (d'.memory.scope s).around = s' :: (d'.memory.scope s').around := by
  rcases (inside_newScope_iff hr hanswers).mp hinside with ⟨rfl, rfl⟩ | hinside
  · rw [scope_of_old hr hanswers (h.outer_exists hr hanswers s' rfl), (hanswers.newScope hr).2,
      Memory.scope_newScope, if_pos rfl]
  · have haround := h.around hinside
    have hs : d.memory.HasScope s := h.exist.mp ⟨_, hinside⟩
    have hs' : d.memory.HasScope s' := by
      refine h.wellFormed.around (s := s) ?_
      rw [haround]
      exact List.mem_cons_self
    rw [scope_of_old hr hanswers hs, scope_of_old hr hanswers hs', haround]

theorem root_newScope (hroot : ∀ o, ¬ d'.Inside s o) : (d'.memory.scope s).around = [] := by
  have hold : ∀ o, ¬ d.Inside s o := fun o ho =>
    hroot o ((inside_newScope_iff hr hanswers).mpr (.inr ho))
  by_cases hs : s.index = d.memory.scopes.size
  · rw [(hanswers.newScope hr).2, Memory.scope_newScope, if_pos hs]
    cases outer with
    | none => rfl
    | some o =>
      have hnext : s = ⟨d.memory.scopes.size⟩ := congrArg ScopeId.mk hs
      exact absurd ((inside_newScope_iff hr hanswers).mpr (.inl ⟨rfl, hnext⟩)) (hroot o)
  · rw [(hanswers.newScope hr).2, Memory.scope_newScope, if_neg hs]
    exact h.root hold

/-- A scope was made. -/
theorem newScope : d'.Coherent where
  wellFormed := (hanswers.newScope hr).2 ▸ h.wellFormed.newScope (h.outer_exists hr hanswers)
  exist := by
    intro s
    have hexists : d'.memory.HasScope s ↔ s.index < d.memory.scopes.size + 1 := by
      rw [(hanswers.newScope hr).2]
      simp [Memory.HasScope, Memory.newScope]
    rw [knows_newScope_iff hr hanswers, hexists, h.exist, Memory.HasScope,
      Nat.lt_succ_iff_lt_or_eq, or_comm]
    exact or_congr_right ⟨fun heq => heq ▸ rfl, fun heq => congrArg ScopeId.mk heq⟩
  around := h.around_newScope hr hanswers
  root := h.root_newScope hr hanswers
  lent := by
    intro s name c hlent
    rw [Lends, hanswers.noted, (hanswers.newScope hr).1] at hlent
    rw [(hanswers.newScope hr).2, Memory.binds_newScope_iff]
    rcases List.mem_cons.mp hlent with heq | hlent
    · cases heq
    · exact h.lent hlent
  bound := by
    intro s name
    have hr' : ¬ r.Binds s name := by
      cases outer <;> subst hr <;> simp [Request.Binds]
    simp only [(hanswers.newScope hr).2, Memory.binds_newScope_iff, h.bound, hanswers.noted,
      List.mem_cons, exists_eq_or_imp, hr', false_or]

/-- A new scope changes nothing that was read in the scopes there were. -/
theorem sees_newScope (hs : d.Knows s) : d'.sees s name = d.sees s name := by
  have hbinds (s : ScopeId) (c : CellId) :
      d'.memory.Binds s name c ↔ d.memory.Binds s name c := by
    rw [(hanswers.newScope hr).2, Memory.binds_newScope_iff]
  refine sees_congr h (h.newScope hr hanswers) d.Knows (fun s c _ => hbinds s c) (fun s c _ _ => ?_)
    (fun s o hs => ?_) (fun s o hs _ ho => ?_) s hs
  · rw [(hanswers.newScope hr).2]
    rfl
  · rw [inside_newScope_iff hr hanswers, or_iff_right]
    rintro ⟨-, rfl⟩
    exact Nat.lt_irrefl _ (h.exist.mp hs)
  · refine h.exist.mpr (h.wellFormed.around (s := s) ?_)
    rw [h.around ho]
    exact List.mem_cons_self

end NewScope

/-- Every request keeps what was said in agreement with the memory. -/
theorem step (h : d.Coherent) (hanswers : d.Answers r a d') : d'.Coherent := by
  cases r with
  | root => exact h.newScope Request.root_eq hanswers
  | child outer => exact h.newScope (Request.child_eq outer) hanswers
  | get s name =>
    obtain ⟨rfl, hmemory⟩ := hanswers.get
    exact h.looks hanswers hmemory (by simp) (by simp) (by simp [Request.Binds])
  | isLocal s name =>
    obtain ⟨rfl, hmemory⟩ := hanswers.isLocal
    exact h.looks hanswers hmemory (by simp) (by simp) (by simp [Request.Binds])
  | set s name v =>
    obtain ⟨rfl, hputs, hwell⟩ := hanswers.set h
    refine h.puts hanswers hputs hwell (by simp) (by simp) ?_ (.inl (.inl ⟨v, rfl⟩))
    rintro s' name' (⟨v', heq⟩ | heq) <;> cases heq
    exact ⟨rfl, rfl⟩
  | ref s name =>
    obtain ⟨c, rfl, hbinds, hputs, hwell⟩ := hanswers.ref h
    refine h.puts hanswers hputs hwell (by simp) (fun c' hc' => ?_) ?_ (.inl (.inr rfl))
    · cases hc'
      exact hbinds
    · rintro s' name' (⟨v', heq⟩ | heq) <;> cases heq
      exact ⟨rfl, rfl⟩
  | write c v =>
    obtain ⟨s, name, hlent⟩ := hanswers.admits.1
    obtain ⟨rfl, hputs, hwell⟩ := hanswers.write h hlent
    refine h.puts hanswers hputs hwell (by simp) (by simp) ?_ (.inr ⟨c, h.lent hlent⟩)
    rintro s' name' (⟨v', heq⟩ | heq) <;> cases heq

theorem goesOn (h : d.Coherent) (hgoes : d.GoesOn d') : d'.Coherent := by
  induction hgoes with
  | refl => exact h
  | tail _ hstep ih =>
    obtain ⟨r, a, hanswers⟩ := hstep
    exact ih.step hanswers

/-- Nothing was said yet, and there are no scopes. -/
theorem start {m : Memory} (hm : m.WellFormed) (hscopes : m.scopes = #[]) :
    (⟨[], m⟩ : Dialogue).Coherent where
  wellFormed := hm
  exist := by simp [Knows, Memory.HasScope, hscopes]
  around h := by cases h
  root _ := by rw [Memory.scope_eq_empty (by simp [Memory.HasScope, hscopes])]
  lent h := by cases h
  bound := by
    intro s name
    refine iff_of_false ?_ (by simp)
    rintro ⟨c, hc⟩
    have hs := Memory.hasScope_of_binds hc
    simp [Memory.HasScope, hscopes] at hs

/-- A name stays bound to its cell. -/
theorem binds_step (h : d.Coherent) (hanswers : d.Answers r a d') (hc : d.memory.Binds s name c) :
    d'.memory.Binds s name c := by
  have hput {s' : ScopeId} {name' : String} {v : Value}
      (hputs : d.memory.Puts d'.memory s' name' v) : d'.memory.Binds s name c := by
    by_cases hsame : s = s' ∧ name = name'
    · obtain ⟨rfl, rfl⟩ := hsame
      exact hputs.stays hc
    · exact (hputs.others hsame c).mpr hc
  cases r with
  | root =>
    rw [(hanswers.newScope Request.root_eq).2, Memory.binds_newScope_iff]
    exact hc
  | child outer =>
    rw [(hanswers.newScope (Request.child_eq outer)).2, Memory.binds_newScope_iff]
    exact hc
  | get => rw [hanswers.get.2]; exact hc
  | isLocal => rw [hanswers.isLocal.2]; exact hc
  | set => exact hput (hanswers.set h).2.1
  | ref =>
    obtain ⟨_, _, _, hputs, _⟩ := hanswers.ref h
    exact hput hputs
  | write =>
    obtain ⟨s', name', hlent⟩ := hanswers.admits.1
    exact hput (hanswers.write h hlent).2.1

theorem binds_goesOn (h : d.Coherent) (hgoes : d.GoesOn d') (hc : d.memory.Binds s name c) :
    d'.memory.Binds s name c := by
  induction hgoes with
  | refl => exact hc
  | tail hbefore hstep ih =>
    obtain ⟨r, a, hanswers⟩ := hstep
    exact (h.goesOn hbefore).binds_step hanswers ih

end Coherent

/-! ## The laws of variables -/

/-- The variable has the value now wherever its name is found in that scope first, and everywhere
else the same is read as before. -/
def Assigned (d d' : Dialogue) (s : ScopeId) (name : String) (v : Value) : Prop :=
  ∀ s' name', (name' = name ∧ (∃ c, d'.Nearest name s' s c) → d'.sees s' name' = v) ∧
    (¬ (name' = name ∧ ∃ c, d'.Nearest name s' s c) → d'.sees s' name' = d.sees s' name')

/-- How names are resolved after what was said, and by whatever is asked next. -/
structure Resolves (d : Dialogue) : Prop where
  answered : ∀ r, d.Admits r → ∃ a d', d.Answers r a d'
  get : ∀ {s name a d'}, d.Answers (.get s name) a d' → a = .value (d.sees s name)
  nearest : ∀ {s name home c}, d.Nearest name s home c →
    d.memory.Binds home name c ∧ d.sees s name = d.memory.read c
  unbound : ∀ {s name}, (∀ home c, ¬ d.Nearest name s home c) → d.sees s name = .void
  isLocal : ∀ {s name a d'}, d.Answers (.isLocal s name) a d' →
    ∃ b, a = .truth b ∧ (b = true ↔ ∃ e ∈ d.exchanges, e.1.Binds s name)
  set : ∀ {s name v a d'}, d.Answers (.set s name v) a d' → d.Assigned d' s name v
  /-- A write through a cell is one to the variable it was handed out for. -/
  write : ∀ {s name c v a d'}, d.Lends s name c → d.Answers (.write c v) a d' →
    d.Assigned d' s name v
  /-- The cell of a variable is handed out with the value that was visible. -/
  ref : ∀ {s name a d'}, d.Answers (.ref s name) a d' →
    ∃ c, a = .cell c ∧ d'.memory.Binds s name c ∧ d'.memory.read c = d.sees s name
  /-- Only assignments change what is read. -/
  still : ∀ {r a d'}, d.Answers r a d' → ¬ r.Assigns →
    ∀ s name, d.Knows s → d'.sees s name = d.sees s name
  lent : ∀ {s name c}, d.Lends s name c → d.memory.Binds s name c
  lasting : ∀ {s name c a d' d''}, d.memory.Binds s name c → d.GoesOn d' →
    d'.Answers (.ref s name) a d'' → a = .cell c
  apart : ∀ {s s' name name' c}, d.memory.Binds s name c → d.memory.Binds s' name' c →
    s = s' ∧ name = name'

namespace Coherent

theorem assigned (h : d.Coherent) (hanswers : d.Answers r a d') (ha : a = .done)
    (hputs : d.memory.Puts d'.memory s name v) : d.Assigned d' s name v := by
  have h' := h.step hanswers
  subst ha
  intro s' name'
  refine ⟨?_, sees_other h h' hputs (hanswers.inside_iff (by simp))⟩
  rintro ⟨rfl, hnearest⟩
  exact h'.sees_put hputs hnearest

theorem still (h : d.Coherent) (hanswers : d.Answers r a d') (hr : ¬ r.Assigns)
    (hs : d.Knows s) : d'.sees s name = d.sees s name := by
  cases r with
  | root => exact h.sees_newScope Request.root_eq hanswers hs
  | child outer => exact h.sees_newScope (Request.child_eq outer) hanswers hs
  | get => rw [sees, hanswers.get.2, sees]
  | isLocal => rw [sees, hanswers.isLocal.2, sees]
  | set | write => exact absurd trivial hr
  | ref =>
    obtain ⟨c, rfl, -, hputs, -⟩ := hanswers.ref h
    exact sees_snapshot h (h.step hanswers) hputs (hanswers.inside_iff (by simp)) rfl s name

theorem resolves (h : d.Coherent) : d.Resolves where
  answered r hadmits := by
    obtain ⟨a, ha⟩ := perform_ok r d.memory
    exact ⟨a, _, answers_after hadmits ha⟩
  get hanswers := hanswers.get.1
  nearest := h.sees_of_nearest
  unbound := h.sees_of_unbound
  isLocal {s name _ _} hanswers := by
    refine ⟨_, hanswers.isLocal.1, ?_⟩
    rw [Memory.isLocal, Table.contains, Option.isSome_iff_exists]
    exact h.bound
  set hanswers := h.assigned hanswers (hanswers.set h).1 (hanswers.set h).2.1
  write hlent hanswers := h.assigned hanswers (hanswers.write h hlent).1 (hanswers.write h hlent).2.1
  ref hanswers := by
    obtain ⟨c, hc, hbinds, hputs, -⟩ := hanswers.ref h
    obtain ⟨c', hbinds', hread⟩ := hputs.put
    have heq : c = c' := Option.some.inj (hbinds.symm.trans hbinds')
    exact ⟨c, hc, hbinds, heq ▸ hread⟩
  still hanswers hr s name hs := h.still hanswers hr hs
  lent := h.lent
  lasting hbinds hgoes hanswers := by
    have h' := h.goesOn hgoes
    obtain ⟨c', rfl, hbinds', -⟩ := hanswers.ref h'
    have hkept := h'.binds_step hanswers (h.binds_goesOn hgoes hbinds)
    rw [Option.some.inj (hbinds'.symm.trans hkept)]
  apart := h.wellFormed.unique

end Coherent

end Dialogue

/-- After any requests to variables, in any tree of scopes, names are resolved from the inside out:
reading gives the content of the cell in the nearest scope that binds the name, an assignment is seen
where the nearest binding is the assigned one and nowhere else, handing out a cell is not seen at all,
and every variable has one cell for good, which no other has. -/
theorem scope_resolution {m : Memory} (hm : m.WellFormed) (hscopes : m.scopes = #[])
    {d : Dialogue} (hd : Dialogue.GoesOn ⟨[], m⟩ d) : d.Resolves :=
  ((Dialogue.Coherent.start hm hscopes).goesOn hd).resolves

/-- A variable is set, a scope made inside, the variable's cell there taken, and a value written
through it: the scope outside keeps its value. -/
theorem scope_resolution_snapshot :
    ∃ d : Dialogue, Dialogue.GoesOn ⟨[], .empty⟩ d ∧ d.Resolves ∧ d.Inside ⟨1⟩ ⟨0⟩ ∧
      d.sees ⟨0⟩ "x" = .int 1 ∧ d.sees ⟨1⟩ "x" = .int 7 := by
  let start : Dialogue := ⟨[], .empty⟩
  let d₁ := start.after .root (.scope ⟨0⟩)
  let d₂ := d₁.after (.set ⟨0⟩ "x" (.int 1)) .done
  let d₃ := d₂.after (.child ⟨0⟩) (.scope ⟨1⟩)
  let d₄ := d₃.after (.ref ⟨1⟩ "x") (.cell ⟨1⟩)
  let d₅ := d₄.after (.write ⟨1⟩ (.int 7)) .done
  have h₁ : start.GoesOn d₁ := .after .refl trivial rfl
  have h₂ : start.GoesOn d₂ := .after h₁ ⟨⟨_, List.mem_cons_self⟩, trivial⟩ rfl
  have h₃ : start.GoesOn d₃ := .after h₂ ⟨.root, .tail _ (.head _)⟩ rfl
  have h₄ : start.GoesOn d₄ := .after h₃ ⟨_, List.mem_cons_self⟩ rfl
  have h₅ : start.GoesOn d₅ := .after h₄ ⟨⟨_, _, List.mem_cons_self⟩, trivial⟩ rfl
  exact ⟨d₅, h₅, scope_resolution Memory.wellFormed_empty rfl h₅, .tail _ (.tail _ (.head _)),
    by decide +kernel, by decide +kernel⟩

end Kiln
