import Kiln.Proofs.Eval.Equality
import Kiln.Proofs.Memory.Shape
import Kiln.Proofs.Text.Glob

/-!
# Kiln.Proofs.Eval.Selection — `match` and `exclude` part an array in two

Both functions look at the string forms of the elements and of the patterns.  The library may refuse
the expression of a pattern, and then both end with what it says of the first such pattern; else what
one of them keeps of an array the other drops, and the order of the elements stays
(`selection_of_patterns`).
-/

namespace Kiln

open Kiln.Text Kiln.Action

variable {s : Machine} {v : Value} {ps vs : List Value} {tests : List (String → Bool)}
  {patterns forms : List String} {form : String}

namespace Machine

/-- The expression of the pattern is compiled to this test. -/
def Accepts (s : Machine) (p : Value) (test : String → Bool) : Prop :=
  ∃ pattern, Memory.textOf p s.memory = (.ok pattern, s.memory) ∧
    s.host.regex.compile (Glob.expression s.host.regex.escape pattern) = .ok test

/-- The expression of the pattern is refused, which is this fault. -/
def Refuses (s : Machine) (p : Value) (e : Fault) : Prop :=
  ∃ pattern reason, Memory.textOf p s.memory = (.ok pattern, s.memory) ∧
    s.host.regex.compile (Glob.expression s.host.regex.escape pattern) = .error reason ∧
    e = .badPattern pattern reason

/-- One of the patterns matches the string form of the value. -/
def Fits (s : Machine) (ps : List Value) (v : Value) : Prop :=
  ∃ p ∈ ps, ∃ pattern form, Memory.textOf p s.memory = (.ok pattern, s.memory) ∧
    Memory.textOf v s.memory = (.ok form, s.memory) ∧ Glob.Matches pattern form

end Machine

namespace Builtin

theorem accepts_of_mem {p : Value} (hps : List.Forall₂ s.Accepts ps tests) (hp : p ∈ ps) :
    ∃ test, s.Accepts p test := by
  induction hps with
  | nil => cases hp
  | cons hfirst _ ih =>
    rcases List.mem_cons.mp hp with rfl | hp
    · exact ⟨_, hfirst⟩
    · exact ih hp

theorem matchesAny_iff (hregex : s.host.regex.Documented) (hps : List.Forall₂ s.Accepts ps tests)
    (hv : Memory.textOf v s.memory = (.ok form, s.memory)) :
    matchesAny tests form = true ↔ s.Fits ps v := by
  induction hps with
  | nil => simp [matchesAny, Machine.Fits]
  | @cons p test ps tests hp _ ih =>
    obtain ⟨pattern, hform, hcompile⟩ := hp
    have hfirst : (∃ pattern form, Memory.textOf p s.memory = (.ok pattern, s.memory) ∧
        Memory.textOf v s.memory = (.ok form, s.memory) ∧ Glob.Matches pattern form) ↔
        Glob.Matches pattern form := by
      constructor
      · rintro ⟨pattern', form', hp', hv', hmatch⟩
        rw [hform] at hp'
        rw [hv] at hv'
        cases hp'
        cases hv'
        exact hmatch
      · intro hmatch
        exact ⟨pattern, form, hform, hv, hmatch⟩
    rw [matchesAny, List.any_cons, Bool.or_eq_true, Glob.isMatch_iff hregex hcompile, Machine.Fits,
      List.exists_mem_cons_iff, hfirst]
    exact or_congr_right ih

theorem compileGlob_run (hp : Memory.textOf v s.memory = (.ok form, s.memory)) :
    (∃ test, s.Accepts v test ∧
      (textOf v >>= fun pattern => compileGlob pattern) s = (.ok test, s)) ∨
    ∃ e, s.Refuses v e ∧
      (textOf v >>= fun pattern => compileGlob pattern) s = (.error (.fault e), s) := by
  have htext : textOf v s = (.ok form, s) := by rw [textOf, onMemory, Step.on, hp]
  rw [Step.bind_run_ok htext]
  have hlook : (Step.look fun s => s.host.regex : Action Text.Regex.Library) s =
      (.ok s.host.regex, s) := rfl
  cases hcompile : s.host.regex.compile (Glob.expression s.host.regex.escape form) with
  | ok test =>
    refine .inl ⟨test, ⟨form, hp, hcompile⟩, ?_⟩
    rw [compileGlob, Step.bind_run_ok hlook, hcompile]
    rfl
  | error reason =>
    refine .inr ⟨_, ⟨form, reason, hp, hcompile, rfl⟩, ?_⟩
    rw [compileGlob, Step.bind_run_ok hlook, hcompile]
    rfl

/-- Patterns are compiled from the left up to the first one that is refused. -/
theorem compileGlobs_run (hps : s.Forms ps patterns) :
    (∃ tests, List.Forall₂ s.Accepts ps tests ∧ compileGlobs ps s = (.ok tests, s)) ∨
    ∃ before p after e, ps = before ++ p :: after ∧ (∀ q ∈ before, ∃ test, s.Accepts q test) ∧
      s.Refuses p e ∧ compileGlobs ps s = (.error (.fault e), s) := by
  induction hps with
  | nil => exact .inl ⟨[], .nil, rfl⟩
  | @cons p pattern ps patterns hp _ ih =>
    rcases compileGlob_run hp with ⟨test, haccept, hrun⟩ | ⟨e, hrefuse, hrun⟩
    · rcases ih with ⟨tests, haccepts, hrest⟩ | ⟨before, q, after, e, rfl, hbefore, hrefuse, hrest⟩
      · refine .inl ⟨test :: tests, .cons haccept haccepts, ?_⟩
        exact Step.each_cons_eq_ok.mpr ⟨test, s, tests, hrun, hrest, rfl⟩
      · refine .inr ⟨p :: before, q, after, e, rfl, ?_, hrefuse, ?_⟩
        · rintro q' hq'
          rcases List.mem_cons.mp hq' with rfl | hq'
          · exact ⟨test, haccept⟩
          · exact hbefore q' hq'
        · exact (Step.bind_run_ok hrun _).trans (Step.bind_run_error hrest _)
    · exact .inr ⟨[], p, ps, e, rfl, by simp, hrefuse, Step.bind_run_error hrun _⟩

/-- Choosing among pairs by what stands second in them. -/
theorem map_fst_filter_zip {R : Value → String → Prop} (h : List.Forall₂ R vs forms)
    {p : String → Bool} {q : Value → Bool} (hpq : ∀ v form, R v form → p form = q v) :
    ((vs.zip forms).filter fun e => p e.2).map (·.1) = vs.filter q := by
  induction h with
  | nil => rfl
  | cons hv _ ih =>
    rw [List.zip_cons_cons, List.filter_cons, List.filter_cons, hpq _ _ hv]
    split
    · rw [List.map_cons, ih]
    · exact ih

/-- Whether the string form of a value passes one of the tests. -/
def hits (s : Machine) (tests : List (String → Bool)) (v : Value) : Bool :=
  match (Memory.textOf v s.memory).1 with
  | .ok form => matchesAny tests form
  | _ => false

theorem hits_eq (hv : Memory.textOf v s.memory = (.ok form, s.memory)) :
    hits s tests v = matchesAny tests form := by
  rw [hits, hv]

theorem filterGlob_run {arr : ArrayId} (tests : List (String → Bool)) (wanted : Bool)
    (hforms : s.Forms (s.memory.elements (.array arr)) forms) :
    ∃ m, filterGlob wanted (.array arr) tests s =
        (.ok (.array ⟨s.memory.arrays.size⟩), { s with memory := m }) ∧
      m.elements (.array ⟨s.memory.arrays.size⟩) =
        (s.memory.elements (.array arr)).filter fun v => hits s tests v == wanted := by
  let kept := (((s.memory.elements (.array arr)).zip forms).filter fun e =>
    matchesAny tests e.2 == wanted).map (·.1)
  have hkept : kept = (s.memory.elements (.array arr)).filter fun v => hits s tests v == wanted :=
    map_fst_filter_zip hforms (p := fun form => matchesAny tests form == wanted)
      fun v form hv => by rw [hits_eq hv]
  obtain ⟨m, hnew, helements⟩ := newArray_run kept s
  refine ⟨m, ?_, helements.trans hkept⟩
  show (elementsOf (.array arr) >>= fun values => textsOf values >>= _) s = _
  rw [Step.bind_run_ok (rfl : elementsOf (.array arr) s = (.ok _, s)),
    Step.bind_run_ok (textsOf_of_forms hforms)]
  exact hnew

/-- Where regular expressions are as documented, a pattern whose expression is compiled matches a text
if and only if the text can be cut into one piece for each item of the pattern that the item takes.  Of
an array, `match` keeps the elements that some pattern matches, in order, and `exclude` keeps the
others, in order; but if the expression of a pattern is refused, both end with what is said of the
first such pattern. -/
theorem selection_of_patterns (s : Machine) (hregex : s.host.regex.Documented) :
    (∀ pattern isMatch,
      s.host.regex.compile (Glob.expression s.host.regex.escape pattern) = .ok isMatch →
      ∀ text, isMatch text = true ↔ Glob.Matches pattern text) ∧
    ∀ (arr : ArrayId) (ps : List Value), s.memory.Acyclic (.array arr) →
      (∀ p ∈ ps, s.memory.Acyclic p) →
      ((∀ p ∈ ps, ∃ test, s.Accepts p test) ∧
        ∃ (hit : Value → Bool) (id : ArrayId) (m m' : Memory),
          (∀ v ∈ s.memory.elements (.array arr), hit v = true ↔ s.Fits ps v) ∧
          call .matching (.array arr :: ps) s = (.ok (.array id), { s with memory := m }) ∧
          m.elements (.array id) = (s.memory.elements (.array arr)).filter hit ∧
          call .excluding (.array arr :: ps) s = (.ok (.array id), { s with memory := m' }) ∧
          m'.elements (.array id) = (s.memory.elements (.array arr)).filter (!hit ·)) ∨
      ∃ before p after e, ps = before ++ p :: after ∧
        (∀ q ∈ before, ∃ test, s.Accepts q test) ∧ s.Refuses p e ∧
        call .matching (.array arr :: ps) s = (.error (.fault e), s) ∧
        call .excluding (.array arr :: ps) s = (.error (.fault e), s) := by
  refine ⟨fun _ _ => Glob.isMatch_iff hregex, fun arr ps harr hps => ?_⟩
  obtain ⟨patterns, hpatterns⟩ := exists_forms hps
  rcases compileGlobs_run hpatterns with
    ⟨tests, haccepts, hcompile⟩ | ⟨before, p, after, e, hsplit, hbefore, hrefuse, hcompile⟩
  · obtain ⟨forms, hforms⟩ := exists_forms harr.elements
    obtain ⟨m, hrun, helements⟩ := filterGlob_run tests true hforms
    obtain ⟨m', hrun', helements'⟩ := filterGlob_run tests false hforms
    refine .inl ⟨fun p => accepts_of_mem haccepts, hits s tests, ⟨s.memory.arrays.size⟩, m, m',
      fun v hv => ?_, ?_, ?_, ?_, ?_⟩
    · obtain ⟨form, hform⟩ := (harr.elements v hv).text
      rw [hits_eq hform]
      exact matchesAny_iff hregex haccepts hform
    · exact (Step.bind_run_ok hcompile _).trans hrun
    · simpa only [beq_true] using helements
    · exact (Step.bind_run_ok hcompile _).trans hrun'
    · simpa only [beq_false] using helements'
  · exact .inr ⟨before, p, after, e, hsplit, hbefore, hrefuse, Step.bind_run_error hcompile _,
      Step.bind_run_error hcompile _⟩

/-- A state with the array `["*x", "ax", "a\nb.c"]`. -/
def starred : Machine :=
  { Machine.blank with
    memory := ⟨#[.str "*x", .str "ax", .str "a\nb.c"], #[#[⟨0⟩, ⟨1⟩, ⟨2⟩]], #[], #[⟨.empty, []⟩]⟩ }

/-- A quoted star stands for itself, and one that is not quoted takes a line feed too. -/
theorem selection_of_patterns_starred : let s := starred
    s.host.regex.Documented ∧ s.memory.Acyclic (.array ⟨0⟩) ∧
    (∀ p ∈ [Value.str "\\*x", .str "a*?.c"], s.memory.Acyclic p) ∧ ∃ (id : ArrayId) (m m' : Memory),
      call .matching [.array ⟨0⟩, .str "\\*x", .str "a*?.c"] s =
        (.ok (.array id), { s with memory := m }) ∧
      m.elements (.array id) = [.str "*x", .str "a\nb.c"] ∧
      call .excluding [.array ⟨0⟩, .str "\\*x", .str "a*?.c"] s =
        (.ok (.array id), { s with memory := m' }) ∧
      m'.elements (.array id) = [.str "ax"] := by
  intro s
  have hacyclic {v : Value} (hv : s.memory.Holds v) : s.memory.Acyclic v :=
    Memory.acyclic_of_older (by decide) (by decide) rfl hv
  have harr : s.memory.Acyclic (.array ⟨0⟩) := hacyclic (by decide)
  have hps : ∀ p ∈ [Value.str "\\*x", .str "a*?.c"], s.memory.Acyclic p :=
    fun p hp => hacyclic (by revert p hp; decide)
  have hregex : s.host.regex.Documented := Regex.documented_anchored
  obtain ⟨hmatches, hselect⟩ := selection_of_patterns s hregex
  -- both patterns are compiled, and this is what they say of the three texts
  have hcompiled (pattern : String) (answers : List Bool)
      (h : ((Regex.anchored.compile (Glob.expression Regex.anchored.escape pattern)).toOption.map
        fun test => ["*x", "ax", "a\nb.c"].map test) = some answers) :
      ∃ test, s.host.regex.compile (Glob.expression s.host.regex.escape pattern) = .ok test ∧
        ["*x", "ax", "a\nb.c"].map test = answers := by
    show ∃ test, Regex.anchored.compile (Glob.expression Regex.anchored.escape pattern) = _ ∧ _
    cases hc : Regex.anchored.compile (Glob.expression Regex.anchored.escape pattern) with
    | ok test =>
      rw [hc] at h
      exact ⟨test, rfl, Option.some.inj h⟩
    | error e =>
      rw [hc] at h
      cases h
  obtain ⟨quoted, hquoted, hquotedTable⟩ :=
    hcompiled "\\*x" [true, false, false] (by decide +kernel)
  obtain ⟨dotted, hdotted, hdottedTable⟩ :=
    hcompiled "a*?.c" [false, false, true] (by decide +kernel)
  simp only [List.map_cons, List.map_nil, List.cons.injEq, and_true] at hquotedTable hdottedTable
  rcases hselect ⟨0⟩ _ harr hps with
    ⟨-, hit, id, m, m', hhit, hmatch, hkept, hexclude, hdropped⟩ |
    ⟨before, p, after, e, hsplit, -, ⟨pattern, reason, hform, hrefused, -⟩, -⟩
  · have hstar : hit (.str "*x") = true := (hhit _ (by decide)).mpr
      ⟨.str "\\*x", by simp, _, _, rfl, rfl, (hmatches _ _ hquoted _).mp hquotedTable.1⟩
    have hlines : hit (.str "a\nb.c") = true := (hhit _ (by decide)).mpr
      ⟨.str "a*?.c", by simp, _, _, rfl, rfl, (hmatches _ _ hdotted _).mp hdottedTable.2.2⟩
    have hother : hit (.str "ax") = false := by
      refine Bool.eq_false_iff.mpr fun h => ?_
      obtain ⟨p, hp, pattern, form, hpattern, hform, hmatch⟩ := (hhit _ (by decide)).mp h
      cases hform
      rcases List.mem_pair.mp hp with rfl | rfl
      · cases hpattern
        exact absurd ((hmatches _ _ hquoted _).mpr hmatch) (by rw [hquotedTable.2.1]; decide)
      · cases hpattern
        exact absurd ((hmatches _ _ hdotted _).mpr hmatch) (by rw [hdottedTable.2.1]; decide)
    have helements : s.memory.elements (.array ⟨0⟩) = [.str "*x", .str "ax", .str "a\nb.c"] := rfl
    rw [helements] at hkept hdropped
    refine ⟨hregex, harr, hps, id, m, m', hmatch, ?_, hexclude, ?_⟩
    · simpa [hstar, hlines, hother] using hkept
    · simpa [hstar, hlines, hother] using hdropped
  · -- neither pattern is refused
    have hp : p ∈ [Value.str "\\*x", .str "a*?.c"] := by simp [hsplit]
    rcases List.mem_pair.mp hp with rfl | rfl
    · cases hform
      cases hquoted.symm.trans hrefused
    · cases hform
      cases hdotted.symm.trans hrefused

end Builtin

end Kiln
