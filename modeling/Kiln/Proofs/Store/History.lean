import Kiln.Proofs.Store.Operations
import Mathlib.Data.List.Induction

/-!
# Kiln.Proofs.Store.History — answers and records as a function of what was done

A log lists the operations that succeeded with their answers.  `Tracks` is what a log says about the
record of a target: its digests of the previous run are those of the opening text until the module
is cleared, and those of this run are the ones that were `Confirmed`, which is added or found.
Every operation keeps it, so the answers of a session are determined by what was done before them.
-/

namespace Kiln

open Records

/-- Some item satisfies `P`, and every item after it `Q`. -/
def Since {α : Type} (P Q : α → Prop) (l : List α) : Prop :=
  ∃ before e after, l = before ++ e :: after ∧ P e ∧ ∀ x ∈ after, Q x

section Since

variable {α β : Type} {P Q : α → Prop}

@[simp] theorem not_since_nil : ¬ Since P Q [] := by
  rintro ⟨before, e, after, h, -⟩
  simp at h

theorem since_concat {l : List α} {x : α} : Since P Q (l ++ [x]) ↔ P x ∨ Q x ∧ Since P Q l := by
  constructor
  · rintro ⟨before, e, after, h, hP, hQ⟩
    rcases List.eq_nil_or_concat after with rfl | ⟨front, y, rfl⟩
    · obtain ⟨-, hx⟩ := List.append_inj' h rfl
      cases hx
      exact .inl hP
    · rw [List.concat_eq_append] at h hQ
      rw [← List.cons_append, ← List.append_assoc] at h
      obtain ⟨hl, hx⟩ := List.append_inj' h rfl
      cases hx
      exact .inr ⟨hQ x (by simp), before, e, front, hl, hP, fun y hy => hQ y (by simp [hy])⟩
  · rintro (hP | ⟨hQ, before, e, after, rfl, hP, hafter⟩)
    · exact ⟨l, x, [], rfl, hP, by simp⟩
    · refine ⟨before, e, after ++ [x], by simp, hP, fun y hy => ?_⟩
      rcases List.mem_append.mp hy with hy | hy
      · exact hafter y hy
      · rw [List.mem_singleton.mp hy]
        exact hQ

theorem since_map {f : α → β} {P Q : β → Prop} {l : List α} :
    Since P Q (l.map f) ↔ Since (fun a => P (f a)) (fun a => Q (f a)) l := by
  induction l using List.reverseRecOn with
  | nil => simp
  | append_singleton l x ih =>
    rw [List.map_append, List.map_singleton, since_concat, since_concat, ih]

theorem Since.mono {P' : α → Prop} {l : List α} (h : Since P Q l) (hP : ∀ x, P x → P' x) :
    Since P' Q l := by
  obtain ⟨before, e, after, hl, he, hafter⟩ := h
  exact ⟨before, e, after, hl, hP e he, hafter⟩

end Since

/-- An operation that succeeded, with its answer. -/
abbrev Event := Op × Option Bool

/-- The event confirms a digest for the next run: it was added, or asked for and found. -/
def Event.Confirms (e : Event) (module target digest : String) : Prop :=
  e.1 = .add module target digest ∨ e = (.contains module target digest, some true)

/-- A digest was confirmed and its module not cleared since. -/
def Confirmed (log : List Event) (module target digest : String) : Prop :=
  Since (·.Confirms module target digest) (·.1 ≠ .clear module) log

/-- A digest was added and its module not cleared since. -/
def Added (ops : List Op) (module target digest : String) : Prop :=
  Since (· = .add module target digest) (· ≠ .clear module) ops

/-- Some event was about the target. -/
def Touched (log : List Event) (module target : String) : Prop :=
  ∃ e ∈ log, e.1.Touches module target

instance (log : List Event) (module target : String) : Decidable (Touched log module target) :=
  inferInstanceAs (Decidable (∃ e ∈ log, _))

theorem touched_concat {log : List Event} {e : Event} {m t : String} :
    Touched (log ++ [e]) m t ↔ Touched log m t ∨ e.1.Touches m t := by
  simp [Touched, or_and_right, exists_or]

/-- What a log says about the record of a target, in a session whose opening text is `text`. -/
structure Tracks (text : String) (log : List Event) (m t : String) (r : Record) : Prop where
  previous : ∀ d, r.previous.contains d = true ↔
    Mentions text m t d ∧ ∀ e ∈ log, e.1 ≠ .clear m
  current : ∀ d, r.current.contains d = true ↔ Confirmed log m t d
  confirmed : ∀ d, Confirmed log m t d →
    (Mentions text m t d ∧ ∀ e ∈ log, e.1 ≠ .clear m) ∨ Added (log.map (·.1)) m t d
  touched : r.touched = true → Touched log m t
  untouched : r.touched = false →
    (∀ d, r.current.contains d = false) ∧ (Touched log m t → ∀ d, r.previous.contains d = false)

namespace Tracks

variable {text m t : String} {log : List Event} {r : Record}

/-- A record as it was read. -/
theorem ofText (text m t : String) : Tracks text [] m t ((ofText text).record m t) := by
  obtain ⟨hcurrent, htouched, hprevious⟩ := record_ofText text m t
  refine ⟨fun d => ?_, fun d => ?_, fun d h => ?_, fun h => ?_, fun _ => ⟨fun d => ?_, fun h => ?_⟩⟩
  · simp [hprevious d]
  · simp [hcurrent, Confirmed]
  · simp [Confirmed] at h
  · rw [htouched] at h
    cases h
  · simp [hcurrent]
  · simp [Touched] at h

/-- The answer of a query. -/
theorem holds_iff (h : Tracks text log m t r) (d : String) :
    r.holds d = true ↔
      (Mentions text m t d ∧ ∀ e ∈ log, e.1 ≠ .clear m) ∨ Added (log.map (·.1)) m t d := by
  rw [Record.holds, Bool.or_eq_true, h.previous d, h.current d]
  constructor
  · rintro (hprevious | hconfirmed)
    · exact .inl hprevious
    · exact h.confirmed d hconfirmed
  · rintro (hprevious | hadded)
    · exact .inl hprevious
    · exact .inr ((since_map.mp hadded).mono fun _ he => .inl he)

/-- What is kept for the next run. -/
theorem kept_iff (h : Tracks text log m t r) (d : String) :
    r.kept.contains d = true ↔
      if Touched log m t then Confirmed log m t d else Mentions text m t d := by
  by_cases ht : r.touched = true
  · rw [Record.kept, if_pos ht, if_pos (h.touched ht)]
    exact h.current d
  · have hun := h.untouched (by simpa using ht)
    rw [Record.kept, if_neg ht]
    split_ifs with htouch
    · rw [hun.2 htouch d, ← h.current d, hun.1 d]
    · rw [h.previous d]
      constructor
      · exact fun hboth => hboth.1
      · -- a clearing would have touched the target
        intro hmention
        exact ⟨hmention, fun e he hclear => htouch ⟨e, he, by simp [hclear, Op.Touches]⟩⟩

theorem confirmed_concat {e : Event} {d : String} :
    Confirmed (log ++ [e]) m t d ↔ e.Confirms m t d ∨ e.1 ≠ .clear m ∧ Confirmed log m t d :=
  since_concat

theorem added_concat {e : Event} {d : String} :
    Added ((log ++ [e]).map (·.1)) m t d ↔
      e.1 = .add m t d ∨ e.1 ≠ .clear m ∧ Added (log.map (·.1)) m t d := by
  rw [List.map_append]
  exact since_concat

theorem not_cleared_concat {e : Event} :
    (∀ x ∈ log ++ [e], x.1 ≠ .clear m) ↔ (∀ x ∈ log, x.1 ≠ .clear m) ∧ e.1 ≠ .clear m := by
  simp [or_imp, forall_and]

/-- An event that has nothing to do with the target. -/
theorem other (h : Tracks text log m t r) {e : Event} (he : ¬ e.1.Touches m t) :
    Tracks text (log ++ [e]) m t r := by
  have hclear : e.1 ≠ .clear m := fun heq => he (by simp [heq, Op.Touches])
  have hconfirms : ∀ d, ¬ e.Confirms m t d := by
    rintro d (hd | hd)
    · exact he (by simp [hd, Op.Touches])
    · exact he (by simp [hd, Op.Touches])
  constructor
  · intro d
    rw [h.previous d, not_cleared_concat]
    simp [hclear]
  · intro d
    rw [h.current d, confirmed_concat]
    constructor
    · exact fun hd => .inr ⟨hclear, hd⟩
    · rintro (hd | ⟨-, hd⟩)
      · exact absurd hd (hconfirms d)
      · exact hd
  · intro d hd
    obtain ⟨-, hd⟩ := (confirmed_concat.mp hd).resolve_left (hconfirms d)
    rcases h.confirmed d hd with hold | hadded
    · exact .inl ⟨hold.1, not_cleared_concat.mpr ⟨hold.2, hclear⟩⟩
    · exact .inr (added_concat.mpr (.inr ⟨hclear, hadded⟩))
  · exact fun ht => touched_concat.mpr (.inl (h.touched ht))
  · intro ht
    refine ⟨(h.untouched ht).1, fun htouch => (h.untouched ht).2 ?_⟩
    exact (touched_concat.mp htouch).resolve_right he

/-- A query for a digest of the target. -/
theorem ask (h : Tracks text log m t r) (d₀ : String) :
    Tracks text (log ++ [(.contains m t d₀, some (r.holds d₀))]) m t (r.ask d₀) := by
  have hconfirms : ∀ d, Event.Confirms (.contains m t d₀, some (r.holds d₀)) m t d ↔
      d = d₀ ∧ r.holds d₀ = true := by
    intro d
    constructor
    · rintro (he | he)
      · cases he
      · simp only [Prod.mk.injEq, Op.contains.injEq, true_and, Option.some.injEq] at he
        exact ⟨he.1.symm, he.2⟩
    · rintro ⟨rfl, hd⟩
      exact .inr (by rw [hd])
  have hholds : r.holds d₀ = true ↔
      r.previous.contains d₀ = true ∨ r.current.contains d₀ = true := by
    rw [Record.holds, Bool.or_eq_true]
  constructor
  · intro d
    rw [not_cleared_concat]
    simpa [Record.ask] using h.previous d
  · intro d
    rw [confirmed_concat, hconfirms, hholds, ← h.current d, Record.ask]
    by_cases hprevious : r.previous.contains d₀ = true
    · simp [hprevious, NameSet.contains_add]
    · simp only [hprevious]
      constructor
      · exact fun hd => .inr ⟨by simp, hd⟩
      · rintro (⟨rfl, hd⟩ | ⟨-, hd⟩)
        · exact hd.resolve_left (by simp)
        · exact hd
  · intro d hd
    rw [not_cleared_concat, added_concat]
    simp only [ne_eq, reduceCtorEq, not_false_eq_true, and_true, false_or, true_and]
    rw [confirmed_concat, hconfirms] at hd
    rcases hd with ⟨rfl, hd⟩ | ⟨-, hd⟩
    · exact (h.holds_iff d).mp hd
    · exact h.confirmed d hd
  · exact fun _ => touched_concat.mpr (.inr (by simp [Op.Touches]))
  · intro ht
    simp [Record.ask] at ht

/-- A query for a digest of a target that has no record. -/
theorem ask_empty (h : Tracks text log m t .empty) (d₀ : String) :
    Tracks text (log ++ [(.contains m t d₀, some false)]) m t .empty := by
  have hask := h.ask d₀
  refine ⟨hask.previous, hask.current, hask.confirmed, fun ht => ?_, fun _ => ⟨?_, ?_⟩⟩
  · cases ht
  · exact fun d => rfl
  · exact fun _ d => rfl

/-- An addition to the target. -/
theorem add (h : Tracks text log m t r) (d₀ : String) :
    Tracks text (log ++ [(.add m t d₀, none)]) m t (r.add d₀) := by
  have hconfirms : ∀ d, Event.Confirms (.add m t d₀, none) m t d ↔ d = d₀ := by
    intro d
    simp [Event.Confirms, eq_comm]
  constructor
  · intro d
    rw [not_cleared_concat]
    simpa [Record.add] using h.previous d
  · intro d
    rw [confirmed_concat, hconfirms, ← h.current d, Record.add, NameSet.contains_add]
    simp
  · intro d hd
    rw [not_cleared_concat, added_concat]
    rw [confirmed_concat, hconfirms] at hd
    rcases hd with rfl | ⟨-, hd⟩
    · exact .inr (.inl rfl)
    · rcases h.confirmed d hd with hold | hadd
      · exact .inl ⟨hold.1, hold.2, by simp⟩
      · exact .inr (.inr ⟨by simp, hadd⟩)
  · exact fun _ => touched_concat.mpr (.inr (by simp [Op.Touches]))
  · intro ht
    simp [Record.add] at ht

/-- A clearing of the module leaves nothing, whether or not the target has a record. -/
theorem clear (log : List Event) (a : Option Bool) (hr : r = .clear .empty ∨ r = .empty) :
    Tracks text (log ++ [(.clear m, a)]) m t r := by
  have hprevious : ∀ d, r.previous.contains d = false := by
    rcases hr with rfl | rfl <;> exact fun d => rfl
  have hcurrent : ∀ d, r.current.contains d = false := by
    rcases hr with rfl | rfl <;> exact fun d => rfl
  have hnot : ∀ d, ¬ Confirmed (log ++ [(.clear m, a)]) m t d := by
    intro d
    rw [confirmed_concat]
    simp [Event.Confirms]
  constructor
  · intro d
    rw [hprevious d, not_cleared_concat]
    simp
  · intro d
    simp [hcurrent d, hnot d]
  · exact fun d hd => absurd hd (hnot d)
  · exact fun _ => touched_concat.mpr (.inr (by simp [Op.Touches]))
  · exact fun _ => ⟨hcurrent, fun _ => hprevious⟩

/-- Every operation keeps what the log says about every target. -/
theorem apply {rs : Records} (h : Tracks text log m t (rs.record m t)) (op : Op) :
    Tracks text (log ++ [(op, op.answer rs)]) m t ((op.apply rs).record m t) := by
  by_cases ht : op.Touches m t
  · cases op with
    | contains m' t' d =>
      obtain ⟨rfl, rfl⟩ := ht
      rcases Op.record_apply_contains rs m' t' d with hask | ⟨hempty, hsame⟩
      · rw [hask]
        exact h.ask d
      · rw [hsame, Op.answer, hempty]
        rw [hempty] at h
        exact h.ask_empty d
    | add m' t' d =>
      obtain ⟨rfl, rfl⟩ := ht
      rw [Op.record_apply_add]
      exact h.add d
    | clear m' =>
      obtain rfl : m' = m := ht
      refine Tracks.clear log none ?_
      rcases record_cleared_self rs m' t with hclear | ⟨-, hempty⟩
      · exact .inl hclear
      · exact .inr hempty
  · rw [Op.record_apply_of_not rs ht]
    exact h.other ht

end Tracks

/-! ## Sessions -/

/-- A run of operations that all succeed is tracked by its log. -/
theorem tracks_each {text : String} {log : List Event} {ops : List Op}
    {answers : List (Option Bool)} {s s' : Shelf} (hopen : s.store.isOpen = true)
    (h : ∀ m t, Tracks text log m t (s.store.records.record m t))
    (hrun : Step.each Op.perform ops s = (.ok answers, s')) :
    s'.store.isOpen = true ∧
      ∀ m t, Tracks text (log ++ ops.zip answers) m t (s'.store.records.record m t) := by
  induction ops generalizing log answers s with
  | nil =>
    cases hrun
    exact ⟨hopen, by simpa using h⟩
  | cons op ops ih =>
    obtain ⟨a, t, rest, hop, hrest, rfl⟩ := Step.each_cons_eq_ok.mp hrun
    obtain ⟨rfl, hstore⟩ := Store.perform_eq_ok hopen hop
    have hopen' : t.store.isOpen = true := by
      rw [hstore]
      exact hopen
    have hstep : ∀ m t', Tracks text (log ++ [(op, op.answer s.store.records)]) m t'
        (t.store.records.record m t') := by
      intro m t'
      rw [hstore]
      exact (h m t').apply op
    have hboth := ih hopen' hstep hrest
    rw [List.append_assoc, List.singleton_append] at hboth
    exact hboth

/-- In a session whose operations all succeed, a query is answered yes if and only if a line of the
opening text records the digest and its module was not cleared before, or it was added before and its
module not cleared since.  The opening text is that of the store file, if there is one. -/
theorem answer_iff_history {path : String} {files : FileSystem} (before : List Op) {after : List Op}
    {m t d : String} {answers : List (Option Bool)} {s : Shelf}
    (h : Step.each Op.perform (before ++ .contains m t d :: after) ⟨.atPath path, files⟩ =
      (.ok answers, s)) :
    (∀ text, files.text path = .ok text → Store.openingText path files = text) ∧
      ∃ hit, answers[before.length]? = some (some hit) ∧
        (hit = true ↔ (Mentions (Store.openingText path files) m t d ∧ .clear m ∉ before) ∨
          Added before m t d) := by
  obtain ⟨s₀, hload⟩ : ∃ s₀, Store.load ⟨.atPath path, files⟩ = (.ok (), s₀) := by
    cases before with
    | nil =>
      obtain ⟨a, t, _, hop, -⟩ := Step.each_cons_eq_ok.mp h
      exact Store.load_of_perform_ok hop
    | cons op before =>
      obtain ⟨a, t, _, hop, -⟩ := Step.each_cons_eq_ok.mp h
      exact Store.load_of_perform_ok hop
  rw [Step.each_of_start (Store.perform_of_load hload) (by simp)] at h
  obtain ⟨hstore, -, -⟩ := Store.load_atPath_eq_ok hload
  have hstart : ∀ m t, Tracks (Store.openingText path files) [] m t
      (s₀.store.records.record m t) := by
    intro m t
    rw [hstore]
    exact .ofText _ m t
  obtain ⟨first, s₁, rest, hfirst, hrest, rfl⟩ := Step.each_append_eq_ok.mp h
  obtain ⟨hopen, htracks⟩ := tracks_each (Store.isOpen_of_load hload) hstart hfirst
  obtain ⟨a, s₂, rest', hquery, -, rfl⟩ := Step.each_cons_eq_ok.mp hrest
  obtain ⟨rfl, -⟩ := Store.perform_eq_ok hopen hquery
  have hlength := Step.length_of_each hfirst
  have hops : (before.zip first).map (·.1) = before := List.map_fst_zip (by omega)
  refine ⟨fun text => Store.openingText_of_text, (s₁.store.records.record m t).holds d, ?_, ?_⟩
  · rw [← hlength, List.getElem?_append_right (by omega), Nat.sub_self]
    rfl
  · have hholds := (htracks m t).holds_iff d
    rw [List.nil_append, hops] at hholds
    rw [hholds]
    have hcleared : (∀ e ∈ before.zip first, e.1 ≠ .clear m) ↔ .clear m ∉ before := by
      constructor
      · intro hnot hmem
        rw [← hops] at hmem
        obtain ⟨e, he, heq⟩ := List.mem_map.mp hmem
        exact hnot e he heq
      · intro hnot e he heq
        apply hnot
        rw [← hops, ← heq]
        exact List.mem_map_of_mem he
    rw [hcleared]

/-- A directory with a store file that records one digest. -/
def FileSystem.oneRecord : FileSystem :=
  ⟨.dir [("hs", .file "m|t|d\n".toUTF8 0)] 0, 0, some "/"⟩

theorem mentions_oneRecord : Mentions (Store.openingText "hs" .oneRecord) "m" "t" "d" := by
  have htext : FileSystem.oneRecord.text "hs" = .ok "m|t|d\n" := by decide +kernel
  rw [Store.openingText_of_text htext]
  exact ⟨by decide, by decide, [], ['\n'], rfl, .inl rfl, by decide, .feed [] (by decide)⟩

/-- The digest in the file is found, and so is one that was added; once the module is cleared the one
in the file is not found any more. -/
theorem answer_after_add :
    ∃ answers s, Step.each Op.perform
        [.contains "m" "t" "d", .add "m" "t" "e", .contains "m" "t" "e", .clear "m",
          .contains "m" "t" "d"] ⟨.atPath "hs", .oneRecord⟩ = (.ok answers, s) ∧
      answers[0]? = some (some true) ∧ answers[2]? = some (some true) ∧
      answers[4]? = some (some false) := by
  have hok : (Step.each Op.perform
      [.contains "m" "t" "d", .add "m" "t" "e", .contains "m" "t" "e", .clear "m",
        .contains "m" "t" "d"] ⟨.atPath "hs", .oneRecord⟩).1 =
      .ok [some true, none, some true, none, some false] := by
    decide +kernel
  obtain ⟨answers, s, hrun⟩ : ∃ answers s, _ = (Outcome.ok answers, s) :=
    ⟨_, _, Step.eq_of_fst hok⟩
  obtain ⟨-, found, hfound, hfoundIff⟩ := answer_iff_history [] hrun
  obtain ⟨-, added, hadded, haddedIff⟩ :=
    answer_iff_history [.contains "m" "t" "d", .add "m" "t" "e"] hrun
  obtain ⟨-, cleared, hcleared, hclearedIff⟩ := answer_iff_history
    [.contains "m" "t" "d", .add "m" "t" "e", .contains "m" "t" "e", .clear "m"] hrun
  have hhit : found = true := hfoundIff.mpr (.inl ⟨mentions_oneRecord, by simp⟩)
  have hhit' : added = true :=
    haddedIff.mpr (.inr ⟨[.contains "m" "t" "d"], .add "m" "t" "e", [], rfl, rfl, by simp⟩)
  have hmiss : cleared = false := by
    refine Bool.eq_false_iff.mpr fun hit => ?_
    rcases hclearedIff.mp hit with ⟨-, hnot⟩ | ⟨front, op, after, hlist, hop, -⟩
    · exact hnot (by simp)
    · -- this digest was never added
      have hmem : Op.add "m" "t" "d" ∈ front ++ op :: after := by simp [hop]
      rw [← hlist] at hmem
      exact absurd hmem (by decide)
  exact ⟨answers, s, hrun, hhit ▸ hfound, hhit' ▸ hadded, hmiss ▸ hcleared⟩

end Kiln
