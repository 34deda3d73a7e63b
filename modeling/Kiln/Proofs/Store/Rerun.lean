import Kiln.Proofs.Store.Disk

/-!
# Kiln.Proofs.Store.Rerun — the second run of the same steps

`confirm` is what a step does with the store: it asks for its digest and adds it if it is missing.
The log of a run of such steps `Covers` the list of their digests, so what the file holds after the
run is determined by the list, and a second run finds every digest and leaves the same records.
-/

namespace Kiln

open Records

namespace Store

/-- A step asks for its digest and adds it if it is missing; whether it was found. -/
def confirm (e : String × String × String) : Shelving Bool := do
  let hit ← contains e.1 e.2.1 e.2.2
  if hit then return true
  else do
    add e.1 e.2.1 e.2.2
    return false

/-- A step that only asks. -/
def query (e : String × String × String) : Shelving Bool := contains e.1 e.2.1 e.2.2

/-- The file records a digest. -/
def OnDisk (files : FileSystem) (path module target digest : String) : Prop :=
  ∃ text, fileText files path = .ok text ∧ Mentions text module target digest

theorem contains_eq_ok {m t d : String} {hit : Bool} {s u : Shelf} :
    contains m t d s = (.ok hit, u) ↔
      (Op.contains m t d).perform s = (.ok (some hit), u) := by
  rw [Op.perform, Step.bind_eq_ok]
  constructor
  · exact fun h => ⟨hit, u, h, rfl⟩
  · rintro ⟨hit', u', h, hpure⟩
    cases hpure
    exact h

theorem add_eq_ok {m t d : String} {s u : Shelf} :
    add m t d s = (.ok (), u) ↔ (Op.add m t d).perform s = (.ok none, u) := by
  rw [Op.perform, Step.bind_eq_ok]
  constructor
  · exact fun h => ⟨(), u, h, rfl⟩
  · rintro ⟨_, u', h, hpure⟩
    cases hpure
    exact h

/-- A step that succeeds has found its digest, or missed and added it. -/
theorem confirm_eq_ok {m t d : String} {hit : Bool} {s u : Shelf}
    (h : confirm (m, t, d) s = (.ok hit, u)) :
    (Op.contains m t d).perform s = (.ok (some true), u) ∨
      ∃ v, (Op.contains m t d).perform s = (.ok (some false), v) ∧
        (Op.add m t d).perform v = (.ok none, u) := by
  obtain ⟨found, v, hask, hrest⟩ := Step.bind_eq_ok.mp h
  cases found with
  | true =>
    cases hrest
    exact .inl (contains_eq_ok.mp hask)
  | false =>
    obtain ⟨_, w, hadd, hpure⟩ := Step.bind_eq_ok.mp hrest
    cases hpure
    exact .inr ⟨v, contains_eq_ok.mp hask, add_eq_ok.mp hadd⟩

theorem confirm_of_hit {m t d : String} {s u : Shelf}
    (h : (Op.contains m t d).perform s = (.ok (some true), u)) :
    confirm (m, t, d) s = (.ok true, u) :=
  Step.bind_eq_ok.mpr ⟨true, u, contains_eq_ok.mpr h, rfl⟩

theorem query_of_load {s s' : Shelf} (h : load s = (.ok (), s')) (e : String × String × String) :
    query e s = query e s' := by
  have h' := load_of_isOpen (isOpen_of_load h)
  simp only [query, contains, Step.bind_run, h, h']

theorem confirm_of_load {s s' : Shelf} (h : load s = (.ok (), s'))
    (e : String × String × String) : confirm e s = confirm e s' := by
  show (query e >>= _) s = (query e >>= _) s'
  rw [Step.bind_run, Step.bind_run, query_of_load h]

theorem onDisk_iff {files : FileSystem} {path text m t d : String}
    (h : fileText files path = .ok text) : OnDisk files path m t d ↔ Mentions text m t d := by
  constructor
  · rintro ⟨text', h', hmention⟩
    cases h.symm.trans h'
    exact hmention
  · exact fun hmention => ⟨text, h, hmention⟩

end Store

/-! ## The log of a run -/

/-- The log of a run that went through a list of digests: it is about nothing else, and every one
was confirmed. -/
structure Covers (list : List (String × String × String)) (log : List Event) : Prop where
  only : ∀ e ∈ log, ∃ m t d, (m, t, d) ∈ list ∧ (e.1 = .contains m t d ∨ e.1 = .add m t d)
  all : ∀ m t d, (m, t, d) ∈ list → ∃ e ∈ log, e.Confirms m t d

namespace Covers

variable {list : List (String × String × String)} {log : List Event}

theorem nil : Covers [] [] := ⟨by simp, by simp⟩

/-- One more digest, with the events that confirm it. -/
theorem concat (h : Covers list log) {m t d : String} {events : List Event}
    (honly : ∀ e ∈ events, e.1 = .contains m t d ∨ e.1 = .add m t d)
    (hall : ∃ e ∈ events, e.Confirms m t d) : Covers (list ++ [(m, t, d)]) (log ++ events) := by
  constructor
  · intro e he
    rcases List.mem_append.mp he with he | he
    · obtain ⟨m', t', d', hmem, hop⟩ := h.only e he
      exact ⟨m', t', d', by simp [hmem], hop⟩
    · exact ⟨m, t, d, by simp, honly e he⟩
  · intro m' t' d' hmem
    rcases List.mem_append.mp hmem with hmem | hmem
    · obtain ⟨e, he, hconfirms⟩ := h.all m' t' d' hmem
      exact ⟨e, List.mem_append_left _ he, hconfirms⟩
    · cases List.mem_singleton.mp hmem
      obtain ⟨e, he, hconfirms⟩ := hall
      exact ⟨e, List.mem_append_right _ he, hconfirms⟩

theorem clean (h : Covers list log) (hlist : ∀ m t d, (m, t, d) ∈ list → Clean m t d) :
    ∀ e ∈ log, e.1.Clean := by
  intro e he
  obtain ⟨m, t, d, hmem, hop⟩ := h.only e he
  have hclean := hlist m t d hmem
  rcases hop with hop | hop <;> rw [hop] <;> exact hclean

theorem not_cleared (h : Covers list log) (m : String) : ∀ e ∈ log, e.1 ≠ .clear m := by
  intro e he hclear
  obtain ⟨m', t, d, -, hop⟩ := h.only e he
  rw [hclear] at hop
  rcases hop with hop | hop <;> cases hop

theorem touched_iff (h : Covers list log) {m t : String} :
    Touched log m t ↔ ∃ d, (m, t, d) ∈ list := by
  constructor
  · rintro ⟨e, he, htouch⟩
    obtain ⟨m', t', d, hmem, hop⟩ := h.only e he
    rcases hop with hop | hop <;>
      · rw [hop] at htouch
        obtain ⟨rfl, rfl⟩ := htouch
        exact ⟨d, hmem⟩
  · rintro ⟨d, hmem⟩
    obtain ⟨e, he, hconfirms⟩ := h.all m t d hmem
    refine ⟨e, he, ?_⟩
    rcases hconfirms with heq | heq <;> simp [heq, Op.Touches]

theorem confirmed_iff (h : Covers list log) {m t d : String} :
    Confirmed log m t d ↔ (m, t, d) ∈ list := by
  constructor
  · rintro ⟨before, e, after, rfl, hconfirms, -⟩
    obtain ⟨m', t', d', hmem, hop⟩ := h.only e (by simp)
    rcases hconfirms with heq | heq <;> rw [heq] at hop <;> rcases hop with hop | hop <;>
      cases hop <;> exact hmem
  · intro hmem
    obtain ⟨e, he, hconfirms⟩ := h.all m t d hmem
    obtain ⟨before, after, hlog⟩ := List.append_of_mem he
    refine ⟨before, e, after, hlog, hconfirms, fun x hx => ?_⟩
    exact h.not_cleared m x (by simp [hlog, hx])

/-- What is kept after such a run is determined by the list. -/
theorem mentions_iff (h : Covers list log) {kept text : String} (hagrees : Agrees kept text log)
    (m t d : String) : Mentions kept m t d ↔
      ((m, t, d) ∈ list ∨ (¬ ∃ d', (m, t, d') ∈ list) ∧ Mentions text m t d) := by
  rw [hagrees m t d]
  split_ifs with htouch
  · rw [h.confirmed_iff]
    have hsome := h.touched_iff.mp htouch
    simp [hsome]
  · have hnone := mt h.touched_iff.mpr htouch
    have hnot : (m, t, d) ∉ list := fun hmem => hnone ⟨d, hmem⟩
    simp [hnone, hnot]

end Covers

/-! ## The two runs -/

variable {path text : String} {start s u : Shelf} {log : List Event}
  {done list : List (String × String × String)}

/-- A run of steps is a session that covers their list. -/
theorem session_of_confirm {hits : List Bool} (hsession : Store.Session start log s)
    (hcovers : Covers done log) (hrun : Step.each Store.confirm list s = (.ok hits, u)) :
    ∃ log', Store.Session start log' u ∧ Covers (done ++ list) log' := by
  induction list generalizing done log s hits with
  | nil =>
    cases hrun
    exact ⟨log, hsession, by simpa using hcovers⟩
  | cons e list ih =>
    obtain ⟨m, t, d⟩ := e
    obtain ⟨hit, v, rest, hconfirm, hrest, -⟩ := Step.each_cons_eq_ok.mp hrun
    have hsplit : done ++ (m, t, d) :: list = (done ++ [(m, t, d)]) ++ list := by simp
    rw [hsplit]
    rcases Store.confirm_eq_ok hconfirm with hask | ⟨w, hask, hadd⟩
    · refine ih (hsession.done hask) (hcovers.concat ?_ ?_) hrest
      · simp
      · exact ⟨_, List.mem_singleton_self _, .inr rfl⟩
    · have hboth := (hsession.done hask).done hadd
      rw [List.append_assoc] at hboth
      refine ih hboth (hcovers.concat ?_ ?_) hrest
      · simp
      · exact ⟨(.add m t d, none), by simp, .inl rfl⟩

/-- Where something was confirmed the store can be written. -/
theorem Opened.live_of_covers (h : Opened path text log s) (hcovers : Covers list log)
    (hne : list ≠ []) : Live text log s := by
  rcases h.state with hlive | hstuck
  · exact hlive
  · obtain ⟨⟨m, t, d⟩, rest, rfl⟩ := List.exists_cons_of_ne_nil hne
    obtain ⟨e, he, hconfirms⟩ := hcovers.all m t d (by simp)
    obtain ⟨m', t', d', rfl, -⟩ := hstuck.misses e he
    rcases hconfirms with heq | heq <;> cases heq

/-- After a run that confirmed something, a new store on the file is live. -/
theorem Opened.reopen (h : Opened path text log s) (hcovers : Covers list log) (hne : list ≠ []) :
    ∃ kept s', Store.load ⟨.atPath path, s.files⟩ = (.ok (), s') ∧
      Store.fileText s.files path = .ok kept ∧ Agrees kept text log ∧
      Live kept [] s' ∧ Opened path kept [] s' := by
  obtain ⟨kept, hkept, hagrees⟩ := h.agrees
  have hload := Store.load_of_hasHome h.home hkept
  have hopened := Opened.ofLoad hload
  have hopening : Store.openingText path s.files = kept := by
    obtain ⟨-, -, hfile⟩ := Store.load_atPath_eq_ok hload
    cases hkept.symm.trans hfile
    rfl
  rw [hopening] at hopened
  refine ⟨kept, _, hload, hkept, hagrees, ?_, hopened⟩
  rcases hopened.state with hlive | hstuck
  · exact hlive
  · have hwritable := (h.live_of_covers hcovers hne).writable
    rw [h.path_eq] at hwritable
    exact absurd hwritable hstuck.not_writable

/-- On a live store whose opening text mentions every digest of the list, all are found. -/
theorem confirm_all_found (hlive : Live text log s) (hopened : Opened path text log s)
    (hcovers : Covers done log) (htext : CleanText text)
    (hdone : ∀ m t d, (m, t, d) ∈ done → Clean m t d)
    (hlist : ∀ m t d, (m, t, d) ∈ list → Mentions text m t d) :
    ∃ u log', Step.each Store.confirm list s = (.ok (List.replicate list.length true), u) ∧
      Step.each Store.query list s = (.ok (List.replicate list.length true), u) ∧
      Live text log' u ∧ Opened path text log' u ∧ Covers (done ++ list) log' := by
  induction list generalizing done log s with
  | nil => exact ⟨s, log, rfl, rfl, hlive, hopened, by simpa using hcovers⟩
  | cons e list ih =>
    obtain ⟨m, t, d⟩ := e
    have hmention := hlist m t d (by simp)
    have hclean := htext m t d hmention
    have hop : (Op.contains m t d).Clean := hclean
    obtain ⟨v, hask, hlive', hopened'⟩ :=
      hlive.perform hopened htext (hcovers.clean hdone) hop
    have hhit : Op.answer s.store.records (.contains m t d) = some true := by
      have hholds := ((hlive.tracks m t).holds_iff d).mpr
        (.inl ⟨hmention, hcovers.not_cleared m⟩)
      rw [Op.answer, hholds]
    rw [hhit] at hask hlive' hopened'
    have hcovers' : Covers (done ++ [(m, t, d)]) (log ++ [(.contains m t d, some true)]) :=
      hcovers.concat (by simp) ⟨_, List.mem_singleton_self _, .inr rfl⟩
    have hdone' : ∀ m' t' d', (m', t', d') ∈ done ++ [(m, t, d)] → Clean m' t' d' := by
      intro m' t' d' hmem
      rcases List.mem_append.mp hmem with hmem | hmem
      · exact hdone m' t' d' hmem
      · cases List.mem_singleton.mp hmem
        exact hclean
    obtain ⟨u, log', hconfirm, hquery, hrest⟩ := ih hlive' hopened' hcovers' hdone'
      fun m t d hmem => hlist m t d (List.mem_cons_of_mem _ hmem)
    refine ⟨u, log', ?_, ?_, ?_⟩
    · exact Step.each_cons_eq_ok.mpr ⟨true, v, _, Store.confirm_of_hit hask, hconfirm, rfl⟩
    · exact Step.each_cons_eq_ok.mpr ⟨true, v, _, Store.contains_eq_ok.mpr hask, hquery, rfl⟩
    · rw [List.append_assoc, List.singleton_append] at hrest
      exact hrest

/-- What a run of steps leaves behind. -/
theorem opened_of_confirm {files : FileSystem} {hits : List Bool}
    (htext : CleanText (Store.openingText path files))
    (hlist : ∀ m t d, (m, t, d) ∈ list → Clean m t d) (hne : list ≠ [])
    (hrun : Step.each Store.confirm list ⟨.atPath path, files⟩ = (.ok hits, s)) :
    ∃ log, Opened path (Store.openingText path files) log s ∧ Covers list log := by
  obtain ⟨s₀, hload⟩ : ∃ s₀, Store.load ⟨.atPath path, files⟩ = (.ok (), s₀) := by
    obtain ⟨⟨m, t, d⟩, rest, rfl⟩ := List.exists_cons_of_ne_nil hne
    obtain ⟨hit, v, _, hconfirm, -⟩ := Step.each_cons_eq_ok.mp hrun
    rcases Store.confirm_eq_ok hconfirm with hask | ⟨w, hask, -⟩
    · exact Store.load_of_perform_ok hask
    · exact Store.load_of_perform_ok hask
  rw [Step.each_of_start (Store.confirm_of_load hload) hne] at hrun
  obtain ⟨log, hsession, hcovers⟩ := session_of_confirm .start .nil hrun
  exact ⟨log, (Opened.ofLoad hload).session htext hsession (hcovers.clean hlist), hcovers⟩

/-- A second run of the same steps finds every digest, so it is a run of queries, and it leaves the
records that the first one left: for the targets of the list, its digests and no others. -/
theorem second_run_stable {path : String} {files : FileSystem} {rs : Records}
    {list : List (String × String × String)} {hits : List Bool} {s₁ : Shelf}
    (hfile : Store.openingText path files = rs.toText)
    (hclean : ∀ m t d, (rs.record m t).kept.contains d = true → Clean m t d)
    (hlist : ∀ m t d, (m, t, d) ∈ list → Clean m t d)
    (hrun : Step.each Store.confirm list ⟨.atPath path, files⟩ = (.ok hits, s₁)) :
    ∃ s₂,
      Step.each Store.confirm list ⟨.atPath path, s₁.files⟩ =
        (.ok (List.replicate list.length true), s₂) ∧
      Step.each Store.query list ⟨.atPath path, s₁.files⟩ =
        (.ok (List.replicate list.length true), s₂) ∧
      ∀ m t d,
        (Store.OnDisk s₂.files path m t d ↔ Store.OnDisk s₁.files path m t d) ∧
        ((∃ d', (m, t, d') ∈ list) →
          (Store.OnDisk s₂.files path m t d ↔ (m, t, d) ∈ list)) := by
  by_cases hne : list = []
  · subst hne
    exact ⟨_, rfl, rfl, fun m t d => ⟨Iff.rfl, by simp⟩⟩
  have htext : CleanText (Store.openingText path files) := hfile ▸ cleanText_toText hclean
  obtain ⟨log, hopened, hcovers⟩ := opened_of_confirm htext hlist hne hrun
  obtain ⟨kept, s', hreload, hkept, hagrees, hlive, hopened'⟩ := hopened.reopen hcovers hne
  have hmentions := hcovers.mentions_iff hagrees
  have hcleanKept : CleanText kept := by
    intro m t d hmention
    rcases (hmentions m t d).mp hmention with hmem | ⟨-, hold⟩
    · exact hlist m t d hmem
    · exact htext m t d hold
  obtain ⟨s₂, log₂, hconfirm, hquery, -, hopened₂, hcovers₂⟩ :=
    confirm_all_found hlive hopened' .nil hcleanKept (by simp)
      fun m t d hmem => (hmentions m t d).mpr (.inl hmem)
  obtain ⟨kept₂, hkept₂, hagrees₂⟩ := hopened₂.agrees
  have hmentions₂ := hcovers₂.mentions_iff hagrees₂
  rw [List.nil_append] at hmentions₂
  refine ⟨s₂, ?_, ?_, fun m t d => ?_⟩
  · rw [Step.each_of_start (Store.confirm_of_load hreload) hne, hconfirm]
  · rw [Step.each_of_start (Store.query_of_load hreload) hne, hquery]
  · rw [Store.onDisk_iff hkept₂, Store.onDisk_iff hkept, hmentions₂, hmentions]
    refine ⟨⟨?_, ?_⟩, fun hsome => ⟨?_, .inl⟩⟩
    · rintro (hmem | ⟨-, hkept⟩)
      · exact .inl hmem
      · exact hkept
    · rintro (hmem | ⟨hnone, hold⟩)
      · exact .inl hmem
      · exact .inr ⟨hnone, .inr ⟨hnone, hold⟩⟩
    · rintro (hmem | ⟨hnone, -⟩)
      · exact hmem
      · exact absurd hsome hnone

/-- Two runs of three steps, one of them made twice and one recorded before. -/
theorem second_run_of_three :
    let list := [("m", "t", "e"), ("m", "t", "d"), ("m", "t", "e")]
    let s₁ := (Step.each Store.confirm list ⟨.atPath "hs", .oneRecord⟩).2
    ∃ s₂,
      Step.each Store.confirm list ⟨.atPath "hs", s₁.files⟩ =
        (.ok (List.replicate list.length true), s₂) ∧
      Step.each Store.query list ⟨.atPath "hs", s₁.files⟩ =
        (.ok (List.replicate list.length true), s₂) ∧
      ∀ m t d,
        (Store.OnDisk s₂.files "hs" m t d ↔ Store.OnDisk s₁.files "hs" m t d) ∧
        ((∃ d', (m, t, d') ∈ list) →
          (Store.OnDisk s₂.files "hs" m t d ↔ (m, t, d) ∈ list)) := by
  intro list s₁
  have hfile : Store.openingText "hs" .oneRecord = (ofText "m|t|d\n").toText := by decide +kernel
  have hlist : ∀ m t d, (m, t, d) ∈ list → Clean m t d := by
    intro m t d hmem
    simp only [list, List.mem_cons, Prod.mk.injEq, List.not_mem_nil, or_false] at hmem
    rcases hmem with ⟨rfl, rfl, rfl⟩ | ⟨rfl, rfl, rfl⟩ | ⟨rfl, rfl, rfl⟩ <;>
      exact ⟨by decide, by decide, by decide⟩
  have hrun : (Step.each Store.confirm list ⟨.atPath "hs", .oneRecord⟩).1 =
      .ok [false, true, true] := by decide +kernel
  exact second_run_stable hfile clean_oneRecord hlist (Step.eq_of_fst hrun)

end Kiln
