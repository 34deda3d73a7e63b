import Kiln.Store
import Kiln.Proofs.Table
import Kiln.Proofs.Text.Pieces
import Mathlib.Data.List.Basic
import Mathlib.Tactic.Tauto

/-!
# Kiln.Proofs.Store.Records — records and their text

`record` is the record of a target, empty if it has none, and every operation is described by what
it does to the record of every target.  `Mentions` says that a text has the line `module|target|digest`,
with no other bar in front of the digest: reading a text records what it mentions, and the text of
clean records mentions what they keep.
-/

namespace Kiln

open Kiln.Text

namespace Records

/-- The record of a target, empty if it has none. -/
def record (rs : Records) (module target : String) : Record :=
  (((Table.get? rs module).getD .empty).get? target).getD .empty

theorem record_of_none {rs : Records} {module : String} (h : Table.get? rs module = none)
    (target : String) : rs.record module target = .empty := by
  simp [record, h]

theorem record_of_some {rs : Records} {module target : String} {targets : Table Record}
    (h : Table.get? rs module = some targets) :
    rs.record module target = (targets.get? target).getD .empty := by
  simp [record, h]

theorem record_update (rs : Records) (m t m' t' : String) (f : Record → Record) :
    (rs.update m t f).record m' t' =
      if m' = m ∧ t' = t then f (rs.record m t) else rs.record m' t' := by
  unfold update record
  by_cases hm : m' = m
  · subst hm
    by_cases ht : t' = t
    · subst ht
      simp
    · simp [Table.get?_insert, ht]
  · simp [Table.get?_insert, hm]

theorem get?_update (rs : Records) (m t m' : String) (f : Record → Record) :
    (Table.get? (rs.update m t f) m').isSome = true ↔
      m' = m ∨ (Table.get? rs m').isSome = true := by
  unfold update
  by_cases hm : m' = m
  · simp [hm]
  · simp [Table.get?_insert, hm]

/-- The records with all targets of a module cleared. -/
def cleared (rs : Records) (module : String) : Records :=
  match Table.get? rs module with
  | some targets => Table.insert rs module (targets.map Record.clear)
  | none => rs

theorem record_cleared_of_ne {m m' : String} (rs : Records) (h : m' ≠ m) (t : String) :
    (rs.cleared m).record m' t = rs.record m' t := by
  unfold cleared
  cases hm : Table.get? rs m with
  | none => rfl
  | some targets => simp [record, Table.get?_insert, h]

/-- A cleared target has no digests; one without a record still has none. -/
theorem record_cleared_self (rs : Records) (m t : String) :
    (rs.cleared m).record m t = .clear .empty ∨
      rs.record m t = .empty ∧ (rs.cleared m).record m t = .empty := by
  unfold cleared
  cases hm : Table.get? rs m with
  | none => exact .inr ⟨record_of_none hm t, record_of_none hm t⟩
  | some targets =>
    cases ht : targets.get? t with
    | none => exact .inr ⟨by simp [record, hm, ht], by simp [record, ht]⟩
    | some r => exact .inl (by simp [record, ht, Record.clear])

theorem get?_cleared (rs : Records) (m m' : String) :
    (Table.get? (rs.cleared m) m').isSome = (Table.get? rs m').isSome := by
  unfold cleared
  cases hm : Table.get? rs m with
  | none => rfl
  | some targets =>
    by_cases h : m' = m
    · simp [h, hm]
    · simp [Table.get?_insert, h]

/-! ## Reading a text -/

/-- The characters of a line `module|target|digest` without its end. -/
def lineChars (e : String × String × String) : List Char :=
  e.1.toList ++ '|' :: (e.2.1.toList ++ '|' :: e.2.2.toList)

/-- A line of the text records a digest for a target of a module.  The first bar of the line ends the
module and the second one the target; more of them belong to the digest. -/
structure Mentions (text m t d : String) : Prop where
  module : '|' ∉ m.toList
  target : '|' ∉ t.toList
  line : Pieces.IsLine text.toList (lineChars (m, t, d))

/-- The fields of a line are read off it, however its text was cut up. -/
theorem fields?_eq_some {line : List Char} {m t d : String} :
    fields? line = some (m, t, d) ↔
      line = lineChars (m, t, d) ∧ '|' ∉ m.toList ∧ '|' ∉ t.toList := by
  have hpieces : fields? line = some (m, t, d) ↔ ∃ rest,
      Pieces.cut? '|' line = some (m.toList, rest) ∧
        Pieces.cut? '|' rest = some (t.toList, d.toList) := by
    simp only [fields?, Option.bind_eq_bind, Option.bind_eq_some_iff, Option.pure_def,
      Option.some.injEq, Prod.mk.injEq, Prod.exists]
    constructor
    · rintro ⟨m', rest, hm, t', d', ht, rfl, rfl, rfl⟩
      exact ⟨rest, by rw [hm, String.toList_ofList],
        by rw [ht, String.toList_ofList, String.toList_ofList]⟩
    · rintro ⟨rest, hm, ht⟩
      exact ⟨_, rest, hm, _, _, ht, String.ofList_toList, String.ofList_toList,
        String.ofList_toList⟩
  rw [hpieces]
  constructor
  · rintro ⟨rest, hm, ht⟩
    obtain ⟨rfl, hbar⟩ := Pieces.cut?_eq_some.mp hm
    obtain ⟨rfl, hbar'⟩ := Pieces.cut?_eq_some.mp ht
    exact ⟨rfl, hbar, hbar'⟩
  · rintro ⟨rfl, hbar, hbar'⟩
    exact ⟨_, Pieces.cut?_append _ hbar, Pieces.cut?_append _ hbar'⟩

/-- What a text mentions is what is read of its lines. -/
theorem mentions_iff {text m t d : String} :
    Mentions text m t d ↔ (m, t, d) ∈ (Pieces.lines text.toList).filterMap fields? := by
  rw [List.mem_filterMap]
  constructor
  · rintro ⟨hm, ht, hline⟩
    exact ⟨_, Pieces.mem_lines_iff.mpr hline, fields?_eq_some.mpr ⟨rfl, hm, ht⟩⟩
  · rintro ⟨line, hline, hfields⟩
    obtain ⟨rfl, hm, ht⟩ := fields?_eq_some.mp hfields
    exact ⟨hm, ht, Pieces.mem_lines_iff.mp hline⟩

theorem record_foldl (entries : List (String × String × String)) (rs : Records) (m t : String) :
    let r := (entries.foldl (fun rs (module, target, digest) =>
      rs.update module target (·.addPrevious digest)) rs).record m t
    r.current = (rs.record m t).current ∧ r.touched = (rs.record m t).touched ∧
      ∀ d, r.previous.contains d = true ↔
        (m, t, d) ∈ entries ∨ (rs.record m t).previous.contains d = true := by
  induction entries generalizing rs with
  | nil => simp
  | cons e entries ih =>
    obtain ⟨m', t', d'⟩ := e
    obtain ⟨hcurrent, htouched, hprevious⟩ := ih (rs.update m' t' (·.addPrevious d'))
    rw [record_update] at hcurrent htouched hprevious
    rw [List.foldl_cons]
    by_cases hmt : m = m' ∧ t = t'
    · obtain ⟨rfl, rfl⟩ := hmt
      simp only [and_self, if_true] at hcurrent htouched hprevious
      refine ⟨hcurrent, htouched, fun d => ?_⟩
      rw [hprevious d, Record.addPrevious, NameSet.contains_add, List.mem_cons]
      simp only [Prod.mk.injEq, true_and]
      tauto
    · rw [if_neg hmt] at hcurrent htouched hprevious
      refine ⟨hcurrent, htouched, fun d => ?_⟩
      rw [hprevious d, List.mem_cons]
      have hne : (m, t, d) ≠ (m', t', d') := by
        intro heq
        simp only [Prod.mk.injEq] at heq
        exact hmt ⟨heq.1, heq.2.1⟩
      simp [hne]

/-- What was read is recorded as digests of the previous run. -/
theorem record_ofText (text m t : String) :
    ((ofText text).record m t).current = .empty ∧ ((ofText text).record m t).touched = false ∧
      ∀ d, ((ofText text).record m t).previous.contains d = true ↔ Mentions text m t d := by
  obtain ⟨hcurrent, htouched, hprevious⟩ :=
    record_foldl ((Pieces.lines text.toList).filterMap fields?) .empty m t
  refine ⟨hcurrent, htouched, fun d => (hprevious d).trans ?_⟩
  simp [mentions_iff, record, Record.empty]

/-! ## Writing a text -/

/-- Modules and targets that a line can tell from the rest of it. -/
def CleanName (name : String) : Prop := '|' ∉ name.toList ∧ '\n' ∉ name.toList

/-- Digests that end with their line. -/
def CleanDigest (digest : String) : Prop := '\r' ∉ digest.toList ∧ '\n' ∉ digest.toList

instance (name : String) : Decidable (CleanName name) := inferInstanceAs (Decidable (_ ∧ _))

instance (digest : String) : Decidable (CleanDigest digest) := inferInstanceAs (Decidable (_ ∧ _))

/-- A digest of a target that a line can hold. -/
structure Clean (module target digest : String) : Prop where
  module : CleanName module
  target : CleanName target
  digest : CleanDigest digest

/-- All that is kept for the next run. -/
def listing (rs : Records) : List (String × String × String) :=
  rs.entries.flatMap fun (module, targets) =>
    targets.entries.flatMap fun (target, record) =>
      record.kept.keys.map fun digest => (module, target, digest)

theorem mem_listing_iff {rs : Records} {m t d : String} :
    (m, t, d) ∈ rs.listing ↔ (rs.record m t).kept.contains d = true := by
  simp only [listing, List.mem_flatMap, List.mem_map, Prod.mk.injEq]
  constructor
  · rintro ⟨⟨m', targets⟩, hm, ⟨t', r⟩, ht, d', hd, rfl, rfl, rfl⟩
    have hr : rs.record m' t' = r := by
      rw [record_of_some (Table.get?_eq_some_iff.mpr hm), Table.get?_eq_some_iff.mpr ht,
        Option.getD_some]
    rw [hr]
    exact Table.mem_keys_iff.mp hd
  · intro hd
    cases hm : Table.get? rs m with
    | none =>
      rw [record_of_none hm] at hd
      simp [Record.empty, Record.kept] at hd
    | some targets =>
      rw [record_of_some hm] at hd
      cases ht : targets.get? t with
      | none =>
        rw [ht] at hd
        simp [Record.empty, Record.kept] at hd
      | some r =>
        rw [ht] at hd
        exact ⟨(m, targets), Table.get?_eq_some_iff.mp hm, (t, r), Table.get?_eq_some_iff.mp ht,
          d, Table.mem_keys_iff.mpr hd, rfl, rfl, rfl⟩

theorem toList_toText (rs : Records) :
    rs.toText.toList = (rs.listing.map lineChars).flatMap (· ++ ['\n']) := by
  simp [toText, listing, lineChars, line, String.toList_join, List.map_flatMap, List.flatMap_assoc,
    List.flatMap_map, List.map_map, Function.comp_def]

theorem newline_not_mem_lineChars {m t d : String} (h : Clean m t d) :
    '\n' ∉ lineChars (m, t, d) := by
  simp [lineChars, h.module.2, h.target.2, h.digest.2]

theorem getLast?_lineChars {m t d : String} (h : Clean m t d) :
    (lineChars (m, t, d)).getLast? ≠ some '\r' := by
  intro hlast
  -- the last character is that of the digest, or the bar before an empty one
  have hsplit : lineChars (m, t, d) = (m.toList ++ '|' :: t.toList) ++ '|' :: d.toList := by
    simp [lineChars]
  have hbar : ('|' :: d.toList).getLast? = some '\r' := by
    rwa [hsplit, List.getLast?_append_of_ne_nil _ (by simp)] at hlast
  rcases List.mem_cons.mp (List.mem_of_getLast? hbar) with heq | hmem
  · exact absurd heq (by decide)
  · exact h.digest.1 hmem

/-- The text of clean records mentions what they keep. -/
theorem mentions_toText {rs : Records}
    (h : ∀ m t d, (rs.record m t).kept.contains d = true → Clean m t d) (m t d : String) :
    Mentions rs.toText m t d ↔ (rs.record m t).kept.contains d = true := by
  have hclean : ∀ e ∈ rs.listing, Clean e.1 e.2.1 e.2.2 :=
    fun e he => h _ _ _ (mem_listing_iff.mp he)
  have hlines : Pieces.lines rs.toText.toList = rs.listing.map lineChars := by
    rw [toList_toText]
    refine Pieces.lines_flatMap ?_ ?_
    · intro l hl
      obtain ⟨e, he, rfl⟩ := List.mem_map.mp hl
      exact newline_not_mem_lineChars (hclean e he)
    · intro l hl
      obtain ⟨e, he, rfl⟩ := List.mem_map.mp hl
      exact getLast?_lineChars (hclean e he)
  have hread : (rs.listing.map lineChars).filterMap fields? = rs.listing := by
    rw [List.filterMap_map]
    calc rs.listing.filterMap (fields? ∘ lineChars) = rs.listing.filterMap some :=
          List.filterMap_congr fun e he =>
            fields?_eq_some.mpr ⟨rfl, (hclean e he).module.1, (hclean e he).target.1⟩
      _ = rs.listing := List.filterMap_some
  rw [mentions_iff, hlines, hread]
  exact mem_listing_iff

end Records

end Kiln
