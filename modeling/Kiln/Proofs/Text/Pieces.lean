import Kiln.Text.Pieces

/-!
# Kiln.Proofs.Text.Pieces — cutting at a separator, and lines

`IsLine` tells from the characters of a text what its lines are, and `mem_lines_iff` says that `lines`
gives just these.
-/

namespace Kiln.Text.Pieces

/-- A text is cut at the first separator in it. -/
theorem cut?_append {sep : Char} {a : List Char} (r : List Char) (h : sep ∉ a) :
    cut? sep (a ++ sep :: r) = some (a, r) := by
  induction a with
  | nil => simp [cut?]
  | cons c a ih =>
    rw [List.mem_cons, not_or] at h
    simp [cut?, Ne.symm h.1, ih h.2]

theorem cut?_eq_some {sep : Char} {text a r : List Char} :
    cut? sep text = some (a, r) ↔ text = a ++ sep :: r ∧ sep ∉ a := by
  constructor
  · intro h
    induction text generalizing a with
    | nil => cases h
    | cons c text ih =>
      by_cases hc : c = sep
      · simp only [cut?, hc, if_true, Option.some.injEq, Prod.mk.injEq] at h
        obtain ⟨rfl, rfl⟩ := h
        exact ⟨by rw [hc, List.nil_append], List.not_mem_nil⟩
      · simp only [cut?, hc, if_false, Option.map_eq_some_iff, Prod.mk.injEq] at h
        obtain ⟨⟨a', r'⟩, hcut, rfl, rfl⟩ := h
        obtain ⟨rfl, hnot⟩ := ih hcut
        exact ⟨rfl, List.not_mem_cons_of_ne_of_not_mem (Ne.symm hc) hnot⟩
  · rintro ⟨rfl, hnot⟩
    exact cut?_append r hnot

/-- What stands before the first separator is determined, and so is what stands after it. -/
theorem append_sep_inj {sep : Char} {a b r s : List Char} (ha : sep ∉ a) (hb : sep ∉ b)
    (h : a ++ sep :: r = b ++ sep :: s) : a = b ∧ r = s := by
  have hcut := congrArg (cut? sep) h
  rw [cut?_append r ha, cut?_append s hb] at hcut
  simpa using hcut

/-- A word whose first character comes only once in it does not begin in a text without it and end
behind that text. -/
theorem eq_nil_of_overlap {c : Char} {w a x y : List Char} (hw : c ∉ w) (ha : ¬ c :: w <:+: a)
    {d : List Char} (hd : d <:+ a) (h : c :: w ++ x = d ++ (c :: w ++ y)) : d = [] := by
  cases d with
  | nil => rfl
  | cons e d =>
    exfalso
    simp only [List.cons_append, List.cons.injEq] at h
    obtain ⟨rfl, h⟩ := h
    suffices hpre : c :: w <+: c :: d from ha (hpre.isInfix.trans hd.isInfix)
    rcases List.append_eq_append_iff.mp h with ⟨f, rfl, -⟩ | ⟨f, rfl, hf⟩
    · exact ⟨f, by simp⟩
    · cases f with
      | nil => simp
      | cons g f =>
        simp only [List.cons_append, List.cons.injEq] at hf
        exact absurd (by simp [hf.1]) hw

/-- What stands before the first place of a word is determined, and so is what stands after it. -/
theorem append_word_inj {c : Char} {w a b x y : List Char} (hw : c ∉ w) (ha : ¬ c :: w <:+: a)
    (hb : ¬ c :: w <:+: b) (h : a ++ (c :: w ++ x) = b ++ (c :: w ++ y)) : a = b ∧ x = y := by
  rcases List.append_eq_append_iff.mp h with ⟨d, hbd, hd⟩ | ⟨d, had, hd⟩
  · have hnil : d = [] := eq_nil_of_overlap hw hb ⟨a, hbd.symm⟩ hd
    subst hnil
    rw [List.nil_append] at hd
    exact ⟨by simpa using hbd.symm, List.append_cancel_left hd⟩
  · have hnil : d = [] := eq_nil_of_overlap hw ha ⟨b, had.symm⟩ hd
    subst hnil
    rw [List.nil_append] at hd
    exact ⟨by simpa using had, (List.append_cancel_left hd).symm⟩

theorem split_ne_nil (sep : Char → Bool) (cs : List Char) : split sep cs ≠ [] := by
  cases cs with
  | nil => simp [split]
  | cons c cs =>
    rw [split]
    split
    · simp
    · split <;> simp

theorem split_of_not {sep : Char → Bool} {cs : List Char} (h : ∀ x ∈ cs, sep x = false) :
    split sep cs = [cs] := by
  induction cs with
  | nil => rfl
  | cons c cs ih =>
    have hc : sep c = false := h c List.mem_cons_self
    simp [split, hc, ih fun x hx => h x (List.mem_cons_of_mem _ hx)]

/-- The pieces on both sides of a separator. -/
theorem split_append {sep : Char → Bool} {c : Char} (a b : List Char) (hc : sep c = true) :
    split sep (a ++ c :: b) = split sep a ++ split sep b := by
  induction a with
  | nil => simp [split, hc]
  | cons x a ih =>
    obtain ⟨piece, pieces, hpieces⟩ := List.exists_cons_of_ne_nil (split_ne_nil sep a)
    by_cases hx : sep x = true
    · simp [split, hx, ih]
    · simp [split, hx, ih, hpieces]

/-- No piece has a separator in it. -/
theorem plain_of_mem_split {sep : Char → Bool} {cs piece : List Char} (h : piece ∈ split sep cs) :
    ∀ c ∈ piece, sep c = false := by
  induction cs generalizing piece with
  | nil =>
    rw [split, List.mem_singleton] at h
    simp [h]
  | cons x cs ih =>
    obtain ⟨first, pieces, hpieces⟩ := List.exists_cons_of_ne_nil (split_ne_nil sep cs)
    rw [hpieces] at ih
    by_cases hx : sep x = true
    · simp only [split, hx, hpieces, if_true, List.mem_cons] at h
      rcases h with rfl | h
      · simp
      · exact ih (by simpa using h)
    · simp only [split, hx, hpieces, Bool.false_eq_true, if_false, List.mem_cons] at h
      rcases h with rfl | h
      · intro c hc
        rcases List.mem_cons.mp hc with rfl | hc
        · simpa using hx
        · exact ih List.mem_cons_self c hc
      · exact ih (List.mem_cons_of_mem _ h)

/-- A text that is not all separators has a piece that is not empty. -/
theorem exists_piece {sep : Char → Bool} {cs : List Char} (h : ∃ c ∈ cs, sep c = false) :
    ∃ piece ∈ split sep cs, piece ≠ [] := by
  induction cs with
  | nil => simp at h
  | cons x cs ih =>
    by_cases hx : sep x = true
    · obtain ⟨c, hmem, hc⟩ := h
      have hne : c ≠ x := by
        rintro rfl
        simp [hx] at hc
      obtain ⟨piece, hpiece, hnil⟩ := ih ⟨c, (List.mem_cons.mp hmem).resolve_left hne, hc⟩
      exact ⟨piece, by simp [split, hx, hpiece], hnil⟩
    · obtain ⟨piece, pieces, hpieces⟩ := List.exists_cons_of_ne_nil (split_ne_nil sep cs)
      exact ⟨x :: piece, by simp [split, hx, hpieces], by simp⟩

theorem exists_name {sep : Char → Bool} {cs : List Char} (h : ∃ c ∈ cs, sep c = false) :
    ∃ name ∈ (split sep cs).map String.ofList, name ≠ "" := by
  obtain ⟨piece, hmem, hnil⟩ := exists_piece h
  refine ⟨String.ofList piece, List.mem_map_of_mem hmem, fun hempty => hnil ?_⟩
  simpa using hempty

/-! ## Lines -/

/-- What may come behind a line: a line feed, a carriage return and a line feed, or nothing. -/
inductive EndsLine (line : List Char) : List Char → Prop
  | feed (after : List Char) (h : line.getLast? ≠ some '\r') : EndsLine line ('\n' :: after)
  | returnFeed (after : List Char) : EndsLine line ('\r' :: '\n' :: after)
  /-- What comes behind the last line feed is a line unless it is empty. -/
  | last (h : line ≠ []) : EndsLine line []

/-- A line of a text, without its end.  It begins where the text does or behind a line feed. -/
def IsLine (text line : List Char) : Prop :=
  ∃ before rest, text = before ++ (line ++ rest) ∧ (before = [] ∨ before.getLast? = some '\n') ∧
    '\n' ∉ line ∧ EndsLine line rest

theorem dropReturn_of_not {l : List Char} (h : l.getLast? ≠ some '\r') : dropReturn l = l := by
  unfold dropReturn
  split
  · contradiction
  · rfl

@[simp] theorem dropReturn_concat (l : List Char) : dropReturn (l ++ ['\r']) = l := by
  simp [dropReturn]

theorem split_of_no_feed {a : List Char} (h : '\n' ∉ a) : split (· = '\n') a = [a] := by
  refine split_of_not fun x hx => ?_
  have hne : x ≠ '\n' := fun heq => h (heq ▸ hx)
  simpa using hne

theorem lines_of_no_feed {a : List Char} (h : '\n' ∉ a) :
    lines a = if a.isEmpty then [] else [a] := by
  rw [lines, split_of_no_feed h]
  rfl

/-- The first line feed ends the first line. -/
theorem lines_append {a : List Char} (b : List Char) (h : '\n' ∉ a) :
    lines (a ++ '\n' :: b) = dropReturn a :: lines b := by
  have hsplit : split (· = '\n') (a ++ '\n' :: b) = a :: split (· = '\n') b := by
    rw [split_append a b (by simp), split_of_no_feed h]
    rfl
  obtain ⟨piece, pieces, hpieces⟩ := List.exists_cons_of_ne_nil (split_ne_nil (· = '\n') b)
  simp [lines, hsplit, hpieces]

theorem isLine_of_no_feed {a line : List Char} (h : '\n' ∉ a) :
    IsLine a line ↔ line = a ∧ a ≠ [] := by
  constructor
  · rintro ⟨before, rest, rfl, hbefore, -, hend⟩
    have hnil : before = [] := by
      refine hbefore.resolve_right fun hlast => h ?_
      exact List.mem_append_left _ (List.mem_of_getLast? hlast)
    subst hnil
    cases hend with
    | feed after _ => simp at h
    | returnFeed after => simp at h
    | last hne => simpa using hne
  · rintro ⟨rfl, hne⟩
    exact ⟨[], [], by simp, .inl rfl, h, .last hne⟩

/-- A line is the first one, or a line of what comes behind that. -/
theorem isLine_append {a line : List Char} (b : List Char) (h : '\n' ∉ a) :
    IsLine (a ++ '\n' :: b) line ↔ line = dropReturn a ∨ IsLine b line := by
  constructor
  · rintro ⟨before, rest, htext, hbefore, hline, hend⟩
    by_cases hfeed : '\n' ∈ before
    · obtain ⟨a', before', rfl, ha'⟩ := List.eq_append_cons_of_mem hfeed
      rw [List.append_assoc, List.cons_append] at htext
      obtain ⟨rfl, rfl⟩ := append_sep_inj h ha' htext
      refine .inr ⟨before', rest, rfl, ?_, hline, hend⟩
      cases hlast : before'.getLast? with
      | none => exact .inl (List.getLast?_eq_none_iff.mp hlast)
      | some c => exact .inr (by simpa [List.getLast?_cons, hlast] using hbefore)
    · have hnil : before = [] := by
        refine hbefore.resolve_right fun hlast => hfeed (List.mem_of_getLast? hlast)
      subst hnil
      rw [List.nil_append] at htext
      cases hend with
      | feed after hlast =>
        obtain ⟨rfl, -⟩ := append_sep_inj h hline htext
        exact .inl (dropReturn_of_not hlast).symm
      | returnFeed after =>
        have hline' : '\n' ∉ line ++ ['\r'] := by simpa using hline
        have hsplit : a ++ '\n' :: b = (line ++ ['\r']) ++ '\n' :: after := by simpa using htext
        obtain ⟨rfl, -⟩ := append_sep_inj h hline' hsplit
        exact .inl (dropReturn_concat line).symm
      | last hne => exact absurd (htext ▸ by simp) (List.append_nil line ▸ hline)
  · rintro (rfl | ⟨before, rest, rfl, hbefore, hline, hend⟩)
    · by_cases hlast : a.getLast? = some '\r'
      · obtain ⟨front, rfl⟩ := List.getLast?_eq_some_iff.mp hlast
        rw [dropReturn_concat]
        have hfront : '\n' ∉ front := fun hmem => h (List.mem_append_left _ hmem)
        exact ⟨[], '\r' :: '\n' :: b, by simp, .inl rfl, hfront, .returnFeed b⟩
      · rw [dropReturn_of_not hlast]
        exact ⟨[], '\n' :: b, rfl, .inl rfl, h, .feed b hlast⟩
    · refine ⟨a ++ '\n' :: before, rest, by simp, .inr ?_, hline, hend⟩
      rcases hbefore with rfl | hlast
      · simp
      · rw [List.getLast?_append, List.getLast?_cons, hlast]
        rfl

/-- `lines` gives the lines of a text. -/
theorem mem_lines_iff {text line : List Char} : line ∈ lines text ↔ IsLine text line := by
  by_cases hfeed : '\n' ∈ text
  · obtain ⟨a, b, rfl, ha⟩ := List.eq_append_cons_of_mem hfeed
    rw [lines_append b ha, List.mem_cons, isLine_append b ha, mem_lines_iff]
  · rw [lines_of_no_feed hfeed, isLine_of_no_feed hfeed]
    cases text <;> simp
termination_by text.length

/-- Lines that were ended by line feeds are read back if none ends with a carriage return. -/
theorem lines_flatMap {ls : List (List Char)} (h : ∀ l ∈ ls, '\n' ∉ l)
    (hr : ∀ l ∈ ls, l.getLast? ≠ some '\r') : lines (ls.flatMap (· ++ ['\n'])) = ls := by
  induction ls with
  | nil => rfl
  | cons l ls ih =>
    rw [List.flatMap_cons, List.append_assoc, List.singleton_append,
      lines_append _ (h l List.mem_cons_self), dropReturn_of_not (hr l List.mem_cons_self),
      ih (fun l' hl' => h l' (List.mem_cons_of_mem _ hl'))
        fun l' hl' => hr l' (List.mem_cons_of_mem _ hl')]

end Kiln.Text.Pieces
