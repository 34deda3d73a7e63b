import Kiln.Proofs.Text.Pieces

/-!
# Kiln.Proofs.Text.Joining — joining texts and cutting them up again

A text that was cut at every separator, empty pieces and all, comes back when the pieces are joined
(`join_splitString`).  The words of a text are its pieces without the empty ones.  A separator parts
the words before it from those behind it (`filled_append`), so words that were joined by separators
are found again (`words_join`), and what gets lost of a text are its separators alone (`join_words`).
-/

namespace Kiln.Text.Pieces

variable {sep : Char → Bool}

/-- The pieces of a text that are not empty. -/
def filled (sep : Char → Bool) (cs : List Char) : List (List Char) :=
  (split sep cs).filter (!·.isEmpty)

theorem words_eq (sep : Char → Bool) (s : String) :
    words sep s = (filled sep s.toList).map String.ofList := rfl

theorem filled_nil : filled sep [] = [] := rfl

/-- The words on both sides of a separator. -/
theorem filled_append {c : Char} (a b : List Char) (hc : sep c = true) :
    filled sep (a ++ c :: b) = filled sep a ++ filled sep b := by
  rw [filled, split_append a b hc, List.filter_append]
  rfl

/-- A text without separators is one word. -/
theorem filled_word {w : List Char} (hne : w ≠ []) (hw : ∀ c ∈ w, sep c = false) :
    filled sep w = [w] := by
  have hkeep : (!w.isEmpty) = true := by simpa using hne
  rw [filled, split_of_not hw]
  exact List.filter_cons_of_pos hkeep

/-- Separators in front do not count. -/
theorem filled_separators {glue : List Char} (hglue : ∀ c ∈ glue, sep c = true) (cs : List Char) :
    filled sep (glue ++ cs) = filled sep cs := by
  induction glue with
  | nil => rfl
  | cons c glue ih =>
    have hc : sep c = true := hglue c List.mem_cons_self
    have hfirst := filled_append [] (glue ++ cs) hc
    rw [List.nil_append, filled_nil, List.nil_append] at hfirst
    rw [List.cons_append, hfirst]
    exact ih fun d hd => hglue d (List.mem_cons_of_mem _ hd)

/-- A word, separators, and what comes behind them. -/
theorem filled_cons {w glue cs : List Char} (hne : w ≠ []) (hw : ∀ c ∈ w, sep c = false)
    (hglue : ∀ c ∈ glue, sep c = true) (hnil : glue ≠ []) :
    filled sep (w ++ glue ++ cs) = w :: filled sep cs := by
  cases glue with
  | nil => exact absurd rfl hnil
  | cons c glue =>
    obtain ⟨hc, hrest⟩ := List.forall_mem_cons.mp hglue
    rw [List.append_assoc, List.cons_append, filled_append w _ hc, filled_word hne hw,
      filled_separators hrest]
    rfl

/-- Words that are joined by separators are found again. -/
theorem words_join {ws : List String} {glue : String} (hws : ∀ w ∈ ws, w ≠ "")
    (hplain : ∀ w ∈ ws, ∀ c ∈ w.toList, sep c = false) (hne : glue ≠ "")
    (hglue : ∀ c ∈ glue.toList, sep c = true) : words sep (join glue ws) = ws := by
  induction ws with
  | nil => rfl
  | cons w ws ih =>
    obtain ⟨hw, hrest⟩ := List.forall_mem_cons.mp hws
    obtain ⟨hp, hprest⟩ := List.forall_mem_cons.mp hplain
    have hword : w.toList ≠ [] := by simpa using hw
    have hnil : glue.toList ≠ [] := by simpa using hne
    cases ws with
    | nil =>
      rw [join, words_eq, filled_word hword hp, List.map_singleton, String.ofList_toList]
    | cons v ws =>
      have hmore := ih hrest hprest
      rw [words_eq] at hmore
      have hjoin : join glue (w :: v :: ws) = w ++ glue ++ join glue (v :: ws) := rfl
      rw [hjoin, words_eq, String.toList_append, String.toList_append,
        filled_cons hword hp hglue hnil, List.map_cons, String.ofList_toList, hmore]

/-! ## What a text is made of -/

/-- A word is not empty, and no separator is in it. -/
theorem of_mem_words {s w : String} (h : w ∈ words sep s) : w ≠ "" ∧ ∀ c ∈ w.toList, sep c = false := by
  obtain ⟨piece, hpiece, rfl⟩ := List.mem_map.mp h
  obtain ⟨hmem, hne⟩ := List.mem_filter.mp hpiece
  refine ⟨by simpa using hne, ?_⟩
  rw [String.toList_ofList]
  exact plain_of_mem_split hmem

theorem flatten_split (cs : List Char) : (split sep cs).flatten = cs.filter (!sep ·) := by
  induction cs with
  | nil => rfl
  | cons c cs ih =>
    obtain ⟨piece, pieces, hpieces⟩ := List.exists_cons_of_ne_nil (split_ne_nil sep cs)
    rw [hpieces] at ih
    by_cases hc : sep c = true
    · simp [split, hc, hpieces, ih]
    · simp [split, hc, hpieces, ← ih]

theorem flatten_filled (cs : List Char) : (filled sep cs).flatten = cs.filter (!sep ·) := by
  rw [filled, List.flatten_filter_not_isEmpty, flatten_split]

theorem toList_join_empty (ws : List String) : (join "" ws).toList = (ws.map String.toList).flatten := by
  induction ws with
  | nil => rfl
  | cons w ws ih =>
    cases ws with
    | nil => simp [join]
    | cons v ws =>
      have hjoin : join "" (w :: v :: ws) = w ++ "" ++ join "" (v :: ws) := rfl
      rw [hjoin, String.toList_append, String.toList_append, ih]
      simp

/-- The words one after the other are the text without its separators. -/
theorem join_words (s : String) : join "" (words sep s) = String.ofList (s.toList.filter (!sep ·)) := by
  have hback : (filled sep s.toList).map (String.toList ∘ String.ofList) = filled sep s.toList := by
    simp [Function.comp_def]
  have htext := toList_join_empty (words sep s)
  rw [words_eq, List.map_map, hback, flatten_filled, ← words_eq] at htext
  rw [← htext, String.ofList_toList]

/-! ## All pieces -/

/-- Lists of texts are joined by what is joined of each. -/
theorem join_append {as bs : List String} (glue : String) (has : as ≠ []) (hbs : bs ≠ []) :
    join glue (as ++ bs) = join glue as ++ glue ++ join glue bs := by
  induction as with
  | nil => exact absurd rfl has
  | cons a as ih =>
    cases as with
    | nil =>
      obtain ⟨b, bs, rfl⟩ := List.exists_cons_of_ne_nil hbs
      rfl
    | cons a' as =>
      have hjoin (rest : List String) :
          join glue (a :: a' :: rest) = a ++ glue ++ join glue (a' :: rest) := rfl
      rw [List.cons_append, List.cons_append, hjoin, ← List.cons_append, ih (by simp), hjoin]
      simp only [String.append_assoc]

/-- The pieces between the separators, with the separator put back between them. -/
theorem join_splitString (c : Char) (s : String) :
    join (String.singleton c) (splitString (· = c) s) = s := by
  have htext (cs : List Char) : (join (String.singleton c)
      ((split (· = c) cs).map String.ofList)).toList = cs := by
    induction cs with
    | nil => simp [split, join]
    | cons d cs ih =>
      obtain ⟨piece, pieces, hpieces⟩ := List.exists_cons_of_ne_nil (split_ne_nil (· = c) cs)
      rw [hpieces] at ih
      by_cases hd : d = c
      · subst hd
        have hjoin : join (String.singleton d) ("" :: String.ofList piece :: pieces.map String.ofList) =
            "" ++ String.singleton d ++
              join (String.singleton d) (String.ofList piece :: pieces.map String.ofList) := rfl
        rw [split, if_pos (by simp), hpieces]
        simp only [List.map_cons] at ih ⊢
        rw [hjoin, String.toList_append, ih]
        simp
      · rw [split, if_neg (by simpa using hd), hpieces]
        cases pieces with
        | nil => simpa [join] using ih
        | cons piece' pieces => simpa [join] using ih
  rw [splitString, ← String.toList_inj, htext]

/-- Joining the pieces of several texts joins the texts. -/
theorem join_flatMap_splitString (c : Char) (texts : List String) :
    join (String.singleton c) (texts.flatMap (splitString (· = c))) =
      join (String.singleton c) texts := by
  induction texts with
  | nil => rfl
  | cons text texts ih =>
    have hpieces (s : String) : splitString (· = c) s ≠ [] := by
      simpa [splitString] using split_ne_nil (· = c) s.toList
    cases texts with
    | nil => simpa [join] using join_splitString c text
    | cons text' texts =>
      have hmore : (text' :: texts).flatMap (splitString (· = c)) ≠ [] := by
        simp [hpieces text']
      have hjoin : join (String.singleton c) (text :: text' :: texts) =
          text ++ String.singleton c ++ join (String.singleton c) (text' :: texts) := rfl
      rw [List.flatMap_cons, join_append _ (hpieces text) hmore, join_splitString, ih, hjoin]

end Kiln.Text.Pieces
