import Kiln.Proofs.Text.Regex
import Kiln.Text.Glob

/-!
# Kiln.Proofs.Text.Glob — the language of a pattern

A pattern matches a text if the text can be cut into pieces, one for each item of the pattern, such
that every item takes its piece (`Matches`).  The expression of a pattern is spelled with one part for
every item between the two anchors, whatever the pattern holds (`spells_body`); so where the library
compiles it, it is found just in the texts that the pattern matches (`isMatch_iff`).
-/

namespace Kiln.Text.Glob

open Regex (Item TakeAll)

/-! ## Patterns and what they match -/

/-- A pattern is made up of these items, from the left. -/
inductive Spells : List Char → List Item → Prop
  | nil : Spells [] []
  | run {rest : List Char} {its : List Item} (h : Spells rest its) :
    Spells ('*' :: rest) (.run :: its)
  | one {rest : List Char} {its : List Item} (h : Spells rest its) :
    Spells ('?' :: rest) (.one :: its)
  | quoted {rest : List Char} {its : List Item} (c : Char) (h : Spells rest its) :
    Spells ('\\' :: c :: rest) (.exactly c :: its)
  | plain {c : Char} {rest : List Char} {its : List Item} (hrun : c ≠ '*') (hone : c ≠ '?')
    (hquote : c ≠ '\\') (h : Spells rest its) : Spells (c :: rest) (.exactly c :: its)
  /-- Nothing is left for a backslash at the end to quote. -/
  | trailing : Spells ['\\'] [.never]

/-- The items of the pattern take the whole text. -/
def Matches (pattern text : String) : Prop :=
  ∃ its, Spells pattern.toList its ∧ TakeAll its text.toList

theorem exists_spells (pattern : List Char) : ∃ its, Spells pattern its := by
  match pattern with
  | [] => exact ⟨_, .nil⟩
  | c :: rest =>
    obtain ⟨its, hits⟩ := exists_spells rest
    by_cases hrun : c = '*'
    · subst hrun
      exact ⟨_, .run hits⟩
    by_cases hone : c = '?'
    · subst hone
      exact ⟨_, .one hits⟩
    by_cases hquote : c = '\\'
    · subst hquote
      match rest with
      | [] => exact ⟨_, .trailing⟩
      | d :: rest =>
        obtain ⟨more, hmore⟩ := exists_spells rest
        exact ⟨_, .quoted d hmore⟩
    · exact ⟨_, .plain hrun hone hquote hits⟩

/-- A pattern has one list of items only. -/
theorem Spells.unique {pattern : List Char} {its its' : List Item} (h : Spells pattern its)
    (h' : Spells pattern its') : its = its' := by
  induction h generalizing its' with
  | nil =>
    cases h'
    rfl
  | run _ ih =>
    cases h' with
    | run h' => rw [ih h']
    | plain hrun _ _ _ => exact absurd rfl hrun
  | one _ ih =>
    cases h' with
    | one h' => rw [ih h']
    | plain _ hone _ _ => exact absurd rfl hone
  | quoted c _ ih =>
    cases h' with
    | quoted _ h' => rw [ih h']
    | plain _ _ hquote _ => exact absurd rfl hquote
  | plain hrun hone hquote _ ih =>
    cases h' with
    | plain _ _ _ h' => rw [ih h']
    | run _ => exact absurd rfl hrun
    | one _ => exact absurd rfl hone
    | quoted _ _ => exact absurd rfl hquote
    | trailing => exact absurd rfl hquote
  | trailing =>
    cases h' with
    | plain _ _ hquote _ => exact absurd rfl hquote
    | trailing => rfl

/-! ## The expression of a pattern -/

variable {lib : Regex.Library}

theorem body_plain (escape : String → String) {c : Char} (rest : List Char) (hrun : c ≠ '*')
    (hone : c ≠ '?') (hquote : c ≠ '\\') :
    body escape (c :: rest) = (escape (String.singleton c)).toList ++ body escape rest := by
  simp [body, hquote]

/-- The expression has a part for every item of the pattern, and ends where the text does. -/
theorem spells_body (hlib : lib.Documented) {pattern : List Char} {its : List Item}
    (h : Spells pattern its) :
    Regex.Spells (body lib.escape pattern ++ ['$']) (its.map Item.atom ++ [.finish]) := by
  have hend : Regex.Spells ['$'] [.finish] := .cons .finish Regex.noRepeat_nil .nil
  induction h with
  | nil => exact hend
  | run _ ih =>
    show Regex.Spells (['.', '*'] ++ _) (.anyRun :: _)
    exact .cons .anyRun ih.noRepeat ih
  | one _ ih =>
    show Regex.Spells (['.'] ++ _) (.any :: _)
    exact .cons .any ih.noRepeat ih
  | quoted c _ ih =>
    rw [body, List.append_assoc]
    exact .cons (.literal (hlib.escape c)) ih.noRepeat ih
  | plain hrun hone hquote _ ih =>
    rw [body_plain _ _ hrun hone hquote, List.append_assoc]
    exact .cons (.literal (hlib.escape _)) ih.noRepeat ih
  | trailing => exact .cons .nothing hend.noRepeat hend

/-- Where the expression of a pattern is compiled, it is found in the texts in the language of the
pattern. -/
theorem isMatch_iff (hlib : lib.Documented) {pattern : String} {isMatch : String → Bool}
    (hcompile : lib.compile (expression lib.escape pattern) = .ok isMatch) (text : String) :
    isMatch text = true ↔ Matches pattern text := by
  obtain ⟨its, hits⟩ := exists_spells pattern.toList
  have hbody := spells_body hlib hits
  have hspells : Regex.Spells ('^' :: (body lib.escape pattern.toList ++ ['$']))
      (.start :: (its.map Item.atom ++ [.finish])) := .cons .start hbody.noRepeat hbody
  have htext : expression lib.escape pattern =
      String.ofList ("(?s)".toList ++ '^' :: (body lib.escape pattern.toList ++ ['$'])) := rfl
  rw [hlib.find hspells (htext ▸ hcompile) text, Regex.found_anchored]
  constructor
  · exact fun htake => ⟨its, hits, htake⟩
  · rintro ⟨its', hits', htake⟩
    exact hits'.unique hits ▸ htake

end Kiln.Text.Glob
