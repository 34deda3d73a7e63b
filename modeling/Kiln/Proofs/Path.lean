import Kiln.Path
import Mathlib.Data.List.TakeWhile
import Mathlib.Tactic.SplitIfs

/-!
# Kiln.Proofs.Path — a path and the one without its last component

`enclosing?_append` says what `Path.enclosing?` takes away: what is left is a front piece of the
path, cut at a separator, and what is taken away has a name in it.
-/

namespace Kiln.Path

theorem head?_dropSilent (cs : List Char) : (dropSilent cs).head? ≠ some separator := by
  fun_induction dropSilent cs with
  | case1 rest ih => exact ih
  | case2 rest ih => exact ih
  | case3 => simp
  | case4 cs hslash _ _ =>
    intro h
    obtain ⟨rest, rfl⟩ := List.head?_eq_some_iff.mp h
    exact hslash rest rfl

/-- What is dropped ends with a separator, unless everything is. -/
theorem dropSilent_append (cs : List Char) :
    ∃ dropped, cs = dropped ++ dropSilent cs ∧
      (dropSilent cs ≠ [] → dropped ≠ [] → dropped.getLast? = some separator) := by
  fun_induction dropSilent cs with
  | case1 rest ih =>
    obtain ⟨dropped, hcs, hlast⟩ := ih
    refine ⟨'/' :: dropped, by rw [List.cons_append, ← hcs], fun hne _ => ?_⟩
    by_cases hnil : dropped = []
    · simp [hnil, separator]
    · rw [List.getLast?_cons, hlast hne hnil]
      rfl
  | case2 rest ih =>
    obtain ⟨dropped, hcs, hlast⟩ := ih
    refine ⟨'.' :: '/' :: dropped, by rw [List.cons_append, List.cons_append, ← hcs],
      fun hne _ => ?_⟩
    by_cases hnil : dropped = []
    · simp [hnil, separator]
    · rw [List.getLast?_cons, List.getLast?_cons, hlast hne hnil]
      rfl
  | case3 => exact ⟨['.'], rfl, fun hne => absurd rfl hne⟩
  | case4 cs _ _ _ => exact ⟨[], rfl, fun _ hne => absurd rfl hne⟩

theorem anchorLength_le (cs : List Char) : anchorLength cs ≤ 1 := by
  unfold anchorLength
  split <;> simp

/-- The start of a path that is no name is a separator, a single `.`, or a `.` before a separator.
-/
theorem take_anchorLength (cs : List Char) :
    cs.take (anchorLength cs) = [] ∨ cs.take (anchorLength cs) = [separator] ∨ cs = ['.'] ∨
      ∃ rest, cs.drop (anchorLength cs) = separator :: rest := by
  unfold anchorLength
  split
  · exact .inr (.inl rfl)
  · exact .inr (.inr (.inl rfl))
  · exact .inr (.inr (.inr ⟨_, rfl⟩))
  · exact .inl rfl

/-- Read from its end, a path that ends with a name goes on with a separator and what is above it.
-/
theorem exists_component {c : Char} (rest : List Char) (hc : isSeparator c = false) :
    ∃ tail, c ∈ tail ∧
      c :: rest = tail ++ dropSilent ((c :: rest).dropWhile (!isSeparator ·)) ∧
      (dropSilent ((c :: rest).dropWhile (!isSeparator ·)) ≠ [] →
        tail.getLast? = some separator) := by
  obtain ⟨between, hbetween, hlast⟩ := dropSilent_append ((c :: rest).dropWhile (!isSeparator ·))
  refine ⟨(c :: rest).takeWhile (!isSeparator ·) ++ between, by simp [hc], ?_, fun hne => ?_⟩
  · rw [List.append_assoc, ← hbetween, List.takeWhile_append_dropWhile]
  · have hnil : between ≠ [] := by
      rintro rfl
      -- what follows the name starts with a separator
      have hhead := head?_dropSilent ((c :: rest).dropWhile (!isSeparator ·))
      rw [List.nil_append] at hbetween
      have hsep := List.head?_dropWhile_not (!isSeparator ·) (c :: rest)
      rw [← hbetween] at hhead hne
      obtain ⟨b, more, hb⟩ := List.exists_cons_of_ne_nil hne
      rw [hb] at hsep hhead
      simp [isSeparator] at hsep hhead
      exact hhead hsep
    rw [List.getLast?_append, hlast hne hnil]
    rfl

/-- A path goes on where the one without its last component ends: at a separator, and with a name.
-/
theorem enclosing?_append {path above : String} (h : enclosing? path = some above)
    (hne : above ≠ "") :
    ∃ tail, path.toList = above.toList ++ tail ∧ (∃ c ∈ tail, isSeparator c = false) ∧
      (above.toList.getLast? = some separator ∨ tail.head? = some separator) := by
  unfold enclosing? at h
  generalize hcs : path.toList = cs at h
  dsimp only at h
  generalize hbody : dropSilent (cs.drop (anchorLength cs)).reverse = body at h
  have hhead : body.head? ≠ some separator := hbody ▸ head?_dropSilent _
  obtain ⟨silent, hsilent, -⟩ := dropSilent_append (cs.drop (anchorLength cs)).reverse
  rw [hbody] at hsilent
  split at h
  · split_ifs at h
    exact absurd (Option.some.inj h).symm hne
  · rename_i body hbodyne
    obtain ⟨c, rest, rfl⟩ := List.exists_cons_of_ne_nil (by simpa using hbodyne)
    have hc : isSeparator c = false := by simpa [isSeparator] using hhead
    obtain ⟨component, hmem, hword, hlast⟩ := exists_component rest hc
    obtain rfl := Option.some.inj h
    generalize dropSilent ((c :: rest).dropWhile (!isSeparator ·)) = before at *
    have hparts : cs.drop (anchorLength cs) =
        before.reverse ++ (component.reverse ++ silent.reverse) := by
      rw [← List.reverse_inj, hsilent, hword]
      simp
    refine ⟨component.reverse ++ silent.reverse, ?_, ⟨c, by simp [hmem], hc⟩, ?_⟩
    · rw [String.toList_ofList, List.append_assoc, ← hparts, List.take_append_drop]
    · rw [String.toList_ofList]
      by_cases hnil : before = []
      · subst hnil
        rw [List.reverse_nil, List.nil_append] at hparts
        rw [List.reverse_nil, List.append_nil, ← hparts]
        rcases take_anchorLength cs with htake | htake | hdot | ⟨after, hdrop⟩
        · rw [htake] at hne
          exact absurd rfl hne
        · rw [htake]
          exact .inl rfl
        · rw [hdot] at hsilent
          simp [anchorLength] at hsilent
        · rw [hdrop]
          exact .inr rfl
      · right
        rw [List.head?_append, List.head?_reverse, hlast hnil]
        rfl

end Kiln.Path
