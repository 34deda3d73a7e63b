import Mathlib.Data.List.TakeWhile
import Mathlib.Tactic.SplitIfs
import Kiln.Text.Numeral

/-!
# Kiln.Proofs.Text.Numeral — reading decimal numbers

A decimal number is read off the front of a text without a mark at its end, provided that no digit
follows it.  Every number of 32 bits has a decimal literal.
-/

namespace Kiln.Text.Numeral

/-- The text does not go on with a digit. -/
def NoDigit (r : List Char) : Prop := ∀ c ∈ r.head?, c.isDigit = false

theorem takeWhile_isDigit_append {n : Nat} {r : List Char} (hr : NoDigit r) :
    (Nat.toDigits 10 n ++ r).takeWhile Char.isDigit = Nat.toDigits 10 n := by
  rw [List.takeWhile_append_of_pos fun c hc =>
    Nat.isDigit_of_mem_toDigits (by decide) (by decide) hc]
  cases r with
  | nil => simp
  | cons c r => simp [hr c (by simp)]

theorem toDigits_append_inj {m n : Nat} {r₁ r₂ : List Char} (h₁ : NoDigit r₁) (h₂ : NoDigit r₂)
    (h : Nat.toDigits 10 m ++ r₁ = Nat.toDigits 10 n ++ r₂) : m = n ∧ r₁ = r₂ := by
  have hd : Nat.toDigits 10 m = Nat.toDigits 10 n := by
    rw [← takeWhile_isDigit_append h₁, h, takeWhile_isDigit_append h₂]
  have hmn : m = n := by
    rw [← Nat.ofDigitChars_ten_toDigits (n := m), hd, Nat.ofDigitChars_ten_toDigits]
  rw [hd] at h
  exact ⟨hmn, List.append_cancel_left h⟩

theorem minus_ne_toDigits {n : Nat} {r s : List Char} : '-' :: r ≠ Nat.toDigits 10 n ++ s := by
  intro h
  cases hd : Nat.toDigits 10 n with
  | nil => exact Nat.toDigits_ne_nil hd
  | cons c ds =>
    have hc : c.isDigit = true :=
      Nat.isDigit_of_mem_toDigits (b := 10) (n := n) (by decide) (by decide) (by simp [hd])
    rw [hd] at h
    injection h with h
    subst h
    revert hc
    decide

theorem decimal_toList (n : Int32) :
    (decimal n).toList =
      if n.toInt < 0 then '-' :: Nat.toDigits 10 n.toInt.natAbs
      else Nat.toDigits 10 n.toInt.natAbs := by
  simp only [decimal]
  split <;> simp

/-- A decimal number that no digit follows is determined by the text it starts. -/
theorem decimal_append_inj {m n : Int32} {r₁ r₂ : List Char} (h₁ : NoDigit r₁) (h₂ : NoDigit r₂)
    (h : (decimal m).toList ++ r₁ = (decimal n).toList ++ r₂) : m = n ∧ r₁ = r₂ := by
  rw [decimal_toList, decimal_toList] at h
  suffices hmn : m.toInt = n.toInt ∧ r₁ = r₂ from ⟨Int32.toInt.inj hmn.1, hmn.2⟩
  split at h <;> split at h
  · injection h with _ h
    obtain ⟨ha, hr⟩ := toDigits_append_inj h₁ h₂ h
    exact ⟨by omega, hr⟩
  · exact absurd h minus_ne_toDigits
  · exact absurd h.symm minus_ne_toDigits
  · obtain ⟨ha, hr⟩ := toDigits_append_inj h₁ h₂ h
    exact ⟨by omega, hr⟩

/-! ## Literals -/

theorem isDigit_iff_range {c : Char} : c.isDigit = true ↔ 48 ≤ c.toNat ∧ c.toNat ≤ 57 := by
  rw [Char.isDigit, Bool.and_eq_true, ← Char.toNat_val]
  simp [UInt32.le_iff_toNat_le]

theorem digit?_of_isDigit {c : Char} (h : c.isDigit = true) :
    digit? 10 c = some (c.toNat - '0'.toNat) := by
  have hrange := isDigit_iff_range.mp h
  have hsmall : c.toNat - 48 < 10 := by omega
  simp [digit?, hrange, hsmall, Option.filter]

theorem isDigit_eq (c : Char) : isDigit c = c.isDigit := by
  cases h : c.isDigit with
  | true => rw [isDigit, digit?_of_isDigit h, Option.isSome_some]
  | false =>
    have hrange : ¬ (48 ≤ c.toNat ∧ c.toNat ≤ 57) := fun hr => by
      rw [isDigit_iff_range.mpr hr] at h
      cases h
    -- What other characters stand for is no digit below 10.
    rw [isDigit, Option.isSome_eq_false_iff, Option.isNone_iff_eq_none, digit?]
    simp only [hrange, if_false]
    split_ifs
    · rw [Option.filter_some, if_neg (by simp; omega)]
    · rw [Option.filter_some, if_neg (by simp; omega)]
    · rfl

theorem ofDigits_filterMap {cs : List Char} (h : ∀ c ∈ cs, c.isDigit = true) (acc : Nat) :
    (cs.filterMap (digit? 10)).foldl (fun acc d => acc * 10 + d) acc =
      Nat.ofDigitChars 10 cs acc := by
  induction cs generalizing acc with
  | nil => rfl
  | cons c cs ih =>
    rw [List.filterMap_cons_some (digit?_of_isDigit (h c (List.mem_cons_self ..))),
      List.foldl_cons, ih fun d hd => h d (List.mem_cons_of_mem c hd), Nat.mul_comm]
    rfl

/-- A literal made of digits is a decimal number. -/
theorem literal_toDigits (n : Nat) :
    literal (String.ofList (Nat.toDigits 10 n)) = Int32.ofNat n := by
  have hdigits : ∀ c ∈ Nat.toDigits 10 n, c.isDigit = true := fun c hc =>
    Nat.isDigit_of_mem_toDigits (by decide) (by decide) hc
  have hbase : literalDigits (Nat.toDigits 10 n) =
      (10, (Nat.toDigits 10 n).filterMap (digit? 10)) := by
    unfold literalDigits
    split
    · rename_i rest hx
      have hx : ('x').isDigit = true := hdigits 'x' (by simp [hx])
      exact absurd hx (by decide)
    · rfl
  rw [literal, String.toList_ofList, hbase]
  show Int32.ofNat (List.foldl _ 0 _) = _
  rw [ofDigits_filterMap hdigits, Nat.ofDigitChars_ten_toDigits]

/-- Any number of 32 bits is a decimal literal, that of the unsigned number with the same bits. -/
theorem literal_unsigned (k : Int32) :
    literal (String.ofList (Nat.toDigits 10 k.toUInt32.toNat)) = k := by
  rw [literal_toDigits]
  apply Int32.toBitVec_inj.mp
  simp [Int32.ofNat]

end Kiln.Text.Numeral
