import Kiln.Call
import Kiln.Proofs.Memory.Texts
import Kiln.Proofs.Text.Coercion
import Kiln.Proofs.Token.RoundTrip

/-!
# Kiln.Proofs.Text.Literals — numbers written down and read back

The two readings of a numeral, as a token of a source text and as a string that counts as a number,
differ on zeros in front, which make a string octal, and on the size they can tell apart.  A numeral
that is decimal without a zero in front, or hexadecimal after `0x`, is `Common` to both, and they
agree on it below `2 ^ 63`.

The writings are such numerals: a number in decimal is one, after its sign, and one in hexadecimal
with any number of zeros in front is one after `0x`.  So both are read back as the number.
-/

namespace Kiln.Text.Numeral

variable {base d n : Nat} {c : Char}

/-! ## Digits that are written -/

theorem digit_digitChar (hbase : base ≤ 16) (hd : d < base) : Digit base (Nat.digitChar d) d := by
  refine ⟨hd, .inl ?_⟩
  have hsmall : d < 16 := Nat.lt_of_lt_of_le hd hbase
  interval_cases d <;> rfl

theorem Digits.nil (base : Nat) : Digits base [] 0 := ⟨[], .nil, rfl⟩

/-- One more digit at the end. -/
theorem Digits.concat {cs : List Char} (h : Digits base cs n) (hc : Digit base c d) :
    Digits base (cs ++ [c]) (n * base + d) := by
  obtain ⟨ds, hds, rfl⟩ := h
  refine ⟨ds ++ [d], List.rel_append hds (.cons hc .nil), ?_⟩
  simp [ofDigits]

theorem digits_toDigits (hlow : 1 < base) (hhigh : base ≤ 16) (n : Nat) :
    Digits base (Nat.toDigits base n) n := by
  induction n using Nat.strong_induction_on with
  | _ n ih =>
    rw [Nat.toDigits_eq_if hlow]
    split_ifs with hn
    · have hone := (Digits.nil base).concat (digit_digitChar hhigh hn)
      simpa using hone
    · have hdiv : n / base < n := Nat.div_lt_self (by omega) hlow
      have hlast : Digit base (Nat.digitChar (n % base)) (n % base) :=
        digit_digitChar hhigh (Nat.mod_lt n (by omega))
      have hmore := (ih _ hdiv).concat hlast
      rwa [Nat.div_add_mod'] at hmore

/-- Zeros in front do not count. -/
theorem Digits.zeros {cs : List Char} (hbase : 0 < base) (h : Digits base cs n) (k : Nat) :
    Digits base (List.replicate k '0' ++ cs) n := by
  induction k with
  | zero => exact h
  | succ k ih =>
    obtain ⟨ds, hds, hn⟩ := ih
    refine ⟨0 :: ds, .cons ⟨hbase, .inl rfl⟩ hds, ?_⟩
    rw [← hn]
    simp [ofDigits]

/-! ## Digits that are read -/

theorem filterMap_digit? {cs : List Char} {ds : List Nat} (h : List.Forall₂ (Digit base) cs ds) :
    cs.filterMap (digit? base) = ds := by
  induction h with
  | nil => rfl
  | cons hc _ ih => rw [List.filterMap_cons_some (digit?_eq_some_iff.mpr hc), ih]

theorem magnitude_of_digits {cs : List Char} (hbase : 0 < base) (h : Digits base cs n) :
    magnitude base 0 cs = min n maxMagnitude := by
  obtain ⟨n', hn', hmagnitude⟩ := digits_magnitude base hbase cs
  rw [List.takeWhile_eq_self_iff.mpr (hasDigit_of_digits h)] at hn'
  rw [hmagnitude, hn'.unique h]

/-! ## Numerals -/

/-- The numerals of source texts: decimal digits, or `0x` and hexadecimal digits, if any. -/
inductive Source : List Char → Nat → Prop
  | decimal {c : Char} {cs : List Char} {n : Nat} : Digits 10 (c :: cs) n → Source (c :: cs) n
  | hexadecimal {cs : List Char} {n : Nat} : Digits 16 cs n → Source ('0' :: 'x' :: cs) n

/-- The numerals that a string may be as well: no decimal digits stand behind a zero. -/
structure Common (cs : List Char) (n : Nat) : Prop where
  source : Source cs n
  unpadded : ∀ c rest, cs = '0' :: c :: rest → c = 'x'

variable {cs : List Char} {text : String}

theorem digit_head {cs : List Char} (h : Digits base (c :: cs) n) : hasDigit base c = true :=
  hasDigit_of_digits h c List.mem_cons_self

theorem Source.head (h : Source cs n) : ∃ c rest, cs = c :: rest ∧ hasDigit 10 c = true := by
  cases h with
  | decimal h => exact ⟨_, _, rfl, digit_head h⟩
  | hexadecimal h => exact ⟨_, _, rfl, rfl⟩

theorem Source.plain (h : Source cs n) : Token.Plain .num cs := by
  cases h with
  | decimal h =>
    have hdigits := hasDigit_of_digits h
    have hdigit : ∀ c, hasDigit 10 c = c.isDigit := isDigit_eq
    simp only [hdigit, List.forall_mem_cons] at hdigits
    exact .decimal hdigits.1 hdigits.2
  | hexadecimal h => exact .hexadecimal (hasDigit_of_digits h)

/-- The value of a numeral in a source text wraps. -/
theorem literal_of_source (h : Source text.toList n) : literal text = Int32.ofNat n := by
  have hvalue {base : Nat} {cs : List Char} (h : Digits base cs n) :
      ofDigits base (cs.filterMap (digit? base)) = n := by
    obtain ⟨ds, hds, rfl⟩ := h
    rw [filterMap_digit? hds]
  unfold literal
  generalize text.toList = cs at h
  cases h with
  | @decimal c rest _ h =>
    have hbase : literalDigits (c :: rest) = (10, (c :: rest).filterMap (digit? 10)) := by
      unfold literalDigits
      split
      · rename_i heq
        rw [heq] at h
        exact absurd (hasDigit_of_digits h 'x' (by simp)) (by decide)
      · rfl
    rw [hbase]
    exact congrArg Int32.ofNat (hvalue h)
  | hexadecimal h => exact congrArg Int32.ofNat (hvalue h)

/-! ## The same numerals in strings -/

theorem splitBase_of_ne (h : c ≠ '0') (rest : List Char) :
    splitBase (c :: rest) = (10, c :: rest) := by
  unfold splitBase
  split
  · rename_i heq
    exact absurd (List.cons.inj heq).1 h
  · rename_i heq
    exact absurd (List.cons.inj heq).1 h
  · rfl

theorem splitBase_hexadecimal (h : hasDigit 16 c = true) (rest : List Char) :
    splitBase ('0' :: 'x' :: c :: rest) = (16, c :: rest) := by
  have hdigit : isHexDigit c = true := h
  simp [splitBase, hdigit]

/-- The magnitude of a string is the number, up to the bound. -/
theorem Common.magnitude (h : Common cs n) :
    magnitude (splitBase cs).1 0 (splitBase cs).2 = min n maxMagnitude := by
  obtain ⟨hsource, hunpadded⟩ := h
  cases hsource with
  | @decimal c rest _ h =>
    by_cases hc : c = '0'
    · subst hc
      cases rest with
      | nil =>
        have hzero : n = 0 := h.unique ⟨[0], .cons ⟨by decide, .inl rfl⟩ .nil, rfl⟩
        rw [hzero]
        rfl
      | cons x more =>
        obtain rfl := hunpadded x more rfl
        exact absurd (hasDigit_of_digits h 'x' (by simp)) (by decide)
    · rw [splitBase_of_ne hc]
      exact magnitude_of_digits (Nat.zero_lt_succ 9) h
  | @hexadecimal rest _ h =>
    cases rest with
    | nil =>
      have hzero : n = 0 := h.unique (.nil 16)
      rw [hzero]
      rfl
    | cons c more =>
      rw [splitBase_hexadecimal (digit_head h)]
      exact magnitude_of_digits (Nat.zero_lt_succ 15) h

theorem not_sign_of_digit (h : hasDigit 10 c = true) : c ≠ '+' ∧ c ≠ '-' ∧ isBlank c = false := by
  refine ⟨?_, ?_, ?_⟩
  · rintro rfl
    exact absurd h (by decide)
  · rintro rfl
    exact absurd h (by decide)
  · refine Bool.not_eq_true _ ▸ fun hblank => ?_
    have hmem := isBlank_iff.mp hblank
    have hnone : blanks.any (hasDigit 10) = false := by decide
    exact List.any_eq_false.mp hnone c hmem h

/-- The number that is read of a numeral, and of one behind a minus sign. -/
theorem Common.reading (h : Common cs n) :
    reading cs = (min n maxMagnitude : Nat) ∧ reading ('-' :: cs) = -(min n maxMagnitude : Nat) := by
  obtain ⟨c, rest, hhead, hdigit⟩ := h.source.head
  obtain ⟨hplus, hminus, -⟩ := not_sign_of_digit hdigit
  have hsign : splitSign cs = (false, cs) := by
    rw [hhead, splitSign]
    · exact fun _ heq => hplus (List.cons.inj heq).1
    · exact fun _ heq => hminus (List.cons.inj heq).1
  rw [← h.magnitude]
  constructor
  · simp only [Numeral.reading, hsign]
    rfl
  · rfl

/-- What such strings count as. -/
theorem coerce_of_common {cs : List Char} (h : Common cs n) :
    coerce (String.ofList cs) = Int32.ofInt (min n maxMagnitude : Nat) ∧
      coerce (String.ofList ('-' :: cs)) = Int32.ofInt (-(min n maxMagnitude : Nat)) := by
  obtain ⟨c, rest, hhead, hdigit⟩ := h.source.head
  obtain ⟨-, -, hblank⟩ := not_sign_of_digit hdigit
  obtain ⟨hplain, hminus⟩ := h.reading
  have hkept : cs.dropWhile isBlank = cs := by
    rw [hhead, List.dropWhile_cons_of_neg (Bool.eq_false_iff.mp hblank)]
  rw [coerce_eq, coerce_eq, String.toList_ofList, String.toList_ofList]
  constructor
  · rw [hkept, hplain]
  · rw [List.dropWhile_cons_of_neg (by decide), hminus]

/-! ## Both writings -/

/-- Only the number 0 starts with a zero. -/
theorem toDigits_zero_head {rest : List Char} (h : Nat.toDigits 10 n = '0' :: rest) : rest = [] := by
  induction n using Nat.strong_induction_on generalizing rest with
  | _ n ih =>
    rw [Nat.toDigits_eq_if (by decide)] at h
    split_ifs at h with hn
    · exact (List.cons.inj h).2.symm
    · have hpos : 0 < n / 10 := by omega
      cases hfront : Nat.toDigits 10 (n / 10) with
      | nil => exact absurd hfront Nat.toDigits_ne_nil
      | cons c more =>
        rw [hfront, List.cons_append] at h
        obtain ⟨rfl, -⟩ := List.cons.inj h
        obtain rfl := ih (n / 10) (by omega) hfront
        -- what is in front of the last digit is 0 then
        have hdigits : Digits 10 ['0'] (n / 10) :=
          hfront ▸ digits_toDigits (by decide) (by decide) (n / 10)
        have hzero : n / 10 = 0 := hdigits.unique ⟨[0], .cons ⟨by decide, .inl rfl⟩ .nil, rfl⟩
        omega

theorem common_toDigits (n : Nat) : Common (Nat.toDigits 10 n) n := by
  have hdigits : Digits 10 (Nat.toDigits 10 n) n := digits_toDigits (by decide) (by decide) n
  cases hcs : Nat.toDigits 10 n with
  | nil => exact absurd hcs Nat.toDigits_ne_nil
  | cons c rest =>
    rw [hcs] at hdigits
    refine ⟨.decimal hdigits, fun d more heq => ?_⟩
    obtain ⟨rfl, rfl⟩ := List.cons.inj heq
    cases toDigits_zero_head hcs

theorem toList_marked_hex (n : Int32) (width : Nat) : ("0x" ++ hex n width).toList =
    '0' :: 'x' :: (List.replicate (width - (Nat.toDigits 16 n.toUInt32.toNat).length) '0' ++
      Nat.toDigits 16 n.toUInt32.toNat) := by
  simp [hex]

theorem common_marked_hex (n : Int32) (width : Nat) :
    Common ("0x" ++ hex n width).toList n.toUInt32.toNat := by
  have hdigits : Digits 16 (Nat.toDigits 16 n.toUInt32.toNat) n.toUInt32.toNat :=
    digits_toDigits (by decide) (by decide) _
  rw [toList_marked_hex]
  refine ⟨.hexadecimal (hdigits.zeros (by decide) _), fun c rest heq => ?_⟩
  exact (List.cons.inj (List.cons.inj heq).2).1.symm

theorem ofNat_toUInt32 (n : Int32) : Int32.ofNat n.toUInt32.toNat = n := by
  apply Int32.toBitVec_inj.mp
  simp [Int32.ofNat]

/-- A number in decimal counts as the number. -/
theorem coerce_decimal (n : Int32) : coerce (decimal n) = n := by
  have hlow : -2 ^ 31 ≤ n.toInt := n.le_toInt
  have hhigh : n.toInt < 2 ^ 31 := n.toInt_lt
  have hbound : maxMagnitude = 9223372036854775807 := rfl
  have hmagnitude : min n.toInt.natAbs maxMagnitude = n.toInt.natAbs :=
    Nat.min_eq_left (by omega)
  obtain ⟨hplain, hminus⟩ := coerce_of_common (common_toDigits n.toInt.natAbs)
  rw [← String.ofList_toList (s := decimal n), decimal_toList]
  split_ifs with hneg
  · have hvalue : -(n.toInt.natAbs : Int) = n.toInt := by omega
    rw [hminus, hmagnitude, hvalue, Int32.ofInt_toInt]
  · have hvalue : (n.toInt.natAbs : Int) = n.toInt := by omega
    rw [hplain, hmagnitude, hvalue, Int32.ofInt_toInt]

/-- Below the bound both readings of a numeral are its number. -/
theorem readings_of_common (h : Common text.toList n) (hn : n < 2 ^ 63) :
    literal text = Int32.ofNat n ∧ (Value.str text).toInt = Int32.ofNat n := by
  have hbound : maxMagnitude = 2 ^ 63 - 1 := rfl
  obtain ⟨hplain, -⟩ := coerce_of_common h
  rw [String.ofList_toList, Nat.min_eq_left (by omega)] at hplain
  exact ⟨literal_of_source h.source, hplain⟩

/-- With a zero in front the readings differ. -/
example : literal "010" = 10 ∧ (Value.str "010").toInt = 8 := by decide

/-- A text that is a numeral is one token. -/
theorem words_of_source (h : Source text.toList n) (file : String) :
    (Stream.ofText text file).words = ([(.num, text), (.eof, "")], .ok ()) := by
  have hword : Token.Word (.num, text) := .plain h.plain
  obtain ⟨line, last, hread⟩ :=
    @Stream.words_printed file "" 1 (.num, text) hword [] [] .nil nofun
  have hprinted : Token.printed (.num, text) = text.toList := rfl
  rw [List.nil_append, List.append_nil, hprinted, Stream.words_filler .nil] at hread
  exact hread

/-- The string form of an integer counts as the integer.  So does `0x` with what `hex` makes of it, to
any width or none, and in a source text that is one token with the integer as its value.  And below
`2 ^ 63` a numeral without a zero in front has the same value in a source text and in a string. -/
theorem integers_survive_text :
    (∀ (n : Int32) (m : Memory), ∃ text, Memory.textOf (.int n) m = (.ok text, m) ∧
      (Value.str text).toInt = n) ∧
    (∀ (n : Int32) (width : List Value) (s : Machine) (file : String), ∃ digits,
      Builtin.call .hex (.int n :: width) s = (.ok (.str digits), s) ∧
      (Value.str ("0x" ++ digits)).toInt = n ∧
      (Stream.ofText ("0x" ++ digits) file).words =
        ([(.num, "0x" ++ digits), (.eof, "")], .ok ()) ∧
      literal ("0x" ++ digits) = n) ∧
    ∀ (text : String) (n : Nat), Common text.toList n → n < 2 ^ 63 →
      literal text = Int32.ofNat n ∧ (Value.str text).toInt = Int32.ofNat n := by
  refine ⟨fun n m => ⟨decimal n, Memory.textOf_int n m, coerce_decimal n⟩, fun n width s file => ?_,
    fun text n h hn => readings_of_common h hn⟩
  obtain ⟨size, hrun⟩ : ∃ size,
      Builtin.call .hex (.int n :: width) s = (.ok (.str (hex n size)), s) := ⟨_, rfl⟩
  have hcommon : Common ("0x" ++ hex n size).toList n.toUInt32.toNat := common_marked_hex n size
  have hlt : n.toUInt32.toNat < 2 ^ 63 := Nat.lt_trans n.toUInt32.toNat_lt (by decide)
  obtain ⟨hliteral, hcoerced⟩ := readings_of_common hcommon hlt
  rw [ofNat_toUInt32] at hliteral hcoerced
  exact ⟨hex n size, hrun, hcoerced, words_of_source hcommon.source file, hliteral⟩

/-- The largest numeral of 63 bits, whose low 32 bits are all ones. -/
theorem integers_survive_text_allOnes :
    Common "9223372036854775807".toList 9223372036854775807 ∧ 9223372036854775807 < 2 ^ 63 ∧
      literal "9223372036854775807" = -1 ∧ (Value.str "9223372036854775807").toInt = -1 := by
  have hdigits : "9223372036854775807".toList = Nat.toDigits 10 9223372036854775807 := by decide
  have hcommon : Common "9223372036854775807".toList 9223372036854775807 := by
    rw [hdigits]
    exact common_toDigits _
  have hlt : 9223372036854775807 < 2 ^ 63 := by decide
  obtain ⟨hliteral, hcoerced⟩ := integers_survive_text.2.2 _ _ hcommon hlt
  exact ⟨hcommon, hlt, hliteral, hcoerced⟩

end Kiln.Text.Numeral
