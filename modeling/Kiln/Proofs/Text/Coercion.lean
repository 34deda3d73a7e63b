import Mathlib.Data.List.Forall2
import Mathlib.Data.List.Infix
import Mathlib.Data.List.TakeWhile
import Mathlib.Tactic.IntervalCases
import Kiln.Value

/-!
# Kiln.Proofs.Text.Coercion — strings as numbers

What number a text stands for is told by a grammar: the longest beginning of the text, after blanks,
that is an integer constant of C with or without a sign, its value brought between the limits of 64
bits (`Strtol`).  A string counts as the low 32 bits of that number.

There is one exception.  The magnitude is bounded before the sign is applied, so a string cannot
stand for the least number of 64 bits: it counts as the one after it (`coerce_strtol`).
-/

namespace Kiln.Text.Numeral

/-! ## The grammar -/

/-- The digits of bases up to 16 in their order. -/
def lowerDigits : List Char :=
  ['0', '1', '2', '3', '4', '5', '6', '7', '8', '9', 'a', 'b', 'c', 'd', 'e', 'f']

/-- The same digits with capitals. -/
def upperDigits : List Char :=
  ['0', '1', '2', '3', '4', '5', '6', '7', '8', '9', 'A', 'B', 'C', 'D', 'E', 'F']

/-- The character is the digit `d` in a base up to 16. -/
def Digit (base : Nat) (c : Char) (d : Nat) : Prop :=
  d < base ∧ (lowerDigits[d]? = some c ∨ upperDigits[d]? = some c)

/-- The characters are the digits of `n`, most significant first. -/
def Digits (base : Nat) (cs : List Char) (n : Nat) : Prop :=
  ∃ ds, List.Forall₂ (Digit base) cs ds ∧ ofDigits base ds = n

/-- Integer constants of C, and their values. -/
inductive Constant : List Char → Nat → Prop
  | decimal {c : Char} {cs : List Char} {n : Nat} :
      c ≠ '0' → Digits 10 (c :: cs) n → Constant (c :: cs) n
  | octal {cs : List Char} {n : Nat} : Digits 8 ('0' :: cs) n → Constant ('0' :: cs) n
  | hexadecimal {x c : Char} {cs : List Char} {n : Nat} :
      (x = 'x' ∨ x = 'X') → Digits 16 (c :: cs) n → Constant ('0' :: x :: c :: cs) n

/-- Constants with or without a sign. -/
inductive Signed : List Char → Int → Prop
  | plain {cs : List Char} {n : Nat} : Constant cs n → Signed cs n
  | plus {cs : List Char} {n : Nat} : Constant cs n → Signed ('+' :: cs) n
  | minus {cs : List Char} {n : Nat} : Constant cs n → Signed ('-' :: cs) (-n)

/-- `front` is the longest beginning of `cs` that has the form, and `n` is its value. -/
structure Longest {α : Type} (Form : List Char → α → Prop) (cs front : List Char) (n : α) : Prop where
  form : Form front n
  isFront : front <+: cs
  longest : ∀ other k, other <+: cs → Form other k → other.length ≤ front.length

/-- The number, or the limit of 64 bits that it is past. -/
def clamp (n : Int) : Int := max (-9223372036854775808) (min n 9223372036854775807)

/-- What stands in a text in front of a number: the blanks of C. -/
def blanks : List Char := [' ', '\t', '\n', '\x0b', '\x0c', '\r']

/-- What `strtol` with base 0 makes of a text, with numbers of 64 bits. -/
inductive Strtol (text : String) : Int → Prop
  | number {before after front : List Char} {n : Int} (htext : text.toList = before ++ after)
      (hbefore : ∀ c ∈ before, c ∈ blanks) (hafter : ∀ c ∈ after.head?, c ∉ blanks)
      (hfront : Longest Signed after front n) : Strtol text (clamp n)
  | nothing {before after : List Char} (htext : text.toList = before ++ after)
      (hbefore : ∀ c ∈ before, c ∈ blanks) (hafter : ∀ c ∈ after.head?, c ∉ blanks)
      (hnone : ∀ front n, front <+: after → ¬ Signed front n) : Strtol text 0

/-! ## Digits -/

variable {base d n k : Nat} {c : Char} {cs ds rest : List Char}

theorem digit?_eq_some_iff : digit? base c = some d ↔ Digit base c d := by
  have hc : c = Char.ofNat c.toNat := (Char.ofNat_toNat c).symm
  constructor
  · intro h
    simp only [digit?, Option.filter_eq_some_iff, decide_eq_true_eq] at h
    obtain ⟨h, hlt⟩ := h
    refine ⟨hlt, ?_⟩
    generalize c.toNat = i at *
    subst hc
    split_ifs at h with h₀ h₁ h₂ <;> cases h
    · obtain ⟨hlo, hhi⟩ := h₀
      interval_cases i <;> decide
    · obtain ⟨hlo, hhi⟩ := h₁
      interval_cases i <;> decide
    · obtain ⟨hlo, hhi⟩ := h₂
      interval_cases i <;> decide
  · rintro ⟨hlt, h⟩
    have hd : d < 16 := by
      rcases h with h | h <;> exact (List.getElem?_eq_some_iff.mp h).1
    interval_cases d <;> rcases h with h | h <;> cases h <;> simp [digit?, Option.filter, hlt]

theorem Digit.unique {d' : Nat} (h : Digit base c d) (h' : Digit base c d') : d = d' :=
  Option.some.inj ((digit?_eq_some_iff.mpr h).symm.trans (digit?_eq_some_iff.mpr h'))

/-- Whether the character is a digit in the base. -/
def hasDigit (base : Nat) (c : Char) : Bool := (digit? base c).isSome

theorem hasDigit_of_digits (h : Digits base cs n) : ∀ c ∈ cs, hasDigit base c = true := by
  obtain ⟨ds, hds, -⟩ := h
  induction hds with
  | nil => simp
  | cons hd _ ih =>
    refine List.forall_mem_cons.mpr ⟨?_, ih⟩
    rw [hasDigit, digit?_eq_some_iff.mpr hd]
    rfl

theorem Digits.unique {n' : Nat} (h : Digits base cs n) (h' : Digits base cs n') : n = n' := by
  obtain ⟨ds, hds, rfl⟩ := h
  obtain ⟨ds', hds', rfl⟩ := h'
  suffices heq : ds = ds' by rw [heq]
  induction hds generalizing ds' with
  | nil =>
    cases hds'
    rfl
  | cons hd _ ih =>
    cases hds' with
    | cons hd' hrest' => rw [hd.unique hd', ih _ hrest']

/-- No more characters than there are digits in front. -/
theorem length_le_of_digits (h : Digits base cs n) (hcs : cs <+: rest) :
    cs.length ≤ (rest.takeWhile (hasDigit base)).length := by
  obtain ⟨more, rfl⟩ := hcs
  rw [List.takeWhile_append_of_pos (hasDigit_of_digits h), List.length_append]
  exact Nat.le_add_right _ _

/-! ## The magnitude -/

/-- The bound has no effect but on what is past it. -/
theorem magnitude_eq (hbase : 0 < base) (acc : Nat) (cs : List Char) :
    ∃ ds, List.Forall₂ (Digit base) (cs.takeWhile (hasDigit base)) ds ∧
      magnitude base (min acc maxMagnitude) cs =
        min (ds.foldl (fun acc d => acc * base + d) acc) maxMagnitude := by
  induction cs generalizing acc with
  | nil => exact ⟨[], .nil, rfl⟩
  | cons c cs ih =>
    cases hc : digit? base c with
    | none => exact ⟨[], by simp [hasDigit, hc], by simp [magnitude, hc]⟩
    | some d =>
      obtain ⟨ds, hds, hmagnitude⟩ := ih (acc * base + d)
      refine ⟨d :: ds, ?_, ?_⟩
      · rw [List.takeWhile_cons_of_pos (by simp [hasDigit, hc])]
        exact .cons (digit?_eq_some_iff.mp hc) hds
      · rw [List.foldl_cons, ← hmagnitude]
        simp only [magnitude, hc]
        congr 1
        rcases Nat.le_total acc maxMagnitude with hle | hge
        · rw [Nat.min_eq_left hle]
        · have hmul : maxMagnitude ≤ maxMagnitude * base := Nat.le_mul_of_pos_right _ hbase
          have hmul' : acc * base ≥ maxMagnitude * base := Nat.mul_le_mul_right base hge
          rw [Nat.min_eq_right hge, Nat.min_eq_right (by omega), Nat.min_eq_right (by omega)]

/-- The magnitude is that of the digits in front. -/
theorem digits_magnitude (base : Nat) (hbase : 0 < base) (cs : List Char) :
    ∃ n, Digits base (cs.takeWhile (hasDigit base)) n ∧
      magnitude base 0 cs = min n maxMagnitude := by
  obtain ⟨ds, hds, hmagnitude⟩ := magnitude_eq hbase 0 cs
  exact ⟨_, ⟨ds, hds, rfl⟩, hmagnitude⟩

/-! ## Constants -/

theorem Constant.unique {n' : Nat} (h : Constant cs n) (h' : Constant cs n') : n = n' := by
  have hmark {x : Char} {cs : List Char} {n : Nat} (hx : x = 'x' ∨ x = 'X') :
      ¬ Digits 8 ('0' :: x :: cs) n := fun hdigits => by
    have hdigit := hasDigit_of_digits hdigits x (by simp)
    rcases hx with rfl | rfl <;> exact absurd hdigit (by decide)
  cases h with
  | decimal hc hn =>
    cases h' with
    | decimal _ hn' => exact hn.unique hn'
    | octal | hexadecimal => exact absurd rfl hc
  | octal hn =>
    cases h' with
    | decimal hc' => exact absurd rfl hc'
    | octal hn' => exact hn.unique hn'
    | hexadecimal hx => exact absurd hn (hmark hx)
  | hexadecimal hx hn =>
    cases h' with
    | decimal hc' => exact absurd rfl hc'
    | octal hn' => exact absurd hn' (hmark hx)
    | hexadecimal _ hn' => exact hn.unique hn'

section LongestConstant

variable {x : Char}

/-- After the mark of base 16 come as many digits of that base as there are. -/
theorem longest_hexadecimal (hx : x = 'x' ∨ x = 'X') (hc : hasDigit 16 c = true) :
    ∃ front n, Longest Constant ('0' :: x :: c :: rest) front n ∧
      magnitude 16 0 (c :: rest) = min n maxMagnitude := by
  obtain ⟨n, hn, hmagnitude⟩ := digits_magnitude 16 (by decide) (c :: rest)
  have hfront := List.takeWhile_prefix (l := c :: rest) (hasDigit 16)
  have hlength : ∀ {other k}, Digits 16 other k → other <+: c :: rest →
      other.length ≤ ((c :: rest).takeWhile (hasDigit 16)).length := fun h => length_le_of_digits h
  rw [List.takeWhile_cons_of_pos hc] at hn hfront hlength
  refine ⟨_, n, ⟨.hexadecimal hx hn, ?_, fun other k hother hk => ?_⟩, hmagnitude⟩
  · simpa using hfront
  · cases hk with
    | decimal hne => exact absurd (List.cons_prefix_cons.mp hother).1 hne
    | octal hk =>
      -- the mark is no digit of base 8, so nothing follows the zero
      obtain ⟨-, htail⟩ := List.cons_prefix_cons.mp hother
      rcases List.prefix_cons_iff.mp htail with rfl | ⟨more, rfl, -⟩
      · simp
      · have hdigit := hasDigit_of_digits hk x (by simp)
        rcases hx with rfl | rfl <;> exact absurd hdigit (by decide)
    | hexadecimal _ hk =>
      obtain ⟨-, htail⟩ := List.cons_prefix_cons.mp hother
      obtain ⟨-, htail⟩ := List.cons_prefix_cons.mp htail
      have := hlength hk htail
      simpa using this

/-- A zero without the mark of base 16 starts digits of base 8. -/
theorem longest_octal (hmark : ∀ x c more, rest = x :: c :: more → (x = 'x' ∨ x = 'X') →
      hasDigit 16 c = false) :
    ∃ front n, Longest Constant ('0' :: rest) front n ∧
      magnitude 8 0 ('0' :: rest) = min n maxMagnitude := by
  obtain ⟨n, hn, hmagnitude⟩ := digits_magnitude 8 (by decide) ('0' :: rest)
  have hform : Constant (('0' :: rest).takeWhile (hasDigit 8)) n := by
    have hzero : hasDigit 8 '0' = true := by decide
    rw [List.takeWhile_cons_of_pos hzero] at hn ⊢
    exact .octal hn
  refine ⟨_, n, ⟨hform, List.takeWhile_prefix _, fun other k hother hk => ?_⟩, hmagnitude⟩
  cases hk with
  | decimal hne => exact absurd (List.cons_prefix_cons.mp hother).1 hne
  | octal hk => exact length_le_of_digits hk hother
  | hexadecimal hx hk =>
    obtain ⟨-, more, hmore⟩ := List.cons_prefix_cons.mp hother
    have hdigit := hasDigit_of_digits hk _ List.mem_cons_self
    rw [hmark _ _ _ hmore.symm hx] at hdigit
    cases hdigit

/-- Without a zero in front, all digits of base 10 that there are, if any, are the constant. -/
theorem longest_decimal (hzero : ∀ rest, cs ≠ '0' :: rest) :
    (∃ front n, Longest Constant cs front n ∧ magnitude 10 0 cs = min n maxMagnitude) ∨
      (∀ front n, front <+: cs → ¬ Constant front n) ∧ magnitude 10 0 cs = 0 := by
  obtain ⟨n, hn, hmagnitude⟩ := digits_magnitude 10 (by decide) cs
  have hdecimal : ∀ other k, other <+: cs → Constant other k →
      other ≠ [] ∧ other.length ≤ (cs.takeWhile (hasDigit 10)).length := by
    intro other k hother hk
    cases hk with
    | decimal _ hk => exact ⟨by simp, length_le_of_digits hk hother⟩
    | octal | hexadecimal =>
      obtain ⟨more, hmore⟩ := hother
      exact absurd hmore.symm (hzero _)
  cases hfront : cs.takeWhile (hasDigit 10) with
  | nil =>
    right
    rw [hfront] at hn hdecimal
    have hzero : n = 0 := hn.unique ⟨[], .nil, rfl⟩
    refine ⟨fun other k hother hk => ?_, by rw [hmagnitude, hzero]; rfl⟩
    obtain ⟨hne, hlength⟩ := hdecimal other k hother hk
    exact hne (List.length_eq_zero_iff.mp (Nat.le_zero.mp hlength))
  | cons c more =>
    left
    have hprefix : c :: more <+: cs := hfront ▸ List.takeWhile_prefix _
    rw [hfront] at hn hdecimal
    refine ⟨_, n, ⟨.decimal ?_ hn, hprefix, fun other k hother hk => ?_⟩, hmagnitude⟩
    · rintro rfl
      obtain ⟨after, hafter⟩ := hprefix
      exact hzero _ hafter.symm
    · exact (hdecimal other k hother hk).2

/-- The magnitude that is read is that of the longest constant, up to the bound. -/
theorem longest_constant (cs : List Char) :
    (∃ front n, Longest Constant cs front n ∧
      magnitude (splitBase cs).1 0 (splitBase cs).2 = min n maxMagnitude) ∨
    (∀ front n, front <+: cs → ¬ Constant front n) ∧
      magnitude (splitBase cs).1 0 (splitBase cs).2 = 0 := by
  fun_cases splitBase cs with
  | case1 x d rest h =>
    simp only [Bool.and_eq_true, Bool.or_eq_true, decide_eq_true_eq] at h
    exact .inl (longest_hexadecimal h.1 h.2)
  | case2 x d rest h =>
    refine .inl (longest_octal ?_)
    rintro x' c more ⟨⟩ hx
    simpa [hx, isHexDigit, hasDigit] using h
  | case3 rest h =>
    refine .inl (longest_octal ?_)
    rintro x c more rfl
    exact absurd rfl (h x c more)
  | case4 _ _ hzero => exact longest_decimal hzero

end LongestConstant

/-! ## Signs -/

/-- A constant starts with a digit. -/
theorem Constant.head (h : Constant cs n) : ∃ c rest, cs = c :: rest ∧ hasDigit 10 c = true := by
  cases h with
  | decimal _ hn => exact ⟨_, _, rfl, hasDigit_of_digits hn _ List.mem_cons_self⟩
  | octal | hexadecimal => exact ⟨_, _, rfl, by decide⟩

theorem Signed.unique {n n' : Int} (h : Signed cs n) (h' : Signed cs n') : n = n' := by
  have hsign {sign : Char} {cs : List Char} {n : Nat} (hsign : hasDigit 10 sign = false) :
      ¬ Constant (sign :: cs) n := fun h => by
    obtain ⟨c, rest, hc, hdigit⟩ := h.head
    cases hc
    rw [hsign] at hdigit
    cases hdigit
  cases h with
  | plain h =>
    cases h' with
    | plain h' => rw [h.unique h']
    | plus | minus => exact absurd h (hsign (by decide))
  | plus h =>
    cases h' with
    | plain h' => exact absurd h' (hsign (by decide))
    | plus h' => rw [h.unique h']
  | minus h =>
    cases h' with
    | plain h' => exact absurd h' (hsign (by decide))
    | minus h' => rw [h.unique h']

/-- What stands in front of a signed constant is the sign that is split off. -/
theorem signed_iff_splitSign (cs : List Char) : ∃ sign, cs = sign ++ (splitSign cs).2 ∧
    ∀ front n, front <+: cs → (Signed front n ↔ ∃ (tail : List Char) (k : Nat),
      front = sign ++ tail ∧ Constant tail k ∧ n = if (splitSign cs).1 then -(k : Int) else k) := by
  fun_cases splitSign cs with
  | case1 rest =>
    refine ⟨['+'], rfl, fun front n hfront => ⟨fun h => ?_, ?_⟩⟩
    · cases h with
      | plain h =>
        obtain ⟨c, more, rfl, hdigit⟩ := h.head
        rw [(List.cons_prefix_cons.mp hfront).1] at hdigit
        exact absurd hdigit (by decide)
      | plus h => exact ⟨_, _, rfl, h, rfl⟩
      | minus => exact absurd (List.cons_prefix_cons.mp hfront).1 (by decide)
    · rintro ⟨tail, k, rfl, hk, rfl⟩
      exact .plus hk
  | case2 rest =>
    refine ⟨['-'], rfl, fun front n hfront => ⟨fun h => ?_, ?_⟩⟩
    · cases h with
      | plain h =>
        obtain ⟨c, more, rfl, hdigit⟩ := h.head
        rw [(List.cons_prefix_cons.mp hfront).1] at hdigit
        exact absurd hdigit (by decide)
      | plus => exact absurd (List.cons_prefix_cons.mp hfront).1 (by decide)
      | minus h => exact ⟨_, _, rfl, h, rfl⟩
    · rintro ⟨tail, k, rfl, hk, rfl⟩
      exact .minus hk
  | case3 _ hplus hminus =>
    refine ⟨[], rfl, fun front n hfront => ⟨fun h => ?_, ?_⟩⟩
    · obtain ⟨more, rfl⟩ := hfront
      cases h with
      | plain h => exact ⟨_, _, rfl, h, rfl⟩
      | plus => exact absurd rfl (hplus _)
      | minus => exact absurd rfl (hminus _)
    · rintro ⟨tail, k, rfl, hk, rfl⟩
      exact .plain hk

/-- The number at the start of a text without blanks in front; its magnitude does not pass the bound
on either side. -/
def reading (cs : List Char) : Int :=
  let (minus, unsigned) := splitSign cs
  let (base, digits) := splitBase unsigned
  let n : Int := magnitude base 0 digits
  if minus then -n else n

theorem coerce_eq (text : String) :
    coerce text = Int32.ofInt (reading (text.toList.dropWhile isBlank)) := rfl

/-- The number that is read is that of the longest signed constant, up to the bound. -/
theorem longest_signed (cs : List Char) :
    (∃ front n, Longest Signed cs front n ∧
      reading cs = max (-maxMagnitude : Int) (min n maxMagnitude)) ∨
    (∀ front n, front <+: cs → ¬ Signed front n) ∧ reading cs = 0 := by
  obtain ⟨sign, hcs, hsigned⟩ := signed_iff_splitSign cs
  have hreading : reading cs = if (splitSign cs).1 then
      -(magnitude (splitBase (splitSign cs).2).1 0 (splitBase (splitSign cs).2).2 : Int)
      else magnitude (splitBase (splitSign cs).2).1 0 (splitBase (splitSign cs).2).2 := rfl
  have hbehind {tail : List Char} : sign ++ tail <+: cs ↔ tail <+: (splitSign cs).2 := by
    conv_lhs => rw [hcs]
    exact List.prefix_append_right_inj sign
  rcases longest_constant (splitSign cs).2 with ⟨tail, k, htail, hmagnitude⟩ | ⟨hnone, hmagnitude⟩
  · have hfront := hbehind.mpr htail.isFront
    refine .inl ⟨sign ++ tail, _, ⟨(hsigned _ _ hfront).mpr ⟨tail, k, rfl, htail.form, rfl⟩, hfront,
      fun other n hother hn => ?_⟩, ?_⟩
    · obtain ⟨tail', k', rfl, hk', -⟩ := (hsigned _ _ hother).mp hn
      have := htail.longest tail' k' (hbehind.mp hother) hk'
      simpa using this
    · rw [hreading, hmagnitude]
      split <;> omega
  · refine .inr ⟨fun front n hfront hn => ?_, ?_⟩
    · obtain ⟨tail, k, rfl, hk, -⟩ := (hsigned _ _ hfront).mp hn
      exact hnone tail k (hbehind.mp hfront) hk
    · rw [hreading, hmagnitude]
      simp

/-! ## Blanks -/

theorem isBlank_iff : isBlank c = true ↔ c ∈ blanks := by
  have h (k : Nat) (b : Char) (hb : b.toNat = k) : c.toNat = k ↔ c = b := by
    rw [← hb, Char.toNat_inj]
  simp only [isBlank, Bool.or_eq_true, decide_eq_true_eq, blanks, List.mem_cons, List.not_mem_nil,
    or_false, h 11 '\x0b' rfl, h 12 '\x0c' rfl]
  tauto

/-- Where the blanks end is settled. -/
theorem dropWhile_isBlank {before after : List Char} (hcs : cs = before ++ after)
    (hbefore : ∀ c ∈ before, c ∈ blanks) (hafter : ∀ c ∈ after.head?, c ∉ blanks) :
    cs.dropWhile isBlank = after := by
  rw [hcs, List.dropWhile_append_of_pos fun c hc => isBlank_iff.mpr (hbefore c hc)]
  cases after with
  | nil => rfl
  | cons c rest =>
    exact List.dropWhile_cons_of_neg fun hc => hafter c rfl (isBlank_iff.mp hc)

theorem Longest.unique {front front' : List Char} {n n' : Int} (h : Longest Signed cs front n)
    (h' : Longest Signed cs front' n') : n = n' := by
  have hle := h'.longest front n h.isFront h.form
  have hge := h.longest front' n' h'.isFront h'.form
  have heq : front = front' :=
    (List.prefix_of_prefix_length_le h.isFront h'.isFront hle).eq_of_length (Nat.le_antisymm hle hge)
  subst heq
  exact h.form.unique h'.form

variable {text : String}

/-- The blanks that `strtol` skips are those in front. -/
theorem strtol_iff {n : Int} : Strtol text n ↔
    (∃ front k, Longest Signed (text.toList.dropWhile isBlank) front k ∧ n = clamp k) ∨
    (∀ front k, front <+: text.toList.dropWhile isBlank → ¬ Signed front k) ∧ n = 0 := by
  have htext := (List.takeWhile_append_dropWhile (p := isBlank) (l := text.toList)).symm
  have hbefore : ∀ c ∈ text.toList.takeWhile isBlank, c ∈ blanks :=
    fun c hc => isBlank_iff.mp (List.mem_takeWhile_imp hc)
  have hafter : ∀ c ∈ (text.toList.dropWhile isBlank).head?, c ∉ blanks := by
    intro c hc hblank
    have hnot := List.head?_dropWhile_not isBlank text.toList
    rw [Option.mem_def.mp hc] at hnot
    exact Bool.false_ne_true (hnot.symm.trans (isBlank_iff.mpr hblank))
  constructor
  · rintro (⟨h₁, h₂, h₃, hfront⟩ | ⟨h₁, h₂, h₃, hnone⟩)
    · exact .inl ⟨_, _, (dropWhile_isBlank h₁ h₂ h₃).symm ▸ hfront, rfl⟩
    · exact .inr ⟨(dropWhile_isBlank h₁ h₂ h₃).symm ▸ hnone, rfl⟩
  · rintro (⟨front, k, hfront, rfl⟩ | ⟨hnone, rfl⟩)
    · exact .number htext hbefore hafter hfront
    · exact .nothing htext hbefore hafter hnone

theorem Strtol.unique {n n' : Int} (h : Strtol text n) (h' : Strtol text n') : n = n' := by
  rcases strtol_iff.mp h with ⟨front, k, hk, rfl⟩ | ⟨hnone, rfl⟩ <;>
    rcases strtol_iff.mp h' with ⟨front', k', hk', rfl⟩ | ⟨hnone', rfl⟩
  · rw [hk.unique hk']
  · exact absurd hk.form (hnone' _ _ hk.isFront)
  · exact absurd hk'.form (hnone _ _ hk'.isFront)
  · rfl

/-- Every text stands for exactly one number of 64 bits, and counts as its low 32 bits; but a text
that stands for the least of them counts as the one above it. -/
theorem coerce_strtol (text : String) :
    ∃ n, Strtol text n ∧ (∀ n', Strtol text n' → n' = n) ∧
      (Value.str text).toInt = if n = -9223372036854775808 then 1 else Int32.ofInt n := by
  show ∃ n, _ ∧ _ ∧ coerce text = _
  rw [coerce_eq]
  rcases longest_signed (text.toList.dropWhile isBlank) with
    ⟨front, k, hfront, hreading⟩ | ⟨hnone, hreading⟩
  · have hk : Strtol text (clamp k) := strtol_iff.mpr (.inl ⟨front, k, hfront, rfl⟩)
    refine ⟨clamp k, hk, fun n' hn' => hn'.unique hk, ?_⟩
    have hmax : (maxMagnitude : Int) = 9223372036854775807 := rfl
    rw [hreading, hmax]
    split_ifs with hleast
    · -- only the bound of the magnitude is left of a number as small as that
      have hbound : max (-9223372036854775807) (min k 9223372036854775807) =
          -9223372036854775807 := by
        simp only [clamp] at hleast
        omega
      rw [hbound]
      decide
    · congr 1
      simp only [clamp] at hleast ⊢
      omega
  · have hzero : Strtol text 0 := strtol_iff.mpr (.inr ⟨hnone, rfl⟩)
    refine ⟨0, hzero, fun n' hn' => hn'.unique hzero, ?_⟩
    rw [hreading]
    rfl

/-- The least number of 64 bits, whose low 32 bits are all 0. -/
example : (Value.str "-9223372036854775808").toInt = 1 := by decide

end Kiln.Text.Numeral
