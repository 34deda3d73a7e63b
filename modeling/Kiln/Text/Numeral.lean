/-!
# Kiln.Text.Numeral — 32-bit integers and their textual forms

Three readings of digits and two writings.

* `literal` reads the number of a source token and wraps at 32 bits.
* `coerce` reads the number at the start of any text: blanks, a sign, then hexadecimal after `0x`,
  octal after `0`, decimal otherwise, up to the first character that is no digit.  The magnitude
  stops growing at `2 ^ 63 - 1`, and the low 32 bits of the signed result count.
* `decimal` and `hex` write a number.
-/

namespace Kiln.Text.Numeral

/-- The value of a digit in bases up to 16. -/
def digit? (base : Nat) (c : Char) : Option Nat :=
  let n := c.toNat
  let d? :=
    if 48 ≤ n ∧ n ≤ 57 then some (n - 48)
    else if 97 ≤ n ∧ n ≤ 102 then some (n - 87)
    else if 65 ≤ n ∧ n ≤ 70 then some (n - 55)
    else none
  d?.filter (· < base)

/-- Whether `c` is a hexadecimal digit. -/
def isHexDigit (c : Char) : Bool := (digit? 16 c).isSome

/-- Whether `c` is a decimal digit. -/
def isDigit (c : Char) : Bool := (digit? 10 c).isSome

/-- The number with the given digits, most significant first. -/
def ofDigits (base : Nat) (digits : List Nat) : Nat :=
  digits.foldl (fun acc d => acc * base + d) 0

/-- The digits and the base of a source literal: after `0x` the base is 16. -/
def literalDigits : List Char → Nat × List Nat
  | '0' :: 'x' :: rest => (16, rest.filterMap (digit? 16))
  | cs => (10, cs.filterMap (digit? 10))

/-- The value of a source literal, wrapped to 32 bits. -/
def literal (text : String) : Int32 :=
  let (base, digits) := literalDigits text.toList
  Int32.ofNat (ofDigits base digits)

/-- Blanks that may precede a number. -/
def isBlank (c : Char) : Bool :=
  c = ' ' || c = '\t' || c = '\n' || c = '\r' || c.toNat = 11 || c.toNat = 12

/-- Splits a sign off: whether it is a minus, and what follows. -/
def splitSign : List Char → Bool × List Char
  | '+' :: rest => (false, rest)
  | '-' :: rest => (true, rest)
  | cs => (false, cs)

/-- The base announced by the first characters, and the text from the first digit on. -/
def splitBase : List Char → Nat × List Char
  | '0' :: x :: d :: rest =>
    if (x = 'x' || x = 'X') && isHexDigit d then (16, d :: rest) else (8, '0' :: x :: d :: rest)
  | '0' :: rest => (8, '0' :: rest)
  | cs => (10, cs)

/-- The number of values of 64 bits. -/
def wordCount : Nat := 18446744073709551616

/-- The largest magnitude that is told apart, that of signed numbers of 64 bits. -/
def maxMagnitude : Nat := 9223372036854775807

/-- The magnitude of the digits at the start of a text, which never passes `maxMagnitude`. -/
def magnitude (base : Nat) (acc : Nat) : List Char → Nat
  | [] => acc
  | c :: rest =>
    match digit? base c with
    | some d => magnitude base (min (acc * base + d) maxMagnitude) rest
    | none => acc

/-- The number at the start of a text; 0 where there is none. -/
def coerce (text : String) : Int32 :=
  let (minus, unsigned) := splitSign (text.toList.dropWhile isBlank)
  let (base, digits) := splitBase unsigned
  let n : Int := magnitude base 0 digits
  Int32.ofInt (if minus then -n else n)

/-- The decimal form, with a minus sign for negative numbers. -/
def decimal (n : Int32) : String :=
  let i := n.toInt
  let digits := String.ofList (Nat.toDigits 10 i.natAbs)
  if i < 0 then "-" ++ digits else digits

/-- The 32 bits of a number in lowercase hexadecimal, with zeros in front up to `width`. -/
def hex (n : Int32) (width : Nat) : String :=
  let digits := Nat.toDigits 16 n.toUInt32.toNat
  String.ofList (List.replicate (width - digits.length) '0' ++ digits)

end Kiln.Text.Numeral
