/-!
# Kiln.Text.Lossy — reading bytes as text, whatever they are

`decode` reads UTF-8 and puts U+FFFD in the place of every maximal run of bytes that starts a
character and does not finish it, and of every byte that starts none.  It goes byte by byte and
remembers what an unfinished character still owes.
-/

namespace Kiln.Text.Lossy

/-- What stands for bytes that are no character. -/
def replacement : Char := '\uFFFD'

/-- Where the reader stands between two bytes. -/
inductive Pending where
  /-- Between characters. -/
  | none
  /-- Inside one: its bits so far, the bytes it owes after the next one, and the range of that. -/
  | owing (bits : Nat) (more : Nat) (low high : UInt8)
  deriving DecidableEq, Repr

/-- The first byte of a character. -/
def first (b : UInt8) : List Char × Pending :=
  if b < 0x80 then ([Char.ofNat b.toNat], .none)
  else if 0xC2 ≤ b ∧ b ≤ 0xDF then ([], .owing (b.toNat % 32) 0 0x80 0xBF)
  else if b = 0xE0 then ([], .owing 0 1 0xA0 0xBF)
  else if b = 0xED then ([], .owing 13 1 0x80 0x9F)
  else if 0xE1 ≤ b ∧ b ≤ 0xEF then ([], .owing (b.toNat % 16) 1 0x80 0xBF)
  else if b = 0xF0 then ([], .owing 0 2 0x90 0xBF)
  else if b = 0xF4 then ([], .owing 4 2 0x80 0x8F)
  else if 0xF1 ≤ b ∧ b ≤ 0xF3 then ([], .owing (b.toNat % 8) 2 0x80 0xBF)
  else ([replacement], .none)

/-- One byte: the characters it settles, and where the reader stands after it. -/
def step : Pending → UInt8 → List Char × Pending
  | .none, b => first b
  | .owing bits more low high, b =>
    if low ≤ b ∧ b ≤ high then
      let bits := bits * 64 + b.toNat % 64
      match more with
      | 0 => ([Char.ofNat bits], .none)
      | n + 1 => ([], .owing bits n 0x80 0xBF)
    else
      let (chars, pending) := first b
      (replacement :: chars, pending)

/-- The characters of a byte string from inside a character. -/
def decodeFrom : Pending → List UInt8 → List Char
  | .none, [] => []
  | .owing .., [] => [replacement]
  | pending, b :: rest =>
    let (chars, next) := step pending b
    chars ++ decodeFrom next rest

/-- The characters of a byte string. -/
def decode (bytes : List UInt8) : List Char :=
  decodeFrom .none bytes

/-- The text of a byte string. -/
def text (bytes : ByteArray) : String :=
  String.ofList (decode bytes.toList)

/-- The bytes from `start` up to `stop` of a string, read as text. -/
def slice (s : String) (start stop : Nat) : String :=
  text (s.toUTF8.extract start stop)

end Kiln.Text.Lossy
