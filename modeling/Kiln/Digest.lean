/-!
# Kiln.Digest — SHA-256

The digest of a text is the SHA-256 of its UTF-8 bytes in lowercase hexadecimal.
-/

namespace Kiln.Digest

/-- The round constants. -/
def roundConstants : Array UInt32 := #[
  0x428a2f98, 0x71374491, 0xb5c0fbcf, 0xe9b5dba5, 0x3956c25b, 0x59f111f1, 0x923f82a4, 0xab1c5ed5,
  0xd807aa98, 0x12835b01, 0x243185be, 0x550c7dc3, 0x72be5d74, 0x80deb1fe, 0x9bdc06a7, 0xc19bf174,
  0xe49b69c1, 0xefbe4786, 0x0fc19dc6, 0x240ca1cc, 0x2de92c6f, 0x4a7484aa, 0x5cb0a9dc, 0x76f988da,
  0x983e5152, 0xa831c66d, 0xb00327c8, 0xbf597fc7, 0xc6e00bf3, 0xd5a79147, 0x06ca6351, 0x14292967,
  0x27b70a85, 0x2e1b2138, 0x4d2c6dfc, 0x53380d13, 0x650a7354, 0x766a0abb, 0x81c2c92e, 0x92722c85,
  0xa2bfe8a1, 0xa81a664b, 0xc24b8b70, 0xc76c51a3, 0xd192e819, 0xd6990624, 0xf40e3585, 0x106aa070,
  0x19a4c116, 0x1e376c08, 0x2748774c, 0x34b0bcb5, 0x391c0cb3, 0x4ed8aa4a, 0x5b9cca4f, 0x682e6ff3,
  0x748f82ee, 0x78a5636f, 0x84c87814, 0x8cc70208, 0x90befffa, 0xa4506ceb, 0xbef9a3f7, 0xc67178f2]

/-- The eight words of the chaining value. -/
structure Words where
  a : UInt32
  b : UInt32
  c : UInt32
  d : UInt32
  e : UInt32
  f : UInt32
  g : UInt32
  h : UInt32
  deriving DecidableEq, Repr

/-- The chaining value before the first block. -/
def Words.initial : Words :=
  ⟨0x6a09e667, 0xbb67ae85, 0x3c6ef372, 0xa54ff53a, 0x510e527f, 0x9b05688c, 0x1f83d9ab, 0x5be0cd19⟩

/-- Rotation to the right by `n` bits, `0 < n < 32`. -/
def rotate (x n : UInt32) : UInt32 := (x >>> n) ||| (x <<< (32 - n))

/-- The word at `i` of a word array. -/
def word (w : Array UInt32) (i : Nat) : UInt32 := w.getD i 0

/-- One more word of the message schedule. -/
def extendSchedule (w : Array UInt32) : Array UInt32 :=
  let n := w.size
  let x := word w (n - 15)
  let y := word w (n - 2)
  let s0 := rotate x 7 ^^^ rotate x 18 ^^^ (x >>> 3)
  let s1 := rotate y 17 ^^^ rotate y 19 ^^^ (y >>> 10)
  w.push (word w (n - 16) + s0 + word w (n - 7) + s1)

/-- The byte at `i`. -/
def byteAt (bytes : ByteArray) (i : Nat) : UInt8 :=
  if h : i < bytes.size then bytes[i] else 0

/-- The message schedule of a block of 64 bytes that starts at `start`. -/
def schedule (bytes : ByteArray) (start : Nat) : Array UInt32 :=
  let byte (i : Nat) : UInt32 := (byteAt bytes (start + i)).toUInt32
  let first := (Array.range 16).map fun i =>
    (byte (4 * i) <<< 24) ||| (byte (4 * i + 1) <<< 16) ||| (byte (4 * i + 2) <<< 8) ||| byte (4 * i + 3)
  Nat.fold 48 (fun _ _ w => extendSchedule w) first

/-- One round. -/
def Words.round (s : Words) (k w : UInt32) : Words :=
  let s1 := rotate s.e 6 ^^^ rotate s.e 11 ^^^ rotate s.e 25
  let choice := (s.e &&& s.f) ^^^ (s.e.complement &&& s.g)
  let t1 := s.h + s1 + choice + k + w
  let s0 := rotate s.a 2 ^^^ rotate s.a 13 ^^^ rotate s.a 22
  let majority := (s.a &&& s.b) ^^^ (s.a &&& s.c) ^^^ (s.b &&& s.c)
  ⟨t1 + (s0 + majority), s.a, s.b, s.c, s.d + t1, s.e, s.f, s.g⟩

/-- The chaining value after the block that starts at `start`. -/
def Words.absorb (s : Words) (bytes : ByteArray) (start : Nat) : Words :=
  let w := schedule bytes start
  let t := Nat.fold 64 (fun i _ t => Words.round t (word roundConstants i) (word w i)) s
  ⟨s.a + t.a, s.b + t.b, s.c + t.c, s.d + t.d, s.e + t.e, s.f + t.f, s.g + t.g, s.h + t.h⟩

/-- The bytes of a big-endian number of `n` bytes. -/
def bigEndian (n value : Nat) : List UInt8 :=
  (List.range n).map fun i => UInt8.ofNat (value >>> (8 * (n - 1 - i)))

/-- A message followed by its padding: a one bit, zeros, and its length in bits. -/
def pad (message : ByteArray) : ByteArray :=
  let zeros := (119 - message.size % 64) % 64
  let tail := 0x80 :: List.replicate zeros 0 ++ bigEndian 8 (8 * message.size)
  tail.foldl ByteArray.push message

/-- The chaining value after the whole message. -/
def Words.ofMessage (message : ByteArray) : Words :=
  let padded := pad message
  (padded.size / 64).fold (fun i _ s => s.absorb padded (64 * i)) initial

/-- A byte in two hexadecimal digits. -/
def hexByte (b : UInt8) : List Char :=
  let digits := Nat.toDigits 16 b.toNat
  List.replicate (2 - digits.length) '0' ++ digits

/-- The digest of a byte string in hexadecimal. -/
def ofBytes (message : ByteArray) : String :=
  let s := Words.ofMessage message
  let words := [s.a, s.b, s.c, s.d, s.e, s.f, s.g, s.h]
  String.ofList (words.flatMap fun w => (bigEndian 4 w.toNat).flatMap hexByte)

/-- The digest of a text in hexadecimal. -/
def ofText (message : String) : String :=
  ofBytes message.toUTF8

/-- What is written before every node of a value or a program that is fingerprinted. -/
def header (tag : String) : String :=
  "class:" ++ tag ++ ":args:"

end Kiln.Digest
