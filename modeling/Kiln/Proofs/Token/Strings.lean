import Kiln.Proofs.Text.Lossy
import Kiln.Proofs.Token.Gaps

/-!
# Kiln.Proofs.Token.Strings — what stands between two quotes

The content of a string is what its characters decode to: one after a backslash stands for the
escaped one, and a quote that is not escaped is not in it.

A text is a sequence of bytes, and a string can as well be read byte by byte, escapes being single
bytes.  Nothing is torn apart by this: the bytes that come out are those of the content, so they need
no replacement character, and the string ends at the same place.
-/

namespace Kiln.Token

/-! ## Characters -/

/-- The characters between the quotes of a string, and those they stand for. -/
inductive Decodes : List Char → List Char → Prop where
  | nil : Decodes [] []
  | plain {c : Char} {cs ds : List Char} (hquote : c ≠ '"') (hescape : c ≠ '\\')
      (h : Decodes cs ds) : Decodes (c :: cs) (c :: ds)
  | escaped (c : Char) {cs ds : List Char} (h : Decodes cs ds) :
      Decodes ('\\' :: c :: cs) (unescape c :: ds)

/-- The text after an opening quote up to the end of the string, quote included, and its content.
Where the text ends the quote may be missing, and a backslash there stands for nothing. -/
inductive Interior (atEnd : Bool) : List Char → List Char → Prop where
  | closed {cs ds : List Char} (h : Decodes cs ds) : Interior atEnd (cs ++ ['"']) ds
  | unclosed {cs ds : List Char} (hend : atEnd = true) (h : Decodes cs ds) : Interior atEnd cs ds
  | dangling {cs ds : List Char} (hend : atEnd = true) (h : Decodes cs ds) :
      Interior atEnd (cs ++ ['\\']) ds

section Characters

variable {atEnd : Bool} {cs ds : List Char}

theorem Interior.plain {c : Char} (hquote : c ≠ '"') (hescape : c ≠ '\\')
    (h : Interior atEnd cs ds) : Interior atEnd (c :: cs) (c :: ds) := by
  cases h with
  | closed h => exact @Interior.closed _ (c :: _) _ (.plain hquote hescape h)
  | unclosed hend h => exact .unclosed hend (.plain hquote hescape h)
  | dangling hend h => exact @Interior.dangling _ (c :: _) _ hend (.plain hquote hescape h)

theorem Interior.escaped (c : Char) (h : Interior atEnd cs ds) :
    Interior atEnd ('\\' :: c :: cs) (unescape c :: ds) := by
  cases h with
  | closed h => exact @Interior.closed _ ('\\' :: c :: _) _ (.escaped c h)
  | unclosed hend h => exact .unclosed hend (.escaped c h)
  | dangling hend h => exact @Interior.dangling _ ('\\' :: c :: _) _ hend (.escaped c h)

/-- What is read as a string is the interior of one, and its line feeds are counted. -/
theorem stringBody_split (cs : List Char) : ∃ inner content after,
    cs = inner ++ after ∧ stringBody cs = (content, inner.count '\n', after) ∧
      Interior after.isEmpty inner content := by
  fun_induction stringBody cs with
  | case1 => exact ⟨[], [], [], rfl, rfl, .unclosed rfl .nil⟩
  | case2 rest => exact ⟨['"'], [], rest, rfl, rfl, .closed .nil⟩
  | case3 => exact ⟨['\\'], [], [], rfl, rfl, .dangling rfl .nil⟩
  | case4 c rest content lines after hrun ih =>
    obtain ⟨inner, content', after', rfl, hbody, hinterior⟩ := ih
    cases hrun.symm.trans hbody
    refine ⟨'\\' :: c :: inner, unescape c :: content, after, rfl, ?_, hinterior.escaped c⟩
    rw [count_lineFeed_cons, count_lineFeed_cons, Nat.add_comm (lineEnds c)]
    simp [lineEnds]
  | case5 c rest hquote hdangling hescape content lines after hrun ih =>
    obtain ⟨inner, content', after', rfl, hbody, hinterior⟩ := ih
    cases hrun.symm.trans hbody
    refine ⟨c :: inner, c :: content, after, rfl, ?_, hinterior.plain hquote fun hc => ?_⟩
    · rw [count_lineFeed_cons, Nat.add_comm (lineEnds c)]
    · -- A backslash would have taken the next character with it, or ended the text.
      cases hrest : inner ++ after with
      | nil => exact hdangling hc hrest
      | cons d rest => exact hescape d rest hc hrest

/-- What decodes to a content is read as that content, up to whatever comes then. -/
theorem stringBody_decodes (h : Decodes cs ds) (r : List Char) :
    stringBody (cs ++ r) =
      (ds ++ (stringBody r).1, cs.count '\n' + (stringBody r).2.1, (stringBody r).2.2) := by
  induction h with
  | nil => simp
  | @plain c cs ds hquote hescape h ih =>
    rw [List.cons_append, stringBody, ih, count_lineFeed_cons]
    · simp only [List.cons_append, Prod.mk.injEq, true_and, and_true]
      omega
    · exact hquote
    · exact fun hc _ => hescape hc
    · exact fun _ _ hc _ => hescape hc
  | @escaped c cs ds h ih =>
    rw [List.cons_append, List.cons_append, stringBody, ih, count_lineFeed_cons, count_lineFeed_cons]
    simp only [List.cons_append, Prod.mk.injEq, true_and, and_true]
    have hnone : lineEnds '\\' = 0 := by decide
    omega

end Characters

/-! ## Bytes -/

/-- The byte an escaped one stands for. -/
def unescapeByte (b : UInt8) : UInt8 :=
  if b = 0x6E then 0x0A else if b = 0x72 then 0x0D else if b = 0x74 then 0x09 else b

/-- A string after its opening quote, byte by byte: the bytes of the content, and those after the
closing quote. -/
def stringBytes : List UInt8 → List UInt8 × List UInt8
  | [] => ([], [])
  | 0x22 :: rest => ([], rest)
  | [0x5C] => ([], [])
  | 0x5C :: b :: rest =>
    let (content, after) := stringBytes rest
    (unescapeByte b :: content, after)
  | b :: rest =>
    let (content, after) := stringBytes rest
    (b :: content, after)

section Bytes

open Kiln.Text Kiln.Text.Lossy

variable {cs ds : List Char}

theorem stringBytes_plain {b : UInt8} (hquote : b ≠ 0x22) (hescape : b ≠ 0x5C) (rest : List UInt8) :
    stringBytes (b :: rest) = (b :: (stringBytes rest).1, (stringBytes rest).2) := by
  rw [stringBytes]
  · exact hquote
  · exact fun h _ => hescape h
  · exact fun _ _ h _ => hescape h

/-- The bytes of a character after its first stand for themselves. -/
theorem stringBytes_append {bs : List UInt8} (h : ∀ b ∈ bs, 0x80 ≤ b.toNat) (rest : List UInt8) :
    stringBytes (bs ++ rest) = (bs ++ (stringBytes rest).1, (stringBytes rest).2) := by
  induction bs with
  | nil => rfl
  | cons b bs ih =>
    obtain ⟨hb, hbs⟩ := List.forall_mem_cons.mp h
    have hquote : b ≠ 0x22 := by
      rintro rfl
      exact absurd hb (by decide)
    have hescape : b ≠ 0x5C := by
      rintro rfl
      exact absurd hb (by decide)
    rw [List.cons_append, stringBytes_plain hquote hescape, ih hbs, List.cons_append]

/-- The first byte of a character is one of these only if the character is. -/
theorem ne_byte {b d : UInt8} {c e : Char} (hd : d.toNat < 0x80) (he : d.toNat = e.toNat)
    (hlead : b.toNat = c.toNat ∨ 0x80 ≤ b.toNat ∧ 0x80 ≤ c.toNat) (hc : c ≠ e) : b ≠ d := by
  rintro rfl
  rcases hlead with h | ⟨h, -⟩
  · exact hc (Char.toNat_inj.mp (h.symm.trans he))
  · omega

/-- Escaping a character is escaping the first of its bytes. -/
theorem utf8EncodeChar_unescape {c : Char} {b : UInt8} {bs : List UInt8}
    (hencode : String.utf8EncodeChar c = b :: bs) :
    String.utf8EncodeChar (unescape c) = unescapeByte b :: bs := by
  rw [unescape]
  split_ifs with hn hr ht
  · subst hn
    cases hencode
    rfl
  · subst hr
    cases hencode
    rfl
  · subst ht
    cases hencode
    rfl
  · obtain ⟨_, _, hencode', hlead, -⟩ := utf8EncodeChar_cons c
    cases hencode.symm.trans hencode'
    rw [hencode, unescapeByte, if_neg (ne_byte (by decide) rfl hlead hn),
      if_neg (ne_byte (by decide) rfl hlead hr), if_neg (ne_byte (by decide) rfl hlead ht)]

/-- Byte by byte, what decodes to a content is read as the bytes of that content. -/
theorem stringBytes_decodes (h : Decodes cs ds) (rest : List UInt8) :
    stringBytes (utf8 cs ++ rest) =
      (utf8 ds ++ (stringBytes rest).1, (stringBytes rest).2) := by
  induction h with
  | nil => rfl
  | @plain c cs ds hquote hescape h ih =>
    obtain ⟨b, bs, hencode, hlead, hbs⟩ := utf8EncodeChar_cons c
    simp only [utf8_cons, hencode, List.cons_append, List.append_assoc]
    rw [stringBytes_plain (ne_byte (by decide) rfl hlead hquote)
      (ne_byte (by decide) rfl hlead hescape), stringBytes_append hbs, ih]
  | @escaped c cs ds h ih =>
    obtain ⟨b, bs, hencode, -, hbs⟩ := utf8EncodeChar_cons c
    have hbackslash : String.utf8EncodeChar '\\' = [0x5C] := rfl
    simp only [utf8_cons, hencode, hbackslash, utf8EncodeChar_unescape hencode, List.cons_append,
      List.nil_append, List.append_assoc]
    rw [stringBytes, stringBytes_append hbs, ih]

/-- Nothing is torn apart where a string is read byte by byte: what comes out is the bytes of the
content, and what is left is the bytes of the text after it. -/
theorem Interior.stringBytes_utf8 {after : List Char} (h : Interior after.isEmpty cs ds) :
    stringBytes (utf8 (cs ++ after)) = (utf8 ds, utf8 after) := by
  cases h with
  | closed h =>
    rw [List.append_assoc, utf8_append, stringBytes_decodes h]
    simp [stringBytes, utf8_cons, String.utf8EncodeChar]
  | unclosed hend h =>
    obtain rfl : after = [] := List.isEmpty_iff.mp hend
    rw [utf8_append, stringBytes_decodes h]
    simp [stringBytes]
  | dangling hend h =>
    obtain rfl : after = [] := List.isEmpty_iff.mp hend
    rw [List.append_nil, utf8_append, stringBytes_decodes h]
    simp [stringBytes, utf8_cons, String.utf8EncodeChar]

end Bytes

end Kiln.Token
