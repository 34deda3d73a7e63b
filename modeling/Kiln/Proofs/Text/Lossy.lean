import Mathlib.Tactic.SplitIfs
import Kiln.Text.Lossy

/-!
# Kiln.Proofs.Text.Lossy — the bytes of a text

Of the bytes of a character only those of one byte are below 128, so a byte that stands for such a
character is that character wherever it comes up.
-/

namespace Kiln.Text.Lossy

/-- The bytes of a text. -/
def utf8 (cs : List Char) : List UInt8 := cs.flatMap String.utf8EncodeChar

@[simp] theorem utf8_nil : utf8 [] = [] := rfl

theorem utf8_cons (c : Char) (cs : List Char) :
    utf8 (c :: cs) = String.utf8EncodeChar c ++ utf8 cs := rfl

theorem utf8_append (cs ds : List Char) : utf8 (cs ++ ds) = utf8 cs ++ utf8 ds :=
  List.flatMap_append

theorem toNat_byte {n : Nat} (h : n < 256) : (UInt8.ofNat n).toNat = n := by
  rw [UInt8.toNat_ofNat', Nat.mod_eq_of_lt h]

/-- A character of one byte is that byte; the bytes of any other are no such characters. -/
theorem utf8EncodeChar_cons (c : Char) : ∃ b bs, String.utf8EncodeChar c = b :: bs ∧
    (b.toNat = c.toNat ∨ 0x80 ≤ b.toNat ∧ 0x80 ≤ c.toNat) ∧ ∀ b' ∈ bs, 0x80 ≤ b'.toNat := by
  have hval : c.val.toNat = c.toNat := rfl
  have hlead {n k : Nat} (hk : 0x80 ≤ k) (hn : n + k < 256) : 0x80 ≤ (UInt8.ofNat (n + k)).toNat := by
    rw [toNat_byte hn]
    omega
  simp only [String.utf8EncodeChar, hval]
  split_ifs with hone htwo hthree
  · exact ⟨_, _, rfl, .inl (toNat_byte (by omega)), by simp⟩
  all_goals
    refine ⟨_, _, rfl, .inr ⟨hlead (by decide) (by omega), by omega⟩, ?_⟩
    simp only [List.forall_mem_cons]
  · exact ⟨hlead (by decide) (by omega), by simp⟩
  · exact ⟨hlead (by decide) (by omega), hlead (by decide) (by omega), by simp⟩
  · exact ⟨hlead (by decide) (by omega), hlead (by decide) (by omega), hlead (by decide) (by omega),
      by simp⟩

end Kiln.Text.Lossy
