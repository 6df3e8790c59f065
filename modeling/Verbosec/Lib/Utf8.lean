import Mathlib.Tactic.Common

/-!
# UTF-8 encodings

* `encode_ascii` - an ASCII character is one byte, its code.
* `encode_high` - the encoding of any other character starts above the ASCII codes.
-/

namespace Verbosec.Lib.Utf8

/-- The code of an ASCII character is its byte. -/
lemma encode_ascii {c : Char} (h : c.toNat < 128) :
    String.utf8EncodeChar c = [UInt8.ofNat c.toNat] := by
  have hsize : c.utf8Size = 1 := by
    rw [Char.utf8Size_eq_one_iff, UInt32.le_iff_toNat_le]
    exact Nat.le_of_lt_succ h
  rw [String.utf8EncodeChar_eq_singleton hsize]
  rfl

/-- The first byte of a character outside the range of ASCII is outside it too. -/
lemma encode_high {c : Char} (h : 128 ≤ c.toNat) :
    ∃ b bs, String.utf8EncodeChar c = b :: bs ∧ 128 ≤ b.toNat := by
  have hnot : ¬ c.val.toNat ≤ 0x7f := Nat.not_le_of_lt h
  simp only [String.utf8EncodeChar, hnot, if_false]
  split_ifs
  · refine ⟨_, _, rfl, ?_⟩
    simp
    omega
  · refine ⟨_, _, rfl, ?_⟩
    simp
    omega
  · refine ⟨_, _, rfl, ?_⟩
    simp
    omega

end Verbosec.Lib.Utf8
