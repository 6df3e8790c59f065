import Verbosec.Lib.Utf8
import Mathlib.Data.List.Basic

/-!
# The bytes of a text

* `bytesOf`, `textOf` - the encoding of a text, and the text of an encoding.
* `high_of_mem_encode` - all bytes of a character outside the range of ASCII are outside it too.
* `bytesOf_split` - an ASCII byte in the encoding of a text is a character of its own: what is before
  it and what is behind it are encodings too.
-/

namespace Verbosec.Lib.Utf8

/-- The bytes of a text. -/
def bytesOf (cs : List Char) : List UInt8 := cs.flatMap String.utf8EncodeChar

/-- The text of some bytes, where they are an encoding. -/
def textOf (bytes : List UInt8) : Option (List Char) :=
  bytes.toByteArray.utf8Decode?.map Array.toList

@[simp] lemma bytesOf_nil : bytesOf [] = [] := rfl

lemma bytesOf_cons (c : Char) (cs : List Char) :
    bytesOf (c :: cs) = String.utf8EncodeChar c ++ bytesOf cs := rfl

lemma bytesOf_append (cs ds : List Char) : bytesOf (cs ++ ds) = bytesOf cs ++ bytesOf ds :=
  List.flatMap_append

@[simp] lemma textOf_bytesOf (cs : List Char) : textOf (bytesOf cs) = some cs := by
  have h : (bytesOf cs).toByteArray = cs.utf8Encode := by simp [bytesOf, List.utf8Encode]
  rw [textOf, h, List.utf8Decode?_utf8Encode]
  rfl

/-- The bytes of a character outside the range of ASCII are outside it too. -/
lemma high_of_mem_encode {c : Char} (h : 128 ≤ c.toNat) :
    ∀ b ∈ String.utf8EncodeChar c, 128 ≤ b.toNat := by
  have hnot : ¬ c.val.toNat ≤ 0x7f := Nat.not_le_of_lt h
  simp only [String.utf8EncodeChar, hnot, if_false]
  split_ifs <;> simp <;> omega

lemma bytesOf_ascii_cons {c : Char} (h : c.toNat < 128) (cs : List Char) :
    bytesOf (c :: cs) = UInt8.ofNat c.toNat :: bytesOf cs := by
  rw [bytesOf_cons, encode_ascii h]
  rfl

lemma ofNat_toNat_ascii {c : Char} (h : c.toNat < 128) :
    Char.ofNat (UInt8.ofNat c.toNat).toNat = c := by
  have hn : (UInt8.ofNat c.toNat).toNat = c.toNat := by
    simp
    omega
  rw [hn]
  exact Char.ofNat_toNat c

/-- An ASCII byte in the encoding of a text is one of its characters. -/
lemma bytesOf_split {cs : List Char} {xs ys : List UInt8} {b : UInt8} (hb : b.toNat < 128)
    (h : bytesOf cs = xs ++ b :: ys) :
    ∃ ds es, cs = ds ++ Char.ofNat b.toNat :: es ∧ xs = bytesOf ds ∧ ys = bytesOf es := by
  induction cs generalizing xs with
  | nil => simp at h
  | cons c cs ih =>
      rw [bytesOf_cons] at h
      rcases List.append_eq_append_iff.mp h with ⟨mid, rfl, hcs⟩ | ⟨mid, hc, hmid⟩
      · obtain ⟨ds, es, rfl, rfl, rfl⟩ := ih hcs
        exact ⟨c :: ds, es, rfl, rfl, rfl⟩
      · cases mid with
        | nil =>
            obtain ⟨ds, es, rfl, hds, rfl⟩ := @ih [] hmid.symm
            refine ⟨c :: ds, es, rfl, ?_, rfl⟩
            rw [bytesOf_cons, ← hds, hc, List.append_nil, List.append_nil]
        | cons b' mid =>
            obtain ⟨rfl, rfl⟩ := List.cons.inj hmid
            have hascii : c.toNat < 128 := by
              by_contra hge
              have hhigh := high_of_mem_encode (Nat.not_lt.mp hge) b (by simp [hc])
              omega
            rw [encode_ascii hascii] at hc
            obtain ⟨rfl, hb', rfl⟩ : xs = [] ∧ UInt8.ofNat c.toNat = b ∧ mid = [] := by
              cases xs with
              | nil => simpa [eq_comm] using hc
              | cons x xs => simp at hc
            refine ⟨[], cs, ?_, rfl, rfl⟩
            rw [← hb', ofNat_toNat_ascii hascii]
            rfl

end Verbosec.Lib.Utf8
