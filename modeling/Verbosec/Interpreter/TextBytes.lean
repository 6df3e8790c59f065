import Verbosec.Interpreter.Value

/-!
# The bytes of a text

* `utf8Bytes_ofList` - character by character.
* `utf8Bytes_ascii` - one byte for each character, where all characters are ASCII.
-/

namespace Verbosec.Interpreter

lemma utf8Bytes_ofList (cs : List Char) :
    utf8Bytes (String.ofList cs) = cs.flatMap String.utf8EncodeChar := by
  simp [utf8Bytes, List.utf8Encode]

/-- The code of an ASCII character is its byte. -/
lemma utf8EncodeChar_ascii {c : Char} (h : c.toNat < 128) :
    String.utf8EncodeChar c = [UInt8.ofNat c.toNat] := by
  have hsize : c.utf8Size = 1 := by
    rw [Char.utf8Size_eq_one_iff, UInt32.le_iff_toNat_le]
    exact Nat.le_of_lt_succ h
  rw [String.utf8EncodeChar_eq_singleton hsize]
  rfl

lemma utf8Bytes_ascii {cs : List Char} (h : ∀ c ∈ cs, c.toNat < 128) :
    utf8Bytes (String.ofList cs) = cs.map fun c => UInt8.ofNat c.toNat := by
  rw [utf8Bytes_ofList]
  induction cs with
  | nil => rfl
  | cons c cs ih =>
      rw [List.flatMap_cons, utf8EncodeChar_ascii (h c List.mem_cons_self), List.map_cons,
        List.singleton_append, ih fun d hd => h d (List.mem_cons_of_mem c hd)]

end Verbosec.Interpreter
