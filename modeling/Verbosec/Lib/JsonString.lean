import Mathlib.Data.Fintype.Basic
import Mathlib.Tactic.IntervalCases

/-!
# JSON strings, byte by byte

* `Mode`, `Mode.next` - a reader of the characters between the quotes.
* `readString` - the UTF-8 text that the characters stand for.
* `readAll_append` - the reader goes through one part after the other.

The reader is the one of the standard: a quote and a control byte have to be escaped, two
hexadecimal escapes make a surrogate pair, and a surrogate alone is no text.
-/

namespace Verbosec.Lib.JsonString

/-- The value of a hexadecimal digit. -/
def hexValue (b : UInt8) : Option Nat :=
  if 48 ≤ b.toNat ∧ b.toNat ≤ 57 then some (b.toNat - 48)
  else if 65 ≤ b.toNat ∧ b.toNat ≤ 70 then some (b.toNat - 55)
  else if 97 ≤ b.toNat ∧ b.toNat ≤ 102 then some (b.toNat - 87)
  else none

/-- What the reader is in: characters, an escape, `count` hexadecimal digits of an escape behind a
high surrogate or not, or the backslash and the `u` that have to follow a high surrogate. -/
inductive Mode where
  | plain
  | escape
  | hex (high : Option Nat) (count value : Nat)
  | paired (high : Nat)
  | pairedEscape (high : Nat)
  deriving DecidableEq, Repr

/-- The byte that an escape of one letter stands for. -/
def letter : Nat → Option UInt8
  | 34 => some 34
  | 92 => some 92
  | 47 => some 47
  | 98 => some 8
  | 102 => some 12
  | 110 => some 10
  | 114 => some 13
  | 116 => some 9
  | _ => none

/-- What follows the four digits of a hexadecimal escape. -/
def closeHex (high : Option Nat) (value : Nat) : Option (Mode × List UInt8) :=
  let isHigh := 0xD800 ≤ value ∧ value < 0xDC00
  let isLow := 0xDC00 ≤ value ∧ value < 0xE000
  match high with
  | none =>
      if isHigh then some (.paired value, [])
      else if isLow then none
      else some (.plain, String.utf8EncodeChar (Char.ofNat value))
  | some high =>
      if isLow then
        some (.plain, String.utf8EncodeChar
          (Char.ofNat (0x10000 + (high - 0xD800) * 0x400 + (value - 0xDC00))))
      else none

/-- The reader on one byte, with the bytes of the text that it makes. -/
def Mode.next (mode : Mode) (b : UInt8) : Option (Mode × List UInt8) :=
  match mode with
  | .plain =>
      if b = 92 then some (.escape, [])
      else if b = 34 ∨ b < 32 then none
      else some (.plain, [b])
  | .escape =>
      if b = 117 then some (.hex none 0 0, [])
      else (letter b.toNat).map fun c => (.plain, [c])
  | .hex high count value =>
      (hexValue b).bind fun d =>
        if count = 3 then closeHex high (16 * value + d)
        else some (.hex high (count + 1) (16 * value + d), [])
  | .paired high => if b = 92 then some (.pairedEscape high, []) else none
  | .pairedEscape high => if b = 117 then some (.hex (some high) 0 0, []) else none

/-- The reader on bytes. -/
def readAll : Mode → List UInt8 → Option (Mode × List UInt8)
  | mode, [] => some (mode, [])
  | mode, b :: bs => do
      let (mode, out) ← mode.next b
      let (mode, more) ← readAll mode bs
      some (mode, out ++ more)

/-- The text of a string, from the bytes between its quotes. -/
def readString (bytes : List UInt8) : Option (List UInt8) :=
  match readAll .plain bytes with
  | some (.plain, out) => some out
  | _ => none

/-- The reader goes through one part after the other. -/
lemma readAll_append {mode mode' : Mode} {xs ys out : List UInt8}
    (h : readAll mode xs = some (mode', out)) :
    readAll mode (xs ++ ys) = (readAll mode' ys).map fun r => (r.1, out ++ r.2) := by
  induction xs generalizing mode out with
  | nil =>
      cases h
      simp
  | cons b bs ih =>
      rw [List.cons_append, readAll]
      rw [readAll] at h
      cases hnext : mode.next b with
      | none =>
          rw [hnext] at h
          cases h
      | some next =>
          obtain ⟨mode₁, out₁⟩ := next
          rw [hnext] at h
          simp only [Option.bind_eq_bind, Option.bind_some] at h ⊢
          cases hrest : readAll mode₁ bs with
          | none =>
              rw [hrest] at h
              cases h
          | some rest =>
              obtain ⟨mode₂, out₂⟩ := rest
              rw [hrest] at h
              cases h
              rw [ih hrest]
              cases readAll mode₂ ys <;> simp

end Verbosec.Lib.JsonString
