import Mathlib.Algebra.Order.Ring.Int
import Mathlib.Data.Nat.Bitwise
import Mathlib.Tactic.Common

/-!
# Machine words

* `word`, `wordSub` - sums, products and differences of 64-bit words, kept as natural numbers.
* `signed` - the signed reading of a word.
* `imm` - a 32-bit immediate, sign extended.
-/

namespace Verbosec.Lib

/-- A sum or a product as a 64-bit word. -/
def word (n : Nat) : Nat := n % 2 ^ 64

/-- A difference as a 64-bit word. -/
def wordSub (a b : Nat) : Nat := (a + 2 ^ 64 - b) % 2 ^ 64

/-- A word read as a signed number. -/
def signed (n : Nat) : Int := if n < 2 ^ 63 then n else n - 2 ^ 64

/-- A 32-bit immediate, sign extended to a word. -/
def imm (n : Nat) : Nat := if n < 2 ^ 31 then n else n + (2 ^ 64 - 2 ^ 32)

lemma word_of_lt {n : Nat} (h : n < 2 ^ 64) : word n = n := Nat.mod_eq_of_lt h

lemma wordSub_of_le {a b : Nat} (h : b ≤ a) (ha : a < 2 ^ 64) : wordSub a b = a - b := by
  rw [wordSub, show a + 2 ^ 64 - b = a - b + 2 ^ 64 by omega, Nat.add_mod_right,
    Nat.mod_eq_of_lt (by omega)]

lemma signed_of_lt {n : Nat} (h : n < 2 ^ 63) : signed n = n := if_pos h

lemma imm_of_lt {n : Nat} (h : n < 2 ^ 31) : imm n = n := if_pos h

end Verbosec.Lib
