import Mathlib.Algebra.Order.Ring.Int
import Mathlib.Tactic.Linarith

/-!
# Checked signed 64-bit arithmetic

* `InI64 z` - the mathematical integer `z` is representable as a signed 64-bit word.
* `toI64? z` - the word with value `z`, when there is one.
* `checkedAdd`, `checkedSub`, `checkedMul`, `checkedNeg`, `checkedDiv`, `checkedRem` - the exact
  operation on the values, `none` where the exact result does not fit (and, for the last two, on a
  zero divisor). Division truncates towards zero; the remainder of the least value by `-1` counts
  as an overflow although its exact value is `0`.
* Each operation has one `_eq_some` lemma: it succeeds exactly when the result's value is the exact
  result. Later modules use only these.
-/

namespace Verbosec.Lib

/-- The least signed 64-bit value. -/
abbrev minI64 : Int := -9223372036854775808

/-- The largest signed 64-bit value. -/
abbrev maxI64 : Int := 9223372036854775807

/-- `z` is representable as a signed 64-bit word. -/
def InI64 (z : Int) : Prop := minI64 ≤ z ∧ z ≤ maxI64

instance : DecidablePred InI64 := fun z => inferInstanceAs (Decidable (minI64 ≤ z ∧ z ≤ maxI64))

/-- Every word's value is representable. -/
theorem inI64_toInt (x : Int64) : InI64 x.toInt := by
  have hlo := Int64.le_toInt x
  have hhi := Int64.toInt_lt x
  unfold InI64 minI64 maxI64
  constructor <;> omega

/-- The least value is a lower bound of every word. -/
theorem minI64_le_toInt (x : Int64) : minI64 ≤ x.toInt := (inI64_toInt x).1

/-- The largest value is an upper bound of every word. -/
theorem toInt_le_maxI64 (x : Int64) : x.toInt ≤ maxI64 := (inI64_toInt x).2

/-- Representability passes to anything between two representable values. -/
theorem InI64.of_between {lo hi z : Int} (hlo : InI64 lo) (hhi : InI64 hi) (h₁ : lo ≤ z)
    (h₂ : z ≤ hi) : InI64 z := ⟨hlo.1.trans h₁, h₂.trans hhi.2⟩

/-- The word of a representable value has that value. -/
theorem toInt_ofInt {z : Int} (h : InI64 z) : (Int64.ofInt z).toInt = z := by
  unfold InI64 minI64 maxI64 at h
  exact Int64.toInt_ofInt_of_le (by omega) (by omega)

/-- The word with value `z`, when `z` is representable. -/
def toI64? (z : Int) : Option Int64 := if InI64 z then some (Int64.ofInt z) else none

/-- `toI64?` succeeds exactly with the word of that value. -/
theorem toI64?_eq_some {z : Int} {x : Int64} : toI64? z = some x ↔ x.toInt = z := by
  unfold toI64?
  split
  · rename_i h
    constructor
    · rintro ⟨rfl⟩
      exact toInt_ofInt h
    · rintro rfl
      rw [Int64.ofInt_toInt]
  · rename_i h
    constructor
    · intro h'
      cases h'
    · rintro rfl
      exact absurd (inI64_toInt x) h

/-- `toI64?` fails exactly outside the representable range. -/
theorem toI64?_eq_none {z : Int} : toI64? z = none ↔ ¬ InI64 z := by
  simp [toI64?]

/-- A representable value has a word. -/
theorem exists_toI64? {z : Int} (h : InI64 z) : ∃ x, toI64? z = some x ∧ x.toInt = z :=
  ⟨Int64.ofInt z, by simp [toI64?, h], toInt_ofInt h⟩

/-! ## The operations -/

/-- Exact addition of two words. -/
def checkedAdd (a b : Int64) : Option Int64 := toI64? (a.toInt + b.toInt)

/-- Exact subtraction of two words. -/
def checkedSub (a b : Int64) : Option Int64 := toI64? (a.toInt - b.toInt)

/-- Exact multiplication of two words. -/
def checkedMul (a b : Int64) : Option Int64 := toI64? (a.toInt * b.toInt)

/-- Exact negation of a word. -/
def checkedNeg (a : Int64) : Option Int64 := toI64? (-a.toInt)

/-- Exact absolute value of a word. -/
def checkedAbs (a : Int64) : Option Int64 := toI64? a.toInt.natAbs

/-- Truncated division: `none` on a zero divisor and on the least value by `-1`. -/
def checkedDiv (a b : Int64) : Option Int64 :=
  if b.toInt = 0 then none else toI64? (a.toInt.tdiv b.toInt)

/-- Truncated remainder: `none` on a zero divisor and on the least value by `-1`. -/
def checkedRem (a b : Int64) : Option Int64 :=
  if b.toInt = 0 ∨ a.toInt = minI64 ∧ b.toInt = -1 then none else toI64? (a.toInt.tmod b.toInt)

theorem checkedAdd_eq_some {a b c : Int64} :
    checkedAdd a b = some c ↔ c.toInt = a.toInt + b.toInt := toI64?_eq_some

theorem checkedSub_eq_some {a b c : Int64} :
    checkedSub a b = some c ↔ c.toInt = a.toInt - b.toInt := toI64?_eq_some

theorem checkedMul_eq_some {a b c : Int64} :
    checkedMul a b = some c ↔ c.toInt = a.toInt * b.toInt := toI64?_eq_some

theorem checkedNeg_eq_some {a c : Int64} : checkedNeg a = some c ↔ c.toInt = -a.toInt :=
  toI64?_eq_some

theorem checkedAbs_eq_some {a c : Int64} : checkedAbs a = some c ↔ c.toInt = a.toInt.natAbs :=
  toI64?_eq_some

theorem checkedDiv_eq_some {a b c : Int64} :
    checkedDiv a b = some c ↔ b.toInt ≠ 0 ∧ c.toInt = a.toInt.tdiv b.toInt := by
  unfold checkedDiv
  split <;> simp_all [toI64?_eq_some]

theorem checkedRem_eq_some {a b c : Int64} :
    checkedRem a b = some c ↔
      b.toInt ≠ 0 ∧ ¬ (a.toInt = minI64 ∧ b.toInt = -1) ∧ c.toInt = a.toInt.tmod b.toInt := by
  unfold checkedRem
  split
  · rename_i h
    simp only [reduceCtorEq, false_iff]
    tauto
  · rename_i h
    rw [toI64?_eq_some]
    tauto

/-! ## Total operations -/

/-- Absolute values are exact above the least value. -/
theorem toInt_abs {a : Int64} (h : a.toInt ≠ minI64) : a.abs.toInt = a.toInt.natAbs := by
  have hmin : a.toBitVec ≠ BitVec.intMin 64 := by
    intro h'
    apply h
    show a.toBitVec.toInt = minI64
    rw [h']
    rfl
  exact BitVec.toInt_abs_eq_natAbs_of_ne_intMin hmin

theorem toInt_min (a b : Int64) : (min a b).toInt = min a.toInt b.toInt := by
  show (if a ≤ b then a else b).toInt = _
  rw [min_def]
  simp only [Int64.le_iff_toInt_le]
  split <;> rfl

theorem toInt_max (a b : Int64) : (max a b).toInt = max a.toInt b.toInt := by
  show (if a ≤ b then b else a).toInt = _
  rw [max_def]
  simp only [Int64.le_iff_toInt_le]
  split <;> rfl

/-! ## Truncated division and remainder -/

/-- The truncated quotient of two words is representable, the least value by `-1` apart. -/
theorem inI64_tdiv {a b : Int64} (h : ¬ (a.toInt = minI64 ∧ b.toInt = -1)) :
    InI64 (a.toInt.tdiv b.toInt) := by
  have ha := inI64_toInt a
  have hle := Int.natAbs_tdiv_le_natAbs a.toInt b.toInt
  unfold InI64 minI64 maxI64 at *
  rcases eq_or_ne a.toInt (-9223372036854775808) with h₁ | h₁
  · -- The quotient of the least value is `2^63` only for the divisor `-1`.
    have h₂ : b.toInt ≠ -1 := fun h₂ => h ⟨h₁, h₂⟩
    have h₃ : a.toInt.tdiv b.toInt ≠ 9223372036854775808 := by
      intro h₃
      have hdm := Int.mul_tdiv_add_tmod a.toInt b.toInt
      have hlt := Int.natAbs_tmod a.toInt b.toInt
      rcases lt_trichotomy b.toInt 0 with hb | hb | hb
      · have : b.toInt ≤ -2 := by omega
        have hmod := Nat.mod_lt a.toInt.natAbs (show 0 < b.toInt.natAbs by omega)
        rw [h₃] at hdm
        omega
      · rw [hb, Int.tdiv_zero] at h₃
        omega
      · rw [h₃] at hdm
        have hmod := Nat.mod_lt a.toInt.natAbs (show 0 < b.toInt.natAbs by omega)
        omega
    omega
  · omega

/-- A truncated remainder lies between its dividend and zero. -/
theorem tmod_between (a b : Int) : min a 0 ≤ a.tmod b ∧ a.tmod b ≤ max a 0 := by
  have h := Int.natAbs_tmod a b
  have hle := Nat.mod_le a.natAbs b.natAbs
  rcases Int.le_total 0 a with ha | ha
  · have := Int.tmod_nonneg b ha
    omega
  · have hneg := Int.tmod_nonneg b (show 0 ≤ -a by omega)
    rw [Int.neg_tmod] at hneg
    omega

/-- The truncated remainder of two words is representable. -/
theorem inI64_tmod (a b : Int64) : InI64 (a.toInt.tmod b.toInt) := by
  have ha := inI64_toInt a
  have h := tmod_between a.toInt b.toInt
  unfold InI64 minI64 maxI64 at *
  omega

end Verbosec.Lib
