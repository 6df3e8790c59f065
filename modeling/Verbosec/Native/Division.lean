import Verbosec.Verifier.ComputeRange
import Mathlib.Data.Nat.Log
import Mathlib.Tactic.Ring

/-!
# Division by a constant

* `magicDivConstant` - the multiplier and the shift that stand for a division.
* `Instr`, `Regs.run` - the instructions of the reductions.
* `Form`, `divisionForm`, `Form.code` - which reduction is emitted, and its instructions.
* `magic_quotient` - the multiplier is close enough to the reciprocal for every dividend of 63 bits.
* `biased_shift`, `division_exact` - the reductions are exact.

Source: `native.rs`, `magic_div_constant`, and the strength reductions of `Div` in `emit_eval_expr`.
-/

namespace Verbosec.Native.Division

open Verbosec.Lib Interpreter
open Optimizer (FieldRanges)
open Verifier (computeRange)

/-! ## The multiplier -/

/-- Is the quotient of `x` right? Source: `native.rs`, `magic_div_constant`, `verify` -/
def verifies (d magic p x : Nat) : Bool := x * magic / 2 ^ 64 / 2 ^ p = x / d

/-- The multiplier and the shift. A product of 64 bits wraps. Source: `native.rs`,
`magic_div_constant` -/
def magicDivConstant (d : UInt64) : Option (UInt64 × UInt8) :=
  let n := d.toNat
  if n ≤ 1 then none
  else
    let p := Nat.log 2 n
    if 127 < 64 + p then none
    else
      let magic := (2 ^ (64 + p) + n - 1) / n
      if 2 ^ 64 - 1 < magic then none
      else if [0, 1, n - 1, n, n + 1, (n * 100) % 2 ^ 64, 2 ^ 32 - 1].all (verifies n magic p) then
        some (UInt64.ofNat magic, UInt8.ofNat p)
      else none

/-- **The multiply-shift identity**: the rounded reciprocal of `d` is exact for every dividend of 63
bits, as the rounding is below `d` and `d` is below `2 ^ (p + 1)`. -/
lemma magic_quotient {d p x : Nat} (hd : 0 < d) (hp : d < 2 ^ (p + 1)) (hx : x < 2 ^ 63) :
    x * ((2 ^ (64 + p) + d - 1) / d) / 2 ^ 64 / 2 ^ p = x / d := by
  generalize hN : 2 ^ (64 + p) = N
  generalize hm : (N + d - 1) / d = magic
  have hNpos : 0 < N := by rw [← hN]; positivity
  -- the rounding error of the reciprocal
  obtain ⟨e, he, hed⟩ : ∃ e, magic * d = N + e ∧ e < d := by
    have hdiv := Nat.div_add_mod (N + d - 1) d
    have hmod := Nat.mod_lt (N + d - 1) hd
    rw [hm, Nat.mul_comm] at hdiv
    exact ⟨magic * d - N, by omega, by omega⟩
  have herror : x * e < N := by
    calc x * e ≤ 2 ^ 63 * e := Nat.mul_le_mul_right e hx.le
      _ < 2 ^ 63 * 2 ^ (p + 1) := by
        have : e < 2 ^ (p + 1) := hed.trans hp
        omega
      _ = N := by rw [← hN, ← Nat.pow_add]; congr 1; omega
  have hproduct : x * magic * d = x * N + x * e := by rw [Nat.mul_assoc, he, Nat.mul_add]
  have hlow : x / d * d ≤ x := Nat.div_mul_le_self x d
  have hhigh : x + 1 ≤ (x / d + 1) * d := by
    have := Nat.div_add_mod x d
    have := Nat.mod_lt x hd
    rw [Nat.add_mul, Nat.mul_comm (x / d)]
    omega
  rw [Nat.div_div_eq_div_mul, ← Nat.pow_add, hN]
  refine Nat.div_eq_of_lt_le ?_ ?_
  · refine Nat.le_of_mul_le_mul_right ?_ hd
    calc x / d * N * d = x / d * d * N := by ring
      _ ≤ x * N := Nat.mul_le_mul_right N hlow
      _ ≤ x * magic * d := by omega
  · refine Nat.lt_of_mul_lt_mul_right (a := d) ?_
    calc x * magic * d < x * N + N := by omega
      _ = (x + 1) * N := by ring
      _ ≤ (x / d + 1) * d * N := Nat.mul_le_mul_right N hhigh
      _ = (x / d + 1) * N * d := by ring

/-- What the multiplier is where there is one. -/
lemma magicDivConstant_spec {d : UInt64} {magic : UInt64} {p : UInt8}
    (h : magicDivConstant d = some (magic, p)) {x : Nat} (hx : x < 2 ^ 63) :
    x * magic.toNat / 2 ^ 64 / 2 ^ p.toNat = x / d.toNat := by
  unfold magicDivConstant at h
  simp only at h
  split at h
  · cases h
  rename_i hone
  split at h
  · cases h
  rename_i hshift
  split at h
  · cases h
  rename_i hmagic
  split at h
  · cases h
    have hword : (2 ^ (64 + Nat.log 2 d.toNat) + d.toNat - 1) / d.toNat < UInt64.size := by
      simp only [UInt64.size]
      omega
    have hbyte : Nat.log 2 d.toNat < UInt8.size := by
      simp only [UInt8.size]
      omega
    rw [UInt64.toNat_ofNat_of_lt' hword, UInt8.toNat_ofNat_of_lt' hbyte]
    exact magic_quotient (by omega) (Nat.lt_pow_succ_log_self (by omega) _) hx
  · cases h

/-! ## The instructions -/

/-- The registers. -/
structure Regs where
  rax : BitVec 64
  rcx : BitVec 64
  rdx : BitVec 64

/-- An instruction of a reduction. -/
inductive Instr where
  | cqo
  | shrRdx (k : Nat)
  | addRaxRdx
  | sarRax (k : Nat)
  | shrRax (k : Nat)
  | movRcx (i : UInt64)
  | mulRcx
  | movRaxRdx
  deriving DecidableEq, Repr

/-- One instruction. -/
def Regs.step (g : Regs) : Instr → Regs
  | .cqo => { g with rdx := if g.rax.msb then BitVec.allOnes 64 else 0 }
  | .shrRdx k => { g with rdx := g.rdx >>> k }
  | .addRaxRdx => { g with rax := g.rax + g.rdx }
  | .sarRax k => { g with rax := g.rax.sshiftRight k }
  | .shrRax k => { g with rax := g.rax >>> k }
  | .movRcx i => { g with rcx := i.toBitVec }
  | .mulRcx =>
      { g with
        rax := BitVec.ofNat 64 (g.rax.toNat * g.rcx.toNat)
        rdx := BitVec.ofNat 64 (g.rax.toNat * g.rcx.toNat / 2 ^ 64) }
  | .movRaxRdx => { g with rax := g.rdx }

/-- Some instructions. -/
def Regs.run (g : Regs) (code : List Instr) : Regs := code.foldl Regs.step g

/-! ## The reductions -/

/-- A reduction of a division. -/
inductive Form where
  | identity
  | logicalShift (k : Nat)
  | biased (k : Nat)
  | multiply (magic : UInt64) (p : UInt8)
  deriving DecidableEq, Repr

/-- The instructions of a reduction, behind those of the dividend. Source: `native.rs`,
`emit_eval_expr`, the strength reductions of `Div` -/
def Form.code : Form → List Instr
  | .identity => []
  | .logicalShift k => [.shrRax k]
  | .biased k => [.cqo, .shrRdx (64 - k), .addRaxRdx, .sarRax k]
  | .multiply magic p =>
      [.movRcx magic, .mulRcx] ++ (if 0 < p then [.shrRdx p.toNat] else []) ++ [.movRaxRdx]

/-- Is the reduction for dividends that are not negative? -/
def Form.nonnegative : Form → Bool
  | .logicalShift _ | .multiply _ _ => true
  | _ => false

/-- Source: `u64::is_power_of_two` -/
def isPowerOfTwo (n : Nat) : Bool := 2 ^ Nat.log 2 n = n

/-- Does the range of the dividend exclude negative numbers? -/
def provesNonnegative (range : Option (Int64 × Int64)) : Bool := range.elim false fun r => 0 ≤ r.1

/-- The reduction of a division of `left` by `n`; none where the division is emitted. Source:
`native.rs`, `emit_eval_expr`, the strength reductions of `Div` -/
def divisionForm (inputName : String) (ranges : FieldRanges) (left : Expr) (n : Int64) :
    Option Form :=
  let nonnegative := provesNonnegative (computeRange inputName ranges left)
  if 0 < n ∧ isPowerOfTwo n.toUInt64.toNat then
    let shift := Nat.log 2 n.toUInt64.toNat
    if shift = 0 then some .identity
    else if nonnegative then some (.logicalShift shift)
    else some (.biased shift)
  else if 1 < n then
    match magicDivConstant n.toUInt64 with
    | some (magic, p) => if nonnegative then some (.multiply magic p) else none
    | none => none
  else none

/-! ## Exactness -/

/-- A quotient that is biased before it is floored is the quotient rounded up. -/
lemma ediv_bias {d : Int} (hd : 0 < d) (x : Int) : (x + (d - 1)) / d = -((-x) / d) := by
  have hdiv := Int.mul_ediv_add_emod (-x) d
  have hnonneg := Int.emod_nonneg (-x) hd.ne'
  have hlt := Int.emod_lt_of_pos (-x) hd
  have hsplit : x + (d - 1) = (d - 1 - (-x) % d) + d * (-((-x) / d)) := by
    rw [Int.mul_neg]
    omega
  rw [hsplit, Int.add_mul_ediv_left _ _ hd.ne',
    Int.ediv_eq_zero_of_lt (by omega) (by omega), Int.zero_add]

/-- A nonnegative word is its own number. -/
lemma toNat_of_nonneg {x : BitVec 64} (h : 0 ≤ x.toInt) :
    (x.toNat : Int) = x.toInt ∧ x.toNat < 2 ^ 63 := by
  have hx := x.isLt
  have hlt : 2 * x.toNat < 2 ^ 64 := by
    by_contra hge
    rw [BitVec.toInt_eq_toNat_cond, if_neg hge] at h
    omega
  exact ⟨(BitVec.toInt_eq_toNat_of_lt hlt).symm, by omega⟩

/-- **The bias sequence** is the truncating division, for every dividend. -/
lemma biased_shift {k : Nat} (hk : 0 < k) (hk' : k ≤ 62) (g : Regs) :
    (g.run (Form.biased k).code).rax.toInt = g.rax.toInt.tdiv (2 ^ k : Nat) := by
  have hpow : 2 ^ k ≤ 2 ^ 62 := Nat.pow_le_pow_right (by omega) hk'
  have hpos : 0 < 2 ^ k := by positivity
  show ((g.rax + ((if g.rax.msb then BitVec.allOnes 64 else 0) >>> (64 - k))).sshiftRight k).toInt =
    _
  rw [BitVec.toInt_sshiftRight, Int.shiftRight_eq_div_pow]
  have hlow := g.rax.le_toInt
  have hhigh := g.rax.toInt_lt
  by_cases hneg : g.rax.msb = true
  · have hlt : g.rax.toInt < 0 := BitVec.toInt_neg_iff.mpr (by
      rw [BitVec.msb_eq_decide, decide_eq_true_iff] at hneg
      omega)
    -- the sign mask, shifted, is one less than the divisor
    have hmask : (BitVec.allOnes 64 >>> (64 - k)).toNat = 2 ^ k - 1 := by
      rw [BitVec.toNat_ushiftRight, BitVec.toNat_allOnes, Nat.shiftRight_eq_div_pow]
      have hsplit : 2 ^ 64 = 2 ^ k * 2 ^ (64 - k) := by rw [← Nat.pow_add]; congr 1; omega
      have hpos' : 0 < 2 ^ (64 - k) := by positivity
      refine Nat.div_eq_of_lt_le ?_ ?_
      · rw [Nat.sub_mul, ← hsplit]
        omega
      · rw [Nat.sub_add_cancel hpos, ← hsplit]
        omega
    have hmask' : (BitVec.allOnes 64 >>> (64 - k)).toInt = (2 ^ k : Nat) - 1 := by
      rw [BitVec.toInt_eq_toNat_of_lt (by omega), hmask]
      omega
    rw [if_pos hneg, BitVec.toInt_add, hmask', Int.bmod_eq_of_le (by omega) (by omega)]
    -- the floor of the biased quotient is its ceiling
    have hneg' : g.rax.toInt.tdiv (2 ^ k : Nat) = -((-g.rax.toInt) / (2 ^ k : Nat)) := by
      rw [← Int.tdiv_eq_ediv_of_nonneg (by omega), Int.neg_tdiv, Int.neg_neg]
    rw [hneg', ediv_bias (by exact_mod_cast hpos)]
  · have hge : 0 ≤ g.rax.toInt := by
      by_contra hlt
      refine hneg ?_
      have := BitVec.toInt_neg_iff.mp (by omega : g.rax.toInt < 0)
      rw [BitVec.msb_eq_decide, decide_eq_true_iff]
      omega
    rw [if_neg hneg, Int.tdiv_eq_ediv_of_nonneg hge]
    simp

/-- **The logical shift** is the truncating division, for a dividend that is not negative. -/
lemma logical_shift (k : Nat) (g : Regs) (h : 0 ≤ g.rax.toInt) :
    (g.run (Form.logicalShift k).code).rax.toInt = g.rax.toInt.tdiv (2 ^ k : Nat) := by
  obtain ⟨hvalue, hlt⟩ := toNat_of_nonneg h
  have hle : g.rax.toNat / 2 ^ k ≤ g.rax.toNat := Nat.div_le_self _ _
  show (g.rax >>> k).toInt = _
  have hshift : (g.rax >>> k).toNat = g.rax.toNat / 2 ^ k := by
    rw [BitVec.toNat_ushiftRight, Nat.shiftRight_eq_div_pow]
  rw [BitVec.toInt_eq_toNat_of_lt (by omega), hshift, Int.tdiv_eq_ediv_of_nonneg h, ← hvalue]
  norm_cast

/-- **The multiplication** is the truncating division, for a dividend that is not negative. -/
lemma multiply_shift {d magic : UInt64} {p : UInt8} (hd : magicDivConstant d = some (magic, p))
    (g : Regs) (h : 0 ≤ g.rax.toInt) :
    (g.run (Form.multiply magic p).code).rax.toInt = g.rax.toInt.tdiv d.toNat := by
  obtain ⟨hvalue, hlt⟩ := toNat_of_nonneg h
  have hspec := magicDivConstant_spec hd hlt
  have hhigh : g.rax.toNat * magic.toNat / 2 ^ 64 < 2 ^ 64 := by
    refine Nat.div_lt_of_lt_mul ?_
    exact Nat.mul_lt_mul'' g.rax.isLt magic.toNat_lt
  -- the shift is left out where it is by nothing
  have hrun : (g.run (Form.multiply magic p).code).rax =
      BitVec.ofNat 64 (g.rax.toNat * magic.toNat / 2 ^ 64) >>> p.toNat := by
    by_cases hp : 0 < p
    · simp only [Form.code, hp, if_true]
      rfl
    · have hzero : p = 0 := by
        rw [UInt8.not_lt] at hp
        exact UInt8.le_antisymm hp (UInt8.zero_le)
      subst hzero
      exact (BitVec.ushiftRight_zero _).symm
  have hnat : (g.run (Form.multiply magic p).code).rax.toNat = g.rax.toNat / d.toNat := by
    rw [hrun, BitVec.toNat_ushiftRight, Nat.shiftRight_eq_div_pow, BitVec.toNat_ofNat,
      Nat.mod_eq_of_lt hhigh, hspec]
  have hle : g.rax.toNat / d.toNat ≤ g.rax.toNat := Nat.div_le_self _ _
  rw [BitVec.toInt_eq_toNat_of_lt (by omega), hnat, Int.tdiv_eq_ediv_of_nonneg h, ← hvalue]
  norm_cast

/-- A form for dividends that are not negative is chosen where the range says so. -/
lemma divisionForm_nonnegative {inputName : String} {ranges : FieldRanges} {left : Expr} {n : Int64}
    {f : Form} (h : divisionForm inputName ranges left n = some f) (hf : f.nonnegative = true) :
    ∃ lo hi, computeRange inputName ranges left = some (lo, hi) ∧ 0 ≤ lo := by
  have hrange : provesNonnegative (computeRange inputName ranges left) = true := by
    unfold divisionForm at h
    by_contra hno
    simp only [Bool.not_eq_true] at hno
    simp only [hno, Bool.false_eq_true, if_false] at h
    split at h
    · split at h <;> cases h <;> cases hf
    · split at h
      · split at h <;> cases h
      · cases h
  rcases hr : computeRange inputName ranges left with _ | ⟨lo, hi⟩
  · rw [hr] at hrange
    cases hrange
  · rw [hr] at hrange
    exact ⟨lo, hi, rfl, by simpa [provesNonnegative] using hrange⟩

/-- **A reduction is the division**: whichever is chosen, its instructions compute the truncating
quotient of every dividend it is for. -/
theorem divisionForm_run {inputName : String} {ranges : FieldRanges} {left : Expr} {n : Int64}
    {f : Form} (h : divisionForm inputName ranges left n = some f) (g : Regs)
    (hg : f.nonnegative = true → 0 ≤ g.rax.toInt) :
    (g.run f.code).rax.toInt = g.rax.toInt.tdiv n.toInt := by
  have hcast : 0 < n → (n.toUInt64.toNat : Int) = n.toInt ∧ n.toUInt64.toNat < 2 ^ 63 := by
    intro hpos
    have hpos' : 0 < n.toInt := by simpa [Int64.lt_iff_toInt_lt] using hpos
    have : 0 ≤ n.toBitVec.toInt := hpos'.le
    exact toNat_of_nonneg this
  unfold divisionForm at h
  simp only at h
  split at h
  · rename_i hpow
    obtain ⟨hpos, hpow⟩ := hpow
    obtain ⟨hvalue, hlt⟩ := hcast hpos
    have hexact : 2 ^ Nat.log 2 n.toUInt64.toNat = n.toUInt64.toNat := by
      simpa [isPowerOfTwo] using hpow
    have hle : Nat.log 2 n.toUInt64.toNat ≤ 62 := by
      by_contra hgt
      have : 2 ^ 63 ≤ 2 ^ Nat.log 2 n.toUInt64.toNat := Nat.pow_le_pow_right (by omega) (by omega)
      omega
    rw [← hvalue, ← hexact]
    generalize Nat.log 2 n.toUInt64.toNat = k at h hle
    split at h
    · rename_i hzero
      cases h
      subst hzero
      exact (Int.tdiv_one _).symm
    · split at h <;> cases h
      · exact logical_shift k g (hg rfl)
      · exact biased_shift (by omega) hle g
  · split at h
    · rename_i hone
      split at h
      · rename_i magic p hmagic
        split at h <;> cases h
        have hpos : 0 < n := Int64.lt_trans (by decide) hone
        rw [← (hcast hpos).1]
        exact multiply_shift hmagic g (hg rfl)
      · cases h
    · cases h

/-- **A division by a constant is exact.** For a power of two the bias sequence is the truncating
division of every dividend, and the plain shift that of every one that is not negative. Where there
is a multiplier, the high half of the product, shifted, is the quotient of every dividend that is
not negative, and the instructions compute it. The forms for such dividends are only chosen where
the range proves the dividend nonnegative. -/
theorem division_exact (d : Int64) (hd : 2 ≤ d) :
    (∀ k : Nat, d.toInt = 2 ^ k → ∀ g : Regs,
      (g.run (Form.biased k).code).rax.toInt = g.rax.toInt.tdiv d.toInt ∧
      (0 ≤ g.rax.toInt →
        (g.run (Form.logicalShift k).code).rax.toInt = g.rax.toInt.tdiv d.toInt)) ∧
    (∀ magic p, magicDivConstant d.toUInt64 = some (magic, p) →
      (∀ x : Nat, x ≤ Int64.maxValue.toInt →
        (x * magic.toNat / 2 ^ 64) / 2 ^ p.toNat = x / d.toUInt64.toNat) ∧
      ∀ g : Regs, 0 ≤ g.rax.toInt →
        (g.run (Form.multiply magic p).code).rax.toInt = g.rax.toInt.tdiv d.toInt) ∧
    ∀ inputName ranges left f, divisionForm inputName ranges left d = some f →
      f.nonnegative = true →
      ∃ lo hi, computeRange inputName ranges left = some (lo, hi) ∧ 0 ≤ lo := by
  have hd' : 2 ≤ d.toInt := by simpa [Int64.le_iff_toInt_le] using hd
  have hmax := d.toInt_lt
  refine ⟨?_, ?_, fun inputName ranges left f h hf => divisionForm_nonnegative h hf⟩
  · intro k hk g
    have hpos : 0 < k := by
      rcases Nat.eq_zero_or_pos k with rfl | hpos
      · norm_num at hk
        omega
      · exact hpos
    have hle : k ≤ 62 := by
      by_contra hgt
      have : (2 : Int) ^ 63 ≤ 2 ^ k := pow_le_pow_right₀ (by norm_num) (by omega)
      omega
    have hcast : d.toInt = ((2 ^ k : Nat) : Int) := by rw [hk]; norm_cast
    rw [hcast]
    exact ⟨biased_shift hpos hle g, logical_shift k g⟩
  · intro magic p h
    have hcast : (d.toUInt64.toNat : Int) = d.toInt := by
      have : 0 ≤ d.toBitVec.toInt := by
        have : d.toBitVec.toInt = d.toInt := rfl
        omega
      exact (toNat_of_nonneg this).1
    refine ⟨fun x hx => magicDivConstant_spec h ?_, fun g hg => ?_⟩
    · have : Int64.maxValue.toInt = 2 ^ 63 - 1 := rfl
      omega
    · rw [← hcast]
      exact multiply_shift h g hg

/-- Division by seven, and by eight. -/
theorem division_exact_seven :
    (∀ x : Nat, x ≤ Int64.maxValue.toInt → (x * 10540996613548315210 / 2 ^ 64) / 2 ^ 2 = x / 7) ∧
    ∀ g : Regs, (g.run (Form.biased 3).code).rax.toInt = g.rax.toInt.tdiv 8 :=
  ⟨((division_exact 7 (by decide)).2.1 10540996613548315210 2 (by decide +kernel)).1,
    fun g => ((division_exact 8 (by decide)).1 3 (by decide) g).1⟩

end Verbosec.Native.Division
