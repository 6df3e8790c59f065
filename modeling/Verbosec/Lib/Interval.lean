import Mathlib.Data.Int.ConditionallyCompleteOrder
import Mathlib.Algebra.Order.Ring.Int
import Mathlib.Order.Interval.Set.UnorderedInterval
import Mathlib.Tactic.Linarith
import Verbosec.Lib.Machine

/-!
# Interval bounds of two-argument operations

* `mem_corners` - an operation that is monotone or antitone in each argument takes every value over
  a rectangle between the least and the largest of its four corner values.
* `mul_mem_corners`, `tdiv_mem_corners` - the corner bounds of multiplication, and of truncated
  division over a divisor interval without zero.
* `tmod_mem_limit` - the bounds of a truncated remainder.
-/

namespace Verbosec.Lib

section corners

variable {α β γ : Type*} [LinearOrder α] [LinearOrder β] [LinearOrder γ]

/-- The least of the four corner values. -/
def cornerMin (f : α → β → γ) (a b : α) (c d : β) : γ := min (min (f a c) (f a d)) (min (f b c) (f b d))

/-- The largest of the four corner values. -/
def cornerMax (f : α → β → γ) (a b : α) (c d : β) : γ := max (max (f a c) (f a d)) (max (f b c) (f b d))

lemma mem_uIcc_of_mono {g : α → γ} {a b x : α}
    (hg : MonotoneOn g (Set.Icc a b) ∨ AntitoneOn g (Set.Icc a b)) (hx : x ∈ Set.Icc a b) :
    g x ∈ Set.uIcc (g a) (g b) := by
  have hab : a ≤ b := hx.1.trans hx.2
  rw [← Set.uIcc_of_le hab] at hg hx
  rcases hg with hg | hg
  · exact hg.mapsTo_uIcc hx
  · exact hg.mapsTo_uIcc hx

/-- An operation that is monotone or antitone in each argument stays between its corners. -/
theorem mem_corners {f : α → β → γ} {a b x : α} {c d y : β}
    (hl : MonotoneOn (f · y) (Set.Icc a b) ∨ AntitoneOn (f · y) (Set.Icc a b))
    (hr : ∀ z, MonotoneOn (f z) (Set.Icc c d) ∨ AntitoneOn (f z) (Set.Icc c d))
    (hx : x ∈ Set.Icc a b) (hy : y ∈ Set.Icc c d) :
    cornerMin f a b c d ≤ f x y ∧ f x y ≤ cornerMax f a b c d := by
  have h₁ := mem_uIcc_of_mono hl hx
  have h₂ := mem_uIcc_of_mono (hr a) hy
  have h₃ := mem_uIcc_of_mono (hr b) hy
  obtain ⟨h₁l, h₁r⟩ := h₁
  obtain ⟨h₂l, h₂r⟩ := h₂
  obtain ⟨h₃l, h₃r⟩ := h₃
  constructor
  · exact (min_le_min h₂l h₃l).trans h₁l
  · exact h₁r.trans (max_le_max h₂r h₃r)

end corners

/-! ## Multiplication -/

lemma mul_right_mono_or_anti (y : Int) (s : Set Int) :
    MonotoneOn (· * y) s ∨ AntitoneOn (· * y) s := by
  rcases le_total 0 y with h | h
  · exact Or.inl fun a _ b _ hab => mul_le_mul_of_nonneg_right hab h
  · exact Or.inr fun a _ b _ hab => mul_le_mul_of_nonpos_right hab h

lemma mul_left_mono_or_anti (x : Int) (s : Set Int) :
    MonotoneOn (x * ·) s ∨ AntitoneOn (x * ·) s := by
  rcases le_total 0 x with h | h
  · exact Or.inl fun a _ b _ hab => mul_le_mul_of_nonneg_left hab h
  · exact Or.inr fun a _ b _ hab => mul_le_mul_of_nonpos_left hab h

/-- A product over a rectangle lies between the corner products. -/
theorem mul_mem_corners {a b c d x y : Int} (hx : x ∈ Set.Icc a b) (hy : y ∈ Set.Icc c d) :
    cornerMin (· * ·) a b c d ≤ x * y ∧ x * y ≤ cornerMax (· * ·) a b c d :=
  mem_corners (f := (· * ·)) (mul_right_mono_or_anti y _) (fun z => mul_left_mono_or_anti z _) hx hy

/-! ## Truncated division -/

lemma tdiv_anti_of_nonneg {x c d : Int} (hx : 0 ≤ x) (hc : 0 < c) (hcd : c ≤ d) :
    x.tdiv d ≤ x.tdiv c := by
  rw [Int.tdiv_eq_ediv_of_nonneg hx, Int.tdiv_eq_ediv_of_nonneg hx]
  have hmul : c * (x / d) ≤ x := by
    have h₁ := Int.mul_ediv_self_le (x := x) (k := d) (by omega)
    have h₂ := Int.ediv_nonneg hx (show 0 ≤ d by omega)
    nlinarith
  exact (Int.le_ediv_iff_mul_le hc).mpr (by linarith [mul_comm c (x / d)])

lemma tdiv_left_mono_or_anti {y : Int} (hy : y ≠ 0) (s : Set Int) :
    MonotoneOn (Int.tdiv · y) s ∨ AntitoneOn (Int.tdiv · y) s := by
  rcases lt_or_gt_of_ne hy with h | h
  · refine Or.inr fun a _ b _ hab => ?_
    have := Int.tdiv_le_tdiv (show 0 < -y by omega) hab
    simp only [Int.tdiv_neg] at this
    show b.tdiv y ≤ a.tdiv y
    omega
  · exact Or.inl fun a _ b _ hab => Int.tdiv_le_tdiv h hab

lemma tdiv_right_mono_or_anti (x : Int) {c d : Int} (h : 0 < c ∨ d < 0) :
    MonotoneOn (Int.tdiv x) (Set.Icc c d) ∨ AntitoneOn (Int.tdiv x) (Set.Icc c d) := by
  -- For a nonnegative dividend the quotient falls as the divisor grows, on either side of zero.
  have key : ∀ x : Int, 0 ≤ x → AntitoneOn (Int.tdiv x) (Set.Icc c d) := by
    intro x hx y hy z hz hyz
    rcases h with h | h
    · exact tdiv_anti_of_nonneg hx (by have := hy.1; omega) hyz
    · have := tdiv_anti_of_nonneg hx (show 0 < -z by have := hz.2; omega) (show -z ≤ -y by omega)
      simp only [Int.tdiv_neg] at this
      omega
  rcases le_total 0 x with hx | hx
  · exact Or.inr (key x hx)
  · refine Or.inl fun y hy z hz hyz => ?_
    have := key (-x) (by omega) hy hz hyz
    simp only [Int.neg_tdiv] at this
    omega

/-- A truncated quotient over a rectangle without a zero divisor lies between the corner
quotients. -/
theorem tdiv_mem_corners {a b c d x y : Int} (h : 0 < c ∨ d < 0) (hx : x ∈ Set.Icc a b)
    (hy : y ∈ Set.Icc c d) :
    cornerMin Int.tdiv a b c d ≤ x.tdiv y ∧ x.tdiv y ≤ cornerMax Int.tdiv a b c d := by
  have hy0 : y ≠ 0 := by
    have h₁ := hy.1
    have h₂ := hy.2
    omega
  exact mem_corners (tdiv_left_mono_or_anti hy0 _) (fun z => tdiv_right_mono_or_anti z h) hx hy

/-! ## Truncated remainder -/

/-- A truncated remainder lies between its dividend and zero, and is smaller than every bound of
the divisor's size. -/
theorem tmod_mem_limit {x y limit : Int} (hy : y ≠ 0) (hl : y.natAbs ≤ limit + 1) :
    max (min x 0) (-limit) ≤ x.tmod y ∧ x.tmod y ≤ min (max x 0) limit := by
  have h := Int.natAbs_tmod x y
  have hlt := Nat.mod_lt x.natAbs (Int.natAbs_pos.mpr hy)
  have hbetween := tmod_between x y
  omega

end Verbosec.Lib
