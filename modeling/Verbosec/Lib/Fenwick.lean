import Mathlib.Algebra.Group.Basic
import Mathlib.Data.Nat.Bitwise

/-!
# Prefix sums in a Fenwick tree

* `lowBit` - the lowest set bit of a number, with its recursion on the binary digits. A machine
  reads it as `n & -n` (`and_two_pow_sub`) and clears it as `n & (n - 1)` (`and_sub_one`).
* `Covers i k` - node `i` holds the values of the positions above `i - lowBit i` up to `i`, and `k` is
  one of them. The nodes of a position are the chain that adds the lowest bit (`Covers.next`), and
  there is none between two of the chain (`Covers.eq_of_lt_next`).
* `Prefixes t p` - the tree `t` holds the values whose prefix sums are `p`: the tree of zeros holds
  zeros, and a value that is added to the nodes of a position is added to the prefix sums from there
  on (`Prefixes.add`).
-/

namespace Verbosec.Lib.Fenwick

/-! ## The lowest set bit -/

/-- The lowest set bit of a number, `0` for `0`. -/
def lowBit (n : Nat) : Nat := n - (n &&& (n - 1))

lemma lowBit_le (n : Nat) : lowBit n ≤ n := Nat.sub_le _ _

/-- Clearing the lowest bit. -/
lemma and_sub_one (n : Nat) : n &&& (n - 1) = n - lowBit n := by
  have hle : n &&& (n - 1) ≤ n := Nat.and_le_left
  unfold lowBit
  omega

lemma lowBit_odd (n : Nat) : lowBit (2 * n + 1) = 1 := by
  have hand : (2 * n + 1) &&& (2 * n) = 2 * n := by
    simpa [Nat.bit_val] using Nat.land_bit true n false n
  rw [lowBit, Nat.add_sub_cancel, hand]
  omega

lemma lowBit_even (n : Nat) : lowBit (2 * n) = 2 * lowBit n := by
  cases n with
  | zero => rfl
  | succ n =>
      have hand : (2 * (n + 1)) &&& (2 * n + 1) = 2 * ((n + 1) &&& n) := by
        simpa [Nat.bit_val] using Nat.land_bit false (n + 1) true n
      rw [lowBit, lowBit, show 2 * (n + 1) - 1 = 2 * n + 1 by omega, hand, Nat.add_sub_cancel]
      omega

/-- Induction on the binary digits of a positive number. -/
lemma digits_induction {motive : ∀ n, 0 < n → Prop}
    (odd : ∀ n, motive (2 * n + 1) (Nat.succ_pos _))
    (even : ∀ n (hn : 0 < n), motive n hn → motive (2 * n) (Nat.mul_pos Nat.two_pos hn))
    (n : Nat) (hn : 0 < n) : motive n hn := by
  induction n using Nat.strong_induction_on with
  | _ n ih =>
      rcases Nat.even_or_odd' n with ⟨m, rfl | rfl⟩
      · exact even m (by omega) (ih m (by omega) (by omega))
      · exact odd m

lemma lowBit_pos {n : Nat} (hn : 0 < n) : 0 < lowBit n := by
  induction n, hn using digits_induction with
  | odd n => rw [lowBit_odd]; exact Nat.one_pos
  | even n hn ih => rw [lowBit_even]; omega

/-- Below the lowest bit of `n`, the digits of `n + r` are those of `r`. -/
lemma lowBit_add_of_lt {n r : Nat} (hn : 0 < n) (hr : 0 < r) (h : r < lowBit n) :
    lowBit (n + r) = lowBit r := by
  induction n, hn using digits_induction generalizing r with
  | odd n =>
      rw [lowBit_odd] at h
      omega
  | even n hn ih =>
      rw [lowBit_even] at h
      rcases Nat.even_or_odd' r with ⟨s, rfl | rfl⟩
      · rw [← Nat.mul_add, lowBit_even, lowBit_even, ih (by omega) (by omega)]
      · rw [show 2 * n + (2 * s + 1) = 2 * (n + s) + 1 by omega, lowBit_odd, lowBit_odd]

/-- Adding the lowest bit carries it at least one digit up. -/
lemma two_mul_lowBit_le {n : Nat} (hn : 0 < n) : 2 * lowBit n ≤ lowBit (n + lowBit n) := by
  induction n, hn using digits_induction with
  | odd n =>
      have hpos : 0 < lowBit (n + 1) := lowBit_pos n.succ_pos
      rw [lowBit_odd, show 2 * n + 1 + 1 = 2 * (n + 1) by omega, lowBit_even]
      omega
  | even n hn ih =>
      rw [lowBit_even, ← Nat.mul_add, lowBit_even]
      omega

/-- A number has no digit in common with its complement. -/
lemma and_complement {n w : Nat} (h : n < 2 ^ w) : n &&& (2 ^ w - (n + 1)) = 0 := by
  refine Nat.eq_of_testBit_eq fun i => ?_
  rw [Nat.testBit_and, Nat.testBit_two_pow_sub_succ h, Nat.zero_testBit]
  cases n.testBit i <;> simp

/-- The lowest bit as a machine reads it: `n & -n` on words of `w` bits. -/
lemma and_two_pow_sub {n w : Nat} (hn : 0 < n) (h : n < 2 ^ w) : n &&& (2 ^ w - n) = lowBit n := by
  induction n, hn using digits_induction generalizing w with
  | odd n =>
      cases w with
      | zero => omega
      | succ w =>
          rw [Nat.pow_succ] at h ⊢
          have hand : (2 * n + 1) &&& (2 * (2 ^ w - (n + 1)) + 1) =
              2 * (n &&& (2 ^ w - (n + 1))) + 1 := by
            simpa [Nat.bit_val] using Nat.land_bit true n true (2 ^ w - (n + 1))
          rw [show 2 ^ w * 2 - (2 * n + 1) = 2 * (2 ^ w - (n + 1)) + 1 by omega, hand,
            and_complement (by omega), lowBit_odd]
  | even n hn ih =>
      cases w with
      | zero => omega
      | succ w =>
          rw [Nat.pow_succ] at h ⊢
          have hand : (2 * n) &&& (2 * (2 ^ w - n)) = 2 * (n &&& (2 ^ w - n)) := by
            simpa [Nat.bit_val] using Nat.land_bit false n false (2 ^ w - n)
          rw [show 2 ^ w * 2 - 2 * n = 2 * (2 ^ w - n) by omega, hand, ih (by omega), lowBit_even]

/-! ## The nodes of a position -/

/-- Node `i` holds the value of position `k`: it covers the positions above `i - lowBit i` up to
`i`. -/
def Covers (i k : Nat) : Prop := i - lowBit i < k ∧ k ≤ i

instance (i k : Nat) : Decidable (Covers i k) :=
  inferInstanceAs (Decidable (i - lowBit i < k ∧ k ≤ i))

/-- The first node of a position is its own. -/
lemma Covers.self {k : Nat} (hk : 0 < k) : Covers k k :=
  ⟨Nat.sub_lt hk (lowBit_pos hk), Nat.le_refl _⟩

/-- The node after one of the chain. -/
lemma Covers.next {i k : Nat} (h : Covers i k) : Covers (i + lowBit i) k := by
  obtain ⟨hlow, hhigh⟩ := h
  have htwice : 2 * lowBit i ≤ lowBit (i + lowBit i) := two_mul_lowBit_le (by omega)
  exact ⟨by omega, by omega⟩

/-- No node stands between two of the chain. -/
lemma Covers.eq_of_lt_next {i j k : Nat} (hi : Covers i k) (hj : Covers j k) (hle : i ≤ j)
    (hlt : j < i + lowBit i) : j = i := by
  by_contra hne
  obtain ⟨-, hhigh⟩ := hi
  obtain ⟨hlow, -⟩ := hj
  have hbit : lowBit j = lowBit (j - i) := by
    have hadd : lowBit (i + (j - i)) = lowBit (j - i) :=
      lowBit_add_of_lt (by omega) (by omega) (by omega)
    rwa [Nat.add_sub_cancel' hle] at hadd
  have hle : lowBit (j - i) ≤ j - i := lowBit_le _
  omega

/-! ## Trees -/

section trees

variable {α : Type*} [AddCommMonoid α]

/-- The tree `t` holds the values whose prefix sums are `p`: a node completes the prefix sum before
the positions it covers. -/
structure Prefixes (t : List α) (p : Nat → α) : Prop where
  /-- no position stands before the first -/
  zero : p 0 = 0
  /-- every node from the first on -/
  node : ∀ i, 0 < i → (h : i < t.length) → p (i - lowBit i) + t[i] = p i

/-- The tree of zeros. -/
lemma Prefixes.replicate (n : Nat) : Prefixes (List.replicate n (0 : α)) fun _ => 0 :=
  ⟨rfl, fun i _ h => by simp⟩

/-- A value added at the position `k`, from the node `i` on. -/
def addFrom (t : List α) (i k : Nat) (x : α) : List α :=
  t.mapIdx fun j y => if i ≤ j ∧ Covers j k then y + x else y

@[simp] lemma length_addFrom (t : List α) (i k : Nat) (x : α) :
    (addFrom t i k x).length = t.length := List.length_mapIdx

lemma getElem_addFrom {t : List α} {j : Nat} (i k : Nat) (x : α) (h : j < t.length)
    (h' : j < (addFrom t i k x).length) :
    (addFrom t i k x)[j] = if i ≤ j ∧ Covers j k then t[j] + x else t[j] := List.getElem_mapIdx

/-- Past the last node, nothing changes. -/
lemma addFrom_of_length_le {t : List α} {i : Nat} (k : Nat) (x : α) (h : t.length ≤ i) :
    addFrom t i k x = t := by
  refine List.ext_getElem (length_addFrom ..) fun j hj _ => ?_
  rw [length_addFrom] at hj
  rw [getElem_addFrom _ _ _ hj, if_neg (by omega)]

/-- One step of the chain: the value is added to a node, then from the next node on. -/
lemma addFrom_next {t : List α} {i k : Nat} (x : α) (h : Covers i k) (hi : i < t.length) :
    addFrom (t.set i (t[i] + x)) (i + lowBit i) k x = addFrom t i k x := by
  refine List.ext_getElem (by simp) fun j hj _ => ?_
  have hpos : 0 < lowBit i := lowBit_pos (Nat.zero_lt_of_lt (Nat.lt_of_lt_of_le h.1 h.2))
  rw [length_addFrom, List.length_set] at hj
  rw [getElem_addFrom _ _ _ (by simpa using hj), getElem_addFrom _ _ _ hj, List.getElem_set]
  by_cases hij : i = j
  · subst hij
    rw [if_neg (by omega), if_pos rfl, if_pos ⟨le_refl _, h⟩]
  · have hiff : (i + lowBit i ≤ j ∧ Covers j k) ↔ i ≤ j ∧ Covers j k := by
      refine ⟨fun hj => ⟨by omega, hj.2⟩, fun hj => ⟨?_, hj.2⟩⟩
      by_contra hlt
      exact hij (h.eq_of_lt_next hj.2 hj.1 (by omega)).symm
    rw [if_neg hij]
    simp only [hiff]

/-- Adding a value at a position adds it to the prefix sums from the position on. -/
lemma Prefixes.add {t : List α} {p : Nat → α} (h : Prefixes t p) {k : Nat} (hk : 0 < k) (x : α) :
    Prefixes (addFrom t k k x) fun c => p c + if k ≤ c then x else 0 := by
  refine ⟨by simp [h.zero, Nat.ne_of_gt hk], fun i hi hlen => ?_⟩
  rw [length_addFrom] at hlen
  have hnode := h.node i hi hlen
  rw [getElem_addFrom _ _ _ hlen]
  by_cases hcovers : Covers i k
  · have hlow : ¬ k ≤ i - lowBit i := Nat.not_le.mpr hcovers.1
    simp only [if_neg hlow, if_pos hcovers.2, if_pos (And.intro hcovers.2 hcovers), add_zero]
    rw [← add_assoc, hnode]
  · have hsame : k ≤ i - lowBit i ↔ k ≤ i := by
      unfold Covers at hcovers
      omega
    simp only [hsame, if_neg fun hboth : k ≤ i ∧ Covers i k => hcovers hboth.2, ← hnode]
    exact add_right_comm _ _ _

end trees

end Verbosec.Lib.Fenwick
