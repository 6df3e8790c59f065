import Mathlib.Data.List.Basic
import Mathlib.Order.Nat

/-!
# Regions in ascending order

* `Region` - a first address and a number of bytes.
* `Region.Apart` - regions without a common byte.
* `Ascends` - regions that follow one another between two addresses.
* `Ascends.pairwise`, `Ascends.within` - such regions are apart, and lie between the addresses.
-/

namespace Verbosec.Lib

/-- A region of an address space. -/
structure Region where
  /-- the first address -/
  base : Nat
  /-- the number of bytes -/
  size : Nat
  deriving DecidableEq, Repr

/-- The address after the region. -/
def Region.stop (r : Region) : Nat := r.base + r.size

/-- Regions without a common byte. -/
def Region.Apart (r s : Region) : Prop := r.stop ≤ s.base ∨ s.stop ≤ r.base

lemma Region.Apart.symm {r s : Region} (h : r.Apart s) : s.Apart r := Or.symm h

/-- The regions follow one another from `lo` on, and the last one ends at `hi` or before. -/
def Ascends (lo : Nat) : List Region → Nat → Prop
  | [], hi => lo ≤ hi
  | r :: rs, hi => lo ≤ r.base ∧ Ascends r.stop rs hi

namespace Ascends

variable {lo mid hi : Nat} {rs rs' : List Region}

/-- The addresses are in order. -/
lemma le (h : Ascends lo rs hi) : lo ≤ hi := by
  induction rs generalizing lo with
  | nil => exact h
  | cons r rs ih =>
      have hstop : r.stop ≤ hi := ih h.2
      have hbase : r.base ≤ r.stop := Nat.le_add_right _ _
      exact h.1.trans (hbase.trans hstop)

/-- The upper address can be raised. -/
lemma mono (h : Ascends lo rs mid) (hhi : mid ≤ hi) : Ascends lo rs hi := by
  induction rs generalizing lo with
  | nil => exact le_trans h hhi
  | cons r rs ih => exact ⟨h.1, ih h.2⟩

/-- The lower address can be lowered. -/
lemma anti (h : Ascends mid rs hi) (hlo : lo ≤ mid) : Ascends lo rs hi := by
  cases rs with
  | nil => exact le_trans hlo h
  | cons r rs => exact ⟨hlo.trans h.1, h.2⟩

/-- Regions up to an address, and regions from there on. -/
lemma append (h : Ascends lo rs mid) (h' : Ascends mid rs' hi) : Ascends lo (rs ++ rs') hi := by
  induction rs generalizing lo with
  | nil => exact h'.anti h
  | cons r rs ih => exact ⟨h.1, ih h.2⟩

/-- Every region lies between the addresses. -/
lemma within (h : Ascends lo rs hi) {r : Region} (hr : r ∈ rs) : lo ≤ r.base ∧ r.stop ≤ hi := by
  induction rs generalizing lo with
  | nil => cases hr
  | cons s rs ih =>
      rcases List.mem_cons.mp hr with rfl | hr
      · exact ⟨h.1, h.2.le⟩
      · obtain ⟨hbase, hstop⟩ := ih h.2 hr
        have hs : s.base ≤ s.stop := Nat.le_add_right _ _
        exact ⟨h.1.trans (hs.trans hbase), hstop⟩

/-- The regions are apart. -/
theorem pairwise (h : Ascends lo rs hi) : rs.Pairwise Region.Apart := by
  induction rs generalizing lo with
  | nil => exact .nil
  | cons r rs ih => exact .cons (fun s hs => .inl (h.2.within hs).1) (ih h.2)

end Ascends

end Verbosec.Lib
