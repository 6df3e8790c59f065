import Verbosec.NumericBounds.Ranges

/-!
# The part of an interval set that satisfies a comparison

* `relates op x y` - the comparison `op` holds of `x` and `y`.
* `Ranges.restrict r op n` - the members of `r` that compare with the literal `n`; `none` when there
  are none. An exclusion that would need a third piece keeps the set as it is.
* `Ranges.constrain r op other` - the members of `r` that compare with some member of `other`.
* `restrict_sound`, `constrain_sound` - no member that satisfies the comparison is lost; in
  particular the result is not `none` when there is one. `constrain_wf`: the invariant is kept.

Source: `numeric_bounds/ranges.rs`, `Ranges::restrict`, `Ranges::constrain`.
-/

namespace Verbosec.NumericBounds

open Verbosec.Lib

/-- The comparison `op` holds of `x` and `y`; operators that are no comparison hold vacuously. -/
def relates (op : BinOp) (x y : Int) : Prop :=
  match op with
  | .eq => x = y
  | .notEq => x ≠ y
  | .gt => y < x
  | .lt => x < y
  | .gtEq => y ≤ x
  | .ltEq => x ≤ y
  | _ => True

instance (op : BinOp) (x y : Int) : Decidable (relates op x y) := by
  unfold relates
  split <;> infer_instance

namespace Ranges

/-- What a comparison with `n` leaves of one piece, possibly empty intervals among it.
Source: `numeric_bounds/ranges.rs`, `Ranges::restrict` -/
def restrictPiece (op : BinOp) (n : Int) (p : Interval) : List Interval :=
  match op with
  | .eq => [(max p.1 n, min p.2 n)]
  | .notEq => [(p.1, min p.2 (n - 1)), (max p.1 (n + 1), p.2)]
  | .lt => [(p.1, min p.2 (n - 1))]
  | .ltEq => [(p.1, min p.2 n)]
  | .gt => [(max p.1 (n + 1), p.2)]
  | .gtEq => [(max p.1 n, p.2)]
  | _ => [p] -- guards are normalised to comparisons before they get here

/-- The normal form of at most two pieces; a set that would need more stays as it was. -/
def narrow (self : Ranges) (pieces : List Interval) : Option Ranges :=
  let pieces := pieces.filter fun p => p.1 ≤ p.2
  if 2 < pieces.length then some self else collect pieces

/-- The members that compare with `n`. Source: `numeric_bounds/ranges.rs`, `Ranges::restrict` -/
def restrict (self : Ranges) (op : BinOp) (n : Int) : Option Ranges :=
  self.narrow (self.pieces.flatMap (restrictPiece op n))

/-- The pairwise intersections of the pieces of two sets. -/
def intersections (self other : Ranges) : List Interval :=
  (self.pieces.product other.pieces).map fun p => (max p.1.1 p.2.1, min p.1.2 p.2.2)

/-- The members that compare with some member of `other`.
Source: `numeric_bounds/ranges.rs`, `Ranges::constrain` -/
def constrain (self : Ranges) (op : BinOp) (other : Ranges) : Option Ranges :=
  let (lo, hi) := other.hull
  match op with
  | .lt | .ltEq => self.restrict op hi
  | .gt | .gtEq => self.restrict op lo
  | .notEq => if lo = hi then self.restrict op lo else some self
  | .eq => self.narrow (self.intersections other)
  | _ => some self -- guards are normalised to comparisons before they get here

/-! ## Soundness -/

/-- Intervals that each lie in a piece of a set. -/
def Within (self : Ranges) (pieces : List Interval) : Prop :=
  ∀ p ∈ pieces, ∃ q ∈ self.pieces, q.1 ≤ p.1 ∧ p.2 ≤ q.2

/-- The nonempty ones among intervals within a well-formed set are representable. -/
lemma Within.inI64 {self : Ranges} {pieces : List Interval} (hin : Within self pieces)
    (hself : Wf self) :
    ∀ p ∈ pieces.filter fun p => p.1 ≤ p.2, p.1 ≤ p.2 → InI64 p.1 ∧ InI64 p.2 := by
  intro p hp hle
  obtain ⟨q, hq, hql, hqr⟩ := hin p (List.mem_of_mem_filter hp)
  obtain ⟨-, hlo, hhi⟩ := hself.piece q hq
  exact ⟨hlo.of_between hhi hql (hle.trans hqr), hlo.of_between hhi (hql.trans hle) hqr⟩

/-- Narrowing a well-formed set gives a well-formed set. -/
lemma narrow_wf {self r : Ranges} {pieces : List Interval} (hself : Wf self)
    (hin : Within self pieces) (h : self.narrow pieces = some r) : Wf r := by
  unfold narrow at h
  simp only at h
  split at h
  · cases h
    exact hself
  · exact (collect_spec (hin.inI64 hself) h).1

/-- Narrowing keeps the members of the given intervals. -/
lemma mem_narrow {self : Ranges} {pieces : List Interval} (hself : Wf self)
    (hin : Within self pieces) {x : Int} (hx : x ∈ self)
    (hmem : ∃ p ∈ pieces, p.1 ≤ x ∧ x ≤ p.2) : ∃ r, self.narrow pieces = some r ∧ x ∈ r := by
  unfold narrow
  simp only
  split
  · exact ⟨self, rfl, hx⟩
  · obtain ⟨p, hp, h₁, h₂⟩ := hmem
    have hle : p.1 ≤ p.2 := h₁.trans h₂
    have hp' : p ∈ pieces.filter fun p => p.1 ≤ p.2 := List.mem_filter.mpr ⟨hp, by simpa using hle⟩
    obtain ⟨r, hr⟩ := collect_isSome hp' hle
    exact ⟨r, hr, (collect_spec (hin.inI64 hself) hr).2 p hp' x h₁ h₂⟩

lemma restrictPiece_within {op : BinOp} {n : Int} {p q : Interval}
    (h : q ∈ restrictPiece op n p) : p.1 ≤ q.1 ∧ q.2 ≤ p.2 := by
  cases op <;>
    simp only [restrictPiece, List.mem_cons, List.not_mem_nil, or_false] at h
  case notEq =>
    rcases h with rfl | rfl <;> simp
  all_goals
    subst h
    simp

lemma mem_restrictPiece {op : BinOp} {n x : Int} {p : Interval} (hx : p.1 ≤ x ∧ x ≤ p.2)
    (h : relates op x n) : ∃ q ∈ restrictPiece op n p, q.1 ≤ x ∧ x ≤ q.2 := by
  cases op <;> simp only [relates] at h <;>
    simp only [restrictPiece, List.mem_cons, List.not_mem_nil, or_false, exists_eq_left,
      exists_eq_or_imp] <;> omega

lemma restrict_within (self : Ranges) (op : BinOp) (n : Int) :
    Within self (self.pieces.flatMap (restrictPiece op n)) := by
  intro p hp
  obtain ⟨q, hq, hpq⟩ := List.mem_flatMap.mp hp
  exact ⟨q, hq, restrictPiece_within hpq⟩

lemma intersections_within (self other : Ranges) : Within self (self.intersections other) := by
  intro p hp
  obtain ⟨⟨q, q'⟩, hq, rfl⟩ := List.mem_map.mp hp
  exact ⟨q, (List.mem_product.mp hq).1, by simp, by simp⟩

/-- No member that compares with `n` is lost. -/
theorem restrict_sound {self : Ranges} {op : BinOp} {n x : Int} (hself : Wf self) (hx : x ∈ self)
    (h : relates op x n) : ∃ r, self.restrict op n = some r ∧ x ∈ r := by
  refine mem_narrow hself (restrict_within self op n) hx ?_
  obtain ⟨p, hp, hxp⟩ := hx
  obtain ⟨q, hq, hxq⟩ := mem_restrictPiece hxp h
  exact ⟨q, List.mem_flatMap.mpr ⟨p, hp, hq⟩, hxq⟩

/-- Constraining a well-formed set gives a well-formed set. -/
theorem constrain_wf {self other r : Ranges} {op : BinOp} (hself : Wf self)
    (h : self.constrain op other = some r) : Wf r := by
  have hrestrict : ∀ op n, self.restrict op n = some r → Wf r :=
    fun op n => narrow_wf hself (restrict_within self op n)
  unfold constrain at h
  simp only at h
  split at h
  case h_1 | h_2 | h_3 | h_4 => exact hrestrict _ _ h
  case h_5 =>
    split at h
    · exact hrestrict _ _ h
    · cases h
      exact hself
  case h_6 => exact narrow_wf hself (intersections_within self other) h
  case h_7 =>
    cases h
    exact hself

/-- Narrowing does not widen the hull. -/
lemma narrow_hull {self r : Ranges} {pieces : List Interval} (hself : Wf self)
    (hin : Within self pieces) (h : self.narrow pieces = some r) :
    self.hull.1 ≤ r.hull.1 ∧ r.hull.2 ≤ self.hull.2 := by
  unfold narrow at h
  simp only at h
  split at h
  · cases h
    exact ⟨le_refl _, le_refl _⟩
  · obtain ⟨⟨p, hp, -, h₁⟩, q, hq, -, h₂⟩ := collect_hull h
    obtain ⟨p', hp', hle, -⟩ := hin p (List.mem_of_mem_filter hp)
    obtain ⟨q', hq', -, hge⟩ := hin q (List.mem_of_mem_filter hq)
    have := (hself.piece_le_hull hp').1
    have := (hself.piece_le_hull hq').2
    omega

/-- Constraining does not widen the hull. -/
theorem constrain_hull {self other r : Ranges} {op : BinOp} (hself : Wf self)
    (h : self.constrain op other = some r) :
    self.hull.1 ≤ r.hull.1 ∧ r.hull.2 ≤ self.hull.2 := by
  have hrestrict : ∀ op n, self.restrict op n = some r →
      self.hull.1 ≤ r.hull.1 ∧ r.hull.2 ≤ self.hull.2 :=
    fun op n => narrow_hull hself (restrict_within self op n)
  unfold constrain at h
  simp only at h
  split at h
  case h_1 | h_2 | h_3 | h_4 => exact hrestrict _ _ h
  case h_5 =>
    split at h
    · exact hrestrict _ _ h
    · cases h
      exact ⟨le_refl _, le_refl _⟩
  case h_6 => exact narrow_hull hself (intersections_within self other) h
  case h_7 =>
    cases h
    exact ⟨le_refl _, le_refl _⟩

/-- No member that compares with a member of `other` is lost. -/
theorem constrain_sound {self other : Ranges} {op : BinOp} {x y : Int} (hself : Wf self)
    (hother : Wf other) (hx : x ∈ self) (hy : y ∈ other) (h : relates op x y) :
    ∃ r, self.constrain op other = some r ∧ x ∈ r := by
  have hhull := hother.mem_hull hy
  unfold constrain
  rcases hlh : other.hull with ⟨lo, hi⟩
  rw [hlh] at hhull
  simp only at hhull
  cases op
  case lt | ltEq | gt | gtEq =>
    exact restrict_sound hself hx (by simp only [relates] at h ⊢; omega)
  case notEq =>
    simp only
    split
    · exact restrict_sound hself hx (by simp only [relates] at h ⊢; omega)
    · exact ⟨self, rfl, hx⟩
  case eq =>
    have hxy : x = y := h
    subst hxy
    refine mem_narrow hself (intersections_within self other) hx ?_
    obtain ⟨p, hp, hxp⟩ := hx
    obtain ⟨q, hq, hxq⟩ := hy
    refine ⟨_, List.mem_map.mpr ⟨(p, q), List.mem_product.mpr ⟨hp, hq⟩, rfl⟩, ?_⟩
    simp only
    omega
  all_goals exact ⟨self, rfl, hx⟩

end Ranges

end Verbosec.NumericBounds
