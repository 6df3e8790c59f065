import Mathlib.Data.List.ProdSigma
import Mathlib.Data.List.Sort
import Verbosec.Lib.Except
import Verbosec.Lib.Interval
import Verbosec.Syntax

/-!
# Two-piece interval sets

* `Ranges` - a union of one or two intervals; `Ranges.Wf` is the invariant of the values the
  analysis builds: nonempty representable pieces with a gap between them.
* `collect` - the normal form of a list of intervals: sorted, merged, widened to the hull beyond two
  pieces. `mem_collect`, `collect_wf`.
* `join`, `pairwise`, `map` - lifting operations on intervals to interval sets.
* `arithmetic`, `Ranges.arithmetic`, `Ranges.repeatedArithmetic` - checked interval arithmetic.
  `arithmetic_sound` gives, for operands in the intervals, the exact result, its representability
  and its place in the computed interval.
* `Defined`, `arithmetic_at_limits` - the operations that have a result, and what range arithmetic
  says of them.

Source: `numeric_bounds/ranges.rs`, `numeric_bounds.rs` (`arithmetic`). The endpoints are 64-bit in
the source; here they are integers, and `Ranges.Wf` says that they are representable.
-/

namespace Verbosec.NumericBounds

open Verbosec.Lib

/-- An interval by its endpoints. Source: `numeric_bounds/ranges.rs`, `Interval` -/
abbrev Interval := Int × Int

/-- A union of one or two intervals. Source: `numeric_bounds/ranges.rs`, `Ranges` -/
structure Ranges where
  /-- the lower piece -/
  first : Interval
  /-- the upper piece -/
  second : Option Interval := none
  deriving DecidableEq, Repr

namespace Ranges

/-- The set of one interval. Source: `numeric_bounds/ranges.rs`, `Ranges::interval` -/
def interval (lo hi : Int) : Ranges := ⟨(lo, hi), none⟩

/-- The least interval around a set. Source: `numeric_bounds/ranges.rs`, `Ranges::hull` -/
def hull (r : Ranges) : Interval := (r.first.1, (r.second.getD r.first).2)

/-- The pieces in order. Source: `numeric_bounds/ranges.rs`, `Ranges::pieces` -/
def pieces (r : Ranges) : List Interval := r.first :: r.second.toList

/-- Membership in one of the pieces. -/
instance : Membership Int Ranges where
  mem r x := ∃ p ∈ r.pieces, p.1 ≤ x ∧ x ≤ p.2

lemma mem_def {r : Ranges} {x : Int} : x ∈ r ↔ ∃ p ∈ r.pieces, p.1 ≤ x ∧ x ≤ p.2 := Iff.rfl

instance (r : Ranges) (x : Int) : Decidable (x ∈ r) :=
  inferInstanceAs (Decidable (∃ p ∈ r.pieces, p.1 ≤ x ∧ x ≤ p.2))

@[simp] lemma pieces_interval (lo hi : Int) : (interval lo hi).pieces = [(lo, hi)] := rfl

@[simp] lemma hull_interval (lo hi : Int) : (interval lo hi).hull = (lo, hi) := rfl

@[simp] lemma mem_interval {lo hi x : Int} : x ∈ interval lo hi ↔ lo ≤ x ∧ x ≤ hi := by
  simp [mem_def]

/-! ## The invariant -/

/-- A piece of a well-formed set: nonempty, with representable endpoints. -/
def WfPiece (p : Interval) : Prop := p.1 ≤ p.2 ∧ InI64 p.1 ∧ InI64 p.2

instance : DecidablePred WfPiece := fun p =>
  inferInstanceAs (Decidable (p.1 ≤ p.2 ∧ InI64 p.1 ∧ InI64 p.2))

/-- A well-formed set: well-formed pieces, in order and with a gap between them. -/
structure Wf (r : Ranges) : Prop where
  /-- every piece is nonempty and representable -/
  piece : ∀ p ∈ r.pieces, WfPiece p
  /-- the second piece starts beyond the first -/
  gap : ∀ s ∈ r.second, r.first.2 + 1 < s.1

lemma Wf.interval {lo hi : Int} (h : lo ≤ hi) (hlo : InI64 lo) (hhi : InI64 hi) :
    Wf (interval lo hi) where
  piece := by
    intro p hp
    rw [pieces_interval, List.mem_singleton] at hp
    subst hp
    exact ⟨h, hlo, hhi⟩
  gap := by simp [Ranges.interval]

/-- A member of a well-formed set is representable. -/
lemma Wf.inI64 {r : Ranges} (h : Wf r) {x : Int} (hx : x ∈ r) : InI64 x := by
  obtain ⟨p, hp, h₁, h₂⟩ := hx
  obtain ⟨-, hlo, hhi⟩ := h.piece p hp
  exact hlo.of_between hhi h₁ h₂

/-- The hull of a well-formed set is a well-formed interval. -/
lemma Wf.hull {r : Ranges} (h : Wf r) : WfPiece r.hull := by
  obtain ⟨⟨a, b⟩, s⟩ := r
  have hfirst := h.piece (a, b) (by simp [pieces])
  cases s with
  | none => exact hfirst
  | some s =>
      have hsecond := h.piece s (by simp [pieces])
      have hgap := h.gap s rfl
      have h₁ := hfirst.1
      have h₂ := hsecond.1
      exact ⟨by show a ≤ s.2; simp only at h₁ hgap; omega, hfirst.2.1, hsecond.2.2⟩

/-- The pieces of a well-formed set lie in its hull. -/
lemma Wf.piece_le_hull {r : Ranges} (h : Wf r) {p : Interval} (hp : p ∈ r.pieces) :
    r.hull.1 ≤ p.1 ∧ p.2 ≤ r.hull.2 := by
  obtain ⟨⟨a, b⟩, s⟩ := r
  have hfirst := (h.piece (a, b) (by simp [pieces])).1
  cases s with
  | none =>
      simp only [pieces, Option.toList_none, List.mem_singleton] at hp
      subst hp
      exact ⟨le_refl _, le_refl _⟩
  | some s =>
      have hsecond := (h.piece s (by simp [pieces])).1
      have hgap := h.gap s rfl
      simp only [pieces, Option.toList_some, List.mem_cons, List.not_mem_nil, or_false] at hp
      simp only [Ranges.hull, Option.getD_some] at hfirst hsecond hgap ⊢
      rcases hp with rfl | rfl
      · constructor
        · exact le_refl _
        · simp only
          omega
      · constructor
        · omega
        · exact le_refl _

/-- Members of a well-formed set lie in its hull. -/
lemma Wf.mem_hull {r : Ranges} (h : Wf r) {x : Int} (hx : x ∈ r) :
    r.hull.1 ≤ x ∧ x ≤ r.hull.2 := by
  obtain ⟨p, hp, h₁, h₂⟩ := hx
  obtain ⟨h₃, h₄⟩ := h.piece_le_hull hp
  exact ⟨h₃.trans h₁, h₂.trans h₄⟩

/-! ## Normal form -/

/-- The order on intervals: by lower endpoint, then by upper. Source: `sort_unstable` on pairs -/
def pairLe (p q : Interval) : Prop := p.1 < q.1 ∨ p.1 = q.1 ∧ p.2 ≤ q.2

instance : DecidableRel pairLe := fun p q =>
  inferInstanceAs (Decidable (p.1 < q.1 ∨ p.1 = q.1 ∧ p.2 ≤ q.2))

/-- Merging sorted intervals that touch or overlap, `cur` being the interval in progress.
Source: `numeric_bounds/ranges.rs`, `Ranges::collect` -/
def merge : Interval → List Interval → List Interval
  | cur, [] => [cur]
  | cur, (lo, hi) :: rest =>
      if lo ≤ cur.2 + 1 then merge (cur.1, max cur.2 hi) rest else cur :: merge (lo, hi) rest

/-- A set from merged intervals: exact up to two pieces, the hull beyond.
Source: `numeric_bounds/ranges.rs`, `Ranges::collect` -/
def ofMerged : List Interval → Option Ranges
  | [] => none
  | [p] => some (interval p.1 p.2)
  | [p, q] => some ⟨p, some q⟩
  | p :: rest => some (interval p.1 (rest.getLast?.getD p).2)

/-- The normal form of a list of intervals; the empty ones are dropped.
Source: `numeric_bounds/ranges.rs`, `Ranges::collect` -/
def collect (ps : List Interval) : Option Ranges :=
  match (ps.filter fun p => p.1 ≤ p.2).insertionSort pairLe with
  | [] => none
  | cur :: rest => ofMerged (merge cur rest)

instance : IsTrans Interval pairLe := ⟨fun p q r => by unfold pairLe; omega⟩

instance : Std.Total pairLe := ⟨fun p q => by unfold pairLe; omega⟩

/-- Sorted by lower endpoint. -/
abbrev Sorted (ps : List Interval) : Prop := ps.Pairwise fun p q => p.1 ≤ q.1

lemma sorted_merged {cur : Interval} {lo hi : Int} {rest : List Interval}
    (h : Sorted (cur :: (lo, hi) :: rest)) : Sorted ((cur.1, max cur.2 hi) :: rest) := by
  obtain ⟨h₁, h₂⟩ := List.pairwise_cons.mp h
  exact List.pairwise_cons.mpr ⟨fun q hq => h₁ q (by simp [hq]), (List.pairwise_cons.mp h₂).2⟩

/-- The endpoints of merged intervals are endpoints of the given ones. -/
lemma merge_ends (rest : List Interval) : ∀ cur : Interval, ∀ q ∈ merge cur rest,
    (∃ p ∈ cur :: rest, q.1 = p.1) ∧ ∃ p ∈ cur :: rest, q.2 = p.2 := by
  induction rest with
  | nil =>
      intro cur q hq
      rw [merge, List.mem_singleton] at hq
      subst hq
      exact ⟨⟨q, by simp, rfl⟩, q, by simp, rfl⟩
  | cons next rest ih =>
      intro cur q hq
      obtain ⟨lo, hi⟩ := next
      unfold merge at hq
      split at hq
      · obtain ⟨⟨p, hp, h₁⟩, p', hp', h₂⟩ := ih _ q hq
        constructor
        · rcases List.mem_cons.mp hp with rfl | hp
          · exact ⟨cur, by simp, h₁⟩
          · exact ⟨p, by simp [hp], h₁⟩
        · rcases List.mem_cons.mp hp' with rfl | hp'
          · rcases le_total cur.2 hi with h | h
            · exact ⟨(lo, hi), by simp, by rw [h₂, max_eq_right h]⟩
            · exact ⟨cur, by simp, by rw [h₂, max_eq_left h]⟩
          · exact ⟨p', by simp [hp'], h₂⟩
      · rcases List.mem_cons.mp hq with rfl | hq
        · exact ⟨⟨q, by simp, rfl⟩, q, by simp, rfl⟩
        · obtain ⟨⟨p, hp, h₁⟩, p', hp', h₂⟩ := ih _ q hq
          exact ⟨⟨p, List.mem_cons_of_mem _ hp, h₁⟩, p', List.mem_cons_of_mem _ hp', h₂⟩

/-- Merging nonempty intervals gives nonempty intervals. -/
lemma merge_nonempty (rest : List Interval) : ∀ cur : Interval,
    (∀ p ∈ cur :: rest, p.1 ≤ p.2) → ∀ q ∈ merge cur rest, q.1 ≤ q.2 := by
  induction rest with
  | nil =>
      intro cur h q hq
      exact h q hq
  | cons next rest ih =>
      intro cur h q hq
      obtain ⟨lo, hi⟩ := next
      have hcur := h cur (by simp)
      unfold merge at hq
      split at hq
      · refine ih _ (fun p hp => ?_) q hq
        rcases List.mem_cons.mp hp with rfl | hp
        · simp only
          omega
        · exact h p (by simp [hp])
      · rcases List.mem_cons.mp hq with rfl | hq
        · exact hcur
        · exact ih _ (fun p hp => h p (List.mem_cons_of_mem _ hp)) q hq

/-- Merging keeps every member. -/
lemma mem_merge {x : Int} (rest : List Interval) : ∀ cur : Interval, Sorted (cur :: rest) →
    (∃ p ∈ cur :: rest, p.1 ≤ x ∧ x ≤ p.2) → ∃ q ∈ merge cur rest, q.1 ≤ x ∧ x ≤ q.2 := by
  induction rest with
  | nil => exact fun cur _ h => h
  | cons next rest ih =>
      intro cur hs h
      obtain ⟨lo, hi⟩ := next
      have hlo : cur.1 ≤ lo := (List.pairwise_cons.mp hs).1 (lo, hi) (by simp)
      obtain ⟨p, hp, h₁, h₂⟩ := h
      unfold merge
      split
      · refine ih _ (sorted_merged hs) ?_
        rcases List.mem_cons.mp hp with rfl | hp
        · exact ⟨(p.1, max p.2 hi), by simp, h₁, by simp only; omega⟩
        · rcases List.mem_cons.mp hp with rfl | hp
          · exact ⟨(cur.1, max cur.2 hi), by simp, by simp only at h₁ ⊢; omega,
              by simp only at h₂ ⊢; omega⟩
          · exact ⟨p, by simp [hp], h₁, h₂⟩
      · rcases List.mem_cons.mp hp with rfl | hp
        · exact ⟨p, by simp, h₁, h₂⟩
        · obtain ⟨q, hq, h⟩ := ih _ (List.pairwise_cons.mp hs).2 ⟨p, hp, h₁, h₂⟩
          exact ⟨q, by simp [hq], h⟩

/-- Merged intervals are separated. -/
lemma merge_separated (rest : List Interval) : ∀ cur : Interval, Sorted (cur :: rest) →
    (merge cur rest).Pairwise fun p q => p.2 + 1 < q.1 := by
  induction rest with
  | nil => exact fun cur _ => List.pairwise_singleton _ _
  | cons next rest ih =>
      intro cur hs
      obtain ⟨lo, hi⟩ := next
      unfold merge
      split
      · exact ih _ (sorted_merged hs)
      · have hs' := (List.pairwise_cons.mp hs).2
        refine List.pairwise_cons.mpr ⟨fun q hq => ?_, ih _ hs'⟩
        -- A later merged interval starts where a later given one does, beyond `cur`.
        obtain ⟨⟨p, hp, h₁⟩, -⟩ := merge_ends rest (lo, hi) q hq
        have hlo : lo ≤ p.1 := by
          rcases List.mem_cons.mp hp with rfl | hp
          · exact le_refl _
          · exact (List.pairwise_cons.mp hs').1 p hp
        omega

/-- In a chain of separated intervals the last one reaches furthest. -/
lemma le_last {ps : List Interval} {s last : Interval} (hwf : ∀ p ∈ ps, WfPiece p)
    (hsep : ps.Pairwise fun p q => p.2 + 1 < q.1) (hs : s ∈ ps) (hl : ps.getLast? = some last) :
    s.2 ≤ last.2 := by
  induction ps with
  | nil => cases hs
  | cons p ps ih =>
      obtain ⟨hp, hsep'⟩ := List.pairwise_cons.mp hsep
      cases ps with
      | nil =>
          rw [List.mem_singleton] at hs
          rw [List.getLast?_singleton, Option.some_inj] at hl
          rw [hs, hl]
      | cons q ps =>
          rw [List.getLast?_cons_cons] at hl
          rcases List.mem_cons.mp hs with rfl | hs
          · have hmem := List.mem_of_getLast? hl
            have h₁ := hp last hmem
            have h₂ := (hwf last (List.mem_cons_of_mem _ hmem)).1
            omega
          · exact ih (fun p hp => hwf p (List.mem_cons_of_mem _ hp)) hsep' hs hl

/-- The set of separated well-formed intervals, if there are any. -/
lemma ofMerged_spec {ps : List Interval} {r : Ranges} (hwf : ∀ p ∈ ps, WfPiece p)
    (hsep : ps.Pairwise fun p q => p.2 + 1 < q.1) (h : ofMerged ps = some r) :
    Wf r ∧ ∀ p ∈ ps, ∀ x, p.1 ≤ x → x ≤ p.2 → x ∈ r := by
  match ps, h with
  | [p], h =>
      cases h
      have hp := hwf p (by simp)
      refine ⟨Wf.interval hp.1 hp.2.1 hp.2.2, fun q hq x h₁ h₂ => ?_⟩
      rw [List.mem_singleton] at hq
      subst hq
      exact mem_interval.mpr ⟨h₁, h₂⟩
  | [p, q], h =>
      cases h
      refine ⟨⟨hwf, fun s hs => ?_⟩, fun r hr x h₁ h₂ => ⟨r, hr, h₁, h₂⟩⟩
      cases hs
      exact (List.pairwise_cons.mp hsep).1 q (by simp)
  | p :: q :: t :: rest, h =>
      cases h
      -- The hull runs from the first interval to the last.
      obtain ⟨last, hlast⟩ : ∃ last, (q :: t :: rest).getLast? = some last :=
        ⟨_, List.getLast?_eq_getLast_of_ne_nil (by simp)⟩
      have hmem : last ∈ p :: q :: t :: rest :=
        List.mem_cons_of_mem _ (List.mem_of_getLast? hlast)
      have hp := hwf p (by simp)
      have hl := hwf last hmem
      have hlt := (List.pairwise_cons.mp hsep).1 last (List.mem_of_getLast? hlast)
      rw [hlast, Option.getD_some]
      have h₁ := hp.1
      have h₂ := hl.1
      refine ⟨Wf.interval (by omega) hp.2.1 hl.2.2, fun s hs x hx₁ hx₂ => mem_interval.mpr ?_⟩
      have hs' := hwf s hs
      have hle : p.1 ≤ s.1 := by
        rcases List.mem_cons.mp hs with rfl | hs
        · exact le_refl _
        · have := (List.pairwise_cons.mp hsep).1 s hs
          omega
      have hge : s.2 ≤ last.2 := le_last hwf hsep hs (by rw [List.getLast?_cons_cons, hlast])
      omega

lemma mem_sorted_pieces {ps : List Interval} {p : Interval} :
    p ∈ (ps.filter fun p => p.1 ≤ p.2).insertionSort pairLe ↔ p ∈ ps ∧ p.1 ≤ p.2 := by
  rw [List.mem_insertionSort, List.mem_filter, decide_eq_true_eq]

lemma sorted_sorted_pieces (ps : List Interval) :
    Sorted ((ps.filter fun p => p.1 ≤ p.2).insertionSort pairLe) :=
  (List.pairwise_insertionSort pairLe _).imp fun h => by unfold pairLe at h; omega

/-- The normal form of well-formed intervals is well formed and keeps every member. -/
lemma collect_spec {ps : List Interval} {r : Ranges}
    (hwf : ∀ p ∈ ps, p.1 ≤ p.2 → InI64 p.1 ∧ InI64 p.2) (h : collect ps = some r) :
    Wf r ∧ ∀ p ∈ ps, ∀ x, p.1 ≤ x → x ≤ p.2 → x ∈ r := by
  unfold collect at h
  have hmem := @mem_sorted_pieces ps
  have hsorted := sorted_sorted_pieces ps
  generalize (ps.filter fun p => p.1 ≤ p.2).insertionSort pairLe = sorted at h hmem hsorted
  cases sorted with
  | nil => cases h
  | cons cur rest =>
      have hpieces : ∀ p ∈ merge cur rest, WfPiece p := by
        intro p hp
        obtain ⟨⟨q, hq, h₁⟩, q', hq', h₂⟩ := merge_ends rest cur p hp
        obtain ⟨hqm, hqle⟩ := hmem.mp hq
        obtain ⟨hqm', hqle'⟩ := hmem.mp hq'
        refine ⟨merge_nonempty rest cur (fun p hp => (hmem.mp hp).2) p hp, ?_, ?_⟩
        · exact h₁ ▸ (hwf q hqm hqle).1
        · exact h₂ ▸ (hwf q' hqm' hqle').2
      obtain ⟨hr, hcover⟩ := ofMerged_spec hpieces (merge_separated rest cur hsorted) h
      refine ⟨hr, fun p hp x h₁ h₂ => ?_⟩
      obtain ⟨q, hq, h₃, h₄⟩ :=
        mem_merge rest cur hsorted ⟨p, hmem.mpr ⟨hp, h₁.trans h₂⟩, h₁, h₂⟩
      exact hcover q hq x h₃ h₄

/-- The normal form of a list with a nonempty interval exists. -/
lemma collect_isSome {ps : List Interval} {p : Interval} (hp : p ∈ ps) (hle : p.1 ≤ p.2) :
    ∃ r, collect ps = some r := by
  unfold collect
  have hmem := (@mem_sorted_pieces ps p).mpr ⟨hp, hle⟩
  generalize (ps.filter fun p => p.1 ≤ p.2).insertionSort pairLe = sorted at hmem
  cases sorted with
  | nil => cases hmem
  | cons cur rest =>
      show ∃ r, ofMerged (merge cur rest) = some r
      clear hmem
      -- Merging never drops the interval in progress.
      have hne : merge cur rest ≠ [] := by
        induction rest generalizing cur with
        | nil => simp [merge]
        | cons next rest ih =>
            unfold merge
            split
            · exact ih (cur.1, max cur.2 next.2)
            · simp
      match merge cur rest, hne with
      | [p], _ => exact ⟨_, rfl⟩
      | [p, q], _ => exact ⟨_, rfl⟩
      | p :: q :: t :: rest, _ => exact ⟨_, rfl⟩

/-- The endpoints of the hull of a set of merged intervals are endpoints of those. -/
lemma ofMerged_hull {ps : List Interval} {r : Ranges} (h : ofMerged ps = some r) :
    (∃ p ∈ ps, r.hull.1 = p.1) ∧ ∃ p ∈ ps, r.hull.2 = p.2 := by
  match ps, h with
  | [p], h =>
      cases h
      exact ⟨⟨p, by simp, rfl⟩, p, by simp, rfl⟩
  | [p, q], h =>
      cases h
      exact ⟨⟨p, by simp, rfl⟩, q, by simp, rfl⟩
  | p :: q :: t :: rest, h =>
      cases h
      obtain ⟨last, hlast⟩ : ∃ last, (q :: t :: rest).getLast? = some last :=
        ⟨_, List.getLast?_eq_getLast_of_ne_nil (by simp)⟩
      refine ⟨⟨p, by simp, rfl⟩, last, List.mem_cons_of_mem _ (List.mem_of_getLast? hlast), ?_⟩
      rw [hlast, Option.getD_some, hull_interval]

/-- The endpoints of the hull of a normal form are endpoints of nonempty intervals. -/
lemma collect_hull {ps : List Interval} {r : Ranges} (h : collect ps = some r) :
    (∃ p ∈ ps, p.1 ≤ p.2 ∧ r.hull.1 = p.1) ∧ ∃ p ∈ ps, p.1 ≤ p.2 ∧ r.hull.2 = p.2 := by
  unfold collect at h
  have hmem := @mem_sorted_pieces ps
  generalize (ps.filter fun p => p.1 ≤ p.2).insertionSort pairLe = sorted at h hmem
  cases sorted with
  | nil => cases h
  | cons cur rest =>
      obtain ⟨⟨p, hp, h₁⟩, q, hq, h₂⟩ := ofMerged_hull h
      obtain ⟨⟨p', hp', h₁'⟩, -⟩ := merge_ends rest cur p hp
      obtain ⟨-, q', hq', h₂'⟩ := merge_ends rest cur q hq
      obtain ⟨hpm, hple⟩ := hmem.mp hp'
      obtain ⟨hqm, hqle⟩ := hmem.mp hq'
      exact ⟨⟨p', hpm, hple, h₁.trans h₁'⟩, q', hqm, hqle, h₂.trans h₂'⟩

/-! ## Lifting operations -/

/-- The normal form of the results of an operation. The source asserts that there is one.
Source: `numeric_bounds/ranges.rs`, the `expect`s on `Ranges::collect` -/
def expectNonempty (what : String) : Option Ranges → Except String Ranges
  | some r => .ok r
  | none => .error what

/-- The union, widened to the hull beyond two pieces.
Source: `numeric_bounds/ranges.rs`, `Ranges::join` -/
def join (self other : Ranges) : Except String Ranges :=
  expectNonempty "nonempty union" (collect (self.pieces ++ other.pieces))

/-- An operation applied to every pair of pieces; every pair is checked before the results are
joined. Source: `numeric_bounds/ranges.rs`, `Ranges::pairwise` -/
def pairwise (self other : Ranges) (f : Interval → Interval → Except String Interval) :
    Except String Ranges := do
  let pieces ← (self.pieces.product other.pieces).mapM fun p => f p.1 p.2
  expectNonempty "nonempty result" (collect pieces)

/-- An operation applied to every piece. Source: `numeric_bounds/ranges.rs`, `Ranges::map` -/
def map (self : Ranges) (f : Interval → Except String Interval) : Except String Ranges :=
  self.pairwise (interval 0 0) fun a _ => f a

lemma expectNonempty_eq_ok {what : String} {o : Option Ranges} {r : Ranges} :
    expectNonempty what o = .ok r ↔ o = some r := by
  cases o <;> simp [expectNonempty]

/-- The union of well-formed sets is well formed and keeps the members of both. -/
lemma join_spec {a b r : Ranges} (ha : Wf a) (hb : Wf b) (h : a.join b = .ok r) :
    Wf r ∧ ∀ x, x ∈ a ∨ x ∈ b → x ∈ r := by
  rw [join, expectNonempty_eq_ok] at h
  have hwf : ∀ p ∈ a.pieces ++ b.pieces, p.1 ≤ p.2 → InI64 p.1 ∧ InI64 p.2 := by
    intro p hp _
    rcases List.mem_append.mp hp with hp | hp
    · exact (ha.piece p hp).2
    · exact (hb.piece p hp).2
  obtain ⟨hr, hcover⟩ := collect_spec hwf h
  refine ⟨hr, ?_⟩
  rintro x (⟨p, hp, h₁, h₂⟩ | ⟨p, hp, h₁, h₂⟩)
  · exact hcover p (by simp [hp]) x h₁ h₂
  · exact hcover p (by simp [hp]) x h₁ h₂

/-- What a success over every pair of pieces gives for each pair. -/
lemma pairwise_spec {a b r : Ranges} {f : Interval → Interval → Except String Interval}
    (hf : ∀ p ∈ a.pieces, ∀ q ∈ b.pieces, ∀ s, f p q = .ok s → WfPiece s)
    (h : a.pairwise b f = .ok r) :
    Wf r ∧ ∀ p ∈ a.pieces, ∀ q ∈ b.pieces, ∃ s, f p q = .ok s ∧ ∀ x, s.1 ≤ x → x ≤ s.2 → x ∈ r := by
  unfold pairwise at h
  obtain ⟨ps, hps, h⟩ := Except.bind_eq_ok.mp h
  have hwf : ∀ s ∈ ps, s.1 ≤ s.2 → InI64 s.1 ∧ InI64 s.2 := by
    intro s hs _
    obtain ⟨⟨p, q⟩, hpq, hfs⟩ := Except.mem_of_mapM_eq_ok hps hs
    obtain ⟨hp, hq⟩ := List.mem_product.mp hpq
    exact (hf p hp q hq s hfs).2
  obtain ⟨hr, hcover⟩ := collect_spec hwf (expectNonempty_eq_ok.mp h)
  refine ⟨hr, fun p hp q hq => ?_⟩
  obtain ⟨s, hs, hfs⟩ := Except.exists_of_mapM_eq_ok hps (List.mem_product.mpr ⟨hp, hq⟩)
  exact ⟨s, hfs, hcover s hs⟩

/-- What a success over every piece gives for each piece. -/
lemma map_spec {a r : Ranges} {f : Interval → Except String Interval}
    (hf : ∀ p ∈ a.pieces, ∀ s, f p = .ok s → WfPiece s) (h : a.map f = .ok r) :
    Wf r ∧ ∀ p ∈ a.pieces, ∃ s, f p = .ok s ∧ ∀ x, s.1 ≤ x → x ≤ s.2 → x ∈ r := by
  obtain ⟨hr, hcover⟩ := pairwise_spec (fun p hp q _ => hf p hp) h
  exact ⟨hr, fun p hp => hcover p hp (0, 0) (by simp)⟩

end Ranges

/-! ## Checked interval arithmetic -/

open Ranges

/-- The exact value of an arithmetic operator. -/
def exact (op : BinOp) (x y : Int) : Int :=
  match op with
  | .add => x + y
  | .sub => x - y
  | .mul => x * y
  | .div => x.tdiv y
  | .mod => x.tmod y
  | _ => 0

/-- Is an operator arithmetic? -/
def isArith : BinOp → Bool
  | .add | .sub | .mul | .div | .mod => true
  | _ => false

/-- The exact bounds of an operator on two intervals; for a remainder, of every remainder by a
divisor of their size. Source: `numeric_bounds.rs`, `arithmetic` -/
def rawBounds (op : BinOp) (a b c d : Int) : Option Interval :=
  match op with
  | .add => some (a + c, b + d)
  | .sub => some (a - d, b - c)
  | .mul => some (cornerMin (· * ·) a b c d, cornerMax (· * ·) a b c d)
  | .div => some (cornerMin Int.tdiv a b c d, cornerMax Int.tdiv a b c d)
  | .mod =>
      let limit : Int := max c.natAbs d.natAbs - 1
      some (max (min a 0) (-limit), min (max b 0) limit)
  | _ => none

/-- The rendering of an interval in diagnostics. -/
def showInterval (lo hi : Int) : String := "[" ++ toString lo ++ ", " ++ toString hi ++ "]"

/-- An operator on two intervals, refused where a zero divisor or an overflow cannot be excluded.
Source: `numeric_bounds.rs`, `arithmetic` and `interval_arithmetic` -/
def arithmetic (op : BinOp) (p q : Interval) : Except String Interval :=
  let (a, b) := p
  let (c, d) := q
  if (op = .div ∨ op = .mod) ∧ c ≤ 0 ∧ 0 ≤ d then
    .error (op.debug ++ ": divisor range " ++ showInterval c d ++ " includes zero")
  else if (op = .div ∨ op = .mod) ∧ a = minI64 ∧ c ≤ -1 ∧ -1 ≤ d then
    .error (op.debug ++ ": MIN / -1 or MIN % -1 may overflow i64")
  else
    match rawBounds op a b c d with
    | none => .error "incompatible operands"
    | some (lo, hi) =>
        if lo < minI64 ∨ maxI64 < hi then
          .error (op.debug ++ ": intermediate range " ++ showInterval lo hi ++
            " may overflow i64; tighten enforced input bounds or rewrite the calculation")
        else .ok (lo, hi)

/-- The exact result of an operator on members of two intervals lies within the raw bounds. -/
lemma exact_mem_rawBounds {op : BinOp} {a b c d lo hi x y : Int}
    (h : rawBounds op a b c d = some (lo, hi)) (hzero : op = .div ∨ op = .mod → 0 < c ∨ d < 0)
    (hx : a ≤ x ∧ x ≤ b) (hy : c ≤ y ∧ y ≤ d) : lo ≤ exact op x y ∧ exact op x y ≤ hi := by
  cases op <;> simp only [rawBounds, Option.some.injEq, Prod.mk.injEq, reduceCtorEq] at h
  case add =>
    obtain ⟨rfl, rfl⟩ := h
    simp only [exact]
    omega
  case sub =>
    obtain ⟨rfl, rfl⟩ := h
    simp only [exact]
    omega
  case mul =>
    obtain ⟨rfl, rfl⟩ := h
    exact mul_mem_corners hx hy
  case div =>
    obtain ⟨rfl, rfl⟩ := h
    exact tdiv_mem_corners (hzero (Or.inl rfl)) hx hy
  case mod =>
    obtain ⟨rfl, rfl⟩ := h
    have hy0 : y ≠ 0 := by
      have := hzero (Or.inr rfl)
      omega
    have hlimit : (y.natAbs : Int) ≤ (max c.natAbs d.natAbs - 1 : Int) + 1 := by omega
    have := tmod_mem_limit (x := x) hy0 hlimit
    simp only [exact]
    omega

/-- The raw bounds of nonempty intervals are a nonempty interval. -/
lemma rawBounds_le {op : BinOp} {a b c d lo hi : Int} (h : rawBounds op a b c d = some (lo, hi))
    (hzero : op = .div ∨ op = .mod → 0 < c ∨ d < 0) (hab : a ≤ b) (hcd : c ≤ d) : lo ≤ hi := by
  have := exact_mem_rawBounds h hzero ⟨le_refl a, hab⟩ ⟨le_refl c, hcd⟩
  exact this.1.trans this.2

/-- What an accepted operator on intervals guarantees. -/
lemma arithmetic_eq_ok {op : BinOp} {p q s : Interval} (h : arithmetic op p q = .ok s) :
    (op = .div ∨ op = .mod → 0 < q.1 ∨ q.2 < 0) ∧
      (op = .div ∨ op = .mod → ¬ (p.1 = minI64 ∧ q.1 ≤ -1 ∧ -1 ≤ q.2)) ∧
      rawBounds op p.1 p.2 q.1 q.2 = some s ∧ minI64 ≤ s.1 ∧ s.2 ≤ maxI64 := by
  obtain ⟨a, b⟩ := p
  obtain ⟨c, d⟩ := q
  unfold arithmetic at h
  simp only at h
  split at h
  · cases h
  · rename_i hzero
    split at h
    · cases h
    · rename_i hmin
      split at h
      · cases h
      · rename_i lo hi hraw
        split at h
        · cases h
        · rename_i hfit
          cases h
          simp only
          refine ⟨fun hop => ?_, fun hop hc => hmin ⟨hop, hc⟩, hraw, by omega, by omega⟩
          by_contra hcon
          exact hzero ⟨hop, by omega, by omega⟩

/-- **Soundness of checked interval arithmetic**: on members of the operands an accepted operator
divides by no zero, computes no remainder or quotient of the least value by `-1`, and its exact
result is representable and lies in the computed interval. -/
theorem arithmetic_sound {op : BinOp} {p q s : Interval} (hp : WfPiece p)
    (h : arithmetic op p q = .ok s) {x y : Int} (hx : p.1 ≤ x ∧ x ≤ p.2) (hy : q.1 ≤ y ∧ y ≤ q.2) :
    (op = .div ∨ op = .mod → y ≠ 0 ∧ ¬ (x = minI64 ∧ y = -1)) ∧ InI64 (exact op x y) ∧
      s.1 ≤ exact op x y ∧ exact op x y ≤ s.2 := by
  obtain ⟨hzero, hmin, hraw, hlo, hhi⟩ := arithmetic_eq_ok h
  have hmem := exact_mem_rawBounds hraw hzero hx hy
  refine ⟨fun hop => ⟨?_, ?_⟩, ⟨hlo.trans hmem.1, hmem.2.trans hhi⟩, hmem⟩
  · have := hzero hop
    omega
  · rintro ⟨rfl, rfl⟩
    -- The least value in the dividend's interval is its lower endpoint.
    exact hmin hop ⟨le_antisymm hx.1 hp.2.1.1, hy⟩

/-- The computed interval is nonempty and representable. -/
lemma arithmetic_wf {op : BinOp} {p q s : Interval} (hp : WfPiece p) (hq : WfPiece q)
    (h : arithmetic op p q = .ok s) : WfPiece s := by
  obtain ⟨hzero, -, hraw, hlo, hhi⟩ := arithmetic_eq_ok h
  have hle := rawBounds_le hraw hzero hp.1 hq.1
  exact ⟨hle, ⟨hlo, hle.trans hhi⟩, hlo.trans hle, hhi⟩

namespace Ranges

/-- An operator on two interval sets. Source: `numeric_bounds/ranges.rs`, `Ranges::arithmetic` -/
def arithmetic (self : Ranges) (op : BinOp) (other : Ranges) : Except String Ranges :=
  self.pairwise other fun a b => NumericBounds.arithmetic op a b

/-- A sum or a product of two reads of one scalar, over one piece. The only further extremum of a
square is zero, when the piece crosses it.
Source: `numeric_bounds/ranges.rs`, `Ranges::repeated_arithmetic` -/
def repeatedPiece (op : BinOp) (a : Interval) : Except String Interval := do
  let (lo, hi) ← NumericBounds.arithmetic op a a
  .ok (if op = .mul ∧ a.1 ≤ 0 ∧ 0 ≤ a.2 then 0 else lo, hi)

/-- An operator on two reads of one scalar, whose pieces are not paired with each other.
Source: `numeric_bounds/ranges.rs`, `Ranges::repeated_arithmetic` -/
def repeatedArithmetic (self : Ranges) (op : BinOp) : Except String Ranges :=
  match op with
  | .sub => .ok (interval 0 0)
  | .div | .mod =>
      if self.pieces.any fun p => p.1 ≤ 0 ∧ 0 ≤ p.2 then
        .error (op.debug ++ ": repeated divisor domain includes zero")
      else
        let n : Int := if op = .div then 1 else 0
        .ok (interval n n)
  | .add | .mul => self.map (repeatedPiece op)
  | _ => .error "incompatible repeated operands"

/-- The result of accepted set arithmetic is well formed. -/
lemma arithmetic_wf {a b r : Ranges} {op : BinOp} (ha : Wf a) (hb : Wf b)
    (h : a.arithmetic op b = .ok r) : Wf r :=
  (pairwise_spec (fun p hp q hq _ hs =>
    NumericBounds.arithmetic_wf (ha.piece p hp) (hb.piece q hq) hs) h).1

/-- **Soundness of set arithmetic**: `arithmetic_sound` for members of two sets. -/
theorem arithmetic_sound {a b r : Ranges} {op : BinOp} (ha : Wf a) (hb : Wf b)
    (h : a.arithmetic op b = .ok r) {x y : Int} (hx : x ∈ a) (hy : y ∈ b) :
    (op = .div ∨ op = .mod → y ≠ 0 ∧ ¬ (x = minI64 ∧ y = -1)) ∧ InI64 (exact op x y) ∧
      exact op x y ∈ r := by
  obtain ⟨-, hcover⟩ := pairwise_spec (fun p hp q hq _ hs =>
    NumericBounds.arithmetic_wf (ha.piece p hp) (hb.piece q hq) hs) h
  obtain ⟨p, hp, hxp⟩ := hx
  obtain ⟨q, hq, hyq⟩ := hy
  obtain ⟨s, hs, hmem⟩ := hcover p hp q hq
  obtain ⟨hdiv, hfit, hlo, hhi⟩ := NumericBounds.arithmetic_sound (ha.piece p hp) hs hxp hyq
  exact ⟨hdiv, hfit, hmem _ hlo hhi⟩

/-- The squares of an interval around zero start at zero. -/
lemma square_nonneg_le {lo hi x : Int} (h : lo ≤ x * x ∧ x * x ≤ hi) : 0 ≤ x * x ∧ x * x ≤ hi :=
  ⟨mul_self_nonneg x, h.2⟩

/-- What `repeatedArithmetic` computes for one piece of a sum or a product. -/
lemma repeatedPiece_spec {op : BinOp} {a s : Interval} (ha : WfPiece a)
    (h : repeatedPiece op a = .ok s) :
    WfPiece s ∧ ∀ x, a.1 ≤ x ∧ x ≤ a.2 →
      InI64 (exact op x x) ∧ s.1 ≤ exact op x x ∧ exact op x x ≤ s.2 := by
  obtain ⟨⟨lo, hi⟩, hs, h⟩ := Except.bind_eq_ok.mp h
  have hsound := fun x (hx : a.1 ≤ x ∧ x ≤ a.2) => (NumericBounds.arithmetic_sound ha hs hx hx).2
  have hwf := NumericBounds.arithmetic_wf ha ha hs
  cases h
  split
  · rename_i hcross
    obtain ⟨rfl, hcross⟩ := hcross
    have hzero := hsound 0 hcross
    refine ⟨⟨?_, show InI64 0 by decide, hwf.2.2⟩, fun x hx => ?_⟩
    · simpa [exact] using hzero.2.2
    · obtain ⟨hfit, hle⟩ := hsound x hx
      exact ⟨hfit, square_nonneg_le hle⟩
  · exact ⟨hwf, hsound⟩

/-- The result of accepted repeated arithmetic is well formed. -/
lemma repeatedArithmetic_wf {a r : Ranges} {op : BinOp} (ha : Wf a)
    (h : a.repeatedArithmetic op = .ok r) : Wf r := by
  cases op <;> simp only [repeatedArithmetic, reduceCtorEq] at h
  case add | mul =>
    exact (map_spec (fun p hp s hs => (repeatedPiece_spec (ha.piece p hp) hs).1) h).1
  case sub =>
    cases h
    exact Wf.interval (le_refl _) (by decide) (by decide)
  case div | mod =>
    split at h
    · cases h
    · cases h
      exact Wf.interval (le_refl _) (by decide) (by decide)

/-- **Soundness of repeated arithmetic**: two reads of one scalar. -/
theorem repeatedArithmetic_sound {a r : Ranges} {op : BinOp} (ha : Wf a)
    (h : a.repeatedArithmetic op = .ok r) {x : Int} (hx : x ∈ a) :
    (op = .div ∨ op = .mod → x ≠ 0) ∧ InI64 (exact op x x) ∧ exact op x x ∈ r := by
  cases op <;> simp only [repeatedArithmetic, reduceCtorEq] at h
  case add | mul =>
    obtain ⟨-, hcover⟩ :=
      map_spec (fun p hp s hs => (repeatedPiece_spec (ha.piece p hp) hs).1) h
    obtain ⟨p, hp, hxp⟩ := hx
    obtain ⟨s, hs, hmem⟩ := hcover p hp
    obtain ⟨hfit, hlo, hhi⟩ := (repeatedPiece_spec (ha.piece p hp) hs).2 x hxp
    exact ⟨by simp, hfit, hmem _ hlo hhi⟩
  case sub =>
    cases h
    simp [exact, InI64]
  case div | mod =>
    split at h
    · cases h
    · rename_i hzero
      cases h
      have hx0 : x ≠ 0 := by
        rintro rfl
        obtain ⟨p, hp, hxp⟩ := hx
        exact hzero (List.any_eq_true.mpr ⟨p, hp, by simpa using hxp⟩)
      simp [exact, InI64, hx0]

/-! ## The limits of the words -/

/-- The operation on two words has a result: it divides by no zero, is no quotient or remainder of
the least value by `-1`, and its exact value is a word. -/
def Defined (op : BinOp) (x y : Int) : Prop :=
  (op = .div ∨ op = .mod → y ≠ 0 ∧ ¬ (x = minI64 ∧ y = -1)) ∧ InI64 (exact op x y)

instance (op : BinOp) (x y : Int) : Decidable (Defined op x y) :=
  inferInstanceAs (Decidable
    ((op = .div ∨ op = .mod → y ≠ 0 ∧ ¬ (x = minI64 ∧ y = -1)) ∧ InI64 (exact op x y)))

/-- A word is not both the least value and `-1`. -/
lemma not_minI64_and_neg_one (x : Int) : ¬ (x = minI64 ∧ x = -1) := by
  rintro ⟨h₁, h₂⟩
  rw [h₁] at h₂
  exact absurd h₂ (by decide)

lemma arithmetic_defined {a b r : Ranges} {op : BinOp} (ha : Wf a) (hb : Wf b)
    (h : a.arithmetic op b = .ok r) {x y : Int} (hx : x ∈ a) (hy : y ∈ b) :
    Defined op x y ∧ exact op x y ∈ r := by
  obtain ⟨hdiv, hfit, hmem⟩ := arithmetic_sound ha hb h hx hy
  exact ⟨⟨hdiv, hfit⟩, hmem⟩

lemma repeatedArithmetic_defined {a r : Ranges} {op : BinOp} (ha : Wf a)
    (h : a.repeatedArithmetic op = .ok r) {x : Int} (hx : x ∈ a) :
    Defined op x x ∧ exact op x x ∈ r := by
  obtain ⟨hdiv, hfit, hmem⟩ := repeatedArithmetic_sound ha h hx
  exact ⟨⟨fun hop => ⟨hdiv hop, not_minI64_and_neg_one x⟩, hfit⟩, hmem⟩

/-- **Range arithmetic at the limits of the words.** A set that is computed is well formed, every
operation on members of the operands has a result, and the result is a member; two reads of one
scalar are one member. Where an operation on members has no result, none is computed. -/
theorem arithmetic_at_limits {a b : Ranges} (ha : Wf a) (hb : Wf b) (op : BinOp) :
    (∀ r, a.arithmetic op b = .ok r →
      Wf r ∧ ∀ x ∈ a, ∀ y ∈ b, Defined op x y ∧ exact op x y ∈ r) ∧
      (∀ r, a.repeatedArithmetic op = .ok r →
        Wf r ∧ ∀ x ∈ a, Defined op x x ∧ exact op x x ∈ r) ∧
      (∀ x ∈ a, ∀ y ∈ b, ¬ Defined op x y → ∃ e, a.arithmetic op b = .error e) ∧
      ∀ x ∈ a, ¬ Defined op x x → ∃ e, a.repeatedArithmetic op = .error e := by
  refine ⟨fun r h => ⟨arithmetic_wf ha hb h, fun x hx y hy => arithmetic_defined ha hb h hx hy⟩,
    fun r h => ⟨repeatedArithmetic_wf ha h, fun x hx => repeatedArithmetic_defined ha h hx⟩,
    fun x hx y hy hundefined => ?_, fun x hx hundefined => ?_⟩
  · cases h : a.arithmetic op b with
    | ok r => exact absurd (arithmetic_defined ha hb h hx hy).1 hundefined
    | error e => exact ⟨e, rfl⟩
  · cases h : a.repeatedArithmetic op with
    | ok r => exact absurd (repeatedArithmetic_defined ha h hx).1 hundefined
    | error e => exact ⟨e, rfl⟩

/-- The words without zero hold the least value and `-1`: their quotients are refused, but not those
of one scalar by itself. -/
theorem arithmetic_at_limits_nonzero :
    (∃ e, Ranges.arithmetic ⟨(minI64, -1), some (1, maxI64)⟩ .div
        ⟨(minI64, -1), some (1, maxI64)⟩ = .error e) ∧
      ∀ x ∈ (⟨(minI64, -1), some (1, maxI64)⟩ : Ranges), exact .div x x ∈ interval 1 1 := by
  have hwf : Wf ⟨(minI64, -1), some (1, maxI64)⟩ := ⟨by decide, by decide⟩
  obtain ⟨-, hrepeated, herror, -⟩ := arithmetic_at_limits hwf hwf .div
  exact ⟨herror minI64 (by decide) (-1) (by decide) (by decide),
    fun x hx => ((hrepeated (interval 1 1) (by decide)).2 x hx).2⟩

end Ranges

end Verbosec.NumericBounds
