import Mathlib.Data.List.Basic
import Mathlib.Logic.Relation

/-!
# Cycles and reachability

* `Cyclic E a` - a cycle of `E` is reachable from `a`.
* `Finished E l` - a list in the order in which a depth first search finishes: the successors of
  each element are behind it, or have no successors.
* `Finished.acc` - from what is finished every walk is finite.
* `not_cyclic_of_acc` - where every walk is finite no cycle is reachable.
* `mem_of_closed` - a set with the successors of its elements contains all that is reachable.
* `unvisited` - how much is left to visit.
-/

namespace Verbosec.Lib.Graph

open Relation (ReflTransGen TransGen)

variable {α : Type*} {E : α → α → Prop}

/-- A cycle is reachable. -/
def Cyclic (E : α → α → Prop) (a : α) : Prop := ∃ c, ReflTransGen E a c ∧ TransGen E c c

/-- The elements in the order in which they are finished, the last one first. -/
inductive Finished (E : α → α → Prop) : List α → Prop
  | nil : Finished E []
  | cons {a l} (h : Finished E l) (hnew : a ∉ l) (hsucc : ∀ b, E a b → b ∈ l ∨ ∀ c, ¬ E b c) :
      Finished E (a :: l)

/-- From what is finished every walk is finite. -/
lemma Finished.acc {l : List α} (h : Finished E l) {a : α} (ha : a ∈ l) : Acc (flip E) a := by
  induction h generalizing a with
  | nil => cases ha
  | cons h hnew hsucc ih =>
      rcases List.mem_cons.mp ha with rfl | ha
      · refine .intro _ fun b hb => ?_
        rcases hsucc b hb with hmem | hsink
        · exact ih hmem
        · exact .intro _ fun c hc => absurd hc (hsink c)
      · exact ih ha

/-- Where every walk is finite no cycle is reachable. -/
lemma not_cyclic_of_acc {a : α} (h : Acc (flip E) a) : ¬ Cyclic E a := by
  induction h with
  | intro a _ ih =>
      rintro ⟨c, hac, hcc⟩
      rcases ReflTransGen.cases_head hac with rfl | ⟨b, hab, hbc⟩
      · obtain ⟨b, hab, hba⟩ := TransGen.head'_iff.mp hcc
        exact ih b hab ⟨a, hba, hcc⟩
      · exact ih b hab ⟨c, hbc, hcc⟩

/-- What is reachable from a closed set is in it. -/
lemma mem_of_closed {S : α → Prop} (hclosed : ∀ v, S v → ∀ b, E v b → S b) {a b : α} (ha : S a)
    (h : ReflTransGen E a b) : S b := by
  induction h with
  | refl => exact ha
  | tail _ hstep ih => exact hclosed _ ih _ hstep

section unvisited

variable [DecidableEq α]

/-- How many elements of a list are not visited. -/
def unvisited (univ visited : List α) : Nat := (univ.filter (· ∉ visited)).length

/-- A visit leaves fewer. -/
lemma unvisited_cons_lt {univ visited : List α} {a : α} (ha : a ∈ univ) (hnew : a ∉ visited) :
    unvisited univ (a :: visited) < unvisited univ visited := by
  have hsub : (univ.filter (· ∉ a :: visited)).Sublist (univ.filter (· ∉ visited)) := by
    refine List.monotone_filter_right _ fun x hx => ?_
    simp only [decide_eq_true_eq, List.mem_cons, not_or] at hx ⊢
    exact hx.2
  refine Nat.lt_of_le_of_ne hsub.length_le fun heq => ?_
  have hmem : a ∈ univ.filter (· ∉ a :: visited) := by
    rw [hsub.eq_of_length heq]
    exact List.mem_filter.mpr ⟨ha, by simpa using hnew⟩
  simp at hmem

lemma unvisited_mono {univ visited more : List α} (h : ∀ a ∈ visited, a ∈ more) :
    unvisited univ more ≤ unvisited univ visited := by
  refine (List.Sublist.length_le (List.monotone_filter_right _ fun x hx => ?_))
  simp only [decide_eq_true_eq] at hx ⊢
  exact fun hmem => hx (h x hmem)

end unvisited

end Verbosec.Lib.Graph
