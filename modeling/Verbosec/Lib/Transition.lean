import Mathlib.Logic.Relation

/-!
# Transition systems

* `System σ` - the initial states and the steps of a system.
* `System.Reachable` - the states of its runs; `Reachable.invariant` is the induction over a run.
* `System.exists_final` - from a state with an invariant, steps that keep it and decrease a measure
  lead to a final state.
* `System.acc` - where all steps keep an invariant and decrease a measure, no run is infinite.
-/

namespace Verbosec.Lib

/-- A transition system: where it starts and what it can do. -/
structure System (σ : Type*) where
  /-- the initial states -/
  init : σ → Prop
  /-- one step -/
  step : σ → σ → Prop

namespace System

variable {σ : Type*} (s : System σ)

/-- The states of the runs of a system. -/
def Reachable (x : σ) : Prop := ∃ i, s.init i ∧ Relation.ReflTransGen s.step i x

variable {s}

lemma Reachable.init {x : σ} (h : s.init x) : s.Reachable x := ⟨x, h, .refl⟩

lemma Reachable.step {x y : σ} (h : s.Reachable x) (hstep : s.step x y) : s.Reachable y := by
  obtain ⟨i, hi, hrun⟩ := h
  exact ⟨i, hi, hrun.tail hstep⟩

/-- What holds initially and passes from a reachable state to the next holds of every run. -/
theorem Reachable.invariant {I : σ → Prop} (hinit : ∀ x, s.init x → I x)
    (hstep : ∀ x y, s.Reachable x → I x → s.step x y → I y) {x : σ} (h : s.Reachable x) : I x := by
  obtain ⟨i, hi, hrun⟩ := h
  induction hrun with
  | refl => exact hinit i hi
  | tail hrun hlast ih => exact hstep _ _ ⟨i, hi, hrun⟩ ih hlast

/-- Steps that keep an invariant and decrease a measure as long as the state is not final lead to a
final state. -/
theorem exists_final {I F : σ → Prop} (μ : σ → Nat)
    (h : ∀ x, I x → ¬ F x → ∃ y, s.step x y ∧ I y ∧ μ y < μ x) :
    ∀ {x}, I x → ∃ y, Relation.ReflTransGen s.step x y ∧ F y ∧ I y := by
  intro x
  induction hμ : μ x using Nat.strongRecOn generalizing x with
  | ind n ih =>
      intro hx
      by_cases hF : F x
      · exact ⟨x, .refl, hF, hx⟩
      · obtain ⟨y, hstep, hy, hlt⟩ := h x hx hF
        obtain ⟨z, hrun, hz⟩ := ih (μ y) (hμ ▸ hlt) rfl hy
        exact ⟨z, hrun.head hstep, hz⟩

/-- Where every step keeps an invariant and decreases a well founded measure, no run from a state with
the invariant is infinite. -/
theorem acc {I : σ → Prop} {β : Type*} {r : β → β → Prop} (hwf : WellFounded r) (μ : σ → β)
    (h : ∀ x y, I x → s.step x y → I y ∧ r (μ y) (μ x)) {x : σ} (hx : I x) :
    Acc (fun y x => s.step x y) x := by
  induction hμ : μ x using hwf.induction generalizing x with
  | _ m ih =>
      refine ⟨x, fun y hstep => ?_⟩
      obtain ⟨hy, hlt⟩ := h x y hx hstep
      exact ih (μ y) (hμ ▸ hlt) hy rfl

end System

end Verbosec.Lib
