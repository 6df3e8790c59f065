import Verbosec.Lib.Dict
import Verbosec.Lib.Fallible
import Verbosec.Verifier.Names

/-!
# The walk over called rules

* `WalkState V`, `Walk V α` - what a rule verifier remembers between expressions: the abstract
  results of the rules checked so far, and the number of expressions visited.
* `walkRule inner` - a rule checked by `inner`, from the cache or together with the rules it calls,
  without recursion and at most 128 deep.
* `walkErrors` - the rules of a list, checked in order with one cache; the errors among them.
* `walkRule_keeps`, `walkErrors_keeps` - what `inner` establishes of a rule, given its callees, holds
  of every rule, cached or not.

The strict overflow verifier and the bounded text verifier share this walk.

Source: `numeric_bounds.rs` and `text_bounds.rs`, `Check`, `Check::rule`.
-/

namespace Verbosec

open Verbosec.Lib Verbosec.Lib.Fallible

variable {V : Type}

/-- What a verifier remembers between expressions. Source: `numeric_bounds.rs` and
`text_bounds.rs`, `Check` -/
structure WalkState (V : Type) where
  /-- the abstract results of the rules checked so far -/
  cache : Dict String V := []
  /-- the number of expressions visited -/
  steps : Nat := 0

/-- A verification step. -/
abbrev Walk (V α : Type) := Fallible String (WalkState V) α

/-- A rule, from the cache or checked by `inner` with the rules it calls. `visiting` holds the rules
whose check is in progress; `nesting` is how many more may join them.
Source: `numeric_bounds.rs` and `text_bounds.rs`, `Check::rule` -/
def walkRule (inner : (String → Walk V V) → String → Walk V V) :
    Nat → List String → String → Walk V V
  | nesting, visiting, name => do
      match (← get).cache.lookup name with
      | some v => pure v
      | none =>
          match nesting with
          | 0 => throw "analysis exceeds 128 nested rule calls"
          | nesting + 1 =>
              if name ∈ visiting then
                throw ("recursion through rule '" ++ name ++ "' is unsupported")
              else
                mapError ("rule '" ++ name ++ "': " ++ ·) do
                  let v ← inner (walkRule inner nesting (name :: visiting)) name
                  modify fun s => { s with cache := s.cache.insert name v }
                  pure v

/-- The rules of `names`, checked in order with one cache; the errors among them, each in the
context of its rule and the `contract` checked, and what is remembered after them.
Source: `numeric_bounds.rs`, `verify`; `text_bounds.rs`, `verify_mode` -/
def walkErrors (contract : String) (rule : String → Walk V V) :
    List String → WalkState V → List VerifyError × WalkState V
  | [], s => ([], s)
  | name :: names, s =>
      match (rule name).exec s with
      | (.ok _, s') => walkErrors contract rule names s'
      | (.error message, s') =>
          let (errors, after) := walkErrors contract rule names s'
          (⟨"rule '" ++ name ++ "' / " ++ contract, message⟩ :: errors, after)

/-! ## What holds of every rule -/

/-- Every cached rule satisfies `P` with its abstract result. -/
def Cached (P : String → V → Prop) (s : WalkState V) : Prop :=
  ∀ name v, s.cache.lookup name = some v → P name v

lemma Cached.empty (P : String → V → Prop) : Cached P {} := by
  intro name v h
  cases h

/-- Counting an expression does not touch the cache. -/
lemma steps_keeps (P : String → V → Prop) (f : Nat → Nat) :
    Keeps (Cached P) (modify fun s => { s with steps := f s.steps } : Walk V Unit)
      fun _ => True :=
  .modify fun _ hs => hs

/-- A new result keeps the cache. -/
lemma Cached.insert {P : String → V → Prop} {s : WalkState V} (hs : Cached P s) {name : String}
    {v : V} (hv : P name v) : Cached P { s with cache := s.cache.insert name v } := by
  intro m u hm
  simp only [Dict.lookup_insert] at hm
  split at hm
  · rename_i hmn
    cases hm
    exact hmn ▸ hv
  · exact hs m u hm

variable {inner : (String → Walk V V) → String → Walk V V} {P : String → V → Prop}
  (hinner : ∀ rule : String → Walk V V, (∀ name, Keeps (Cached P) (rule name) (P name)) →
    ∀ name, Keeps (Cached P) (inner rule name) (P name))

include hinner

/-- What the check of a rule establishes, given its callees, holds whether the rule is checked or
cached: induction on the nesting still allowed. -/
theorem walkRule_keeps (nesting : Nat) :
    ∀ visiting name, Keeps (Cached P) (walkRule inner nesting visiting name) (P name) := by
  induction nesting with
  | zero =>
      intro visiting name
      unfold walkRule
      refine Keeps.get_bind fun s hs => ?_
      split
      · rename_i v hv
        exact .pure (hs name v hv)
      · exact .throw _
  | succ nesting ih =>
      intro visiting name
      unfold walkRule
      refine Keeps.get_bind fun s hs => ?_
      split
      · rename_i v hv
        exact .pure (hs name v hv)
      · refine .ite (fun _ => .throw _) fun _ => .mapError _ ?_
        refine (hinner _ (fun n => ih (name :: visiting) n) name).bind fun v hv => ?_
        intro s' a s'' hs' hrun
        rw [exec_bind] at hrun
        cases hrun
        exact ⟨hs'.insert hv, hv⟩

/-- Without errors, it holds of every checked rule. -/
theorem walkErrors_keeps {contract : String} (names : List String) : ∀ s, Cached P s →
    (walkErrors contract (walkRule inner 128 []) names s).1 = [] → ∀ n ∈ names, ∃ v, P n v := by
  induction names with
  | nil => simp
  | cons name names ih =>
      intro s hs herr n hn
      unfold walkErrors at herr
      rcases hrun : (walkRule inner 128 [] name).exec s with ⟨e | v, s'⟩
      · simp [hrun] at herr
      · rw [hrun] at herr
        obtain ⟨hs', hv⟩ := walkRule_keeps hinner 128 [] name s v s' hs hrun
        rcases List.mem_cons.mp hn with rfl | hn
        · exact ⟨v, hv⟩
        · exact ih s' hs' herr n hn

end Verbosec
