import Verbosec.Interpreter.Eval

/-!
# The entry guard

* `ValidInput concept fields` - the record passes the input guard of `concept`.
* `checkInput_of_valid`, `exists_invalid` - what the guard does to records that are valid and to
  those that are not.
-/

namespace Verbosec.Interpreter

open Verbosec.Lib

/-- The record passes the input guard of the concept. -/
def ValidInput (concept : Concept) (fields : Dict String Value) : Prop :=
  ∀ f ∈ concept.fields, fieldValid f fields = true

variable {ctx : Context} {r : Rule} {c : Concept} {fields : Dict String Value}

/-- A valid record passes the guard of every rule with that input concept. -/
lemma checkInput_of_valid (hfind : ctx.concepts.find? (r.inputTy = .named ·.name) = some c)
    (hvalid : ValidInput c fields) : checkInput ctx r (.record fields) = .ok () := by
  have hnone : c.fields.find? (fun f => !fieldValid f fields) = none := by
    rw [List.find?_eq_none]
    intro f hf
    simp [hvalid f hf]
  unfold checkInput
  split
  · simp only [hfind, hnone]
  · rfl

/-- A record that is not valid has a first field that the guard refuses. -/
lemma exists_invalid (hinvalid : ¬ ValidInput c fields) :
    ∃ f, c.fields.find? (!fieldValid · fields) = some f := by
  rw [← Option.isSome_iff_exists, List.find?_isSome]
  obtain ⟨f, hf⟩ := Classical.not_forall.mp hinvalid
  obtain ⟨hf, hf'⟩ := Classical.not_imp.mp hf
  exact ⟨f, hf, by simpa using hf'⟩

/-- A guarded rule without a declared input concept is refused. -/
lemma checkInput_of_undeclared (hfind : ctx.concepts.find? (r.inputTy = .named ·.name) = none)
    (input : Value) :
    checkInput ctx r input = .ok () ∨
      checkInput ctx r input = fail (.contractConcept (contractName ctx r)) := by
  unfold checkInput
  split
  · refine Or.inr ?_
    simp only [hfind]
  · exact Or.inl rfl

end Verbosec.Interpreter
