import Verbosec.Lib.Dict
import Verbosec.Syntax

/-!
# The name passes of the verifier

* `VerifyError` - a reported verification error.
* `reservedErrors`, `collisionErrors`, `duplicateErrors` - a user concept under a reserved name, a
  group concept under a taken name, two declarations of one kind under one name.
* `nameErrors` - the three passes together. Every other pass of the verifier, the interpreter and
  the native backend presume that it reports nothing.
* `nodup_rules`, `nodup_concepts` - without a report, rule names and concept names are distinct, so
  that the first and the last declaration of a name are the same.

Source: `verifier.rs`, `verify_program`.
-/

namespace Verbosec

open Verbosec.Lib

/-- A reported verification error. Source: `verifier.rs`, `VerifyError` -/
structure VerifyError where
  /-- where the error is -/
  context : String
  /-- what the error is -/
  message : String
  deriving DecidableEq, Repr

namespace Verifier

/-- Does the program declare an HTTP service? Source: `verifier.rs`, `verify_program` -/
def anyHttp10 (p : Program) : Bool := p.services.any (·.protocol = .http10)

/-- The built-in request concept. Source: `verifier.rs`, `builtin_http_request` -/
def builtinHttpRequest (bodyMax : Int64) : Concept where
  name := "HttpRequest"
  fields :=
    [⟨"method", .text, some (0, 8)⟩, ⟨"path", .text, some (0, 256)⟩,
      ⟨"body", .text, some (0, bodyMax)⟩]

/-- The built-in response concept. Source: `verifier.rs`, `builtin_http_response` -/
def builtinHttpResponse : Concept where
  name := "HttpResponse"
  fields := [⟨"status", .number, some (100, 599)⟩, ⟨"body", .text, some (0, 4096)⟩]

/-- A user concept under a reserved name. Source: `verifier.rs`, `verify_program` -/
def reservedErrors (p : Program) : List VerifyError :=
  if anyHttp10 p then
    p.items.filterMap fun
      | .concept c =>
          if c.name = "HttpRequest" ∨ c.name = "HttpResponse" then
            some ⟨"concept '" ++ c.name ++ "'",
              "'" ++ c.name ++ "' is a reserved built-in concept for Protocol::Http10; remove " ++
                "the user declaration"⟩
          else none
      | _ => none
  else []

/-- The group concepts whose name is taken, `known` being the names so far.
Source: `verifier.rs`, `verify_program` -/
def collisionErrors : List String → List (String × Concept) → List VerifyError
  | _, [] => []
  | known, (group, c) :: rest =>
      (if c.name ∈ known then
        [⟨"concept_group '" ++ group ++ "' / concept '" ++ c.name ++ "'",
          "concept name '" ++ c.name ++
            "' collides with another concept (top-level or in a different group)"⟩]
      else []) ++ collisionErrors (c.name :: known) rest

/-- The kind and the name of a declaration that must be unique.
Source: `verifier.rs`, `verify_program` -/
def declared : Item → Option (String × String)
  | .rule r => some ("rule", r.name)
  | .concept c => some ("concept", c.name)
  | .reaction rx => some ("reaction", rx.name)
  | .service s => some ("service", s.name)
  | .conceptGroup g => some ("concept_group", g.name)
  | _ => none

/-- The declarations that repeat a kind and a name, `seen` being those so far.
Source: `verifier.rs`, `verify_program` -/
def duplicateErrors : List (String × String) → List (String × String) → List VerifyError
  | _, [] => []
  | seen, (kind, name) :: rest =>
      (if (kind, name) ∈ seen then
        [⟨kind ++ " '" ++ name ++ "'",
          "duplicate " ++ kind ++ " name '" ++ name ++ "' (already declared earlier); " ++ kind ++
            " names must be unique — the interpreter binds the first definition and the native " ++
            "emitter binds the last, so a duplicate makes the two backends disagree"⟩]
      else []) ++ duplicateErrors ((kind, name) :: seen) rest

/-- The top-level concepts of a program. -/
def topConcepts (p : Program) : List Concept :=
  p.items.filterMap fun
    | .concept c => some c
    | _ => none

/-- The group concepts of a program, with the names of their groups. -/
def groupConcepts (p : Program) : List (String × Concept) :=
  p.items.flatMap fun
    | .conceptGroup g => g.concepts.map fun c => (g.name, c)
    | _ => []

/-- The built-in concepts in scope. Source: `verifier.rs`, `verify_program` -/
def builtinNames (p : Program) : List String :=
  if anyHttp10 p then ["HttpRequest", "HttpResponse"] else []

/-- The name passes of the verifier. Source: `verifier.rs`, `verify_program` -/
def nameErrors (p : Program) : List VerifyError :=
  reservedErrors p ++
    collisionErrors (builtinNames p ++ (topConcepts p).map (·.name)) (groupConcepts p) ++
    duplicateErrors [] (p.items.filterMap declared)

/-! ## Distinct names -/

lemma nodup_of_duplicateErrors (decls : List (String × String)) :
    ∀ seen, duplicateErrors seen decls = [] → decls.Nodup ∧ ∀ d ∈ decls, d ∉ seen := by
  induction decls with
  | nil => simp
  | cons d decls ih =>
      intro seen h
      obtain ⟨kind, name⟩ := d
      rw [duplicateErrors, List.append_eq_nil_iff] at h
      obtain ⟨hnodup, hseen⟩ := ih _ h.2
      have hd : (kind, name) ∉ seen := by
        intro hmem
        rw [if_pos hmem] at h
        cases h.1
      refine ⟨List.nodup_cons.mpr ⟨fun hmem => hseen _ hmem List.mem_cons_self, hnodup⟩, ?_⟩
      intro d' hd'
      rcases List.mem_cons.mp hd' with rfl | hd'
      · exact hd
      · exact fun hmem => hseen d' hd' (List.mem_cons_of_mem _ hmem)

lemma nodup_of_collisionErrors (decls : List (String × Concept)) :
    ∀ known, collisionErrors known decls = [] →
      (decls.map (·.2.name)).Nodup ∧ ∀ d ∈ decls, d.2.name ∉ known := by
  induction decls with
  | nil => simp
  | cons d decls ih =>
      intro known h
      obtain ⟨group, c⟩ := d
      rw [collisionErrors, List.append_eq_nil_iff] at h
      obtain ⟨hnodup, hknown⟩ := ih _ h.2
      have hc : c.name ∉ known := by
        intro hmem
        rw [if_pos hmem] at h
        cases h.1
      refine ⟨?_, ?_⟩
      · rw [List.map_cons, List.nodup_cons]
        refine ⟨fun hmem => ?_, hnodup⟩
        obtain ⟨d, hd, heq⟩ := List.mem_map.mp hmem
        exact hknown d hd (heq ▸ List.mem_cons_self)
      · intro d hd
        rcases List.mem_cons.mp hd with rfl | hd
        · exact hc
        · exact fun hmem => hknown d hd (List.mem_cons_of_mem _ hmem)

/-- Without a report, the declarations of one kind have distinct names. -/
lemma nodup_filterMap {α : Type} {p : Program} (h : nameErrors p = []) (kind : String)
    {f : Item → Option α} {name : α → String}
    (hf : ∀ i a, f i = some a → declared i = some (kind, name a)) :
    ((p.items.filterMap f).map name).Nodup := by
  obtain ⟨hnodup, -⟩ := nodup_of_duplicateErrors _ _ (List.append_eq_nil_iff.mp h).2
  generalize p.items = items at hnodup
  induction items with
  | nil => simp
  | cons i items ih =>
      rw [List.filterMap_cons]
      cases hfi : f i with
      | none =>
          refine ih ?_
          rw [List.filterMap_cons] at hnodup
          split at hnodup
          · exact hnodup
          · exact (List.nodup_cons.mp hnodup).2
      | some a =>
          rw [List.filterMap_cons, hf i a hfi] at hnodup
          obtain ⟨hnot, hnodup⟩ := List.nodup_cons.mp hnodup
          rw [List.map_cons, List.nodup_cons]
          refine ⟨fun hmem => hnot ?_, ih hnodup⟩
          obtain ⟨b, hb, hba⟩ := List.mem_map.mp hmem
          obtain ⟨j, hj, hjb⟩ := List.mem_filterMap.mp hb
          exact List.mem_filterMap.mpr ⟨j, hj, by rw [hf j b hjb, hba]⟩

/-- Without a report, rule names are distinct. -/
theorem nodup_rules {p : Program} (h : nameErrors p = []) : (p.rules.map (·.name)).Nodup := by
  refine nodup_filterMap h "rule" fun i a hi => ?_
  cases i <;> simp_all [declared]

lemma nodup_topConcepts {p : Program} (h : nameErrors p = []) :
    ((topConcepts p).map (·.name)).Nodup := by
  refine nodup_filterMap h "concept" fun i a hi => ?_
  cases i <;> simp_all [declared]

/-- The concepts of a program are its top-level ones and those of its groups. -/
lemma concepts_perm (p : Program) :
    p.concepts.Perm (topConcepts p ++ (groupConcepts p).map (·.2)) := by
  unfold Program.concepts topConcepts groupConcepts
  induction p.items with
  | nil => exact .refl _
  | cons i items ih =>
      rw [List.flatMap_cons, List.filterMap_cons, List.flatMap_cons, List.map_append]
      cases i
      case concept c => exact ih.cons c
      case conceptGroup g =>
        have hg : (g.concepts.map fun c => (g.name, c)).map (·.2) = g.concepts := by
          rw [List.map_map]
          exact List.map_id _
        simp only [hg]
        exact (ih.append_left _).trans (List.perm_append_comm_assoc _ _ _)
      all_goals exact ih

/-- Without a report, concept names are distinct. -/
theorem nodup_concepts {p : Program} (h : nameErrors p = []) :
    (p.concepts.map (·.name)).Nodup := by
  have hcollide := (List.append_eq_nil_iff.mp (List.append_eq_nil_iff.mp h).1).2
  obtain ⟨hgroup, hknown⟩ := nodup_of_collisionErrors _ _ hcollide
  rw [((concepts_perm p).map _).nodup_iff, List.map_append, List.map_map]
  refine List.Nodup.append (nodup_topConcepts h) hgroup ?_
  intro n htop hgroup'
  obtain ⟨d, hd, rfl⟩ := List.mem_map.mp hgroup'
  exact hknown d hd (List.mem_append_right _ htop)

/-- Without a report, no concept has the name of a built-in one in scope. -/
theorem not_mem_builtinNames {p : Program} (h : nameErrors p = []) {c : Concept}
    (hc : c ∈ p.concepts) : c.name ∉ builtinNames p := by
  intro hbuiltin
  obtain ⟨hreserved, hcollide⟩ := List.append_eq_nil_iff.mp (List.append_eq_nil_iff.mp h).1
  rw [(concepts_perm p).mem_iff, List.mem_append, List.mem_map] at hc
  rcases hc with htop | ⟨d, hd, rfl⟩
  · unfold builtinNames at hbuiltin
    split at hbuiltin
    · rename_i hhttp
      obtain ⟨i, hi, hic⟩ := List.mem_filterMap.mp htop
      cases i <;> simp only [Option.some.injEq, reduceCtorEq] at hic
      subst hic
      unfold reservedErrors at hreserved
      rw [if_pos hhttp, List.filterMap_eq_nil_iff] at hreserved
      have := hreserved _ hi
      simp_all
    · simp at hbuiltin
  · exact (nodup_of_collisionErrors _ _ hcollide).2 d hd (List.mem_append_left _ hbuiltin)

/-- Without a report, a rule is found under its name from either end. -/
theorem lookup_rules {p : Program} (h : nameErrors p = []) (n : String) :
    (p.rules.map fun r => (r.name, r)).reverse.lookup n = p.rules.find? (·.name = n) :=
  lookup_reverse_of_nodup Rule.name (nodup_rules h) n

/-- Without a report, a concept is found under its name from either end. -/
theorem lookup_concepts {p : Program} (h : nameErrors p = []) (n : String) :
    (p.concepts.map fun c => (c.name, c)).reverse.lookup n = p.concepts.find? (·.name = n) :=
  lookup_reverse_of_nodup Concept.name (nodup_concepts h) n

end Verifier

end Verbosec
