import Verbosec.NumericBounds.Sound

/-!
# Guards only narrow

* `Ranges.constrain_subset` - what a comparison leaves of a set lies in the set.
* `Scope.domain`, `Scope.Narrower` - the interval set of a scalar, and scopes with smaller ones.
* `conjuncts`, `Scope.assumeAll` - a condition as the comparisons that it establishes, in order.
* `guard_refinement` - a guard keeps every environment that takes its arm, enlarges no domain, adds
  nothing when one of its conjuncts is contradictory, and leaves every domain canonical; what is
  known after a `let` is about its new value.

Source: `numeric_bounds/guards.rs`, `Scope::branch`; `numeric_bounds/ranges.rs`,
`Ranges::constrain`.
-/

namespace Verbosec.NumericBounds

open Verbosec.Lib

/-! ## Interval sets -/

namespace Ranges

/-- Up to two intervals are not widened by their normal form. -/
lemma exists_of_mem_collect {ps : List Interval} {r : Ranges} (hlen : ps.length ≤ 2)
    (h : collect ps = some r) {x : Int} (hx : x ∈ r) : ∃ p ∈ ps, p.1 ≤ x ∧ x ≤ p.2 := by
  have hsorted : ((ps.filter fun p => p.1 ≤ p.2).insertionSort pairLe).length ≤ 2 := by
    rw [List.length_insertionSort]
    exact (List.length_filter_le _ _).trans hlen
  unfold collect at h
  have hmem := @mem_sorted_pieces ps
  generalize (ps.filter fun p => p.1 ≤ p.2).insertionSort pairLe = sorted at h hmem hsorted
  rcases sorted with _ | ⟨p, _ | ⟨q, _ | ⟨t, rest⟩⟩⟩
  · cases h
  · cases h
    exact ⟨p, (hmem.mp List.mem_cons_self).1, mem_interval.mp hx⟩
  · have hp := hmem.mp (show p ∈ [p, q] by simp)
    have hq := hmem.mp (show q ∈ [p, q] by simp)
    simp only [merge] at h
    split at h
    · -- the two touch, and become one
      cases h
      obtain ⟨h₁, h₂⟩ := mem_interval.mp hx
      simp only at h₁ h₂
      by_cases hxp : x ≤ p.2
      · exact ⟨p, hp.1, h₁, hxp⟩
      · exact ⟨q, hq.1, by omega, by omega⟩
    · cases h
      obtain ⟨t, ht, h₁, h₂⟩ := hx
      simp only [pieces, Option.toList_some, List.mem_cons, List.not_mem_nil, or_false] at ht
      rcases ht with rfl | rfl
      · exact ⟨_, hp.1, h₁, h₂⟩
      · exact ⟨_, hq.1, h₁, h₂⟩
  · simp at hsorted

/-- Narrowing stays in the set. -/
lemma narrow_subset {self r : Ranges} {pieces : List Interval} (hin : Within self pieces)
    (h : self.narrow pieces = some r) {x : Int} (hx : x ∈ r) : x ∈ self := by
  unfold narrow at h
  simp only at h
  split at h
  · cases h
    exact hx
  · rename_i hlen
    obtain ⟨p, hp, h₁, h₂⟩ := exists_of_mem_collect (not_lt.mp hlen) h hx
    obtain ⟨q, hq, hl, hr⟩ := hin p (List.mem_of_mem_filter hp)
    exact ⟨q, hq, hl.trans h₁, h₂.trans hr⟩

/-- **What a comparison leaves of a set lies in the set.** -/
theorem constrain_subset {self other r : Ranges} {op : BinOp}
    (h : self.constrain op other = some r) {x : Int} (hx : x ∈ r) : x ∈ self := by
  have hrestrict : ∀ op n, self.restrict op n = some r → x ∈ self :=
    fun op n h => narrow_subset (restrict_within self op n) h hx
  unfold constrain at h
  simp only at h
  split at h
  case h_1 | h_2 | h_3 | h_4 => exact hrestrict _ _ h
  case h_5 =>
    split at h
    · exact hrestrict _ _ h
    · cases h
      exact hx
  case h_6 => exact narrow_subset (intersections_within self other) h hx
  case h_7 =>
    cases h
    exact hx

end Ranges

/-! ## Domains -/

namespace Scope

/-- The interval set of a scalar. -/
def domain (s : Scope) : Place → Option Ranges
  | .localVar n =>
      match s.localValue n with
      | some (.number r) => some r
      | _ => none
  | .field n => s.field n

/-- Every domain of the second scope lies in that of the first. -/
def Narrower (s s' : Scope) : Prop :=
  ∀ place r', s'.domain place = some r' → ∃ r, s.domain place = some r ∧ ∀ x ∈ r', x ∈ r

namespace Narrower

lemma refl (s : Scope) : s.Narrower s := fun _ r h => ⟨r, h, fun _ hx => hx⟩

lemma trans {s₁ s₂ s₃ : Scope} (h : s₁.Narrower s₂) (h' : s₂.Narrower s₃) : s₁.Narrower s₃ := by
  intro place r₃ h₃
  obtain ⟨r₂, h₂, hsub⟩ := h' place r₃ h₃
  obtain ⟨r₁, h₁, hsub'⟩ := h place r₂ h₂
  exact ⟨r₁, h₁, fun x hx => hsub' x (hsub x hx)⟩

end Narrower

/-- A place that is read has the domain that is read. -/
lemma domain_of_scalar {s : Scope} {e : Expr} {place : Place} {r : Ranges}
    (h : s.scalar e = some (place, r)) : s.domain place = some r := by
  unfold scalar at h
  split at h
  · split at h
    · rename_i hr
      cases h
      rw [domain, hr]
    · cases h
  · split at h
    · obtain ⟨r', hr', hpair⟩ := Option.map_eq_some_iff.mp h
      cases hpair
      exact hr'
    · cases h
  · cases h

lemma domain_of_operand {s : Scope} {e : Expr} {place : Place} {r : Ranges}
    (h : s.operand e = some (some place, r)) : s.domain place = some r := by
  unfold operand at h
  split at h
  · rename_i hs
    cases h
    exact domain_of_scalar hs
  · obtain ⟨n, -, hpair⟩ := Option.map_eq_some_iff.mp h
    cases hpair

/-- A fact about another place leaves a domain alone. -/
lemma domain_record_of_ne {s : Scope} {place : Option Place} {place' : Place} {r : Ranges}
    (h : place ≠ some place') : (s.record place r).domain place' = s.domain place' := by
  cases place with
  | none => rfl
  | some pl =>
      cases pl <;> cases place' <;>
        simp only [record, domain, localValue, field, Dict.lookup_insert]
      case localVar.localVar n m =>
        have hne : m ≠ n := fun hmn => h (by rw [hmn])
        rw [if_neg hne]
      case field.field n m =>
        have hne : m ≠ n := fun hmn => h (by rw [hmn])
        rw [if_neg hne]

/-- A fact about a place with a domain is its domain. -/
lemma domain_record_self {s : Scope} {place : Place} {r r' : Ranges}
    (h : s.domain place = some r) : (s.record (some place) r').domain place = some r' := by
  cases place with
  | localVar n =>
      simp only [domain, localValue, record, Dict.lookup_insert_self, Option.getD_some] at h ⊢
      split at h
      · rename_i hvalue
        split at hvalue
        · cases hvalue
        · rfl
        · cases hvalue
      · cases h
  | field n =>
      simp only [domain, field, record, Dict.lookup_insert_self, Option.getD_some] at h ⊢
      split at h
      · cases h
      · rfl

/-- A smaller fact narrows a scope. -/
lemma Narrower.record {s : Scope} {place : Option Place} {r r' : Ranges}
    (hplace : ∀ pl, place = some pl → s.domain pl = some r) (hsub : ∀ x ∈ r', x ∈ r) :
    s.Narrower (s.record place r') := by
  intro pl r₁ h₁
  by_cases hpl : place = some pl
  · subst hpl
    rw [domain_record_self (hplace pl rfl)] at h₁
    cases h₁
    exact ⟨r, hplace pl rfl, hsub⟩
  · rw [domain_record_of_ne hpl] at h₁
    exact ⟨r₁, h₁, fun _ hx => hx⟩

/-- The facts of a comparison narrow a scope. Both projections are of the domains before it. -/
lemma Narrower.assumeComparison {s s' : Scope} {op : BinOp} {a b : Expr}
    (h : s.assumeComparison op a b = some s') : s.Narrower s' := by
  unfold Scope.assumeComparison at h
  split at h
  · rename_i aPlace aRanges bPlace bRanges ha hb
    split at h
    · cases h
      exact .refl s
    · rename_i hne
      split at h
      · rename_i ra rb hra hrb
        cases h
        have hfirst : s.Narrower (s.record aPlace ra) := by
          refine .record (r := aRanges) (fun pl hpl => ?_) fun x hx =>
            Ranges.constrain_subset hra hx
          subst hpl
          exact domain_of_operand ha
        refine hfirst.trans (.record (r := bRanges) (fun pl hpl => ?_) fun x hx =>
          Ranges.constrain_subset hrb hx)
        subst hpl
        rw [domain_record_of_ne hne]
        exact domain_of_operand hb
      · cases h
  · cases h
    exact .refl s

/-! ## Conjuncts -/

end Scope

/-- The comparisons that a truth value of a condition establishes, in the order in which they are
assumed. -/
def conjuncts : Expr → Bool → List (BinOp × Expr × Expr)
  | .not e, truth => conjuncts e !truth
  | .binary op a b, truth =>
      if op = .and ∧ truth = true ∨ op = .or ∧ truth = false then
        conjuncts a truth ++ conjuncts b truth
      else (comparison op truth).toList.map fun op => (op, a, b)
  | _, _ => []

namespace Scope

/-- Comparisons assumed one after another. -/
def assumeAll (s : Scope) (cs : List (BinOp × Expr × Expr)) : Option Scope :=
  cs.foldlM (fun s c => s.assumeComparison c.1 c.2.1 c.2.2) s

lemma assumeAll_append (s : Scope) (cs cs' : List (BinOp × Expr × Expr)) :
    s.assumeAll (cs ++ cs') = (s.assumeAll cs).bind (·.assumeAll cs') :=
  List.foldlM_append

/-- A condition is assumed conjunct by conjunct. -/
lemma assume_eq_assumeAll (e : Expr) :
    ∀ (s : Scope) (truth : Bool), s.assume e truth = s.assumeAll (conjuncts e truth) := by
  induction e using Expr.induction_children with
  | step e ih =>
      intro s truth
      cases e
      case not e => exact ih e (by simp [Expr.children]) s !truth
      case binary op a b =>
        unfold Scope.assume conjuncts
        split
        · rw [assumeAll_append, ih a (by simp [Expr.children])]
          cases s.assumeAll (conjuncts a truth) with
          | none => rfl
          | some s' => exact ih b (by simp [Expr.children]) s' truth
        · cases comparison op truth with
          | none => rfl
          | some op' =>
              show s.assumeComparison op' a b = (s.assumeComparison op' a b).bind some
              cases s.assumeComparison op' a b <;> rfl
      all_goals rfl

lemma Narrower.assumeAll {cs : List (BinOp × Expr × Expr)} :
    ∀ {s s' : Scope}, s.assumeAll cs = some s' → s.Narrower s' := by
  induction cs with
  | nil =>
      intro s s' h
      cases h
      exact .refl s
  | cons c cs ih =>
      intro s s' h
      obtain ⟨s₁, h₁, h⟩ := Option.bind_eq_some_iff.mp h
      exact (Narrower.assumeComparison h₁).trans (ih h)

/-- No guard enlarges a domain. -/
lemma Narrower.branch (s : Scope) (condition : Expr) (truth : Bool) :
    s.Narrower (s.branch condition truth) := by
  unfold Scope.branch
  rw [assume_eq_assumeAll]
  cases h : s.assumeAll (conjuncts condition truth) with
  | none => exact .refl s
  | some s' => exact Narrower.assumeAll h

/-- A contradictory conjunct leaves the facts before the guard. -/
lemma branch_of_contradiction {s s₁ : Scope} {condition : Expr} {truth : Bool}
    {before after : List (BinOp × Expr × Expr)} {op : BinOp} {a b : Expr}
    (hsplit : conjuncts condition truth = before ++ (op, a, b) :: after)
    (hbefore : s.assumeAll before = some s₁) (hcontra : s₁.assumeComparison op a b = none) :
    s.branch condition truth = s := by
  have hnone : s₁.assumeAll ((op, a, b) :: after) = none := by
    show (s₁.assumeComparison op a b).bind _ = none
    rw [hcontra]
    rfl
  unfold Scope.branch
  rw [assume_eq_assumeAll, hsplit, assumeAll_append, hbefore, Option.bind_some, hnone]
  rfl

/-- The domains of a well-formed scope are canonical. -/
lemma Wf.domain {s : Scope} (h : s.Wf) {place : Place} {r : Ranges}
    (hr : s.domain place = some r) : r.Wf := by
  cases place with
  | localVar n =>
      simp only [Scope.domain] at hr
      split at hr
      · rename_i hv
        cases hr
        exact h.localValue hv
      · cases hr
  | field n => exact h.field hr

/-- The scope below some guards, the outermost first. -/
def under (s : Scope) (guards : List (Expr × Bool)) : Scope :=
  guards.foldl (fun s g => s.branch g.1 g.2) s

/-- Guards that an environment takes describe it. -/
lemma Describes.under {ctx : Interpreter.Context}
    {call : Rule → Interpreter.Value → Interpreter.Outcome Interpreter.Value}
    {env : Interpreter.Env} {fields : Dict String Interpreter.Value} {guards : List (Expr × Bool)} :
    ∀ {s : Scope}, s.Describes env fields → s.Wf →
      (∀ g ∈ guards, Interpreter.evalExpr ctx call env g.1 = .ok (.bool g.2)) →
      (s.under guards).Describes env fields := by
  induction guards with
  | nil => exact fun h _ _ => h
  | cons g guards ih =>
      intro s h hw hguards
      exact ih (h.branch hw (hguards g List.mem_cons_self)) (hw.branch g.1 g.2)
        fun g' hg => hguards g' (List.mem_cons_of_mem _ hg)

end Scope

/-! ## Refinement -/

/-- What is promised of the guard `condition` with the value `truth` in a scope. -/
structure Refines (s : Scope) (condition : Expr) (truth : Bool) : Prop where
  /-- an environment of the scope that gives the condition this value is one of the branch -/
  sound : ∀ (ctx : Interpreter.Context)
    (call : Rule → Interpreter.Value → Interpreter.Outcome Interpreter.Value)
    (env : Interpreter.Env) (fields : Dict String Interpreter.Value), s.Describes env fields →
    Interpreter.evalExpr ctx call env condition = .ok (.bool truth) →
    (s.branch condition truth).Describes env fields
  /-- no domain is enlarged -/
  narrower : s.Narrower (s.branch condition truth)
  /-- a contradiction at any conjunct leaves the facts before the guard -/
  contradiction : ∀ before op a b after s₁,
    conjuncts condition truth = before ++ (op, a, b) :: after → s.assumeAll before = some s₁ →
    s₁.assumeComparison op a b = none → s.branch condition truth = s
  /-- every domain is canonical: one or two pieces, nonempty, in order, and with a gap between -/
  canonical : ∀ place r, (s.branch condition truth).domain place = some r → r.Wf

/-- What follows a `let` is checked without the facts before it. -/
structure Rebinds (r : Rule) (concept : Concept) (locals : Dict String Value) (n : String)
    (e : Expr) (v : Value) : Prop where
  /-- the value of the `let` and what follows it are checked in scopes without facts -/
  fresh : ∀ (chk : Check) (rule : String → M Value) (rest : List (String × Expr)),
    chk.bindings rule r concept locals ((n, e) :: rest) =
      (Fallible.mapError ("let '" ++ n ++ "': " ++ ·)
        (chk.expr rule r (Scope.new r concept locals) 0 e) >>= fun v =>
          chk.bindings rule r concept (locals.insert n v) rest)
  /-- the scope after it, below any guards, describes every environment with the new value of the
  name that takes the guards: no fact about an earlier value is among its facts -/
  sound : ∀ (ctx : Interpreter.Context)
    (call : Rule → Interpreter.Value → Interpreter.Outcome Interpreter.Value)
    (env : Interpreter.Env) (fields : Dict String Interpreter.Value) (w : Interpreter.Value),
    (Scope.new r concept locals).Models env fields → v.Mem w →
    ∀ guards : List (Expr × Bool),
      (∀ g ∈ guards, Interpreter.evalExpr ctx call (Dict.insert env n w) g.1 = .ok (.bool g.2)) →
      ((Scope.new r concept (locals.insert n v)).under guards).Describes (Dict.insert env n w)
        fields

/-- **Guard refinement is sound and canonical.** -/
theorem guard_refinement {s : Scope} (hs : s.Wf) {v : Value} (hv : v.Wf) (r : Rule) (n : String)
    (e : Expr) (condition : Expr) (truth : Bool) :
    Refines s condition truth ∧ Rebinds r s.concept s.locals n e v := by
  refine ⟨⟨fun ctx call env fields h heval => h.branch hs heval, .branch s condition truth,
    fun before op a b after s₁ hsplit hbefore hcontra =>
      Scope.branch_of_contradiction hsplit hbefore hcontra,
    fun place r hr => (hs.branch condition truth).domain hr⟩, fun _ _ _ => rfl, ?_⟩
  intro ctx call env fields w hmodels hw guards hguards
  have hwf : (Scope.new r s.concept (s.locals.insert n v)).Wf := by
    refine .new (fun m u hu => ?_) hs.bounds
    rw [Dict.lookup_insert] at hu
    split at hu
    · cases hu
      exact hv
    · exact hs.locals m u hu
  exact (hmodels.bind n hw).toDescribes.under hwf hguards

/-- A scope with a bounded field and a truth value. -/
def fieldScope : Scope where
  locals := [("y", .bool)]
  concept := ⟨"C", [⟨"x", .number, some (-5, 5)⟩], []⟩
  input := "i"

lemma fieldScope_wf : fieldScope.Wf where
  locals := by
    intro n v hv
    obtain rfl : v = .bool := by
      simp only [fieldScope, List.lookup_cons] at hv
      split at hv <;> cases hv
      rfl
    trivial
  localFacts := by simp [fieldScope]
  fieldFacts := by simp [fieldScope]
  bounds := by
    intro f hf b hb
    obtain rfl := List.mem_singleton.mp hf
    obtain rfl := Option.mem_some.mp hb
    decide

/-- The field is positive in one arm, and the truth value becomes a number. -/
theorem guard_refinement_field :
    Refines fieldScope (.binary .gt (.field (.ident "i") "x") (.number 0)) true ∧
      Rebinds ⟨"f", "i", .named "C", "out", .number, none, { value := .number 0 }, {}, none, none,
        none, none⟩ fieldScope.concept fieldScope.locals "y" (.number 3)
        (.number (.interval 3 3)) :=
  guard_refinement (v := .number (.interval 3 3)) fieldScope_wf (singleton_wf 3) _ _ _ _ _

end Verbosec.NumericBounds
