import Verbosec.NumericBounds.Guards
import Verbosec.RuleWalk

/-!
# The strict overflow verifier

* `Check.expr` - the abstract value of an expression in a scope, refused where an overflow, a zero
  divisor or an unsupported form cannot be excluded.
* `Check.ruleInner`, `Check.rule` - a rule and, by `walkRule`, the rules it calls.
* `verify` - every rule under the contract, and the declarations that may not use one.

Source: `numeric_bounds.rs`, `Check`, `verify`; `text_bounds.rs`, `service_uses_contract`.
-/

namespace Verbosec

open Verbosec.Lib

/-- Does a service use a rule under a contract? Source: `text_bounds.rs`,
`service_uses_contract` -/
def Service.usesContract (s : Service) (active : List String) : Bool :=
  s.handler ∈ active || (s.afterSets.flatMap (·.value.calls)).any (· ∈ active)

namespace NumericBounds

/-- A verification step. -/
abbrev M (α : Type) := Walk Value α

/-- The tables of the verifier; a later declaration of a name hides an earlier one.
Source: `numeric_bounds.rs`, `Check` -/
structure Check where
  /-- the rules by name -/
  rules : Dict String Rule
  /-- the concepts by name -/
  concepts : Dict String Concept

/-- The verifier of a program. Source: `numeric_bounds.rs`, `Check::new` -/
def Check.new (p : Program) : Check where
  rules := (p.rules.map fun r => (r.name, r)).reverse
  concepts := (p.concepts.map fun c => (c.name, c)).reverse

open Fallible

/-- The budget of one more expression at a nesting depth. Source: `numeric_bounds.rs`,
`Check::expr` -/
def tick (depth : Nat) : M Unit := do
  modify fun s => { s with steps := s.steps + 1 }
  if 100000 < (← get).steps then throw "analysis exceeds 100000 expressions"
  else if 256 ≤ depth then throw "analysis exceeds 256 expression levels"
  else pure ()

/-- Negation of an interval. Source: `numeric_bounds.rs`, the `Neg` arm of `Check::expr` -/
def negInterval (p : Interval) : Except String Interval :=
  if p.1 = minI64 then .error "unary arithmetic may overflow i64 at MIN" else .ok (-p.2, -p.1)

/-- Absolute values of an interval. Source: `numeric_bounds.rs`, the `Abs` arm of `Check::expr` -/
def absInterval (p : Interval) : Except String Interval :=
  if p.1 = minI64 then .error "unary arithmetic may overflow i64 at MIN"
  else
    .ok (if p.1 ≤ 0 ∧ 0 ≤ p.2 then 0 else min p.1.natAbs p.2.natAbs, max p.1.natAbs p.2.natAbs)

/-- Minima of two intervals. -/
def minInterval (p q : Interval) : Except String Interval := .ok (min p.1 q.1, min p.2 q.2)

/-- Maxima of two intervals. -/
def maxInterval (p q : Interval) : Except String Interval := .ok (max p.1 q.1, max p.2 q.2)

/-- The abstract value of two arms. Source: `numeric_bounds.rs`, the `If` arm of `Check::expr` -/
def joinValues : Value → Value → Except String Value
  | .number a, .number b => (a.join b).map .number
  | .bool, .bool => .ok .bool
  | _, _ => .error "conditional branches have different types"

/-- Arithmetic on two operands, or on one scalar read twice.
Source: `numeric_bounds.rs`, the `Binary` arm of `Check::expr` -/
def operandArithmetic (op : BinOp) (repeated : Bool) (a b : Ranges) : Except String Ranges :=
  if repeated then a.repeatedArithmetic op else a.arithmetic op b

/-- The abstract value of a binary operator on its operands.
Source: `numeric_bounds.rs`, the `Binary` arm of `Check::expr` -/
def binaryValue (op : BinOp) (repeated : Bool) (a b : Value) : Except String Value :=
  match op with
  | .and | .or => do
      a.asBoolean
      b.asBoolean
      .ok .bool
  | .gt | .gtEq | .lt | .ltEq => do
      let _ ← a.asNumber
      let _ ← b.asNumber
      .ok .bool
  | _ =>
      if (op = .eq ∨ op = .notEq) ∧ a.ty = b.ty then .ok .bool
      else do
        let a ← a.asNumber
        let b ← b.asNumber
        let ranges ← operandArithmetic op repeated a b
        .ok (.number ranges)

/-- The field that an expression reads off the unhidden input.
Source: `numeric_bounds.rs`, the `Field` arm of `Check::expr` -/
def fieldValue (scope : Scope) (base : Expr) (name : String) : Except String Value :=
  if !scope.isInput base then .error "only unshadowed numeric input fields are supported"
  else
    match scope.concept.fields.find? (·.name = name) with
    | none => .error "unknown input field"
    | some f =>
        if f.ty ≠ .number then
          .error ("field '" ++ name ++ "': only numeric field reads are supported")
        else
          match scope.field name with
          | some ranges => .ok (.number ranges)
          | none => .error "checked numeric field"

namespace Check

/-- The abstract value of an expression; `rule` checks a called rule.
Source: `numeric_bounds.rs`, `Check::expr` -/
def expr (chk : Check) (rule : String → M Value) (r : Rule) (scope : Scope) (depth : Nat) :
    Expr → M Value
  | .number n => do
      tick depth
      pure (.number (.interval n.toInt n.toInt))
  | .ident n => do
      tick depth
      match scope.localValue n with
      | some v => pure v
      | none => throw ("unknown scalar binding '" ++ n ++ "'")
  | .field base name => do
      tick depth
      fromExcept (fieldValue scope base name)
  | .ite cond a b => do
      tick depth
      let c ← mapError ("if condition: " ++ ·) (expr chk rule r scope (depth + 1) cond)
      fromExcept c.asBoolean
      let a ← mapError ("then branch: " ++ ·)
        (expr chk rule r (scope.branch cond true) (depth + 1) a)
      let b ← mapError ("else branch: " ++ ·)
        (expr chk rule r (scope.branch cond false) (depth + 1) b)
      fromExcept (joinValues a b)
  | .not v => do
      tick depth
      let v ← expr chk rule r scope (depth + 1) v
      fromExcept v.asBoolean
      pure .bool
  | .neg v => do
      tick depth
      let v ← expr chk rule r scope (depth + 1) v
      let ranges ← fromExcept v.asNumber
      let ranges ← fromExcept (ranges.map negInterval)
      pure (.number ranges)
  | .abs v => do
      tick depth
      let v ← expr chk rule r scope (depth + 1) v
      let ranges ← fromExcept v.asNumber
      let ranges ← fromExcept (ranges.map absInterval)
      pure (.number ranges)
  | .min a b => do
      tick depth
      let a ← expr chk rule r scope (depth + 1) a
      let a ← fromExcept a.asNumber
      let b ← expr chk rule r scope (depth + 1) b
      let b ← fromExcept b.asNumber
      let ranges ← fromExcept (a.pairwise b minInterval)
      pure (.number ranges)
  | .max a b => do
      tick depth
      let a ← expr chk rule r scope (depth + 1) a
      let a ← fromExcept a.asNumber
      let b ← expr chk rule r scope (depth + 1) b
      let b ← fromExcept b.asNumber
      let ranges ← fromExcept (a.pairwise b maxInterval)
      pure (.number ranges)
  | .binary op a b => do
      tick depth
      let repeated := scope.sameScalar a b
      let a ← mapError ("left operand of " ++ op.debug ++ ": " ++ ·)
        (expr chk rule r scope (depth + 1) a)
      let b ← mapError ("right operand of " ++ op.debug ++ ": " ++ ·)
        (expr chk rule r scope (depth + 1) b)
      fromExcept (binaryValue op repeated a b)
  | .call name args => do
      tick depth
      match chk.rules.lookup name with
      | none => throw "unknown callee"
      | some callee =>
          if !(args.length = 1 && args.all scope.isInput) || callee.inputTy ≠ r.inputTy then
            throw ("call '" ++ name ++ "': requires callee(input) with the same input concept; " ++
              "input bounds must be preserved")
          else rule name
  | _ => do
      tick depth
      throw ("unknown overflow analysis: unsupported expression; use pure scalar arithmetic, lets, " ++
        "conditions and same-input acyclic calls")

/-- The abstract values of the `let`s of a rule, in order, added to `env`.
Source: `numeric_bounds.rs`, `Check::rule_inner` -/
def bindings (chk : Check) (rule : String → M Value) (r : Rule) (concept : Concept) :
    Dict String Value → List (String × Expr) → M (Dict String Value)
  | env, [] => pure env
  | env, (n, e) :: rest => do
      let v ← mapError ("let '" ++ n ++ "': " ++ ·) (expr chk rule r (Scope.new r concept env) 0 e)
      bindings chk rule r concept (env.insert n v) rest

/-- The input concept of a rule, if the analysis supports it.
Source: `numeric_bounds.rs`, `Check::rule_inner` -/
def inputConcept (chk : Check) (r : Rule) : Except String Concept :=
  if r.contextName.isSome || r.contextTy.isSome then .error "context inputs are unsupported"
  else if !(r.outputTy = .number || r.outputTy = .bool) then
    .error "only number/bool outputs are supported"
  else
    match r.inputTy with
    | .named cname =>
        match chk.concepts.lookup cname with
        | none => .error "unknown input concept"
        | some c =>
            if c.variants ≠ [] ∨ c.fields = [] ∨
                c.fields.any (fun f => !(f.ty = .number || f.ty = .text)) then
              .error "input must be a nonempty flat concept of numbers and text"
            else
              match c.fields.find? fun f =>
                f.range.any fun b => b.2 < b.1 || (f.ty = .text && b.2 < 0) with
              | some f => .error ("input field '" ++ f.name ++ "' has invalid declared bounds")
              | none => .ok c
    | _ => .error "a flat input concept is required"

/-- The abstract result of a rule, given that of its body: the declared interval where one is
declared. Source: `numeric_bounds.rs`, `Check::rule_inner` -/
def contractValue (r : Rule) (value : Value) : Except String Value :=
  if value.ty ≠ r.outputTy then .error "computed output type differs from declaration"
  else
    match r.hints.bind (·.overflow) with
    | none => .ok value
    | some h =>
        if h.max < h.min then
          .error ("invalid overflow bounds: min " ++ toString h.min.toInt ++ " > max " ++
            toString h.max.toInt)
        else do
          let ranges ← value.asNumber
          let (lo, hi) := ranges.hull
          if lo < h.min.toInt ∨ h.max.toInt < hi then
            .error ("computed range " ++ showInterval lo hi ++ " exceeds declared " ++
              showInterval h.min.toInt h.max.toInt)
          else .ok (.number (.interval h.min.toInt h.max.toInt))

/-- A rule, its callees checked by `rule`. Source: `numeric_bounds.rs`, `Check::rule_inner` -/
def ruleInner (chk : Check) (rule : String → M Value) (name : String) : M Value :=
  match chk.rules.lookup name with
  | none => throw "unknown callee"
  | some r => do
      let c ← fromExcept (chk.inputConcept r)
      let env ← bindings chk rule r c [] r.logic.bindings
      let value ← mapError ("output '" ++ r.outputName ++ "': " ++ ·)
        (expr chk rule r (Scope.new r c env) 0 r.logic.value)
      fromExcept (contractValue r value)

/-- A rule and the rules it calls. Source: `numeric_bounds.rs`, `Check::rule` -/
def rule (chk : Check) : Nat → List String → String → M Value := walkRule chk.ruleInner

/-- The budget does not touch the cache. -/
lemma tick_keeps (P : String → Value → Prop) (depth : Nat) :
    Keeps (Cached P) (tick depth) fun _ => True := by
  unfold tick
  refine (steps_keeps P _).seq fun _ => Keeps.get_bind fun s _ => ?_
  exact .ite (fun _ => .throw _) fun _ => .ite (fun _ => .throw _) fun _ => .pure trivial

end Check

/-- Does a declaration use a rule under the contract where it may not?
Source: `numeric_bounds.rs`, `verify` -/
def misusesContract (active : List String) : Item → Bool
  | .service s =>
      s.usesContract active || (s.logs.flatMap (·.effect.calls)).any (· ∈ active)
  | .reaction rx =>
      rx.trigger ∈ active || (rx.effects.flatMap (·.calls)).any (· ∈ active)
  | _ => false

/-- The errors of the strict overflow verifier. Source: `numeric_bounds.rs`, `verify` -/
def verify (p : Program) : List VerifyError :=
  let active := activeRules p
  if active = [] then []
  else
    (walkErrors "hints.overflow" ((Check.new p).rule 128 []) active {}).1 ++
      (p.items.filter (misusesContract active)).map fun _ =>
        ⟨"hints.overflow",
          "service/reaction contexts are unsupported by strict overflow contracts"⟩

/-- The rules of an accepted program have no errors. -/
lemma walkErrors_of_verify {p : Program} (h : verify p = []) :
    (walkErrors "hints.overflow" ((Check.new p).rule 128 []) (activeRules p) {}).1 = [] := by
  unfold verify at h
  simp only at h
  split at h
  · rename_i hnil
    rw [hnil]
    rfl
  · exact (List.append_eq_nil_iff.mp h).1

end NumericBounds

end Verbosec
