import Verbosec.NumericBounds.Operations

/-!
# The native lowering of accepted rules

* `Fact` - what the lowering knows of a value: an interval set, a truth value that may be known, or
  nothing; `Fact.constant` is the expression that a known value is replaced by.
* `Fold.expr` - a lowered expression and the fact about it. Known values become constants, and a
  conditional with a known guard becomes the arm that is taken.
* `Fold.lets` - the `let`s of a rule, lowered in order; the constant ones are dropped.
* `lower` - the program with its active rules lowered.
* `Fact.Mem` - the runtime values a fact allows; each operation on facts allows the results of the
  runtime operation.

Source: `numeric_bounds/native_opt.rs`.
-/

namespace Verbosec.NumericBounds

open Verbosec.Lib

/-! ## Facts -/

/-- What is known of a value. Source: `numeric_bounds/native_opt.rs`, `Fact` -/
inductive Fact where
  | number (ranges : Ranges)
  | bool (value : Option Bool)
  | unknown
  deriving DecidableEq, Repr

namespace Fact

/-- The fact that an abstract value is. Source: `numeric_bounds/native_opt.rs`,
`From<Value> for Fact` -/
def ofValue : Value → Fact
  | .number ranges => number ranges
  | .bool => bool none

/-- An interval set that may not have been computed. -/
def ofRanges : Except String Ranges → Fact
  | .ok ranges => number ranges
  | .error _ => unknown

/-- The expression of a known value. There is no literal for a truth value.
Source: `numeric_bounds/native_opt.rs`, `Fact::constant` -/
def constant : Fact → Option Expr
  | number ranges =>
      if ranges.hull.1 = ranges.hull.2 then some (.number (Int64.ofInt ranges.hull.1)) else none
  | bool (some v) => some (.binary .eq (.number 0) (.number (if v then 0 else 1)))
  | _ => none

/-- The fact about either of two values. Source: `numeric_bounds/native_opt.rs`, `Fact::join` -/
def join : Fact → Fact → Fact
  | number a, number b => ofRanges (a.join b)
  | bool a, bool b => bool (if a = b then a else none)
  | _, _ => unknown

end Fact

/-- The outcome of an order test on two intervals. -/
def compareOrder (always never : Prop) [Decidable always] [Decidable never] : Option Bool :=
  if always then some true else if never then some false else none

/-- The outcome of a comparison on every pair of members of two intervals.
Source: `numeric_bounds/native_opt.rs`, `compare_interval` -/
def compareInterval (op : BinOp) (p q : Interval) : Option Bool :=
  let eq : Option Bool :=
    if p.2 < q.1 ∨ q.2 < p.1 then some false
    else if p.1 = p.2 ∧ q.1 = q.2 then some (p.1 = q.1)
    else none
  match op with
  | .eq => eq
  | .notEq => eq.map (!·)
  | .lt => compareOrder (p.2 < q.1) (q.2 ≤ p.1)
  | .ltEq => compareOrder (p.2 ≤ q.1) (q.2 < p.1)
  | .gt => compareOrder (q.2 < p.1) (p.2 ≤ q.1)
  | .gtEq => compareOrder (q.2 ≤ p.1) (p.2 < q.1)
  | _ => none

/-- The common outcome over pairs of pieces, given the outcome so far. -/
def compareAll (op : BinOp) : Option Bool → List (Interval × Interval) → Option Bool
  | result, [] => result
  | result, (p, q) :: rest =>
      match compareInterval op p q with
      | none => none
      | some decision =>
          if result.any (· ≠ decision) then none else compareAll op (some decision) rest

/-- The outcome of a comparison on every pair of members of two sets.
Source: `numeric_bounds/native_opt.rs`, `compare` -/
def compare (op : BinOp) (left right : Ranges) : Option Bool :=
  compareAll op none (left.pieces.product right.pieces)

/-- The exact remainder of two constants. Source: `numeric_bounds/native_opt.rs`, `binary` -/
def remainderFact (a c : Int) : Fact :=
  if c = 0 ∨ a = minI64 ∧ c = -1 then .unknown else .number (.interval (a.tmod c) (a.tmod c))

/-- The fact about a binary operator. Source: `numeric_bounds/native_opt.rs`, `binary` -/
def binaryFact (op : BinOp) : Fact → Fact → Fact
  | .number left, .number right =>
      match op with
      | .eq | .notEq | .lt | .ltEq | .gt | .gtEq => .bool (compare op left right)
      | _ =>
          if op = .mod ∧ left.hull.1 = left.hull.2 ∧ right.hull.1 = right.hull.2 then
            remainderFact left.hull.1 right.hull.1
          else .ofRanges (left.arithmetic op right)
  | .bool a, .bool b =>
      .bool (match op with
        | .eq => a.bind fun a => b.map fun b => a == b
        | .notEq => a.bind fun a => b.map fun b => a != b
        | .and =>
            if a = some false ∨ b = some false then some false
            else a.bind fun a => b.map fun b => a && b
        | .or =>
            if a = some true ∨ b = some true then some true
            else a.bind fun a => b.map fun b => a || b
        | _ => none)
  | _, _ => .unknown

/-- The fact about a binary operator on one scalar read twice.
Source: `numeric_bounds/native_opt.rs`, `repeated_binary` -/
def repeatedFact (op : BinOp) (value : Ranges) : Fact :=
  match op with
  | .eq | .ltEq | .gtEq => .bool (some true)
  | .notEq | .lt | .gt => .bool (some false)
  | _ => .ofRanges (value.repeatedArithmetic op)

/-- The fact about a binary operator on operands, `repeated` when they read one scalar.
Source: `numeric_bounds/native_opt.rs`, the `Binary` arm of `Fold::expr` -/
def operatorFact (op : BinOp) (repeated : Bool) (a b : Fact) : Fact :=
  match repeated, a, b with
  | true, .number value, .number _ => repeatedFact op value
  | _, a, b => binaryFact op a b

/-- The fact about a negated truth value. -/
def notFact : Fact → Fact
  | .bool v => .bool (v.map (!·))
  | _ => .unknown

/-- The fact about an operation on every piece of a set. -/
def mapFact (f : Interval → Except String Interval) : Fact → Fact
  | .number ranges => .ofRanges (ranges.map f)
  | _ => .unknown

/-- The fact about an operation on every pair of pieces of two sets. -/
def pairwiseFact (f : Interval → Interval → Except String Interval) : Fact → Fact → Fact
  | .number left, .number right => .ofRanges (left.pairwise right f)
  | _, _ => .unknown

/-- Negation of an interval. Source: `numeric_bounds/native_opt.rs`, the `Neg` arm of
`Fold::expr` -/
def negPiece (p : Interval) : Except String Interval :=
  if p.1 = minI64 ∨ p.2 = minI64 then .error "negation may overflow" else .ok (-p.2, -p.1)

/-- Absolute values of an interval. Source: `numeric_bounds/native_opt.rs`, the `Abs` arm of
`Fold::expr` -/
def absPiece (p : Interval) : Except String Interval :=
  if p.1 = minI64 ∨ p.2 = minI64 then .error "absolute value may overflow"
  else
    .ok (if p.1 ≤ 0 ∧ 0 ≤ p.2 then 0 else min p.1.natAbs p.2.natAbs, max p.1.natAbs p.2.natAbs)

/-! ## Lowering -/

/-- A lowered expression with the fact about it; a known value becomes its constant.
Source: `numeric_bounds/native_opt.rs`, the end of `Fold::expr` -/
def substitute (lowered : Expr) (fact : Fact) : Expr × Fact := (fact.constant.getD lowered, fact)

/-- What the lowering of a rule knows. Source: `numeric_bounds/native_opt.rs`, `Fold` -/
structure Fold where
  /-- the abstract values of the `let`s about which there is a fact -/
  values : Dict String Value := []
  /-- the `let`s with a known truth value -/
  bools : Dict String Bool := []
  /-- the facts about the active rules -/
  calls : Dict String Fact

namespace Fold

/-- A new `let`, which hides an earlier one even where nothing is known about it.
Source: `numeric_bounds/native_opt.rs`, `Fold::bind` -/
def bind (fold : Fold) (name : String) (fact : Fact) : Fold :=
  let values := fold.values.erase name
  let bools := fold.bools.erase name
  match fact with
  | .number ranges => { fold with values := values.insert name (.number ranges), bools }
  | .bool none => { fold with values := values.insert name .bool, bools }
  | .bool (some v) => { fold with values := values.insert name .bool, bools := bools.insert name v }
  | .unknown => { fold with values, bools }

/-- The fact about a `let`. Source: `numeric_bounds/native_opt.rs`, the `Ident` arm of
`Fold::expr` -/
def identFact (fold : Fold) (scope : Scope) (n : String) : Fact :=
  match fold.bools.lookup n with
  | some v => .bool (some v)
  | none => (scope.localValue n).elim .unknown .ofValue

/-- A lowered expression and the fact about it. Facts about guards come from the original
condition. Source: `numeric_bounds/native_opt.rs`, `Fold::expr` -/
def expr (fold : Fold) : Scope → Expr → Expr × Fact
  | _, .number n => substitute (.number n) (.number (.interval n.toInt n.toInt))
  | scope, .ident n => substitute (.ident n) (fold.identFact scope n)
  | scope, .field base n =>
      substitute (.field base n) ((scope.field n).elim .unknown .number)
  | _, .call n args => substitute (.call n args) ((fold.calls.lookup n).getD .unknown)
  | scope, .ite c a b =>
      let (condition, fact) := fold.expr scope c
      match fact with
      | .bool (some true) => fold.expr (scope.branch c true) a
      | .bool (some false) => fold.expr (scope.branch c false) b
      | _ =>
          let (yes, yesFact) := fold.expr (scope.branch c true) a
          let (no, noFact) := fold.expr (scope.branch c false) b
          substitute (.ite condition yes no) (yesFact.join noFact)
  | scope, .binary op a b =>
      let repeated := scope.sameScalar a b
      let (a, aFact) := fold.expr scope a
      let (b, bFact) := fold.expr scope b
      substitute (.binary op a b) (operatorFact op repeated aFact bFact)
  | scope, .not a =>
      let (a, fact) := fold.expr scope a
      substitute (.not a) (notFact fact)
  | scope, .neg a =>
      let (a, fact) := fold.expr scope a
      substitute (.neg a) (mapFact negPiece fact)
  | scope, .abs a =>
      let (a, fact) := fold.expr scope a
      substitute (.abs a) (mapFact absPiece fact)
  | scope, .min a b =>
      let (a, aFact) := fold.expr scope a
      let (b, bFact) := fold.expr scope b
      substitute (.min a b) (pairwiseFact minInterval aFact bFact)
  | scope, .max a b =>
      let (a, aFact) := fold.expr scope a
      let (b, bFact) := fold.expr scope b
      substitute (.max a b) (pairwiseFact maxInterval aFact bFact)
  | _, e => substitute e .unknown

/-- The `let`s of a rule in order, a constant one without an expression, and what is known after
them. Source: `numeric_bounds/native_opt.rs`, `lower` -/
def lets (r : Rule) (c : Concept) (fold : Fold) :
    List (String × Expr) → List (String × Option Expr) × Fold
  | [] => ([], fold)
  | (n, e) :: rest =>
      let (lowered, fact) := fold.expr (Scope.new r c fold.values) e
      let (rest, after) := lets r c (fold.bind n fact) rest
      ((n, if fact.constant.isNone then some lowered else none) :: rest, after)

end Fold

/-- The `let`s that are not dropped. -/
def keptLets (lets : List (String × Option Expr)) : List (String × Expr) :=
  lets.filterMap fun l => l.2.map fun e => (l.1, e)

/-- A lowered active rule. The verifier has resolved its input concept.
Source: `numeric_bounds/native_opt.rs`, `lower` -/
def lowerRule (concepts : Dict String Concept) (calls : Dict String Fact) (r : Rule) : Rule :=
  match r.inputTy with
  | .named cname =>
      match concepts.lookup cname with
      | some c =>
          let (lets, fold) := Fold.lets r c { calls } r.logic.bindings
          let value := (fold.expr (Scope.new r c fold.values) r.logic.value).1
          { r with logic := { r.logic with bindings := keptLets lets, value } }
      | none => r
  | _ => r

/-- The facts about the active rules, checked once more in order.
Source: `numeric_bounds/native_opt.rs`, `lower` -/
def callFacts (chk : Check) :
    List String → WalkState Value → Dict String Fact → Except VerifyError (Dict String Fact)
  | [], _, calls => .ok calls
  | name :: names, s, calls =>
      match (chk.rule 128 [] name).exec s with
      | (.ok v, s') => callFacts chk names s' (calls.insert name (.ofValue v))
      | (.error message, _) => .error ⟨"rule '" ++ name ++ "' / numeric lowering", message⟩

/-- A declaration, lowered if it is an active rule. -/
def lowerItem (active : List String) (concepts : Dict String Concept) (calls : Dict String Fact) :
    Item → Item
  | .rule r => .rule (if r.name ∈ active then lowerRule concepts calls r else r)
  | i => i

/-- The program with its active rules lowered. Source: `numeric_bounds/native_opt.rs`, `lower` -/
def lower (p : Program) : Except VerifyError Program :=
  match verify p with
  | error :: _ => .error error
  | [] => do
      let calls ← callFacts (.new p) (activeRules p) {} []
      .ok { p with items := p.items.map (lowerItem (activeRules p) (Check.new p).concepts calls) }

end Verbosec.NumericBounds
