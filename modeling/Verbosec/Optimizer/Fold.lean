import Verbosec.Interpreter.Eval

/-!
# Constant folding of arithmetic

* `Arith` - the expressions of literals, fields, the five arithmetic operators, and negation.
* `computeRange`, `canDiscardScalarEval` - when the value of an operand is not needed.
* `optimizeExpr` - the folder: wrapping sums, differences, products and negations, checked quotients
  and remainders, and the algebraic identities.
* `Arith.constants` - the fields replaced by their values.

Source: `optimizer.rs`, `optimize_expr` and `can_discard_scalar_eval`, and `verifier.rs`,
`compute_range`, on these expressions.
-/

namespace Verbosec.Optimizer

open Verbosec.Lib

/-! ## Arithmetic expressions -/

/-- The arithmetic operators. -/
inductive ArithOp where
  | add | sub | mul | div | mod
  deriving DecidableEq, Repr

/-- The operator in an expression. -/
def ArithOp.toBinOp : ArithOp → BinOp
  | add => .add
  | sub => .sub
  | mul => .mul
  | div => .div
  | mod => .mod

/-- Expressions of literals, fields, the arithmetic operators, and negation. -/
inductive Arith where
  | number (n : Int64)
  | field (base name : String)
  | binary (op : ArithOp) (left right : Arith)
  | neg (inner : Arith)
  deriving DecidableEq, Repr

/-- The expression of the program. -/
def Arith.toExpr : Arith → Expr
  | number n => .number n
  | field base name => .field (.ident base) name
  | binary op left right => .binary op.toBinOp left.toExpr right.toExpr
  | neg inner => .neg inner.toExpr

/-! ## The folder -/

/-- The bounds of the fields of the input. Source: `optimizer.rs`, `field_ranges` -/
abbrev FieldRanges := String → Option (Int64 × Int64)

section folder

variable (inputName : String) (ranges : FieldRanges)

/-- The least and the greatest of four corners. -/
def corners (f : Int64 → Int64 → Option Int64) (l r : Int64 × Int64) : Option (Int64 × Int64) := do
  let a ← f l.1 r.1
  let b ← f l.1 r.2
  let c ← f l.2 r.1
  let d ← f l.2 r.2
  some (min (min a b) (min c d), max (max a b) (max c d))

/-- The range of a remainder. Source: `verifier.rs`, `compute_range`, the arm `Mod` -/
def modRange (l r : Int64 × Int64) : Option (Int64 × Int64) :=
  if (r.1 ≤ 0 ∧ 0 ≤ r.2) ∨ (l.1.toInt = minI64 ∧ r.1 ≤ -1 ∧ -1 ≤ r.2) then none
  else
    let limit := Int64.ofInt ((max r.1.toInt.natAbs r.2.toInt.natAbs : Nat) - 1)
    some (max (min l.1 0) (-limit), min (max l.2 0) limit)

/-- The range of an operator. Source: `verifier.rs`, `compute_range`, the arm `Binary` -/
def binaryRange (op : ArithOp) (l r : Int64 × Int64) : Option (Int64 × Int64) :=
  match op with
  | .add => do some (← checkedAdd l.1 r.1, ← checkedAdd l.2 r.2)
  | .sub => do some (← checkedSub l.1 r.2, ← checkedSub l.2 r.1)
  | .mul => corners checkedMul l r
  | .mod => modRange l r
  | .div => if r.1 ≤ 0 ∧ 0 ≤ r.2 then none else corners checkedDiv l r

/-- Source: `verifier.rs`, `compute_range` -/
def computeRange : Arith → Option (Int64 × Int64)
  | .number n => some (n, n)
  | .field base name => if base = inputName then ranges name else none
  | .binary op left right => do
      let l ← computeRange left
      let r ← computeRange right
      binaryRange op l r
  | .neg inner => do
      let (lo, hi) ← computeRange inner
      some (← checkedNeg hi, ← checkedNeg lo)

/-- Source: `optimizer.rs`, `can_discard_scalar_eval` -/
def canDiscardScalarEval : Arith → Bool
  | .number _ => true
  | .field _ _ => true
  | .binary op left right =>
      canDiscardScalarEval left && canDiscardScalarEval right &&
        (computeRange inputName ranges (.binary op left right)).isSome
  | .neg inner =>
      canDiscardScalarEval inner && (computeRange inputName ranges (.neg inner)).isSome

/-- The value of an operator on two literals. Source: `optimizer.rs`, `optimize_expr`, the binding
`result` -/
def foldNumbers (op : ArithOp) (l r : Int64) : Option Int64 :=
  match op with
  | .add => some (l + r)
  | .sub => some (l - r)
  | .mul => some (l * r)
  | .div => checkedDiv l r
  | .mod => checkedRem l r

/-- An operator whose operands are not both literals. Source: `optimizer.rs`, `optimize_expr`, the
algebraic identities -/
def identities (op : ArithOp) (left right : Arith) : Arith :=
  match op with
  | .add =>
      if right = .number 0 then left
      else if left = .number 0 then right
      else .binary op left right
  | .sub => if right = .number 0 then left else .binary op left right
  | .mul =>
      if (right = .number 0 ∧ canDiscardScalarEval inputName ranges left) ∨
          (left = .number 0 ∧ canDiscardScalarEval inputName ranges right) then .number 0
      else if right = .number 1 then left
      else if left = .number 1 then right
      else .binary op left right
  | .div => if right = .number 1 then left else .binary op left right
  | .mod => .binary op left right

/-- An operator on optimized operands. Source: `optimizer.rs`, `optimize_expr`, the arm `Binary` -/
def optimizeBinary (op : ArithOp) (left right : Arith) : Arith :=
  match left, right with
  | .number l, .number r =>
      match foldNumbers op l r with
      | some n => .number n
      | none => identities inputName ranges op (.number l) (.number r)
  | left, right => identities inputName ranges op left right

/-- The negation of an optimized operand. Source: `optimizer.rs`, `optimize_expr`, the arm `Neg` -/
def optimizeNeg : Arith → Arith
  | .neg inner => inner
  | .number n => .number (-n)
  | inner => .neg inner

/-- Source: `optimizer.rs`, `optimize_expr` -/
def optimizeExpr : Arith → Arith
  | .number n => .number n
  | .field base name => .field base name
  | .binary op left right =>
      optimizeBinary inputName ranges op (optimizeExpr left) (optimizeExpr right)
  | .neg inner => optimizeNeg (optimizeExpr inner)

end folder

/-! ## Values of the fields -/

/-- The values of the fields of the records in scope. -/
abbrev Fields := List (String × List (String × Int64))

/-- The value of a field. -/
def Fields.get (values : Fields) (base name : String) : Option Int64 :=
  (values.lookup base).bind (·.lookup name)

/-- A record of numbers. -/
def recordValue (fields : List (String × Int64)) : Interpreter.Value :=
  .record (fields.map fun f => (f.1, .number f.2))

/-- The environment of an evaluation. -/
def Fields.toEnv (values : Fields) : Interpreter.Env :=
  values.map fun r => (r.1, recordValue r.2)

/-- The expression with its fields replaced by their values. -/
def Arith.constants (values : Fields) : Arith → Arith
  | number n => .number n
  | field base name => ((values.get base name).map .number).getD (.field base name)
  | binary op left right => .binary op (left.constants values) (right.constants values)
  | neg inner => .neg (inner.constants values)

end Verbosec.Optimizer
