import Verbosec.Interpreter.Eval
import Verbosec.NumericBounds.NativeOpt
import Mathlib.Data.Finset.Max

/-!
# The slots of a strict numeric rule

* `Slots` - the allocator: the free slots, and how many there are.
* `Plan` - the last uses of the `let`s of a rule.
* `Instr`, `run` - the slot program: loads and stores of slots, scalar operators on frame words, and
  jumps forward.
* `Emit`, `expr`, `numericRule` - the emission, with the calls expanded in place.

The state of the emission also remembers the slots of the live locals of every open rule, and for
each of its steps the slots that are held then and those that are read or written. Of the
expressions the admitted ones are modelled; the emission of another one is refused.

Source: `native/bounded.rs`; `native/bounded/liveness.rs`; `native.rs`, `emit_eval_expr` on operands
that are names. The types of the locals, which no numeric rule looks at, are left out; so is the
stack that a scalar operator uses for itself.
-/

namespace Verbosec.Native.NumericSlots

open Verbosec.Lib

/-- How the emission stops: with an error of the back end, with the whole compiler, or for want of
fuel. -/
inductive Stop where
  | error (message : String)
  | panic
  | outOfFuel
  deriving DecidableEq, Repr

/-! ## Slots -/

/-- Source: `native/bounded/liveness.rs`, `Slots` -/
structure Slots where
  free : Finset Nat
  count : Nat
  deriving DecidableEq

/-- Source: `native/bounded/liveness.rs`, `Slots::allocate` -/
def Slots.allocate (s : Slots) : Nat × Slots :=
  if h : s.free.Nonempty then (s.free.min' h, { s with free := s.free.erase (s.free.min' h) })
  else (s.count, { s with count := s.count + 1 })

/-- Source: `native/bounded/liveness.rs`, `Slots::release`, with its assertions -/
def Slots.release (s : Slots) (slot : Nat) : Except Stop Slots :=
  if slot < s.count ∧ slot ∉ s.free then .ok { s with free := insert slot s.free }
  else .error .panic

/-! ## Last uses -/

/-- The names that an expression reads, with those inside the arguments of its calls. Source:
`native/bounded/liveness.rs`, `uses` -/
def identsOf : Expr → List String :=
  Expr.collect fun
    | .ident n => [n]
    | _ => []

/-- The last uses after an expression. Source: `native/bounded/liveness.rs`, `uses` -/
def markUses (scope : Dict String Nat) (at_ : Nat) (last : Nat → Option Nat) (e : Expr) :
    Nat → Option Nat :=
  (identsOf e).foldl (fun last n =>
    match scope.lookup n with
    | some d => Function.update last d (some at_)
    | none => last) last

/-- The last uses after the `let`s from one on, and after the value. Source:
`native/bounded/liveness.rs`, `Plan::for_rule` -/
def lastUses (value : Expr) :
    List (String × Expr) → Nat → Dict String Nat → (Nat → Option Nat) → Nat → Option Nat
  | [], i, scope, last => markUses scope i last value
  | (name, e) :: rest, i, scope, last =>
      lastUses value rest (i + 1) (scope.insert name i) (markUses scope i last e)

/-- Source: `native/bounded/liveness.rs`, `Plan::for_rule`, `last` -/
def Plan (r : Rule) : Nat → Option Nat :=
  lastUses r.logic.value r.logic.bindings 0 [] fun _ => none

/-- The definitions that die after an expression, among the first `n`. Source:
`native/bounded/liveness.rs`, `Plan::releases` -/
def releases (last : Nat → Option Nat) (n end_ : Nat) : List Nat :=
  (List.range n).filter fun d => last d = some end_

/-! ## The slot program -/

/-- A word of the frame. -/
inductive Place where
  | slot (index : Nat)
  | field (name : String)
  deriving DecidableEq, Repr

/-- The scalar operators on one word. -/
inductive Unary where
  | neg
  | not
  | abs
  deriving DecidableEq, Repr

/-- The scalar operators on two words. -/
inductive Binary where
  | op (op : BinOp)
  | min
  | max
  deriving DecidableEq, Repr

/-- An instruction of the slot program. The result of an operator is in the register `rax`. -/
inductive Instr where
  | mov (n : Int64)
  | load (place : Place)
  | store (slot : Nat)
  | unary (op : Unary) (place : Place)
  | binary (op : Binary) (left right : Place)
  /-- over the next instructions, where `rax` is zero -/
  | jumpZero (skip : Nat)
  /-- over the next instructions, where `rax` is not zero -/
  | jumpNotZero (skip : Nat)
  | jump (skip : Nat)
  deriving DecidableEq, Repr

/-- The slots that an instruction reads. -/
def Instr.reads : Instr → List Nat
  | .load (.slot i) => [i]
  | .unary _ (.slot i) => [i]
  | .binary _ left right => [left, right].filterMap fun
      | .slot i => some i
      | .field _ => none
  | _ => []

/-- The slots that an instruction writes. -/
def Instr.writes : Instr → List Nat
  | .store i => [i]
  | _ => []

/-- The register and the frame. -/
structure Machine where
  rax : Int64
  slots : Nat → Int64
  fields : String → Int64

/-- The word at a place. -/
def Machine.read (m : Machine) : Place → Int64
  | .slot i => m.slots i
  | .field n => m.fields n

/-- A truth value in a register. -/
def bit (b : Bool) : Int64 := if b then 1 else 0

/-- Source: `native.rs`, `emit_eval_expr`, the arms of `Neg`, `Not` and `Abs` -/
def Unary.apply : Unary → Int64 → Int64
  | .neg, x => -x
  | .not, x => x ^^^ 1
  | .abs, x => x.abs

/-- The operator; a division traps where the quotient is not a word. Source: `native.rs`,
`emit_eval_expr`, the general case of `Binary`, and the arms of `Min` and `Max` -/
def Binary.apply : Binary → Int64 → Int64 → Option Int64
  | .op .add, x, y => some (x + y)
  | .op .sub, x, y => some (x - y)
  | .op .mul, x, y => some (x * y)
  | .op .div, x, y => checkedDiv x y
  | .op .mod, x, y => checkedRem x y
  | .op .eq, x, y => some (bit (x = y))
  | .op .notEq, x, y => some (bit (x ≠ y))
  | .op .gt, x, y => some (bit (y < x))
  | .op .lt, x, y => some (bit (x < y))
  | .op .gtEq, x, y => some (bit (y ≤ x))
  | .op .ltEq, x, y => some (bit (x ≤ y))
  | .op .and, _, _ | .op .or, _, _ => none
  | .min, x, y => some (if x < y then x else y)
  | .max, x, y => some (if y < x then x else y)

/-- The run of a slot program to its end. A jump leaves the program only at its end. -/
def run : List Instr → Machine → Option Machine
  | [], m => some m
  | .mov n :: code, m => run code { m with rax := n }
  | .load p :: code, m => run code { m with rax := m.read p }
  | .store i :: code, m => run code { m with slots := Function.update m.slots i m.rax }
  | .unary op p :: code, m => run code { m with rax := op.apply (m.read p) }
  | .binary op p q :: code, m =>
      match op.apply (m.read p) (m.read q) with
      | none => none
      | some v => run code { m with rax := v }
  | .jumpZero n :: code, m =>
      if m.rax = 0 then if n ≤ code.length then run (code.drop n) m else none else run code m
  | .jumpNotZero n :: code, m =>
      if m.rax = 0 then run code m else if n ≤ code.length then run (code.drop n) m else none
  | .jump n :: code, m => if n ≤ code.length then run (code.drop n) m else none
termination_by code => code.length
decreasing_by all_goals simp only [List.length_drop, List.length_cons]; omega

/-! ## The emission -/

/-- A step of the emission: the slots that are held then, and those that are read and written. -/
structure Point where
  held : List Nat
  reads : List Nat
  writes : List Nat
  deriving DecidableEq, Repr

/-- Source: `native/bounded.rs`, `Emit`. `locals` has the slots of the `slots` vectors of all the
open `numeric_rule`s; `points` has the steps so far -/
structure Emit where
  code : List Instr := []
  slots : Slots := ⟨∅, 0⟩
  temporaries : List Nat := []
  locals : List Nat := []
  points : List Point := []

/-- The slots of the live locals and of the pending temporaries. -/
def Emit.held (s : Emit) : List Nat := s.locals ++ s.temporaries

/-- An instruction is emitted. -/
def Emit.emit (s : Emit) (i : Instr) : Emit :=
  { s with
    code := s.code ++ [i]
    points := s.points ++ [⟨s.held, i.reads, i.writes⟩] }

/-- Source: `native/bounded.rs`, `numeric_local`; `limit` is the length of `slots` -/
def numericLocal (limit : Nat) (s : Emit) : Except Stop (Nat × Emit) :=
  let (index, slots) := s.slots.allocate
  if limit ≤ index then .error (.error "strict overflow frame estimate exhausted")
  else .ok (index, { s with slots := slots }.emit (.store index))

/-- Source: `native/bounded.rs`, `save` -/
def save (limit : Nat) (s : Emit) : Except Stop (Place × Emit) := do
  let (index, s) ← numericLocal limit s
  .ok (.slot index, { s with temporaries := s.temporaries ++ [index] })

/-- Temporaries are released. -/
def releaseAll : List Nat → Slots → Except Stop Slots
  | [], slots => .ok slots
  | i :: rest, slots => do releaseAll rest (← slots.release i)

/-- The temporaries from a mark on are released. Source: `native/bounded.rs`, `expr` -/
def drain (mark : Nat) (s : Emit) : Except Stop Emit := do
  let slots ← releaseAll (s.temporaries.drop mark) s.slots
  .ok { s with slots := slots, temporaries := s.temporaries.take mark }

/-- The key that a name is looked up under first. Source: `native.rs`, `emit_eval_expr`,
`bind_key` -/
def bindKey (name : String) : String := "__bind_" ++ name

/-- The word that the scalar emitter reads for an operand: a field with the key of its synthetic
name comes first. Source: `native/bounded.rs`, `scalar`; `native.rs`, `emit_eval_expr`, `Ident` -/
def operandPlace (fields : List String) (i : Nat) (place : Place) : Place :=
  if bindKey ("__bounds_" ++ toString i) ∈ fields then
    .field (bindKey ("__bounds_" ++ toString i))
  else place

/-- The word of an operand that is borrowed. Source: `native/bounded.rs`, `expr_inner`,
`borrowed` -/
def borrow (fields : List String) (env : Dict String Nat) : Expr → Option Place
  | .ident n => (env.lookup n).map .slot
  | .field _ n => if n ∈ fields then some (.field n) else none
  | _ => none

/-- An operand: borrowed, or evaluated into a slot. Source: `native/bounded.rs`, `expr_inner`, the
loop over the children -/
def operand (limit : Nat) (borrowed : Option Place) (emitted : Emit → Except Stop Emit) (s : Emit) :
    Except Stop (Place × Emit) :=
  match borrowed with
  | some place => .ok (place, s)
  | none => do save limit (← emitted s)

/-- What the emission of a numeric rule needs. -/
structure Context where
  /-- the number of slots that the frame estimate allows -/
  limit : Nat
  /-- the fields of the input -/
  fields : List String
  /-- the rules -/
  rules : Dict String Rule

/-- A conditional: `code` is emitted behind a jump over it. The jump is patched when the code is
there. Source: `native/bounded.rs`, `jump` and `patch` -/
def patched (jump : Nat → Instr) (emitted : Emit → Except Stop Emit) (s : Emit) :
    Except Stop Emit := do
  let behind ← emitted (s.emit (jump 0))
  let skip := behind.code.length - (s.code.length + 1)
  .ok { behind with code := behind.code.set s.code.length (jump skip) }

/-- The code of an expression. Source: `native/bounded.rs`, `expr` and `expr_inner` -/
def expr (ctx : Context) (rule : Rule → Emit → Except Stop Emit) (input : String)
    (env : Dict String Nat) : Expr → Emit → Except Stop Emit
  | .number n, s => .ok (s.emit (.mov n))
  | .ident n, s =>
      match env.lookup n with
      | some i => .ok (s.emit (.load (.slot i)))
      | none =>
          if n = input then .error (.error "bare input binding not supported in expressions")
          else if bindKey n ∈ ctx.fields then .ok (s.emit (.load (.field (bindKey n))))
          else if n ∈ ctx.fields then .ok (s.emit (.load (.field n)))
          else .error (.error ("unresolved identifier '" ++ n ++ "' in native codegen"))
  | .field _ n, s =>
      if n ∈ ctx.fields then .ok (s.emit (.load (.field n)))
      else .error (.error ("unknown checked input field '" ++ n ++ "'"))
  | .call n _, s =>
      match ctx.rules.lookup n with
      | none => .error .panic
      | some r => rule r s
  | .ite c a b, s => do
      let s₁ ← expr ctx rule input env c s
      let s₂ ← patched .jumpZero (fun s => do
        let s ← expr ctx rule input env a s
        .ok (s.emit (.jump 0))) s₁
      let s₃ ← expr ctx rule input env b s₂
      .ok { s₃ with
        code := s₃.code.set (s₂.code.length - 1) (.jump (s₃.code.length - s₂.code.length)) }
  | .not a, s => do
      let (p, s') ← operand ctx.limit (borrow ctx.fields env a) (expr ctx rule input env a) s
      drain s.temporaries.length (s'.emit (.unary .not (operandPlace ctx.fields 0 p)))
  | .neg a, s => do
      let (p, s') ← operand ctx.limit (borrow ctx.fields env a) (expr ctx rule input env a) s
      drain s.temporaries.length (s'.emit (.unary .neg (operandPlace ctx.fields 0 p)))
  | .abs a, s => do
      let (p, s') ← operand ctx.limit (borrow ctx.fields env a) (expr ctx rule input env a) s
      drain s.temporaries.length (s'.emit (.unary .abs (operandPlace ctx.fields 0 p)))
  | .min a b, s => do
      let (p, s₁) ← operand ctx.limit (borrow ctx.fields env a) (expr ctx rule input env a) s
      let (q, s₂) ← operand ctx.limit (borrow ctx.fields env b) (expr ctx rule input env b) s₁
      drain s.temporaries.length
        (s₂.emit (.binary .min (operandPlace ctx.fields 0 p) (operandPlace ctx.fields 1 q)))
  | .max a b, s => do
      let (p, s₁) ← operand ctx.limit (borrow ctx.fields env a) (expr ctx rule input env a) s
      let (q, s₂) ← operand ctx.limit (borrow ctx.fields env b) (expr ctx rule input env b) s₁
      drain s.temporaries.length
        (s₂.emit (.binary .max (operandPlace ctx.fields 0 p) (operandPlace ctx.fields 1 q)))
  | .binary op a b, s =>
      match op, a, b with
      | .eq, .number m, .number n => .ok (s.emit (.mov (bit (m = n))))
      | .and, a, b => do
          patched .jumpZero (expr ctx rule input env b) (← expr ctx rule input env a s)
      | .or, a, b => do
          patched .jumpNotZero (expr ctx rule input env b) (← expr ctx rule input env a s)
      | op, a, b => do
          let (p, s₁) ← operand ctx.limit (borrow ctx.fields env a) (expr ctx rule input env a) s
          let (q, s₂) ← operand ctx.limit (borrow ctx.fields env b) (expr ctx rule input env b) s₁
          drain s.temporaries.length
            (s₂.emit (.binary (.op op) (operandPlace ctx.fields 0 p) (operandPlace ctx.fields 1 q)))
  | _, _ => .error (.error "unsupported bounded-result lowering")

/-- The locals that die are released, and taken out of the vector. Source: `native/bounded.rs`,
`numeric_rule`, the loops over `plan.releases` -/
def releaseLocals : List Nat → (Nat → Option Nat) → Emit →
    Except Stop ((Nat → Option Nat) × Emit)
  | [], slots, s => .ok (slots, s)
  | d :: ds, slots, s =>
      match slots d with
      | none => .error .panic
      | some i => do
          let free ← s.slots.release i
          releaseLocals ds (Function.update slots d none)
            { s with slots := free, locals := s.locals.erase i }

/-- The code of the `let`s of a rule from one on, and of its value. Source: `native/bounded.rs`,
`numeric_rule`, with its assertion at the end -/
def numericBindings (ctx : Context) (rule : Rule → Emit → Except Stop Emit) (r : Rule) :
    List (String × Expr) → Nat → (Nat → Option Nat) → Dict String Nat → Emit → Except Stop Emit
  | [], i, slots, env, s => do
      let s ← expr ctx rule r.inputName env r.logic.value s
      let (slots, s) ← releaseLocals (releases (Plan r) r.logic.bindings.length i) slots s
      if (List.range r.logic.bindings.length).all fun d => (slots d).isNone then .ok s
      else .error .panic
  | (name, e) :: rest, i, slots, env, s => do
      let s ← expr ctx rule r.inputName env e s
      let (slots, s) ← releaseLocals (releases (Plan r) r.logic.bindings.length i) slots s
      if (Plan r i).isSome then
        let (index, s) ← numericLocal ctx.limit s
        numericBindings ctx rule r rest (i + 1) (Function.update slots i (some index))
          (env.insert name index) { s with locals := s.locals ++ [index] }
      else numericBindings ctx rule r rest (i + 1) slots (env.erase name) s

/-- The code of a rule, with the calls expanded in place. Source: `native/bounded.rs`,
`numeric_rule` -/
def numericRule (ctx : Context) : Nat → Rule → Emit → Except Stop Emit
  | 0, _, _ => .error .outOfFuel
  | fuel + 1, r, s =>
      numericBindings ctx (numericRule ctx fuel) r r.logic.bindings 0 (fun _ => none) [] s

end Verbosec.Native.NumericSlots
