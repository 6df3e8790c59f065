import Verbosec.Interpreter.Eval
import Verbosec.Lib.Dict
import Mathlib.Logic.Function.Basic

/-!
# Slots of names

* `Cell`, `Bound` - where a binding lives in the frame and what it holds there.
* `loadField`, `loadIdent` - how the scalar emitter finds a slot: one flat table of names.
* `Loop` - the bindings of a record loop: its input, its context, the clock and the `let`s.
  `Loop.offsets` is the table at a point of the code, `Loop.env` the bindings in force there,
  `Loop.frame` what the prologue has stored.

A `let` that holds a text has its pointer and its length in two slots and is found in another
table. The words of the `let`s are the values of their right sides.

Source: `native.rs`, `emit_record_loop_prologue` and the arms for `Field` and `Ident` of
`emit_eval_expr`.
-/

namespace Verbosec.Native.Offsets

open Verbosec.Lib Verbosec.Interpreter

/-! ## Cells -/

/-- A slot of the frame, the word stored there and the value that the word stands for. -/
structure Cell where
  /-- the displacement from `rbp` -/
  slot : Int
  /-- the stored word: a number, or the pointer or the length of a text -/
  word : Int64
  /-- the value of the binding -/
  value : Value

/-- A store into the frame, which keeps for every word whose it is. -/
def Cell.store (frame : Int → Option Cell) (c : Cell) : Int → Option Cell :=
  Function.update frame c.slot (some c)

/-- What a name is bound to. -/
inductive Bound where
  /-- a record, a cell for every field -/
  | record (cells : List (String × Cell))
  /-- a word -/
  | word (cell : Cell)
  /-- a text, with its pointer and its length -/
  | text (pointer length : Cell) (s : String)

/-- The value of a binding. -/
def Bound.value : Bound → Value
  | .record cells => .record (cells.map fun c => (c.1, c.2.value))
  | .word cell => cell.value
  | .text _ _ s => .text s

/-- The cells of a binding. -/
def Bound.cells : Bound → List Cell
  | .record cells => cells.map Prod.snd
  | .word cell => [cell]
  | .text pointer length _ => [pointer, length]

/-- The displacement of a word of the frame, counted from zero. -/
def slotAt (j : Nat) : Int := -((j : Int) + 1) * 8

/-- Fields in consecutive words, the last one first. -/
def cellsFrom (j : Nat) : List (String × Int64 × Value) → List (String × Cell)
  | [] => []
  | (f, w, v) :: fields => cellsFrom (j + 1) fields ++ [(f, ⟨slotAt j, w, v⟩)]

/-- The value of a `let`. -/
inductive LetValue where
  /-- a number -/
  | number (n : Int64)
  /-- a text, with its pointer and its length -/
  | text (pointer length : Int64) (s : String)

/-- The words of a `let`. Source: `binding_is_text` -/
def LetValue.words : LetValue → Nat
  | .number _ => 1
  | .text _ _ _ => 2

/-- A `let` from a word on. -/
def LetValue.bind (j : Nat) : LetValue → Bound
  | .number n => .word ⟨slotAt j, n, .number n⟩
  | .text p l s => .text ⟨slotAt j, p, .text s⟩ ⟨slotAt (j + 1), l, .text s⟩ s

/-- The `let`s in successive words, the last one first. -/
def letsFrom (j : Nat) : List (String × LetValue) → List (String × Bound)
  | [] => []
  | (x, v) :: rest => letsFrom (j + v.words) rest ++ [(x, v.bind j)]

/-! ## How a name is looked up -/

/-- What is loaded: a field of a name, or a name. -/
inductive Access where
  | field (base field : String)
  | ident (name : String)
  deriving DecidableEq, Repr

/-- The expression of a load. -/
def Access.expr : Access → Expr
  | .field b f => .field (.ident b) f
  | .ident x => .ident x

/-- The key of a field in the table: its base is looked at for `state` and for a record that a
`let` holds, and not otherwise. -/
def fieldKey (offsets : List (String × Int)) (base field : String) : String :=
  if base = "state" then "__state_" ++ field
  else if (offsets.lookup ("__agg_" ++ base ++ "_" ++ field)).isSome then
    "__agg_" ++ base ++ "_" ++ field
  else field

/-- The key of an identifier. -/
def identKey (offsets : List (String × Int)) (name : String) : String :=
  if (offsets.lookup ("__bind_" ++ name)).isSome then "__bind_" ++ name else name

/-- A point of the code: the name of the input, which is refused alone; the table; and the bindings
in force, the innermost first. -/
structure Point where
  inputName : String
  offsets : List (String × Int)
  env : List (String × Bound)

/-- The slot that is loaded. Source: `native.rs`, `emit_eval_expr`, `Field` and `Ident` -/
def Point.native (p : Point) : Access → Option Int
  | .field base field => p.offsets.lookup (fieldKey p.offsets base field)
  | .ident name =>
    if name = p.inputName then none else p.offsets.lookup (identKey p.offsets name)

/-- The cell of the binding that is meant. -/
def Point.meant (p : Point) : Access → Option Cell
  | .field base field =>
    match p.env.lookup base with
    | some (.record cells) => cells.lookup field
    | _ => none
  | .ident name =>
    match p.env.lookup name with
    | some (.word cell) => some cell
    | _ => none

/-- The environment of the interpreter. -/
def Point.values (p : Point) : Env := p.env.map fun b => (b.1, b.2.value)

/-- At a point of the code, where a binding is meant and a slot is loaded: the interpreter's value is
that of the binding, and the slot holds the binding exactly when the access is clear. -/
def Point.Resolves (p : Point) (held : Int → Option Cell) (clear : Access → Prop) : Prop :=
  ∀ a cell s, p.meant a = some cell → p.native a = some s →
    (∀ ctx call, evalExpr ctx call p.values a.expr = .ok cell.value) ∧
      (held s = some cell ↔ clear a)

/-! ## The record loop -/

/-- The bindings of a record loop with the values of one record. -/
structure Loop where
  /-- the name of the input -/
  inputName : String
  /-- its fields -/
  input : List (String × Int64 × Value)
  /-- the name of the context and its fields -/
  context : Option (String × List (String × Int64 × Value))
  /-- the `let`s -/
  lets : List (String × LetValue)
  /-- the seconds of the clock, where the rule asks for them -/
  now : Option Int64
  /-- the reserved words: the slots of the matches, the exit flag and the pool of arm binders -/
  reserved : Nat
  /-- the words of the resources, the connections and the entropy -/
  blocks : Nat

namespace Loop

variable (l : Loop)

/-- The fields of the context. -/
def contextFields : List (String × Int64 × Value) := (l.context.map Prod.snd).getD []

/-- The cells of the context, at the top of the frame. -/
def contextCells : List (String × Cell) := cellsFrom 0 l.contextFields

/-- The cells of the input, below them. -/
def inputCells : List (String × Cell) := cellsFrom l.contextFields.length l.input

/-- The first word of the `let`s. -/
def letBase : Nat := l.contextFields.length + l.input.length

/-- The `let`s that have been evaluated. -/
def letBounds (k : Nat) : List (String × Bound) := letsFrom l.letBase (l.lets.take k)

/-- The words of the `let`s. Source: `n_binding_slots` -/
def letWords : Nat := (l.lets.map fun x => x.2.words).sum

/-- The cell of the clock: below the reserved words, the blocks and the nanoseconds. -/
def nowCells : List (String × Cell) :=
  match l.now with
  | some n => [("now", ⟨slotAt (l.letBase + l.letWords + l.reserved + l.blocks + 1), n, .number n⟩)]
  | none => []

/-- The numbers among bound names, as the table holds them. -/
def numberOffsets (bounds : List (String × Bound)) : List (String × Int) :=
  bounds.filterMap fun b =>
    match b.2 with
    | .word cell => some (b.1, cell.slot)
    | _ => none

/-- Cells as the table holds them. -/
def cellOffsets (cells : List (String × Cell)) : List (String × Int) :=
  cells.map fun c => (c.1, c.2.slot)

/-- The table after `k` `let`s: the input, over it the context, the clock and the `let`s.
Source: `binding_offsets` -/
def offsets (k : Nat) : List (String × Int) :=
  numberOffsets (l.letBounds k) ++ (cellOffsets l.nowCells ++
    (cellOffsets l.contextCells ++ cellOffsets l.inputCells))

/-- The bindings in force after `k` `let`s. Source: `interpreter.rs`, `eval_rule_with_value` -/
def env (k : Nat) : List (String × Bound) :=
  l.letBounds k ++ ((l.context.map fun c => (c.1, Bound.record l.contextCells)).toList ++
    [(l.inputName, Bound.record l.inputCells)])

/-- The code after `k` `let`s: the next right side, or the logic. -/
def point (k : Nat) : Point := ⟨l.inputName, l.offsets k, l.env k⟩

/-- The cells that have been stored after `k` `let`s, in the order of the stores: the context, the
clock, the input and the `let`s. -/
def stored (k : Nat) : List Cell :=
  (l.contextCells.map Prod.snd).reverse ++ ((l.nowCells.map Prod.snd) ++
    ((l.inputCells.map Prod.snd).reverse ++ ((l.letBounds k).flatMap fun b => b.2.cells).reverse))

/-- The frame after `k` `let`s. -/
def frame (k : Nat) : Int → Option Cell := (l.stored k).foldl Cell.store fun _ => none

/-- The number `let`s by name. -/
def letNames (k : Nat) : List String := (numberOffsets (l.letBounds k)).map Prod.fst

/-- When a load finds its binding. A field: no number `let` before has its name, nor has the clock,
nor, for a field of the input, a field of the context; and nothing stands under the key of a record
that a `let` holds. An identifier: nothing stands under the key of an arm binder. -/
def Clear (k : Nat) : Access → Prop
  | .field base field =>
    fieldKey (l.offsets k) base field = field ∧ field ∉ l.letNames k ∧
      (field = "now" → l.now = none) ∧
      ((∀ c ∈ l.context, c.1 ≠ base) → field ∉ l.contextCells.map Prod.fst)
  | .ident name => identKey (l.offsets k) name = name

end Loop

end Verbosec.Native.Offsets
