import Verbosec.Native.Offsets

/-!
# Slots of names in a fold

* `FoldLoop` - the bindings of a fold over the collection of a record: the scalars, the `let`s, the
  accumulator and the fields of an element.
* `FoldLoop.letPoint`, `FoldLoop.bodyPoint` - the code of a `let` and of the body, each with its
  table and its bindings.
* `FoldLoop.bodyWritten` - what the words of the frame hold when the body is run.

The fields of an element are parsed through the table, so one that is called like the accumulator
goes to the accumulator's word. What earlier elements and records left is written over, but for the
words that no load asks for.

Source: `native.rs`, `emit_fold_program`.
-/

namespace Verbosec.Native.Offsets

open Verbosec.Lib Verbosec.Interpreter

/-- The bindings of a fold with the values of one record and one element. -/
structure FoldLoop where
  /-- the name of the input -/
  inputName : String
  /-- its fields, without the collection -/
  scalars : List (String × Int64 × Value)
  /-- the `let`s, a word each -/
  lets : List (String × Int64 × Value)
  /-- the name of the element -/
  itemName : String
  /-- its fields -/
  element : List (String × Int64 × Value)
  /-- the name of the accumulator -/
  accName : String
  /-- its word and its value before this element -/
  acc : Int64 × Value
  /-- the seconds of the clock, where the rule asks for them -/
  now : Option Int64
  /-- the words of the resources -/
  blocks : Nat

namespace FoldLoop

open Loop (cellOffsets)

variable (l : FoldLoop)

/-- The cells of the scalars, at the top of the frame. Source: `scalar_offsets` -/
def scalarCells : List (String × Cell) := cellsFrom 0 l.scalars

/-- The cells of the element, below them. -/
def elementCells : List (String × Cell) := cellsFrom l.scalars.length l.element

/-- The cells of the first `k` `let`s, below the element. Source: `next_let_slot` -/
def letCells (k : Nat) : List (String × Cell) :=
  cellsFrom (l.scalars.length + l.element.length) (l.lets.take k)

/-- The first word below the `let`s. -/
def accWord : Nat := l.scalars.length + l.element.length + l.lets.length

/-- The cell of the accumulator. Source: `acc_offset` -/
def accCell : Cell := ⟨slotAt l.accWord, l.acc.1, l.acc.2⟩

/-- The cell of the clock: below the blocks and the nanoseconds. Source: `now_slot` -/
def nowCells : List (String × Cell) :=
  match l.now with
  | some n => [("now", ⟨slotAt (l.accWord + 1 + l.blocks + 1), n, .number n⟩)]
  | none => []

/-- The bindings that hold words. -/
def wordBounds (cells : List (String × Cell)) : List (String × Bound) :=
  cells.map fun c => (c.1, .word c.2)

/-- The table of a `let`. Source: `let_offsets` -/
def letOffsets (k : Nat) : List (String × Int) :=
  cellOffsets (l.letCells k) ++ (cellOffsets l.nowCells ++ cellOffsets l.scalarCells)

/-- The code after `k` `let`s. -/
def letPoint (k : Nat) : Point where
  inputName := l.inputName
  offsets := l.letOffsets k
  env := wordBounds (l.letCells k) ++ [(l.inputName, .record l.scalarCells)]

/-- The table of the body: the element, over it the accumulator and the clock, and the `let`s whose
names are free and no scalar's. Source: `body_offsets` -/
def bodyOffsets : List (String × Int) :=
  cellOffsets l.nowCells ++ ((l.accName, l.accCell.slot) :: (cellOffsets l.elementCells ++
    (cellOffsets (l.letCells l.lets.length)).filter fun b => b.1 ∉ l.scalarCells.map Prod.fst))

/-- The body, where the element takes the place of the input. Source: `interpreter.rs`,
`Expr::Fold` -/
def bodyPoint : Point where
  inputName := l.itemName
  offsets := l.bodyOffsets
  env := (l.itemName, .record l.elementCells) :: (l.accName, .word l.accCell) ::
    (wordBounds (l.letCells l.lets.length) ++ [(l.inputName, .record l.scalarCells)])

/-- Cells in their own words. -/
def own (cells : List (String × Cell)) : List (Int × Cell) := cells.map fun c => (c.2.slot, c.2)

/-- What has been stored after `k` `let`s, the newest first. -/
def letWritten (k : Nat) : List (Int × Cell) :=
  own (l.letCells k) ++ (own l.scalarCells ++ own l.nowCells)

/-- The word where a field of the element is stored. Source: `body_offsets[f.name]` -/
def elementSlot (f : String) : Int := (l.bodyOffsets.lookup f).getD 0

/-- What has been stored when the body is run, the newest first. -/
def bodyWritten : List (Int × Cell) :=
  (l.elementCells.map fun c => (l.elementSlot c.1, c.2)) ++
    ((l.accCell.slot, l.accCell) :: l.letWritten l.lets.length)

/-- All the cells, the innermost first. -/
def cells : List (String × Cell) :=
  l.elementCells ++ ((l.accName, l.accCell) :: (l.letCells l.lets.length ++
    (l.scalarCells ++ l.nowCells)))

/-- When a load of a `let` finds its binding: a field, where neither a `let` before nor the clock has
its name. -/
def LetClear (k : Nat) : Access → Prop
  | .field base field =>
    fieldKey (l.letOffsets k) base field = field ∧ field ∉ (l.letCells k).map Prod.fst ∧
      (field = "now" → l.now = none)
  | .ident name => identKey (l.letOffsets k) name = name

/-- When a load of the body finds its binding. A field: it is one of the element. An identifier: it
has not the name of a field of the element, nor that of the clock, and a `let` not that of a
scalar. -/
def BodyClear : Access → Prop
  | .field base field => fieldKey l.bodyOffsets base field = field ∧ base = l.itemName
  | .ident name =>
    identKey l.bodyOffsets name = name ∧ (name = "now" → l.now = none) ∧
      name ∉ l.elementCells.map Prod.fst ∧
        (name = l.accName ∨ name ∉ l.scalarCells.map Prod.fst)

end FoldLoop

end Verbosec.Native.Offsets
