import Mathlib.Data.Nat.Bitwise
import Verbosec.Lib.LinearScan
import Mathlib.Data.List.Sort
import Mathlib.Logic.Function.Basic

/-!
# Symbolic word slots and their relocation

* `Code` - a buffer with the symbolic slots that were allocated and the places where they are used.
* `Emitted`, `Code.emit` - what is appended to a buffer: a slot, the bytes of other instructions, a
  jump forward, and the loads and stores of a slot.
* `Code.layout` - the spans of the slots, their words, and the operands rewritten.
* `exec` - a run of the emitted instructions, which finds the displacement of every load and store
  in the bytes of the buffer.

The other instructions and the conditions of the jumps are functions of everything but the slots,
whose addresses do not escape. The heap and the ordered set of the source are the lists of
`Lib.Scan`.

Source: `native/bounded_text/slots.rs`; `native/bounded_text.rs`, `load` and `store`.
-/

namespace Verbosec.Native.Slots

open Verbosec.Lib

/-! ## The buffer -/

/-- A buffer of code. Source: `Code` -/
structure Code where
  /-- the bytes -/
  bytes : List UInt8 := []
  /-- the span of every slot as far as it is known. Source: `slots` -/
  slots : List Span := []
  /-- the uses: the slot, and where its displacement is. Source: `operands` -/
  operands : List (Int × Nat) := []

/-- Four bytes, the least significant first. Source: `i32::to_le_bytes` -/
def le32 (z : Int) : List UInt8 :=
  [0, 1, 2, 3].map fun i => UInt8.ofNat ((z % 2 ^ 32).toNat / 256 ^ i)

/-- The signed value of four bytes. Source: `i32::from_le_bytes` -/
def ofLe32 (bytes : List UInt8) : Int :=
  let n : Nat := bytes.foldr (fun b n => b.toNat + 256 * n) 0
  if n < 2 ^ 31 then n else (n : Int) - 2 ^ 32

/-- Four bytes of a buffer. -/
def word32 (bytes : List UInt8) (site : Nat) : List UInt8 := (bytes.drop site).take 4

/-- Source: `copy_from_slice` on `bytes[site..site + 4]` -/
def writeAt (bytes : List UInt8) (site : Nat) (word : List UInt8) : List UInt8 :=
  bytes.take site ++ word ++ bytes.drop (site + 4)

/-- The symbolic slot with a number. Source: the result of `Code::slot` -/
def symbolic (id : Nat) : Int := -((id : Int) + 1) * 8

/-- The number of a symbolic slot. Source: `index` -/
def index (slot : Int) (count : Nat) : Except String Nat :=
  let n := -slot
  if slot ≠ -2 ^ 31 ∧ 0 < n ∧ n % 8 = 0 ∧ (n / 8 - 1).toNat < count then .ok (n / 8 - 1).toNat
  else .error "unknown symbolic word slot"

/-- Source: `FIXED_SCRATCH` -/
def fixedScratch : Nat := 16 + 32

/-- Source: `FRAME_LIMIT` -/
def frameLimit : Nat := 2 * 1024 * 1024

/-- A new slot, numbered by those before it. Source: `Code::slot` -/
def Code.slot (c : Code) : Except String Code :=
  if (c.slots.length + 1) * 8 + fixedScratch > frameLimit then
    .error "symbolic slot analysis exceeds the 2 MiB pre-reuse limit"
  else .ok { c with slots := c.slots ++ [⟨c.bytes.length, c.bytes.length⟩] }

/-- The bytes of an instruction before its displacement. -/
def opcodeBytes (opcode : UInt8) (reg : Fin 8) : List UInt8 :=
  [0x48, opcode, (0x85 : UInt8) ||| (UInt8.ofNat reg.val <<< (3 : UInt8))]

/-- An instruction with a slot: three bytes, then the displacement.
Source: `native/bounded_text.rs`, `load` and `store` -/
def Code.operand (c : Code) (opcode : UInt8) (reg : Fin 8) (slot : Int) : Code :=
  { c with
    bytes := c.bytes ++ (opcodeBytes opcode reg ++ le32 slot)
    operands := c.operands ++ [(slot, c.bytes.length + 3)] }

/-- What is emitted into a buffer, with what it does to the registers and the memory outside the
slots. -/
inductive Emitted (σ : Type) where
  /-- a slot is allocated -/
  | slot
  /-- an instruction that uses no slot -/
  | raw (bytes : List UInt8) (run : σ → σ)
  /-- a jump over the next bytes -/
  | jump (bytes : List UInt8) (taken : σ → Bool) (skip : Nat)
  /-- `mov reg, [rbp + slot]` -/
  | load (reg : Fin 8) (slot : Int)
  /-- `mov [rbp + slot], reg` -/
  | store (reg : Fin 8) (slot : Int)

variable {σ : Type}

/-- The buffer after one emission. -/
def Code.emit (c : Code) : Emitted σ → Except String Code
  | .slot => c.slot
  | .raw bytes _ | .jump bytes _ _ => .ok { c with bytes := c.bytes ++ bytes }
  | .load reg slot => .ok (c.operand 0x8b reg slot)
  | .store reg slot => .ok (c.operand 0x89 reg slot)

/-- The buffer after some emissions. -/
def Code.emitAll (c : Code) (items : List (Emitted σ)) : Except String Code :=
  items.foldlM Code.emit c

/-! ## The layout -/

/-- The word of every slot. Source: `Layout` -/
structure Layout where
  /-- the displacement of every slot, by its number -/
  offsets : List Int
  /-- the size of the words -/
  bytes : Nat

/-- Source: `Layout::offset` -/
def Layout.offset (l : Layout) (slot : Int) : Except String Int := do
  let id ← index slot l.offsets.length
  return l.offsets.getD id 0

/-- The spans: from the allocation to the end of the last use, an input from the start, an output
beyond the end. Source: the first three loops of `Code::layout` -/
def Code.spans (c : Code) (inputs outputs : List Int) : Except String (List Span) := do
  let spans ← c.operands.foldlM (fun spans (o : Int × Nat) => do
    let id ← index o.1 c.slots.length
    if word32 c.bytes o.2 ≠ le32 o.1 then throw "invalid symbolic slot relocation"
    return spans.modify id fun s => { s with last := max s.last (o.2 + 4) }) c.slots
  let spans ← inputs.foldlM (fun spans slot => do
    let id ← index slot c.slots.length
    return spans.modify id fun s => { s with first := 0 }) spans
  outputs.foldlM (fun spans slot => do
    let id ← index slot c.slots.length
    return spans.modify id fun s => { s with last := c.bytes.length + 1 }) spans

/-- The span of a slot by its number. -/
def spanOf (spans : List Span) (id : Nat) : Span := spans.getD id ⟨0, 0⟩

/-- The slots in the order of their starts. Source: `sort_unstable_by_key` -/
def order (spans : List Span) : List Nat :=
  (List.range spans.length).mergeSort fun a b =>
    (spanOf spans a).first < (spanOf spans b).first ||
      ((spanOf spans a).first == (spanOf spans b).first && a ≤ b)

/-- Every slot with its word. Source: the scan of `Code::layout` -/
def scan (spans : List Span) : Scan Nat :=
  (order spans).foldl (Scan.allocate (spanOf spans)) Scan.empty

/-- The words of the slots; the symbolic ones where none is saved. -/
def layoutOf (spans : List Span) : Layout :=
  let s := scan spans
  { offsets :=
      if s.peak = spans.length then (List.range spans.length).map symbolic
      else (List.range spans.length).map fun id => -(((s.word.lookup id).getD 0 : Nat) : Int) * 8
    bytes := s.peak * 8 }

/-- Source: `Code::layout` -/
def Code.layout (c : Code) (inputs outputs : List Int) : Except String (Layout × Code) := do
  let spans ← c.spans inputs outputs
  let layout := layoutOf spans
  let bytes ← c.operands.foldlM (fun bytes (o : Int × Nat) => do
    let offset ← layout.offset o.1
    return writeAt bytes o.2 (le32 offset)) c.bytes
  return (layout, { c with bytes := bytes })

/-! ## Runs -/

/-- Registers within a state. -/
structure Registers (σ : Type) where
  /-- the value of a register -/
  get : Fin 8 → σ → Int64
  /-- the state with a register changed -/
  set : Fin 8 → Int64 → σ → σ

/-- A state of the machine. -/
structure Machine (σ : Type) where
  /-- the registers, the flags and the memory outside the slots -/
  state : σ
  /-- the words of the frame that have been written, by displacement -/
  frame : Int → Option Int64
  /-- the loaded values, the first one first -/
  reads : List Int64 := []

/-- The run of the instructions from `pos` on, when the next one is at `pc`. A load or a store uses
the displacement that is in the bytes; a load of a word that has not been written is stuck. -/
def exec (r : Registers σ) (bytes : List UInt8) :
    List (Emitted σ) → Nat → Nat → Machine σ → Option (Machine σ)
  | [], pos, pc, m => if pc = pos then some m else none
  | .slot :: items, pos, pc, m => exec r bytes items pos pc m
  | .raw b run :: items, pos, pc, m =>
    if pc = pos then
      exec r bytes items (pos + b.length) (pos + b.length) { m with state := run m.state }
    else exec r bytes items (pos + b.length) pc m
  | .jump b taken skip :: items, pos, pc, m =>
    if pc = pos then
      exec r bytes items (pos + b.length)
        (pos + b.length + if taken m.state then skip else 0) m
    else exec r bytes items (pos + b.length) pc m
  | .load reg _ :: items, pos, pc, m =>
    if pc = pos then
      match m.frame (ofLe32 (word32 bytes (pos + 3))) with
      | none => none
      | some v =>
        exec r bytes items (pos + 7) (pos + 7)
          { m with state := r.set reg v m.state, reads := m.reads ++ [v] }
    else exec r bytes items (pos + 7) pc m
  | .store reg _ :: items, pos, pc, m =>
    if pc = pos then
      exec r bytes items (pos + 7) (pos + 7)
        { m with
          frame := Function.update m.frame (ofLe32 (word32 bytes (pos + 3)))
            (some (r.get reg m.state)) }
    else exec r bytes items (pos + 7) pc m

/-- The slots of the uses were allocated before them. -/
def Registered : List (Emitted σ) → Nat → Prop
  | [], _ => True
  | .slot :: items, count => Registered items (count + 1)
  | .raw _ _ :: items, count | .jump _ _ _ :: items, count => Registered items count
  | .load _ slot :: items, count | .store _ slot :: items, count =>
    (∃ id < count, slot = symbolic id) ∧ Registered items count

end Verbosec.Native.Slots
