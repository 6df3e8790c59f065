import Mathlib.Algebra.Order.Ring.Int
import Mathlib.Data.Nat.Bitwise
import Verbosec.Lib.Transition
import Verbosec.Native.Decode
import Mathlib.Data.Finset.Card

/-!
# The graph of the worker code

* `visit`, `walk`, `validateGraph` - the check of the worker code: it decodes the instruction at the
  entry, and those behind an instruction and at the target of its branch.
* `flow` - the program points of some code as a transition system.
* `Charted` - the boundaries of the instructions are the ones that the code can reach, and no call or
  return is among the instructions.

Source: `native/concurrent/emit.rs`, `validate_graph`. A displacement is added to an offset without
overflow: no code is near 2^63 bytes long.
-/

namespace Verbosec.Native.Graph

open Decode

/-! ## The walk -/

/-- What the walk knows of a byte. Source: the values 0, 1 and 2 of `visited` -/
inductive Mark where
  | unseen
  | start
  | inside
  deriving DecidableEq, Repr

/-- The state of the walk. Source: `validate_graph`, `visited` and `work`; the top of the stack is
the head of the list -/
structure Walk where
  visited : Nat → Mark
  work : List Nat

/-- A displacement of 32 bits. -/
def displacement32 (a b c d : UInt8) : Int :=
  Int.bmod (a.toNat + 2 ^ 8 * b.toNat + 2 ^ 16 * c.toNat + 2 ^ 24 * d.toNat) (2 ^ 32)

/-- The displacement of a branch. Source: `validate_graph`, `branch` -/
def branch : List UInt8 → Option Int
  | [op, n] =>
      if op.toNat = 0xEB ∨ (0x70 ≤ op.toNat ∧ op.toNat ≤ 0x7F) then some (Int.bmod n.toNat (2 ^ 8))
      else none
  | [op, a, b, c, d] => if op.toNat = 0xE9 then some (displacement32 a b c d) else none
  | [escape, op, a, b, c, d] =>
      if escape.toNat = 0x0F ∧ 0x80 ≤ op.toNat ∧ op.toNat ≤ 0x8F then
        some (displacement32 a b c d)
      else none
  | _ => none

/-- Is the next instruction not reached from an instruction? Source: `validate_graph`, the last
`matches!` -/
def jumps (ins : List UInt8) : Bool := ins.head? = some 0xE9 || ins.head? = some 0xEB

/-- Source: `validate_graph`, the first `matches!` -/
def refused (ins : List UInt8) : Bool := ins.head? = some 0xE8 || ins.head? = some 0xC3

/-- The length of the instruction at an offset inside the code. Source: `validate_graph`, `len` -/
def lengthAt (code : List UInt8) (pc : Nat) : Option Nat :=
  (decodeInstructionLength code pc).filter fun len =>
    decide (0 < len ∧ len ≤ code.length - pc)

/-- The instruction at an offset. Source: `validate_graph`, `ins` -/
def instruction (code : List UInt8) (pc len : Nat) : List UInt8 := (code.drop pc).take len

/-- The marks when an instruction has been decoded. -/
def mark (visited : Nat → Mark) (pc len : Nat) (i : Nat) : Mark :=
  if i = pc then .start
  else if pc < i ∧ i < pc + len then .inside
  else visited i

/-- The offset behind an instruction, where it is reached. -/
def fallThrough (ins : List UInt8) (next : Nat) : List Nat := if jumps ins then [] else [next]

/-- One turn of the loop, for an offset that has been taken from the stack. Source:
`validate_graph`, the body of the loop -/
def visit (code : List UInt8) (pc : Nat) (w : Walk) : Except String Walk :=
  if pc = code.length then .ok w
  else if code.length < pc ∨ w.visited pc = .inside then
    .error "invalid instruction/branch boundary"
  else if w.visited pc = .start then .ok w
  else
    match lengthAt code pc with
    | none => .error ("cannot decode instruction at " ++ toString pc)
    | some len =>
        if (List.range' (pc + 1) (len - 1)).any fun i => w.visited i ≠ .unseen then
          .error "overlapping instruction boundaries"
        else if refused (instruction code pc len) then
          .error "unexpected runtime call/return in fixed worker layout"
        else
          let next := pc + len
          let fall := fallThrough (instruction code pc len) next
          match branch (instruction code pc len) with
          | some d =>
              if (next : Int) + d < 0 ∨ (code.length : Int) < next + d then
                .error "branch outside emitted code"
              else .ok ⟨mark w.visited pc len, fall ++ ((next : Int) + d).toNat :: w.work⟩
          | none => .ok ⟨mark w.visited pc len, fall ++ w.work⟩

/-- The walk, for a number of turns. Source: `validate_graph`, the loop -/
def walk (code : List UInt8) : Nat → Walk → Option (Except String Unit)
  | 0, _ => none
  | turns + 1, w =>
      match w.work with
      | [] => some (.ok ())
      | pc :: work =>
          match visit code pc { w with work := work } with
          | .error e => some (.error e)
          | .ok w' => walk code turns w'

/-- The state that the walk starts in. -/
def Walk.first : Walk := ⟨fun _ => .unseen, [0]⟩

/-- The result of the check, where a number of turns is enough for it. Source: `validate_graph` -/
def validateGraph (turns : Nat) (code : List UInt8) : Option (Except String Unit) :=
  walk code turns Walk.first

/-! ## The program points -/

/-- The program points that follow on an instruction: the one behind it and the target of its
branch. -/
def Follows (code : List UInt8) (pc : Nat) (q : Int) : Prop :=
  ∃ len, lengthAt code pc = some len ∧
    ((jumps (instruction code pc len) = false ∧ q = pc + len) ∨
      ∃ d, branch (instruction code pc len) = some d ∧ q = pc + len + d)

/-- The program points of some code. -/
def flow (code : List UInt8) : Lib.System Int where
  init q := q = 0
  step p q := ∃ pc : Nat, p = pc ∧ Follows code pc q

/-- Is a byte a prefix? -/
def isPrefixByte (b : UInt8) : Bool := isLegacy b || (0x40 ≤ b.toNat && b.toNat ≤ 0x4F)

/-- The first byte of the opcode of the first instruction of some bytes: the one behind the
prefixes. -/
def opcodeByte (bytes : List UInt8) : Option UInt8 :=
  match (skipLegacy bytes).1 with
  | [] => none
  | b :: after => if 0x40 ≤ b.toNat ∧ b.toNat ≤ 0x4F then after.head? else some b

/-- Is the opcode at an offset that of a call or a return? -/
def CallOrReturn (code : List UInt8) (pc : Nat) : Prop :=
  opcodeByte (code.drop pc) = some 0xE8 ∨ opcodeByte (code.drop pc) = some 0xC3

/-- Is there a prefix in front of the opcode at an offset? -/
def Prefixed (code : List UInt8) (pc : Nat) : Prop :=
  ∃ b ∈ (code.drop pc).head?, isPrefixByte b = true

/-- Every point that is reached is the start of a decoded instruction or the end of the code, the
instructions do not overlap, and none of them is a call or a return. -/
structure Charted (code : List UInt8) : Prop where
  boundary : ∀ q, (flow code).Reachable q →
    ∃ pc : Nat, q = pc ∧ (pc = code.length ∨ ∃ len, lengthAt code pc = some len)
  disjoint : ∀ p q m n : Nat, (flow code).Reachable p → (flow code).Reachable q →
    lengthAt code p = some m → lengthAt code q = some n → p < q → p + m ≤ q
  call_free : ∀ p m : Nat, (flow code).Reachable p → lengthAt code p = some m →
    ¬ CallOrReturn code p

end Verbosec.Native.Graph
