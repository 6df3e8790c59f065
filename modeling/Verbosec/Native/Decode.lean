import Mathlib.Data.List.Basic

/-!
# The length of an instruction

* `Instruction`, `Form`, `Encodes` - the encodings that the opcodes of the decoder have: legacy
  prefixes, at most one REX prefix, the opcode, an operand and an immediate.
* `decodeInstructionLength` - the decoder. It has a row for each opcode: whether an operand follows,
  and the size of the immediate.

Source: `validate_x86.rs`, `decode_instruction_length` and `modrm_length`. The forms are those of the
opcode maps of the architecture, in 64-bit mode; a near branch has a 32-bit displacement whatever
prefixes it has.
-/

namespace Verbosec.Native.Decode

/-! ## The encodings -/

/-- The legacy prefixes. -/
def legacyPrefixes : List UInt8 :=
  [0x66, 0x67, 0xF0, 0xF2, 0xF3, 0x26, 0x2E, 0x36, 0x3E, 0x64, 0x65]

/-- An opcode, with the escape bytes before it. -/
inductive Opcode where
  | one (op : UInt8)
  | two (op : UInt8)
  | three38 (op : UInt8)
  | three3A (op : UInt8)
  deriving DecidableEq, Repr

/-- The bytes of an opcode. -/
def Opcode.bytes : Opcode → List UInt8
  | one op => [op]
  | two op => [0x0F, op]
  | three38 op => [0x0F, 0x38, op]
  | three3A op => [0x0F, 0x3A, op]

/-- The immediates of the opcode maps. -/
inductive Immediate where
  | none
  /-- one byte -/
  | byte
  /-- the displacement of a near branch -/
  | branch
  /-- a word of the operand size, 32 bits for a 64-bit operand -/
  | word
  /-- a word of the operand size -/
  | wide
  /-- one byte for the first two operations of a group -/
  | testByte
  /-- a word of the operand size, 32 bits for a 64-bit operand, for the first two operations of a
  group -/
  | testWord
  deriving DecidableEq, Repr

/-- What follows an opcode. -/
structure Form where
  /-- does a ModRM byte follow? -/
  modrm : Bool
  immediate : Immediate
  deriving DecidableEq, Repr

/-- The form of a one-byte opcode, by its code. -/
def oneByteForm (op : Nat) : Option Form :=
  if op = 0x00 ∨ op = 0x01 ∨ op = 0x03 ∨ op = 0x09 ∨ op = 0x21 ∨ op = 0x29 ∨ op = 0x2B ∨
      op = 0x31 ∨ op = 0x33 ∨ op = 0x39 ∨ op = 0x3B ∨ op = 0x84 ∨ op = 0x85 ∨ op = 0x87 ∨
      op = 0x88 ∨ op = 0x89 ∨ op = 0x8A ∨ op = 0x8B ∨ op = 0x8D ∨ op = 0xD1 ∨ op = 0xD3 ∨
      op = 0xFF then some ⟨true, .none⟩
  else if op = 0x6B ∨ op = 0x80 ∨ op = 0x83 ∨ op = 0xC0 ∨ op = 0xC1 ∨ op = 0xC6 then
    some ⟨true, .byte⟩
  else if op = 0x81 ∨ op = 0xC7 then some ⟨true, .word⟩
  else if op = 0xF6 then some ⟨true, .testByte⟩
  else if op = 0xF7 then some ⟨true, .testWord⟩
  else if op = 0x05 ∨ op = 0x3D ∨ op = 0xA9 then some ⟨false, .word⟩
  else if op = 0x3C ∨ op = 0x6A ∨ op = 0xA8 ∨ op = 0xEB then some ⟨false, .byte⟩
  else if 0x70 ≤ op ∧ op ≤ 0x7F then some ⟨false, .byte⟩
  else if 0xB0 ≤ op ∧ op ≤ 0xB7 then some ⟨false, .byte⟩
  else if 0xB8 ≤ op ∧ op ≤ 0xBF then some ⟨false, .wide⟩
  else if op = 0xE8 ∨ op = 0xE9 then some ⟨false, .branch⟩
  else if 0x50 ≤ op ∧ op ≤ 0x5F then some ⟨false, .none⟩
  else if op = 0x90 ∨ op = 0x99 ∨ (0xA4 ≤ op ∧ op ≤ 0xA7) ∨ (0xAA ≤ op ∧ op ≤ 0xAE) ∨
      op = 0xC3 ∨ op = 0xFC ∨ op = 0xFD then some ⟨false, .none⟩
  else none

/-- The form of a two-byte opcode, by the code of its second byte. -/
def twoByteForm (op : Nat) : Option Form :=
  if op = 0x05 then some ⟨false, .none⟩
  else if 0x80 ≤ op ∧ op ≤ 0x8F then some ⟨false, .branch⟩
  else if (0x90 ≤ op ∧ op ≤ 0x9F) ∨ op = 0x50 ∨ op = 0x6C ∨ op = 0x6E ∨ op = 0x6F ∨ op = 0xAF ∨
      op = 0xB1 ∨ op = 0xB6 ∨ op = 0xB7 ∨ op = 0xBE ∨ op = 0xBF then some ⟨true, .none⟩
  else none

/-- The form of an opcode that the decoder has a row for. -/
def Opcode.form : Opcode → Option Form
  | one op => oneByteForm op.toNat
  | two op => twoByteForm op.toNat
  | three38 _ => some ⟨true, .none⟩
  | three3A _ => some ⟨true, .byte⟩

/-- The mode bits of a ModRM byte. -/
def modeBits (modrm : UInt8) : Nat := modrm.toNat / 64

/-- The register bits of a ModRM byte. -/
def regBits (modrm : UInt8) : Nat := modrm.toNat / 8 % 8

/-- The low three bits of a ModRM or SIB byte. -/
def baseBits (b : UInt8) : Nat := b.toNat % 8

/-- The size of the displacement of an operand. -/
def dispSize (modrm : UInt8) (sib : Option UInt8) : Nat :=
  if modeBits modrm = 1 then 1
  else if modeBits modrm = 2 then 4
  else if modeBits modrm = 0 ∧ (baseBits modrm = 5 ∨ ∃ s ∈ sib, baseBits s = 5) then 4
  else 0

/-- An operand: a ModRM byte, a SIB byte where the ModRM byte asks for one, and a displacement. -/
def IsOperand (modrm : UInt8) (rest : List UInt8) : Prop :=
  ∃ (sib : Option UInt8) (disp : List UInt8), rest = sib.toList ++ disp ∧
    (sib.isSome ↔ modeBits modrm ≠ 3 ∧ baseBits modrm = 4) ∧ disp.length = dispSize modrm sib

/-- An encoded instruction. -/
structure Instruction where
  legacy : List UInt8
  rex : Option UInt8
  opcode : Opcode
  operand : List UInt8
  immediate : List UInt8
  deriving DecidableEq, Repr

namespace Instruction

variable (x : Instruction)

/-- The bytes of an instruction. -/
def bytes : List UInt8 :=
  x.legacy ++ x.rex.toList ++ x.opcode.bytes ++ x.operand ++ x.immediate

/-- Does a REX prefix make the operand 64 bits wide? -/
def Wide : Prop := ∃ r ∈ x.rex, r.toNat / 8 % 2 = 1

instance : Decidable x.Wide := by
  unfold Wide
  infer_instance

/-- Is there an operand-size prefix? -/
def Short : Prop := (0x66 : UInt8) ∈ x.legacy

instance : Decidable x.Short := inferInstanceAs (Decidable (_ ∈ _))

/-- The operation of a group. -/
def group : Nat := (x.operand.head?.map regBits).getD 0

/-- The size of a word of the operand size, 32 bits for a 64-bit operand. The wide operand prevails
over the prefix. -/
def wordSize : Nat := if x.Short ∧ ¬ x.Wide then 2 else 4

/-- The size of an immediate. -/
def immediateSize : Immediate → Nat
  | .none => 0
  | .byte => 1
  | .branch => 4
  | .word => x.wordSize
  | .wide => if x.Wide then 8 else x.wordSize
  | .testByte => if x.group < 2 then 1 else 0
  | .testWord => if x.group < 2 then x.wordSize else 0

/-- The instruction is a complete encoding of an opcode that the decoder has a row for. -/
structure Encodes : Prop where
  legacy : ∀ b ∈ x.legacy, b ∈ legacyPrefixes
  rex : ∀ r ∈ x.rex, 0x40 ≤ r.toNat ∧ r.toNat ≤ 0x4F
  form : ∃ form, x.opcode.form = some form ∧
    (if form.modrm then ∃ modrm rest, x.operand = modrm :: rest ∧ IsOperand modrm rest
      else x.operand = []) ∧
    x.immediate.length = x.immediateSize form.immediate

end Instruction

/-! ## The decoder -/

/-- A prefix that the decoder skips. Source: `validate_x86.rs`, `decode_instruction_length`, the loop
over the legacy prefixes -/
def isLegacy (b : UInt8) : Bool :=
  b = 0x66 || b = 0xF2 || b = 0xF3 || b = 0x26 || b = 0x2E || b = 0x36 || b = 0x3E || b = 0x64 ||
    b = 0x65 || b = 0xF0

/-- The bytes behind the legacy prefixes, their number, and whether `66` is among them. Source:
`validate_x86.rs`, `decode_instruction_length`, the loop over the legacy prefixes -/
def skipLegacy : List UInt8 → List UInt8 × Nat × Bool
  | [] => ([], 0, false)
  | b :: bytes =>
      if isLegacy b then
        let (rest, n, has66) := skipLegacy bytes
        (rest, n + 1, has66 || b = 0x66)
      else (b :: bytes, 0, false)

/-- The length of an operand from its ModRM byte on. Source: `validate_x86.rs`, `modrm_length` -/
def modrmLength : List UInt8 → Option Nat
  | [] => none
  | modrm :: rest =>
      let md := modrm.toNat / 64 % 4
      let rm := modrm.toNat % 8
      let len := 1 + if md ≠ 3 ∧ rm = 4 then 1 else 0
      match md with
      | 0 =>
          if rm = 5 then some (len + 4)
          else if rm = 4 then
            match rest with
            | sib :: _ => some (if sib.toNat % 8 = 5 then len + 4 else len)
            | [] => some len
          else some len
      | 1 => some (len + 1)
      | 2 => some (len + 4)
      | _ => some len

/-- A row of the decoder: does an operand follow, and how many bytes of immediate? -/
structure Row where
  modrm : Bool
  immediate : Nat
  deriving DecidableEq, Repr

/-- The length of what follows an opcode. The bytes of an immediate have to be there; those of an
operand behind its ModRM byte are not looked at. Source: `validate_x86.rs`,
`decode_instruction_length`, the bodies of the arms -/
def Row.length (row : Row) (bytes : List UInt8) : Option Nat :=
  (if row.modrm then modrmLength bytes else some 0).bind fun n =>
    if 0 < row.immediate ∧ bytes.length < n + row.immediate then none
    else some (n + row.immediate)

/-- The row of a one-byte opcode. Source: `validate_x86.rs`, `decode_instruction_length`, the match
on `opcode` -/
def oneByteRow (has66 hasRex : Bool) (op : Nat) : Option Row :=
  if op = 0x90 then some ⟨false, 0⟩
  else if op = 0x00 then some ⟨true, 0⟩
  else if op = 0x05 then some ⟨false, 4⟩
  else if op = 0xA4 ∨ op = 0xA5 ∨ op = 0xA6 ∨ op = 0xA7 ∨ op = 0xAA ∨ op = 0xAB ∨ op = 0xAC ∨
      op = 0xAD ∨ op = 0xAE then some ⟨false, 0⟩
  else if op = 0xFC ∨ op = 0xFD then some ⟨false, 0⟩
  else if op = 0xC0 then some ⟨true, 1⟩
  else if op = 0xD3 then some ⟨true, 0⟩
  else if 0x50 ≤ op ∧ op ≤ 0x57 then some ⟨false, 0⟩
  else if 0x58 ≤ op ∧ op ≤ 0x5F then some ⟨false, 0⟩
  else if op = 0xEB then some ⟨false, 1⟩
  else if 0x70 ≤ op ∧ op ≤ 0x7F then some ⟨false, 1⟩
  else if op = 0xE9 then some ⟨false, 4⟩
  else if op = 0xE8 then some ⟨false, 4⟩
  else if op = 0xC3 then some ⟨false, 0⟩
  else if op = 0xC6 then some ⟨true, 1⟩
  else if op = 0xC7 then some ⟨true, if has66 then 2 else 4⟩
  else if op = 0x01 ∨ op = 0x09 ∨ op = 0x21 ∨ op = 0x29 ∨ op = 0x31 ∨ op = 0x39 then
    some ⟨true, 0⟩
  else if op = 0x03 ∨ op = 0x2B ∨ op = 0x33 ∨ op = 0x3B ∨ op = 0x8B then some ⟨true, 0⟩
  else if op = 0x89 ∨ op = 0x87 then some ⟨true, 0⟩
  else if op = 0x8D then some ⟨true, 0⟩
  else if op = 0xF6 then some ⟨true, 1⟩
  else if op = 0xF7 then some ⟨true, 0⟩
  else if op = 0xFF then some ⟨true, 0⟩
  else if op = 0x3D then some ⟨false, 4⟩
  else if op = 0xA8 then some ⟨false, 1⟩
  else if op = 0xA9 then some ⟨false, 4⟩
  else if 0xB8 ≤ op ∧ op ≤ 0xBF then some ⟨false, if hasRex then 8 else 4⟩
  else if op = 0x6A then some ⟨false, 1⟩
  else if op = 0x83 then some ⟨true, 1⟩
  else if op = 0x81 then some ⟨true, if has66 then 2 else 4⟩
  else if op = 0xC1 then some ⟨true, 1⟩
  else if op = 0xD1 then some ⟨true, 0⟩
  else if op = 0x6B then some ⟨true, 1⟩
  else if op = 0x99 then some ⟨false, 0⟩
  else if op = 0x84 ∨ op = 0x85 then some ⟨true, 0⟩
  else if op = 0x80 then some ⟨true, 1⟩
  else if 0xB0 ≤ op ∧ op ≤ 0xB7 then some ⟨false, 1⟩
  else if op = 0x88 then some ⟨true, 0⟩
  else if op = 0x8A then some ⟨true, 0⟩
  else if op = 0x3C then some ⟨false, 1⟩
  else none

/-- The row of a two-byte opcode. Source: `validate_x86.rs`, `decode_instruction_length`, the match
on `op2` -/
def twoByteRow (op : Nat) : Option Row :=
  if 0x80 ≤ op ∧ op ≤ 0x8F then some ⟨false, 4⟩
  else if 0x90 ≤ op ∧ op ≤ 0x9F then some ⟨true, 0⟩
  else if op = 0xB6 ∨ op = 0xB7 ∨ op = 0xBE ∨ op = 0xBF then some ⟨true, 0⟩
  else if op = 0xAF ∨ op = 0xB1 then some ⟨true, 0⟩
  else if op = 0x50 then some ⟨true, 0⟩
  else if op = 0x6F then some ⟨true, 0⟩
  else if op = 0x6E ∨ op = 0x6C then some ⟨true, 0⟩
  else if op = 0x05 then some ⟨false, 0⟩
  else none

/-- The length of an opcode behind the escape byte, and of what follows it. An unknown opcode is
assumed to have an operand, where any byte follows. Source: `validate_x86.rs`,
`decode_instruction_length`, the two-byte opcodes -/
def escapedLength : List UInt8 → Option Nat
  | [] => none
  | op2 :: bytes =>
      if op2 = 0x38 ∨ op2 = 0x3A then
        match bytes with
        | [] => none
        | _ :: bytes => (modrmLength bytes).map (2 + ·)
      else
        match twoByteRow op2.toNat with
        | some row => (row.length bytes).map (1 + ·)
        | none => if bytes = [] then some 1 else (modrmLength bytes).map (1 + ·)

/-- The length of an opcode and of what follows it. Source: `validate_x86.rs`,
`decode_instruction_length`, behind the prefixes -/
def opcodeLength (has66 hasRex : Bool) : List UInt8 → Option Nat
  | [] => none
  | op :: bytes =>
      if op = 0x0F then (escapedLength bytes).map (1 + ·)
      else (oneByteRow has66 hasRex op.toNat).bind fun row => (row.length bytes).map (1 + ·)

/-- The length of the first instruction of some bytes. Source: `validate_x86.rs`,
`decode_instruction_length`, with offsets relative to `pos` -/
def firstLength (bytes : List UInt8) : Option Nat :=
  let (rest, n, has66) := skipLegacy bytes
  match rest with
  | [] => none
  | b :: after =>
      if 0x40 ≤ b.toNat ∧ b.toNat ≤ 0x4F then (opcodeLength has66 true after).map (n + 1 + ·)
      else (opcodeLength has66 false (b :: after)).map (n + ·)

/-- Source: `validate_x86.rs`, `decode_instruction_length` -/
def decodeInstructionLength (code : List UInt8) (pos : Nat) : Option Nat :=
  if code.length ≤ pos then none else firstLength (code.drop pos)

end Verbosec.Native.Decode
