import Mathlib.Logic.Function.Basic
import Mathlib.Logic.Relation
import Mathlib.Tactic.Positivity
import Verbosec.Lib.Bytes
import Verbosec.Lib.Word

/-!
# Machine code, from its bytes

* `Cpu`, `Flags` - registers, memory, flags.
* `Instr`, `decode` - the instructions, and the bytes that stand for them.
* `exec` - what an instruction does; an access outside of the accessible bytes has no next state.
* `Image`, `Image.step` - bytes at an address, and one step of them.
* `Steps`, `Leads` - runs, and their rules.
* `Steps.unique` - two runs out of the code end in one state.

The registers are numbered as the code numbers them.
-/

namespace Verbosec.Lib.Amd64

open Bytes

/-! ## States -/

/-- A register. -/
abbrev Reg := Fin 16

namespace Reg

abbrev rax : Reg := 0
abbrev rcx : Reg := 1
abbrev rdx : Reg := 2
abbrev rbx : Reg := 3
abbrev rsp : Reg := 4
abbrev rbp : Reg := 5
abbrev rsi : Reg := 6
abbrev rdi : Reg := 7

end Reg

/-- The flags that the conditions read. -/
structure Flags where
  carry : Bool
  zero : Bool
  sign : Bool
  overflow : Bool

/-- Registers, memory, flags, and the direction of the string instructions. -/
structure Cpu where
  regs : Reg → Nat
  mem : Nat → UInt8
  flags : Flags
  down : Bool

/-- The signed reading of a number of `bits` bits. -/
def reading (bits n : Nat) : Int := if n < 2 ^ (bits - 1) then n else n - 2 ^ bits

/-- Is the number one of `bits` bits, with a sign? -/
def fits (bits : Nat) (z : Int) : Bool := -2 ^ (bits - 1) ≤ z ∧ z < 2 ^ (bits - 1)

/-- A number as a word of `bits` bits. -/
def wrap (bits : Nat) (z : Int) : Nat := (z % 2 ^ bits).toNat

/-- The word of a register. -/
def Cpu.get (c : Cpu) (bits : Nat) (r : Reg) : Nat := c.regs r % 2 ^ bits

/-- A register with a new word. One of 32 bits clears the upper half, one of 8 bits keeps the
rest. -/
def Cpu.set (c : Cpu) (bits : Nat) (r : Reg) (v : Nat) : Cpu :=
  { c with regs := Function.update c.regs r (if bits = 8 then c.regs r / 256 * 256 + v else v) }

/-! ## Instructions -/

/-- An arithmetic instruction. -/
inductive Alu where
  | add
  | sub
  | xor
  | cmp
  deriving DecidableEq, Repr

/-- The exact number of an arithmetic instruction. -/
def Alu.exact (bits : Nat) (a b : Nat) : Alu → Int
  | .add => reading bits a + reading bits b
  | .sub | .cmp => reading bits a - reading bits b
  | .xor => reading bits (a ^^^ b)

/-- The flags of an arithmetic instruction. -/
def Alu.flags (bits : Nat) (a b : Nat) (op : Alu) : Flags where
  carry := match op with
    | .add => 2 ^ bits ≤ a + b
    | .sub | .cmp => a < b
    | .xor => false
  zero := wrap bits (op.exact bits a b) = 0
  sign := 2 ^ (bits - 1) ≤ wrap bits (op.exact bits a b)
  overflow := !fits bits (op.exact bits a b)

/-- The condition of a jump, by its number. -/
def holds (f : Flags) (cond : Nat) : Bool :=
  let base := match cond / 2 with
    | 0 => f.overflow
    | 1 => f.carry
    | 2 => f.zero
    | 3 => f.carry || f.zero
    | 4 => f.sign
    | 6 => f.sign != f.overflow
    | _ => f.zero || f.sign != f.overflow
  if cond % 2 = 0 then base else !base

/-- An instruction. -/
inductive Instr where
  | alu (op : Alu) (bits : Nat) (dst src : Reg)
  | aluImm (op : Alu) (bits : Nat) (dst : Reg) (i : Int)
  | cmpMem (base : Reg) (i : UInt8)
  | test (bits : Nat) (a b : Reg)
  | movImm (bits : Nat) (dst : Reg) (i : Int)
  | mov (dst src : Reg)
  | movzx (bits : Nat) (dst src : Reg)
  | movzxMem (bits : Nat) (dst base : Reg)
  | load (dst base : Reg) (disp : Int)
  | leaRip (dst : Reg) (disp : Int)
  | imul (dst src : Reg) (i : Int)
  | inc (r : Reg)
  | dec (r : Reg)
  | not (r : Reg)
  | neg (r : Reg)
  | set (cond : Nat) (r : Reg)
  | jcc (cond : Nat) (disp : Int)
  | jmp (disp : Int)
  | cld
  | repeCmpsb
  | repneScasb
  deriving DecidableEq, Repr

/-! ## Bytes -/

/-- A number in one byte. -/
def byteOf (z : Int) : UInt8 := UInt8.ofNat (z % 256).toNat

/-- A number in four bytes. Source: `i32::to_le_bytes` -/
def le32 (z : Int) : List UInt8 :=
  [byteOf z, byteOf (z / 2 ^ 8), byteOf (z / 2 ^ 16), byteOf (z / 2 ^ 24)]

/-- The number in a byte. -/
def int8 (b : UInt8) : Int := reading 8 b.toNat

/-- The number in four bytes. -/
def int32 (b₀ b₁ b₂ b₃ : UInt8) : Int :=
  reading 32 (b₀.toNat + 2 ^ 8 * b₁.toNat + 2 ^ 16 * b₂.toNat + 2 ^ 24 * b₃.toNat)

/-- The fields of the byte that names the operands. -/
def mode (m : UInt8) : Nat := m.toNat / 64

def field (m : UInt8) : Nat := m.toNat / 8 % 8

def operand (m : UInt8) : Nat := m.toNat % 8

/-- A register from its number and the bit of the prefix. -/
def reg (extension n : Nat) : Reg := Fin.ofNat 16 (8 * extension + n)

/-- The arithmetic instruction with a number. -/
def group (n : Nat) : Option Alu :=
  match n with
  | 0 => some .add
  | 5 => some .sub
  | 6 => some .xor
  | 7 => some .cmp
  | _ => none

/-- Is the number one of a condition that `holds` reads? The parity is left out. -/
def isCondition (n : Nat) : Bool := n / 2 ≠ 5

/-- The instruction behind a prefix: `w` for words of 64 bits, `r` and `b` for the upper registers.
The bytes with no instruction here, and those of no instruction at all, have none. -/
def decodeOp (w : Bool) (r b : Nat) (bs : List UInt8) : Option (Instr × Nat) :=
  let bits := if w then 64 else 32
  match bs with
  | 0x0F :: op :: m :: rest =>
      if op = 0xB6 then
        if mode m = 3 ∧ (w ∨ operand m < 4) then
          some (.movzx bits (reg r (field m)) (reg b (operand m)), 3)
        else if mode m = 0 ∧ operand m ≠ 4 ∧ operand m ≠ 5 then
          some (.movzxMem bits (reg r (field m)) (reg b (operand m)), 3)
        else none
      else if op.toNat / 16 = 9 ∧ mode m = 3 ∧ operand m < 4 ∧ isCondition (op.toNat % 16) then
        some (.set (op.toNat % 16) (reg b (operand m)), 3)
      else if op.toNat / 16 = 8 ∧ isCondition (op.toNat % 16) then
        match rest with
        | b₁ :: b₂ :: b₃ :: _ => some (.jcc (op.toNat % 16) (int32 m b₁ b₂ b₃), 6)
        | _ => none
      else none
  | 0x29 :: m :: _ =>
      if mode m = 3 then some (.alu .sub bits (reg b (operand m)) (reg r (field m)), 2) else none
  | 0x30 :: m :: _ =>
      if mode m = 3 ∧ operand m < 4 ∧ field m < 4 then
        some (.alu .xor 8 (reg b (operand m)) (reg r (field m)), 2)
      else none
  | 0x31 :: m :: _ =>
      if mode m = 3 then some (.alu .xor bits (reg b (operand m)) (reg r (field m)), 2) else none
  | 0x39 :: m :: _ =>
      if mode m = 3 then some (.alu .cmp bits (reg b (operand m)) (reg r (field m)), 2) else none
  | 0x6B :: m :: i :: _ =>
      if mode m = 3 ∧ w then some (.imul (reg r (field m)) (reg b (operand m)) (int8 i), 3)
      else none
  | 0x80 :: m :: i :: _ =>
      if mode m = 0 ∧ field m = 7 ∧ operand m ≠ 4 ∧ operand m ≠ 5 then
        some (.cmpMem (reg b (operand m)) i, 3)
      else none
  | 0x83 :: m :: i :: _ =>
      if mode m = 3 then
        (group (field m)).map fun op => (.aluImm op bits (reg b (operand m)) (int8 i), 3)
      else none
  | 0x84 :: m :: _ =>
      if mode m = 3 ∧ operand m < 4 ∧ field m < 4 then
        some (.test 8 (reg b (operand m)) (reg r (field m)), 2)
      else none
  | 0x89 :: m :: _ =>
      if mode m = 3 ∧ w then some (.mov (reg b (operand m)) (reg r (field m)), 2) else none
  | 0x8B :: m :: d :: rest =>
      if mode m = 1 ∧ operand m ≠ 4 ∧ w then
        some (.load (reg r (field m)) (reg b (operand m)) (int8 d), 3)
      else if mode m = 2 ∧ operand m ≠ 4 ∧ w then
        match rest with
        | b₁ :: b₂ :: b₃ :: _ =>
            some (.load (reg r (field m)) (reg b (operand m)) (int32 d b₁ b₂ b₃), 6)
        | _ => none
      else none
  | 0x8D :: m :: b₀ :: b₁ :: b₂ :: b₃ :: _ =>
      if mode m = 0 ∧ operand m = 5 ∧ w then
        some (.leaRip (reg r (field m)) (int32 b₀ b₁ b₂ b₃), 6)
      else none
  | 0xC7 :: m :: b₀ :: b₁ :: b₂ :: b₃ :: _ =>
      if mode m = 3 ∧ field m = 0 ∧ w then
        some (.movImm 64 (reg b (operand m)) (int32 b₀ b₁ b₂ b₃), 6)
      else none
  | 0xE9 :: b₀ :: b₁ :: b₂ :: b₃ :: _ => some (.jmp (int32 b₀ b₁ b₂ b₃), 5)
  | 0xEB :: d :: _ => some (.jmp (int8 d), 2)
  | 0xF7 :: m :: _ =>
      if mode m = 3 ∧ w ∧ field m = 2 then some (.not (reg b (operand m)), 2)
      else if mode m = 3 ∧ w ∧ field m = 3 then some (.neg (reg b (operand m)), 2)
      else none
  | 0xFC :: _ => some (.cld, 1)
  | 0xFF :: m :: _ =>
      if mode m = 3 ∧ w ∧ field m = 0 then some (.inc (reg b (operand m)), 2)
      else if mode m = 3 ∧ w ∧ field m = 1 then some (.dec (reg b (operand m)), 2)
      else none
  | op :: d :: _ =>
      if op.toNat / 16 = 7 ∧ isCondition (op.toNat % 16) then
        some (.jcc (op.toNat % 16) (int8 d), 2)
      else if op.toNat / 8 = 0xB0 / 8 ∧ op.toNat % 8 < 4 ∧ b = 0 then
        some (.movImm 8 (reg 0 (op.toNat % 8)) (int8 d), 2)
      else none
  | _ => none

/-- The instruction at the start of some bytes, and how many bytes it has. -/
def decode (bs : List UInt8) : Option (Instr × Nat) :=
  match bs with
  | 0xF3 :: 0xA6 :: _ => some (.repeCmpsb, 2)
  | 0xF2 :: 0xAE :: _ => some (.repneScasb, 2)
  | p :: rest =>
      if p.toNat / 16 = 4 then
        (decodeOp (p.toNat / 8 % 2 = 1) (p.toNat / 4 % 2) (p.toNat % 2) rest).map
          fun i => (i.1, i.2 + 1)
      else decodeOp false 0 0 bs
  | [] => none

/-! ## Steps -/

/-- A word with a displacement. -/
def displaced (a : Nat) (d : Int) : Nat := ((a + d) % 2 ^ 64).toNat

/-- Are `k` bytes accessible? -/
def accessible (ok : Nat → Bool) (a k : Nat) : Bool := (List.range k).all fun i => ok (a + i)

/-- The number that stands in `k` bytes, the least significant one first. -/
def loadBytes (m : Nat → UInt8) (a : Nat) : Nat → Nat
  | 0 => 0
  | k + 1 => (m a).toNat + 256 * loadBytes m (a + 1) k

/-- The next address of a string instruction. -/
def Cpu.advance (c : Cpu) (a : Nat) : Nat := displaced a (if c.down then -1 else 1)

/-- The state after an arithmetic instruction. -/
def Cpu.alu (c : Cpu) (op : Alu) (bits : Nat) (dst : Reg) (b : Nat) : Cpu :=
  let c' := { c with flags := op.flags bits (c.get bits dst) b }
  if op = .cmp then c' else c'.set bits dst (wrap bits (op.exact bits (c.get bits dst) b))

/-- The state after a comparison of two bytes, with `n` to go. -/
def Cpu.compared (c : Cpu) (n : Nat) : Cpu :=
  let si := c.get 64 .rsi
  let di := c.get 64 .rdi
  { ((c.set 64 .rsi (c.advance si)).set 64 .rdi (c.advance di)).set 64 .rcx n with
    flags := Alu.cmp.flags 8 (c.mem si).toNat (c.mem di).toNat }

/-- The state after a comparison of a byte with the low byte of `rax`, with `n` to go. -/
def Cpu.scanned (c : Cpu) (n : Nat) : Cpu :=
  let di := c.get 64 .rdi
  { (c.set 64 .rdi (c.advance di)).set 64 .rcx n with
    flags := Alu.cmp.flags 8 (c.get 8 .rax) (c.mem di).toNat }

/-- Compare bytes while they agree, at most `n` of them. -/
def repeCmpsb (ok : Nat → Bool) : Nat → Cpu → Option Cpu
  | 0, c => some c
  | n + 1, c =>
      if ok (c.get 64 .rsi) ∧ ok (c.get 64 .rdi) then
        if c.mem (c.get 64 .rsi) = c.mem (c.get 64 .rdi) then repeCmpsb ok n (c.compared n)
        else some (c.compared n)
      else none

/-- Compare bytes with the low byte of `rax` while they differ from it, at most `n` of them. -/
def repneScasb (ok : Nat → Bool) : Nat → Cpu → Option Cpu
  | 0, c => some c
  | n + 1, c =>
      if ok (c.get 64 .rdi) then
        if c.get 8 .rax = (c.mem (c.get 64 .rdi)).toNat then some (c.scanned n)
        else repneScasb ok n (c.scanned n)
      else none

/-- The position and the state behind an instruction. The flags that an instruction leaves undefined
are those of its result. -/
def exec (ok : Nat → Bool) (next : Nat) (c : Cpu) : Instr → Option (Nat × Cpu)
  | .alu op bits dst src => some (next, c.alu op bits dst (c.get bits src))
  | .aluImm op bits dst i => some (next, c.alu op bits dst (wrap bits i))
  | .cmpMem base i =>
      if ok (c.get 64 base) then
        some (next, { c with flags := Alu.cmp.flags 8 (c.mem (c.get 64 base)).toNat i.toNat })
      else none
  | .test bits a b =>
      some (next, { c with flags := Alu.xor.flags bits (c.get bits a &&& c.get bits b) 0 })
  | .movImm bits dst i => some (next, c.set bits dst (wrap bits i))
  | .mov dst src => some (next, c.set 64 dst (c.get 64 src))
  | .movzx bits dst src => some (next, c.set bits dst (c.get 8 src))
  | .movzxMem bits dst base =>
      if ok (c.get 64 base) then some (next, c.set bits dst (c.mem (c.get 64 base)).toNat) else none
  | .load dst base disp =>
      if accessible ok (displaced (c.get 64 base) disp) 8 then
        some (next, c.set 64 dst (loadBytes c.mem (displaced (c.get 64 base) disp) 8))
      else none
  | .leaRip dst disp => some (next, c.set 64 dst (displaced next disp))
  | .imul dst src i =>
      let z := reading 64 (c.get 64 src) * i
      some (next,
        { c.set 64 dst (wrap 64 z) with
          flags := ⟨!fits 64 z, wrap 64 z = 0, 2 ^ 63 ≤ wrap 64 z, !fits 64 z⟩ })
  | .inc r =>
      let c' := c.alu .add 64 r 1
      some (next, { c' with flags := { c'.flags with carry := c.flags.carry } })
  | .dec r =>
      let c' := c.alu .sub 64 r 1
      some (next, { c' with flags := { c'.flags with carry := c.flags.carry } })
  | .not r => some (next, c.set 64 r (2 ^ 64 - 1 - c.get 64 r))
  | .neg r =>
      some (next, { c.set 64 r (wrap 64 (-reading 64 (c.get 64 r))) with
        flags := Alu.sub.flags 64 0 (c.get 64 r) })
  | .set cond r => some (next, c.set 8 r (holds c.flags cond).toNat)
  | .jcc cond disp => some (if holds c.flags cond then displaced next disp else next, c)
  | .jmp disp => some (displaced next disp, c)
  | .cld => some (next, { c with down := false })
  | .repeCmpsb => (repeCmpsb ok (c.get 64 .rcx) c).map fun c' => (next, c')
  | .repneScasb => (repneScasb ok (c.get 64 .rcx) c).map fun c' => (next, c')

/-- Bytes at an address. -/
structure Image where
  base : Nat
  bytes : List UInt8

namespace Image

/-- The end of the code. -/
def stop (P : Image) : Nat := P.base + P.bytes.length

/-- The instruction at an address. -/
def fetch (P : Image) (pc : Nat) : Option (Instr × Nat) :=
  if P.base ≤ pc then decode (P.bytes.drop (pc - P.base)) else none

/-- One step. The state is the address and the rest. -/
def step (P : Image) (ok : Nat → Bool) (s : Nat × Cpu) : Option (Nat × Cpu) :=
  (P.fetch s.1).bind fun i => exec ok (s.1 + i.2) s.2 i.1

end Image

/-! ## Runs -/

/-- The states of a run. -/
def Steps (P : Image) (ok : Nat → Bool) : Nat × Cpu → Nat × Cpu → Prop :=
  Relation.ReflTransGen fun s t => P.step ok s = some t

/-- The run leads to a state that satisfies `Q`. -/
def Leads (P : Image) (ok : Nat → Bool) (s : Nat × Cpu) (Q : Nat × Cpu → Prop) : Prop :=
  ∃ t, Steps P ok s t ∧ Q t

section runs

variable {P : Image} {ok : Nat → Bool} {pc : Nat} {c : Cpu} {s t u : Nat × Cpu}
  {Q R : Nat × Cpu → Prop}

lemma Image.fetch_at (P : Image) (k : Nat) : P.fetch (P.base + k) = decode (P.bytes.drop k) := by
  rw [Image.fetch, if_pos (Nat.le_add_right _ _), Nat.add_sub_cancel_left]

/-- No instruction stands outside of the code. -/
lemma Image.step_outside (h : pc < P.base ∨ P.stop ≤ pc) : P.step ok (pc, c) = none := by
  have hfetch : P.fetch pc = none := by
    rw [Image.fetch]
    split
    · rw [List.drop_eq_nil_of_le (by rw [Image.stop] at h; omega)]
      rfl
    · rfl
  rw [Image.step, hfetch]
  rfl

/-- A run ends in one state. -/
lemma Steps.unique (hst : Steps P ok s t) (ht : P.step ok t = none) (hsu : Steps P ok s u)
    (hu : P.step ok u = none) : t = u := by
  induction hst using Relation.ReflTransGen.head_induction_on with
  | refl =>
      rcases Relation.ReflTransGen.cases_head hsu with rfl | ⟨v, hv, -⟩
      · rfl
      · cases ht.symm.trans hv
  | head hs _ ih =>
      rcases Relation.ReflTransGen.cases_head hsu with rfl | ⟨v, hv, hvu⟩
      · cases hu.symm.trans hs
      · cases hs.symm.trans hv
        exact ih hvu

lemma Leads.here (h : Q s) : Leads P ok s Q := ⟨s, .refl, h⟩

lemma Leads.mono (h : Leads P ok s Q) (hQR : ∀ t, Q t → R t) : Leads P ok s R :=
  h.imp fun t ht => ⟨ht.1, hQR t ht.2⟩

lemma Leads.trans (h : Leads P ok s Q) (hQ : ∀ t, Q t → Leads P ok t R) : Leads P ok s R := by
  obtain ⟨t, hst, ht⟩ := h
  obtain ⟨u, htu, hu⟩ := hQ t ht
  exact ⟨u, hst.trans htu, hu⟩

/-- One instruction, at an offset in the code. -/
lemma Leads.next {k n : Nat} (i : Instr) (hfetch : decode (P.bytes.drop k) = some (i, n))
    (hexec : exec ok (P.base + (k + n)) c i = some t) (h : Leads P ok t Q) :
    Leads P ok (P.base + k, c) Q := by
  obtain ⟨u, htu, hu⟩ := h
  refine ⟨u, .head ?_ htu, hu⟩
  rw [Image.step, P.fetch_at, hfetch]
  exact (congrArg (exec ok · c i) (Nat.add_assoc ..)).trans hexec

/-- A conditional jump, at an offset in the code. -/
lemma Leads.jcc {k n : Nat} {d : Int} (cond dest : Nat)
    (hfetch : decode (P.bytes.drop k) = some (.jcc cond d, n))
    (hdest : displaced (P.base + (k + n)) d = dest)
    (hyes : holds c.flags cond = true → Leads P ok (dest, c) Q)
    (hno : holds c.flags cond = false → Leads P ok (P.base + (k + n), c) Q) :
    Leads P ok (P.base + k, c) Q := by
  cases hcond : holds c.flags cond with
  | true =>
      refine .next (.jcc cond d) hfetch ?_ (hyes hcond)
      rw [exec, hcond, if_pos rfl, hdest]
  | false =>
      refine .next (.jcc cond d) hfetch ?_ (hno hcond)
      rw [exec, hcond, if_neg Bool.false_ne_true]

/-- A jump, at an offset in the code. -/
lemma Leads.jmp {k n : Nat} {d : Int} (dest : Nat)
    (hfetch : decode (P.bytes.drop k) = some (.jmp d, n))
    (hdest : displaced (P.base + (k + n)) d = dest) (h : Leads P ok (dest, c) Q) :
    Leads P ok (P.base + k, c) Q :=
  .next (.jmp d) hfetch (by rw [exec, hdest]) h

/-- A step of the code from an offset on is a step of the code. -/
lemma Image.step_suffix {k : Nat} {bytes : List UInt8} (hbytes : P.bytes.drop k = bytes)
    (h : P.base + k ≤ s.1) : Image.step ⟨P.base + k, bytes⟩ ok s = P.step ok s := by
  have hle : P.base ≤ s.1 := by omega
  have hoffset : k + (s.1 - (P.base + k)) = s.1 - P.base := by omega
  rw [Image.step, Image.step, Image.fetch, Image.fetch, if_pos h, if_pos hle, ← hbytes,
    List.drop_drop, hoffset]

/-- A run of the code from an offset on is a run of the code. -/
lemma Leads.suffix {k : Nat} {bytes : List UInt8} (hbytes : P.bytes.drop k = bytes)
    (h : Leads ⟨P.base + k, bytes⟩ ok s Q) : Leads P ok s Q := by
  obtain ⟨t, hst, ht⟩ := h
  refine ⟨t, Relation.ReflTransGen.mono (fun u v huv => ?_) s t hst, ht⟩
  by_cases hle : P.base + k ≤ u.1
  · rwa [← Image.step_suffix hbytes hle]
  · rw [Image.step_outside (.inl (Nat.lt_of_not_le hle))] at huv
    cases huv

end runs

/-! ## Registers -/

section registers

variable (c : Cpu) {bits b v : Nat} {r s : Reg} {op : Alu}

@[simp] lemma Cpu.mem_set : (c.set bits r v).mem = c.mem := rfl

@[simp] lemma Cpu.flags_set : (c.set bits r v).flags = c.flags := rfl

@[simp] lemma Cpu.down_set : (c.set bits r v).down = c.down := rfl

lemma Cpu.get_set_of_ne (h : s ≠ r) : (c.set bits r v).get b s = c.get b s :=
  congrArg (· % 2 ^ b) (Function.update_of_ne h _ _)

lemma Cpu.get_set (h : bits ≠ 8) : (c.set bits r v).get b r = v % 2 ^ b := by
  have hself : (c.set bits r v).regs r = if bits = 8 then c.regs r / 256 * 256 + v else v :=
    Function.update_self r _ c.regs
  rw [Cpu.get, hself, if_neg h]

lemma Cpu.get_set_low (h : v < 256) : (c.set 8 r v).get 8 r = v := by
  have hself : (c.set 8 r v).regs r = c.regs r / 256 * 256 + v := Function.update_self r _ c.regs
  rw [Cpu.get, hself]
  omega

/-- A register does not depend on the rest. -/
@[simp] lemma Cpu.get_mk {m : Nat → UInt8} {f : Flags} {d : Bool} :
    Cpu.get ⟨c.regs, m, f, d⟩ b r = c.get b r := rfl

@[simp] lemma Cpu.mem_alu : (c.alu op bits r v).mem = c.mem := by
  rw [Cpu.alu]
  split <;> rfl

@[simp] lemma Cpu.down_alu : (c.alu op bits r v).down = c.down := by
  rw [Cpu.alu]
  split <;> rfl

@[simp] lemma Cpu.flags_alu : (c.alu op bits r v).flags = op.flags bits (c.get bits r) v := by
  rw [Cpu.alu]
  split <;> rfl

@[simp] lemma Cpu.get_cmp : (c.alu .cmp bits r v).get b s = c.get b s := by
  rw [Cpu.alu, if_pos rfl]
  rfl

lemma Cpu.get_alu_of_ne (h : s ≠ r) : (c.alu op bits r v).get b s = c.get b s := by
  rw [Cpu.alu]
  split
  · rfl
  · exact Cpu.get_set_of_ne _ h

lemma Cpu.get_alu (h : bits ≠ 8) (hop : op ≠ .cmp) :
    (c.alu op bits r v).get b r = wrap bits (op.exact bits (c.get bits r) v) % 2 ^ b := by
  rw [Cpu.alu, if_neg hop]
  exact Cpu.get_set _ h

lemma Cpu.get_lt : c.get bits r < 2 ^ bits := Nat.mod_lt _ (by positivity)

end registers

/-! ## Words -/

section words

lemma byteOf_toNat (z : Int) : ((byteOf z).toNat : Int) = z % 256 := by
  rw [byteOf, UInt8.toNat_ofNat']
  omega

/-- A number is read back from its bytes. -/
lemma int32_le32 {z : Int} (h : -2 ^ 31 ≤ z ∧ z < 2 ^ 31) :
    int32 (byteOf z) (byteOf (z / 2 ^ 8)) (byteOf (z / 2 ^ 16)) (byteOf (z / 2 ^ 24)) = z := by
  have h₀ := byteOf_toNat z
  have h₁ := byteOf_toNat (z / 2 ^ 8)
  have h₂ := byteOf_toNat (z / 2 ^ 16)
  have h₃ := byteOf_toNat (z / 2 ^ 24)
  rw [int32, reading]
  split <;> omega

/-- A jump over a distance ends where the distance does. -/
lemma displaced_sub {a b : Nat} (h : b < 2 ^ 64) : displaced a (b - a) = b := by
  rw [displaced]
  omega

/-- The target of a jump that has its distance in four bytes. -/
lemma displaced_int32 {z : Int} {a b : Nat} (hz : z = b - a) (hfits : -2 ^ 31 ≤ z ∧ z < 2 ^ 31)
    (hb : b < 2 ^ 64) :
    displaced a (int32 (byteOf z) (byteOf (z / 2 ^ 8)) (byteOf (z / 2 ^ 16))
      (byteOf (z / 2 ^ 24))) = b := by
  rw [int32_le32 hfits, hz, displaced_sub hb]

lemma displaced_nonneg {a k : Nat} (h : a + k < 2 ^ 64) : displaced a k = a + k := by
  rw [displaced]
  omega

lemma wrap_lt (bits : Nat) (z : Int) : wrap bits z < 2 ^ bits := by
  have hpos : (0 : Int) < 2 ^ bits := by positivity
  have hmod := Int.emod_lt_of_pos z hpos
  have hnonneg := Int.emod_nonneg z hpos.ne'
  rw [wrap, ← Int.ofNat_lt, Int.toNat_of_nonneg hnonneg]
  exact_mod_cast hmod

lemma Cpu.get_alu_low (c : Cpu) {op : Alu} {r : Reg} {v : Nat} (hop : op ≠ .cmp) :
    (c.alu op 8 r v).get 8 r = wrap 8 (op.exact 8 (c.get 8 r) v) := by
  rw [Cpu.alu, if_neg hop]
  exact Cpu.get_set_low _ (wrap_lt 8 _)

lemma reading_wrap {z : Int} (h : fits 64 z = true) : reading 64 (wrap 64 z) = z := by
  simp only [fits, decide_eq_true_eq] at h
  rw [reading, wrap]
  split <;> omega

lemma wrap_reading {n : Nat} (h : n < 2 ^ 64) : wrap 64 (reading 64 n) = n := by
  rw [reading, wrap]
  split <;> omega

/-- Two bytes compare as equal where they are. -/
lemma cmp_zero (a b : UInt8) : (Alu.cmp.flags 8 a.toNat b.toNat).zero = decide (a = b) := by
  have ha := a.toNat_lt
  have hb := b.toNat_lt
  have hiff : wrap 8 (Alu.cmp.exact 8 a.toNat b.toNat) = 0 ↔ a = b := by
    rw [← UInt8.toNat_inj, Alu.exact, reading, reading, wrap]
    split <;> split <;> omega
  exact decide_eq_decide.mpr hiff

lemma cmp_zero_nul (a : UInt8) : (Alu.cmp.flags 8 a.toNat 0).zero = decide (a = 0) := cmp_zero a 0

/-- Two words compare as equal where they are. -/
lemma cmp_zero_word {a b : Nat} (ha : a < 2 ^ 64) (hb : b < 2 ^ 64) :
    (Alu.cmp.flags 64 a b).zero = decide (a = b) := by
  have hiff : wrap 64 (Alu.cmp.exact 64 a b) = 0 ↔ a = b := by
    rw [Alu.exact, reading, reading, wrap]
    split <;> split <;> omega
  exact decide_eq_decide.mpr hiff

/-- A byte is tested as zero where it is. -/
lemma test_zero {n : Nat} (h : n < 256) : (Alu.xor.flags 8 n 0).zero = decide (n = 0) := by
  have hiff : wrap 8 (Alu.xor.exact 8 n 0) = 0 ↔ n = 0 := by
    rw [Alu.exact, Nat.xor_zero, reading, wrap]
    split <;> omega
  exact decide_eq_decide.mpr hiff

/-- The next address. -/
lemma inc_word {a : Nat} (h : a + 1 < 2 ^ 64) : wrap 64 (Alu.add.exact 64 a 1) = a + 1 := by
  rw [Alu.exact, reading, reading, wrap]
  split <;> split <;> omega

/-- The address before. -/
lemma dec_word {a : Nat} (hpos : 0 < a) (h : a < 2 ^ 64) :
    wrap 64 (Alu.sub.exact 64 a 1) = a - 1 := by
  rw [Alu.exact, reading, reading, wrap]
  split <;> split <;> omega

/-- A word whose exclusive or with itself is taken is zero. -/
lemma xor_self_word (bits a : Nat) : wrap bits (Alu.xor.exact bits a a) = 0 := by
  have hpos : 0 < 2 ^ (bits - 1) := by positivity
  rw [Alu.exact, Nat.xor_self, reading, if_pos hpos, wrap]
  simp

end words

/-! ## String instructions -/

section strings

variable {ok : Nat → Bool} {c : Cpu}

/-- Do the bytes stand in the memory? The first that differs ends the comparison; none where a byte
before it is not accessible. -/
def compareBytes (ok : Nat → Bool) (m : Nat → UInt8) (a : Nat) : List UInt8 → Option Bool
  | [] => some true
  | b :: bs => if ok a then if m a = b then compareBytes ok m (a + 1) bs else some false else none

lemma compareBytes_eq_true {m : Nat → UInt8} {a : Nat} {bs : List UInt8} :
    compareBytes ok m a bs = some true ↔ Holds m a bs ∧ ∀ i < bs.length, ok (a + i) = true := by
  induction bs generalizing a with
  | nil => simp [compareBytes]
  | cons b bs ih =>
      have hforall : (∀ i < (b :: bs).length, ok (a + i) = true) ↔
          ok a = true ∧ ∀ i < bs.length, ok (a + 1 + i) = true := by
        constructor
        · refine fun h => ⟨h 0 (Nat.zero_lt_succ _), fun i hi => ?_⟩
          rw [Nat.add_assoc, Nat.add_comm 1 i]
          exact h (i + 1) (Nat.succ_lt_succ hi)
        · rintro ⟨hzero, h⟩ i hi
          cases i with
          | zero => exact hzero
          | succ i =>
              rw [Nat.add_comm i 1, ← Nat.add_assoc]
              exact h i (Nat.lt_of_succ_lt_succ hi)
      rw [compareBytes, holds_cons, hforall]
      split
      · split
        · rw [ih]
          tauto
        · simp only [Option.some.injEq, Bool.false_eq_true, false_iff]
          tauto
      · simp only [reduceCtorEq, false_iff]
        tauto

/-- A byte differs, and the bytes up to it are accessible. -/
def Differs (ok : Nat → Bool) (m : Nat → UInt8) (a : Nat) (bs : List UInt8) : Prop :=
  ∃ i b, bs[i]? = some b ∧ m (a + i) ≠ b ∧ ∀ j ≤ i, ok (a + j) = true

lemma compareBytes_eq_false {m : Nat → UInt8} {a : Nat} {bs : List UInt8} :
    compareBytes ok m a bs = some false ↔ Differs ok m a bs := by
  induction bs generalizing a with
  | nil => simp [compareBytes, Differs]
  | cons b bs ih =>
      rw [compareBytes]
      constructor
      · intro h
        split at h
        · rename_i hok
          split at h
          · obtain ⟨i, x, hx, hne, hacc⟩ := ih.mp h
            refine ⟨i + 1, x, hx, by rwa [Nat.add_comm i 1, ← Nat.add_assoc], fun j hj => ?_⟩
            cases j with
            | zero => exact hok
            | succ j =>
                rw [Nat.add_comm j 1, ← Nat.add_assoc]
                exact hacc j (Nat.le_of_succ_le_succ hj)
          · rename_i hne
            refine ⟨0, b, rfl, hne, fun j hj => ?_⟩
            rw [Nat.le_zero.mp hj]
            exact hok
        · cases h
      · rintro ⟨i, x, hx, hne, hacc⟩
        have hok : ok a = true := hacc 0 (Nat.zero_le _)
        rw [if_pos hok]
        cases i with
        | zero =>
            obtain rfl : b = x := Option.some.inj hx
            exact if_neg hne
        | succ i =>
            split
            · refine ih.mpr ⟨i, x, hx, ?_, fun j hj => ?_⟩
              · rwa [Nat.add_assoc, Nat.add_comm 1 i]
              · rw [Nat.add_assoc, Nat.add_comm 1 j]
                exact hacc (j + 1) (Nat.succ_le_succ hj)
            · rfl

lemma Cpu.get_scanned_of_ne {n bits : Nat} {r : Reg} (h : r ≠ .rcx) (h' : r ≠ .rdi) :
    (c.scanned n).get bits r = c.get bits r := by
  rw [Cpu.scanned, Cpu.get_mk, Cpu.get_set_of_ne _ h, Cpu.get_set_of_ne _ h']

lemma Cpu.scanned_rcx {n : Nat} (h : n < 2 ^ 64) : (c.scanned n).get 64 .rcx = n := by
  rw [Cpu.scanned, Cpu.get_mk, Cpu.get_set _ (by decide), Nat.mod_eq_of_lt h]

section compared

variable {n : Nat} (hdown : c.down = false)
include hdown

lemma Cpu.advance_eq {a : Nat} (h : a + 1 < 2 ^ 64) : c.advance a = a + 1 := by
  rw [Cpu.advance, hdown, if_neg Bool.false_ne_true]
  exact displaced_nonneg h

lemma Cpu.compared_rsi (h : c.get 64 .rsi + 1 < 2 ^ 64) :
    (c.compared n).get 64 .rsi = c.get 64 .rsi + 1 := by
  rw [Cpu.compared, Cpu.get_mk, Cpu.get_set_of_ne _ (by decide), Cpu.get_set_of_ne _ (by decide),
    Cpu.get_set _ (by decide), Cpu.advance_eq hdown h, Nat.mod_eq_of_lt h]

lemma Cpu.compared_rdi (h : c.get 64 .rdi + 1 < 2 ^ 64) :
    (c.compared n).get 64 .rdi = c.get 64 .rdi + 1 := by
  rw [Cpu.compared, Cpu.get_mk, Cpu.get_set_of_ne _ (by decide), Cpu.get_set _ (by decide),
    Cpu.advance_eq hdown h, Nat.mod_eq_of_lt h]

lemma Cpu.scanned_rdi (h : c.get 64 .rdi + 1 < 2 ^ 64) :
    (c.scanned n).get 64 .rdi = c.get 64 .rdi + 1 := by
  rw [Cpu.scanned, Cpu.get_mk, Cpu.get_set_of_ne _ (by decide), Cpu.get_set _ (by decide),
    Cpu.advance_eq hdown h, Nat.mod_eq_of_lt h]

end compared

/-- `repe cmpsb` compares the bytes at `rdi` with those at `rsi`; the zero flag is the result. -/
lemma repeCmpsb_eq (ok : Nat → Bool) (bs : List UInt8) (hdown : c.down = false)
    (hzero : bs = [] → c.flags.zero = true)
    (hdi : Holds c.mem (c.get 64 .rdi) bs) (hok : ∀ i < bs.length, ok (c.get 64 .rdi + i) = true)
    (hroom : c.get 64 .rdi + bs.length < 2 ^ 64) (hroom' : c.get 64 .rsi + bs.length < 2 ^ 64) :
    (repeCmpsb ok bs.length c).map (fun c' => (c'.flags.zero, c'.mem)) =
      (compareBytes ok c.mem (c.get 64 .rsi) bs).map fun r => (r, c.mem) := by
  induction bs generalizing c with
  | nil => simp [repeCmpsb, compareBytes, hzero rfl]
  | cons b bs ih =>
      obtain ⟨hbyte, htail⟩ := holds_cons.mp hdi
      have hlength : (b :: bs).length = bs.length + 1 := rfl
      have hokdi : ok (c.get 64 .rdi) = true := hok 0 (Nat.zero_lt_succ _)
      have hrsi := Cpu.compared_rsi (n := bs.length) hdown (by omega)
      have hrdi := Cpu.compared_rdi (n := bs.length) hdown (by omega)
      have hflag : (c.compared bs.length).flags.zero = decide (c.mem (c.get 64 .rsi) = b) := by
        rw [← hbyte]
        exact cmp_zero _ _
      rw [compareBytes, hlength, repeCmpsb, hbyte]
      by_cases hoksi : ok (c.get 64 .rsi) = true
      · rw [if_pos hoksi, if_pos ⟨hoksi, hokdi⟩]
        by_cases heq : c.mem (c.get 64 .rsi) = b
        · rw [if_pos heq, if_pos heq, ← hrsi]
          refine ih (c := c.compared bs.length) hdown
            (fun _ => by rw [hflag]; exact decide_eq_true heq) ?_ (fun i hi => ?_) (by omega)
            (by omega)
          · rw [hrdi]
            exact htail
          · rw [hrdi, Nat.add_assoc, Nat.add_comm 1 i]
            exact hok (i + 1) (Nat.succ_lt_succ hi)
        · rw [if_neg heq, if_neg heq, Option.map_some, Option.map_some, hflag, decide_eq_false heq]
          rfl
      · rw [if_neg hoksi, if_neg fun h => hoksi h.1]
        rfl

/-- `repne scasb` finds the end of a text, where `rax` is zero. -/
lemma repneScasb_eq (ok : Nat → Bool) {s : List UInt8} {n : Nat} (hdown : c.down = false)
    (hrax : c.get 8 .rax = 0)
    (hs : 0 ∉ s) (hdi : Holds c.mem (c.get 64 .rdi) (s ++ [0]))
    (hok : ∀ i ≤ s.length, ok (c.get 64 .rdi + i) = true) (hn : s.length < n) (hlt : n < 2 ^ 64)
    (hroom : c.get 64 .rdi + s.length + 1 < 2 ^ 64) :
    ∃ c', repneScasb ok n c = some c' ∧ c'.get 64 .rcx = n - (s.length + 1) ∧ c'.mem = c.mem ∧
      c'.down = false ∧ c'.get 64 .rbp = c.get 64 .rbp := by
  induction s generalizing c n with
  | nil =>
      obtain ⟨k, rfl⟩ : ∃ k, n = k + 1 := ⟨n - 1, by omega⟩
      have hbyte : c.mem (c.get 64 .rdi) = 0 := (holds_cons.mp hdi).1
      have hokdi : ok (c.get 64 .rdi) = true := hok 0 (Nat.zero_le _)
      refine ⟨c.scanned k, ?_, Cpu.scanned_rcx (by omega), rfl, hdown,
        Cpu.get_scanned_of_ne (by decide) (by decide)⟩
      rw [repneScasb, if_pos hokdi, hbyte, hrax]
      exact if_pos rfl
  | cons b s ih =>
      obtain ⟨k, rfl⟩ : ∃ k, n = k + 1 := ⟨n - 1, by omega⟩
      obtain ⟨hbyte, htail⟩ := holds_cons.mp hdi
      have hlength : (b :: s).length = s.length + 1 := rfl
      have hokdi : ok (c.get 64 .rdi) = true := hok 0 (Nat.zero_le _)
      have hne : c.get 8 .rax ≠ (c.mem (c.get 64 .rdi)).toNat := by
        rw [hrax, hbyte]
        intro h
        have hzero : 0 = b := UInt8.toNat_inj.mp h
        exact hs (hzero ▸ List.mem_cons_self)
      have hrdi := Cpu.scanned_rdi (n := k) hdown (by omega)
      have hrbp : (c.scanned k).get 64 .rbp = c.get 64 .rbp :=
        Cpu.get_scanned_of_ne (by decide) (by decide)
      rw [repneScasb, if_pos hokdi, if_neg hne]
      obtain ⟨c', hrun, hcount, hmem, hdown', hrbp'⟩ := ih (c := c.scanned k) (n := k) hdown
        ((Cpu.get_scanned_of_ne (by decide) (by decide)).trans hrax)
        (fun h => hs (List.mem_cons_of_mem _ h)) (by rw [hrdi]; exact htail)
        (fun i hi => by
          rw [hrdi, Nat.add_assoc, Nat.add_comm 1 i]
          exact hok (i + 1) (Nat.succ_le_succ hi))
        (by omega) (by omega) (by omega)
      exact ⟨c', hrun, by omega, hmem, hdown', hrbp'.trans hrbp⟩

end strings

end Verbosec.Lib.Amd64
