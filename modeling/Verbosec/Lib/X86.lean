import Mathlib.Logic.Function.Basic
import Mathlib.Logic.Relation
import Verbosec.Lib.Bytes
import Verbosec.Lib.Word

/-!
# x86-64 code

* `Reg`, `Regs`, `Core` - registers, the bytes of the memory, the outcome of the last comparison.
* `Op`, `Op.exec` - instructions without control; an access outside of the accessible bytes has no
  next state.
* `Instr`, `step`, `Reaches` - code with jumps, from one position to the next.
* `codeAt`, `Reaches.ops` - straight-line code is run at once.
* `Reaches.unique` - a run ends in one state.
* `encode` - the bytes of an instruction.

The instructions are a few of the ones that scan and fill bytes. The memory operands have the bases
`rbx` and `rsi` without a displacement, and any base but `rsp` with one.
-/

namespace Verbosec.Lib.X86

open Bytes

/-! ## States -/

/-- The registers. -/
inductive Reg where
  | rax
  | rcx
  | rdx
  | rbx
  | rsp
  | rbp
  | rsi
  | rdi
  | r8
  deriving DecidableEq, Repr

/-- The values of the registers. -/
structure Regs where
  rax : Nat
  rcx : Nat
  rdx : Nat
  rbx : Nat
  rsp : Nat
  rbp : Nat
  rsi : Nat
  rdi : Nat
  r8 : Nat

namespace Regs

/-- The value of a register. -/
@[simp] def get (g : Regs) : Reg → Nat
  | .rax => g.rax
  | .rcx => g.rcx
  | .rdx => g.rdx
  | .rbx => g.rbx
  | .rsp => g.rsp
  | .rbp => g.rbp
  | .rsi => g.rsi
  | .rdi => g.rdi
  | .r8 => g.r8

/-- A register with a new value. -/
@[simp] def set (g : Regs) (r : Reg) (v : Nat) : Regs :=
  match r with
  | .rax => { g with rax := v }
  | .rcx => { g with rcx := v }
  | .rdx => { g with rdx := v }
  | .rbx => { g with rbx := v }
  | .rsp => { g with rsp := v }
  | .rbp => { g with rbp := v }
  | .rsi => { g with rsi := v }
  | .rdi => { g with rdi := v }
  | .r8 => { g with r8 := v }

end Regs

/-- Registers, memory, and two conditions of the flags: the result was zero (`ZF`), and it was
negative as an exact number (`SF ≠ OF`). -/
structure Core where
  regs : Regs
  memory : Nat → UInt8
  zero : Bool
  less : Bool

/-- The signed reading of a number of `bits` bits. -/
def reading (bits n : Nat) : Int := if n < 2 ^ (bits - 1) then n else n - 2 ^ bits

/-- A word with a displacement. -/
def displaced (a : Nat) (d : Int) : Nat := ((a + d) % 2 ^ 64).toNat

/-- The low byte of a word. -/
def lowByte (n : Nat) : UInt8 := UInt8.ofNat n

/-- A word with another low byte. -/
def withLowByte (n : Nat) (b : UInt8) : Nat := n / 256 * 256 + b.toNat

/-- The number that stands in `k` bytes, the least significant one first. -/
def loadBytes (m : Nat → UInt8) (a : Nat) : Nat → Nat
  | 0 => 0
  | k + 1 => (m a).toNat + 256 * loadBytes m (a + 1) k

/-- The `k` low bytes of a number, the least significant one first. -/
def leBytes (n : Nat) : Nat → List UInt8
  | 0 => []
  | k + 1 => UInt8.ofNat n :: leBytes (n / 256) k

/-- Are `k` bytes accessible? -/
def accessible (ok : Nat → Bool) (a k : Nat) : Bool := (List.range k).all fun i => ok (a + i)

/-! ## Instructions without control -/

/-- An instruction without control. -/
inductive Op where
  | test (r : Reg)
  | inc (r : Reg)
  | dec (r : Reg)
  | addImm (r : Reg) (i : UInt8)
  | subImm (r : Reg) (i : UInt8)
  | cmpImm8 (r : Reg) (i : UInt8)
  | cmpImm32 (r : Reg) (i : Int)
  | mov (dst src : Reg)
  | lea (dst base : Reg) (disp : Int)
  | load8 (dst base : Reg)
  | store8 (base src : Reg)
  | store8Imm (base : Reg) (i : UInt8)
  | store16Imm (base : Reg) (lo hi : UInt8)
  | store64 (base : Reg) (disp : Int) (src : Reg)
  | subMem (r base : Reg) (disp : Int)
  | cmpReg8 (r : Reg) (i : UInt8)
  | cmpMem8 (base : Reg) (i : UInt8)
  | cmpMem32 (base : Reg) (i : Int)
  deriving DecidableEq, Repr

/-- The state with a result: the exact number gives the conditions, its word goes to `r`. -/
def Core.result (c : Core) (r : Reg) (z : Int) : Core :=
  { c with regs := c.regs.set r (z % 2 ^ 64).toNat, zero := z % 2 ^ 64 = 0, less := z < 0 }

/-- The state after a comparison of two numbers of `bits` bits. -/
def Core.compare (c : Core) (bits a b : Nat) : Core :=
  { c with zero := a = b, less := reading bits a < reading bits b }

/-- The state after an instruction; `none` where it accesses a byte that is not accessible. -/
def Op.exec (ok : Nat → Bool) (o : Op) (c : Core) : Option Core :=
  match o with
  | .test r => some (c.compare 64 (c.regs.get r) 0)
  | .inc r => some (c.result r (signed (c.regs.get r) + 1))
  | .dec r => some (c.result r (signed (c.regs.get r) - 1))
  | .addImm r i => some (c.result r (signed (c.regs.get r) + reading 8 i.toNat))
  | .subImm r i => some (c.result r (signed (c.regs.get r) - reading 8 i.toNat))
  | .cmpImm8 r i => some (c.compare 64 (c.regs.get r) (displaced 0 (reading 8 i.toNat)))
  | .cmpImm32 r i => some (c.compare 64 (c.regs.get r) (displaced 0 i))
  | .mov dst src => some { c with regs := c.regs.set dst (c.regs.get src) }
  | .lea dst base disp => some { c with regs := c.regs.set dst (displaced (c.regs.get base) disp) }
  | .load8 dst base =>
      if accessible ok (c.regs.get base) 1 then
        some { c with
          regs := c.regs.set dst (withLowByte (c.regs.get dst) (c.memory (c.regs.get base))) }
      else none
  | .store8 base src =>
      if accessible ok (c.regs.get base) 1 then
        some { c with
          memory := Function.update c.memory (c.regs.get base) (lowByte (c.regs.get src)) }
      else none
  | .store8Imm base i =>
      if accessible ok (c.regs.get base) 1 then
        some { c with memory := Function.update c.memory (c.regs.get base) i }
      else none
  | .store16Imm base lo hi =>
      if accessible ok (c.regs.get base) 2 then
        some { c with
          memory := Function.update (Function.update c.memory (c.regs.get base) lo)
            (c.regs.get base + 1) hi }
      else none
  | .store64 base disp src =>
      if accessible ok (displaced (c.regs.get base) disp) 8 then
        some { c with
          memory := writeAll c.memory (displaced (c.regs.get base) disp)
            (leBytes (c.regs.get src) 8) }
      else none
  | .subMem r base disp =>
      if accessible ok (displaced (c.regs.get base) disp) 8 then
        some (c.result r (signed (c.regs.get r) -
          signed (loadBytes c.memory (displaced (c.regs.get base) disp) 8)))
      else none
  | .cmpReg8 r i => some (c.compare 8 (lowByte (c.regs.get r)).toNat i.toNat)
  | .cmpMem8 base i =>
      if accessible ok (c.regs.get base) 1 then
        some (c.compare 8 (c.memory (c.regs.get base)).toNat i.toNat)
      else none
  | .cmpMem32 base i =>
      if accessible ok (c.regs.get base) 4 then
        some (c.compare 32 (loadBytes c.memory (c.regs.get base) 4) (i % 2 ^ 32).toNat)
      else none

/-! ## Code -/

/-- The condition of a jump. -/
inductive Cond where
  | z
  | l
  | g
  deriving DecidableEq, Repr

/-- Does the condition hold? -/
def Cond.holds (c : Core) : Cond → Bool
  | .z => c.zero
  | .l => c.less
  | .g => !c.zero && !c.less

/-- An instruction; a jump has its distance from the next instruction, in one or in four bytes. -/
inductive Instr where
  | op (o : Op)
  | jmp8 (d : Int)
  | jcc8 (c : Cond) (d : Int)
  | jcc32 (c : Cond) (d : Int)
  deriving DecidableEq, Repr

/-! ## Bytes -/

/-- The number of a register. -/
def Reg.code : Reg → Nat
  | .rax => 0
  | .rcx => 1
  | .rdx => 2
  | .rbx => 3
  | .rsp => 4
  | .rbp => 5
  | .rsi => 6
  | .rdi => 7
  | .r8 => 8

/-- The prefix of an instruction on 64-bit registers. -/
def rexW (reg rm : Nat) : UInt8 := UInt8.ofNat (0x48 + 4 * (reg / 8) + rm / 8)

/-- The prefix of an instruction on bytes, where one of its registers needs it. -/
def rex8 (reg rm : Nat) : List UInt8 :=
  if reg / 8 + rm / 8 = 0 then [] else [UInt8.ofNat (0x40 + 4 * (reg / 8) + rm / 8)]

/-- The byte that names the operands. -/
def modRM (mod reg rm : Nat) : UInt8 := UInt8.ofNat (64 * mod + 8 * (reg % 8) + rm % 8)

/-- A number in one byte. -/
def byteOf (z : Int) : UInt8 := UInt8.ofNat (z % 256).toNat

/-- A number in four bytes. Source: `i32::to_le_bytes` -/
def le32 (z : Int) : List UInt8 :=
  [byteOf z, byteOf (z / 2 ^ 8), byteOf (z / 2 ^ 16), byteOf (z / 2 ^ 24)]

/-- Does a displacement fit into one byte? -/
def short (z : Int) : Bool := -128 ≤ z ∧ z < 128

/-- A memory operand with a displacement. -/
def displacement (reg base : Nat) (disp : Int) : List UInt8 :=
  if short disp then [modRM 1 reg base, byteOf disp] else modRM 2 reg base :: le32 disp

/-- The bytes of an instruction without control. -/
def Op.encode : Op → List UInt8
  | .test r => [rexW r.code r.code, 0x85, modRM 3 r.code r.code]
  | .inc r => [rexW 0 r.code, 0xFF, modRM 3 0 r.code]
  | .dec r => [rexW 0 r.code, 0xFF, modRM 3 1 r.code]
  | .addImm r i => [rexW 0 r.code, 0x83, modRM 3 0 r.code, i]
  | .subImm r i => [rexW 0 r.code, 0x83, modRM 3 5 r.code, i]
  | .cmpImm8 r i => [rexW 0 r.code, 0x83, modRM 3 7 r.code, i]
  | .cmpImm32 r i => [rexW 0 r.code, 0x81, modRM 3 7 r.code] ++ le32 i
  | .mov dst src => [rexW src.code dst.code, 0x89, modRM 3 src.code dst.code]
  | .lea dst base disp => [rexW dst.code base.code, 0x8D, modRM 2 dst.code base.code] ++ le32 disp
  | .load8 dst base => rex8 dst.code base.code ++ [0x8A, modRM 0 dst.code base.code]
  | .store8 base src => rex8 src.code base.code ++ [0x88, modRM 0 src.code base.code]
  | .store8Imm base i => [0xC6, modRM 0 0 base.code, i]
  | .store16Imm base lo hi => [0x66, 0xC7, modRM 0 0 base.code, lo, hi]
  | .store64 base disp src =>
      [rexW src.code base.code, 0x89] ++ displacement src.code base.code disp
  | .subMem r base disp => [rexW r.code base.code, 0x2B] ++ displacement r.code base.code disp
  | .cmpReg8 .rax i => [0x3C, i]
  | .cmpReg8 r i => rex8 0 r.code ++ [0x80, modRM 3 7 r.code, i]
  | .cmpMem8 base i => [0x80, modRM 0 7 base.code, i]
  | .cmpMem32 base i => [0x81, modRM 0 7 base.code] ++ le32 i

/-- The number of a condition. -/
def Cond.code : Cond → UInt8
  | .z => 0x4
  | .l => 0xC
  | .g => 0xF

/-- The bytes of an instruction. -/
def Instr.encode : Instr → List UInt8
  | .op o => o.encode
  | .jmp8 d => [0xEB, byteOf d]
  | .jcc8 c d => [0x70 + c.code, byteOf d]
  | .jcc32 c d => [0x0F, 0x80 + c.code] ++ le32 d

/-- The bytes of code. -/
def encode (is : List Instr) : List UInt8 := is.flatMap Instr.encode

lemma encode_append (is js : List Instr) : encode (is ++ js) = encode is ++ encode js :=
  List.flatMap_append

lemma encode_jcc32 (c : Cond) (d : Int) : encode [.jcc32 c d] = [0x0F, 0x80 + c.code] ++ le32 d :=
  List.append_nil _

/-- The number of bytes of an instruction. -/
def Instr.size (i : Instr) : Nat := i.encode.length

/-- The number of bytes of code. -/
def size : List Instr → Nat
  | [] => 0
  | i :: is => i.size + size is

/-! ## Runs -/

/-- The code from a position on, if an instruction or the end is there. -/
def codeAt : List Instr → Nat → Option (List Instr)
  | is, 0 => some is
  | [], _ + 1 => none
  | i :: is, pc + 1 => if pc + 1 < i.size then none else codeAt is (pc + 1 - i.size)

/-- One instruction. The state is its position and the rest. -/
def step (ok : Nat → Bool) (code : List Instr) (s : Nat × Core) : Option (Nat × Core) :=
  match codeAt code s.1 with
  | some (.op o :: _) => (o.exec ok s.2).map fun c => (s.1 + (Instr.op o).size, c)
  | some (.jmp8 d :: _) => some (((s.1 + 2 : Nat) + d).toNat, s.2)
  | some (.jcc8 c d :: _) =>
      some (if c.holds s.2 then ((s.1 + 2 : Nat) + d).toNat else s.1 + 2, s.2)
  | some (.jcc32 c d :: _) =>
      some (if c.holds s.2 then ((s.1 + 6 : Nat) + d).toNat else s.1 + 6, s.2)
  | _ => none

/-- The states of a run. -/
def Reaches (ok : Nat → Bool) (code : List Instr) : Nat × Core → Nat × Core → Prop :=
  Relation.ReflTransGen fun s t => step ok code s = some t

/-- Instructions without control, one after another. -/
def execAll (ok : Nat → Bool) : List Op → Core → Option Core
  | [], c => some c
  | o :: os, c => (o.exec ok c).bind (execAll ok os)

/-- Instructions without control, as code. -/
def ops (os : List Op) : List Instr := os.map .op

section runs

variable {ok : Nat → Bool} {code rest : List Instr} {pc : Nat} {c c' : Core}

lemma Instr.size_pos (i : Instr) : 0 < i.size := by
  rcases i with o | _ | _ | _
  · cases o <;> simp [Instr.size, Instr.encode, Op.encode]
    split <;> simp
  all_goals simp [Instr.size, Instr.encode]

/-- Behind an instruction is the next one. -/
lemma codeAt_next {i : Instr} (h : codeAt code pc = some (i :: rest)) :
    codeAt code (pc + i.size) = some rest := by
  induction code generalizing pc with
  | nil => cases pc <;> simp [codeAt] at h
  | cons j js ih =>
      have hj := j.size_pos
      have hi := i.size_pos
      cases pc with
      | zero =>
          simp only [codeAt, Option.some.injEq, List.cons.injEq] at h
          obtain ⟨rfl, rfl⟩ := h
          obtain ⟨k, hk⟩ := Nat.exists_eq_succ_of_ne_zero (Nat.ne_of_gt hj)
          rw [Nat.zero_add, hk, codeAt, ← Nat.succ_eq_add_one, ← hk, if_neg (Nat.lt_irrefl _),
            Nat.sub_self, codeAt]
      | succ pc =>
          rw [codeAt] at h
          split at h
          · cases h
          · have hsum : pc + 1 + i.size = pc + i.size + 1 := by omega
            rw [hsum, codeAt, if_neg (by omega),
              show pc + i.size + 1 - j.size = pc + 1 - j.size + i.size by omega]
            exact ih h

/-- Behind straight-line code is what follows it. -/
lemma codeAt_ops {os : List Op} (h : codeAt code pc = some (X86.ops os ++ rest)) :
    codeAt code (pc + size (X86.ops os)) = some rest := by
  induction os generalizing pc with
  | nil => exact h
  | cons o os ih =>
      have hsize : pc + size (X86.ops (o :: os)) =
        pc + (Instr.op o).size + size (X86.ops os) := (Nat.add_assoc ..).symm
      rw [hsize]
      exact ih (codeAt_next h)

lemma size_append (is js : List Instr) : size (is ++ js) = size is + size js := by
  induction is with
  | nil => exact (Nat.zero_add _).symm
  | cons i is ih => rw [List.cons_append, size, ih, size, Nat.add_assoc]

lemma size_eq_length (is : List Instr) : size is = (encode is).length := by
  induction is with
  | nil => rfl
  | cons i is ih =>
      have hcons : encode (i :: is) = i.encode ++ encode is := List.flatMap_cons ..
      rw [size, ih, hcons, List.length_append, Instr.size]

/-- No instruction stands at the end of the code, or behind it. -/
lemma step_end (h : size code ≤ pc) : step ok code (pc, c) = none := by
  have hat : codeAt code pc = none ∨ codeAt code pc = some [] := by
    induction code generalizing pc with
    | nil => cases pc <;> simp [codeAt]
    | cons i is ih =>
        have hi := i.size_pos
        rw [size] at h
        obtain ⟨n, rfl⟩ := Nat.exists_eq_add_of_le' (show 1 ≤ pc by omega)
        rw [codeAt, if_neg (by omega)]
        exact ih (by omega)
  rcases hat with hat | hat <;> simp only [step, hat]

/-- An access to a byte that is not accessible has no next state. -/
lemma step_op_none {o : Op} (h : codeAt code pc = some (.op o :: rest)) (he : o.exec ok c = none) :
    step ok code (pc, c) = none := by
  rw [step]
  simp only [h, he, Option.map_none]

/-- A run ends in one state. -/
lemma Reaches.unique {s t u : Nat × Core} (hst : Reaches ok code s t) (ht : step ok code t = none)
    (hsu : Reaches ok code s u) (hu : step ok code u = none) : t = u := by
  induction hst using Relation.ReflTransGen.head_induction_on with
  | refl =>
      rcases Relation.ReflTransGen.cases_head hsu with rfl | ⟨v, hv, -⟩
      · rfl
      · cases ht.symm.trans hv
  | head hs _ ih =>
      rcases Relation.ReflTransGen.cases_head hsu with rfl | ⟨v, hv, hvu⟩
      · cases hu.symm.trans hs
      · cases hs.symm.trans hv
        exact ih hvu

/-- Straight-line code is run at once. -/
lemma Reaches.ops {os : List Op} (h : codeAt code pc = some (X86.ops os ++ rest))
    (he : execAll ok os c = some c') :
    Reaches ok code (pc, c) (pc + size (X86.ops os), c') := by
  induction os generalizing pc c with
  | nil =>
      cases he
      exact .refl
  | cons o os ih =>
      rw [execAll] at he
      cases hstep : o.exec ok c with
      | none =>
          rw [hstep] at he
          cases he
      | some c₁ =>
          rw [hstep] at he
          have hsize : pc + size (X86.ops (o :: os)) =
            pc + (Instr.op o).size + size (X86.ops os) := (Nat.add_assoc ..).symm
          rw [hsize]
          refine .head ?_ (ih (codeAt_next h) he)
          rw [step]
          simp only [h, X86.ops, List.map_cons, List.cons_append, hstep, Option.map_some]

lemma execAll_one {o : Op} (h : o.exec ok c = some c') : execAll ok [o] c = some c' := by
  rw [execAll, h]
  rfl

lemma accessible_one {a : Nat} : accessible ok a 1 = ok a := by simp [accessible]

lemma exec_load8 {dst base : Reg} (h : ok (c.regs.get base) = true) :
    Op.exec ok (.load8 dst base) c = some { c with
      regs := c.regs.set dst (withLowByte (c.regs.get dst) (c.memory (c.regs.get base))) } :=
  if_pos (accessible_one.trans h)

lemma exec_cmpMem8 {base : Reg} {i : UInt8} (h : ok (c.regs.get base) = true) :
    Op.exec ok (.cmpMem8 base i) c =
      some (c.compare 8 (c.memory (c.regs.get base)).toNat i.toNat) :=
  if_pos (accessible_one.trans h)

lemma exec_store8Imm {base : Reg} {i : UInt8} (h : ok (c.regs.get base) = true) :
    Op.exec ok (.store8Imm base i) c =
      some { c with memory := Function.update c.memory (c.regs.get base) i } :=
  if_pos (accessible_one.trans h)

lemma accessible_of {a k : Nat} (h : ∀ i < k, ok (a + i) = true) : accessible ok a k = true := by
  rw [accessible, List.all_eq_true]
  exact fun i hi => h i (List.mem_range.mp hi)

lemma exec_store64 {base src : Reg} {disp : Int} {a : Nat}
    (ha : displaced (c.regs.get base) disp = a) (h : ∀ i < 8, ok (a + i) = true) :
    Op.exec ok (.store64 base disp src) c =
      some { c with memory := writeAll c.memory a (leBytes (c.regs.get src) 8) } := by
  subst ha
  exact if_pos (accessible_of h)

lemma length_leBytes (n k : Nat) : (leBytes n k).length = k := by
  induction k generalizing n with
  | zero => rfl
  | succ k ih => rw [leBytes, List.length_cons, ih]

/-- What is stored is loaded again. -/
lemma loadBytes_of_holds {m : Nat → UInt8} {a n k : Nat} (h : Holds m a (leBytes n k)) :
    loadBytes m a k = n % 256 ^ k := by
  induction k generalizing a n with
  | zero => rw [loadBytes, Nat.pow_zero, Nat.mod_one]
  | succ k ih =>
      obtain ⟨hb, hbs⟩ := holds_cons.mp h
      have hlow : (UInt8.ofNat n).toNat = n % 256 := UInt8.toNat_ofNat'
      have hpow : 256 ^ (k + 1) = 256 * 256 ^ k := Nat.pow_succ'
      rw [loadBytes, hb, ih hbs, hlow, hpow, Nat.mod_mul]

lemma exec_subMem {r base : Reg} {disp : Int} {a v : Nat}
    (ha : displaced (c.regs.get base) disp = a) (h : ∀ i < 8, ok (a + i) = true)
    (hv : v < 2 ^ 64) (hslot : Holds c.memory a (leBytes v 8)) :
    Op.exec ok (.subMem r base disp) c = some (c.result r (signed (c.regs.get r) - signed v)) := by
  subst ha
  have hload : loadBytes c.memory (displaced (c.regs.get base) disp) 8 = v := by
    rw [loadBytes_of_holds hslot, Nat.mod_eq_of_lt (by omega)]
  rw [← hload]
  exact if_pos (accessible_of h)

/-- The run leads to a state that satisfies `P`. -/
def Leads (ok : Nat → Bool) (code : List Instr) (s : Nat × Core) (P : Nat × Core → Prop) : Prop :=
  ∃ t, Reaches ok code s t ∧ P t

variable {P Q : Nat × Core → Prop} {s : Nat × Core} {pc' : Nat} {d : Int} {b : Cond}

lemma Leads.here (h : P s) : Leads ok code s P := ⟨s, .refl, h⟩

lemma Leads.mono (h : Leads ok code s P) (hPQ : ∀ t, P t → Q t) : Leads ok code s Q :=
  h.imp fun t ht => ⟨ht.1, hPQ t ht.2⟩

lemma Leads.trans (h : Leads ok code s P) (hP : ∀ t, P t → Leads ok code t Q) :
    Leads ok code s Q := by
  obtain ⟨t, hst, ht⟩ := h
  obtain ⟨u, htu, hu⟩ := hP t ht
  exact ⟨u, hst.trans htu, hu⟩

lemma Leads.head {t : Nat × Core} (h : step ok code s = some t) (k : Leads ok code t P) :
    Leads ok code s P :=
  k.imp fun _ hu => ⟨.head h hu.1, hu.2⟩

/-- Straight-line code, and what follows it. -/
lemma Leads.ops (os : List Op) (h : codeAt code pc = some (X86.ops os ++ rest))
    (he : execAll ok os c = some c') (hpc : pc + size (X86.ops os) = pc')
    (k : Leads ok code (pc', c') P) : Leads ok code (pc, c) P := by
  subst hpc
  exact k.imp fun _ ht => ⟨(Reaches.ops h he).trans ht.1, ht.2⟩

lemma Leads.jmp8 (h : codeAt code pc = some (.jmp8 d :: rest))
    (hpc : ((pc + 2 : Nat) + d).toNat = pc') (k : Leads ok code (pc', c) P) :
    Leads ok code (pc, c) P :=
  k.head (by rw [step]; simp only [h, hpc])

/-- A short conditional jump. -/
lemma Leads.jcc8 (h : codeAt code pc = some (.jcc8 b d :: rest))
    (hpc : ((pc + 2 : Nat) + d).toNat = pc')
    (hyes : b.holds c = true → Leads ok code (pc', c) P)
    (hno : b.holds c = false → Leads ok code (pc + 2, c) P) : Leads ok code (pc, c) P := by
  cases hb : b.holds c with
  | true => exact (hyes hb).head (by rw [step]; simp only [h, hb, hpc, if_true])
  | false =>
      exact (hno hb).head (by rw [step]; simp only [h, hb, Bool.false_eq_true, if_false])

/-- A long conditional jump. -/
lemma Leads.jcc32 (h : codeAt code pc = some (.jcc32 b d :: rest))
    (hpc : ((pc + 6 : Nat) + d).toNat = pc')
    (hyes : b.holds c = true → Leads ok code (pc', c) P)
    (hno : b.holds c = false → Leads ok code (pc + 6, c) P) : Leads ok code (pc, c) P := by
  cases hb : b.holds c with
  | true => exact (hyes hb).head (by rw [step]; simp only [h, hb, hpc, if_true])
  | false =>
      exact (hno hb).head (by rw [step]; simp only [h, hb, Bool.false_eq_true, if_false])

end runs

/-! ## Words -/

section words

variable {v w : Nat}

lemma word_signed (hv : v < 2 ^ 64) : (signed v % 2 ^ 64).toNat = v := by
  rw [signed]
  split <;> omega

lemma word_inc (hv : v + 1 < 2 ^ 64) : ((signed v + 1) % 2 ^ 64).toNat = v + 1 := by
  rw [signed]
  split <;> omega

lemma word_dec (hpos : 0 < v) (hv : v < 2 ^ 64) : ((signed v - 1) % 2 ^ 64).toNat = v - 1 := by
  rw [signed]
  split <;> omega

lemma word_add {k : Nat} (hv : v + k < 2 ^ 64) : ((signed v + k) % 2 ^ 64).toNat = v + k := by
  rw [signed]
  split <;> omega

lemma word_sub (hle : w ≤ v) (hv : v < 2 ^ 64) :
    ((signed v - signed w) % 2 ^ 64).toNat = v - w := by
  rw [signed, signed]
  split <;> split <;> omega

lemma lowByte_withLowByte (n : Nat) (b : UInt8) : lowByte (withLowByte n b) = b := by
  rw [lowByte, withLowByte, ← UInt8.toNat_inj, UInt8.toNat_ofNat']
  have := UInt8.toNat_lt b
  omega

lemma displaced_nonneg {k : Nat} (h : v + k < 2 ^ 64) : displaced v k = v + k := by
  rw [displaced]
  omega

lemma displaced_neg {k : Nat} (h : k ≤ v) (hv : v < 2 ^ 64) : displaced v (-k) = v - k := by
  rw [displaced]
  omega

end words

end Verbosec.Lib.X86
