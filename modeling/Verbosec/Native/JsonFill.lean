import Verbosec.Lib.X86

/-!
# The JSON escape loop of the native backend

* `emitJsonEscapeFillLoop` - the bytes that the compiler emits.
* `fillLoop` - the instructions that they encode.
* `emitJsonEscapeFillLoop_eq` - the bytes are the ones of the instructions, whatever stands before
  them.

Source: `native.rs`, `emit_json_escape_fill_loop`.
-/

namespace Verbosec.Native.JsonFill

open Lib.X86

/-! ## Emission -/

/-- The bytes that have an escape, with the two bytes of the escape. Source: `native.rs`, `esc_specs`
of `emit_json_escape_fill_loop` -/
def escSpecs : List (UInt8 × UInt8 × UInt8) :=
  [(0x22, 0x5C, 0x22), (0x5C, 0x5C, 0x5C), (0x0A, 0x5C, 0x6E), (0x0D, 0x5C, 0x72),
    (0x09, 0x5C, 0x74)]

/-- The distance from behind a patched byte to a position. -/
def patchDistance (target patch : Nat) : UInt8 := byteOf ((target : Int) - (patch + 1))

/-- The comparisons, and the positions of their jumps. -/
def emitCompares (code : List UInt8) : List (UInt8 × UInt8 × UInt8) → List UInt8 × List Nat
  | [] => (code, [])
  | (cmpImm, _) :: specs =>
      let code := code ++ [0x3C, cmpImm] ++ [0x74]
      let patch := code.length
      let (code, patches) := emitCompares (code ++ [0x00]) specs
      (code, patch :: patches)

/-- The escape blocks, and the positions of their jumps to the end; the last one has none. -/
def emitEscapes (code : List UInt8) :
    List (UInt8 × UInt8 × UInt8) → List Nat → List UInt8 × List Nat
  | (_, lo, hi) :: specs, patch :: patches =>
      let code := code.set patch (patchDistance code.length patch)
      let code := code ++ [0x66, 0xC7, 0x03] ++ [lo, hi] ++ [0x48, 0x83, 0xC3, 0x02]
      if specs = [] then (code, [])
      else
        let code := code ++ [0xEB]
        let patch := code.length
        let (code, toAdvance) := emitEscapes (code ++ [0x00]) specs patches
        (code, patch :: toAdvance)
  | _, _ => (code, [])

/-- The step to the next byte, the jump back, and the patch of the jump to the end. -/
def emitAdvance (code : List UInt8) (loopTop loopEndPatch : Nat) : List UInt8 :=
  let code := code ++ [0x48, 0xFF, 0xC6] ++ [0x48, 0xFF, 0xC9] ++ [0xEB]
  let afterBackJmp : Nat := code.length + 1
  let code := code ++ [byteOf ((loopTop : Int) - afterBackJmp)]
  code.set loopEndPatch (patchDistance code.length loopEndPatch)

/-- Source: `native.rs`, `emit_json_escape_fill_loop` -/
def emitJsonEscapeFillLoop (code : List UInt8) : List UInt8 :=
  let loopTop := code.length
  let code := code ++ [0x48, 0x85, 0xC9] ++ [0x74]
  let loopEndPatch := code.length
  let code := code ++ [0x00] ++ [0x8A, 0x06]
  let (code, escJumpPatches) := emitCompares code escSpecs
  let code := code ++ [0x88, 0x03] ++ [0x48, 0xFF, 0xC3] ++ [0xEB]
  let plainToAdvancePatch := code.length
  let (code, escToAdvancePatches) := emitEscapes (code ++ [0x00]) escSpecs escJumpPatches
  let advancePos := code.length
  let code := (plainToAdvancePatch :: escToAdvancePatches).foldl
    (fun code patch => code.set patch (patchDistance advancePos patch)) code
  emitAdvance code loopTop loopEndPatch

/-! ## Instructions -/

/-- A comparison, and the jump to the escape. -/
def compareEscape (x : UInt8) (d : Int) : List Instr :=
  ops [.cmpReg8 .rax x] ++ [Instr.jcc8 .z d]

/-- The escape is written. -/
def writeEscape (x : UInt8) : List Op := [.store16Imm .rbx 0x5C x, .addImm .rbx 2]

/-- The instructions of the loop: the source is at `rsi`, `rcx` bytes are left, and the destination
is at `rbx`. -/
def fillLoop : List Instr :=
  ops [.test .rcx] ++ [Instr.jcc8 .z 90] ++ ops [.load8 .rax .rsi] ++
  compareEscape 0x22 23 ++ compareEscape 0x5C 30 ++ compareEscape 0x0A 37 ++
  compareEscape 0x0D 44 ++ compareEscape 0x09 51 ++
  ops [.store8 .rbx .rax, .inc .rbx] ++ [Instr.jmp8 53] ++
  ops (writeEscape 0x22) ++ [Instr.jmp8 42] ++ ops (writeEscape 0x5C) ++ [Instr.jmp8 31] ++
  ops (writeEscape 0x6E) ++ [Instr.jmp8 20] ++ ops (writeEscape 0x72) ++ [Instr.jmp8 9] ++
  ops (writeEscape 0x74) ++ ops [.inc .rsi, .dec .rcx] ++ [Instr.jmp8 (-95)]

section position

variable (code acc : List UInt8)

lemma length_behind : (code ++ acc).length = code.length + acc.length := List.length_append

lemma set_behind (k : Nat) (b : UInt8) :
    (code ++ acc).set (code.length + k) b = code ++ acc.set k b := by
  rw [List.set_append_right _ _ (Nat.le_add_right _ _), Nat.add_sub_cancel_left]

/-- A distance does not depend on where the code stands. -/
lemma patchDistance_add (n a b : Nat) :
    patchDistance (n + a) (n + b) = patchDistance a b := by
  have hsame : ((n + a : Nat) : Int) - ((n + b : Nat) + 1) = (a : Int) - (b + 1) := by omega
  rw [patchDistance, patchDistance, hsame]

lemma emitCompares_append (specs : List (UInt8 × UInt8 × UInt8)) :
    emitCompares (code ++ acc) specs =
      (code ++ (emitCompares acc specs).1, (emitCompares acc specs).2.map (code.length + ·)) := by
  induction specs generalizing acc with
  | nil => rfl
  | cons spec specs ih =>
      simp only [emitCompares, List.append_assoc]
      rw [ih]
      simp

lemma emitEscapes_append (specs : List (UInt8 × UInt8 × UInt8)) (patches : List Nat) :
    emitEscapes (code ++ acc) specs (patches.map (code.length + ·)) =
      (code ++ (emitEscapes acc specs patches).1,
        (emitEscapes acc specs patches).2.map (code.length + ·)) := by
  induction specs generalizing acc patches with
  | nil => rfl
  | cons spec specs ih =>
      cases patches with
      | nil => rfl
      | cons patch patches =>
          simp only [emitEscapes, List.map_cons, List.length_append, set_behind, patchDistance_add]
          by_cases hlast : specs = []
          · simp [hlast]
          · simp only [if_neg hlast, List.append_assoc]
            rw [ih]
            simp [Nat.add_assoc]

/-- The bytes that are patched at the end. -/
lemma foldl_set_append (target : Nat) (patches : List Nat) :
    (patches.map (code.length + ·)).foldl
        (fun c patch => c.set patch (patchDistance (code.length + target) patch)) (code ++ acc) =
      code ++ patches.foldl (fun c patch => c.set patch (patchDistance target patch)) acc := by
  induction patches generalizing acc with
  | nil => rfl
  | cons patch patches ih =>
      rw [List.map_cons, List.foldl_cons, List.foldl_cons, set_behind, patchDistance_add]
      exact ih _

lemma emitAdvance_append (loopTop loopEndPatch : Nat) :
    emitAdvance (code ++ acc) (code.length + loopTop) (code.length + loopEndPatch) =
      code ++ emitAdvance acc loopTop loopEndPatch := by
  have hback (a b : Nat) : byteOf (((code.length + a : Nat) : Int) - (code.length + b + 1 : Nat)) =
      byteOf ((a : Int) - (b + 1 : Nat)) := by
    congr 1
    omega
  simp only [emitAdvance, List.append_assoc]
  simp only [length_behind code, hback, set_behind, patchDistance_add]

lemma emitJsonEscapeFillLoop_append :
    emitJsonEscapeFillLoop (code ++ acc) = code ++ emitJsonEscapeFillLoop acc := by
  simp only [emitJsonEscapeFillLoop, List.append_assoc]
  rw [emitCompares_append]
  simp only [List.append_assoc]
  rw [emitEscapes_append]
  simp only [length_behind code, ← List.map_cons, foldl_set_append, emitAdvance_append]

end position

/-- The bytes are the ones of the instructions. -/
theorem emitJsonEscapeFillLoop_eq (code : List UInt8) :
    emitJsonEscapeFillLoop code = code ++ encode fillLoop := by
  have hnil : emitJsonEscapeFillLoop [] = encode fillLoop := by decide +kernel
  rw [← hnil, ← emitJsonEscapeFillLoop_append, List.append_nil]

end Verbosec.Native.JsonFill
