import Verbosec.Lib.Bytes
import Verbosec.Lib.X86

/-!
# The request parser of the native backend

* `parseMethodPathBytes`, `parseBodyBytes` - the bytes that the compiler emits.
* `methodPathCode`, `bodyCode` - the instructions that they encode.
* `Frame` - where the slots and the buffer lie below `rbp`.
* `parseRequest` - the parts of a request.

Source: `native.rs`, `emit_http_parse_method_path` and the body scan of
`emit_http10_dynamic_bytes`.
-/

namespace Verbosec.Http.Parse

open Lib.X86

/-! ## Emission

`fail` is the position of the close label, counted from the first byte of the parser; the distances
that the caller patches are the ones to it. -/

/-- The check of the length of a token that starts at the address in a slot. Source: `native.rs`,
`emit_token_len_guard` -/
def tokenLenGuardBytes (startSlot : UInt8) (max failDistance : Int) : List UInt8 :=
  [0x49, 0x89, 0xD8] ++ [0x4C, 0x2B, 0x45, startSlot] ++ [0x49, 0x81, 0xF8] ++ le32 max ++
    [0x0F, 0x8F] ++ le32 failDistance

/-- The declared bound of a method. Source: `native.rs`, `http_request_builtin_concept_native` -/
def methodMax : Int := 8

/-- The declared bound of a path. Source: `native.rs`, `http_request_builtin_concept_native` -/
def pathMax : Int := 256

/-- Source: `native.rs`, `emit_http_parse_method_path` -/
def parseMethodPathBytes (bufOffset : Int) (fail : Nat) : List UInt8 :=
  [0x48, 0x8D, 0x9D] ++ le32 bufOffset ++ [0x48, 0x89, 0x5D, 0xF8] ++
  -- scan_method
  [0x48, 0x85, 0xC0] ++ [0x0F, 0x84] ++ le32 (fail - 20) ++ [0x80, 0x3B, 0x20] ++ [0x74, 8] ++
  [0x48, 0xFF, 0xC3] ++ [0x48, 0xFF, 0xC8] ++ [0xEB, byteOf (11 - 33)] ++
  -- method_end
  tokenLenGuardBytes 0xF8 methodMax (fail - 53) ++ [0xC6, 0x03, 0x00] ++ [0x48, 0xFF, 0xC3] ++
  [0x48, 0xFF, 0xC8] ++ [0x48, 0x89, 0x5D, 0xF0] ++
  -- scan_path
  [0x48, 0x85, 0xC0] ++ [0x0F, 0x84] ++ le32 (fail - 75) ++ [0x44, 0x8A, 0x03] ++
  [0x41, 0x80, 0xF8, 0x20] ++ [0x74, 20] ++ [0x41, 0x80, 0xF8, 0x0D] ++ [0x74, 14] ++
  [0x41, 0x80, 0xF8, 0x0A] ++ [0x74, 8] ++ [0x48, 0xFF, 0xC3] ++ [0x48, 0xFF, 0xC8] ++
  [0xEB, byteOf (66 - 104)] ++
  -- path_end
  tokenLenGuardBytes 0xF0 pathMax (fail - 124) ++ [0xC6, 0x03, 0x00]

/-- Source: `native.rs`, the body scan of `emit_http10_dynamic_bytes` -/
def parseBodyBytes (bodyPtrSlot bodyLenSlot : Int) (fail : Nat) : List UInt8 :=
  [0x48, 0x83, 0xF8, 0x04] ++ [0x0F, 0x8C] ++ le32 (fail - 137) ++
  [0x81, 0x3B, 0x0D, 0x0A, 0x0D, 0x0A] ++ [0x74, 8] ++ [0x48, 0xFF, 0xC3] ++ [0x48, 0xFF, 0xC8] ++
  [0xEB, byteOf (127 - 153)] ++ [0x48, 0x83, 0xC3, 0x04] ++ [0x48, 0x83, 0xE8, 0x04] ++
  (if -128 ≤ bodyPtrSlot then [0x48, 0x89, 0x5D, byteOf bodyPtrSlot]
    else [0x48, 0x89, 0x9D] ++ le32 bodyPtrSlot) ++
  (if -128 ≤ bodyLenSlot then [0x48, 0x89, 0x45, byteOf bodyLenSlot]
    else [0x48, 0x89, 0x85] ++ le32 bodyLenSlot)

/-! ## Instructions -/

/-- The instructions of `tokenLenGuardBytes`. -/
def tokenLenGuard (startSlot max failDistance : Int) : List Instr :=
  ops [.mov .r8 .rbx, .subMem .r8 .rbp startSlot, .cmpImm32 .r8 max] ++
    [Instr.jcc32 .g failDistance]

/-- The instructions of `parseMethodPathBytes`. -/
def methodPathCode (bufOffset : Int) (fail : Nat) : List Instr :=
  List.flatten [
    ops [.lea .rbx .rbp bufOffset, .store64 .rbp (-8) .rbx],
    -- scan_method
    ops [.test .rax], [.jcc32 .z (fail - 20)], ops [.cmpMem8 .rbx 0x20], [.jcc8 .z 8],
    ops [.inc .rbx, .dec .rax], [.jmp8 (-22)],
    -- method_end
    tokenLenGuard (-8) methodMax (fail - 53),
    ops [.store8Imm .rbx 0, .inc .rbx, .dec .rax, .store64 .rbp (-16) .rbx],
    -- scan_path
    ops [.test .rax], [.jcc32 .z (fail - 75)], ops [.load8 .r8 .rbx],
    ops [.cmpReg8 .r8 0x20], [.jcc8 .z 20], ops [.cmpReg8 .r8 0x0D], [.jcc8 .z 14],
    ops [.cmpReg8 .r8 0x0A], [.jcc8 .z 8], ops [.inc .rbx, .dec .rax], [.jmp8 (-38)],
    -- path_end
    tokenLenGuard (-16) pathMax (fail - 124), ops [.store8Imm .rbx 0]]

/-- The last instructions of the body scan: the separator is passed, and the slots are written. -/
def bodyFound (bodyPtrSlot bodyLenSlot : Int) : List Op :=
  [.addImm .rbx 4, .subImm .rax 4, .store64 .rbp bodyPtrSlot .rbx, .store64 .rbp bodyLenSlot .rax]

/-- The instructions of `parseBodyBytes`. -/
def bodyCode (bodyPtrSlot bodyLenSlot : Int) (fail : Nat) : List Instr :=
  List.flatten [
    ops [.cmpImm8 .rax 4], [.jcc32 .l (fail - 137)], ops [.cmpMem32 .rbx 0x0A0D0A0D],
    [.jcc8 .z 8], ops [.inc .rbx, .dec .rax], [.jmp8 (-26)],
    ops (bodyFound bodyPtrSlot bodyLenSlot)]

theorem encode_methodPathCode (bufOffset : Int) (fail : Nat) :
    encode (methodPathCode bufOffset fail) = parseMethodPathBytes bufOffset fail := by
  have hstart : encode (ops [.lea .rbx .rbp bufOffset, .store64 .rbp (-8) .rbx]) =
    [0x48, 0x8D, 0x9D] ++ le32 bufOffset ++ [0x48, 0x89, 0x5D, 0xF8] := rfl
  have htest : encode (ops [.test .rax]) = [0x48, 0x85, 0xC0] := rfl
  have hspace : encode (ops [.cmpMem8 .rbx 0x20]) = [0x80, 0x3B, 0x20] := rfl
  have hnext : encode (ops [.inc .rbx, .dec .rax]) = [0x48, 0xFF, 0xC3] ++ [0x48, 0xFF, 0xC8] := rfl
  have hguard (slot : Int) (hslot : short slot = true) (max : Int) :
      encode (ops [.mov .r8 .rbx, .subMem .r8 .rbp slot, .cmpImm32 .r8 max]) =
        [0x49, 0x89, 0xD8] ++ [0x4C, 0x2B, 0x45, byteOf slot] ++ [0x49, 0x81, 0xF8] ++ le32 max := by
    simp only [encode, ops, List.map_cons, List.map_nil, List.flatMap_cons, List.flatMap_nil,
      Instr.encode, Op.encode, displacement, hslot, if_true, List.append_assoc, List.append_nil]
    rfl
  have hpath : encode (ops [.store8Imm .rbx 0, .inc .rbx, .dec .rax, .store64 .rbp (-16) .rbx]) =
    [0xC6, 0x03, 0x00] ++ [0x48, 0xFF, 0xC3] ++ [0x48, 0xFF, 0xC8] ++ [0x48, 0x89, 0x5D, 0xF0] := rfl
  have hload : encode (ops [.load8 .r8 .rbx]) = [0x44, 0x8A, 0x03] := rfl
  have hcompare (x : UInt8) : encode (ops [.cmpReg8 .r8 x]) = [0x41, 0x80, 0xF8, x] := rfl
  have hend : encode (ops [.store8Imm .rbx 0]) = [0xC6, 0x03, 0x00] := rfl
  have hje (d : Int) : encode [.jcc8 .z d] = [0x74, byteOf d] := rfl
  have hjmp (d : Int) : encode [.jmp8 d] = [0xEB, byteOf d] := rfl
  have hz : (0x80 + Cond.code .z : UInt8) = 0x84 := rfl
  have hg : (0x80 + Cond.code .g : UInt8) = 0x8F := rfl
  have hmethod : byteOf (-8) = 0xF8 := rfl
  have hslot : byteOf (-16) = 0xF0 := rfl
  have hfound : byteOf 8 = 8 := rfl
  have hcr : byteOf 14 = 14 := rfl
  have hblank : byteOf 20 = 20 := rfl
  have hback : byteOf (-22) = byteOf (11 - 33) := rfl
  have hback' : byteOf (-38) = byteOf (66 - 104) := rfl
  unfold methodPathCode tokenLenGuard parseMethodPathBytes tokenLenGuardBytes
  simp only [List.flatten_cons, List.flatten_nil, List.append_nil, encode_append, encode_jcc32,
    hstart, htest, hspace, hnext, hguard (-8) rfl, hguard (-16) rfl, hpath, hload, hcompare, hend,
    hje, hjmp, List.append_assoc, hz, hg, hmethod, hslot, hfound, hcr, hblank, hback, hback']

theorem encode_bodyCode {bodyPtrSlot bodyLenSlot : Int} (fail : Nat) (hptr : bodyPtrSlot < 0)
    (hlen : bodyLenSlot < 0) :
    encode (bodyCode bodyPtrSlot bodyLenSlot fail) =
      parseBodyBytes bodyPtrSlot bodyLenSlot fail := by
  have hcount : encode (ops [.cmpImm8 .rax 4]) = [0x48, 0x83, 0xF8, 0x04] := rfl
  have hword : encode (ops [.cmpMem32 .rbx 0x0A0D0A0D]) = [0x81, 0x3B, 0x0D, 0x0A, 0x0D, 0x0A] := rfl
  have hnext : encode (ops [.inc .rbx, .dec .rax]) = [0x48, 0xFF, 0xC3] ++ [0x48, 0xFF, 0xC8] := rfl
  have hje (d : Int) : encode [.jcc8 .z d] = [0x74, byteOf d] := rfl
  have hjmp (d : Int) : encode [.jmp8 d] = [0xEB, byteOf d] := rfl
  have hl : (0x80 + Cond.code .l : UInt8) = 0x8C := rfl
  have hshort : byteOf 8 = 8 := rfl
  have hback : byteOf (-26) = byteOf (127 - 153) := rfl
  have hslot (src : Reg) (z : Int) (hz : z < 0) (short long : UInt8)
      (hshort : modRM 1 src.code 5 = short) (hlong : modRM 2 src.code 5 = long) :
      displacement src.code 5 z =
        if -128 ≤ z then [short, byteOf z] else long :: le32 z := by
    rw [displacement, hshort, hlong]
    by_cases h : -128 ≤ z
    · rw [if_pos h, if_pos (show Lib.X86.short z = true from decide_eq_true ⟨h, by omega⟩)]
    · rw [if_neg h, if_neg (show ¬ Lib.X86.short z = true from fun h' => h (of_decide_eq_true h').1)]
  have hfound : encode (ops (bodyFound bodyPtrSlot bodyLenSlot)) =
      [0x48, 0x83, 0xC3, 0x04] ++ [0x48, 0x83, 0xE8, 0x04] ++
      (if -128 ≤ bodyPtrSlot then [0x48, 0x89, 0x5D, byteOf bodyPtrSlot]
        else [0x48, 0x89, 0x9D] ++ le32 bodyPtrSlot) ++
      (if -128 ≤ bodyLenSlot then [0x48, 0x89, 0x45, byteOf bodyLenSlot]
        else [0x48, 0x89, 0x85] ++ le32 bodyLenSlot) := by
    have hrbx := hslot .rbx bodyPtrSlot hptr 0x5D 0x9D rfl rfl
    have hrax := hslot .rax bodyLenSlot hlen 0x45 0x85 rfl rfl
    simp only [encode, bodyFound, ops, List.map_cons, List.map_nil, List.flatMap_cons,
      List.flatMap_nil, Instr.encode, Op.encode, List.append_nil]
    rw [show Reg.code .rbp = 5 from rfl, hrbx, hrax]
    split_ifs <;> rfl
  simp only [bodyCode, parseBodyBytes, List.flatten_cons, List.flatten_nil, List.append_nil,
    encode_append, encode_jcc32, hcount, hword, hnext, hje, hjmp,
    hfound, List.append_assoc, hl, hshort, hback]

/-! ## Frames -/

/-- Where the slots and the buffer of a service lie below `rbp`. Source: `native.rs`, the frame
layout of `emit_http10_dynamic_bytes` -/
structure Frame where
  /-- is there a slot for the time? -/
  usesTimestamp : Bool
  /-- are there slots for the body? -/
  usesBody : Bool
  /-- everything above the buffer -/
  frameBase : Nat
  maxRequest : Nat
  /-- the position of the close label -/
  fail : Nat

namespace Frame

variable (f : Frame)

/-- Source: `native.rs`, `body_pre_offset` -/
def bodyPreOffset : Nat := if f.usesTimestamp then 56 else 48

/-- Source: `native.rs`, `body_ptr_slot` -/
def bodyPtrSlot : Int := -(f.bodyPreOffset + 8 : Nat)

/-- Source: `native.rs`, `body_len_slot` -/
def bodyLenSlot : Int := -(f.bodyPreOffset + 16 : Nat)

/-- Source: `native.rs`, `buf_offset_from_rbp` -/
def bufOffset : Int := -(f.frameBase + f.maxRequest : Nat)

/-- The parser of a service. -/
def code : List Instr :=
  methodPathCode f.bufOffset f.fail ++
    if f.usesBody then bodyCode f.bodyPtrSlot f.bodyLenSlot f.fail else []

/-- The emitted parser. -/
def bytes : List UInt8 :=
  parseMethodPathBytes f.bufOffset f.fail ++
    if f.usesBody then parseBodyBytes f.bodyPtrSlot f.bodyLenSlot f.fail else []

/-- The instructions are the ones that the compiler emits. -/
theorem encode_code : encode f.code = f.bytes := by
  rw [code, encode_append, encode_methodPathCode, bytes]
  cases f.usesBody with
  | false => rfl
  | true =>
      rw [if_pos rfl, if_pos rfl, encode_bodyCode]
      · rw [bodyPtrSlot]
        omega
      · rw [bodyLenSlot]
        omega

/-- The buffer has a byte, the fixed slots are part of the frame, the frame fits the offsets, and the
close label stands behind the parser. -/
structure Wf : Prop where
  positive : 0 < f.maxRequest
  slots : f.bodyPreOffset + (if f.usesBody then 16 else 0) ≤ f.frameBase
  offsets : f.frameBase + f.maxRequest < 2 ^ 31
  label : size f.code < f.fail

end Frame

/-! ## Requests -/

/-- The bytes before the first one that satisfies `p`, and the bytes from it on. -/
def splitFirst (p : UInt8 → Bool) : List UInt8 → Option (List UInt8 × List UInt8)
  | [] => none
  | b :: bs => if p b then some ([], b :: bs) else (splitFirst p bs).map fun x => (b :: x.1, x.2)

/-- Does the byte end a method? -/
def isSpace (b : UInt8) : Bool := b = 0x20

/-- Does the byte end a path? -/
def isDelimiter (b : UInt8) : Bool := b = 0x20 || b = 0x0D || b = 0x0A

/-- The empty line behind the headers. -/
def blankLine : List UInt8 := [0x0D, 0x0A, 0x0D, 0x0A]

/-- The bytes behind the first empty line. -/
def bodyAfter : List UInt8 → Option (List UInt8)
  | [] => none
  | b :: bs => if blankLine <+: b :: bs then some ((b :: bs).drop 4) else bodyAfter bs

/-- The method, the path, and the bytes from the delimiter of the path on. -/
def tokens (bytes : List UInt8) : Option (List UInt8 × List UInt8 × List UInt8) := do
  let (method, rest) ← splitFirst isSpace bytes
  if (method.length : Int) ≤ methodMax then
    let (path, tail) ← splitFirst isDelimiter (rest.drop 1)
    if (path.length : Int) ≤ pathMax then some (method, path, tail) else none
  else none

/-- The parts of a request; the body where it is read. -/
structure Request where
  method : List UInt8
  path : List UInt8
  body : Option (List UInt8)
  deriving DecidableEq

/-- The parts of a request. -/
def parseRequest (usesBody : Bool) (bytes : List UInt8) : Option Request := do
  let (method, path, tail) ← tokens bytes
  if usesBody then
    let body ← bodyAfter tail
    some ⟨method, path, some body⟩
  else some ⟨method, path, none⟩

end Verbosec.Http.Parse
