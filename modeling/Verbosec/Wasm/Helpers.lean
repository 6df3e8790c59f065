import Verbosec.Lib.Wasm

/-!
# The helper functions of the WebAssembly backend

* `buildItoaBody`, `buildParseIntBody`, `buildJsonEscapeBody` - the bytes of the helpers.
* `itoa`, `parseInt`, `jsonEscapeHelper` - the functions that they encode.

Source: `wasm.rs`, `build_itoa_body`, `build_parse_int_body` and `build_json_escape_body`.
-/

namespace Verbosec.Wasm

open Lib.Wasm

/-! ## Bytes -/

/-- Source: `wasm.rs`, `build_itoa_body` -/
def buildItoaBody : List UInt8 := [
  0x02, 0x01, 0x7E, 0x02, 0x7F,
  0x20, 0x00, 0x21, 0x01,
  0x41, 0x00, 0x21, 0x03,
  0x20, 0x01, 0x42, 0x00, 0x53,
  0x04, 0x40,
    0x41, 0x01, 0x21, 0x03,
    0x42, 0x00, 0x20, 0x01, 0x7D, 0x21, 0x01,
  0x0B,
  0x20, 0x01, 0x50,
  0x04, 0x40,
    0x41, 0x10, 0x41, 0x30, 0x3A, 0x00, 0x00,
    0x41, 0x10, 0x41, 0x01, 0x0F,
  0x0B,
  0x41, 0x2F, 0x21, 0x02,
  0x03, 0x40,
    0x20, 0x02, 0x20, 0x01, 0x42, 0x0A, 0x82, 0xA7, 0x41, 0x30, 0x6A, 0x3A, 0x00, 0x00,
    0x20, 0x02, 0x41, 0x01, 0x6B, 0x21, 0x02,
    0x20, 0x01, 0x42, 0x0A, 0x80, 0x21, 0x01,
    0x20, 0x01, 0x42, 0x00, 0x52, 0x0D, 0x00,
  0x0B,
  0x20, 0x03,
  0x04, 0x40,
    0x20, 0x02, 0x41, 0x2D, 0x3A, 0x00, 0x00,
    0x20, 0x02, 0x41, 0x01, 0x6B, 0x21, 0x02,
  0x0B,
  0x20, 0x02, 0x41, 0x01, 0x6A,
  0x41, 0x2F, 0x20, 0x02, 0x6B,
  0x0B]

/-- Source: `wasm.rs`, `build_parse_int_body` -/
def buildParseIntBody : List UInt8 := [
  0x02, 0x01, 0x7E, 0x03, 0x7F,
  0x42, 0x00, 0x21, 0x02,
  0x41, 0x00, 0x21, 0x03,
  0x41, 0x00, 0x21, 0x04,
  0x20, 0x01, 0x45, 0x04, 0x40, 0x00, 0x0B,
  0x20, 0x00, 0x2D, 0x00, 0x00, 0x21, 0x05,
  0x20, 0x05, 0x41, 0x2D, 0x46,
  0x04, 0x40,
    0x41, 0x01, 0x21, 0x04,
    0x41, 0x01, 0x21, 0x03,
    0x20, 0x01, 0x41, 0x01, 0x46, 0x04, 0x40, 0x00, 0x0B,
  0x0B,
  0x02, 0x40,
    0x03, 0x40,
      0x20, 0x03, 0x20, 0x01, 0x4E, 0x04, 0x40, 0x0C, 0x02, 0x0B,
      0x20, 0x00, 0x20, 0x03, 0x6A, 0x2D, 0x00, 0x00, 0x21, 0x05,
      0x20, 0x05, 0x41, 0x30, 0x48, 0x04, 0x40, 0x00, 0x0B,
      0x20, 0x05, 0x41, 0x39, 0x4A, 0x04, 0x40, 0x00, 0x0B,
      0x20, 0x02, 0x42, 0x0A, 0x7E, 0x20, 0x05, 0x41, 0x30, 0x6B, 0xAC, 0x7C, 0x21, 0x02,
      0x20, 0x03, 0x41, 0x01, 0x6A, 0x21, 0x03,
      0x0C, 0x00,
    0x0B,
  0x0B,
  0x20, 0x04,
  0x04, 0x40,
    0x42, 0x00, 0x20, 0x02, 0x7D, 0x21, 0x02,
  0x0B,
  0x20, 0x02,
  0x0B]

/-- A backslash and `b`, and the cursor past them. -/
def escapeBytes (b : List UInt8) : List UInt8 :=
  [0x20, 0x03, 0x41, 0xDC, 0x00, 0x3A, 0x00, 0x00,
    0x20, 0x03, 0x41, 0x01, 0x6A, 0x41] ++ b ++ [0x3A, 0x00, 0x00,
    0x20, 0x03, 0x41, 0x02, 0x6A, 0x21, 0x03]

/-- Source: `wasm.rs`, `build_json_escape_body` -/
def buildJsonEscapeBody : List UInt8 :=
  [0x01, 0x04, 0x7F,
    0x20, 0x02, 0x21, 0x03,
    0x41, 0x00, 0x21, 0x04,
    0x02, 0x40,
    0x03, 0x40,
    0x20, 0x04, 0x20, 0x01, 0x4E, 0x04, 0x40, 0x0C, 0x02, 0x0B,
    0x20, 0x00, 0x20, 0x04, 0x6A, 0x2D, 0x00, 0x00, 0x21, 0x05,
    0x20, 0x05, 0x41, 0x22, 0x46, 0x04, 0x40] ++ escapeBytes [0x22] ++ [0x05,
    0x20, 0x05, 0x41, 0xDC, 0x00, 0x46, 0x04, 0x40] ++ escapeBytes [0xDC, 0x00] ++ [0x05,
    0x20, 0x05, 0x41, 0x0A, 0x46, 0x04, 0x40] ++ escapeBytes [0xEE, 0x00] ++ [0x05,
    0x20, 0x05, 0x41, 0x0D, 0x46, 0x04, 0x40] ++ escapeBytes [0xF2, 0x00] ++ [0x05,
    0x20, 0x05, 0x41, 0x09, 0x46, 0x04, 0x40] ++ escapeBytes [0xF4, 0x00] ++ [0x05,
    0x20, 0x05, 0x41, 0x20, 0x48, 0x04, 0x40,
      0x20, 0x03, 0x41, 0xDC, 0x00, 0x3A, 0x00, 0x00,
      0x20, 0x03, 0x41, 0x01, 0x6A, 0x41, 0xF5, 0x00, 0x3A, 0x00, 0x00,
      0x20, 0x03, 0x41, 0x02, 0x6A, 0x41, 0x30, 0x3A, 0x00, 0x00,
      0x20, 0x03, 0x41, 0x03, 0x6A, 0x41, 0x30, 0x3A, 0x00, 0x00,
      0x20, 0x03, 0x41, 0x04, 0x6A,
      0x20, 0x05, 0x41, 0x04, 0x76, 0x41, 0x30, 0x6A, 0x3A, 0x00, 0x00,
      0x20, 0x05, 0x41, 0x0F, 0x71, 0x21, 0x06,
      0x20, 0x03, 0x41, 0x05, 0x6A,
      0x20, 0x06, 0x41, 0x30, 0x6A,
      0x20, 0x06, 0x41, 0xD7, 0x00, 0x6A,
      0x20, 0x06, 0x41, 0x0A, 0x48, 0x1B, 0x3A, 0x00, 0x00,
      0x20, 0x03, 0x41, 0x06, 0x6A, 0x21, 0x03,
    0x05,
      0x20, 0x03, 0x20, 0x05, 0x3A, 0x00, 0x00,
      0x20, 0x03, 0x41, 0x01, 0x6A, 0x21, 0x03] ++ List.replicate 6 0x0B ++ [
    0x20, 0x04, 0x41, 0x01, 0x6A, 0x21, 0x04,
    0x0C, 0x00,
    0x0B,
    0x0B,
    0x20, 0x02,
    0x20, 0x03, 0x20, 0x02, 0x6B,
    0x20, 0x03,
    0x0B]

/-! ## Instructions -/

/-- A digit is written, and the number is divided. -/
def itoaRound : List Instr :=
  ops [.localGet 2, .localGet 1, .i64Const 10, .i64RemU, .i32WrapI64, .i32Const 48, .i32Add,
    .i32Store8 0, .localGet 2, .i32Const 1, .i32Sub, .localSet 2, .localGet 1, .i64Const 10,
    .i64DivU, .localSet 1, .localGet 1, .i64Const 0, .i64Ne] ++ [Instr.brIf 0]

/-- The function of `buildItoaBody`: local 1 is the number, 2 the cursor, 3 the sign. -/
def itoa : Func where
  locals := [.i64 0, .i32 0, .i32 0]
  body :=
    ops [.localGet 0, .localSet 1, .i32Const 0, .localSet 3, .localGet 1, .i64Const 0, .i64LtS] ++
    [Instr.ite
      (ops [.i32Const 1, .localSet 3, .i64Const 0, .localGet 1, .i64Sub, .localSet 1]) []] ++
    ops [.localGet 1, .i64Eqz] ++
    [Instr.ite (ops [.i32Const 16, .i32Const 48, .i32Store8 0, .i32Const 16, .i32Const 1] ++
      [Instr.ret]) []] ++
    ops [.i32Const 47, .localSet 2] ++
    [Instr.loop itoaRound] ++
    ops [.localGet 3] ++
    [Instr.ite (ops [.localGet 2, .i32Const 45, .i32Store8 0, .localGet 2, .i32Const 1, .i32Sub,
      .localSet 2]) []] ++
    ops [.localGet 2, .i32Const 1, .i32Add, .i32Const 47, .localGet 2, .i32Sub]

/-- A digit is read, or the scan ends. -/
def parseRound : List Instr :=
  ops [.localGet 3, .localGet 1, .i32GeS] ++ [Instr.ite [.br 2] []] ++
  ops [.localGet 0, .localGet 3, .i32Add, .i32Load8U 0, .localSet 5, .localGet 5, .i32Const 48,
    .i32LtS] ++ [Instr.ite [.unreachable] []] ++
  ops [.localGet 5, .i32Const 57, .i32GtS] ++ [Instr.ite [.unreachable] []] ++
  ops [.localGet 2, .i64Const 10, .i64Mul, .localGet 5, .i32Const 48, .i32Sub, .i64ExtendI32S,
    .i64Add, .localSet 2, .localGet 3, .i32Const 1, .i32Add, .localSet 3] ++ [Instr.br 0]

/-- The function of `buildParseIntBody`: local 2 is the number, 3 the cursor, 4 the sign, 5 the
byte. -/
def parseInt : Func where
  locals := [.i64 0, .i32 0, .i32 0, .i32 0]
  body :=
    ops [.i64Const 0, .localSet 2, .i32Const 0, .localSet 3, .i32Const 0, .localSet 4, .localGet 1,
      .i32Eqz] ++ [Instr.ite [.unreachable] []] ++
    ops [.localGet 0, .i32Load8U 0, .localSet 5, .localGet 5, .i32Const 45, .i32Eq] ++
    [Instr.ite (ops [.i32Const 1, .localSet 4, .i32Const 1, .localSet 3, .localGet 1, .i32Const 1,
      .i32Eq] ++ [Instr.ite [.unreachable] []]) []] ++
    [Instr.block [.loop parseRound]] ++
    ops [.localGet 4] ++
    [Instr.ite (ops [.i64Const 0, .localGet 2, .i64Sub, .localSet 2]) []] ++
    ops [.localGet 2]

/-- A backslash and `b` are written. -/
def writeEscape (b : Nat) : List Instr :=
  ops [.localGet 3, .i32Const 92, .i32Store8 0, .localGet 3, .i32Const 1, .i32Add, .i32Const b,
    .i32Store8 0, .localGet 3, .i32Const 2, .i32Add, .localSet 3]

/-- A control byte is written as four hexadecimal digits. -/
def writeControl : List Instr :=
  ops [.localGet 3, .i32Const 92, .i32Store8 0,
    .localGet 3, .i32Const 1, .i32Add, .i32Const 117, .i32Store8 0,
    .localGet 3, .i32Const 2, .i32Add, .i32Const 48, .i32Store8 0,
    .localGet 3, .i32Const 3, .i32Add, .i32Const 48, .i32Store8 0,
    .localGet 3, .i32Const 4, .i32Add, .localGet 5, .i32Const 4, .i32ShrU, .i32Const 48, .i32Add,
    .i32Store8 0,
    .localGet 5, .i32Const 15, .i32And, .localSet 6,
    .localGet 3, .i32Const 5, .i32Add, .localGet 6, .i32Const 48, .i32Add, .localGet 6,
    .i32Const 87, .i32Add, .localGet 6, .i32Const 10, .i32LtS, .select, .i32Store8 0,
    .localGet 3, .i32Const 6, .i32Add, .localSet 3]

/-- Any other byte is copied. -/
def writeByte : List Instr :=
  ops [.localGet 3, .localGet 5, .i32Store8 0, .localGet 3, .i32Const 1, .i32Add, .localSet 3]

/-- The byte is compared with `c`. -/
def whenByte (c : Nat) (yes no : List Instr) : List Instr :=
  ops [.localGet 5, .i32Const c, .i32Eq] ++ [Instr.ite yes no]

/-- One byte of the output for the byte of local 5. -/
def writeEscaped : List Instr :=
  whenByte 34 (writeEscape 34) <| whenByte 92 (writeEscape 92) <| whenByte 10 (writeEscape 110) <|
    whenByte 13 (writeEscape 114) <| whenByte 9 (writeEscape 116) <|
      ops [.localGet 5, .i32Const 32, .i32LtS] ++ [Instr.ite writeControl writeByte]

/-- A byte is read and written, or the scan ends. -/
def escapeRound : List Instr :=
  ops [.localGet 4, .localGet 1, .i32GeS] ++ [Instr.ite [.br 2] []] ++
  ops [.localGet 0, .localGet 4, .i32Add, .i32Load8U 0, .localSet 5] ++ writeEscaped ++
  ops [.localGet 4, .i32Const 1, .i32Add, .localSet 4] ++ [Instr.br 0]

/-- The function of `buildJsonEscapeBody`: local 3 is the cursor, 4 the index, 5 the byte, 6 a
nibble. -/
def jsonEscapeHelper : Func where
  locals := [.i32 0, .i32 0, .i32 0, .i32 0]
  body :=
    ops [.localGet 2, .localSet 3, .i32Const 0, .localSet 4] ++
    [Instr.block [.loop escapeRound]] ++
    ops [.localGet 2, .localGet 3, .localGet 2, .i32Sub, .localGet 3]

set_option maxRecDepth 8000 in
theorem decode_itoa : decodeFunc buildItoaBody = some itoa := rfl

set_option maxRecDepth 8000 in
theorem decode_parseInt : decodeFunc buildParseIntBody = some parseInt := rfl

set_option maxRecDepth 8000 in
theorem decode_jsonEscapeHelper : decodeFunc buildJsonEscapeBody = some jsonEscapeHelper := rfl

end Verbosec.Wasm
