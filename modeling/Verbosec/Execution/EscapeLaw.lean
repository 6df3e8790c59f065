import Verbosec.Interpreter.TextBytes
import Verbosec.Native.JsonFillSound
import Verbosec.Wasm.JsonEscape

/-!
# The JSON escape in the four implementations

* `escapeJsonString` - the escape of the optimizer.
* `Plain` - the bytes on which the implementations agree.
* `flatMap_eq_of_length` - where one image of each element is at least as long as the other, equal
  totals mean equal images.
* `agree_iff` - the optimizer, the interpreter, the native loop and the WebAssembly helper all write
  the documented escape of a text exactly where all of its bytes are plain.
-/

namespace Verbosec.Execution.EscapeLaw

open Lib Lib.Bytes Interpreter
open Native.JsonFill (lawByte lawBytes Ready)

/-! ## The optimizer -/

/-- The escape of one byte; a byte that needs no escape is read as the character of its own code.
Source: `optimizer.rs`, the loop of `escape_json_string` -/
def escapeByte (b : UInt8) : List Char :=
  if b = 0x22 then ['\\', '"']
  else if b = 0x5C then ['\\', '\\']
  else if b = 0x0A then ['\\', 'n']
  else if b = 0x0D then ['\\', 'r']
  else if b = 0x09 then ['\\', 't']
  else [Char.ofNat b.toNat]

/-- Source: `optimizer.rs`, `escape_json_string` -/
def escapeJsonString (s : String) : String := String.ofList ((utf8Bytes s).flatMap escapeByte)

/-- A folded literal is the text of the interpreter. -/
lemma escapeJsonString_eq (s : String) : escapeJsonString s = jsonEscape s := rfl

/-! ## Plain bytes -/

/-- Is `b` an ASCII byte that is no control byte, or one of the three that have an escape? -/
def Plain (b : UInt8) : Prop := b < 0x80 ∧ (0x20 ≤ b ∨ b = 0x0A ∨ b = 0x0D ∨ b = 0x09)

instance (b : UInt8) : Decidable (Plain b) := inferInstanceAs (Decidable (_ ∧ _))

/-- The bytes of the characters that the interpreter writes for one byte. -/
def charBytes (b : UInt8) : List UInt8 := (jsonEscapeByte b).flatMap String.utf8EncodeChar

lemma utf8Bytes_jsonEscape (s : String) : utf8Bytes (jsonEscape s) = (utf8Bytes s).flatMap charBytes := by
  rw [jsonEscape, utf8Bytes_ofList, List.flatMap_assoc]
  rfl

/-- What holds of the numbers below 256 holds of bytes. -/
lemma forall_byte {P : UInt8 → Prop} (h : ∀ n < 256, P (UInt8.ofNat n)) (b : UInt8) : P b := by
  have hb := h b.toNat (UInt8.toNat_lt b)
  rwa [UInt8.ofNat_toNat] at hb

/-- The bytes of the two writers beside those of the law, checked in one pass over all bytes. -/
lemma bytes_law (b : UInt8) :
    (lawByte b).length ≤ (charBytes b).length ∧
      ((charBytes b).length = (lawByte b).length ↔ b < 0x80) ∧
      (b < 0x80 → charBytes b = lawByte b) ∧
      (lawByte b).length ≤ (Wasm.escapedByte b).length ∧
      ((Wasm.escapedByte b).length = (lawByte b).length ↔
        0x20 ≤ b ∨ b = 0x0A ∨ b = 0x0D ∨ b = 0x09) ∧
      (0x20 ≤ b ∨ b = 0x0A ∨ b = 0x0D ∨ b = 0x09 → Wasm.escapedByte b = lawByte b) :=
  forall_byte (P := fun b =>
    (lawByte b).length ≤ (charBytes b).length ∧
      ((charBytes b).length = (lawByte b).length ↔ b < 0x80) ∧
      (b < 0x80 → charBytes b = lawByte b) ∧
      (lawByte b).length ≤ (Wasm.escapedByte b).length ∧
      ((Wasm.escapedByte b).length = (lawByte b).length ↔
        0x20 ≤ b ∨ b = 0x0A ∨ b = 0x0D ∨ b = 0x09) ∧
      (0x20 ≤ b ∨ b = 0x0A ∨ b = 0x0D ∨ b = 0x09 → Wasm.escapedByte b = lawByte b))
    (by decide +kernel) b

lemma charBytes_length (b : UInt8) : (lawByte b).length ≤ (charBytes b).length := (bytes_law b).1

lemma charBytes_eq_iff (b : UInt8) : (charBytes b).length = (lawByte b).length ↔ b < 0x80 :=
  (bytes_law b).2.1

lemma charBytes_eq {b : UInt8} (h : b < 0x80) : charBytes b = lawByte b := (bytes_law b).2.2.1 h

lemma escapedByte_length (b : UInt8) : (lawByte b).length ≤ (Wasm.escapedByte b).length :=
  (bytes_law b).2.2.2.1

lemma escapedByte_eq_iff (b : UInt8) : (Wasm.escapedByte b).length = (lawByte b).length ↔
    0x20 ≤ b ∨ b = 0x0A ∨ b = 0x0D ∨ b = 0x09 :=
  (bytes_law b).2.2.2.2.1

lemma escapedByte_eq {b : UInt8} (h : 0x20 ≤ b ∨ b = 0x0A ∨ b = 0x0D ∨ b = 0x09) :
    Wasm.escapedByte b = lawByte b :=
  (bytes_law b).2.2.2.2.2 h

/-- Where one image of each element is at least as long as the other, equal totals mean equal
images. -/
lemma flatMap_eq_of_length {α β : Type*} {f g : α → List β}
    (hle : ∀ a, (g a).length ≤ (f a).length) {l : List α}
    (h : (l.flatMap f).length = (l.flatMap g).length) :
    ∀ a ∈ l, (f a).length = (g a).length := by
  have hmono : ∀ l : List α, (l.flatMap g).length ≤ (l.flatMap f).length := by
    intro l
    induction l with
    | nil => exact le_rfl
    | cons a l ih =>
        rw [List.flatMap_cons, List.flatMap_cons, List.length_append, List.length_append]
        exact Nat.add_le_add (hle a) ih
  induction l with
  | nil => exact fun a ha => absurd ha List.not_mem_nil
  | cons a l ih =>
      rw [List.flatMap_cons, List.flatMap_cons, List.length_append, List.length_append] at h
      have ha := hle a
      have hl := hmono l
      intro x hx
      rcases List.mem_cons.mp hx with rfl | hx
      · omega
      · exact ih (by omega) x hx

lemma flatMap_congr {α β : Type*} {f g : α → List β} {l : List α} (h : ∀ a ∈ l, f a = g a) :
    l.flatMap f = l.flatMap g := by
  induction l with
  | nil => rfl
  | cons a l ih =>
      rw [List.flatMap_cons, List.flatMap_cons, h a List.mem_cons_self,
        ih fun x hx => h x (List.mem_cons_of_mem a hx)]

/-- The interpreter writes the law exactly on ASCII texts. -/
lemma jsonEscape_iff (s : String) :
    utf8Bytes (jsonEscape s) = lawBytes (utf8Bytes s) ↔ ∀ b ∈ utf8Bytes s, b < 0x80 := by
  rw [utf8Bytes_jsonEscape, lawBytes]
  constructor
  · intro h b hb
    exact (charBytes_eq_iff b).mp
      (flatMap_eq_of_length charBytes_length (congrArg List.length h) b hb)
  · exact fun h => flatMap_congr fun b hb => charBytes_eq (h b hb)

/-! ## The native loop -/

/-- Source and destination of the native loop: apart from each other, in the accessible bytes. -/
structure NativePlace (ok : Nat → Bool) (g : X86.Regs) (m : Nat → UInt8) (a : Nat)
    (bytes : List UInt8) (q : Nat) : Prop where
  ready : Ready g a bytes.length q
  bytes_at : Holds m a bytes
  bytes_fit : a + bytes.length < 2 ^ 64
  law_fits : q + (lawBytes bytes).length < 2 ^ 64
  separate : Separate a bytes.length q (lawBytes bytes).length
  readable : ∀ i < bytes.length, ok (a + i) = true
  writable : ∀ i < (lawBytes bytes).length, ok (q + i) = true

/-- The code of the native loop runs to its end, with the law at `q` and the other bytes as they
were. -/
def NativeWrites (ok : Nat → Bool) (c : X86.Core) (bytes : List UInt8) (q : Nat) : Prop :=
  ∃ is, (∀ code, Native.JsonFill.emitJsonEscapeFillLoop code = code ++ X86.encode is) ∧
    X86.Leads ok is (0, c) fun t => t.1 = X86.size is ∧ Holds t.2.memory q (lawBytes bytes) ∧
      SameOutside q (q + (lawBytes bytes).length) c.memory t.2.memory ∧
      t.2.regs.rbx = q + (lawBytes bytes).length

lemma nativeWrites {ok : Nat → Bool} {c : X86.Core} {a q : Nat} {bytes : List UInt8}
    (h : NativePlace ok c.regs c.memory a bytes q) : NativeWrites ok c bytes q := by
  refine ⟨_, Native.JsonFill.emitJsonEscapeFillLoop_eq, ?_⟩
  refine (Native.JsonFill.fillLoop_writes h.ready h.bytes_at h.bytes_fit h.law_fits h.separate
    h.readable h.writable).mono ?_
  rintro t ⟨hend, hmemory, hready⟩
  rw [hmemory]
  exact ⟨hend, holds_writeAll _ _ _, sameOutside_writeAll _ _ _, hready.destination⟩

/-! ## The WebAssembly helper -/

/-- Source and destination of the WebAssembly helper: apart from each other, in the memory. -/
structure WasmPlace (m : Nat → UInt8) (size p : Nat) (bytes : List UInt8) (q : Nat) : Prop where
  addressable : size ≤ 2 ^ 32
  bytes_at : Holds m p bytes
  bytes_fit : p + bytes.length ≤ size
  pointer : q < 2 ^ 32
  escape_fits : q + (Wasm.escapedBytes bytes).length ≤ size
  separate : Separate p bytes.length q (Wasm.escapedBytes bytes).length

/-- The helper returns the place of the law, at `q`. -/
def WasmWrites (m : Nat → UInt8) (size p : Nat) (bytes : List UInt8) (q : Nat) : Prop :=
  ∃ f m', Wasm.decodeFunc Wasm.buildJsonEscapeBody = some f ∧
    f.Returns [.i32 p, .i32 bytes.length, .i32 q] m size
      [.i32 q, .i32 (lawBytes bytes).length, .i32 (Wasm.lowBits 32 (q + (lawBytes bytes).length))]
      m' ∧ Holds m' q (lawBytes bytes)

/-- The helper writes the law exactly where the bytes have no escape of six bytes and are fewer than
`2 ^ 31`. -/
lemma wasmWrites_iff {m : Nat → UInt8} {size p q : Nat} {bytes : List UInt8}
    (h : WasmPlace m size p bytes q) : WasmWrites m size p bytes q ↔
      (∀ b ∈ bytes, 0x20 ≤ b ∨ b = 0x0A ∨ b = 0x0D ∨ b = 0x09) ∧ bytes.length < 2 ^ 31 := by
  -- what the call returns, whatever the text
  have hcall : ∀ {out : List UInt8} {m' m'' : Nat → UInt8},
      Wasm.jsonEscapeHelper.Returns [.i32 p, .i32 bytes.length, .i32 q] m size
        [.i32 q, .i32 (lawBytes bytes).length,
          .i32 (Wasm.lowBits 32 (q + (lawBytes bytes).length))] m' →
      Wasm.jsonEscapeHelper.Returns [.i32 p, .i32 bytes.length, .i32 q] m size
        [.i32 q, .i32 out.length, .i32 (Wasm.lowBits 32 (q + out.length))] m'' →
      (lawBytes bytes).length = out.length := fun hlaw hout =>
    Wasm.Value.i32.inj (List.cons.inj (List.cons.inj (hlaw.unique hout rfl).1).2).1
  by_cases hlen : bytes.length < 2 ^ 31
  · obtain ⟨_, m', hreturns, rfl, hholds, -⟩ := Wasm.Func.returns_of_runs (Wasm.jsonEscape_short hlen
      h.addressable h.pointer h.bytes_fit h.escape_fits h.separate h.bytes_at)
    constructor
    · rintro ⟨f, m'', hf, hlaw, -⟩
      rw [Wasm.decode_jsonEscapeHelper] at hf
      cases hf
      have htotal := (hcall hlaw hreturns).symm
      exact ⟨fun b hb => (escapedByte_eq_iff b).mp
        (flatMap_eq_of_length escapedByte_length htotal b hb), hlen⟩
    · rintro ⟨hbytes, -⟩
      have hsame : Wasm.escapedBytes bytes = lawBytes bytes :=
        flatMap_congr fun b hb => escapedByte_eq (hbytes b hb)
      rw [hsame] at hreturns hholds
      exact ⟨_, m', Wasm.decode_jsonEscapeHelper, hreturns, hholds⟩
  · refine iff_of_false ?_ fun h => hlen h.2
    rintro ⟨f, m'', hf, hlaw, -⟩
    rw [Wasm.decode_jsonEscapeHelper] at hf
    cases hf
    have hfit := h.bytes_fit
    have hsize := h.addressable
    obtain ⟨_, m', hreturns, rfl, -, -⟩ := Wasm.Func.returns_of_runs (Wasm.jsonEscape_long (p := p)
      (m := m) (Nat.le_of_not_lt hlen) (by omega) h.pointer)
    have hnone : (lawBytes bytes).length = 0 := hcall hlaw hreturns
    cases bytes with
    | nil => exact hlen (Nat.two_pow_pos 31)
    | cons b bs =>
        rw [Native.JsonFill.lawBytes_cons, List.length_append] at hnone
        have := Native.JsonFill.lawByte_length b
        omega

/-! ## The four implementations -/

/-- All four implementations write the law of a text: the optimizer, the interpreter, and the two
compiled programs at their places. -/
def Agree (s : String) (ok : Nat → Bool) (c : X86.Core) (q : Nat) (m : Nat → UInt8) (size p q' : Nat) :
    Prop :=
  utf8Bytes (escapeJsonString s) = lawBytes (utf8Bytes s) ∧
    utf8Bytes (jsonEscape s) = lawBytes (utf8Bytes s) ∧ NativeWrites ok c (utf8Bytes s) q ∧
    WasmWrites m size p (utf8Bytes s) q'

lemma agree_iff_wasm {s : String} {ok : Nat → Bool} {c : X86.Core} {a q : Nat} {m : Nat → UInt8}
    {size p q' : Nat} (hn : NativePlace ok c.regs c.memory a (utf8Bytes s) q) :
    Agree s ok c q m size p q' ↔
      (∀ b ∈ utf8Bytes s, b < 0x80) ∧ WasmWrites m size p (utf8Bytes s) q' := by
  rw [Agree, escapeJsonString_eq, jsonEscape_iff]
  constructor
  · exact fun h => ⟨h.1, h.2.2.2⟩
  · exact fun h => ⟨h.1, h.1, nativeWrites hn, h.2⟩

/-- All four implementations write the law of a text exactly where its bytes are plain and fewer than
`2 ^ 31`. -/
theorem agree_iff {s : String} {ok : Nat → Bool} {c : X86.Core} {a q : Nat} {m : Nat → UInt8}
    {size p q' : Nat} (hn : NativePlace ok c.regs c.memory a (utf8Bytes s) q)
    (hw : WasmPlace m size p (utf8Bytes s) q') :
    Agree s ok c q m size p q' ↔
      (∀ b ∈ utf8Bytes s, Plain b) ∧ (utf8Bytes s).length < 2 ^ 31 := by
  rw [agree_iff_wasm hn, wasmWrites_iff hw, ← and_assoc]
  refine and_congr_left fun _ => ?_
  constructor
  · exact fun h b hb => ⟨h.1 b hb, h.2 b hb⟩
  · exact fun h => ⟨fun b hb => (h b hb).1, fun b hb => (h b hb).2⟩

/-- A memory with bytes from 1024 on. -/
def textAt (bytes : List UInt8) (x : Nat) : UInt8 := bytes.getD (x - 1024) 0

/-- The start of the native loop on bytes at 1024, with the destination at 65536. -/
def startAt (bytes : List UInt8) : X86.Core where
  regs := ⟨0, bytes.length, 0, 65536, 0, 0, 1024, 0, 0⟩
  memory := textAt bytes
  zero := false
  less := false

lemma holds_textAt (bytes : List UInt8) : Holds (textAt bytes) 1024 bytes := by
  intro i hi
  rw [textAt, Nat.add_sub_cancel_left, List.getD_eq_getElem?_getD, List.getElem?_eq_getElem hi,
    Option.getD_some]

lemma nativePlace_startAt {bytes : List UInt8} (h : bytes.length ≤ 1024)
    (h' : (lawBytes bytes).length ≤ 2048) :
    NativePlace (fun _ => true) (startAt bytes).regs (startAt bytes).memory 1024 bytes 65536 where
  ready := ⟨rfl, rfl, rfl⟩
  bytes_at := holds_textAt bytes
  bytes_fit := by omega
  law_fits := by omega
  separate := .inl (by omega)
  readable := fun _ _ => rfl
  writable := fun _ _ => rfl

lemma wasmPlace_textAt {bytes : List UInt8} (h : bytes.length ≤ 1024)
    (h' : (Wasm.escapedBytes bytes).length ≤ 6144) :
    WasmPlace (textAt bytes) 65536 1024 bytes 4096 where
  addressable := by omega
  bytes_at := holds_textAt bytes
  bytes_fit := by omega
  pointer := by decide
  escape_fits := by omega
  separate := .inl (by omega)

lemma utf8Bytes_line : utf8Bytes (String.ofList ['a', '\n']) = [97, 10] := by
  rw [utf8Bytes_ofList]
  decide

lemma plain_line : ∀ b ∈ ([97, 10] : List UInt8), Plain b := by
  intro b hb
  rcases List.mem_cons.mp hb with rfl | hb
  · exact ⟨by decide, .inl (by decide)⟩
  · cases List.mem_singleton.mp hb
    exact ⟨by decide, .inr (.inl rfl)⟩

/-- On a line all four implementations agree. -/
theorem agree_iff_line : Agree (String.ofList ['a', '\n']) (fun _ => true) (startAt [97, 10]) 65536
    (textAt [97, 10]) 65536 1024 4096 :=
  (agree_iff (s := String.ofList ['a', '\n']) (c := startAt [97, 10]) (a := 1024)
    (utf8Bytes_line ▸ nativePlace_startAt (by decide) (by decide))
    (utf8Bytes_line ▸ wasmPlace_textAt (by decide) (by decide))).mpr
    (utf8Bytes_line ▸ ⟨plain_line, Nat.lt_of_lt_of_le (show 2 < 32 by decide) (by omega)⟩)

lemma utf8Bytes_accent : utf8Bytes (String.ofList ['é']) = [0xC3, 0xA9] := by
  rw [utf8Bytes_ofList]
  decide

/-- The optimizer and the interpreter write four bytes for an accented letter. -/
theorem disagree_accent : ¬ ∀ s ok c a q m size p q',
    NativePlace ok c.regs c.memory a (utf8Bytes s) q → WasmPlace m size p (utf8Bytes s) q' →
      Agree s ok c q m size p q' := by
  intro h
  have hn : NativePlace (fun _ => true) (startAt [0xC3, 0xA9]).regs (startAt [0xC3, 0xA9]).memory
      1024 (utf8Bytes (String.ofList ['é'])) 65536 :=
    utf8Bytes_accent ▸ nativePlace_startAt (by decide) (by decide)
  have hw : WasmPlace (textAt [0xC3, 0xA9]) 65536 1024 (utf8Bytes (String.ofList ['é'])) 4096 :=
    utf8Bytes_accent ▸ wasmPlace_textAt (by decide) (by decide)
  have hascii := ((agree_iff_wasm hn).mp (h _ _ _ _ _ _ _ _ _ hn hw)).1
  rw [utf8Bytes_accent] at hascii
  exact absurd (hascii 0xC3 List.mem_cons_self) (by decide)

end Verbosec.Execution.EscapeLaw
