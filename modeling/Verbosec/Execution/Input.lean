import Verbosec.Interpreter.Value

/-!
# Execution input

* `asBytes`, `sliceFrom` - the bytes of a text, and the text from a byte on, which must be the first
  one of a character.
* `Stop` - an error with the byte at which it stands, or a panic of the host.
* `Reader.take`, `Reader.string`, `Reader.value` - the scanner, over byte positions.
* `parse` - an array of flat objects.

A position after the scanned part of the text is passed on in place of the reader's. Loops run as
often as their `fuel` says; `parse` gives them one turn a byte.

Source: `interpreter/execution/input.rs`.
-/

namespace Verbosec.Execution.Input

open Verbosec.Interpreter Verbosec.Lib

/-! ## Texts -/

/-- The bytes of a text. Source: `str::as_bytes` -/
def asBytes (text : List Char) : List UInt8 := text.flatMap String.utf8EncodeChar

/-- The text from a byte on; none inside a character and past the end, where the host panics.
Source: the slice `text[at..]` -/
def sliceFrom : List Char → Nat → Option (List Char)
  | text, 0 => some text
  | [], _ + 1 => none
  | c :: text, n + 1 => if c.utf8Size ≤ n + 1 then sliceFrom text (n + 1 - c.utf8Size) else none

/-- The text up to a byte; none inside a character and past the end. -/
def sliceTo : List Char → Nat → Option (List Char)
  | _, 0 => some []
  | [], _ + 1 => none
  | c :: text, n + 1 =>
      if c.utf8Size ≤ n + 1 then (sliceTo text (n + 1 - c.utf8Size)).map (c :: ·) else none

/-! ## Outcomes -/

/-- How a scan ends without a result. -/
inductive Stop where
  /-- a reported error, with the byte at which it stands -/
  | error (position : Nat) (message : String)
  /-- a panic of the host -/
  | panic
  /-- the loop exceeds the fuel of the model; not a behaviour of the scanner -/
  | outOfFuel
  deriving DecidableEq, Repr

/-- The text of an error. Source: `input.rs`, `Reader::error` -/
def Stop.message : Stop → String
  | error position message => "execution input JSON at byte " ++ toString position ++ ": " ++ message
  | panic | outOfFuel => ""

/-! ## The scanner -/

/-- White space between tokens. Source: `input.rs`, `Reader::space` -/
def isSpace (b : UInt8) : Bool := b = 32 || b = 13 || b = 10 || b = 9

/-- A decimal digit. Source: `u8::is_ascii_digit` -/
def isDigit (b : UInt8) : Bool := 48 ≤ b && b ≤ 57

/-- The value of a hexadecimal digit. Source: `char::to_digit` -/
def hexDigit (b : UInt8) : Option Nat :=
  if 48 ≤ b ∧ b ≤ 57 then some (b.toNat - 48)
  else if 97 ≤ b ∧ b ≤ 102 then some (b.toNat - 87)
  else if 65 ≤ b ∧ b ≤ 70 then some (b.toNat - 55)
  else none

/-- The characters of the escapes of one letter. Source: `input.rs`, `Reader::string` -/
def simpleEscapes : List (UInt8 × Char) :=
  [(34, '"'), (92, '\\'), (47, '/'), (98, '\x08'), (102, '\x0c'), (110, '\n'), (114, '\r'),
    (116, '\t')]

namespace Reader

variable (text : List Char)

/-- The byte at a position. -/
def byteAt (position : Nat) : Option UInt8 := (asBytes text)[position]?

/-- The position after the bytes that satisfy a predicate. -/
def skip (p : UInt8 → Bool) (position : Nat) : Nat :=
  position + (((asBytes text).drop position).takeWhile p).length

/-- The position after white space. Source: `input.rs`, `Reader::space` -/
def space (position : Nat) : Nat := skip text isSpace position

/-- White space and a byte, if it is next. Source: `input.rs`, `Reader::take` -/
def take (b : UInt8) (position : Nat) : Bool × Nat :=
  if byteAt text (space text position) = some b then (true, space text position + 1)
  else (false, space text position)

/-- White space and a byte. Source: `input.rs`, `Reader::expect` -/
def expect (b : UInt8) (position : Nat) : Except Stop (Unit × Nat) :=
  match take text b position with
  | (true, position) => .ok ((), position)
  | (false, position) =>
      .error (.error position ("expected '" ++ String.singleton (Char.ofNat b.toNat) ++ "'"))

/-- Hexadecimal digits. Source: `input.rs`, `Reader::hex` -/
def hexDigits : Nat → Nat → Nat → Except Stop (Nat × Nat)
  | 0, value, position => .ok (value, position)
  | count + 1, value, position =>
      match (byteAt text position).bind hexDigit with
      | none => .error (.error position "invalid Unicode escape")
      | some digit => hexDigits count (value * 16 + digit) (position + 1)

/-- Four hexadecimal digits. Source: `input.rs`, `Reader::hex` -/
def hex (position : Nat) : Except Stop (Nat × Nat) := hexDigits text 4 0 position

/-- The second half of a surrogate pair after the first. Source: `input.rs`, `Reader::string` -/
def lowSurrogate (code position : Nat) : Except Stop (Nat × Nat) :=
  match sliceFrom text position with
  | none => .error .panic
  | some rest =>
      if ['\\', 'u'].isPrefixOf rest then do
        let (low, position) ← hex text (position + 2)
        if 0xdc00 ≤ low ∧ low ≤ 0xdfff then
          .ok (0x10000 + (code - 0xd800) * 1024 + low - 0xdc00, position)
        else .error (.error position "invalid low surrogate")
      else .error (.error position "missing low surrogate")

/-- The character of an escape by its code. Source: `input.rs`, `Reader::string` -/
def unicodeEscape (position : Nat) : Except Stop (Char × Nat) := do
  let (code, position) ← hex text position
  let (code, position) ←
    if 0xd800 ≤ code ∧ code ≤ 0xdbff then lowSurrogate text code position else .ok (code, position)
  if code.isValidChar then .ok (Char.ofNat code, position)
  else .error (.error position "invalid Unicode scalar")

/-- The character of an escape after its backslash. Source: `input.rs`, `Reader::string` -/
def escape (position : Nat) : Except Stop (Char × Nat) :=
  match byteAt text position with
  | none => .error (.error position "incomplete escape")
  | some b =>
      match simpleEscapes.lookup b with
      | some c => .ok (c, position + 1)
      | none =>
          if b = 117 then unicodeEscape text (position + 1)
          else .error (.error (position + 1) "unknown escape")

/-- The characters of a string up to its closing quote. Source: `input.rs`, `Reader::string` -/
def stringBody : Nat → List Char → Nat → Except Stop (List Char × Nat)
  | 0, _, _ => .error .outOfFuel
  | fuel + 1, out, position =>
      match sliceFrom text position with
      | none => .error .panic
      | some [] => .error (.error position "unterminated string")
      | some (c :: _) =>
          let position := position + c.utf8Size
          if c = '"' then .ok (out, position)
          else if c.toNat ≤ 0x1f then .error (.error position "unescaped control character")
          else if c = '\\' then do
            let (c, position) ← escape text position
            stringBody fuel (out ++ [c]) position
          else stringBody fuel (out ++ [c]) position

/-- A string. Source: `input.rs`, `Reader::string` -/
def string (position : Nat) : Except Stop (String × Nat) := do
  let (_, position) ← expect text 34 position
  let (out, position) ← stringBody text ((asBytes text).length + 1) [] position
  .ok (String.ofList out, position)

/-- A number. Source: `input.rs`, `Reader::value` -/
def number (start : Nat) : Except Stop (Value × Nat) :=
  let digits := if byteAt text start = some 45 then start + 1 else start
  let position := skip text isDigit digits
  if position = digits then .error (.error position "expected text or an i64 integer")
  else if 1 < position - digits ∧ byteAt text digits = some 48 then
    .error (.error position "leading zero in number")
  else
    match (sliceFrom text start).bind (sliceTo · (position - start)) with
    | none => .error .panic
    | some literal =>
        match parseI64 literal with
        | some n => .ok (.number n, position)
        | none => .error (.error position "integer outside i64 range")

/-- A value. Source: `input.rs`, `Reader::value` -/
def value (position : Nat) : Except Stop (Value × Nat) :=
  let position := space text position
  if byteAt text position = some 34 then do
    let (s, position) ← string text position
    .ok (.text s, position)
  else
    match sliceFrom text position with
    | none => .error .panic
    | some rest =>
        if "true".toList.isPrefixOf rest then .ok (.bool true, position + 4)
        else if "false".toList.isPrefixOf rest then .ok (.bool false, position + 5)
        else number text position

/-- The fields of an object up to its closing brace. Source: `input.rs`, `parse` -/
def fields : Nat → Dict String Value → Nat → Except Stop (Dict String Value × Nat)
  | 0, _, _ => .error .outOfFuel
  | fuel + 1, sofar, position => do
      let (key, position) ← string text position
      let (_, position) ← expect text 58 position
      let (v, position) ← value text position
      if sofar.has key then .error (.error position "duplicate field")
      else
        match take text 125 position with
        | (true, position) => .ok (sofar.insert key v, position)
        | (false, position) => do
            let (_, position) ← expect text 44 position
            fields fuel (sofar.insert key v) position

/-- An object. Source: `input.rs`, `parse` -/
def object (position : Nat) : Except Stop (Dict String Value × Nat) := do
  let (_, position) ← expect text 123 position
  match take text 125 position with
  | (true, position) => .ok ([], position)
  | (false, position) => fields text ((asBytes text).length + 1) [] position

/-- The records of an array up to its closing bracket. Source: `input.rs`, `parse` -/
def records : Nat → List (Dict String Value) → Nat → Except Stop (List (Dict String Value) × Nat)
  | 0, _, _ => .error .outOfFuel
  | fuel + 1, sofar, position => do
      let (record, position) ← object text position
      match take text 93 position with
      | (true, position) => .ok (sofar ++ [record], position)
      | (false, position) => do
          let (_, position) ← expect text 44 position
          records fuel (sofar ++ [record]) position

end Reader

/-- An array of flat objects. Source: `input.rs`, `parse` -/
def parse (text : String) : Except Stop (List (Dict String Value)) := do
  let (_, position) ← Reader.expect text.toList 91 0
  let (all, position) ←
    match Reader.take text.toList 93 position with
    | (true, position) => .ok ([], position)
    | (false, position) =>
        Reader.records text.toList ((asBytes text.toList).length + 1) [] position
  let position := Reader.space text.toList position
  if position ≠ (asBytes text.toList).length then .error (.error position "trailing input")
  else .ok all

end Verbosec.Execution.Input
