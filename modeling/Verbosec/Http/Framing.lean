import Mathlib.Data.Nat.Bitwise
import Mathlib.Data.List.Basic

/-!
# Bounded HTTP framing

* `table` - the transition table of the embedded machine: a row of 256 entries for each state, built
  in the order of the source. The low bits of an entry are the next state, zero rejecting; the high
  bits are actions on the consumed byte.
* `reference` - the framing of a byte stream by lines: `complete` with the total length of the
  request, `more` where bytes are missing, `invalid`.

Source: `http_framing.rs`.
-/

namespace Verbosec.Http

/-! ## Bytes -/

/-- The bytes of a method or a header name. Source: `http_framing.rs`, `token` -/
def token (b : UInt8) : Bool :=
  (48 ≤ b && b ≤ 57) || (65 ≤ b && b ≤ 90) || (97 ≤ b && b ≤ 122) ||
    b ∈ [33, 35, 36, 37, 38, 39, 42, 43, 45, 46, 94, 95, 96, 124, 126]

/-- The bytes of a header value. -/
def fieldByte (b : UInt8) : Bool := b = 9 || 32 ≤ b && b ≠ 127

/-- The bytes of a request target. -/
def targetByte (b : UInt8) : Bool := 33 ≤ b && b ≤ 126 && b ≠ 35

/-- The digits. Source: `u8::is_ascii_digit` -/
def digitByte (b : UInt8) : Bool := 48 ≤ b && b ≤ 57

/-- Source: `u8::to_ascii_lowercase` -/
def lower (b : UInt8) : UInt8 := if 65 ≤ b && b ≤ 90 then b + 32 else b

/-- Source: `u8::to_ascii_uppercase` -/
def upper (b : UInt8) : UInt8 := if 97 ≤ b && b ≤ 122 then b - 32 else b

/-- The header name `content-length`. -/
def contentLength : List UInt8 := [99, 111, 110, 116, 101, 110, 116, 45, 108, 101, 110, 103, 116, 104]

/-- The header name `transfer-encoding`. -/
def transferEncoding : List UInt8 :=
  [116, 114, 97, 110, 115, 102, 101, 114, 45, 101, 110, 99, 111, 100, 105, 110, 103]

/-- The header name `expect`. -/
def expectName : List UInt8 := [101, 120, 112, 101, 99, 116]

/-- The version prefix `HTTP/1.`. -/
def versionPrefix : List UInt8 := [72, 84, 84, 80, 47, 49, 46]

/-- A line end. -/
def crlf : List UInt8 := [13, 10]

/-! ## The transition table -/

/-- The state after a complete header. Source: `http_framing.rs`, `DONE` -/
def doneState : Nat := 1

/-- The initial state. Source: `http_framing.rs`, `START` -/
def startState : Nat := 2

/-- The action on a digit of the body length. Source: `http_framing.rs`, `DIGIT` -/
def digitFlag : Nat := 0x8000

/-- The action on the colon of a body length. Source: `http_framing.rs`, `LENGTH` -/
def lengthFlag : Nat := 0x4000

/-- The action on a byte of the target. Source: `http_framing.rs`, `TARGET` -/
def targetFlag : Nat := 0x2000

/-- The bits of the next state. Source: `http_framing.rs`, `STATE` -/
def stateMask : Nat := 0x1fff

/-- The rows of the states built so far. -/
abbrev Table := List (List Nat)

/-- The entry of a state and a byte. -/
def Table.entry (t : Table) (s : Nat) (b : UInt8) : Nat := (t.getD s []).getD b.toNat 0

/-- A step of the construction. -/
abbrev Build := StateM Table

/-- A new state, rejecting every byte. Source: `http_framing.rs`, `state` -/
def state : Build Nat := do
  let t ← get
  set (t ++ [List.replicate 256 0])
  pure t.length

/-- One transition. Source: `http_framing.rs`, `edge` -/
def edge (s : Nat) (b : UInt8) (next : Nat) : Build Unit :=
  modify fun t => t.modify s fun row => row.set b.toNat next

/-- All bytes, in order. -/
def allBytes : List UInt8 := (List.range 256).map UInt8.ofNat

/-- The states that recognise a header name from `headers` on; a mismatch falls back to
`genericName`. Source: `http_framing.rs`, the header-name trie of `table` -/
def nameStates (headers genericName : Nat) (name : List UInt8) (destination : Nat) :
    Build Unit := do
  let last ← name.foldlM (fun s b => do
    let existing := (← get).entry s b
    if existing ≠ genericName ∧ existing ≠ 0 then pure existing
    else do
      let n ← state
      modify fun t => t.set n (t.getD genericName [])
      edge s b n
      edge s (upper b) n
      pure n) headers
  edge last 58 destination

/-- The construction of the table. Source: `http_framing.rs`, `table` -/
def build : Build Unit := do
  let headers ← state
  let endLf ← state
  edge headers 13 endLf
  edge endLf 10 doneState
  let genericName ← state
  let value ← state
  let valueLf ← state
  allBytes.forM fun b => do
    if token b then
      edge headers b genericName
      edge genericName b genericName
    if fieldByte b then edge value b value
  edge genericName 58 value
  edge value 13 valueLf
  edge valueLf 10 headers
  let leading ← state
  let digits ← state
  let trailing ← state
  [leading, trailing].forM fun s => do
    edge s 32 s
    edge s 9 s
  (allBytes.filter digitByte).forM fun b => do
    edge leading b (digits ||| digitFlag)
    edge digits b (digits ||| digitFlag)
  edge digits 32 trailing
  edge digits 9 trailing
  edge digits 13 valueLf
  edge trailing 13 valueLf
  nameStates headers genericName contentLength (leading ||| lengthFlag)
  nameStates headers genericName transferEncoding 0
  nameStates headers genericName expectName 0
  -- a nonempty token method of at most eight bytes, then an origin target
  let targetStart ← state
  let target ← state
  edge targetStart 47 (target ||| targetFlag)
  (allBytes.filter targetByte).forM fun b => edge target b (target ||| targetFlag)
  let version ← state
  edge target 32 version
  let last ← versionPrefix.foldlM (fun s b => do
    let n ← state
    edge s b n
    pure n) version
  let versionCr ← state
  let versionLf ← state
  edge last 48 versionCr
  edge last 49 versionCr
  edge versionCr 13 versionLf
  edge versionLf 10 headers
  let last ← (List.range 8).foldlM (fun s count => do
    if 0 < count then edge s 32 targetStart
    let n ← state
    (allBytes.filter token).forM fun b => edge s b n
    pure n) startState
  edge last 32 targetStart

/-- The transition table. Source: `http_framing.rs`, `table` -/
def table : Table := (build.run (List.replicate 3 (List.replicate 256 0))).2

/-! ## The reference -/

/-- The framing of a stream. Source: `http_framing.rs`, `Frame` -/
inductive Frame where
  | more
  | complete (total : Nat)
  | invalid
  deriving DecidableEq, Repr

/-- The position of the first blank line, with its line ends: the number of bytes before it.
Source: `slice::windows` and `Iterator::position` in `http_framing.rs`, `reference` -/
def findBlank : List UInt8 → Option Nat
  | [] => none
  | b :: bs =>
      if (crlf ++ crlf).isPrefixOf (b :: bs) then some 0 else (findBlank bs).map (· + 1)

/-- The lines of a text, each with its final line feed. Source: `slice::split_inclusive` -/
def splitInclusive : List UInt8 → List (List UInt8)
  | [] => []
  | b :: bs =>
      if b = 10 then [b] :: splitInclusive bs
      else
        match splitInclusive bs with
        | [] => [[b]]
        | line :: lines => (b :: line) :: lines

/-- A list without the suffix, if it has it. Source: `slice::strip_suffix` -/
def stripSuffix (suffix l : List UInt8) : Option (List UInt8) :=
  if suffix.isSuffixOf l then some (l.take (l.length - suffix.length)) else none

/-- Source: `u8::is_ascii_whitespace` -/
def isWhite (b : UInt8) : Bool := b ∈ [9, 10, 12, 13, 32]

/-- A value without the white space around it. Source: `slice::trim_ascii` -/
def trimAscii (l : List UInt8) : List UInt8 :=
  ((l.dropWhile isWhite).reverse.dropWhile isWhite).reverse

/-- Equality up to the case of letters. Source: `slice::eq_ignore_ascii_case` -/
def eqIgnoreCase (a b : List UInt8) : Bool := a.map lower = b.map lower

/-- The number of bytes after the digits `value`, `n` being that of the digits so far; `none` where
it exceeds the capacity. Source: `http_framing.rs`, `reference` -/
def bodyLength (capacity : Nat) : List UInt8 → Nat → Option Nat
  | [], n => some n
  | b :: bs, n =>
      if !digitByte b then none
      else
        let next := n * 10 + (b.toNat - 48)
        -- the checked arithmetic of a 64-bit word
        if 2 ^ 64 ≤ next then none
        else if capacity < next then none
        else bodyLength capacity bs next

/-- Is a line a well formed request line? Source: `http_framing.rs`, `reference` -/
def requestLine (line : List UInt8) : Bool :=
  match line.splitOn 32 with
  | [method, target, version] =>
      !method.isEmpty && method.length ≤ 8 && method.all token && target.head? = some 47 &&
        target.length ≤ 256 && target.all targetByte &&
        (version = versionPrefix ++ [48] || version = versionPrefix ++ [49])
  | _ => false

/-- The body length after a header line, `length` being the one declared so far; `none` on a
malformed or refused header. Source: `http_framing.rs`, `reference` -/
def headerLine (capacity : Nat) (length : Option Nat) (line : List UInt8) :
    Option (Option Nat) :=
  match line.idxOf? 58 with
  | none => none
  | some colon =>
      let name := line.take colon
      let value := line.drop (colon + 1)
      if name.isEmpty || !name.all token || !value.all fieldByte then none
      else if eqIgnoreCase name transferEncoding || eqIgnoreCase name expectName then none
      else if eqIgnoreCase name contentLength then
        if length.isSome then none
        else
          let value := trimAscii value
          if value.isEmpty then none else (bodyLength capacity value 0).map some
      else some length

/-- The body length after the header lines. Source: `http_framing.rs`, `reference` -/
def headerLines (capacity : Nat) : List (List UInt8) → Option Nat → Option (Option Nat)
  | [], length => some length
  | line :: lines, length =>
      match stripSuffix crlf line with
      | none => none
      | some line => (headerLine capacity length line).bind (headerLines capacity lines)

/-- The framing of a stream by lines. Source: `http_framing.rs`, `reference` -/
def reference (data : List UInt8) (capacity : Nat) : Frame :=
  match (findBlank data).map (· + 4) with
  | none => if capacity ≤ data.length then .invalid else .more
  | some stop =>
      if capacity < stop then .invalid
      else
        match splitInclusive (data.take (stop - 2)) with
        | [] => .invalid
        | line :: lines =>
            match stripSuffix crlf line with
            | none => .invalid
            | some line =>
                if !requestLine line then .invalid
                else
                  match headerLines capacity lines none with
                  | none => .invalid
                  | some length =>
                      let total := stop + length.getD 0
                      if capacity < total then .invalid
                      else if data.length < total then .more
                      else .complete total

end Verbosec.Http
