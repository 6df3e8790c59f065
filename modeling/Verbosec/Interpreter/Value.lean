import Verbosec.Lib.Dict
import Verbosec.Lib.Machine
import Verbosec.Syntax

/-!
# Runtime values and failures

* `Value` - what an expression evaluates to; `Value.display` renders it in diagnostics.
* `RuntimeError` - the errors the interpreter reports, one constructor per report, with
  `RuntimeError.message` giving its text.
* `Failure` - how an evaluation ends without a value: a reported error, an arithmetic panic of the
  host (`overflow`), a text larger than the address space (`capacity`), or too little fuel for the
  model's call depth (`outOfFuel`).
* `utf8Bytes`, `utf8Lossy`, `trim`, `parseI64`, `jsonEscape`, `toLeBytes` - the operations of the
  host's standard library that the interpreter uses on texts, bytes and numbers.

Source: `interpreter.rs`, `Value`, `Display for Value`, `RuntimeError`.
-/

namespace Verbosec.Interpreter

open Verbosec.Lib

/-! ## Values -/

/-- Runtime values. A record and the payload of a variant map field names to values, the newest
entry of a name first. Source: `interpreter.rs`, `Value` -/
inductive Value where
  | number (n : Int64)
  | boundsError
  | bool (b : Bool)
  | text (s : String)
  | bytes (b : List UInt8)
  | list (items : List Value)
  | record (fields : List (String × Value))
  | ok (inner : Value)
  | err (inner : Value)
  | variant (concept variant : String) (fields : List (String × Value))
  deriving Repr

/-- The environment of an evaluation: the bound names, newest first. -/
abbrev Env := Dict String Value

/-- The decimal rendering of a number. Source: `i64::to_string` -/
def decimal (n : Int64) : String := toString n.toInt

/-- The rendering of a truth value. -/
def boolText (b : Bool) : String := if b then "true" else "false"

/-! ## Bytes and texts -/

/-- The UTF-8 bytes of a text. Source: `str::as_bytes` -/
def utf8Bytes (s : String) : List UInt8 := s.toUTF8.data.toList

@[simp] lemma length_utf8Bytes (s : String) : (utf8Bytes s).length = s.utf8ByteSize := by
  rw [utf8Bytes, Array.length_toList]
  rfl

/-- Is `b` a continuation byte? -/
def isContinuation (b : UInt8) : Bool := 0x80 ≤ b && b ≤ 0xBF

/-- The second bytes that may follow the first byte of a three-byte sequence. -/
def second3 (b₀ b₁ : UInt8) : Bool :=
  (b₀ = 0xE0 && 0xA0 ≤ b₁ && b₁ ≤ 0xBF) || (0xE1 ≤ b₀ && b₀ ≤ 0xEC && isContinuation b₁) ||
  (b₀ = 0xED && 0x80 ≤ b₁ && b₁ ≤ 0x9F) || (0xEE ≤ b₀ && b₀ ≤ 0xEF && isContinuation b₁)

/-- The second bytes that may follow the first byte of a four-byte sequence. -/
def second4 (b₀ b₁ : UInt8) : Bool :=
  (b₀ = 0xF0 && 0x90 ≤ b₁ && b₁ ≤ 0xBF) || (0xF1 ≤ b₀ && b₀ ≤ 0xF3 && isContinuation b₁) ||
  (b₀ = 0xF4 && 0x80 ≤ b₁ && b₁ ≤ 0x8F)

/-- The character U+FFFD that stands for an ill-formed sequence. -/
def replacementChar : Char := '\uFFFD'

/-- The low six bits of a continuation byte. -/
def low6 (b : UInt8) : Nat := b.toNat % 64

/-- Decoding bytes, each maximal ill-formed sequence read as one replacement character. A
well-formed slice decodes to itself. Source: `String::from_utf8_lossy` -/
def decodeLossy : List UInt8 → List Char
  | [] => []
  | b₀ :: rest =>
      if b₀ < 0x80 then Char.ofNat b₀.toNat :: decodeLossy rest
      else if 0xC2 ≤ b₀ && b₀ ≤ 0xDF then
        match rest with
        | [] => [replacementChar]
        | b₁ :: rest₁ =>
            if isContinuation b₁ then
              Char.ofNat (b₀.toNat % 32 * 64 + low6 b₁) :: decodeLossy rest₁
            else replacementChar :: decodeLossy (b₁ :: rest₁)
      else if 0xE0 ≤ b₀ && b₀ ≤ 0xEF then
        match rest with
        | [] => [replacementChar]
        | b₁ :: rest₁ =>
            if second3 b₀ b₁ then
              match rest₁ with
              | [] => [replacementChar]
              | b₂ :: rest₂ =>
                  if isContinuation b₂ then
                    Char.ofNat (b₀.toNat % 16 * 4096 + low6 b₁ * 64 + low6 b₂) :: decodeLossy rest₂
                  else replacementChar :: decodeLossy (b₂ :: rest₂)
            else replacementChar :: decodeLossy (b₁ :: rest₁)
      else if 0xF0 ≤ b₀ && b₀ ≤ 0xF4 then
        match rest with
        | [] => [replacementChar]
        | b₁ :: rest₁ =>
            if second4 b₀ b₁ then
              match rest₁ with
              | [] => [replacementChar]
              | b₂ :: rest₂ =>
                  if isContinuation b₂ then
                    match rest₂ with
                    | [] => [replacementChar]
                    | b₃ :: rest₃ =>
                        if isContinuation b₃ then
                          Char.ofNat (b₀.toNat % 8 * 262144 + low6 b₁ * 4096 + low6 b₂ * 64
                            + low6 b₃) :: decodeLossy rest₃
                        else replacementChar :: decodeLossy (b₃ :: rest₃)
                  else replacementChar :: decodeLossy (b₂ :: rest₂)
            else replacementChar :: decodeLossy (b₁ :: rest₁)
      else replacementChar :: decodeLossy rest

/-- The text of bytes that need not be well formed. Source: `String::from_utf8_lossy` -/
def utf8Lossy (b : List UInt8) : String := String.ofList (decodeLossy b)

/-- Unicode white space. Source: `char::is_whitespace` -/
def isWhiteSpace (c : Char) : Bool :=
  let n := c.toNat
  (9 ≤ n && n ≤ 13) || n = 0x20 || n = 0x85 || n = 0xA0 || n = 0x1680 ||
  (0x2000 ≤ n && n ≤ 0x200A) || n = 0x2028 || n = 0x2029 || n = 0x202F || n = 0x205F || n = 0x3000

/-- A text without its leading and trailing white space. Source: `str::trim` -/
def trim (s : String) : List Char :=
  ((s.toList.dropWhile isWhiteSpace).reverse.dropWhile isWhiteSpace).reverse

/-- The value of a digit. -/
def digit? (c : Char) : Option Nat :=
  if 48 ≤ c.toNat ∧ c.toNat ≤ 57 then some (c.toNat - 48) else none

/-- The value of a nonempty run of decimal digits. -/
def digits? : List Char → Option Nat
  | [] => none
  | cs => cs.foldlM (fun n c => (digit? c).map (10 * n + ·)) 0

/-- A decimal number with an optional sign, if it fits. Source: `i64::from_str` -/
def parseI64 (cs : List Char) : Option Int64 :=
  match cs with
  | '-' :: ds => (digits? ds).bind fun n => toI64? (-n)
  | '+' :: ds => (digits? ds).bind fun n => toI64? n
  | ds => (digits? ds).bind fun n => toI64? n

/-- The escape of one byte, as characters; a byte that needs no escape is read as the character of
its own code. Source: `interpreter.rs`, the `JsonEscape` arm of `eval_expr` -/
def jsonEscapeByte (b : UInt8) : List Char :=
  if b = 0x22 then ['\\', '"']
  else if b = 0x5C then ['\\', '\\']
  else if b = 0x0A then ['\\', 'n']
  else if b = 0x0D then ['\\', 'r']
  else if b = 0x09 then ['\\', 't']
  else [Char.ofNat b.toNat]

/-- The escape of a text. Source: `interpreter.rs`, the `JsonEscape` arm of `eval_expr` -/
def jsonEscape (s : String) : String := String.ofList ((utf8Bytes s).flatMap jsonEscapeByte)

/-- The `width` low bytes of a number, least significant first. Source: `i64::to_le_bytes` -/
def toLeBytes (n : Int64) (width : Nat) : List UInt8 :=
  (List.range width).map fun i => UInt8.ofNat (n.toBitVec.toNat >>> (8 * i))

/-! ## Rendering -/

mutual

/-- The rendering of a value in diagnostics. Source: `interpreter.rs`, `Display for Value` -/
def Value.display : Value → String
  | .boundsError => "Bounds"
  | .number n => decimal n
  | .bool b => boolText b
  | .text s => s
  | .bytes b => utf8Lossy b
  | .list items => "[" ++ String.intercalate ", " (displayList items) ++ "]"
  | .record fields => "\x7b" ++ String.intercalate ", " (displayFields fields) ++ "\x7d"
  | .ok inner => "Ok(" ++ inner.display ++ ")"
  | .err inner => "Err(" ++ inner.display ++ ")"
  | .variant concept variant fields =>
      concept ++ "::" ++ variant ++
        match fields with
        | [] => ""
        | _ => " \x7b" ++ String.intercalate ", " (displayFields fields) ++ "\x7d"

/-- The renderings of the items of a list. -/
def displayList : List Value → List String
  | [] => []
  | v :: vs => v.display :: displayList vs

/-- The renderings of the fields of a record, in the order of the map. -/
def displayFields : List (String × Value) → List String
  | [] => []
  | (k, v) :: fs => (k ++ ": " ++ v.display) :: displayFields fs

end

/-! ## Failures -/

/-- The errors the interpreter reports. Source: `interpreter.rs`, the `RuntimeError`s built by
`eval_rule_with_value` and `eval_expr` -/
inductive RuntimeError where
  | undefinedBinding (name : String)
  | noField (field : String)
  | notARecord (field : String) (v : Value)
  | logicalOperand (op : BinOp) (side : String) (v : Value)
  | divisionByZero
  | moduloByZero
  | cannotApply (op : BinOp) (l r : Value)
  /-- an operand of the wrong type, reported with the value; `need` names the requirement -/
  | operand (need : String) (v : Value)
  /-- an operand of the wrong type, reported with both values -/
  | operands (need : String) (l r : Value)
  /-- an operand of the wrong type, reported without the value -/
  | shape (need : String)
  | abortIf (n : Int64)
  | concatBytes (v : Value)
  | concatScalar (v : Value)
  | matchScrutinee (v : Value)
  | noMatchArm (concept variant : String)
  | conceptNotInScope (concept : String)
  | variantNotFound (concept variant : String)
  | binderCount (concept variant : String) (binders fields : Nat)
  | missingPayload (concept variant field : String)
  | unknownRule (name : String)
  | arity (given : Nat)
  | unknownEntropy (name : String)
  | entropyUnavailable (name cause : String)
  | parseInt (s : String)
  | substringBounds (start stop len : Int64)
  | substringOperands (t s e : Value)
  | byteAtIndex (index len : Int64)
  | byteAtOperands (t i : Value)
  | contractConcept (contract : String)
  | contractRecord (contract : String)
  | contractField (contract field : String)
  | textOutput (rule : String) (max : Nat)
  deriving Repr

/-- The text of a report. Source: `interpreter.rs`, the messages of the `RuntimeError`s -/
def RuntimeError.message : RuntimeError → String
  | undefinedBinding name => "undefined binding '" ++ name ++ "'"
  | noField field => "no field '" ++ field ++ "' on record"
  | notARecord field v => "cannot access field '" ++ field ++ "' on " ++ v.display
  | logicalOperand op side v =>
      op.debug ++ " requires bool on the " ++ side ++ ", got " ++ v.display
  | divisionByZero => "division by zero"
  | moduloByZero => "modulo by zero"
  | cannotApply op l r =>
      "cannot apply " ++ op.debug ++ " to " ++ l.display ++ " and " ++ r.display
  | operand need v => need ++ ", got " ++ v.display
  | operands need l r => need ++ ", got " ++ l.display ++ " and " ++ r.display
  | shape need => need
  | abortIf n =>
      "abort_if: check failed (value " ++ decimal n ++ " is nonzero) — fail-closed"
  | concatBytes v =>
      "concat mixes bytes and non-bytes: a bytes concat only accepts bytes arguments " ++
        "(b\"...\" / le32 / le64), got " ++ v.display
  | concatScalar v =>
      "concat argument must be scalar (number/bool/text), got " ++ v.display
  | matchScrutinee v =>
      "match scrutinee evaluated to " ++ v.display ++ " but a Variant value was expected"
  | noMatchArm concept variant =>
      "no match arm for '" ++ concept ++ "::" ++ variant ++
        "' (exhaustiveness should have been enforced by the verifier)"
  | conceptNotInScope concept =>
      "concept '" ++ concept ++ "' not in interpreter scope — concepts slice must include every " ++
        "declared sum-type concept"
  | variantNotFound concept variant =>
      "variant '" ++ concept ++ "::" ++ variant ++ "' not found in concept declaration"
  | binderCount concept variant binders fields =>
      "match arm '" ++ concept ++ "::" ++ variant ++ "' has " ++ toString binders ++
        " binders but the variant declares " ++ toString fields ++
        " payload fields (verifier should have caught this)"
  | missingPayload concept variant field =>
      "variant '" ++ concept ++ "::" ++ variant ++ "' is missing payload field '" ++ field ++
        "' at runtime"
  | unknownRule name => "unknown rule '" ++ name ++ "'"
  | arity given => "rule call expects 1 argument, got " ++ toString given
  | unknownEntropy name =>
      "random('" ++ name ++ "') references unknown entropy — declare it at top level with " ++
        "`entropy " ++ name ++ " ...`"
  | entropyUnavailable name cause =>
      "random('" ++ name ++ "'): kernel randomness unavailable (" ++ cause ++
        "); refusing to serve a zero or partial secret"
  | parseInt s => "parse_int could not parse " ++ s.quote ++ " as a number"
  | substringBounds start stop len =>
      "substring bounds out of range: start=" ++ decimal start ++ ", end=" ++ decimal stop ++
        ", length=" ++ decimal len
  | substringOperands t s e =>
      "substring requires (text, number, number), got (" ++ t.display ++ ", " ++ s.display ++
        ", " ++ e.display ++ ")"
  | byteAtIndex index len =>
      "byte_at index out of range: index=" ++ decimal index ++ ", length=" ++ decimal len
  | byteAtOperands t i =>
      "byte_at requires (text or bytes, number), got (" ++ t.display ++ ", " ++ i.display ++ ")"
  | contractConcept contract => contract ++ ": unknown input concept"
  | contractRecord contract => contract ++ " requires a record input"
  | contractField contract field =>
      contract ++ ": input field '" ++ field ++ "' violates its declared type or bound"
  | textOutput rule max =>
      "bounded text output: rule '" ++ rule ++ "' violated [.." ++ toString max ++ "]"

/-- How an evaluation ends without a value. -/
inductive Failure where
  /-- a reported error -/
  | runtime (e : RuntimeError)
  /-- the host's panic on an arithmetic operation whose result is not a 64-bit word -/
  | overflow (op : String)
  /-- a text of more bytes than a 64-bit word counts; no host can hold one -/
  | capacity
  /-- the call depth exceeds the fuel of the model; not a behaviour of the interpreter -/
  | outOfFuel
  deriving Repr

/-- The outcome of an evaluation. -/
abbrev Outcome (α : Type) := Except Failure α

/-- A reported error as an outcome. -/
def fail {α : Type} (e : RuntimeError) : Outcome α := .error (.runtime e)

/-- An arithmetic result, a panic named after the operation where there is none. -/
def arith (op : String) : Option Int64 → Outcome Value
  | some n => .ok (.number n)
  | none => .error (.overflow op)

/-- The number of bytes of a text as a word. Source: `s.as_bytes().len() as i64`; a host text never
has more bytes than a word counts. -/
def byteLen (n : Nat) : Outcome Int64 :=
  match toI64? n with
  | some len => .ok len
  | none => .error .capacity

end Verbosec.Interpreter
