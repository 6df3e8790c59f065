import Mathlib.Data.Nat.Bitwise
import Verbosec.Lib.Utf8Text

/-!
# The lexer

* `TokenKind`, `Token`, `LexError` - tokens and errors, with their places.
* `State` - what the lexer keeps while it scans.
* `handleLineStart`, `readToken`, `turn` - the indentation of a line, a token, one turn of the loop.
* `scan`, `finish`, `tokenize` - the loop, the tokens at the end of the source, the whole.

Source: `lexer.rs`. The state holds the bytes that are left in place of the offset. A counter that
leaves the range of its type stops the program, as it does in a build with overflow checks; lines,
columns and indentations are at most the length of the source, so only `paren_depth` can.
-/

namespace Verbosec.Lexer

open Lib.Utf8

/-! ## Tokens -/

/-- Source: `lexer.rs`, `TokenKind` -/
inductive TokenKind where
  | ident (name : String)
  | number (n : Int64)
  | stringLit (text : String)
  | bytesLit (bytes : List UInt8)
  | attribute (name : String)
  | colon
  | comma
  | lBracket
  | rBracket
  | lParen
  | rParen
  | lBrace
  | rBrace
  | equal
  | equalEqual
  | fatArrow
  | notEqual
  | gt
  | lt
  | gtEq
  | ltEq
  | dot
  | plus
  | minus
  | star
  | slash
  | percent
  | doubleColon
  | indent
  | dedent
  | newline
  | eof
  deriving DecidableEq, Repr

/-- Source: `lexer.rs`, `Token` -/
structure Token where
  kind : TokenKind
  line : Nat
  col : Nat
  deriving DecidableEq, Repr

/-- Source: `lexer.rs`, `LexError` -/
structure LexError where
  line : Nat
  col : Nat
  message : String
  deriving DecidableEq, Repr

/-- How the lexer stops before the end: with an error, or with the whole program. -/
inductive Stop where
  | error (e : LexError)
  | panic
  deriving DecidableEq, Repr

/-- What the lexer keeps while it scans. Source: `lexer.rs`, `Lexer`; the head of `indents` is the
top of `indent_stack` -/
structure State where
  rest : List UInt8
  line : Nat
  col : Nat
  indents : List Nat
  tokens : List Token
  atLineStart : Bool
  parenDepth : Int
  deriving DecidableEq, Repr

/-- Source: `lexer.rs`, `Lexer::new` -/
def State.new (src : List Char) : State := ⟨bytesOf src, 1, 1, [0], [], true, 0⟩

/-- Source: `lexer.rs`, `emit_token` -/
def State.emit (s : State) (kind : TokenKind) (line col : Nat) : State :=
  { s with tokens := s.tokens ++ [⟨kind, line, col⟩] }

/-- Source: `lexer.rs`, `advance`, for a number of bytes -/
def State.advance (s : State) (n : Nat) : State :=
  { s with rest := s.rest.drop n, col := s.col + n }

/-! ## The classes of bytes -/

/-- Source: `is_ascii_digit` -/
def isDigit (b : UInt8) : Bool := 48 ≤ b.toNat && b.toNat ≤ 57

/-- Source: `is_ascii_alphabetic` -/
def isAlphabetic (b : UInt8) : Bool :=
  (65 ≤ b.toNat && b.toNat ≤ 90) || (97 ≤ b.toNat && b.toNat ≤ 122)

/-- Source: `lexer.rs`, `is_ident_start` -/
def isIdentStart (b : UInt8) : Bool := isAlphabetic b || b.toNat = 95

/-- Source: `lexer.rs`, `is_ident_continue` -/
def isIdentContinue (b : UInt8) : Bool := isAlphabetic b || isDigit b || b.toNat = 95

/-- Source: `is_ascii_hexdigit` -/
def isHexDigit (b : UInt8) : Bool :=
  isDigit b || (65 ≤ b.toNat && b.toNat ≤ 70) || (97 ≤ b.toNat && b.toNat ≤ 102)

/-- Source: `lexer.rs`, `hex_val` -/
def hexVal (b : UInt8) : UInt8 :=
  if 48 ≤ b.toNat ∧ b.toNat ≤ 57 then b - 48
  else if 97 ≤ b.toNat ∧ b.toNat ≤ 102 then b - 97 + 10
  else if 65 ≤ b.toNat ∧ b.toNat ≤ 70 then b - 65 + 10
  else 0

/-- A byte as a character, `b as char`. -/
def latin (b : UInt8) : Char := Char.ofNat b.toNat

/-- A digit of a hexadecimal number in lower case. -/
def lowerHex (n : Nat) : Char := if n < 10 then Char.ofNat (48 + n) else Char.ofNat (87 + n)

/-- A byte as a character between quotes, in the debug format. -/
def debugLatin (b : UInt8) : String :=
  let n := b.toNat
  let backslash := Char.ofNat 92
  let body :=
    if n = 0 then [backslash, '0']
    else if n = 9 then [backslash, 't']
    else if n = 10 then [backslash, 'n']
    else if n = 13 then [backslash, 'r']
    else if n = 39 ∨ n = 92 then [backslash, latin b]
    else if n < 16 then [backslash, 'u', Char.ofNat 123, lowerHex n, Char.ofNat 125]
    else if n < 32 ∨ (127 ≤ n ∧ n ≤ 160) ∨ n = 173 then
      [backslash, 'u', Char.ofNat 123, lowerHex (n / 16), lowerHex (n % 16), Char.ofNat 125]
    else [latin b]
  String.ofList ([Char.ofNat 39] ++ body ++ [Char.ofNat 39])

/-! ## Indentation -/

/-- Source: `lexer.rs`, `handle_line_start` -/
def handleLineStart (s : State) : Except Stop State :=
  let width := (s.rest.takeWhile fun b => b = 32).length
  let s := s.advance width
  let done := { s with atLineStart := false }
  match s.rest with
  | [] => .ok done
  | next :: after =>
      if next = 9 then
        .error (.error ⟨s.line, s.col, "tabs not allowed for indentation; use spaces"⟩)
      else if next = 10 then .ok done
      else if next = 45 ∧ after.head? = some 45 then .ok done
      else
        match s.indents with
        | [] => .error .panic
        | current :: _ =>
            if current < width then
              .ok ({ done with indents := width :: s.indents }.emit .indent s.line 1)
            else if width < current then
              let closed := (s.indents.takeWhile fun n => width < n).length
              let left := s.indents.dropWhile fun n => width < n
              match left with
              | [] => .error .panic
              | top :: _ =>
                  if top ≠ width then
                    .error (.error ⟨s.line, 1, "inconsistent indentation: width " ++
                      toString width ++ " does not match any enclosing block"⟩)
                  else
                    .ok { done with
                      indents := left
                      tokens := s.tokens ++ List.replicate closed ⟨.dedent, s.line, 1⟩ }
            else .ok done

/-! ## Literals -/

/-- The two literals. -/
inductive LiteralKind where
  | text
  | byteString
  deriving DecidableEq, Repr

/-- Does the literal have escapes of two hexadecimal digits? -/
def LiteralKind.hex : LiteralKind → Bool
  | .text => false
  | .byteString => true

/-- Source: `lexer.rs`, `read_token`, the errors of the two literals -/
def LiteralKind.unterminated : LiteralKind → String
  | .text => "unterminated string literal"
  | .byteString => "unterminated byte-string literal"

/-- Source: `lexer.rs`, `read_token`, the errors of the two literals -/
def LiteralKind.unknownEscape (kind : LiteralKind) (esc : UInt8) : String :=
  match kind with
  | .text => "unknown escape '\\" ++ String.singleton (latin esc) ++
      "' (supported: \\n, \\r, \\t, \\\\, \\\")"
  | .byteString => "unknown escape '\\" ++ String.singleton (latin esc) ++
      "' in byte string (supported: \\n, \\r, \\t, \\\\, \\\", \\xNN)"

/-- The escapes of one letter. Source: `lexer.rs`, `read_token`, the matches on `esc` -/
def simpleEscape (esc : UInt8) : Option UInt8 :=
  if esc = 110 then some 10
  else if esc = 116 then some 9
  else if esc = 114 then some 13
  else if esc = 92 then some 92
  else if esc = 34 then some 34
  else none

/-- What stands between the quotes of a literal: its bytes, and the number of bytes of the source.
The loop ends before a quote or at the end of the source. Source: `lexer.rs`, `read_token`, the
loops of the two literals -/
def literalBody (kind : LiteralKind) (line startCol : Nat) :
    List UInt8 → Nat → Except Stop (List UInt8 × Nat)
  | [], _ => .ok ([], 0)
  | ch :: rest, col =>
      if ch = 34 then .ok ([], 0)
      else if ch = 10 then .error (.error ⟨line, startCol, kind.unterminated⟩)
      else if ch = 92 then
        match rest with
        | [] => .error (.error ⟨line, startCol, kind.unterminated ++ " after '\\'"⟩)
        | esc :: rest =>
            match simpleEscape esc with
            | some b => (literalBody kind line startCol rest (col + 2)).map
                fun (bytes, n) => (b :: bytes, n + 2)
            | none =>
                if kind.hex ∧ (esc = 120 ∨ esc = 88) then
                  match rest with
                  | hi :: lo :: rest =>
                      if isHexDigit hi && isHexDigit lo then
                        (literalBody kind line startCol rest (col + 4)).map
                          fun (bytes, n) => ((hexVal hi <<< 4 ||| hexVal lo) :: bytes, n + 4)
                      else .error (.error ⟨line, col + 1,
                        "invalid \\x escape: expected two hex digits"⟩)
                  | _ => .error (.error ⟨line, col + 1,
                      "invalid \\x escape: expected two hex digits"⟩)
                else .error (.error ⟨line, col + 1, kind.unknownEscape esc⟩)
      else (literalBody kind line startCol rest (col + 1)).map fun (bytes, n) => (ch :: bytes, n + 1)

/-- The text of some bytes, which the program stops at where there is none. Source:
`String::from_utf8` and `str::from_utf8`, with `unwrap` or `expect` -/
def expectUtf8 (bytes : List UInt8) : Except Stop String :=
  match textOf bytes with
  | some cs => .ok (String.ofList cs)
  | none => .error .panic

/-- The token of a literal. Source: `lexer.rs`, `read_token`, behind the loops of the two literals -/
def literalToken : LiteralKind → List UInt8 → Except Stop TokenKind
  | .text, bytes => (expectUtf8 bytes).map .stringLit
  | .byteString, bytes => .ok (.bytesLit bytes)

/-- A literal, from behind its opening quote on. Source: `lexer.rs`, `read_token` -/
def readLiteral (kind : LiteralKind) (startCol : Nat) (s : State) : Except Stop State := do
  let (bytes, n) ← literalBody kind s.line startCol s.rest s.col
  let s := s.advance n
  if s.rest = [] then .error (.error ⟨s.line, startCol, kind.unterminated⟩)
  else do
    let s := s.advance 1
    let token ← literalToken kind bytes
    .ok (s.emit token s.line startCol)

/-! ## Tokens of the source -/

/-- A run of bytes as a text. Source: `lexer.rs`, `read_token`, the loops over `is_ident_continue`
and `is_ascii_digit` -/
def readRun (p : UInt8 → Bool) (s : State) : Except Stop (String × State) :=
  let run := s.rest.takeWhile p
  (expectUtf8 run).map fun text => (text, s.advance run.length)

/-- The value of decimal digits. -/
def decimalValue (digits : List Char) : Nat := digits.foldl (fun n c => 10 * n + (c.toNat - 48)) 0

/-- Source: `str::parse::<i64>`, on digits -/
def parseI64 (digits : String) : Option Int64 :=
  let n := decimalValue digits.toList
  if digits.toList ≠ [] ∧ n < 2 ^ 63 then some (Int64.ofNat n) else none

/-- The symbols of two bytes. Source: `lexer.rs`, `read_token`, the last match, the tests of
`peek(1)` -/
def doubleSymbols : List ((UInt8 × UInt8) × TokenKind) :=
  [((58, 58), .doubleColon), ((61, 61), .equalEqual), ((61, 62), .fatArrow), ((33, 61), .notEqual),
    ((62, 61), .gtEq), ((60, 61), .ltEq)]

/-- The symbols of one byte. Source: `lexer.rs`, `read_token`, the last match -/
def singleSymbols : List (UInt8 × TokenKind) :=
  [(58, .colon), (44, .comma), (91, .lBracket), (93, .rBracket), (40, .lParen), (41, .rParen),
    (123, .lBrace), (125, .rBrace), (61, .equal), (62, .gt), (60, .lt), (46, .dot), (43, .plus),
    (45, .minus), (42, .star), (47, .slash), (37, .percent)]

/-- The symbol at a byte, from the byte behind it, with its length. Source: `lexer.rs`,
`read_token`, the last match -/
def symbol (c : UInt8) (next : Option UInt8) : Option (TokenKind × Nat) :=
  match next.bind fun b => doubleSymbols.lookup (c, b) with
  | some kind => some (kind, 2)
  | none => (singleSymbols.lookup c).map fun kind => (kind, 1)

/-- The change of `paren_depth` at a token: one more at an opening bracket, one less at a closing
one. -/
def TokenKind.bracket : TokenKind → Int
  | .lBracket | .lParen | .lBrace => 1
  | .rBracket | .rParen | .rBrace => -1
  | _ => 0

/-- A symbol. Source: `lexer.rs`, `read_token`, the last match -/
def readSymbol (c : UInt8) (s : State) : Except Stop State :=
  match symbol c s.rest[1]? with
  | none => .error (.error ⟨s.line, s.col,
      if c = 33 then "unexpected '!' (did you mean '!='?)"
      else "unexpected character: " ++ debugLatin c⟩)
  | some (kind, n) =>
      let parenDepth := s.parenDepth + kind.bracket
      if 2 ^ 31 ≤ parenDepth then .error .panic
      else if parenDepth < 0 then
        .error (.error ⟨s.line, s.col, "unexpected '" ++ String.singleton (latin c) ++ "'"⟩)
      else .ok ({ s.advance n with parenDepth := parenDepth }.emit kind s.line s.col)

/-- Source: `lexer.rs`, `read_token` -/
def readToken (s : State) : Except Stop State :=
  match s.rest with
  | [] => .error .panic
  | c :: after =>
      if c = 64 then do
        let (name, s') ← readRun isIdentContinue (s.advance 1)
        if after.takeWhile isIdentContinue = [] then
          .error (.error ⟨s.line, s.col, "expected identifier after '@'"⟩)
        else .ok (s'.emit (.attribute name) s.line s.col)
      else if c = 34 then readLiteral .text s.col (s.advance 1)
      else if isDigit c then do
        let (digits, s') ← readRun isDigit s
        match parseI64 digits with
        | some n => .ok (s'.emit (.number n) s.line s.col)
        | none => .error (.error ⟨s.line, s.col, "invalid number: " ++ digits⟩)
      else if c = 98 ∧ after.head? = some 34 then readLiteral .byteString s.col (s.advance 2)
      else if isIdentStart c then do
        let (name, s') ← readRun isIdentContinue s
        .ok (s'.emit (.ident name) s.line s.col)
      else readSymbol c s

/-! ## The loop -/

/-- The end of a line. Source: `lexer.rs`, `tokenize`, the branch of the line feed -/
def readNewline (s : State) (after : List UInt8) : State :=
  let s' := { s with rest := after, line := s.line + 1, col := 1 }
  if s.parenDepth = 0 then
    let lastIsNl := s.tokens.getLast?.any fun t =>
      t.kind = .newline || t.kind = .indent || t.kind = .dedent
    if s.tokens ≠ [] ∧ lastIsNl = false then
      { s'.emit .newline s.line s.col with atLineStart := true }
    else { s' with atLineStart := true }
  else s'

/-- What a turn does behind the indentation. Source: `lexer.rs`, `tokenize`, the body of the loop -/
def readItem (s : State) : Except Stop State :=
  match s.rest with
  | [] => .ok s
  | c :: after =>
      if c = 45 ∧ after.head? = some 45 then
        .ok (s.advance (s.rest.takeWhile fun b => b ≠ 10).length)
      else if c = 10 then .ok (readNewline s after)
      else if c = 32 ∨ c = 9 then .ok (s.advance 1)
      else readToken s

/-- One turn of the loop. Source: `lexer.rs`, `tokenize`, the body of the loop -/
def turn (s : State) : Except Stop State := do
  let s ← if s.atLineStart ∧ s.parenDepth = 0 then handleLineStart s else .ok s
  readItem s

/-- The loop, for a number of turns. Source: `lexer.rs`, `tokenize` -/
def scan : Nat → State → Option (Except Stop State)
  | 0, _ => none
  | turns + 1, s =>
      if s.rest = [] then some (.ok s)
      else
        match turn s with
        | .error stop => some (.error stop)
        | .ok s' => scan turns s'

/-- The tokens at the end of the source. Source: `lexer.rs`, `tokenize`, behind the loop -/
def finish (s : State) : List Token :=
  let lastIsNl := s.tokens.getLast?.all fun t => t.kind = .newline
  let s := if lastIsNl then s else s.emit .newline s.line s.col
  s.tokens ++ List.replicate (s.indents.length - 1) ⟨.dedent, s.line, s.col⟩ ++
    [⟨.eof, s.line, s.col⟩]

/-- The tokens of a source, where a number of turns is enough for it. Source: `lexer.rs`,
`tokenize` -/
def tokenize (turns : Nat) (src : List Char) : Option (Except Stop (List Token)) :=
  (scan turns (State.new src)).map fun r => r.map finish

end Verbosec.Lexer
