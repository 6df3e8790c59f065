import Verbosec.Lexer.Tokenize

/-!
# The cursor of the parser

* `Complaint`, `ParseError` - what the parser reports, and where.
* `Halt` - how a parse ends without a result: with an error, with a panic of the host, or with too
  little fuel for the loops of the model.
* `Parse` - a parser: it consumes tokens of the list that is left.
* `peekKind`, `advance`, `checkKind`, `checkIdent`, `expectKind`, `expectIdent`, `expectIdentAny` -
  the primitives, each with the lemma of what it does at a token.

Source: `parser.rs`, `Parser`. The state is the list of the tokens from the current one on; it is
never empty, as the last token is never consumed.
-/

namespace Verbosec.Parser

open Lexer

/-! ## Errors -/

/-- The message of an error. A token in a message is rendered as `Display for TokenKind` does.
Source: `parser.rs`, the messages of `error` -/
inductive Complaint where
  /-- `expected {kind}, got {got}` -/
  | expectedKind (kind got : TokenKind)
  /-- `expected '{name}', got {got}` -/
  | expectedIdent (name : String) (got : TokenKind)
  /-- `expected identifier, got {got}` -/
  | expectedIdentifier (got : TokenKind)
  /-- a fixed text -/
  | text (message : String)
  deriving DecidableEq, Repr

/-- Source: `parser.rs`, `ParseError` -/
structure ParseError where
  line : Nat
  col : Nat
  message : Complaint
  deriving DecidableEq, Repr

/-- How a parse ends without a result. -/
inductive Halt where
  /-- a reported error -/
  | error (e : ParseError)
  /-- an index out of bounds, when there is no token at all -/
  | panic
  /-- a loop or a nesting exceeds the fuel of the model; not a behaviour of the parser -/
  | outOfFuel
  deriving DecidableEq, Repr

/-- A parser. -/
abbrev Parse (α : Type) := StateT (List Token) (Except Halt) α

/-! ## Primitives -/

/-- Source: `parser.rs`, `peek_kind` -/
def peekKind : Parse (Option TokenKind) := do return (← get).head?.map (·.kind)

/-- The next token; the last one stays. Source: `parser.rs`, `advance` -/
def advance : Parse Unit := do
  match ← get with
  | [] => throw .panic
  | [t] => set [t]
  | _ :: t :: ts => set (t :: ts)

/-- Source: `parser.rs`, `check_kind` -/
def checkKind (kind : TokenKind) : Parse Bool := do return (← peekKind) = some kind

/-- Source: `parser.rs`, `check_ident` -/
def checkIdent (name : String) : Parse Bool := checkKind (.ident name)

/-- Source: `parser.rs`, `at_eof` -/
def atEof : Parse Bool := checkKind .eof

/-- An error at the current token. Source: `parser.rs`, `peek` and `error` -/
def error {α : Type} (message : TokenKind → Complaint) : Parse α := do
  match ← get with
  | [] => throw .panic
  | t :: _ => throw (.error ⟨t.line, t.col, message t.kind⟩)

/-- Source: `parser.rs`, `error`, with a fixed text -/
def errorText {α : Type} (message : String) : Parse α := error fun _ => .text message

/-- Source: `parser.rs`, `expect_kind` -/
def expectKind (kind : TokenKind) : Parse Unit := do
  if ← checkKind kind then advance else error (.expectedKind kind)

/-- Source: `parser.rs`, `expect_ident` -/
def expectIdent (name : String) : Parse Unit := do
  if ← checkIdent name then advance else error (.expectedIdent name)

/-- Source: `parser.rs`, `expect_ident_any` -/
def expectIdentAny : Parse String := do
  match ← peekKind with
  | some (.ident n) => do
      advance
      return n
  | _ => error .expectedIdentifier

/-! ## What they do at a token -/

section primitives

variable {t : Token} {ts : List Token}

@[simp] lemma run_peekKind : peekKind.run (t :: ts) = .ok (some t.kind, t :: ts) := rfl

@[simp] lemma run_checkKind (kind : TokenKind) :
    (checkKind kind).run (t :: ts) = .ok (decide (t.kind = kind), t :: ts) := by
  rw [checkKind, StateT.run_bind, run_peekKind]
  show Except.ok (decide (some t.kind = some kind), t :: ts) = _
  rw [decide_eq_decide.mpr Option.some_inj]

@[simp] lemma run_checkIdent (name : String) :
    (checkIdent name).run (t :: ts) = .ok (decide (t.kind = .ident name), t :: ts) :=
  run_checkKind _

lemma run_advance (hts : ts ≠ []) : advance.run (t :: ts) = .ok ((), ts) := by
  cases ts with
  | nil => exact absurd rfl hts
  | cons u us => rfl

lemma run_bind_ok {α β : Type} {p : Parse α} {f : α → Parse β} {a : α} {us : List Token}
    (h : p.run ts = .ok (a, us)) : (p >>= f).run ts = (f a).run us := by
  rw [StateT.run_bind, h]
  rfl

lemma run_expectKind {kind : TokenKind} (ht : t.kind = kind) (hts : ts ≠ []) :
    (expectKind kind).run (t :: ts) = .ok ((), ts) := by
  rw [expectKind, run_bind_ok (run_checkKind kind), ht, if_pos (decide_eq_true rfl),
    run_advance hts]

lemma run_expectIdent {name : String} (ht : t.kind = .ident name) (hts : ts ≠ []) :
    (expectIdent name).run (t :: ts) = .ok ((), ts) := by
  rw [expectIdent, run_bind_ok (run_checkIdent name), ht, if_pos (decide_eq_true rfl),
    run_advance hts]

lemma run_expectIdentAny {name : String} (ht : t.kind = .ident name) (hts : ts ≠ []) :
    expectIdentAny.run (t :: ts) = .ok (name, ts) := by
  rw [expectIdentAny, run_bind_ok run_peekKind, ht]
  exact run_bind_ok (run_advance hts)

end primitives

end Verbosec.Parser
