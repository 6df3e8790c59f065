import Verbosec.Interpreter.Eval
import Verbosec.TextBounds.Check

/-!
# Pipelines

* `stages`, `wrapper`, `lower` - the phases of a pipeline, lowered to one rule of nested calls.
* `shapeErrors`, `verifyEntry`, `Accepted` - what is checked of a pipeline before it runs or is
  compiled.
* `checkInput` - the input guard of a phase, on every field of its declared concept.
* `runPhases` - the phases on one record, each on the value of the one before.

Source: `execution.rs`, `execution/pipeline.rs`, `interpreter/execution/pipeline.rs`.
-/

namespace Verbosec.Execution.Pipeline

open Verbosec.Lib
open Interpreter (Context Outcome RuntimeError Value World evalRule fieldValid)

/-! ## Lowering -/

/-- The `let`s of the wrapper and its value, from the phase `i` on; `value` is the expression that
the phase is called with. Source: `execution/pipeline.rs`, `lower` -/
def stages : Nat → Expr → List String → List (String × Expr) × Expr
  | _, value, [] => ([], value)
  | _, value, [phase] => ([], .call phase [value])
  | i, value, phase :: phases =>
      let name := "pipeline_stage_" ++ toString i
      let rest := stages (i + 1) (.ident name) phases
      ((name, .call phase [value]) :: rest.1, rest.2)

section lower

variable (e : Execution)

/-- The rule that a pipeline is lowered to. Source: `execution/pipeline.rs`, `lower` -/
def wrapper (last : Rule) : Rule :=
  let body := stages 0 (.ident "pipeline_input") e.phases
  { name := e.name
    inputName := "pipeline_input"
    inputTy := .named e.input
    outputName := "out"
    outputTy := last.outputTy
    outputTextMax := last.outputTextMax
    logic := { bindings := body.1, value := body.2 } }

/-- The rule of the last phase. -/
def lastRule (p : Program) : Option Rule := p.rules.find? (some ·.name = e.phases.getLast?)

/-- Is a declaration an execution? -/
def isExecution : Item → Bool
  | .execution _ => true
  | _ => false

/-- The program with its executions replaced by the wrapper of one of them.
Source: `execution/pipeline.rs`, `lower` -/
def lower (p : Program) (last : Rule) : Program where
  items := p.items.filter (!isExecution ·) ++ [.rule (wrapper e last)]

end lower

/-! ## Acceptance -/

/-- The names that the parser takes in call position. Source: `parser.rs`,
`PRIMITIVE_CALL_NAMES` -/
def primitiveCallNames : List String :=
  ["Err", "Ok", "abort_if", "abs", "all", "any", "arena_scope", "band", "bnot", "bor", "bxor",
    "byte_at", "try_byte_at", "concat", "contains", "count", "ends_with", "fetch", "filter", "fold",
    "fold_bytes", "json_escape", "le32", "le64", "length", "map", "match_result", "max", "min",
    "now_unix", "parse_int", "random", "read", "shl", "shr", "starts_with", "substring", "sum"]

/-- The names that a declaration takes from executions. Source: `execution.rs`, `shape_errors` -/
def takenNames : Item → List String
  | .rule r => [r.name]
  | .service s => [s.name]
  | .reaction r => [r.name]
  | .concept c => [c.name]
  | .conceptGroup g => g.name :: g.concepts.map (·.name)
  | .resource r => [r.name]
  | .connection c => [c.name]
  | .entropy r => [r.name]
  | .execution _ => []

/-- The errors of the phases of a pipeline from the phase `i` on, `expected` being the type of the
value that reaches it. Source: `execution.rs`, `shape_errors` -/
def phaseErrors (p : Program) : Nat → Ty → List String → List String
  | _, _, [] => []
  | i, expected, name :: names =>
      match p.rules.find? (·.name = name) with
      | none =>
          ("phase " ++ toString (i + 1) ++ ": no rule named '" ++ name ++
            "'; nested executions and services are not phases") ::
            phaseErrors p (i + 1) expected names
      | some r =>
          (if r.inputTy ≠ expected then
            ["phase " ++ toString (i + 1) ++ " ('" ++ name ++ "'): input " ++ r.inputTy.debug ++
              " must match pipeline value " ++ expected.debug]
          else []) ++
          (if names ≠ [] ∧ !(match r.outputTy with
              | .named _ => true
              | _ => false) then
            ["phase " ++ toString (i + 1) ++ " ('" ++ name ++
              "'): intermediate pipeline result must be a flat record"]
          else []) ++ phaseErrors p (i + 1) r.outputTy names

/-- The errors of the shape of a pipeline with a stack limit. Its intention, its workload and other
executions of its name are no part of the model. Source: `execution.rs`, `shape_errors` -/
def shapeErrors (p : Program) (e : Execution) (nativeStack : Nat) : List String :=
  (if e.name ∈ p.items.flatMap takenNames ∨ e.name ∈ primitiveCallNames then
    ["execution name collides with another declaration or a primitive"] else []) ++
  (if 2 ≤ e.phases.length ∧ e.phases.length ≤ 64 then [] else ["expected 2..=64 phases"]) ++
  (if 1 ≤ nativeStack ∧ nativeStack ≤ 2097152 then []
    else ["native_stack must be in [1, 2097152] bytes"]) ++
  (if e.input ∈ p.concepts.map (·.name) then []
    else ["unknown input concept '" ++ e.input ++ "'"]) ++
  phaseErrors p 0 (.named e.input) e.phases

/-- The verifier of an entry, without the built-in concepts. Source: `text_bounds.rs`,
`verify_entry` -/
def entryCheck (p : Program) : TextBounds.Check where
  rules := (p.rules.map fun r => (r.name, r)).reverse
  concepts := (p.concepts.map fun c => (c.name, c)).reverse
  native := true

/-- Is a rule in the closed subset, with all that it calls? Source: `text_bounds.rs`,
`verify_entry` -/
def verifyEntry (p : Program) (name : String) : Except String Unit :=
  (((entryCheck p).rule 128 [] name).exec {}).1.map fun _ => ()

/-- What is checked of a pipeline. The stack and code budgets, and the contracts of the program's
own rules, are checked as well; no evaluation depends on them. Source: `execution/pipeline.rs`,
`prepare` -/
structure Accepted (p : Program) (e : Execution) (last : Rule) : Prop where
  shape : ∃ nativeStack, e.mode = .pipeline nativeStack ∧ shapeErrors p e nativeStack = []
  resolved : lastRule e p = some last
  entry : verifyEntry (lower e p last) e.name = .ok ()

/-! ## The run -/

/-- Why a phase ends without a value. Source: `interpreter/execution/pipeline.rs`, `check_input` and
`run` -/
inductive Cause where
  | unknownRule
  | undeclared
  | notRecord
  | field (name : String)
  | rule (f : Interpreter.Failure)

/-- The text of a cause that is reported; nothing where the host stops. -/
def Cause.message : Cause → Option String
  | .undeclared => some "pipeline requires a declared input concept"
  | .notRecord => some "pipeline requires a record input"
  | .field name =>
      some ("pipeline input field '" ++ name ++ "' violates its declared type or bound")
  | .rule (.runtime err) => some err.message
  | _ => none

/-- A phase, counted from one, and why it ended without a value. -/
structure PhaseError where
  phase : Nat
  name : String
  cause : Cause

/-- The report of a failed phase. Source: `interpreter/execution/pipeline.rs`, `run` -/
def PhaseError.message (err : PhaseError) (execution : String) (record : Nat) : Option String :=
  err.cause.message.map fun text => "execution '" ++ execution ++ "', phase " ++
    toString err.phase ++ " ('" ++ err.name ++ "'), record " ++ toString record ++ ": " ++ text

/-- The input guard of a phase. Source: `interpreter/execution/pipeline.rs`, `check_input` -/
def checkInput (ctx : Context) (r : Rule) (value : Value) : Except Cause Unit :=
  match ctx.concepts.find? (r.inputTy = .named ·.name) with
  | none => .error .undeclared
  | some concept =>
      match value with
      | .record fields =>
          match concept.fields.find? (!fieldValid · fields) with
          | none => .ok ()
          | some f => .error (.field f.name)
      | _ => .error .notRecord

/-- One phase on the value that reaches it. Source: `interpreter/execution/pipeline.rs`, `run` -/
def runPhase (ctx : Context) (fuel : Nat) (name : String) (value : Value) : Except Cause Value :=
  match ctx.findRule name with
  | none => .error .unknownRule
  | some r => do
      checkInput ctx r value
      (evalRule ctx fuel r value).mapError .rule

/-- The phases on one record, the first of them being the phase `i`.
Source: `interpreter/execution/pipeline.rs`, `run` -/
def runPhases (ctx : Context) (fuel : Nat) : Nat → List String → Value → Except PhaseError Value
  | _, [], value => .ok value
  | i, name :: names, value => do
      let value ← (runPhase ctx fuel name value).mapError fun cause => ⟨i + 1, name, cause⟩
      runPhases ctx fuel (i + 1) names value

/-- The tables of a pipeline; it draws no randomness. Source: `interpreter/execution.rs`, `run` -/
def tables (p : Program) (world : World) : Context :=
  { Context.ofProgram p world with entropies := [] }

end Verbosec.Execution.Pipeline
