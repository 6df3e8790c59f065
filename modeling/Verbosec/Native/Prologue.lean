import Verbosec.Lib.Machine
import Verbosec.Lib.Transition
import Verbosec.Syntax

/-!
# The prologues of the program emitters

* `atoi`, `checkedAtoi` - the two readers of numbers.
* `loadField` - the code that loads one field from an argument: it aborts on a number out of its
  range and on a text over its bound, where it checks.
* `Plan` - what an emitter loads, in which order, with which checks, and when it prints;
  `Emitter.plan` gives the plan of each of the program emitters.
* `State`, `Step`, `machine` - the emitted program, over arbitrary arguments; of expressions all is
  left open but where their code runs and where it prints.
* `Sound` - what the declarations promise to the code of an expression.

Source: `native.rs`, `emit_record_loop_prologue`, `emit_fold_program`, `emit_multi_fold_program`,
`emit_collection_program`, `emit_text_fold_program` and `emit_fold_bytes_program`. Resources and the
sizing pass of a text fold load no field; the abort of a resource is the step `resource`.
-/

namespace Verbosec.Native.Prologue

open Verbosec.Lib

/-! ## Loads -/

/-- An argument: its bytes up to the first zero, or an address that cannot be read. -/
abbrev Word := Option (List UInt8)

/-- The sign of a number and what follows it. -/
def splitSign : List UInt8 → Bool × List UInt8
  | [] => (false, [])
  | b :: bytes => if b = 45 then (true, bytes) else (false, b :: bytes)

/-- A number without any check, modulo a word. Source: `native.rs`, `emit_atoi_inline` -/
def atoi (bytes : List UInt8) : Int64 :=
  let (negative, digits) := splitSign bytes
  let n := digits.foldl (fun (n : Int64) b => n * 10 + (b - 48).toUInt64.toInt64) 0
  if negative then -n else n

/-- A number of digits only, in the range of a word; accumulated below zero.
Source: `native.rs`, `emit_checked_atoi_inline` -/
def checkedAtoi (bytes : List UInt8) : Option Int64 :=
  let (negative, digits) := splitSign bytes
  if digits = [] then none
  else do
    let n ← digits.foldlM (fun (n : Int64) b =>
      if b - 48 ≤ 9 then (checkedMul n 10).bind (checkedSub · (b - 48).toUInt64.toInt64)
      else none) 0
    if negative then some n else checkedNeg n

/-- The content of a field's slot: a number, or the address of a text. -/
inductive Slot where
  | number (n : Int64)
  | text (w : Word)
  deriving DecidableEq

/-- What the code of a load does. -/
inductive Loaded where
  /-- the slot is stored -/
  | slot (s : Slot)
  /-- a check fails: the process exits with status 1 -/
  | abort
  /-- an address that cannot be read is read -/
  | fault
  deriving DecidableEq

/-- Is the number inside the declared range? Source: `native.rs`, `emit_bounds_check` -/
def inRange (range : Option (Int64 × Int64)) (n : Int64) : Bool :=
  match range with
  | none => true
  | some (low, high) => low ≤ n && n ≤ high

/-- Source: `native.rs`, `text_field_declared_max` -/
def textFieldDeclaredMax (f : Field) : Option Int64 :=
  match f.ty with
  | .text => f.range.map (·.2)
  | _ => none

/-- How many bytes are scanned for the end of a text: one more than declared, as an unsigned count.
Source: `native.rs`, `emit_text_bound_check` -/
def scanBudget (max : Int64) : Nat :=
  (min (max.toInt + 1) maxI64 % 2 ^ 64).toNat

/-- Is the end of a text found? A scan of no bytes leaves the flag of the `xor` before it, which says
so. Source: `native.rs`, `emit_text_bound_check` -/
def withinBudget (max : Int64) (bytes : List UInt8) : Bool :=
  scanBudget max = 0 || bytes.length < scanBudget max

/-- Which checks a prologue makes on the numbers that it loads. -/
structure Checks where
  /-- only digits, in the range of a word -/
  strict : Bool := false
  /-- the declared range -/
  range : Bool := false
  deriving DecidableEq

/-- The reader of a number. -/
def readNumber (checks : Checks) (bytes : List UInt8) : Option Int64 :=
  if checks.strict then checkedAtoi bytes else some (atoi bytes)

/-- The load of a field. Source: `native.rs`, the loops over fields of the emitters -/
def loadField (checks : Checks) (f : Field) (w : Word) : Loaded :=
  match f.ty with
  | .number =>
    match w with
    | none => .fault
    | some bytes =>
      match readNumber checks bytes with
      | none => .abort
      | some n => if checks.range && !inRange f.range n then .abort else .slot (.number n)
  | _ =>
    match textFieldDeclaredMax f, w with
    | none, w => .slot (.text w)
    | some _, none => .fault
    | some max, some bytes => if withinBudget max bytes then .slot (.text w) else .abort

/-! ## The emitters -/

/-- What a program loads and when it prints. -/
structure Plan where
  /-- the fields of the context, loaded once and without checks on numbers -/
  context : List Field := []
  /-- the fields of a record -/
  input : List Field
  /-- the checks on these -/
  checks : Checks := {}
  /-- the fields of an element, where a record ends in a collection -/
  element : Option (List Field) := none
  /-- does the code of an element print? -/
  printsElements : Bool := false
  /-- is there a loop over records? -/
  repeats : Bool := true

/-- The least number of arguments, the name of the program among them. -/
def Plan.minArgc (p : Plan) : Nat :=
  p.context.length + p.input.length + if p.element.isSome then 2 else 1

/-- A field that is a number or a text. -/
def loads (f : Field) : Bool := f.ty = .number || f.ty = .text

/-- Source: `native.rs`, `emit_record_loop_prologue` -/
def emitRecordLoopPrologue (context : Option Concept) (inputName : String) (input : Concept)
    (numericScratch : Bool) : Option Plan :=
  let inputIsGroup := input.fields.isEmpty && !input.variants.isEmpty
  let contextFields := (context.map (·.fields)).getD []
  -- an input of a concept group is one number, the index of its node
  let fields := if inputIsGroup then [{ name := inputName, ty := .number }] else input.fields
  if contextFields.all loads && fields.all loads then
    some { context := contextFields, input := fields,
           checks := { strict := numericScratch && !inputIsGroup, range := true } }
  else none

/-- The fields before the collection at the end, and its element type. -/
def splitCollection : List Field → Option (List Field × String)
  | [] => none
  | [f] =>
    match f.ty with
    | .collection elem => some ([], elem)
    | _ => none
  | f :: fs =>
    if loads f then (splitCollection fs).map fun (scalars, elem) => (f :: scalars, elem)
    else none

/-- A record with a collection at its end, whose elements are records.
Source: `native.rs`, `emit_fold_program`, the checks on the shape of the input -/
def elementPlan (concepts : List Concept) (input : Concept) (printsElements : Bool) : Option Plan := do
  let (scalars, elem) ← splitCollection input.fields
  let concept ← concepts.find? (·.name = elem)
  if concept.fields.all loads then
    return { input := scalars, element := some concept.fields, printsElements }
  else none

/-- Source: `native.rs`, `emit_fold_program` -/
def emitFoldProgram (concepts : List Concept) (input : Concept) : Option Plan :=
  elementPlan concepts input false

/-- Source: `native.rs`, `emit_multi_fold_program` -/
def emitMultiFoldProgram (concepts : List Concept) (input : Concept) : Option Plan :=
  elementPlan concepts input false

/-- Source: `native.rs`, `emit_text_fold_program` -/
def emitTextFoldProgram (concepts : List Concept) (input : Concept) : Option Plan :=
  elementPlan concepts input false

/-- Elements may be numbers as well, one argument each. Source: `native.rs`,
`emit_collection_program` -/
def emitCollectionProgram (concepts : List Concept) (lambdaVar : String) (input : Concept) :
    Option Plan :=
  match splitCollection input.fields with
  | some (scalars, "number") =>
    some { input := scalars, element := some [{ name := lambdaVar, ty := .number }],
           printsElements := true }
  | some (_, "text") | some (_, "bool") | none => none
  | some _ => elementPlan concepts input true

/-- Source: `native.rs`, `emit_fold_bytes_program` -/
def emitFoldBytesProgram (input : Concept) : Option Plan :=
  if input.fields.all loads then some { input := input.fields, repeats := false } else none

/-- The program emitters. Source: `native.rs`, `native/bounded.rs` and `native/bounded_text.rs` -/
inductive Emitter where
  | full (context : Option Concept)
  | selfRecursive
  | text
  | bytes
  | result
  | record
  | reaction
  | bounded (numeric : Bool)
  | boundedText (checkedInput : Bool)
  | fold
  | multiFold
  | collection (lambdaVar : String)
  | textFold
  | foldBytes

/-- What the program of an emitter loads, for a rule with this input. -/
def Emitter.plan (e : Emitter) (concepts : List Concept) (inputName : String) (input : Concept) :
    Option Plan :=
  match e with
  | full context => emitRecordLoopPrologue context inputName input false
  | selfRecursive | text | bytes | result | record | reaction =>
    emitRecordLoopPrologue none inputName input false
  | bounded numericScratch | boundedText numericScratch =>
    emitRecordLoopPrologue none inputName input numericScratch
  | fold => emitFoldProgram concepts input
  | multiFold => emitMultiFoldProgram concepts input
  | collection lambdaVar => emitCollectionProgram concepts lambdaVar input
  | textFold => emitTextFoldProgram concepts input
  | foldBytes => emitFoldBytesProgram input

/-! ## The program -/

/-- Where the program stands. -/
inductive Phase where
  /-- before the count of arguments is checked -/
  | start
  /-- loading the context -/
  | context (rest : List Field)
  /-- reading resources -/
  | resource
  /-- at the head of the loop over records -/
  | top
  /-- loading a record -/
  | input (rest : List Field)
  /-- the code of the lets -/
  | lets
  /-- loading the number of elements -/
  | count
  /-- at the head of the loop over elements -/
  | elements
  /-- loading an element -/
  | element (rest : List Field)
  /-- the code of an element -/
  | body
  /-- the code of the value -/
  | value
  /-- exited with status 1 from a check on a field -/
  | refused
  /-- exited -/
  | exited (status : Nat)
  /-- stopped by the host -/
  | faulted

/-- A state of the program. -/
structure State where
  /-- where it stands -/
  phase : Phase := .start
  /-- the index of the next argument, in `r14` -/
  arg : Nat := 1
  /-- the number of elements that are left, in `r15` -/
  left : Int64 := 0
  /-- the slots of the context -/
  context : List (Field × Slot) := []
  /-- the slots of the record -/
  input : List (Field × Slot) := []
  /-- the slots of the element -/
  element : List (Field × Slot) := []
  /-- has something been written for the record? -/
  printed : Bool := false

/-- The state after a load, or after its failure. -/
def State.load (s : State) (loaded : Loaded) (stored : Slot → State) : State :=
  match loaded with
  | .slot slot => { stored slot with arg := s.arg + 1 }
  | .abort => { s with phase := .refused }
  | .fault => { s with phase := .faulted }

section machine

variable (p : Plan) (words : Nat → Word) (argc : Nat)

/-- One step. Where the code of an expression runs the process may exit; what it writes is known only
where it must not write. -/
inductive Step : State → State → Prop
  | few {s : State} (hphase : s.phase = .start) (h : argc < p.minArgc) :
      Step s { s with phase := .exited 1 }
  | enough {s : State} (hphase : s.phase = .start) (h : p.minArgc ≤ argc) :
      Step s { s with phase := .context p.context }
  | context {s : State} {f : Field} {rest : List Field} (hphase : s.phase = .context (f :: rest)) :
      Step s (s.load (loadField {} f (words s.arg)) fun slot =>
        { s with phase := .context rest, context := s.context ++ [(f, slot)] })
  | contextDone {s : State} (hphase : s.phase = .context []) : Step s { s with phase := .resource }
  | resource {s : State} (hphase : s.phase = .resource) : Step s { s with phase := .top }
  | resourceFailed {s : State} (hphase : s.phase = .resource) :
      Step s { s with phase := .exited 1 }
  | done {s : State} {status : Nat} (hphase : s.phase = .top) (h : p.repeats ∧ argc ≤ s.arg) :
      Step s { s with phase := .exited status }
  | partialRecord {s : State} (hphase : s.phase = .top) (h : ¬ (p.repeats ∧ argc ≤ s.arg))
      (hstrict : p.checks.strict ∧ argc < s.arg + p.input.length) :
      Step s { s with phase := .refused, printed := false }
  | next {s : State} (hphase : s.phase = .top) (h : ¬ (p.repeats ∧ argc ≤ s.arg))
      (hstrict : ¬ (p.checks.strict ∧ argc < s.arg + p.input.length)) :
      Step s { s with phase := .input p.input, input := [], element := [], printed := false }
  | input {s : State} {f : Field} {rest : List Field} (hphase : s.phase = .input (f :: rest)) :
      Step s (s.load (loadField p.checks f (words s.arg)) fun slot =>
        { s with phase := .input rest, input := s.input ++ [(f, slot)] })
  | inputDone {s : State} (hphase : s.phase = .input []) : Step s { s with phase := .lets }
  | expressionExits {s : State} {status : Nat}
      (hphase : s.phase = .lets ∨ s.phase = .body ∨ s.phase = .value) :
      Step s { s with phase := .exited status }
  | lets {s : State} (hphase : s.phase = .lets) :
      Step s { s with phase := if p.element.isSome then .count else .value }
  | count {s : State} {bytes : List UInt8} (hphase : s.phase = .count)
      (hword : words s.arg = some bytes) :
      Step s { s with phase := .elements, left := atoi bytes, arg := s.arg + 1 }
  | countFaults {s : State} (hphase : s.phase = .count) (hword : words s.arg = none) :
      Step s { s with phase := .faulted }
  | noElement {s : State} (hphase : s.phase = .elements) (h : s.left = 0) :
      Step s { s with phase := .value }
  | nextElement {s : State} (hphase : s.phase = .elements) (h : s.left ≠ 0) :
      Step s { s with phase := .element (p.element.getD []), element := [] }
  | element {s : State} {f : Field} {rest : List Field} (hphase : s.phase = .element (f :: rest)) :
      Step s (s.load (loadField {} f (words s.arg)) fun slot =>
        { s with phase := .element rest, element := s.element ++ [(f, slot)] })
  | elementDone {s : State} (hphase : s.phase = .element []) : Step s { s with phase := .body }
  | body {s : State} {printed : Bool} (hphase : s.phase = .body)
      (hkept : s.printed = true → printed = true)
      (hprinted : printed = true → s.printed = true ∨ p.printsElements = true) :
      Step s { s with phase := .elements, left := s.left - 1, printed }
  | value {s : State} {printed : Bool} (hphase : s.phase = .value) :
      Step s { s with phase := if p.repeats then .top else .exited 0, printed }

/-- The emitted program. -/
def machine : System State where
  init s := s = {}
  step := Step p words argc

end machine

/-! ## What the declarations promise -/

/-- A slot holds a value that its field declares. -/
def Fits : Field × Slot → Prop
  | (f, .number n) => f.ty = .number ∧ ∀ low high, f.range = some (low, high) → low ≤ n ∧ n ≤ high
  | (f, .text w) => f.ty ≠ .number ∧ ∀ max, textFieldDeclaredMax f = some max →
      ∃ bytes, w = some bytes ∧ (bytes.length : Int) ≤ max.toInt

/-- The slots are the ones of some fields, and hold values that these declare. -/
def Holds (fields : List Field) (slots : List (Field × Slot)) : Prop :=
  slots.map (·.1) = fields ∧ ∀ e ∈ slots, Fits e

/-- Whenever the code of an expression runs, the fields hold values that they declare; a check that
fails ends the process before anything is written for the record. -/
def Sound (p : Plan) (s : State) : Prop :=
  match s.phase with
  | .lets | .value => Holds p.context s.context ∧ Holds p.input s.input
  | .body => Holds p.context s.context ∧ Holds p.input s.input ∧
      Holds (p.element.getD []) s.element
  | .refused => s.printed = false
  | _ => True

/-- An argument that a field declares, where it is read as a number. -/
def WordFits (checks : Checks) (f : Field) (w : Word) : Prop :=
  f.ty = .number → ∀ bytes n, w = some bytes → readNumber checks bytes = some n → inRange f.range n

/-- An argument that is not over the bound of a text. -/
def WithinBound (f : Field) (w : Word) : Prop :=
  ∀ max bytes, textFieldDeclaredMax f = some max → w = some bytes → withinBudget max bytes

/-- The argument that is loaded next is one that the field declares, where its number is not
checked; and a text after something is written for the record is within its bound. -/
def Declared (p : Plan) (words : Nat → Word) (s : State) : Prop :=
  match s.phase with
  | .context (f :: _) => WordFits {} f (words s.arg)
  | .input (f :: _) => p.checks.range = true ∨ WordFits p.checks f (words s.arg)
  | .element (f :: _) =>
    WordFits {} f (words s.arg) ∧ (s.printed = true → WithinBound f (words s.arg))
  | _ => True

/-- A step from a state whose next argument is declared. -/
def declaredMachine (p : Plan) (words : Nat → Word) (argc : Nat) : System State where
  init s := s = {}
  step s s' := Declared p words s ∧ Step p words argc s s'

/-- The bounds of texts are positive, as the parser has them. Source: `parser.rs`,
`parse_fields_block` -/
def Parsed (fields : List Field) : Prop :=
  ∀ f ∈ fields, ∀ max, textFieldDeclaredMax f = some max → 0 < max.toInt

end Verbosec.Native.Prologue
