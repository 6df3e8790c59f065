import Verbosec.Lib.Transition
import Verbosec.Syntax
import Verbosec.Wasm.HelpersSound

/-!
# The code of a rule for WebAssembly

* `Piece` - the code that the emitter writes at once, with the text values that it moves.
* `emit`, `emitResultBody` - the pieces of an expression.
* `compileWasm` - the pieces of a rule, with the places of its literals.
* `Machine`, `Step` - a call: the stack, the locals, the memory and the allocator.

The value of a number is left open where it comes from arithmetic, from a local or from a test,
and every branch can be taken. A trap has no next step. What `compile_wasm` refuses for a contract, for a
record or for a missing local is accepted here. The nodes that `walk_text_literals` does not enter
are refused by the emitter. Addresses do not wrap.

Source: `wasm.rs`, `compile_wasm`, `emit_wasm_expr`, `emit_wasm_result_body`.
-/

namespace Verbosec.Wasm.Emit

open Lib Lib.Bytes Interpreter

/-! ## Pieces -/

/-- A local of the function that holds a text. Source: `BindingShape`, `MatchResultLocals` -/
inductive Slot where
  | binding (i : Nat)
  | okStash
  | errStash
  | okVar
  | errVar
  deriving DecidableEq

/-- The code that the emitter writes at once. -/
inductive Piece where
  /-- a constant, a number local, a tag -/
  | number
  | literal (s : String) (offset : Nat)
  | field (name : String)
  | localText (slot : Slot)
  /-- the pointer and the length of an arm that is not live -/
  | placeholder
  /-- `k` numbers become one -/
  | arith (k : Nat)
  | branch (yes no : List Piece)
  | concatStart
  /-- the call of the number writer -/
  | itoa
  /-- a text is appended at the cursor -/
  | copy
  | concatEnd
  | length
  | parseInt
  | jsonEscape
  /-- a comparison of two texts -/
  | test
  | store (slot : Slot)
  | storeNumber

/-! ## Emission -/

/-- What the emitter knows. A name is bound to no slot where it is a number. Source: `WasmCtx` -/
structure Ctx where
  rules : List Rule
  inputName : String
  /-- is the field a text? Source: `field_shapes` -/
  fields : List (String × Bool)
  /-- Source: `binding_shapes` -/
  bindings : List (String × Option Slot)
  /-- Source: `text_literals` -/
  literals : List (String × Nat)

/-- The rule of a name: the last one in the map. -/
def ruleNamed (rules : List Rule) (name : String) : Option Rule :=
  rules.reverse.find? fun r => r.name == name

/-- Does the code of an expression leave a text? Source: `wasm.rs`, `expr_yields_text` -/
def yieldsText (fields : List (String × Bool)) (bindings : List (String × Option Slot)) :
    Expr → Bool
  | .text _ => true
  | .concat _ => true
  | .jsonEscape _ => true
  | .field (.ident _) name => fields.lookup name == some true
  | .ident name => match bindings.lookup name with
      | some (some _) => true
      | _ => false
  | _ => false

/-- The pieces of an expression. Calls are inlined, with `fuel` as their depth. Source: `wasm.rs`,
`emit_wasm_expr`, `emit_starts_or_ends_with`, `emit_contains` -/
def emit : Nat → Ctx → Expr → Option (List Piece)
  | 0, _, _ => none
  | fuel + 1, c, e => match e with
    | .number _ => some [.number]
    | .text s => (c.literals.lookup s).map fun offset => [.literal s offset]
    | .field (.ident x) name =>
        if x = c.inputName then
          (c.fields.lookup name).map fun text => if text then [.field name] else [.number]
        else none
    | .ident name => (c.bindings.lookup name).map fun
        | some slot => [.localText slot]
        | none => [.number]
    | .binary .and l r => do
        let left ← emit fuel c l
        let right ← emit fuel c r
        some (left ++ [Piece.arith 1, .branch [.number] right])
    | .binary .or l r => do
        let left ← emit fuel c l
        let right ← emit fuel c r
        some (left ++ [Piece.arith 1, .branch right [.number]])
    | .binary _ l r => do
        let left ← emit fuel c l
        let right ← emit fuel c r
        some (left ++ right ++ [Piece.arith 2])
    | .ite cond yes no => do
        let cond ← emit fuel c cond
        let yes ← emit fuel c yes
        let no ← emit fuel c no
        some (cond ++ [Piece.arith 1, .branch yes no])
    | .not e => do
        let code ← emit fuel c e
        some (code ++ [Piece.arith 1])
    | .neg e => do
        let code ← emit fuel c e
        some (.number :: code ++ [Piece.arith 2])
    | .abs e => do
        let code ← emit fuel c e
        some (code ++ [Piece.arith 1])
    | .min l r => do
        let left ← emit fuel c l
        let right ← emit fuel c r
        some (left ++ right ++ [Piece.arith 2])
    | .max l r => do
        let left ← emit fuel c l
        let right ← emit fuel c r
        some (left ++ right ++ [Piece.arith 2])
    | .concat args => do
        let codes ← args.mapM fun a => do
          let code ← emit fuel c a
          some (code ++ if yieldsText c.fields c.bindings a then [.copy] else [.itoa, .copy])
        some (.concatStart :: codes.flatten ++ [Piece.concatEnd])
    | .call name args => do
        guard (args.length = 1)
        let called ← ruleNamed c.rules name
        guard called.logic.bindings.isEmpty
        emit fuel { c with inputName := called.inputName } called.logic.value
    | .length e => do
        let code ← emit fuel c e
        some (code ++ [Piece.length])
    | .parseInt e => do
        let code ← emit fuel c e
        some (code ++ [Piece.parseInt])
    | .jsonEscape e => do
        let code ← emit fuel c e
        some (code ++ [Piece.jsonEscape])
    | .startsWith h n => do
        let haystack ← emit fuel c h
        let needle ← emit fuel c n
        some (haystack ++ needle ++ [Piece.test])
    | .endsWith h n => do
        let haystack ← emit fuel c h
        let needle ← emit fuel c n
        some (haystack ++ needle ++ [Piece.test])
    | .contains h n => do
        let haystack ← emit fuel c h
        let needle ← emit fuel c n
        some (haystack ++ needle ++ [Piece.test])
    | _ => none

/-- The piece that takes the value of a success off the stack. -/
def stashOk (textOk : Bool) : Piece := if textOk then .store .okStash else .storeNumber

/-- The pieces of a body with a result: its tag, the payload of a success, the payload of a failure.
Source: `wasm.rs`, `emit_wasm_result_body` -/
def emitResultBody (textOk : Bool) : Nat → Ctx → Expr → Option (List Piece)
  | 0, _, _ => none
  | fuel + 1, c, e => match e with
    | .ok inner => do
        let code ← emit fuel c inner
        some (.number :: code ++ [Piece.placeholder])
    | .err inner => do
        let code ← emit fuel c inner
        some (.number :: (if textOk then Piece.placeholder else .number) :: code)
    | .ite cond yes no => do
        let cond ← emit fuel c cond
        let yes ← emitResultBody textOk fuel c yes
        let no ← emitResultBody textOk fuel c no
        some (cond ++ [Piece.arith 1, .branch yes no])
    | .matchResult (.call name _) okVar okBody errVar errBody => do
        let callee ← ruleNamed c.rules name
        let called ← emitResultBody textOk fuel { c with inputName := callee.inputName }
          callee.logic.value
        let ok ← emitResultBody textOk fuel
          { c with bindings := (okVar, if textOk then some .okVar else none) :: c.bindings } okBody
        let err ← emitResultBody textOk fuel
          { c with bindings := (errVar, some .errVar) :: c.bindings } errBody
        some (called ++ [Piece.store .errStash, stashOk textOk, .storeNumber, .number, .arith 1,
          .branch ((if textOk then [.localText .okStash, .store .okVar]
            else [.number, .storeNumber]) ++ ok) ([Piece.localText .errStash, .store .errVar] ++ err)])
    | _ => none

/-! ## Rules -/

/-- The first address of a literal. -/
def literalBase : Nat := 1024

/-- Every literal has its place once, one after another. Source: `wasm.rs`, `text_literals` of
`compile_wasm` -/
def placeLiterals : List String → List (String × Nat) → Nat → List (String × Nat) × Nat
  | [], table, cursor => (table, cursor)
  | s :: ss, table, cursor =>
      if (table.lookup s).isSome then placeLiterals ss table cursor
      else placeLiterals ss ((s, cursor) :: table) (cursor + (utf8Bytes s).length)

/-- The literals of an expression. Source: `wasm.rs`, `walk_text_literals` -/
def textLiterals : Expr → List String := Expr.collect fun
  | .text s => [s]
  | _ => []

/-- Source: `inside_concat` of `expr_has_nested_concat` -/
def insideConcat (e : Expr) : Bool := (e.collect fun
  | .concat _ => [()]
  | _ => []) ≠ []

/-- Source: `wasm.rs`, `expr_has_nested_concat` -/
def hasNestedConcat (e : Expr) : Bool := (e.collect fun
  | .concat args => if args.any insideConcat then [()] else []
  | _ => []) ≠ []

/-- Source: `wasm.rs`, `has_nested_match` of `compile_wasm` -/
def hasNestedMatch : Expr → Bool
  | .matchResult .. => true
  | .ite c t e => hasNestedMatch c || hasNestedMatch t || hasNestedMatch e
  | .ok e => hasNestedMatch e
  | .err e => hasNestedMatch e
  | _ => false

/-- The rule that a `match_result` at the top calls. Source: `wasm.rs`,
`extract_top_level_match_result` -/
def matchedRule (rules : List Rule) (r : Rule) : Option Rule := match r.logic.value with
  | .matchResult (.call name [.ident x]) _ _ _ _ =>
      if x = r.inputName then ruleNamed rules name else none
  | _ => none

/-- The shapes of the bindings, in order, and what is stored for each. Source: `wasm.rs`,
`binding_shapes` of `compile_wasm` -/
def bindingShapes (fields : List (String × Bool)) :
    Nat → List (String × Expr) → List (String × Option Slot) →
      List (String × Option Slot) × List (Option Slot)
  | _, [], shapes => (shapes, [])
  | i, (name, e) :: bindings, shapes =>
      let slot := if yieldsText fields shapes e then some (Slot.binding i) else none
      let rest := bindingShapes fields (i + 1) bindings ((name, slot) :: shapes)
      (rest.1, slot :: rest.2)

/-- What becomes of a field. Source: `field_shapes` of `compile_wasm` -/
def fieldShape (f : Field) : Option (String × Bool) := match f.ty with
  | .number => some (f.name, false)
  | .text => some (f.name, true)
  | _ => none

/-- The result of a rule: `none` where it is refused, else the kind of the success of a result.
Source: `result_types` and `result_shape` of `compile_wasm` -/
def resultShape : Ty → Option (Option Bool)
  | .bool | .number | .text => some none
  | .result .number .text => some (some false)
  | .result .text .text => some (some true)
  | _ => none

/-- A compiled rule. -/
structure Compiled where
  code : List Piece
  literals : List (String × Nat)
  /-- the first address of the allocator. Source: `alloc_base` -/
  allocBase : Nat

/-- The pieces that follow the code of a binding. -/
def storePiece : Option Slot → Piece
  | some slot => .store slot
  | none => .storeNumber

/-- The expressions whose code a rule has. -/
def bodies (rule : Rule) (callee : Option Rule) : List Expr :=
  rule.logic.bindings.map (·.2) ++ rule.logic.value :: (callee.map fun r => r.logic.value).toList

/-- The code of the value of a rule. Source: the end of `compile_wasm` -/
def emitBody : Option Bool → Nat → Ctx → Expr → Option (List Piece)
  | some textOk => emitResultBody textOk
  | none => emit

/-- The code of a rule that passes the checks. Source: `wasm.rs`, `compile_wasm`, from the collection
of the literals on -/
def compileRule (fuel : Nat) (rules : List Rule) (rule : Rule) (fields : List (String × Bool))
    (shape : Option Bool) (callee : Option Rule) : Option Compiled :=
  let placed := placeLiterals ((bodies rule callee).flatMap textLiterals) [] literalBase
  let shapes := bindingShapes fields 0 rule.logic.bindings []
  let c : Ctx := ⟨rules, rule.inputName, fields, shapes.1, placed.1⟩
  do
    let bindings ← (rule.logic.bindings.zip shapes.2).mapM fun b => do
      let code ← emit fuel c b.1.2
      some (code ++ [storePiece b.2])
    let body ← emitBody shape fuel c rule.logic.value
    some ⟨bindings.flatten ++ body, placed.1, (placed.2 + 15) / 16 * 16⟩

/-- Is a called rule like the one that matches on its result? Source: `match_result_plan` of
`compile_wasm` -/
def sameShape (rule : Rule) (callee : Rule) : Bool :=
  callee.inputTy = rule.inputTy && callee.logic.bindings.isEmpty && callee.outputTy = rule.outputTy

/-- Does a `match_result` stand elsewhere than at the top? Source: `nested` of `compile_wasm` -/
def matchesInside : Expr → Bool
  | .matchResult t _ ok _ err => hasNestedMatch t || hasNestedMatch ok || hasNestedMatch err
  | e => hasNestedMatch e

/-- The fields of the input of a rule. Source: `field_shapes` of `compile_wasm` -/
def inputFields (p : Program) : Ty → Option (List (String × Bool))
  | .named concept => do
      let concept ← (p.items.filterMap fun
        | .concept c => some c
        | _ => none).find? fun c => c.name == concept
      concept.fields.mapM fieldShape
  | _ => none

/-- A rule becomes its code. Source: `wasm.rs`, `compile_wasm` -/
def compileWasm (fuel : Nat) (p : Program) (name : String) : Option Compiled := do
  let rule ← ruleNamed p.rules name
  let fields ← inputFields p rule.inputTy
  let shape ← resultShape rule.outputTy
  let callee := if shape.isSome then matchedRule p.rules rule else none
  guard (callee.all (sameShape rule))
  guard !matchesInside rule.logic.value
  guard !(bodies rule callee).any hasNestedConcat
  compileRule fuel p.rules rule fields.reverse shape callee

/-! ## Calls -/

/-- Where a text comes from. -/
inductive Origin where
  | input
  | literal
  /-- the number writer -/
  | rendered
  /-- `concat` or `json_escape` -/
  | allocated
  deriving DecidableEq

/-- A text value, with the bytes that it had when it was made. -/
@[ext]
structure Text where
  origin : Origin
  ptr : Nat
  len : Nat
  bytes : List UInt8
  deriving DecidableEq

/-- A value on the stack; a text is its pointer and its length. -/
inductive Val where
  | number (n : Int64)
  | text (t : Text)
  deriving DecidableEq

/-- A local before its first use. -/
def emptyText : Text := ⟨.input, 0, 0, []⟩

/-- What the host gives: the texts of the fields, the size of the memory, and the address from which
on the memory belongs to the host. -/
structure Host where
  fields : String → Text
  size : Nat
  top : Nat

/-- The function on its way. The values under the `concat` under construction are `below`, and
`built` are the bytes of its arguments so far. -/
structure Machine where
  code : List Piece
  stack : List Val
  below : List Val
  locals : Slot → Text
  memory : Nat → UInt8
  /-- Source: `bump_ptr` -/
  bump : Nat
  /-- Source: `cursor` -/
  cursor : Nat
  /-- Source: `result_ptr` -/
  resultPtr : Nat
  /-- is a `concat` under construction? -/
  opened : Bool
  built : List UInt8

/-- The bytes in the memory. Source: `memory.copy` -/
def loadBytes (m : Nat → UInt8) (a k : Nat) : List UInt8 := (List.range k).map fun i => m (a + i)

/-- The bytes that the escape of a text stands for. -/
def escapeOf (t : Text) : List UInt8 := if t.len < 2 ^ 31 then escapedBytes t.bytes else []

/-- One piece of the code runs. -/
inductive Step (h : Host) : Machine → Machine → Prop
  | number {x rest} (hcode : x.code = .number :: rest) (n : Int64) :
      Step h x { x with code := rest, stack := .number n :: x.stack }
  | literal {x rest s offset} (hcode : x.code = .literal s offset :: rest) :
      Step h x { x with
        code := rest
        stack := .text ⟨.literal, offset, (utf8Bytes s).length, utf8Bytes s⟩ :: x.stack }
  | field {x rest name} (hcode : x.code = .field name :: rest) :
      Step h x { x with code := rest, stack := .text (h.fields name) :: x.stack }
  | localText {x rest slot} (hcode : x.code = .localText slot :: rest) :
      Step h x { x with code := rest, stack := .text (x.locals slot) :: x.stack }
  | placeholder {x rest} (hcode : x.code = .placeholder :: rest) :
      Step h x { x with code := rest, stack := .text emptyText :: x.stack }
  | arith {x rest k stack} (hcode : x.code = .arith k :: rest) (ns : List Int64)
      (hns : ns.length = k) (hstack : x.stack = ns.map .number ++ stack) (n : Int64) :
      Step h x { x with code := rest, stack := .number n :: stack }
  | branch {x rest yes no n stack} (hcode : x.code = .branch yes no :: rest)
      (hstack : x.stack = .number n :: stack) {arm : List Piece} (harm : arm = yes ∨ arm = no) :
      Step h x { x with code := arm ++ rest, stack := stack }
  | concatStart {x rest} (hcode : x.code = .concatStart :: rest) :
      Step h x { x with
        code := rest, stack := [], below := x.stack ++ x.below, cursor := x.bump
        resultPtr := x.bump, opened := true, built := [] }
  | itoa {x rest n stack ptr len memory} (hcode : x.code = .itoa :: rest)
      (hstack : x.stack = .number n :: stack)
      (hcall : Wasm.itoa.Returns [.i64 (Lib.Wasm.unsigned 64 n.toInt)] x.memory h.size
        [.i32 ptr, .i32 len] memory) :
      Step h x { x with
        code := rest, memory := memory
        stack := .text ⟨.rendered, ptr, len, utf8Bytes (decimal n)⟩ :: stack }
  | copy {x rest t stack} (hcode : x.code = .copy :: rest) (hstack : x.stack = .text t :: stack)
      (hfit : x.cursor + t.len ≤ h.size) :
      Step h x { x with
        code := rest, stack := stack
        memory := writeAll x.memory x.cursor (loadBytes x.memory t.ptr t.len)
        cursor := x.cursor + t.len, built := x.built ++ t.bytes }
  | concatEnd {x rest} (hcode : x.code = .concatEnd :: rest) :
      Step h x { x with
        code := rest
        stack := .text ⟨.allocated, x.resultPtr, x.cursor - x.resultPtr, x.built⟩ ::
          (x.stack ++ x.below)
        below := [], bump := x.cursor, opened := false }
  | length {x rest t stack} (hcode : x.code = .length :: rest)
      (hstack : x.stack = .text t :: stack) (n : Int64) :
      Step h x { x with code := rest, stack := .number n :: stack }
  | parseInt {x rest t stack} (hcode : x.code = .parseInt :: rest)
      (hstack : x.stack = .text t :: stack) (n : Int64) :
      Step h x { x with code := rest, stack := .number n :: stack }
  | jsonEscape {x rest t stack ptr len bump memory} (hcode : x.code = .jsonEscape :: rest)
      (hstack : x.stack = .text t :: stack)
      (hcall : jsonEscapeHelper.Returns [.i32 t.ptr, .i32 t.len, .i32 x.bump] x.memory h.size
        [.i32 ptr, .i32 len, .i32 bump] memory) :
      Step h x { x with
        code := rest, memory := memory, bump := bump
        stack := .text ⟨.allocated, ptr, len, escapeOf t⟩ :: stack }
  | test {x rest s t stack} (hcode : x.code = .test :: rest)
      (hstack : x.stack = .text s :: .text t :: stack) (n : Int64) :
      Step h x { x with code := rest, stack := .number n :: stack }
  | store {x rest slot t stack} (hcode : x.code = .store slot :: rest)
      (hstack : x.stack = .text t :: stack) :
      Step h x { x with code := rest, stack := stack, locals := Function.update x.locals slot t }
  | storeNumber {x rest n stack} (hcode : x.code = .storeNumber :: rest)
      (hstack : x.stack = .number n :: stack) :
      Step h x { x with code := rest, stack := stack }

/-- The call of a compiled rule. Source: the start of the body in `compile_wasm` -/
def start (k : Compiled) (m : Nat → UInt8) : Machine where
  code := k.code
  stack := []
  below := []
  locals _ := emptyText
  memory := m
  bump := k.allocBase
  cursor := 0
  resultPtr := 0
  opened := false
  built := []

/-- The runs of a call. -/
def call (k : Compiled) (h : Host) (m : Nat → UInt8) : System Machine where
  init x := x = start k m
  step := Step h

end Verbosec.Wasm.Emit
