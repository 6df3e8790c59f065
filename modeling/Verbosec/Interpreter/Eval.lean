import Mathlib.Data.List.Infix
import Verbosec.Interpreter.Value
import Verbosec.Participating

/-!
# The interpreter

* `World` - what the effects observe: one clock sample and one draw per entropy source.
* `Context` - the tables an evaluation reads: rules, concepts, entropy sources, and the rules whose
  inputs are guarded.
* `evalExpr ctx call env e` - the value of an expression, a rule call delegated to `call`. It
  recurses on the expression.
* `checkInput`, `checkOutput` - the input guard of a contracted rule and the byte bound of its text
  result.
* `evalRule ctx fuel r v` - a rule applied to an input. The fuel bounds the depth of rule calls;
  `evalRule_mono` shows that more fuel never changes an outcome other than `outOfFuel`.

Source: `interpreter.rs`, `eval_rule_with_value`, `eval_expr`.
-/

namespace Verbosec.Interpreter

open Verbosec.Lib

/-! ## Tables -/

/-- What the effects of an evaluation observe. -/
structure World where
  /-- the seconds of the host clock -/
  now : Int64 := 0
  /-- the outcome of a draw, per entropy source -/
  draw : Entropy → Except String (List UInt8) := fun e => .ok (List.replicate e.bytes 0)

/-- The tables of an evaluation. Source: `interpreter.rs`, the parameters `all_rules`, `concepts`
and `entropies` of `eval_expr` -/
structure Context where
  /-- the rules, looked up by name from the front -/
  rules : List Rule
  /-- the concepts, looked up by name from the front -/
  concepts : List Concept
  /-- the entropy sources -/
  entropies : List Entropy := []
  /-- the rules under the strict overflow contract -/
  numeric : List String := []
  /-- the rules under the bounded text contract -/
  textual : List String := []
  /-- what the effects observe -/
  world : World := {}

/-- The tables of a program. Source: `main.rs`, the call of `interpreter::eval_rule` -/
def Context.ofProgram (p : Program) (world : World) : Context where
  rules := p.rules
  concepts := p.concepts
  entropies := p.entropies
  numeric := NumericBounds.activeRules p
  textual := TextBounds.activeRules p
  world := world

/-- The first rule of a name. -/
def Context.findRule (ctx : Context) (name : String) : Option Rule :=
  ctx.rules.find? (·.name = name)

/-! ## The guards of a rule -/

/-- Does a value satisfy a field's declared type and bound? Source: `interpreter.rs`,
`eval_rule_with_value` -/
def fieldValid (f : Field) (fields : List (String × Value)) : Bool :=
  match f.ty, fields.lookup f.name with
  | .text, some (.text s) => f.range.elim true fun b => s.utf8ByteSize ≤ b.2.toInt
  | .number, some (.number n) => f.range.elim true fun b => b.1 ≤ n && n ≤ b.2
  | _, _ => false

/-- Is the input of a rule guarded? Source: `interpreter.rs`, `eval_rule_with_value` -/
def guarded (ctx : Context) (r : Rule) : Bool :=
  r.name ∈ ctx.numeric || r.outputTextMax.isSome || r.name ∈ ctx.textual

/-- The contract a guard reports. -/
def contractName (ctx : Context) (r : Rule) : String :=
  if r.name ∈ ctx.numeric then "strict overflow contract" else "bounded text output"

/-- The input guard: a record with every field of the declared concept, within its bound.
Source: `interpreter.rs`, `eval_rule_with_value` -/
def checkInput (ctx : Context) (r : Rule) (input : Value) : Outcome Unit :=
  if guarded ctx r then
    let contract := contractName ctx r
    match ctx.concepts.find? (r.inputTy = .named ·.name) with
    | none => fail (.contractConcept contract)
    | some concept =>
        match input with
        | .record fields =>
            match concept.fields.find? (!fieldValid · fields) with
            | none => .ok ()
            | some f => fail (.contractField contract f.name)
        | _ => fail (.contractRecord contract)
  else .ok ()

/-- The byte bound of a text result. Source: `interpreter.rs`, `eval_rule_with_value` -/
def checkOutput (r : Rule) (result : Value) : Outcome Value :=
  match r.outputTextMax with
  | none => .ok result
  | some max =>
      match result with
      | .text s => if s.utf8ByteSize ≤ max then .ok result else fail (.textOutput r.name max)
      | _ => fail (.textOutput r.name max)

/-! ## Operators -/

/-- The comparison a relational operator makes. -/
def compareNumbers (op : BinOp) (a b : Int64) : Option Bool :=
  match op with
  | .eq => some (a = b)
  | .notEq => some (a ≠ b)
  | .gt => some (b < a)
  | .lt => some (a < b)
  | .gtEq => some (b ≤ a)
  | .ltEq => some (a ≤ b)
  | _ => none

/-- An arithmetic operator on two numbers. -/
def arithNumbers (op : BinOp) (a b : Int64) : Option (Outcome Value) :=
  match op with
  | .add => some (arith "add" (checkedAdd a b))
  | .sub => some (arith "subtract" (checkedSub a b))
  | .mul => some (arith "multiply" (checkedMul a b))
  | .div => some (if b = 0 then fail .divisionByZero else arith "divide" (checkedDiv a b))
  | .mod => some (if b = 0 then fail .moduloByZero
      else arith "calculate the remainder" (checkedRem a b))
  | _ => none

/-- A strict binary operator on two values. Source: `interpreter.rs`, the `Binary` arm of
`eval_expr`, after both operands are evaluated -/
def applyBinary (op : BinOp) (l r : Value) : Outcome Value :=
  match l, r with
  | .number a, .number b =>
      match compareNumbers op a b with
      | some v => .ok (.bool v)
      | none => (arithNumbers op a b).getD (fail (.cannotApply op l r))
  | .text a, .text b =>
      match op with
      | .eq => .ok (.bool (a = b))
      | .notEq => .ok (.bool (a ≠ b))
      | _ => fail (.cannotApply op l r)
  | .bool a, .bool b =>
      match op with
      | .eq => .ok (.bool (a = b))
      | .notEq => .ok (.bool (a ≠ b))
      | _ => fail (.cannotApply op l r)
  | _, _ => fail (.cannotApply op l r)

/-- Does the left operand of a logical operator decide it? -/
def shortCircuits (op : BinOp) (left : Bool) : Bool :=
  (op = .and && !left) || (op = .or && left)

/-- The items of a collection. -/
def expectList (need : String) : Value → Outcome (List Value)
  | .list items => .ok items
  | _ => fail (.shape need)

/-- A quantifier over the items: stops at the first item whose predicate is `stop`.
Source: `interpreter.rs`, the `Quantifier` arm of `eval_expr` -/
def quantify (stop : Bool) (predicate : Value → Outcome Value) : List Value → Outcome Bool
  | [] => .ok !stop
  | item :: items => do
      match ← predicate item with
      | .bool b => if b = stop then .ok stop else quantify stop predicate items
      | _ => fail (.shape "quantifier predicate must return bool")

/-- The items whose predicate is true. Source: `interpreter.rs`, the `Filter` arm of `eval_expr` -/
def filterItems (predicate : Value → Outcome Value) : List Value → Outcome (List Value)
  | [] => .ok []
  | item :: items => do
      match ← predicate item with
      | .bool keep =>
          let rest ← filterItems predicate items
          .ok (if keep then item :: rest else rest)
      | _ => fail (.shape "filter predicate must return bool")

/-- The accumulator of a byte fold. Source: `interpreter.rs`, the `FoldBytes` arm of `eval_expr` -/
def foldByteItems (step : Value → UInt8 → Nat → Outcome Value) :
    Value → List UInt8 → Nat → Outcome Value
  | acc, [], _ => .ok acc
  | acc, b :: bs, i => do
      match ← step acc b i with
      | .number n => foldByteItems step (.number n) bs (i + 1)
      | _ => fail (.shape "fold_bytes body must return a number")

/-- The bytes of a bytes concatenation. -/
def concatBytes : List Value → Outcome (List UInt8)
  | [] => .ok []
  | .bytes b :: vs => do
      let rest ← concatBytes vs
      .ok (b ++ rest)
  | v :: _ => fail (.concatBytes v)

/-- The rendering of a scalar inside a text concatenation. -/
def concatPiece : Value → Outcome String
  | .text s => .ok s
  | .number n => .ok (decimal n)
  | .bool b => .ok (boolText b)
  | v => fail (.concatScalar v)

/-- The text of a text concatenation. -/
def concatText : List Value → Outcome String
  | [] => .ok ""
  | v :: vs => do
      let piece ← concatPiece v
      let rest ← concatText vs
      .ok (piece ++ rest)

/-- Is a value raw bytes? -/
def Value.isBytes : Value → Bool
  | .bytes _ => true
  | _ => false

/-- A concatenation: of bytes as soon as one argument is bytes, of texts otherwise.
Source: `interpreter.rs`, the `Concat` arm of `eval_expr` -/
def concatValues (vs : List Value) : Outcome Value :=
  if vs.any (·.isBytes) then (concatBytes vs).map .bytes else (concatText vs).map .text

/-- A text predicate on the bytes of two texts. Source: `interpreter.rs`, the `StartsWith`,
`Contains` and `EndsWith` arms of `eval_expr` -/
def textTest (name : String) (test : List UInt8 → List UInt8 → Bool) (h n : Value) :
    Outcome Value :=
  match h, n with
  | .text hs, .text ns => .ok (.bool (test (utf8Bytes hs) (utf8Bytes ns)))
  | h, n => fail (.operands (name ++ " requires two text arguments") h n)

/-- A total operation on two numbers, reported with both operands.
Source: `interpreter.rs`, the `Min` and `Max` arms of `eval_expr` -/
def numbersOp (name : String) (f : Int64 → Int64 → Int64) (l r : Value) : Outcome Value :=
  match l, r with
  | .number a, .number b => .ok (.number (f a b))
  | l, r => fail (.operands (name ++ " requires two number arguments") l r)

/-- A total operation on two numbers, reported without the operands.
Source: `interpreter.rs`, the `BitAnd` .. `Shr` arms of `eval_expr` -/
def bitsOp (name : String) (f : Int64 → Int64 → Int64) (l r : Value) : Outcome Value :=
  match l, r with
  | .number a, .number b => .ok (.number (f a b))
  | _, _ => fail (.shape (name ++ ": number args required"))

/-- Logical left shift; the count is masked to six bits. Source: `i64::wrapping_shl` -/
def wrappingShl (a n : Int64) : Int64 :=
  Int64.ofBitVec (a.toBitVec <<< (n.toBitVec.toNat % 64))

/-- Logical right shift; the count is masked to six bits. Source: `u64::wrapping_shr` -/
def wrappingShr (a n : Int64) : Int64 :=
  Int64.ofBitVec (a.toBitVec >>> (n.toBitVec.toNat % 64))

/-- Negation of a number. Source: `interpreter.rs`, the `Neg` arm of `eval_expr` -/
def applyNeg : Value → Outcome Value
  | .number n => arith "negate" (checkedNeg n)
  | v => fail (.operand "'-' requires number" v)

/-- Absolute value of a number; it wraps at the least value.
Source: `interpreter.rs`, the `Abs` arm of `eval_expr` -/
def applyAbs : Value → Outcome Value
  | .number n => .ok (.number n.abs)
  | v => fail (.operand "'abs' requires number" v)

/-- Negation of a truth value. Source: `interpreter.rs`, the `Not` arm of `eval_expr` -/
def applyNot : Value → Outcome Value
  | .bool b => .ok (.bool !b)
  | v => fail (.operand "'not' requires bool" v)

/-- The low bytes of a number. Source: `interpreter.rs`, the `Le32` and `Le64` arm of `eval_expr` -/
def applyLe (name : String) (width : Nat) : Value → Outcome Value
  | .number n => .ok (.bytes (toLeBytes n width))
  | v => fail (.operand ("'" ++ name ++ "' requires number") v)

/-- The declared gate of a byte stream. Source: `interpreter.rs`, the `AbortIf` arm of
`eval_expr` -/
def applyAbortIf : Value → Outcome Value
  | .number n => if n = 0 then .ok (.bytes []) else fail (.abortIf n)
  | v => fail (.operand "abort_if requires a number" v)

/-- The JSON escape of a text. Source: `interpreter.rs`, the `JsonEscape` arm of `eval_expr` -/
def applyJsonEscape : Value → Outcome Value
  | .text s => .ok (.text (jsonEscape s))
  | v => fail (.operand "json_escape requires a text value" v)

/-- The number a text denotes. Source: `interpreter.rs`, the `ParseInt` arm of `eval_expr` -/
def applyParseInt : Value → Outcome Value
  | .text s =>
      match parseI64 (trim s) with
      | some n => .ok (.number n)
      | none => fail (.parseInt s)
  | v => fail (.operand "parse_int requires a text value" v)

/-- The byte count of a text. Source: `interpreter.rs`, the `Length` arm of `eval_expr` -/
def applyLength : Value → Outcome Value
  | .text s => (byteLen s.utf8ByteSize).map .number
  | .bytes b => (byteLen b.length).map .number
  | v => fail (.operand "length requires a text or bytes value" v)

/-- The bytes of a text from `start` to `stop`. Source: `interpreter.rs`, the `Substring` arm of
`eval_expr` -/
def applySubstring (t s e : Value) : Outcome Value :=
  match t, s, e with
  | .text text, .number start, .number stop => do
      let len ← byteLen text.utf8ByteSize
      if start < 0 ∨ stop < 0 ∨ len < stop ∨ stop < start then
        fail (.substringBounds start stop len)
      else
        let slice := ((utf8Bytes text).take stop.toInt.toNat).drop start.toInt.toNat
        .ok (.text (utf8Lossy slice))
  | t, s, e => fail (.substringOperands t s e)

/-- The byte of a table at an index, failing outside it. -/
def byteIn (table : List UInt8) (index : Int64) : Outcome Value := do
  let len ← byteLen table.length
  if index < 0 ∨ len ≤ index then fail (.byteAtIndex index len)
  else .ok (.number (Int64.ofNat ((table.getD index.toInt.toNat 0).toNat)))

/-- One byte of a text or of a byte table. Source: `interpreter.rs`, the `ByteAt` arm of
`eval_expr` -/
def applyByteAt (t i : Value) : Outcome Value :=
  match t, i with
  | .text text, .number index => byteIn (utf8Bytes text) index
  | .bytes table, .number index => byteIn table index
  | t, i => fail (.byteAtOperands t i)

/-- One byte of a literal table, as a checked result. Source: `interpreter.rs`, the `TryByteAt`
arm of `eval_expr` -/
def tryByteIn (table : List UInt8) : Value → Outcome Value
  | .number index =>
      if 0 ≤ index then
        match table[index.toInt.toNat]? with
        | some b => .ok (.ok (.number (Int64.ofNat b.toNat)))
        | none => .ok (.err .boundsError)
      else .ok (.err .boundsError)
  | _ => fail (.shape "try_byte_at index must be number")

/-- A fresh draw of an entropy source. Source: `interpreter.rs`, the `Random` arm of
`eval_expr` -/
def drawEntropy (ctx : Context) (name : String) : Outcome Value :=
  match ctx.entropies.find? (·.name = name) with
  | none => fail (.unknownEntropy name)
  | some item =>
      match ctx.world.draw item with
      | .ok buf => .ok (.bytes buf)
      | .error cause => fail (.entropyUnavailable name cause)

/-- The payload of a variant under the binders of an arm. Source: `interpreter.rs`, the
`MatchVariant` arm of `eval_expr` -/
def bindPayload (concept variant : String) (fields : List (String × Value)) :
    List (Option String) → List Field → Env → Outcome Env
  | some name :: binders, f :: decl, env =>
      match fields.lookup f.name with
      | some v => bindPayload concept variant fields binders decl (Dict.insert env name v)
      | none => fail (.missingPayload concept variant f.name)
  | none :: binders, _ :: decl, env => bindPayload concept variant fields binders decl env
  | _, _, env => .ok env

/-- The environment of the selected arm. Source: `interpreter.rs`, the `MatchVariant` arm of
`eval_expr` -/
def bindArm (ctx : Context) (concept variant : String) (fields : List (String × Value))
    (binders : List (Option String)) (env : Env) : Outcome Env :=
  match ctx.concepts.find? (·.name = concept) with
  | none => fail (.conceptNotInScope concept)
  | some decl =>
      match decl.variants.find? (·.name = variant) with
      | none => fail (.variantNotFound concept variant)
      | some v =>
          if binders.length ≠ v.fields.length then
            fail (.binderCount concept variant binders.length v.fields.length)
          else bindPayload concept variant fields binders v.fields env

/-! ## Expressions -/

mutual

/-- The value of an expression; `call` evaluates a called rule.
Source: `interpreter.rs`, `eval_expr` -/
def evalExpr (ctx : Context) (call : Rule → Value → Outcome Value) (env : Env) :
    Expr → Outcome Value
  | .number n => .ok (.number n)
  | .text s => .ok (.text s)
  | .bytes b => .ok (.bytes b)
  | .ident name =>
      match env.lookup name with
      | some v => .ok v
      | none => fail (.undefinedBinding name)
  | .field base field => do
      match ← evalExpr ctx call env base with
      | .record fields =>
          match fields.lookup field with
          | some v => .ok v
          | none => fail (.noField field)
      | other => fail (.notARecord field other)
  | .binary op left right => do
      let l ← evalExpr ctx call env left
      if op = .and ∨ op = .or then
        match l with
        | .bool value =>
            if shortCircuits op value then .ok (.bool value)
            else
              match ← evalExpr ctx call env right with
              | .bool value => .ok (.bool value)
              | other => fail (.logicalOperand op "right" other)
        | other => fail (.logicalOperand op "left" other)
      else
        let r ← evalExpr ctx call env right
        applyBinary op l r
  | .ite cond yes no => do
      match ← evalExpr ctx call env cond with
      | .bool true => evalExpr ctx call env yes
      | .bool false => evalExpr ctx call env no
      | other => fail (.operand "'if' condition must be bool" other)
  | .not inner => do applyNot (← evalExpr ctx call env inner)
  | .neg inner => do applyNeg (← evalExpr ctx call env inner)
  | .abs inner => do applyAbs (← evalExpr ctx call env inner)
  | .le32 inner => do applyLe "le32" 4 (← evalExpr ctx call env inner)
  | .le64 inner => do applyLe "le64" 8 (← evalExpr ctx call env inner)
  | .arenaScope inner => evalExpr ctx call env inner
  | .abortIf inner => do applyAbortIf (← evalExpr ctx call env inner)
  | .quantifier kind collection var predicate => do
      let items ← expectList "expected a collection for all/any"
        (← evalExpr ctx call env collection)
      let result ← quantify (kind = .any)
        (fun item => evalExpr ctx call (Dict.insert env var item) predicate) items
      .ok (.bool result)
  | .fold collection initial acc item body => do
      let items ← expectList "fold requires a collection" (← evalExpr ctx call env collection)
      let init ← evalExpr ctx call env initial
      items.foldlM (fun a x => evalExpr ctx call (Dict.insert (Dict.insert env acc a) item x) body)
        init
  | .foldBytes text initial acc byte idx body => do
      match ← evalExpr ctx call env text with
      | .text s =>
          match ← evalExpr ctx call env initial with
          | .number n =>
              foldByteItems (fun a b i =>
                  evalExpr ctx call
                    (Dict.insert (Dict.insert (Dict.insert env acc a) byte
                      (.number (Int64.ofNat b.toNat))) idx (.number (Int64.ofNat i))) body)
                (.number n) (utf8Bytes s) 0
          | _ => fail (.shape "fold_bytes init must be a number")
      | _ => fail (.shape "fold_bytes requires text as first argument")
  | .map collection var body => do
      let items ← expectList "map requires a collection" (← evalExpr ctx call env collection)
      let out ← items.mapM fun item => evalExpr ctx call (Dict.insert env var item) body
      .ok (.list out)
  | .filter collection var predicate => do
      let items ← expectList "filter requires a collection" (← evalExpr ctx call env collection)
      let out ← filterItems
        (fun item => evalExpr ctx call (Dict.insert env var item) predicate) items
      .ok (.list out)
  | .ok inner => do
      let v ← evalExpr ctx call env inner
      .ok (.ok v)
  | .err inner => do
      let v ← evalExpr ctx call env inner
      .ok (.err v)
  | .record _ fields => do
      let vals ← evalFields ctx call env fields
      .ok (.record vals.reverse)
  | .variantConstruct concept variant fields => do
      let vals ← evalFields ctx call env fields
      .ok (.variant concept variant vals.reverse)
  | .concat args => do concatValues (← evalArgs ctx call env args)
  | .matchResult target okVar okBody errVar errBody => do
      match ← evalExpr ctx call env target with
      | .ok inner => evalExpr ctx call (Dict.insert env okVar inner) okBody
      | .err inner => evalExpr ctx call (Dict.insert env errVar inner) errBody
      | other => fail (.operand "match_result requires a Result value" other)
  | .matchVariant scrutinee arms => do
      match ← evalExpr ctx call env scrutinee with
      | .variant concept variant fields => evalArms ctx call env concept variant fields arms
      | other => fail (.matchScrutinee other)
  | .call name args =>
      match ctx.findRule name with
      | none => fail (.unknownRule name)
      | some r =>
          match args with
          | [arg] => do call r (← evalExpr ctx call env arg)
          | args => fail (.arity args.length)
  | .read _ => .ok (.text "")
  | .fetch _ _ => .ok (.text "")
  | .random name => drawEntropy ctx name
  | .jsonEscape inner => do applyJsonEscape (← evalExpr ctx call env inner)
  | .parseInt inner => do applyParseInt (← evalExpr ctx call env inner)
  | .nowUnix => .ok (.number ctx.world.now)
  | .startsWith haystack needle => do
      textTest "starts_with" (fun h n => n.isPrefixOf h) (← evalExpr ctx call env haystack)
        (← evalExpr ctx call env needle)
  | .contains haystack needle => do
      textTest "contains" (fun h n => decide (n <:+: h)) (← evalExpr ctx call env haystack)
        (← evalExpr ctx call env needle)
  | .endsWith haystack needle => do
      textTest "ends_with" (fun h n => n.isSuffixOf h) (← evalExpr ctx call env haystack)
        (← evalExpr ctx call env needle)
  | .length inner => do applyLength (← evalExpr ctx call env inner)
  | .min left right => do
      numbersOp "min" min (← evalExpr ctx call env left) (← evalExpr ctx call env right)
  | .max left right => do
      numbersOp "max" max (← evalExpr ctx call env left) (← evalExpr ctx call env right)
  | .substring text start stop => do
      applySubstring (← evalExpr ctx call env text) (← evalExpr ctx call env start)
        (← evalExpr ctx call env stop)
  | .tryByteAt table index =>
      match table with
      | .bytes b => do tryByteIn b (← evalExpr ctx call env index)
      | .text t => do tryByteIn (utf8Bytes t) (← evalExpr ctx call env index)
      | _ => fail (.shape "try_byte_at requires a literal table")
  | .byteAt text index => do
      applyByteAt (← evalExpr ctx call env text) (← evalExpr ctx call env index)
  | .bitAnd left right => do
      bitsOp "band" (· &&& ·) (← evalExpr ctx call env left) (← evalExpr ctx call env right)
  | .bitOr left right => do
      bitsOp "bor" (· ||| ·) (← evalExpr ctx call env left) (← evalExpr ctx call env right)
  | .bitXor left right => do
      bitsOp "bxor" (· ^^^ ·) (← evalExpr ctx call env left) (← evalExpr ctx call env right)
  | .bitNot inner => do
      match ← evalExpr ctx call env inner with
      | .number n => .ok (.number (~~~ n))
      | _ => fail (.shape "bnot: number arg required")
  | .shl left right => do
      bitsOp "shl" wrappingShl (← evalExpr ctx call env left) (← evalExpr ctx call env right)
  | .shr left right => do
      bitsOp "shr" wrappingShr (← evalExpr ctx call env left) (← evalExpr ctx call env right)

/-- The values of the arguments of a `concat`, in order. -/
def evalArgs (ctx : Context) (call : Rule → Value → Outcome Value) (env : Env) :
    List Expr → Outcome (List Value)
  | [] => .ok []
  | e :: es => do
      let v ← evalExpr ctx call env e
      let vs ← evalArgs ctx call env es
      .ok (v :: vs)

/-- The values of the assignments of a constructor, in order. -/
def evalFields (ctx : Context) (call : Rule → Value → Outcome Value) (env : Env) :
    List (String × Expr) → Outcome (List (String × Value))
  | [] => .ok []
  | (name, e) :: fs => do
      let v ← evalExpr ctx call env e
      let vs ← evalFields ctx call env fs
      .ok ((name, v) :: vs)

/-- The arm that a variant selects, evaluated. -/
def evalArms (ctx : Context) (call : Rule → Value → Outcome Value) (env : Env)
    (concept variant : String) (fields : List (String × Value)) :
    List MatchArm → Outcome Value
  | [] => fail (.noMatchArm concept variant)
  | .mk name binders body :: arms =>
      if name = variant then do
        let armEnv ← bindArm ctx concept variant fields binders env
        evalExpr ctx call armEnv body
      else evalArms ctx call env concept variant fields arms

end

/-! ## Rules -/

/-- The `let` bindings of a rule, in order. Source: `interpreter.rs`, `eval_rule_with_value` -/
def evalBindings (ctx : Context) (call : Rule → Value → Outcome Value) :
    Env → List (String × Expr) → Outcome Env
  | env, [] => .ok env
  | env, (name, e) :: bindings => do
      let v ← evalExpr ctx call env e
      evalBindings ctx call (Dict.insert env name v) bindings

/-- The body of a rule on an input that has passed the guard. -/
def evalBody (ctx : Context) (call : Rule → Value → Outcome Value) (r : Rule) (input : Value) :
    Outcome Value := do
  let env ← evalBindings ctx call [(r.inputName, input)] r.logic.bindings
  checkOutput r (← evalExpr ctx call env r.logic.value)

/-- A rule applied to an input, with calls nested at most `fuel` deep.
Source: `interpreter.rs`, `eval_rule_with_value` -/
def evalRule (ctx : Context) : Nat → Rule → Value → Outcome Value
  | 0, _, _ => .error .outOfFuel
  | fuel + 1, r, input => do
      checkInput ctx r input
      evalBody ctx (evalRule ctx fuel) r input

end Verbosec.Interpreter
