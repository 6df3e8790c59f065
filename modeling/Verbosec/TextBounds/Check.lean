import Mathlib.Data.List.Dedup
import Verbosec.Participating
import Verbosec.TextBounds.Values

/-!
# The bounded text verifier

* `Check.expr` - the abstract value of an expression, refused where a byte capacity, an input bound
  or an overflow cannot be settled.
* `Check.ruleInner`, `Check.rule` - a rule and, by `walkRule`, the rules it calls.
* `Check.serviceLog`, `stateCall` - the places of a service that may use a bounded result.
* `verify` - every rule under the contract, and the declarations around them.

Source: `text_bounds.rs`, `Check`, `state_call`, `verify_mode`.
-/

namespace Verbosec.TextBounds

open Verbosec.Lib Verbosec.Lib.Fallible NumericBounds

/-- A verification step. -/
abbrev M (α : Type) := Walk Value α

/-- The tables of the verifier; a later declaration of a name hides an earlier one.
Source: `text_bounds.rs`, `Check` -/
structure Check where
  /-- the rules by name -/
  rules : Dict String Rule
  /-- the concepts by name, the built-in ones included -/
  concepts : Dict String Concept
  /-- does the native backend need every capacity? -/
  native : Bool := false

/-- The largest request of an HTTP service. Source: `text_bounds.rs`, `verify_mode` -/
def bodyMax (p : Program) : Option Nat :=
  ((p.services.filter (·.protocol = .http10)).map (·.maxRequest)).max?

/-- The built-in concepts of a program. Source: `text_bounds.rs`, `verify_mode` -/
def builtins (p : Program) : List Concept :=
  match bodyMax p with
  | some max => [Verifier.builtinHttpRequest (.ofNat max), Verifier.builtinHttpResponse]
  | none => []

/-- The verifier of a program. Source: `text_bounds.rs`, `verify_mode` -/
def Check.new (p : Program) (native : Bool) : Check where
  rules := (p.rules.map fun r => (r.name, r)).reverse
  concepts := ((p.concepts ++ builtins p).map fun c => (c.name, c)).reverse
  native := native

namespace Check

/-- The budget of one more expression at a nesting depth. Source: `text_bounds.rs`,
`Check::expr` -/
def tick (depth : Nat) : M Unit := do
  modify fun s => { s with steps := s.steps + 1 }
  if 100000 < (← get).steps ∨ 256 < depth then
    throw "bounded text analysis limit exceeded (100000 nodes / 256 expression levels)"
  else pure ()

/-- The native backend takes a text only with a known capacity. Source: `text_bounds.rs`, the end of
`Check::expr` -/
def admitted (chk : Check) : Value → Bool
  | .text none => !chk.native
  | .text (some n) => !chk.native || n ≤ 1048576
  | _ => true

/-- One visited expression, with the abstract value that `body` finds for it.
Source: `text_bounds.rs`, `Check::expr` -/
def visit (chk : Check) (depth : Nat) (body : M Value) : M Value := do
  tick depth
  let value ← body
  if chk.admitted value then pure value
  else throw ("bounded text native lowering requires every text expression to have a known " ++
    "capacity of at most 1048576 bytes")

/-- A declared field of the input. Source: `text_bounds.rs`, `Check::input_field` -/
def inputField (chk : Check) (concept name : String) : Except String Value :=
  match (chk.concepts.lookup concept).bind fun c => c.fields.find? (·.name = name) with
  | none => .error ("unknown field '" ++ concept ++ "." ++ name ++ "'")
  | some f => declaredField f

/-- A field of an abstract value. Source: `text_bounds.rs`, the `Field` arm of `Check::expr` -/
def fieldValue (chk : Check) (base : Value) (name : String) : Except String Value :=
  match base with
  | .input c => chk.inputField c name
  | .record _ fields =>
      match fields.lookup name with
      | some v => .ok v
      | none => .error "unknown record field"
  | _ => .error "field access requires a record"

/-- The input as a record; its concept is declared. Source: `text_bounds.rs`,
`Check::materialize_input` -/
def materializeInput (chk : Check) : Value → Except String Value
  | .input name =>
      match chk.concepts.lookup name with
      | some c => (declaredFields c).map (.record name)
      | none => .error "unknown input concept"
  | v => .ok v

/-- The abstract value of either of two values whose inputs are records.
Source: `text_bounds.rs`, `Check::join` -/
def joinValues (chk : Check) : Value → Value → Except String Value
  | .record name fa, .record _ fb =>
      let names := (((chk.concepts.lookup name).map (·.fields)).getD []).map (·.name)
      (joinFields name names fa fb).map (.record name)
  | a, b => joinScalar a b

/-- The budget of the joined fields of a record. Source: `text_bounds.rs`, `Check::join` -/
def joinTick : Value → M Unit
  | .record _ fields => do
      modify fun s => { s with steps := s.steps + (fields.map (·.1)).dedup.length }
      if 100000 < (← get).steps then
        throw "bounded text analysis limit exceeded (100000 expression/field visits)"
      else pure ()
  | _ => pure ()

/-- The abstract value of a conditional. Source: `text_bounds.rs`, `Check::join` -/
def join (chk : Check) (a b : Value) : M Value := do
  fromExcept (a.require b.ty)
  let a ← fromExcept (chk.materializeInput a)
  let b ← fromExcept (chk.materializeInput b)
  joinTick a
  fromExcept (chk.joinValues a b)

/-- A field of a constructed record that is passed to a rule: it satisfies the declared bound.
Source: `text_bounds.rs`, `Check::call_input` -/
def callField (name : String) (values : Dict String Value) (f : Field) : Except String Unit := do
  let context := "call '" ++ name ++ "' input field '" ++ f.name ++ "'"
  match values.lookup f.name with
  | none => .error "missing input field"
  | some value => do
      value.require f.ty
      match value with
      | .text actual =>
          match declaredCapacity f, actual with
          | none, _ => .error (context ++ ": declared byte capacity is unknown")
          | _, none => .error (context ++ ": argument byte capacity is unknown")
          | some max, some actual =>
              if max < actual then
                .error (context ++ ": argument needs up to " ++ toString actual ++
                  " bytes, exceeds declared [.." ++ toString max ++ "]")
              else .ok ()
      | .number lo hi =>
          match f.range with
          | none => .ok ()
          | some b =>
              if lo < b.1.toInt ∨ b.2.toInt < hi then
                .error (context ++ ": cannot prove argument range " ++ showInterval lo hi ++
                  " fits " ++ showInterval b.1.toInt b.2.toInt)
              else .ok ()
      | _ => .error (context ++ ": input must be a flat concept of numbers and text")

/-- The input of a called rule: the caller's own guarded input, or a record whose fields satisfy the
declared bounds. Source: `text_bounds.rs`, `Check::call_input` -/
def callInput (chk : Check) (name : String) (value : Value) : Except String Unit :=
  match chk.rules.lookup name with
  | none => .error "unknown callee"
  | some callee => do
      value.require callee.inputTy
      match value with
      | .input _ => .ok ()
      | .record concept values =>
          match chk.concepts.lookup concept with
          | none => .error "unknown input concept"
          | some c => c.fields.forM (callField name values)
      | _ => .error ("call '" ++ name ++ "' requires one flat record input")

/-- Negation of an interval. Source: `text_bounds.rs`, the `Neg` arm of `Check::expr` -/
def negValue (v : Value) : Except String Value := do
  let (lo, hi) ← v.asNumber
  if lo = minI64 then .error "numeric arithmetic: negation/abs may overflow i64 at MIN"
  else .ok (.number (-hi) (-lo))

/-- Absolute values of an interval. Source: `text_bounds.rs`, the `Abs` arm of `Check::expr` -/
def absValue (v : Value) : Except String Value := do
  let (lo, hi) ← v.asNumber
  if lo = minI64 then .error "numeric arithmetic: negation/abs may overflow i64 at MIN"
  else
    .ok (.number (if lo ≤ 0 ∧ 0 ≤ hi then 0 else min lo.natAbs hi.natAbs)
      (max lo.natAbs hi.natAbs))

/-- The abstract value of a binary operator. Source: `text_bounds.rs`, the `Binary` arm of
`Check::expr` -/
def binaryValue (op : BinOp) (a b : Value) : Except String Value :=
  match op with
  | .eq | .notEq => do
      a.require b.ty
      if a.IsScalar then .ok .bool else .error "comparison requires scalar values"
  | .and | .or => do
      a.require .bool
      b.require .bool
      .ok .bool
  | .gt | .lt | .gtEq | .ltEq => do
      a.require .number
      b.require .number
      .ok .bool
  | _ => do
      let a ← a.asNumber
      let b ← b.asNumber
      let (lo, hi) ← (arithmetic op a b).mapError ("numeric arithmetic: " ++ ·)
      .ok (.number lo hi)

/-- The interval of a text's byte count. Source: `text_bounds.rs`, the `Length` arm of
`Check::expr` -/
def lengthValue : Value → Except String Value
  | .text cap =>
      .ok (.number 0 ((cap.bind fun n => if (n : Int) ≤ maxI64 then some (n : Int) else none).getD
        maxI64))
  | v => .error ("expected " ++ Ty.text.debug ++ ", got " ++ v.ty.debug)

/-- The capacity of a concatenation with one more argument. Source: `text_bounds.rs`, the `Concat`
arm of `Check::expr` -/
def addCapacity (total n : Option Nat) : Except String (Option Nat) :=
  match total, n with
  | some a, some b =>
      if a + b < 2 ^ 64 then .ok (some (a + b)) else .error "text capacity arithmetic overflow"
  | _, _ => .ok none

/-- The diagnostic name of an unsupported form. Source: `text_bounds.rs`, `shape` -/
def shape : Expr → String
  | .read _ | .fetch _ _ | .random _ | .nowUnix => "effect"
  | .ok _ | .err _ | .matchResult _ _ _ _ _ | .tryByteAt _ _ => "Result"
  | .jsonEscape _ => "json_escape"
  | .substring _ _ _ => "substring"
  | .fold _ _ _ _ _ | .foldBytes _ _ _ _ _ _ | .map _ _ _ | .filter _ _ _ | .quantifier _ _ _ _ =>
      "collection or fold"
  | _ => "form outside the supported subset"

/-- One more assignment of a record constructor. Source: `text_bounds.rs`, the `Record` arm of
`Check::expr` -/
def recordField (c : Concept) (values : Dict String Value) (n : String) (v : Value) :
    Except String (Dict String Value) :=
  match c.fields.find? (·.name = n) with
  | none => .error "unknown record field"
  | some f => do
      v.require f.ty
      if !v.IsScalar then .error "nested records are unsupported in bounded text analysis"
      else if values.has n then .error "duplicate record field"
      else .ok (values.insert n v)

mutual

/-- The abstract value of an expression; `rule` checks a called rule.
Source: `text_bounds.rs`, `Check::expr` -/
def expr (chk : Check) (rule : String → M Value) (env : Dict String Value) (depth : Nat) :
    Expr → M Value
  | .text s => chk.visit depth (pure (.text (some s.utf8ByteSize)))
  | .number n => chk.visit depth (pure (.number n.toInt n.toInt))
  | .neg a => chk.visit depth do
      let v ← expr chk rule env (depth + 1) a
      fromExcept (negValue v)
  | .abs a => chk.visit depth do
      let v ← expr chk rule env (depth + 1) a
      fromExcept (absValue v)
  | .min a b => chk.visit depth do
      let a ← expr chk rule env (depth + 1) a
      let (lo, hi) ← fromExcept a.asNumber
      let b ← expr chk rule env (depth + 1) b
      let (lo', hi') ← fromExcept b.asNumber
      pure (.number (min lo lo') (min hi hi'))
  | .max a b => chk.visit depth do
      let a ← expr chk rule env (depth + 1) a
      let (lo, hi) ← fromExcept a.asNumber
      let b ← expr chk rule env (depth + 1) b
      let (lo', hi') ← fromExcept b.asNumber
      pure (.number (max lo lo') (max hi hi'))
  | .ident n => chk.visit depth
      (match env.lookup n with
      | some v => pure v
      | none => throw ("unknown binding '" ++ n ++ "'"))
  | .field base name => chk.visit depth do
      let v ← expr chk rule env (depth + 1) base
      fromExcept (chk.fieldValue v name)
  | .concat args => chk.visit depth do
      let total ← exprArgs chk rule env (depth + 1) args (some 0)
      pure (.text total)
  | .ite cond yes no => chk.visit depth do
      let c ← expr chk rule env (depth + 1) cond
      fromExcept (c.require .bool)
      let a ← expr chk rule env (depth + 1) yes
      let b ← expr chk rule env (depth + 1) no
      chk.join a b
  | .call name args => chk.visit depth
      (match args with
      | [arg] => do
          let input ← expr chk rule env (depth + 1) arg
          fromExcept (chk.callInput name input)
          rule name
      | _ => throw ("call '" ++ name ++ "' requires exactly one record input"))
  | .binary op left right => chk.visit depth do
      let a ← expr chk rule env (depth + 1) left
      let b ← expr chk rule env (depth + 1) right
      fromExcept (binaryValue op a b)
  | .not a => chk.visit depth do
      let v ← expr chk rule env (depth + 1) a
      fromExcept (v.require .bool)
      pure .bool
  | .length a => chk.visit depth do
      let v ← expr chk rule env (depth + 1) a
      fromExcept (lengthValue v)
  | .record name fields => chk.visit depth
      (match chk.concepts.lookup name with
      | none => throw "unknown output concept"
      | some c => do
          if c.variants ≠ [] ∨ fields.length ≠ c.fields.length then
            throw "record fields must match the declared concept"
          else
            let values ← exprFields chk rule env (depth + 1) c fields []
            pure (.record name values))
  | e => chk.visit depth
      (throw ("unsupported expression in bounded text analysis: " ++ shape e))

/-- The capacity of a concatenation, `total` being that of the arguments so far.
Source: `text_bounds.rs`, the `Concat` arm of `Check::expr` -/
def exprArgs (chk : Check) (rule : String → M Value) (env : Dict String Value) (depth : Nat) :
    List Expr → Option Nat → M (Option Nat)
  | [], total => pure total
  | e :: es, total => do
      let v ← expr chk rule env depth e
      let n ← fromExcept v.asCapacity
      let total ← fromExcept (addCapacity total n)
      exprArgs chk rule env depth es total

/-- The fields of a record constructor, `values` being those so far.
Source: `text_bounds.rs`, the `Record` arm of `Check::expr` -/
def exprFields (chk : Check) (rule : String → M Value) (env : Dict String Value) (depth : Nat)
    (c : Concept) : List (String × Expr) → Dict String Value → M (Dict String Value)
  | [], values => pure values
  | (n, e) :: fs, values =>
      if (c.fields.find? (·.name = n)).isNone then throw "unknown record field"
      else do
        let v ← expr chk rule env depth e
        let values ← fromExcept (recordField c values n v)
        exprFields chk rule env depth c fs values

end

/-- The abstract values of the `let`s of a rule, in order, added to `env`.
Source: `text_bounds.rs`, `Check::rule_inner` -/
def bindings (chk : Check) (rule : String → M Value) :
    Dict String Value → List (String × Expr) → M (Dict String Value)
  | env, [] => pure env
  | env, (n, e) :: rest => do
      let v ← expr chk rule env 0 e
      bindings chk rule (env.insert n v) rest

/-- The input concept of a rule, if the analysis supports it. Source: `text_bounds.rs`,
`Check::rule_inner` -/
def inputConcept (chk : Check) (r : Rule) : Except String (String × Concept) :=
  if r.contextTy.isSome || r.contextName.isSome then
    .error "context inputs are unsupported in bounded text analysis"
  else if r.hints.isSome then
    .error "optimization hints are unsupported in bounded text analysis"
  else
    match r.inputTy with
    | .named input =>
        match chk.concepts.lookup input with
        | none => .error "unknown input concept"
        | some c =>
            if c.variants ≠ [] ∨ c.fields.any fun f => !(f.ty = .number || f.ty = .text) then
              .error "input must be a flat named concept of numbers and text"
            else if chk.native && c.fields.any fun f =>
                f.ty = .text && f.range.any fun b => !(0 ≤ b.2 && b.2 ≤ 1048576) then
              .error ("bounded text native input field capacity must be at most 1048576 bytes")
            else .ok (input, c)
    | _ => .error "input must be a flat named concept of numbers and text"

/-- The abstract result of a rule, given that of its body: the declared byte bound where one is
declared. Source: `text_bounds.rs`, `Check::rule_inner` -/
def contractValue (r : Rule) (v : Value) : Except String Value := do
  v.require r.outputTy
  match r.outputTextMax with
  | none => .ok v
  | some max =>
      if 1048576 < max ∨ r.outputTy ≠ .text then
        .error "output bound requires text [..N], 0 <= N <= 1048576"
      else
        match v with
        | .text (some actual) =>
            if actual ≤ max then .ok (.text (some max))
            else
              .error ("text output needs up to " ++ toString actual ++ " bytes, exceeds declared " ++
                "[.." ++ toString max ++ "]")
        | _ =>
            .error ("cannot prove text output [.." ++ toString max ++
              "]: byte capacity is unknown")

/-- A rule, its callees checked by `rule`. Source: `text_bounds.rs`, `Check::rule_inner` -/
def ruleInner (chk : Check) (rule : String → M Value) (name : String) : M Value :=
  match chk.rules.lookup name with
  | none => throw ("unknown rule '" ++ name ++ "'")
  | some r => do
      let (input, _) ← fromExcept (chk.inputConcept r)
      let env ← bindings chk rule [(r.inputName, .input input)] r.logic.bindings
      let v ← expr chk rule env 0 r.logic.value
      fromExcept (contractValue r v)

/-- A rule and the rules it calls. Source: `text_bounds.rs`, `Check::rule` -/
def rule (chk : Check) : Nat → List String → String → M Value := walkRule chk.ruleInner

/-! ### Services -/

/-- The budget of one more part of a service log. Source: `text_bounds.rs`, `Check::log_shape` -/
def logTick : M Unit := do
  modify fun s => { s with steps := s.steps + 1 }
  if 100000 < (← get).steps then throw "bounded text log analysis limit exceeded" else pure ()

/-- A part of a service log that is no `concat`. Source: `text_bounds.rs`, `Check::log_shape` -/
def logAtom (e : Expr) : M Unit := do
  logTick
  let refused : M Unit := throw ("bounded text service logs support text/number literals, " ++
    "req/resp fields and a flat concat only")
  match e with
  | .text _ | .number _ => pure ()
  | .field (.ident n) _ => if n = "req" ∨ n = "resp" then pure () else refused
  | _ => refused

/-- The shape of a service log: at most one `concat`. Source: `text_bounds.rs`,
`Check::log_shape` -/
def logShape : Expr → M Unit
  | .concat args => do
      logTick
      args.forM logAtom
  | e => logAtom e

/-- A log of a service whose handler is under the contract. Source: `text_bounds.rs`,
`Check::service_log` -/
def serviceLog (chk : Check) (s : Service) (content : Expr) : M Unit := do
  match content with
  | .text _ | .concat _ => pure ()
  | _ => throw "bounded text service log content must be a text literal or concat(...)"
  logShape content
  match chk.rules.lookup s.handler with
  | none => throw "missing service handler"
  | some _ => do
      let response ← chk.rule 128 [] s.handler
      let fields ← fromExcept (declaredFields (Verifier.builtinHttpRequest (.ofNat s.maxRequest)))
      let fields := fields.insert "timestamp" (.number minI64 maxI64)
      let env := [("resp", response), ("req", .record "HttpRequest" fields)]
      let value ← chk.expr (chk.rule 128 []) env 0 content
      fromExcept (value.require .text)
      match ← fromExcept value.asCapacity with
      | none => throw "bounded text service log capacity is unknown"
      | some capacity =>
          if 1048576 < capacity then
            throw ("bounded text service log needs up to " ++ toString capacity ++
              " bytes, exceeds 1048576-byte content limit")
          else pure ()

end Check

/-- A bounded result copied into the state of a service; `none` when the assignment is no such
copy. Source: `text_bounds.rs`, `state_call` -/
def stateCall (s : Service) (handler : Rule) (set : StateSet) (rules : Dict String Rule) :
    Except String (Option Rule) :=
  match set.value with
  | .call name args =>
      match rules.lookup name with
      | none => .ok none
      | some callee =>
          match callee.outputTextMax with
          | none => .ok none
          | some cap =>
              if s.protocol ≠ .http10 ∨ s.concurrency ≠ .sequential then
                .error "bounded text state transfer requires a sequential HTTP service"
              else if args.length ≠ 1 ∨
                  args.any (fun arg => match arg with
                    | .ident n => n ≠ handler.inputName
                    | _ => true) ∨
                  handler.inputTy ≠ .named "HttpRequest" ∨ callee.inputTy ≠ handler.inputTy then
                .error ("bounded text state transfer requires callee(input) with the original " ++
                  "HTTP input binding")
              else
                match s.stateFields.find? (·.name = set.fieldName) with
                | none => .error "bounded text state transfer requires a declared state field"
                | some f =>
                    if f.ty ≠ .text ∨ callee.outputTy ≠ .text then
                      .error ("bounded text state transfer requires a text result and a text " ++
                        "state field")
                    else
                      match f.maxBytes.filter fun n => 1 ≤ n && n ≤ 65536 with
                      | none =>
                          .error ("bounded text state transfer requires a state capacity in " ++
                            "1..=65536")
                      | some max =>
                          if max.toInt < cap then
                            .error ("bounded text result [.." ++ toString cap ++
                              "] exceeds state field '" ++ f.name ++ "' capacity [.." ++
                              toString max.toInt ++ "]")
                          else .ok (some callee)
  | _ => .ok none

namespace Check

/-- The errors of the logs of a service, numbered from `index`. Source: `text_bounds.rs`,
`verify_mode` -/
def logErrors (chk : Check) (s : Service) : Nat → List LogBlock → WalkState Value →
    List VerifyError × WalkState Value
  | _, [], state => ([], state)
  | index, log :: logs, state =>
      let run : M Unit :=
        match log.effect with
        | .appendFile _ content => chk.serviceLog s content
        | _ => throw "bounded text service logs require append_file"
      match run.exec state with
      | (.ok _, state) => logErrors chk s (index + 1) logs state
      | (.error message, state) =>
          let (errors, after) := logErrors chk s (index + 1) logs state
          (⟨"service '" ++ s.name ++ "' / bounded text log[" ++ toString index ++ "]", message⟩ ::
            errors, after)

/-- The error of an assignment of a service, if it has one. Source: `text_bounds.rs`,
`verify_mode` -/
def setError (chk : Check) (active : List String) (s : Service) (set : StateSet) :
    Option VerifyError :=
  if set.value.calls.any (· ∈ active) then
    let context := "service '" ++ s.name ++ "' / after / set " ++ set.fieldName
    match chk.rules.lookup s.handler with
    | none => some ⟨context, "missing service handler"⟩
    | some handler =>
        match stateCall s handler set chk.rules with
        | .error message => some ⟨context, message⟩
        | .ok none =>
            some ⟨context, "bounded text after mutation requires a complete call to a rule with an " ++
              "explicit text [..N] result"⟩
        | .ok (some _) => none
  else none

/-- The rules that the effects of a declaration call. Source: `text_bounds.rs`, `verify_mode` -/
def effectCalls (active : List String) : Item → List String
  | .reaction rx =>
      rx.effects.flatMap (·.calls) ++ (if rx.trigger ∈ active then [rx.trigger] else [])
  | .service s => s.logs.flatMap (·.effect.calls)
  | _ => []

/-- The errors of a declaration around the rules. Source: `text_bounds.rs`, `verify_mode` -/
def itemErrors (chk : Check) (active : List String) (i : Item) (state : WalkState Value) :
    List VerifyError × WalkState Value :=
  let (own, state) :=
    match i with
    | .service s =>
        let (logs, state) :=
          if s.handler ∈ active then chk.logErrors s 0 s.logs state else ([], state)
        (logs ++ s.afterSets.filterMap (chk.setError active s), state)
    | _ => ([], state)
  let effects :=
    if (effectCalls active i).any (· ∈ active) then
      [⟨"bounded text output / effect",
        "participating rules cannot be called from reactions or logs in this slice"⟩]
    else []
  let handler :=
    match i with
    | .service s =>
        if s.handler ∈ active ∧
            (s.protocol ≠ .http10 ∨ !s.afterSets.isEmpty ∨ !s.stateFields.isEmpty) then
          [⟨"service '" ++ s.name ++ "' / bounded text output",
            "this slice supports an HTTP handler without state or after mutations"⟩]
        else []
    | _ => []
  (own ++ effects ++ handler, state)

/-- The errors of the declarations, in order. Source: `text_bounds.rs`, `verify_mode` -/
def itemsErrors (chk : Check) (active : List String) :
    List Item → WalkState Value → List VerifyError
  | [], _ => []
  | i :: items, state =>
      let (errors, state) := chk.itemErrors active i state
      errors ++ itemsErrors chk active items state

end Check

/-- The errors of the bounded text verifier. Source: `text_bounds.rs`, `verify_mode` -/
def verifyMode (p : Program) (native : Bool) : List VerifyError :=
  let active := activeRules p
  if active = [] then []
  else
    let chk := Check.new p native
    let (errors, state) := walkErrors "bounded text output" (chk.rule 128 []) active {}
    errors ++ chk.itemsErrors active p.items state

/-- The errors of the bounded text verifier for the interpreter. Source: `text_bounds.rs`,
`verify` -/
def verify (p : Program) : List VerifyError := verifyMode p false

end Verbosec.TextBounds
