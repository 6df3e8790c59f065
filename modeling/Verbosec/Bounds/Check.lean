import Verbosec.Lib.Dict
import Verbosec.Lib.Fallible
import Verbosec.Participating
import Verbosec.Verifier.Names

/-!
# The bounded results of byte lookups

* `resultType` - the result of a lookup that may be out of bounds.
* `activeRules` - the rules that take part in the contract.
* `Check.expr` - the paths of an expression; each path carries the results that are still to be
  handled.
* `Check.lets`, `checkRule`, `verify` - a rule whose every path handles or returns its results.

Source: `bounds.rs`.
-/

namespace Verbosec.Bounds

open Verbosec.Lib Verbosec.Lib.Fallible

/-! ## The rules that take part -/

/-- Source: `bounds.rs`, `result_type` -/
def resultType : Ty := .result .number .boundsError

/-- Source: `bounds.rs`, `has_type` -/
def hasType : Ty → Bool
  | .boundsError => true
  | .result a b => hasType a || hasType b
  | .named n | .collection n => n = "BoundsError"
  | _ => false

/-- Does a subexpression satisfy the predicate? Source: `bounds.rs`, `any` -/
def anyExpr (predicate : Expr → Bool) (e : Expr) : Bool := (e.collect fun s => [s]).any predicate

/-- Source: `bounds.rs`, `rule_any` -/
def ruleAny (r : Rule) (predicate : Expr → Bool) : Bool :=
  anyExpr predicate r.logic.value || r.logic.bindings.any fun b => anyExpr predicate b.2

/-- Is the expression a lookup that may be out of bounds? -/
def triesByteAt : Expr → Bool
  | .tryByteAt _ _ => true
  | _ => false

/-- Source: `bounds.rs`, the first members of `active_rules` -/
def declares (r : Rule) : Bool := hasType r.outputTy || ruleAny r triesByteAt

/-- The rules that take part, their callers, and all that these call.
Source: `bounds.rs`, `active_rules` -/
def activeRules (p : Program) : List String := participatingFrom declares p.rules

/-! ## Paths -/

/-- What is known of a value: its type, and the obligation that it carries. Source: `bounds.rs`,
`Val` -/
structure Val where
  ty : Ty
  obligation : Option Nat

/-- What is known on a path: the names, and the obligations that are not met. Source: `bounds.rs`,
`State` -/
structure State where
  env : Dict String Val := []
  pending : List Nat := []

/-- The ways through an expression. Source: `bounds.rs`, `Paths` -/
abbrev Paths := List (State × Val)

/-- The last obligation and the visited expressions. Source: `bounds.rs`, `Check` -/
structure Counters where
  next : Nat := 0
  steps : Nat := 0

/-- A step of the analysis. -/
abbrev M (α : Type) := Fallible String Counters α

/-- The results of `f` on each element, one after the other. -/
def eachPath {α β : Type} : List α → (α → M (List β)) → M (List β)
  | [], _ => pure []
  | x :: xs, f => do
      let ys ← f x
      let rest ← eachPath xs f
      pure (ys ++ rest)

/-- An obligation is met. -/
def State.discharge (s : State) (id : Nat) : State :=
  { s with pending := s.pending.filter (· ≠ id) }

/-- A name gets its former meaning again. -/
def restore (env : Dict String Val) (name : String) : Option Val → Dict String Val
  | some old => env.insert name old
  | none => env.erase name

/-- A value of a type; a result carries a new obligation. Source: `bounds.rs`, `Check::value` -/
def value (s : State) (ty : Ty) : M Paths :=
  if ty = resultType then do
    modify fun c => { c with next := c.next + 1 }
    let c ← get
    pure [({ s with pending := c.next :: s.pending }, ⟨ty, some c.next⟩)]
  else pure [(s, ⟨ty, none⟩)]

/-- The states of paths that all end with the type. Source: `bounds.rs`, `Check::typed` -/
def typed (ty : Ty) (paths : Paths) : M (List State) :=
  match paths.find? (·.2.ty ≠ ty) with
  | some path =>
      throw ("expected " ++ ty.debug ++ ", found " ++ path.2.ty.debug ++
        "; BoundsError is not a scalar")
  | none => pure (paths.map (·.1))

/-- The paths all end with one type. Source: `bounds.rs`, the arms `If` and `MatchResult` of
`Check::expr` -/
def sameTypes (message : String) (paths : Paths) : M Paths :=
  if paths.any fun path => some path.2.ty ≠ paths.head?.map (·.2.ty) then throw message
  else pure paths

/-- One more visited expression. Source: `bounds.rs`, `Check::expr` -/
def tick : M Unit := do
  modify fun c => { c with steps := c.steps + 1 }
  if 100000 < (← get).steps then
    throw "obligation analysis exceeded 100000 steps; simplify branching"
  else pure ()

/-- The types of the operands and of the result of an operator. Source: `bounds.rs`, the arm
`Binary` of `Check::expr` -/
def operatorTypes : BinOp → Ty × Ty
  | .and | .or => (.bool, .bool)
  | .eq | .notEq | .lt | .gt | .ltEq | .gtEq => (.number, .bool)
  | _ => (.number, .number)

/-- A body in which a name stands for the payload of a result. Source: `bounds.rs`, the arm
`MatchResult` of `Check::expr` -/
def inBranch (name : String) (ty : Ty) (s : State) (body : State → M Paths) : M Paths := do
  let paths ← body { s with env := s.env.insert name ⟨ty, none⟩ }
  pure (paths.map fun path =>
    ({ path.1 with env := restore path.1.env name (s.env.lookup name) }, path.2))

/-- Is the expression a literal table? -/
def isTable : Expr → Bool
  | .text _ | .bytes _ => true
  | _ => false

/-- Source: `verifier.rs`, `describe_expr_kind` -/
def describeExprKind : Expr → String
  | .number _ => "number"
  | .text _ => "text"
  | .bytes _ => "bytes"
  | .ident _ => "identifier"
  | .field _ _ => "field access"
  | .binary _ _ _ => "binary op"
  | .neg _ => "negation"
  | .not _ => "boolean not"
  | .ite _ _ _ => "if/else"
  | .quantifier _ _ _ _ => "quantifier"
  | .map _ _ _ => "map"
  | .filter _ _ _ => "filter"
  | .fold _ _ _ _ _ => "fold"
  | .call _ _ => "rule call"
  | .ok _ => "Ok(...)"
  | .err _ => "Err(...)"
  | .matchResult _ _ _ _ _ => "match_result"
  | .record _ _ => "record construction"
  | .concat _ => "concat"
  | .read _ => "read"
  | .random _ => "random"
  | .fetch _ _ => "fetch"
  | .jsonEscape _ => "json_escape"
  | .parseInt _ => "parse_int"
  | .nowUnix => "now_unix"
  | .startsWith _ _ => "starts_with"
  | .contains _ _ => "contains"
  | .endsWith _ _ => "ends_with"
  | .length _ => "length"
  | .abs _ => "abs"
  | .bitAnd _ _ => "band"
  | .bitOr _ _ => "bor"
  | .bitXor _ _ => "bxor"
  | .bitNot _ => "bnot"
  | .shl _ _ => "shl"
  | .shr _ _ => "shr"
  | .le32 _ => "le32"
  | .le64 _ => "le64"
  | .min _ _ => "min"
  | .max _ _ => "max"
  | .arenaScope _ => "arena_scope"
  | .abortIf _ => "abort_if"
  | .substring _ _ _ => "substring"
  | .byteAt _ _ => "byte_at"
  | .tryByteAt _ _ => "try_byte_at"
  | .foldBytes _ _ _ _ _ _ => "fold_bytes"
  | .variantConstruct _ _ _ => "variant construction"
  | .matchVariant _ _ => "pattern match"

/-- The program and the rule that is checked. Source: `bounds.rs`, `Check` -/
structure Check where
  program : Program
  rule : Rule

namespace Check

/-- Is the expression the input of the rule? -/
def isInput (chk : Check) (s : State) : Expr → Bool
  | .ident n => n = chk.rule.inputName && !s.env.has n
  | _ => false

/-- The declared concept of the input. Groups are not looked at. Source: `bounds.rs`, `Check::expr`
and `verify` -/
def inputConcept (p : Program) (r : Rule) : Option Concept :=
  (Verifier.topConcepts p).find? (r.inputTy = .named ·.name)

/-- The type of a field of the input. Source: `bounds.rs`, the arm `Field` of `Check::expr` -/
def fieldTy (chk : Check) (s : State) (base : Expr) (name : String) : Except String Ty :=
  if !chk.isInput s base then
    .error "only numeric input fields are supported by the bounded-result contract"
  else
    match inputConcept chk.program chk.rule with
    | none => .error "unknown input concept"
    | some c =>
        match c.fields.find? (·.name = name) with
        | none => .error "unknown input field"
        | some f => .ok f.ty

/-- The type of the value of a call. Source: `bounds.rs`, the arm `Call` of `Check::expr` -/
def callTy (chk : Check) (s : State) (name : String) (args : List Expr) : Except String Ty :=
  match chk.program.rules.find? (·.name = name) with
  | none => .error "unknown callee"
  | some callee =>
      if args.length ≠ 1 ∨ !(args.all (chk.isInput s)) ∨ callee.inputTy ≠ chk.rule.inputTy then
        .error "bounded-result calls require callee(input) with the same numeric input concept"
      else .ok callee.outputTy

/-- The paths of an expression from a state. Source: `bounds.rs`, `Check::expr` -/
def expr (chk : Check) : Expr → State → M Paths
  | .number _, s => do tick; value s .number
  | .text _, s => do tick; value s .text
  | .bytes _, s => do tick; value s .bytes
  | .ident n, s => do
      tick
      match s.env.lookup n with
      | some v => pure [(s, v)]
      | none =>
          if n = "true" ∨ n = "false" then value s .bool
          else throw ("unknown binding '" ++ n ++ "' in bounded-result analysis")
  | .field base name, s => do
      tick
      let ty ← fromExcept (chk.fieldTy s base name)
      value s ty
  | .tryByteAt table index, s => do
      tick
      if !isTable table then throw "try_byte_at requires a literal bytes or text table"
      else
        let states ← typed .number (← expr chk index s)
        eachPath states fun s => value s resultType
  | .ok v, s => do
      tick
      let states ← typed .number (← expr chk v s)
      eachPath states fun s => value s resultType
  | .err v, s => do
      tick
      let states ← typed .boundsError (← expr chk v s)
      eachPath states fun s => value s resultType
  | .ite c a b, s => do
      tick
      let states ← typed .bool (← expr chk c s)
      let paths ← eachPath states fun s => do
        let yes ← expr chk a s
        let no ← expr chk b s
        pure (yes ++ no)
      sameTypes "conditional branches have different types" paths
  | .matchResult t ok a err b, s => do
      tick
      let targets ← expr chk t s
      let paths ← eachPath targets fun target => do
        if target.2.ty ≠ resultType then
          throw "match_result scrutinee must be Result(number, BoundsError) in this contract"
        else
          match target.2.obligation with
          | none => throw "unknown result obligation"
          | some id =>
              let s := target.1.discharge id
              let okPaths ← inBranch ok .number s fun s => expr chk a s
              let errPaths ← inBranch err .boundsError s fun s => expr chk b s
              pure (okPaths ++ errPaths)
      sameTypes "match_result branches have different types" paths
  | .call n args, s => do
      tick
      let ty ← fromExcept (chk.callTy s n args)
      value s ty
  | .binary op a b, s => do
      tick
      let states ← typed (operatorTypes op).1 (← expr chk a s)
      eachPath states fun s => do
        -- The path that never evaluates the right operand has to meet its obligations too.
        let short ← if op = .and ∨ op = .or then value s (operatorTypes op).2 else pure []
        let states ← typed (operatorTypes op).1 (← expr chk b s)
        let long ← eachPath states fun s => value s (operatorTypes op).2
        pure (short ++ long)
  | .neg a, s | .abs a, s | .bitNot a, s => do
      tick
      let states ← typed .number (← expr chk a s)
      eachPath states fun s => value s .number
  | .not a, s => do
      tick
      let states ← typed .bool (← expr chk a s)
      eachPath states fun s => value s .bool
  | .min a b, s | .max a b, s | .bitAnd a b, s | .bitOr a b, s | .bitXor a b, s | .shl a b, s
  | .shr a b, s => do
      tick
      let states ← typed .number (← expr chk a s)
      eachPath states fun s => do
        let states ← typed .number (← expr chk b s)
        eachPath states fun s => value s .number
  | .byteAt table index, s => do
      tick
      if !isTable table then
        throw "bounded-result index computations support byte_at on literal tables only"
      else
        let states ← typed .number (← expr chk index s)
        eachPath states fun s => value s .number
  | e, _ => do
      tick
      throw ("unsupported expression in bounded-result obligation analysis: " ++
        describeExprKind e)

/-- The states after the `let`s. Source: `bounds.rs`, `verify` -/
def lets (chk : Check) : List (String × Expr) → List State → M (List State)
  | [], states => pure states
  | (name, e) :: bindings, states => do
      let next ← eachPath states fun s => do
        let paths ← chk.expr e s
        pure (paths.map fun path => { path.1 with env := path.1.env.insert name path.2 })
      lets chk bindings next

/-- The end of a path: the value has the declared type, and every obligation is met or returned.
Source: `bounds.rs`, `verify` -/
def finish (chk : Check) (path : State × Val) : M Unit :=
  if path.2.ty ≠ chk.rule.outputTy then
    throw ("declared output " ++ chk.rule.outputTy.debug ++ ", found " ++ path.2.ty.debug)
  else
    let s := match path.2.obligation with
      | some id => path.1.discharge id
      | none => path.1
    if s.pending ≠ [] then
      throw ("unhandled bounded result on a reachable path: return it or consume it with " ++
        "match_result (aliases preserve the obligation)")
    else pure ()

/-- The ends of all paths from the states. Source: `bounds.rs`, `verify` -/
def ends (chk : Check) (states : List State) : M Unit :=
  match states with
  | [] => pure ()
  | s :: states => do
      let paths ← chk.expr chk.rule.logic.value s
      paths.forM chk.finish
      ends chk states

/-- The body of a rule. Source: `bounds.rs`, `verify` -/
def body (chk : Check) : M Unit := do
  let states ← chk.lets chk.rule.logic.bindings [{}]
  chk.ends states

end Check

/-! ## Programs -/

/-- Does a rule reach a rule of the stack? A stack without repetition is no longer than the list of
rules, which bounds the recursion. Source: `bounds.rs`, `cycle` in `verify` -/
def cycle (p : Program) : Nat → List String → Rule → Bool
  | 0, _, _ => true
  | fuel + 1, stack, r =>
      r.name ∈ stack || r.deps.any fun n =>
        (p.rules.filter (·.name = n)).any fun c => cycle p fuel (r.name :: stack) c

/-- The check of a rule that takes part. Source: `bounds.rs`, `verify` -/
def checkRule (p : Program) (r : Rule) : Except String Unit :=
  if r.contextTy.isSome then .error "bounded results do not support context inputs"
  else
    match Check.inputConcept p r with
    | none => .error "bounded results require a numeric input concept"
    | some c =>
        if c.variants ≠ [] ∨ c.fields.any (·.ty ≠ .number) then
          .error "bounded results require a numeric input concept"
        else if r.outputTy ≠ resultType ∧ r.outputTy ≠ .number ∧ r.outputTy ≠ .bool then
          .error ("bounded results cannot be nested or stored in aggregates; supported outputs: " ++
            "number, bool, Result(number, BoundsError)")
        else if cycle p (p.rules.length + 1) [] r then
          .error "recursion is unsupported by the bounded-result contract"
        else ((Check.mk p r).body.exec {}).1

section verify

variable (p : Program)

/-- Does an expression take part? Source: `bounds.rs`, `uses_contract` in `verify` -/
def usesContract (e : Expr) : Bool :=
  anyExpr triesByteAt e || e.calls.any (· ∈ activeRules p)

/-- Source: `bounds.rs`, `effect_uses_contract` in `verify` -/
def effectUsesContract : Effect → Bool
  | .print args => args.any (usesContract p)
  | .appendFile _ content => usesContract p content

/-- The errors of a concept. Source: `bounds.rs`, `verify` -/
def conceptErrors (c : Concept) : List VerifyError :=
  if c.name = "BoundsError" ∨
      (c.fields ++ c.variants.flatMap (·.fields)).any (fun f => hasType f.ty) then
    [⟨c.name, "BoundsError is reserved exclusively for rule Result(number, BoundsError) " ++
      "outputs; aggregate storage is unsupported"⟩]
  else []

/-- The errors of a declaration. Source: `bounds.rs`, `verify` -/
def itemErrors : Item → List VerifyError
  | .concept c => conceptErrors c
  | .conceptGroup g => g.concepts.flatMap conceptErrors
  | .service s =>
      if s.handler ∈ activeRules p ∨ s.logs.any (fun log => effectUsesContract p log.effect) ∨
          s.afterSets.any (fun set => usesContract p set.value) ∨
          s.stateFields.any (fun field => hasType field.ty) then
        [⟨s.name, "bounded results are unsupported in service contexts"⟩]
      else []
  | .reaction r =>
      if r.trigger ∈ activeRules p ∨ r.effects.any (effectUsesContract p) then
        [⟨r.name, "bounded results are unsupported with reaction effects"⟩]
      else []
  | .rule r =>
      (if hasType r.inputTy ∨ (r.contextTy.any hasType) ∨
          (hasType r.outputTy ∧ r.outputTy ≠ resultType) then
        [⟨r.name, "BoundsError is reserved exclusively for Result(number, BoundsError) outputs"⟩]
      else []) ++
      (if r.name ∈ activeRules p then
        match checkRule p r with
        | .ok _ => []
        | .error message => [⟨"rule '" ++ r.name ++ "' / bounded result", message⟩]
      else [])
  | _ => []

/-- Source: `bounds.rs`, `verify` -/
def verify : List VerifyError := p.items.flatMap (itemErrors p)

end verify

end Verbosec.Bounds
