import Verbosec.Verifier.TextState

/-!
# The types of constructed values

* `Fact` - what the pass knows of the type of an expression: a type, a `Result` of two facts, an arm
  that is never constructed, or nothing.
* `Checker`, `walk` - the fact of an expression, with the errors of the constructors in it and
  their number.
* `checkRule` - the errors of a rule, with the state of a service in scope or without.

Source: `constructor_types.rs`.
-/

namespace Verbosec.ConstructorTypes

open Verbosec.Lib

/-! ## Facts -/

/-- The rendering of a type in diagnostics. Source: `verifier.rs`, `type_display` -/
def typeDisplay : Ty → String
  | .number => "number"
  | .bool => "bool"
  | .text => "text"
  | .bytes => "bytes"
  | .boundsError => "BoundsError"
  | .collection inner => "collection(" ++ inner ++ ")"
  | .named n => n
  | .result t e => "Result(" ++ typeDisplay t ++ ", " ++ typeDisplay e ++ ")"

/-- The type of the items of a collection. Source: `constructor_types.rs`, `Fact::element` -/
def itemTy : String → Ty
  | "number" => .number
  | "bool" => .bool
  | "text" => .text
  | "bytes" => .bytes
  | name => .named name

/-- What is known of the type of an expression. Source: `constructor_types.rs`, `Fact` -/
inductive Fact where
  | known (t : Ty)
  | result (ok err : Fact)
  /-- an arm of a `Result` that is not constructed -/
  | absent
  | unknown
  deriving DecidableEq, Repr

namespace Fact

/-- Source: `constructor_types.rs`, `Fact::from_type` -/
def fromType : Ty → Fact
  | .result ok err => .result (fromType ok) (fromType err)
  | t => .known t

/-- Source: `constructor_types.rs`, `Fact::fits` -/
def fits : Fact → Ty → Bool
  | known actual, t => actual = t
  | result ok err, .result t e => (ok = absent || ok.fits t) && (err = absent || err.fits e)
  | _, _ => false

/-- Source: `constructor_types.rs`, `Fact::join` -/
def join : Fact → Fact → Fact
  | absent, t => t
  | t, absent => t
  | result a b, result c d => result (a.join c) (b.join d)
  | a, b => if a = b then a else unknown

/-- Source: `constructor_types.rs`, `Fact::bound` -/
def bound : Fact → Fact
  | absent => unknown
  | f => f

/-- Source: `constructor_types.rs`, `Fact::element` -/
def element : Fact → Fact
  | known (.collection name) => known (itemTy name)
  | _ => unknown

/-- Source: `constructor_types.rs`, `Fact::collection` -/
def collection : Fact → Fact
  | known .number => known (.collection (typeDisplay .number))
  | known .bool => known (.collection (typeDisplay .bool))
  | known .text => known (.collection (typeDisplay .text))
  | known .bytes => known (.collection (typeDisplay .bytes))
  | known (.named n) => known (.collection (typeDisplay (.named n)))
  | _ => unknown

/-- Source: `constructor_types.rs`, `Checker::produced` -/
def produced (valid : Bool) (t : Ty) : Fact := if valid then fromType t else unknown

/-- The fact of a branch, of which the condition must be a truth value.
Source: `constructor_types.rs`, the `If` arm of `walk` -/
def branch (cond yes no : Fact) : Fact := if cond.fits .bool then yes.join no else unknown

/-- The facts of the two payloads of a `Result`. Source: `constructor_types.rs`, the `MatchResult`
arm of `walk` -/
def payloads : Fact → Option (Fact × Fact)
  | result a b => some (a.bound, b.bound)
  | _ => none

/-- The fact of a fold, of which the body must keep the fact of the accumulator.
Source: `constructor_types.rs`, the `Fold` arm of `walk` -/
def folded (item init body : Fact) : Fact :=
  if item = unknown ∨ body ≠ init then unknown else init.join body

/-- The fact of a concatenation. Source: `constructor_types.rs`, the `Concat` arm of `walk` -/
def concat (args : List Fact) : Fact :=
  let bytes := args.any (·.fits .bytes)
  produced (args.all fun a =>
      if bytes then a.fits .bytes else a.fits .number || a.fits .bool || a.fits .text)
    (if bytes then .bytes else .text)

/-- The fact of a binary operation. Source: `constructor_types.rs`, the `Binary` arm of `walk` -/
def binary (op : BinOp) (a b : Fact) : Fact :=
  let numeric := a.fits .number && b.fits .number
  match op with
  | .add | .sub | .mul | .div | .mod => produced numeric .number
  | .gt | .lt | .gtEq | .ltEq => produced numeric .bool
  | .and | .or => produced (a.fits .bool && b.fits .bool) .bool
  | .eq | .notEq => produced (numeric || (a.fits .text && b.fits .text)) .bool

end Fact

/-- The facts of the names in scope, newest first. Source: `constructor_types.rs`, `Env` -/
abbrev Facts := Dict String Fact

/-! ## The pass -/

/-- What the pass reads. Source: `constructor_types.rs`, `Checker` -/
structure Checker where
  /-- the checked rule -/
  rule : Rule
  /-- the rules, looked up by name from the front -/
  rules : List Rule
  /-- the concepts by name -/
  concepts : Dict String Concept
  /-- are the errors of constructors reported? -/
  reportObligations : Bool := true
  /-- the operand diagnostics of the general checker on a value of the wrong type.
  Source: `constructor_types.rs`, `explain_invalid_field` -/
  explainInvalidField : Facts → Expr → Ty → List VerifyError := fun _ _ _ => []

/-- What the walk of an expression yields. -/
structure Walked where
  /-- the fact of the expression -/
  fact : Fact
  /-- the errors in it -/
  errors : List VerifyError := []
  /-- the number of constructors in it -/
  constructors : Nat := 0

/-- What the walk of the assignments of a constructor yields. -/
structure WalkedFields where
  /-- is every assignment accepted? -/
  valid : Bool := true
  /-- the errors in them -/
  errors : List VerifyError := []
  /-- the number of constructors in them -/
  constructors : Nat := 0

/-- What the walk of the arms of a `match` yields. -/
structure WalkedArms where
  /-- the joined fact of the bodies -/
  fact : Option Fact
  /-- is every arm accepted? -/
  valid : Bool := true
  /-- the errors in them -/
  errors : List VerifyError := []
  /-- the number of constructors in them -/
  constructors : Nat := 0

/-- An expression of the given fact whose operands are walked in its own scope. -/
def Walked.strict (ws : List Walked) (fact : Fact) : Walked where
  fact := fact
  errors := ws.flatMap (·.errors)
  constructors := (ws.map (·.constructors)).sum

namespace Checker

/-- Source: `constructor_types.rs`, `Checker::error` -/
def error (chk : Checker) (context message : String) : List VerifyError :=
  if chk.reportObligations then
    [⟨"rule '" ++ chk.rule.name ++ "' / constructor " ++ context, message⟩]
  else []

/-- May single bytes of an expression be read? Source: `constructor_types.rs`,
`Checker::byte_addressable` -/
def byteAddressable (chk : Checker) (e : Expr) (f : Fact) (env : Facts) : Bool :=
  f.fits .text || (f.fits .bytes &&
    match e with
    | .bytes _ | .random _ => true
    | .field (.ident n) _ =>
        n = chk.rule.inputName && env.lookup n = some (Fact.fromType chk.rule.inputTy)
    | _ => false)

/-- The fact of a field. Source: `constructor_types.rs`, the `Field` arm of `walk` -/
def fieldFact (chk : Checker) (base : Fact) (name : String) : Fact :=
  match base with
  | .known (.named n) =>
      match (chk.concepts.lookup n).bind fun c => c.fields.find? (·.name = name) with
      | some f => Fact.fromType f.ty
      | none => .unknown
  | _ => .unknown

/-- The fact of a call. Source: `constructor_types.rs`, the `Call` arm of `walk` -/
def callFact (chk : Checker) (name : String) (args : List Fact) : Fact :=
  match chk.rules.find? (·.name = name), args with
  | some callee, [arg] => Fact.produced (arg.fits callee.inputTy) callee.outputTy
  | _, _ => .unknown

/-- The concept of a scrutinee. Source: `constructor_types.rs`, the `MatchVariant` arm of `walk` -/
def scrutinee (chk : Checker) : Fact → Option Concept
  | .known (.named n) => chk.concepts.lookup n
  | _ => none

/-- The declared fields of a record constructor. Source: `constructor_types.rs`, the `Record` arm
of `walk` -/
def recordDecl (concepts : Dict String Concept) (n : String) : Option (List Field) :=
  (concepts.lookup n).bind fun c => if c.variants = [] then some c.fields else none

/-- The declared fields of a variant constructor. Source: `constructor_types.rs`, the
`VariantConstruct` arm of `walk` -/
def variantDecl (concepts : Dict String Concept) (n v : String) : Option (List Field) :=
  (concepts.lookup n).bind fun c => (c.variants.find? (·.name = v)).map (·.fields)

/-- The check of one assignment, after the names `seen`: is it accepted, and what is reported?
Source: `constructor_types.rs`, the `Record` arm of `walk` -/
def checkField (chk : Checker) (env : Facts) (label : String) (decl : Option (List Field))
    (seen : List String) (name : String) (value : Expr) (actual : Fact) :
    Bool × List VerifyError :=
  let context := label ++ " / field '" ++ name ++ "'"
  let duplicate :=
    if name ∈ seen then chk.error context ("duplicate field '" ++ name ++ "'") else []
  match decl with
  | none => (name ∉ seen, duplicate)
  | some decl =>
      match decl.find? (·.name = name) with
      | some d =>
          if actual.fits d.ty then (name ∉ seen, duplicate)
          else
            let message :=
              match actual with
              | .known t =>
                  "expression has type '" ++ typeDisplay t ++ "' but context expects '" ++
                    typeDisplay d.ty ++ "'"
              | _ =>
                  "cannot establish constructor field type '" ++ typeDisplay d.ty ++
                    "': unknown binding, incompatible branches or invalid operands"
            (false,
              duplicate ++ chk.explainInvalidField env value d.ty ++ chk.error context message)
      | none => (false, duplicate ++ chk.error context ("unknown field '" ++ name ++ "'"))

/-- A constructor whose assignments are walked. Source: `constructor_types.rs`, the `Record` arm of
`walk` -/
def construct (chk : Checker) (n label : String) (decl : Option (List Field))
    (names : List String) (fields : WalkedFields) : Walked :=
  let missing := (decl.getD []).filter fun d => d.name ∉ names
  { fact := Fact.produced (decl.isSome && fields.valid && missing.isEmpty) (.named n)
    errors :=
      (if decl.isNone then
        chk.error label "unknown concept or incompatible constructor form/variant" else []) ++
      fields.errors ++
      missing.flatMap fun d => chk.error label ("missing field '" ++ d.name ++ "'")
    constructors := fields.constructors + 1 }

end Checker

/-- The facts in the scope of an arm. Source: `constructor_types.rs`, the `MatchVariant` arm of
`walk` -/
def bindFacts : List (Option String) → List Field → Facts → Facts
  | [], _, env => env
  | some name :: binders, decl, env =>
      bindFacts binders decl.tail
        (Dict.insert env name (decl.head?.elim .unknown fun f => Fact.fromType f.ty))
  | none :: binders, decl, env => bindFacts binders decl.tail env

mutual

/-- The fact of an expression, with the errors and the constructors in it.
Source: `constructor_types.rs`, `Checker::walk` -/
def walk (chk : Checker) (env : Facts) : Expr → Walked
  | .number _ | .nowUnix => { fact := .known .number }
  | .text _ | .read _ => { fact := .known .text }
  | .bytes _ | .random _ => { fact := .known .bytes }
  | .ident n => { fact := (env.lookup n).getD .unknown }
  | .field base name =>
      let base := walk chk env base
      .strict [base] (chk.fieldFact base.fact name)
  | .record n fields =>
      let label := "'" ++ n ++ "'"
      let decl := Checker.recordDecl chk.concepts n
      chk.construct n label decl (fields.map (·.1)) (walkFields chk env label decl [] fields)
  | .variantConstruct n v fields =>
      let label := "'" ++ n ++ "::" ++ v ++ "'"
      let decl := Checker.variantDecl chk.concepts n v
      chk.construct n label decl (fields.map (·.1)) (walkFields chk env label decl [] fields)
  | .call name args =>
      let actual := walkArgs chk env args
      .strict actual (chk.callFact name (actual.map (·.fact)))
  | .ite c t f =>
      let cond := walk chk env c
      let yes := walk chk env t
      let no := walk chk env f
      .strict [cond, yes, no] (cond.fact.branch yes.fact no.fact)
  | .ok v =>
      let v := walk chk env v
      .strict [v] (.result v.fact .absent)
  | .err v =>
      let v := walk chk env v
      .strict [v] (.result .absent v.fact)
  | .matchResult target ok yes err no =>
      let target := walk chk env target
      let payloads := target.fact.payloads
      let yes := walk chk (Dict.insert env ok (payloads.elim .unknown (·.1))) yes
      let no := walk chk (Dict.insert env err (payloads.elim .unknown (·.2))) no
      .strict [target, yes, no] (if payloads.isSome then yes.fact.join no.fact else .unknown)
  | .matchVariant target arms =>
      let target := walk chk env target
      let concept := chk.scrutinee target.fact
      let bodies := walkArms chk env concept [] none arms
      let valid := bodies.valid && concept.any fun c => c.variants ≠ [] &&
        c.variants.all fun v => v.name ∈ arms.map (·.variantName)
      { fact := if valid then bodies.fact.getD .unknown else .unknown
        errors := target.errors ++ bodies.errors
        constructors := target.constructors + bodies.constructors }
  | .quantifier _ coll item body =>
      let coll := walk chk env coll
      let body := walk chk (Dict.insert env item coll.fact.element) body
      .strict [coll, body] (if coll.fact.element = .unknown then .unknown
        else Fact.produced (body.fact.fits .bool) .bool)
  | .map coll item body =>
      let coll := walk chk env coll
      let body := walk chk (Dict.insert env item coll.fact.element) body
      .strict [coll, body] (if coll.fact.element = .unknown then .unknown
        else body.fact.collection)
  | .filter coll item body =>
      let coll := walk chk env coll
      let body := walk chk (Dict.insert env item coll.fact.element) body
      .strict [coll, body] (if coll.fact.element = .unknown then .unknown
        else if body.fact.fits .bool then coll.fact else .unknown)
  | .fold coll init acc item body =>
      let coll := walk chk env coll
      let init := walk chk env init
      let body := walk chk
        (Dict.insert (Dict.insert env acc init.fact) item coll.fact.element) body
      { fact := Fact.folded coll.fact.element init.fact body.fact
        errors := coll.errors ++ init.errors ++ body.errors ++
          if body.fact ≠ init.fact ∧ body.constructors ≠ 0 then
            chk.error "in fold" ("cannot establish constructor obligations across iterations: " ++
              "fold accumulator type changes or is unresolved")
          else []
        constructors := coll.constructors + init.constructors + body.constructors }
  | .foldBytes text init acc byte index body =>
      let text := walk chk env text
      let init := walk chk env init
      let body := walk chk (Dict.insert (Dict.insert (Dict.insert env acc init.fact) byte
        (.known .number)) index (.known .number)) body
      .strict [text, init, body] (Fact.produced
        (text.fact.fits .text && init.fact.fits .number && body.fact.fits .number) .number)
  | .binary op a b =>
      let a := walk chk env a
      let b := walk chk env b
      .strict [a, b] (Fact.binary op a.fact b.fact)
  | .min a b | .max a b | .bitAnd a b | .bitOr a b | .bitXor a b | .shl a b | .shr a b =>
      let a := walk chk env a
      let b := walk chk env b
      .strict [a, b] (Fact.produced (a.fact.fits .number && b.fact.fits .number) .number)
  | .startsWith a b | .endsWith a b | .contains a b =>
      let a := walk chk env a
      let b := walk chk env b
      .strict [a, b] (Fact.produced (a.fact.fits .text && b.fact.fits .text) .bool)
  | .not v =>
      let v := walk chk env v
      .strict [v] (Fact.produced (v.fact.fits .bool) .bool)
  | .parseInt v =>
      let v := walk chk env v
      .strict [v] (Fact.produced (v.fact.fits .text) .number)
  | .jsonEscape v | .fetch _ v =>
      let v := walk chk env v
      .strict [v] (Fact.produced (v.fact.fits .text) .text)
  | .le32 v | .le64 v | .abortIf v =>
      let v := walk chk env v
      .strict [v] (Fact.produced (v.fact.fits .number) .bytes)
  | .neg v | .abs v | .bitNot v =>
      let v := walk chk env v
      .strict [v] (Fact.produced (v.fact.fits .number) .number)
  | .length v =>
      let w := walk chk env v
      .strict [w] (Fact.produced (chk.byteAddressable v w.fact env) .number)
  | .byteAt v index =>
      let w := walk chk env v
      let index := walk chk env index
      .strict [w, index] (Fact.produced
        (chk.byteAddressable v w.fact env && index.fact.fits .number) .number)
  | .tryByteAt v index =>
      let w := walk chk env v
      let index := walk chk env index
      .strict [w, index] (Fact.produced
        (chk.byteAddressable v w.fact env && index.fact.fits .number)
        (.result .number .boundsError))
  | .substring text start stop =>
      let text := walk chk env text
      let start := walk chk env start
      let stop := walk chk env stop
      .strict [text, start, stop] (Fact.produced
        (text.fact.fits .text && start.fact.fits .number && stop.fact.fits .number) .text)
  | .arenaScope v =>
      let v := walk chk env v
      .strict [v] (if v.fact.fits .number || v.fact.fits .bytes then v.fact else .unknown)
  | .concat args =>
      let args := walkArgs chk env args
      .strict args (Fact.concat (args.map (·.fact)))

/-- `walk` over the arguments of a call or a `concat`. -/
def walkArgs (chk : Checker) (env : Facts) : List Expr → List Walked
  | [] => []
  | e :: es => walk chk env e :: walkArgs chk env es

/-- `walk` over the assignments of a constructor, after the names `seen`. -/
def walkFields (chk : Checker) (env : Facts) (label : String) (decl : Option (List Field))
    (seen : List String) : List (String × Expr) → WalkedFields
  | [] => {}
  | (name, value) :: fields =>
      let w := walk chk env value
      let check := chk.checkField env label decl seen name value w.fact
      let rest := walkFields chk env label decl (name :: seen) fields
      { valid := check.1 && rest.valid
        errors := w.errors ++ check.2 ++ rest.errors
        constructors := w.constructors + rest.constructors }

/-- `walk` over the arms of a `match`, after the variants `seen` with the joined fact `result`. -/
def walkArms (chk : Checker) (env : Facts) (concept : Option Concept) (seen : List String)
    (result : Option Fact) : List MatchArm → WalkedArms
  | [] => { fact := result }
  | .mk name binders body :: arms =>
      let decl := concept.bind fun c => c.variants.find? (·.name = name)
      let w := walk chk (bindFacts binders ((decl.map (·.fields)).getD []) env) body
      let rest := walkArms chk env concept (name :: seen)
        (some (result.elim w.fact fun r => r.join w.fact)) arms
      { fact := rest.fact
        valid := (name ∉ seen && decl.any (·.fields.length = binders.length) &&
          (binders.filterMap id).Nodup) && rest.valid
        errors := w.errors ++ rest.errors
        constructors := w.constructors + rest.constructors }

end

/-! ## Rules -/

/-- The declared types of the names a rule starts with, the newest first.
Source: `constructor_types.rs`, `check_rule` -/
def roots (r : Rule) (state : Option Concept) : Dict String Ty :=
  (match r.contextName, r.contextTy with
    | some name, some ty => [(name, ty)]
    | _, _ => []) ++
  (r.inputName, r.inputTy) :: (state.map fun s => ("state", Ty.named s.name)).toList

/-- The errors of the bindings and of the value of a rule.
Source: `constructor_types.rs`, `check_rule` -/
def walkBindings (chk : Checker) (value : Expr) : Facts → List (String × Expr) → List VerifyError
  | env, [] => (walk chk env value).errors
  | env, (name, rhs) :: bindings =>
      let w := walk chk env rhs
      w.errors ++ walkBindings chk value (Dict.insert env name w.fact) bindings

/-- The state of a service as a concept. Source: `verifier.rs`, `service_state_concept` -/
def serviceStateConcept (s : Service) : Concept where
  name := "<state of service '" ++ s.name ++ "'>"
  fields := s.stateFields.map fun sf => ⟨sf.name, sf.ty, sf.maxBytes.map fun n => (0, n)⟩

/-- The concepts in scope of a rule: that of the state hides one of the same name.
Source: `constructor_types.rs`, `check_rule` -/
def scopeConcepts (p : Program) (state : Option Concept) : Dict String Concept :=
  (state.map fun s => (s.name, s)).toList ++ Verifier.conceptTable p

/-- What the pass reads on a rule of a program. Source: `constructor_types.rs`, `check_rule` -/
def Checker.ofRule (p : Program) (r : Rule) (state : Option Concept) (reportObligations : Bool)
    (explain : Facts → Expr → Ty → List VerifyError) : Checker where
  rule := r
  rules := p.rules
  concepts := scopeConcepts p state
  reportObligations := reportObligations
  explainInvalidField := explain

/-- The errors of a rule. Source: `constructor_types.rs`, `check_rule` -/
def checkRule (p : Program) (r : Rule) (state : Option Concept) (reportObligations : Bool)
    (explain : Facts → Expr → Ty → List VerifyError) : List VerifyError :=
  walkBindings (.ofRule p r state reportObligations explain) r.logic.value
    ((roots r state).map fun root => (root.1, Fact.fromType root.2)) r.logic.bindings

end Verbosec.ConstructorTypes
