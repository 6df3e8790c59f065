import Verbosec.TextBounds.Check
import Verbosec.Interpreter.Value
import Verbosec.Lib.Except
import Verbosec.Lib.Transition

/-!
# The capacity of the text state of a service

* `textSourceWorstCase` - the largest byte length the verifier infers for the source of an
  assignment `set f = e` of an `after` block; `setBound` adds the results of bounded rule calls.
* `stateFieldErrors`, `setSourceErrors` - what the verifier refuses; `Accepted` says that it refuses
  nothing.
* `Yields env e v` - `v` is a value of `e`. Texts are the raw bytes a running service holds. A
  `read` or a `fetch` yields any text within its declared bound, and the shapes that have no bound
  here yield any value.
* `service` - the system of the state fields over all sequences of requests, the assignments of an
  `after` block taken one by one.

Source: `verifier.rs`, `text_source_worst_case` and the set-source gate of `verify_service`;
`native.rs`, `emit_after_block` for the order of the assignments. Source texts render the base of an
unresolved field access with `Debug`; here that rendering is left out.
-/

namespace Verbosec.Verifier

open Verbosec.Lib

/-! ## The inferred bound -/

/-- What the size of a text source depends on. Source: `verifier.rs`, the parameters of
`text_source_worst_case` -/
structure TextScope where
  /-- the name of the handler's input -/
  inputName : String
  /-- the concept of the handler's input -/
  reqConcept : Option Concept
  /-- the largest accepted request, in bytes -/
  maxRequest : Nat
  /-- the declared capacities of the text state fields -/
  textStateBounds : Dict String Int64
  /-- the handler's `let`s, in source order -/
  handlerLets : List (String × Expr)
  /-- the declared bounds of the resources -/
  resourceMaxBytes : Dict String Nat
  /-- the declared bounds of the connections -/
  connectionMaxResponse : Dict String Nat

/-- The largest 64-bit integer. -/
def i64Max : Int := 2 ^ 63 - 1

/-- Addition that stops at the ends of the 64-bit integers. Source: `i64::saturating_add` -/
def saturatingAdd (a b : Int) : Int := max (-2 ^ 63) (min i64Max (a + b))

/-- The name of a shape that has no bound. Source: `verifier.rs`, `expr_shape_name` -/
def exprShapeName : Expr → String
  | .number _ => "number literal"
  | .bytes _ => "byte-string literal"
  | .binary .. => "arithmetic / comparison"
  | .call .. => "rule call"
  | .ite .. => "if / then / else"
  | .jsonEscape _ => "json_escape(...)"
  | .parseInt _ => "parse_int(...)"
  | .nowUnix => "now_unix()"
  | .length _ => "length(...)"
  | .startsWith .. => "starts_with(...)"
  | .endsWith .. => "ends_with(...)"
  | .contains .. => "contains(...)"
  | .byteAt .. => "byte_at(...)"
  | .tryByteAt .. => "try_byte_at(...)"
  | .record .. => "record construction"
  | _ => "unsupported expression"

/-- The bound of a field of the input. Source: `verifier.rs`, `text_source_worst_case` -/
def TextScope.inputField (t : TextScope) (fname : String) : Except String Int :=
  if fname = "body" then .ok t.maxRequest
  else
    match t.reqConcept.bind (·.fields.find? (·.name = fname)) with
    | none => .error (t.inputName ++ "." ++ fname)
    | some f =>
        match f.ty, f.range with
        | .text, some (_, max) => .ok max.toInt
        | _, _ => .error (t.inputName ++ "." ++ fname)

/-- The bound of a field access. Source: `verifier.rs`, `text_source_worst_case` -/
def TextScope.fieldBound (t : TextScope) (base : Expr) (fname : String) : Except String Int :=
  match base with
  | .ident b =>
      if b = t.inputName then t.inputField fname
      else if b = "state" then
        match t.textStateBounds.lookup fname with
        | some max => .ok max.toInt
        | none => .error ("state." ++ fname ++ " (not a text state field)")
      else .error "field access on another base"
  | _ => .error "field access on another base"

/-- The largest byte length of a text source; the fuel counts down from 17 where the source counts
the depth up from 0. Source: `verifier.rs`, `text_source_worst_case` -/
def textSourceWorstCase (t : TextScope) : Nat → Expr → Except String Int
  | 0, _ => .error "deeply nested let chain"
  | fuel + 1, e =>
      match e with
      | .text s => .ok s.utf8ByteSize
      | .field base fname => t.fieldBound base fname
      | .read name =>
          match t.resourceMaxBytes.lookup name with
          | some max => .ok max
          | none => .error ("read(" ++ name ++ ") — undeclared resource")
      | .fetch name _ =>
          match t.connectionMaxResponse.lookup name with
          | some max => .ok max
          | none => .error ("fetch(" ++ name ++ ", …) — undeclared connection")
      | .ident name =>
          match t.handlerLets.find? (·.1 = name) with
          | some (_, rhs) => textSourceWorstCase t fuel rhs
          | none => .error ("identifier '" ++ name ++ "'")
      | .substring text _ _ => textSourceWorstCase t fuel text
      | .concat args =>
          args.foldlM (fun total a => do
            return saturatingAdd total (← textSourceWorstCase t fuel a)) 0
      | other => .error (exprShapeName other)

/-! ## What the verifier refuses -/

/-- The largest capacity of a text state field. Source: `verifier.rs`, `TEXT_STATE_MAX_BYTES` -/
def textStateMaxBytes : Int64 := 65536

/-- The errors of one state field. Source: `verifier.rs`, `verify_service` -/
def stateFieldError (s : Service) (sf : StateField) : List VerifyError :=
  let context := "service '" ++ s.name ++ "' / state / " ++ sf.name
  match sf.ty with
  | .number => []
  | .text =>
      let n := sf.maxBytes.getD 0
      (if n < 1 ∨ textStateMaxBytes < n then
        [⟨context, "state field '" ++ sf.name ++ "': declared bound " ++ toString n.toInt ++
          " must be in 1..=65536; the state block shares one stack frame with max_request and " ++
          "every handler let"⟩]
      else []) ++
      match sf.init with
      | .text lit =>
          if n.toInt < lit.utf8ByteSize then
            [⟨context, "state field '" ++ sf.name ++ "': initial value is " ++
              toString lit.utf8ByteSize ++ " bytes but the declared bound is " ++
              toString n.toInt⟩]
          else []
      | .number _ => []
  | ty =>
      [⟨context, "state field '" ++ sf.name ++ "' must be type 'number' or 'text'; got " ++
        ty.debug⟩]

/-- The errors of the state fields, `seen` the names above. Source: `verifier.rs`,
`verify_service` -/
def stateFieldErrors (s : Service) : List String → List StateField → List VerifyError
  | _, [] => []
  | seen, sf :: rest =>
      stateFieldError s sf ++
      (if sf.name ∈ seen then
        [⟨"service '" ++ s.name ++ "' / state / " ++ sf.name,
          "duplicate state field name '" ++ sf.name ++ "'"⟩]
      else []) ++ stateFieldErrors s (sf.name :: seen) rest

/-- The last declared bound of each resource. Source: `verifier.rs`, `verify_program` -/
def resourceMaxBytes (p : Program) : Dict String Nat :=
  (p.items.filterMap fun
    | .resource r => some (r.name, r.maxBytes)
    | _ => none).reverse

/-- The last declared bound of each connection. Source: `verifier.rs`, `verify_program` -/
def connectionMaxResponse (p : Program) : Dict String Nat :=
  (p.items.filterMap fun
    | .connection c => some (c.name, c.maxResponse)
    | _ => none).reverse

/-- The rules by name, the last of a name first. Source: `verifier.rs`, `verify_service`,
`state_rules` -/
def stateRules (p : Program) : Dict String Rule := (p.rules.map fun r => (r.name, r)).reverse

/-- The concepts by name, the last of a name first. Source: `verifier.rs`, `verify_program` -/
def conceptTable (p : Program) : Dict String Concept :=
  ((p.concepts ++ TextBounds.builtins p).map fun c => (c.name, c)).reverse

/-- The scope in which the sources of a service's assignments are sized.
Source: `verifier.rs`, `verify_service` -/
def textScope (p : Program) (s : Service) (handler : Rule) : TextScope where
  inputName := handler.inputName
  reqConcept :=
    match handler.inputTy with
    | .named n => (conceptTable p).lookup n
    | _ => none
  maxRequest := s.maxRequest
  textStateBounds :=
    ((s.stateFields.filter (·.ty = .text)).map fun sf => (sf.name, sf.maxBytes.getD 0)).reverse
  handlerLets := handler.logic.bindings
  resourceMaxBytes := resourceMaxBytes p
  connectionMaxResponse := connectionMaxResponse p

/-- The bound of the source of an assignment: that of a bounded rule call, else the inferred one.
Source: `verifier.rs`, the set-source gate of `verify_service` -/
def setBound (p : Program) (s : Service) (handler : Rule) (set : StateSet) : Except String Int :=
  match TextBounds.stateCall s handler set (stateRules p) with
  | .ok (some callee) => .ok (callee.outputTextMax.getD 0)
  | _ => textSourceWorstCase (textScope p s handler) 17 set.value

/-- The sources that an unbounded assignment is told to use. Source: `verifier.rs`, the set-source
gate of `verify_service` -/
def acceptedSources (protocol : Protocol) (input : String) : String :=
  match protocol with
  | .http10 =>
      "Slice text-state-1 accepts literals, " ++ input ++ ".method / " ++ input ++ ".path / " ++
        input ++ ".body, state fields, read(), fetch(), handler text lets, substring of those, " ++
        "and concat of those."
  | .rawTcp =>
      "On a raw_tcp service the accepted sources are literals, state fields, handler text lets, " ++
        "substring of those, and concat of those — the input field " ++ input ++ ".<field> is " ++
        "bytes, not text, and reaches a text set only through a handler let built from length() " ++
        "/ byte_at() (slice multistep-1)."

/-- The errors of one assignment: an unknown state field, or a source for a text field that may
outgrow its buffer. A call that breaks the contract of bounded text state is reported by the bounded
text verifier under the same context. Source: `verifier.rs`, `verify_service`; `text_bounds.rs`,
`verify_mode` -/
def setSourceError (p : Program) (s : Service) (handler : Rule) (set : StateSet) :
    List VerifyError :=
  let context := "service '" ++ s.name ++ "' / after / set " ++ set.fieldName
  match s.stateFields.find? (·.name = set.fieldName) with
  | none =>
      [⟨context, "after block sets unknown state field '" ++ set.fieldName ++
        "'; declared state fields: [" ++
        String.intercalate ", " (s.stateFields.map (·.name)) ++ "]"⟩]
  | some sf =>
      if sf.ty ≠ .text then []
      else
        match TextBounds.stateCall s handler set (stateRules p) with
        | .error message => [⟨context, message⟩]
        | .ok _ =>
            let n := (sf.maxBytes.getD 0).toInt
            match setBound p s handler set with
            | .error kind =>
                [⟨context, "after: set '" ++ set.fieldName ++ "' = <expr>: source shape '" ++
                  kind ++ "' has no compile-time byte bound, so the copy into a fixed " ++ toString n ++
                  "-byte buffer cannot be proved safe. " ++
                  acceptedSources s.protocol handler.inputName⟩]
            | .ok w =>
                if n < w then
                  [⟨context, "after: set '" ++ set.fieldName ++ "' = <expr>: worst case " ++
                    toString w ++ " bytes exceeds the declared bound " ++ toString n ++
                    ". Append-accumulation (concat(state." ++ set.fieldName ++
                    ", …)) can never satisfy this — it needs a declared overflow policy, which " ++
                    "is slice text-state-2."⟩]
                else []

/-- A service whose state the verifier accepts, as the parser builds it. -/
structure Accepted (p : Program) (s : Service) (handler : Rule) : Prop where
  /-- the state fields are in order -/
  fields : stateFieldErrors s [] s.stateFields = []
  /-- every assignment fits -/
  sets : ∀ set ∈ s.afterSets, setSourceError p s handler set = []
  /-- a text field starts with a text literal. Source: `parser.rs`, `parse_service` -/
  literals : ∀ sf ∈ s.stateFields, sf.ty = .text → ∃ lit, sf.init = .text lit

/-! ## Values of a running service -/

/-- A value of a running service. Texts and byte strings are raw bytes; `other` is any value that is
not one of these, a number, a truth value or a record. -/
inductive Datum where
  | text (b : List UInt8)
  | number (n : Int64)
  | bool (b : Bool)
  | record (fields : List (String × Datum))
  | other (v : Interpreter.Value)

/-- The bytes of a scalar inside a concatenation. Source: `interpreter.rs`, the `Concat` arm of
`eval_expr` -/
def Datum.piece : Datum → Option (List UInt8)
  | .text b => some b
  | .number n => some (Interpreter.utf8Bytes (Interpreter.decimal n))
  | .bool b => some (Interpreter.utf8Bytes (Interpreter.boolText b))
  | _ => none

/-- The shapes whose values `Yields` determines. -/
def isSized : Expr → Bool
  | .text _ | .number _ | .ident _ | .field .. | .read _ | .fetch .. | .substring .. | .concat _
  | .call .. => true
  | _ => false

/-- `v` is a value of an expression. Names are those of the environment; a file and a response obey
their declared bounds, a called rule the declared bound of its text; every other shape may have any
value. -/
inductive Yields (p : Program) (env : Dict String Datum) : Expr → Datum → Prop
  | text (s : String) : Yields p env (.text s) (.text (Interpreter.utf8Bytes s))
  | number (n : Int64) : Yields p env (.number n) (.number n)
  | ident {name : String} {v : Datum} (h : env.lookup name = some v) : Yields p env (.ident name) v
  | field {base : Expr} {fname : String} {fields : List (String × Datum)} {v : Datum}
      (hbase : Yields p env base (.record fields)) (h : fields.lookup fname = some v) :
      Yields p env (.field base fname) v
  | read {name : String} {max : Nat} {b : List UInt8}
      (h : (resourceMaxBytes p).lookup name = some max) (hb : b.length ≤ max) :
      Yields p env (.read name) (.text b)
  | fetch {name : String} {request : Expr} {max : Nat} {b : List UInt8}
      (h : (connectionMaxResponse p).lookup name = some max) (hb : b.length ≤ max) :
      Yields p env (.fetch name request) (.text b)
  | substring {text start stop : Expr} {b : List UInt8} {i j : Int64}
      (htext : Yields p env text (.text b)) (hstart : Yields p env start (.number i))
      (hstop : Yields p env stop (.number j)) (hi : 0 ≤ i.toInt) (hij : i.toInt ≤ j.toInt)
      (hj : j.toInt ≤ b.length) :
      Yields p env (.substring text start stop)
        (.text ((b.take j.toInt.toNat).drop i.toInt.toNat))
  | concatNil : Yields p env (.concat []) (.text [])
  | concatCons {a : Expr} {args : List Expr} {v : Datum} {b rest : List UInt8}
      (ha : Yields p env a v) (hv : v.piece = some b)
      (hrest : Yields p env (.concat args) (.text rest)) :
      Yields p env (.concat (a :: args)) (.text (b ++ rest))
  | call {name : String} {args : List Expr} {v : Datum}
      (h : ∀ r, (stateRules p).lookup name = some r → ∀ max, r.outputTextMax = some max →
        ∃ b, v = .text b ∧ b.length ≤ max) :
      Yields p env (.call name args) v
  | other {e : Expr} {v : Datum} (h : isSized e = false) : Yields p env e v

/-- The values of `let`s evaluated in order over `base`, the latest first.
Source: `interpreter.rs`, `eval_rule_with_value` -/
inductive Binds (p : Program) (base : Dict String Datum) :
    List (String × Expr) → Dict String Datum → Prop
  | nil : Binds p base [] []
  | snoc {lets : List (String × Expr)} {name : String} {e : Expr} {vals : Dict String Datum}
      {v : Datum} (hlets : Binds p base lets vals) (h : Yields p (vals ++ base) e v) :
      Binds p base (lets ++ [(name, e)]) (Dict.insert vals name v)

/-! ## Runs of a service -/

/-- A request within its declared bounds: its `body` is at most `max_request` bytes, a text field of
the input concept at most its declared maximum. -/
def Obeys (t : TextScope) (req : Dict String Datum) : Prop :=
  ∀ f v, req.lookup f = some v →
    (f = "body" → ∃ b, v = .text b ∧ b.length ≤ t.maxRequest) ∧
    ∀ c d, t.reqConcept = some c → c.fields.find? (·.name = f) = some d → d.ty = .text →
      ∀ lo hi, d.range = some (lo, hi) → ∃ b, v = .text b ∧ (b.length : Int) ≤ hi.toInt

/-- The initial value of a state field. Source: `native.rs`, `emit_state_init` -/
def StateInit.datum : StateInit → Datum
  | .number n => .number n
  | .text s => .text (Interpreter.utf8Bytes s)

/-- The state of a service before its first request. -/
def initialState (s : Service) : Dict String Datum :=
  s.stateFields.map fun sf => (sf.name, StateInit.datum sf.init)

/-- What a handler sees besides its `let`s: its input and the state. -/
def baseEnv (handler : Rule) (req state : Dict String Datum) : Dict String Datum :=
  [(handler.inputName, .record req), ("state", .record state)]

/-- A service between requests, or inside the `after` block of one. -/
inductive Config where
  | idle (state : Dict String Datum)
  | after (req lets : Dict String Datum) (todo : List StateSet) (state : Dict String Datum)

/-- One step of a service: a request is taken and the handler's `let`s are evaluated, one assignment
is made, or the next request is awaited. Source: `native.rs`, `emit_after_block` -/
inductive Config.Step (p : Program) (s : Service) (handler : Rule) : Config → Config → Prop
  | serve {req lets state : Dict String Datum} (hreq : Obeys (textScope p s handler) req)
      (hlets : Binds p (baseEnv handler req state) handler.logic.bindings lets) :
      Config.Step p s handler (.idle state) (.after req lets s.afterSets state)
  | assign {req lets state : Dict String Datum} {set : StateSet} {todo : List StateSet} {v : Datum}
      (hv : Yields p (lets ++ baseEnv handler req state) set.value v) :
      Config.Step p s handler (.after req lets (set :: todo) state)
        (.after req lets todo (Dict.insert state set.fieldName v))
  | done {req lets state : Dict String Datum} :
      Config.Step p s handler (.after req lets [] state) (.idle state)

/-- The runs of a service over all sequences of requests. -/
def service (p : Program) (s : Service) (handler : Rule) : System Config where
  init c := c = .idle (initialState s)
  step := Config.Step p s handler

/-! ## Names -/

/-- Every name that the analysis of a source resolves means the same to the analysis and in the
scope of the `let`s before it: the `let` in scope is the first of its name, and neither the input nor the
state is hidden. -/
inductive Clear (t : TextScope) : List (String × Expr) → Expr → Prop
  | text {scope : List (String × Expr)} {s : String} : Clear t scope (.text s)
  | field {scope : List (String × Expr)} {base fname : String}
      (h : (base = t.inputName ∨ base = "state") → base ∉ scope.map (·.1)) :
      Clear t scope (.field (.ident base) fname)
  | read {scope : List (String × Expr)} {name : String} : Clear t scope (.read name)
  | fetch {scope : List (String × Expr)} {name : String} {request : Expr} :
      Clear t scope (.fetch name request)
  | substring {scope : List (String × Expr)} {text start stop : Expr} (h : Clear t scope text) :
      Clear t scope (.substring text start stop)
  | call {scope : List (String × Expr)} {name : String} {args : List Expr} :
      Clear t scope (.call name args)
  | concat {scope : List (String × Expr)} {args : List Expr} (h : ∀ a ∈ args, Clear t scope a) :
      Clear t scope (.concat args)
  | ident {scope before after : List (String × Expr)} {name : String} {e : Expr}
      (hscope : scope = before ++ (name, e) :: after) (hbefore : name ∉ before.map (·.1))
      (hafter : name ∉ after.map (·.1)) (he : Clear t before e) : Clear t scope (.ident name)

end Verbosec.Verifier
