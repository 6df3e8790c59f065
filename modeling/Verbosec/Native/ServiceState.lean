import Verbosec.Lib.Dict
import Verbosec.Verifier.TextState

/-!
# The state of a native service

* `Env`, `value` - what the names in a handler denote, and the value of an expression in them. The
  shapes that hand on a text as it lies in memory are spelled out; `other` stands for the rest.
* `reference` - one request by value: the `let`s, the response, the assignments in order.
* `Loc`, `Slot`, `Cell` - a text as an address and a length: into memory that nothing writes before
  the end of the request, or into the buffer of a state field.
* `locate`, `native` - one request as it is emitted: a `let` keeps an address, an assignment copies
  into the buffer.
* `Distinct`, `NoStale` - no name hides another; no assignment uses a `let` that looks into a buffer
  which an assignment before it has overwritten.

Source: `native.rs`, `emit_text_produce_ptrlen`, `register_state_bindings`, `emit_state_init`,
`emit_after_block` and the `let` bindings of `compile_http10_dynamic_service` and
`compile_raw_tcp_dynamic_service`.
-/

namespace Verbosec.Native.ServiceState

open Verbosec.Lib Verbosec.Verifier

/-! ## Values -/

/-- What a name in a handler stands for. -/
inductive Key where
  /-- a field of the request -/
  | input (field : String)
  /-- a field of the state -/
  | state (field : String)
  /-- a `let` -/
  | bound (name : String)
  deriving DecidableEq

/-- The values of the names. -/
abbrev Env := Key → Option Datum

/-- Two positions in a text, if they are in order and inside it; the comparisons are unsigned.
Source: `native.rs`, `emit_substring_bounds_and_slice` -/
def positions (start stop : Datum) (len : Nat) : Option (Nat × Nat) :=
  match start, stop with
  | .number i, .number j =>
    if i.toUInt64.toNat ≤ j.toUInt64.toNat ∧ j.toUInt64.toNat ≤ len then
      some (i.toUInt64.toNat, j.toUInt64.toNat)
    else none
  | _, _ => none

/-- The part of a text between two positions. -/
def cut (start stop : Datum) (b : List UInt8) : Option (List UInt8) :=
  (positions start stop b.length).map fun (i, j) => (b.take j).drop i

/-- The field that an access to the input or to the state names. -/
def accessKey (inputName base fname : String) : Option Key :=
  if base = inputName then some (.input fname)
  else if base = "state" then some (.state fname)
  else none

section value

variable (inputName : String) (other : Env → Expr → Option Datum)

/-- The value of an expression. -/
def value (env : Env) : Expr → Option Datum
  | .ident x => env (.bound x)
  | .field (.ident base) fname =>
    match accessKey inputName base fname with
    | some key => env key
    | none => other env (.field (.ident base) fname)
  | .ite cond yes no =>
    match value env cond with
    | some (.bool true) => value env yes
    | some (.bool false) => value env no
    | _ => none
  | .substring text start stop =>
    match value env text, value env start, value env stop with
    | some (.text b), some i, some j => (cut i j b).map .text
    | _, _, _ => none
  | e => other env e

end value

/-! ## A request by value -/

/-- A request: its fields, and what the remaining shapes of expressions evaluate to while it is
served. -/
structure Request where
  /-- the fields of the input that are addresses in slots of their own, `method` and `path` -/
  pointers : Dict String Datum
  /-- the fields of the input that are an address and a length -/
  texts : Dict String Datum
  /-- the remaining shapes, resources and responses of connections among them -/
  other : Env → Expr → Option Datum

/-- A field of the input. -/
def Request.field (r : Request) (fname : String) : Option Datum :=
  (r.pointers.lookup fname).orElse fun _ => r.texts.lookup fname

/-- What is served: the handler and the assignments after the response. -/
structure Handler where
  /-- the name of the input -/
  inputName : String
  /-- the `let`s -/
  lets : List (String × Expr)
  /-- the response -/
  response : Expr
  /-- the assignments -/
  sets : List StateSet

/-- The handler of a service. -/
def handlerOf (s : Service) (handler : Rule) : Handler where
  inputName := handler.inputName
  lets := handler.logic.bindings
  response := handler.logic.value
  sets := s.afterSets

/-- The values of the names, from the request, the state and the `let`s so far. -/
def refEnv (r : Request) (state bound : Dict String Datum) : Env
  | .input f => r.field f
  | .state f => state.lookup f
  | .bound x => bound.lookup x

/-- The `let`s, one after the other. -/
def refLets (h : Handler) (r : Request) (state : Dict String Datum) :
    List (String × Expr) → Dict String Datum → Option (Dict String Datum)
  | [], bound => some bound
  | (x, e) :: lets, bound => do
    let v ← value h.inputName r.other (refEnv r state bound) e
    refLets h r state lets (bound.insert x v)

/-- The assignments, one after the other. -/
def refSets (h : Handler) (r : Request) (bound : Dict String Datum) :
    List StateSet → Dict String Datum → Option (Dict String Datum)
  | [], state => some state
  | set :: sets, state => do
    let v ← value h.inputName r.other (refEnv r state bound) set.value
    refSets h r bound sets (state.insert set.fieldName v)

/-- One request: its response and the state after it. -/
def reference (h : Handler) (r : Request) (state : Dict String Datum) :
    Option (Datum × Dict String Datum) := do
  let bound ← refLets h r state h.lets []
  let response ← value h.inputName r.other (refEnv r state bound) h.response
  let state ← refSets h r bound h.sets state
  return (response, state)

/-- Several requests in one process. -/
def referenceRun (h : Handler) :
    List Request → Dict String Datum → Option (List Datum × Dict String Datum)
  | [], state => some ([], state)
  | r :: rs, state => do
    let (response, state) ← reference h r state
    let (responses, state) ← referenceRun h rs state
    return (response :: responses, state)

/-! ## A request in memory -/

/-- Where a text lies. -/
inductive Loc where
  /-- in memory that nothing writes before the end of the request: code, the request, the buffer of
  a concatenation, a resource or a response -/
  | still (b : List UInt8)
  /-- in the buffer of a state field -/
  | state (field : String) (start len : Nat)

/-- What is stored for a name. -/
inductive Slot where
  | text (l : Loc)
  | scalar (v : Datum)

/-- What is stored for a state field: a number, or a buffer and the length of the text in it.
Source: `native.rs`, `emit_state_init` -/
inductive Cell where
  | text (buffer : List UInt8) (len : Nat)
  | scalar (v : Datum)

/-- The value of a state field. -/
def Cell.value : Cell → Datum
  | .text buffer len => .text (buffer.take len)
  | .scalar v => v

/-- The state as it is stored. -/
abbrev Memory := Dict String Cell

/-- The values of the state. -/
def Memory.values (m : Memory) : Dict String Datum := m.map fun e => (e.1, e.2.value)

/-- The bytes at a place. -/
def Memory.bytes (m : Memory) : Loc → Option (List UInt8)
  | .still b => some b
  | .state f start len =>
    match m.lookup f with
    | some (.text buffer _) => some ((buffer.drop start).take len)
    | _ => none

/-- The value of what is stored for a name. -/
def Memory.read (m : Memory) : Slot → Option Datum
  | .text l => (m.bytes l).map .text
  | .scalar v => some v

/-- A value in memory of its own. -/
def Slot.fresh : Datum → Slot
  | .text b => .text (.still b)
  | v => .scalar v

/-- The slot of a state field. Source: `native.rs`, `register_state_bindings` -/
def stateSlot (f : String) : Cell → Slot
  | .text _ len => .text (.state f 0 len)
  | .scalar v => .scalar v

/-- The slots by name: the addresses and numbers, and the addresses with a length.
Source: `native.rs`, `offsets` and `text_bindings` -/
structure Bindings where
  /-- `handler_offsets` -/
  offsets : Dict String Slot
  /-- `text_bindings` -/
  texts : Dict String Slot

/-- The key of a field of the input: its bare name over HTTP, a composite one else.
Source: `native.rs`, `req_key` -/
def requestKey (protocol : Protocol) (fname : String) : String :=
  match protocol with
  | .http10 => fname
  | .rawTcp => "__req_" ++ fname

section native

variable (protocol : Protocol) (h : Handler) (r : Request)

/-- The slots of the request. -/
def requestBindings : Bindings where
  offsets := r.pointers.map fun e => (requestKey protocol e.1, Slot.fresh e.2)
  texts := r.texts.map fun e => (requestKey protocol e.1, Slot.fresh e.2)

/-- The slot that a name is resolved to; a field that the input does not have is refused.
Source: `native.rs`, the arms `Field` and `Ident` of `emit_text_produce_ptrlen` -/
def Bindings.slot (bs : Bindings) (m : Memory) : Key → Option Slot
  | .input f =>
    if (r.field f).isSome then
      (bs.offsets.lookup (requestKey protocol f)).orElse fun _ =>
        bs.texts.lookup (requestKey protocol f)
    else none
  | .state f => (m.lookup f).map (stateSlot f)
  | .bound x => (bs.texts.lookup x).orElse fun _ => bs.offsets.lookup x

/-- The values that the code of an expression finds. -/
def Bindings.env (bs : Bindings) (m : Memory) : Env := fun key =>
  (bs.slot protocol r m key).bind m.read

/-- The part of a place between two positions. Source: `native.rs`,
`emit_substring_bounds_and_slice` -/
def Loc.cut (start stop : Datum) : Loc → Option Loc
  | .still b => (ServiceState.cut start stop b).map .still
  | .state f first len =>
    (positions start stop len).map fun (i, j) => .state f (first + i) (j - i)

/-- What the code of an expression leaves: an address where the source hands on the text as it lies.
Source: `native.rs`, `emit_text_produce_ptrlen` -/
def locate (bs : Bindings) (m : Memory) : Expr → Option Slot
  | .ident x => bs.slot protocol r m (.bound x)
  | .field (.ident base) fname =>
    match accessKey h.inputName base fname with
    | some key => bs.slot protocol r m key
    | none => (r.other (bs.env protocol r m) (.field (.ident base) fname)).map Slot.fresh
  | .ite cond yes no =>
    match value h.inputName r.other (bs.env protocol r m) cond with
    | some (.bool true) => locate bs m yes
    | some (.bool false) => locate bs m no
    | _ => none
  | .substring text start stop =>
    match locate bs m text, value h.inputName r.other (bs.env protocol r m) start,
        value h.inputName r.other (bs.env protocol r m) stop with
    | some (.text l), some i, some j => (l.cut i j).map .text
    | _, _, _ => none
  | e => (r.other (bs.env protocol r m) e).map Slot.fresh

/-- A `let` is registered by the kind of its value. Source: `native.rs`, the handler `let`
bindings -/
def Bindings.bind (bs : Bindings) (x : String) : Slot → Bindings
  | .text l => { bs with texts := bs.texts.insert x (.text l) }
  | .scalar v => { bs with offsets := bs.offsets.insert x (.scalar v) }

/-- The `let`s, one after the other. Source: `native.rs`, the handler `let` bindings -/
def nativeLets (m : Memory) : List (String × Expr) → Bindings → Option Bindings
  | [], bs => some bs
  | (x, e) :: lets, bs => do
    let slot ← locate protocol h r bs m e
    nativeLets m lets (bs.bind x slot)

/-- The store of an assignment: a text is copied to the start of the buffer, if it fits.
Source: `native.rs`, `emit_after_block` -/
def store (m : Memory) (f : String) : Slot → Option Memory
  | .text l => do
    let b ← m.bytes l
    match m.lookup f with
    | some (.text buffer _) =>
      if b.length ≤ buffer.length then
        some (m.insert f (.text (b ++ buffer.drop b.length) b.length))
      else none
    | _ => none
  | .scalar v =>
    match m.lookup f with
    | some (.scalar _) => some (m.insert f (.scalar v))
    | _ => none

/-- The assignments, one after the other. Source: `native.rs`, `emit_after_block` -/
def nativeSets (bs : Bindings) : List StateSet → Memory → Option Memory
  | [], m => some m
  | set :: sets, m => do
    let slot ← locate protocol h r bs m set.value
    let m ← store m set.fieldName slot
    nativeSets bs sets m

/-- One request: its response and the memory after it. Source: `native.rs`, the loop of
`compile_http10_dynamic_service` and the step loop of `compile_raw_tcp_dynamic_service` -/
def native (m : Memory) : Option (Datum × Memory) := do
  let bs ← nativeLets protocol h r m h.lets (requestBindings protocol r)
  let response ← value h.inputName r.other (bs.env protocol r m) h.response
  let m ← nativeSets protocol h r bs h.sets m
  return (response, m)

end native

/-- Several requests in one process. -/
def nativeRun (protocol : Protocol) (h : Handler) :
    List Request → Memory → Option (List Datum × Memory)
  | [], m => some ([], m)
  | r :: rs, m => do
    let (response, m) ← native protocol h r m
    let (responses, m) ← nativeRun protocol h rs m
    return (response :: responses, m)

/-- The memory before the first request. Source: `native.rs`, `emit_state_init` -/
def initialMemory (s : Service) : Memory :=
  s.stateFields.map fun sf => (sf.name,
    match sf.init with
    | .number n => .scalar (.number n)
    | .text lit =>
      let b := Interpreter.utf8Bytes lit
      .text (b ++ List.replicate ((sf.maxBytes.getD 0).toInt.toNat - b.length) 0) b.length)

/-! ## Where values and memory agree -/

/-- The names that an expression mentions. -/
def idents (e : Expr) : List String :=
  e.collect fun
    | .ident x => [x]
    | _ => []

/-- The value of a shape depends on no `let` but the ones that it mentions. -/
def Reads (other : Env → Expr → Option Datum) : Prop :=
  ∀ (env env' : Env) (e : Expr), (∀ f, env (.input f) = env' (.input f)) →
    (∀ f, env (.state f) = env' (.state f)) →
    (∀ x ∈ idents e, env (.bound x) = env' (.bound x)) → other env e = other env' e

/-- Is this the key of a field of the request? -/
def RequestKey (protocol : Protocol) (r : Request) (x : String) : Prop :=
  ∃ f, (r.field f).isSome ∧ x = requestKey protocol f

/-- The names that a handler binds or mentions. -/
def Handler.names (h : Handler) : List String :=
  h.lets.map (·.1) ++ h.lets.flatMap (fun l => idents l.2) ++ idents h.response ++
    h.sets.flatMap fun set => idents set.value

/-- The `let`s have distinct names, and no name is the key of a field of the request. -/
def Distinct (protocol : Protocol) (h : Handler) (r : Request) : Prop :=
  (h.lets.map (·.1)).Nodup ∧ ∀ x ∈ h.names, ¬RequestKey protocol r x

/-- The state fields whose buffers the value of an expression may look into, from those of the
`let`s. -/
def looksInto (h : Handler) (roots : Dict String (List String)) : Expr → List String
  | .ident x => (roots.lookup x).getD []
  | .field (.ident base) fname =>
    match accessKey h.inputName base fname with
    | some (.state f) => [f]
    | _ => []
  | .ite _ yes no => looksInto h roots yes ++ looksInto h roots no
  | .substring text _ _ => looksInto h roots text
  | _ => []

/-- The state fields whose buffers the `let`s may look into. -/
def letRoots (h : Handler) : List (String × Expr) → Dict String (List String) →
    Dict String (List String)
  | [], roots => roots
  | (x, e) :: lets, roots => letRoots h lets (roots.insert x (looksInto h roots e))

/-- No assignment mentions a `let` that may look into a buffer that is overwritten before it. -/
def NoStale (roots : Dict String (List String)) : List String → List StateSet → Prop
  | _, [] => True
  | written, set :: sets =>
    (∀ x ∈ idents set.value, ∀ f ∈ (roots.lookup x).getD [], f ∉ written) ∧
      NoStale roots (set.fieldName :: written) sets

instance NoStale.decidable (roots : Dict String (List String)) :
    ∀ written sets, Decidable (NoStale roots written sets)
  | _, [] => isTrue trivial
  | written, set :: sets =>
    haveI := NoStale.decidable roots (set.fieldName :: written) sets
    inferInstanceAs (Decidable (_ ∧ _))

/-- The condition on a handler. -/
def Handler.NoStale (h : Handler) : Prop :=
  ServiceState.NoStale (letRoots h h.lets []) [] h.sets

instance (h : Handler) : Decidable h.NoStale :=
  inferInstanceAs (Decidable (ServiceState.NoStale (letRoots h h.lets []) [] h.sets))

end Verbosec.Native.ServiceState
