import Verbosec.Syntax
import Verbosec.Lib.Transition

/-!
# Checks on request data in the accept loop

* `Emitter`, `inScope` - the scope that collects the jumps of failed checks while code is emitted.
* `emitEval`, `emitEach` - the jumps of an expression, and the code around it in a fetch, a `let`, a
  log block and an assignment.
* `compile` - the code from the accept to the jump back, and where each jump is patched to.
* `Machine`, `Step` - the registers, the descriptors and the state, and what one piece of code does
  to them; the values, the outcome of every check and of every system call are left open.
* `service` - the runs; `settled` - the runs in which a check fails only while no assignment of its
  request has changed a field.

Source: `native.rs`, `ClientAbortScope`, `route_client_abort`, `patch_client_abort_sites`,
`emit_connection_fetch_sequence`, `emit_append_file_call`, `emit_after_block` and the accept loop of
`compile_http10_dynamic_service`.
-/

namespace Verbosec.Native.ClientAbort

open Verbosec.Lib

/-! ## Code -/

/-- The position of a jump that is patched later. -/
abbrev Site := Nat

/-- What happens when a system call fails. -/
inductive Policy where
  /-- the process exits -/
  | abort
  /-- the call is as good as made -/
  | drop
  deriving DecidableEq

/-- The places that are jumped to. -/
inductive Label where
  /-- `accept_top` -/
  | acceptTop
  /-- `close_label` -/
  | close
  /-- the stub that closes `r15` first -/
  | closeR15
  /-- `abort_label` -/
  | abort
  deriving DecidableEq

/-- The pieces of the code of the accept loop. -/
inductive Instr where
  /-- the accept; the descriptor goes to its slot in the frame -/
  | accept
  /-- the request is read and parsed; a malformed one goes to the close label -/
  | receive
  /-- a system call on no descriptor of its own, the draw of an entropy among them -/
  | call
  /-- `socket` and `connect`, or `open`; the descriptor goes to `r15` -/
  | openR15 (policy : Policy)
  /-- `write` and `read` on `r15` -/
  | io (policy : Policy)
  /-- `close` of `r15` -/
  | closeR15
  /-- the code of an expression: the jumps of its checks, and whether a check of it exits inline -/
  | eval (sites : List Site) (exits : Bool)
  /-- the response is written -/
  | respond
  /-- the store of an assignment -/
  | store (field : String)
  /-- `close` of the descriptor in the frame -/
  | closeClient
  /-- `lea rsp, [rbp - frame_size]` -/
  | resetRsp
  | jump (l : Label)
  | exit (status : Nat)

/-- What is emitted: the code from `accept_top`, from the close label and of the stub, and where the
jumps of the checks go; a jump that is not patched goes to what follows it. -/
structure Program where
  main : List Instr
  close : List Instr
  stub : List Instr
  target : Site → Option Label

/-- The code at a label. -/
def Program.code (p : Program) : Label → List Instr
  | .acceptTop => p.main
  | .close => p.close
  | .closeR15 => p.stub
  | .abort => [.exit 1]

/-! ## Scopes -/

/-- What the emitter keeps: the length of the code and the jumps that the open scope has recorded.
Source: `native.rs`, `CLIENT_ABORT_SITES` -/
structure Emitter where
  size : Nat
  scope : Option (List Site)

/-- The jumps of a check are recorded where a scope is open. Source: `native.rs`,
`route_client_abort` -/
def Emitter.routeClientAbort (s : Emitter) (sites : List Site) : Bool × Emitter :=
  match s.scope with
  | some recorded => (true, { s with scope := some (recorded ++ sites) })
  | none => (false, s)

/-- What is emitted in a scope, the jumps that the scope has recorded, and the emitter with the scope
before it. Source: `native.rs`, `ClientAbortScope` -/
def inScope (emit : Emitter → List Instr × Emitter) (s : Emitter) :
    List Instr × List Site × Emitter :=
  let out := emit { s with scope := some [] }
  (out.1, out.2.scope.getD [], { out.2 with scope := s.scope })

/-- Where jumps go after some of them are patched. Source: `native.rs`,
`patch_client_abort_sites` -/
def patchClientAbortSites (target : Site → Option Label) (sites : List Site) (l : Label) :
    Site → Option Label := fun site => if site ∈ sites then some l else target site

/-! ## Expressions -/

/-- A check in the code of an expression: how many jumps it has (one of `byte_at`, two of
`substring`, three of `parse_int`), and whether it is a `parse_int` of a resource. -/
structure Check where
  jumps : Nat
  isResource : Bool

/-- The jumps of some checks. A check of a resource, and any check outside a scope, exits inline.
Source: `native.rs`, the arm `ByteAt` of `emit_eval_expr`, `emit_substring_bounds_and_slice`,
`emit_length` and `emit_parse_int` -/
def emitChecks : List Check → Emitter → (List Site × Bool) × Emitter
  | [], s => (([], false), s)
  | c :: cs, s =>
    let sites := List.range' s.size c.jumps
    let s := { s with size := s.size + c.jumps }
    if c.isResource then
      let out := emitChecks cs s
      ((out.1.1, true), out.2)
    else
      let routed := s.routeClientAbort sites
      let out := emitChecks cs routed.2
      if routed.1 then ((sites ++ out.1.1, out.1.2), out.2) else ((out.1.1, true), out.2)

section compile

variable (emitted : Expr → List Check)

/-- The code of an expression. -/
def emitEval (e : Expr) (s : Emitter) : Instr × Emitter :=
  let out := emitChecks (emitted e) s
  (.eval out.1.1 out.1.2, out.2)

/-- The code of several expressions, each with the code around it. -/
def emitEach {β : Type} (expr : β → Expr) (wrap : β → Instr → List Instr) :
    List β → Emitter → List Instr × Emitter
  | [], s => ([], s)
  | b :: bs, s =>
    let first := emitEval emitted (expr b) s
    let out := emitEach expr wrap bs first.2
    (wrap b first.1 ++ out.1, out.2)

/-- What a service does with a request. -/
structure Parts where
  /-- how many resources are read for each request -/
  resources : Nat
  /-- the request bytes of the connections, each a `socket`, a `connect`, a `write` and a `read` -/
  requests : List Expr
  /-- how many entropies are drawn for each request -/
  entropies : Nat
  /-- the `let`s of the handler -/
  lets : List Expr
  /-- the response -/
  body : Expr
  /-- the log blocks -/
  logs : List (Policy × Expr)
  /-- the assignments of the `after` block -/
  sets : List StateSet

/-- The fetches. Source: `native.rs`, `emit_connection_fetch_sequence` -/
def emitFetches : List Expr → Emitter → List Instr × Emitter :=
  emitEach emitted id fun _ i => [.openR15 .abort, i, .io .abort, .closeR15]

/-- The `let`s and the response. Source: `native.rs`, the handler `let` bindings and
`emit_handler_to_slots` -/
def emitHandler : List Expr → Emitter → List Instr × Emitter :=
  emitEach emitted id fun _ i => [i]

/-- The log blocks. Source: `native.rs`, `emit_append_file_call` -/
def emitLogs : List (Policy × Expr) → Emitter → List Instr × Emitter :=
  emitEach emitted (·.2) fun log i => [.openR15 log.1, i, .io log.1, .closeR15]

/-- The assignments. Source: `native.rs`, `emit_after_block` -/
def emitSets : List StateSet → Emitter → List Instr × Emitter :=
  emitEach emitted (·.value) fun set i => [i, .store set.fieldName]

/-- The code of the accept loop. Source: `native.rs`, `compile_http10_dynamic_service` -/
def compile (p : Parts) : Program :=
  let fetches := inScope (emitFetches emitted p.requests) ⟨0, none⟩
  let handler := inScope (emitHandler emitted (p.lets ++ [p.body])) fetches.2.2
  let logs := inScope (emitLogs emitted p.logs) handler.2.2
  let after := inScope (emitSets emitted p.sets) logs.2.2
  let r15AbortSites := fetches.2.1 ++ logs.2.1
  let close := [.closeClient, .resetRsp, .jump .acceptTop]
  { main := [.accept] ++
      (List.replicate p.resources [.openR15 .abort, .io .abort, .closeR15]).flatten ++ [.receive] ++
      fetches.1 ++ List.replicate p.entropies .call ++ handler.1 ++ logs.1 ++ [.respond] ++
      after.1 ++ close
    close := close
    stub := if r15AbortSites = [] then [] else [.closeR15, .jump .close]
    target := patchClientAbortSites
      (patchClientAbortSites (fun _ => none) (handler.2.1 ++ after.2.1) .close)
      r15AbortSites .closeR15 }

end compile

/-! ## Runs -/

/-- The registers, the frame, the descriptors and the state of the process. -/
structure Machine (α : Type) where
  /-- the code that is left to run -/
  rest : List Instr
  /-- the bytes between `rsp` and where it stands at `accept_top` -/
  rsp : Nat
  /-- the open descriptors -/
  fds : List Nat
  /-- descriptors that were closed while they were not open -/
  stray : List Nat
  /-- the listening socket, `r12` -/
  listener : Nat
  /-- the slot of the connection in the frame -/
  client : Option Nat
  /-- `r15`; a failed system call leaves no descriptor -/
  r15 : Option Nat
  /-- the state fields -/
  state : String → α
  /-- the status of the process, once it has exited -/
  exited : Option Nat
  /-- has a check on data of the last request failed? -/
  failed : Bool
  /-- has an assignment of the last request changed a field? -/
  stored : Bool
  /-- the state when the last request was accepted -/
  stateBefore : String → α

variable {α : Type}

/-- The system call `close`. -/
def Machine.close (m : Machine α) : Option Nat → Machine α
  | none => m
  | some fd =>
    if fd ∈ m.fds then { m with fds := m.fds.erase fd } else { m with stray := fd :: m.stray }

/-- The registers and ghosts when a connection is accepted. -/
def Machine.accepted (m : Machine α) : Machine α :=
  { m with failed := false, stored := false, stateBefore := m.state }

/-- What a piece of code does. -/
inductive Step (p : Program) : Machine α → Machine α → Prop
  | accept {m c fd} : m.rest = .accept :: c → fd ∉ m.fds →
      Step p m { m.accepted with rest := c, fds := fd :: m.fds, client := some fd }
  | acceptFails {m c} : m.rest = .accept :: c →
      Step p m { m.accepted with rest := c, client := none }
  | acceptAborts {m c} : m.rest = .accept :: c →
      Step p m { m.accepted with rest := p.code .abort }
  | acceptStops {m c} : m.rest = .accept :: c → Step p m { m.accepted with rest := [.exit 0] }
  | receive {m c} : m.rest = .receive :: c → Step p m { m with rest := c }
  | malformed {m c} : m.rest = .receive :: c → Step p m { m with rest := p.code .close }
  | call {m c} : m.rest = .call :: c → Step p m { m with rest := c }
  | callAborts {m c} : m.rest = .call :: c → Step p m { m with rest := p.code .abort }
  | openR15 {m c policy fd} : m.rest = .openR15 policy :: c → fd ∉ m.fds →
      Step p m { m with rest := c, fds := fd :: m.fds, r15 := some fd }
  | openDrops {m c} : m.rest = .openR15 .drop :: c → Step p m { m with rest := c, r15 := none }
  | openAborts {m c} : m.rest = .openR15 .abort :: c →
      Step p m { m with rest := p.code .abort }
  | io {m c policy} : m.rest = .io policy :: c → Step p m { m with rest := c }
  | ioAborts {m c} : m.rest = .io .abort :: c → Step p m { m with rest := p.code .abort }
  | closeR15 {m c} : m.rest = .closeR15 :: c → Step p m { m.close m.r15 with rest := c }
  | eval {m c sites exits depth} : m.rest = .eval sites exits :: c →
      Step p m { m with rest := c, rsp := depth }
  | checkFails {m c sites exits site l depth} : m.rest = .eval sites exits :: c → site ∈ sites →
      p.target site = some l →
      Step p m { m with rest := p.code l, rsp := depth, failed := true }
  | resourceExits {m c sites} : m.rest = .eval sites true :: c →
      Step p m { m with rest := [.exit 1] }
  | respond {m c} : m.rest = .respond :: c → Step p m { m with rest := c }
  | respondFails {m c} : m.rest = .respond :: c → Step p m { m with rest := p.code .close }
  | storeSame {m c f} : m.rest = .store f :: c → Step p m { m with rest := c }
  | storeNew {m c f v} : m.rest = .store f :: c → v ≠ m.state f →
      Step p m { m with rest := c, state := Function.update m.state f v, stored := true }
  | storeAborts {m c f} : m.rest = .store f :: c → Step p m { m with rest := p.code .abort }
  | closeClient {m c} : m.rest = .closeClient :: c → Step p m { m.close m.client with rest := c }
  | resetRsp {m c} : m.rest = .resetRsp :: c → Step p m { m with rest := c, rsp := 0 }
  | jump {m c l} : m.rest = .jump l :: c → Step p m { m with rest := p.code l }
  | exit {m c status} : m.rest = .exit status :: c →
      Step p m { m with rest := [], exited := some status }

/-- The process at the first `accept_top`. -/
structure Machine.Starts (p : Program) (m : Machine α) : Prop where
  rest : m.rest = p.main
  rsp : m.rsp = 0
  nodup : m.fds.Nodup
  listener : m.listener ∈ m.fds
  stray : m.stray = []
  exited : m.exited = none
  failed : m.failed = false
  stateBefore : m.stateBefore = m.state

/-- The runs of a service from one start. -/
def service (p : Program) (start : Machine α) : System (Machine α) where
  init := (· = start)
  step := Step p

/-- The runs in which a check fails only while no assignment of its request has changed a field. -/
def settled (p : Program) (start : Machine α) : System (Machine α) where
  init := (· = start)
  step m m' := Step p m m' ∧ (m'.failed = true → m.failed = false → m.stored = false)

end Verbosec.Native.ClientAbort
