import Mathlib.Data.Nat.Bitwise
import Verbosec.Lib.Transition

/-!
# Conversations of several steps

* `StepService` - a service with `max_steps`: its bounds, its state and the code of its handler.
* `Frame`, `Parent`, `Child` - the frame of a process, the process that accepts, a forked one.
* `ParentStep`, `ChildStep` - one system call with the instructions up to the next one.
* `stepService` - the runs of the parent with its children, in any order.
* `StepService.stateAfter`, `StepService.responses` - the state and the bytes that a conversation
  alone gives.

A child has its own copy of the frame. What the code of a handler does depends on the request and the
state block, which it finds in the frame; the slots of its `let`s are written before they are read.

Source: `native.rs`, `emit_raw_tcp_dynamic_bytes`, `emit_fork_dispatch`, `emit_state_init`.
-/

namespace Verbosec.Native.StepLoop

open Verbosec.Lib

/-! ## Services -/

/-- What the code of a handler does on its way. -/
inductive Action where
  /-- bytes are handed to the kernel for the client -/
  | write (bytes : List UInt8)
  /-- the stack grows, or shrinks -/
  | push (size : Int)
  deriving DecidableEq

/-- How a run of the handler ends. -/
inductive Ending (σ : Type) where
  /-- behind the `after` block -/
  | after (state : σ)
  /-- at a check on the request. Source: `patch_client_abort_sites` -/
  | clientAbort
  /-- at the check of a copy to a state field -/
  | operatorAbort

/-- A service whose connections have several steps. -/
structure StepService (σ : Type) where
  maxSteps : Nat
  /-- Source: `parser.rs`, `max_steps` -/
  steps : 1 ≤ maxSteps ∧ maxSteps ≤ 65535
  maxRequest : Nat
  frameSize : Int
  /-- the declared initial state. Source: `emit_state_init` -/
  initial : σ
  /-- the `let`s, the response and the `after` block, for a request and a state -/
  handle : List UInt8 → σ → List Action × Ending σ

/-! ## Processes -/

/-- The slots of a frame and the read buffer. -/
structure Frame (σ : Type) where
  /-- `[rbp-48]` -/
  clientFd : Int
  /-- `[rbp-56]` -/
  step : Nat
  /-- `[rbp-16]` -/
  reqLen : Nat
  /-- the state block -/
  state : σ
  /-- the read buffer, whose address is in `[rbp-8]` -/
  buffer : List UInt8

/-- The request that the handler finds. -/
def Frame.request {σ : Type} (f : Frame σ) : List UInt8 := f.buffer.take f.reqLen

/-- The frame with the bytes of a read. -/
def Frame.received {σ : Type} (f : Frame σ) (bytes : List UInt8) : Frame σ :=
  { f with buffer := bytes ++ f.buffer.drop bytes.length, reqLen := bytes.length }

/-- Where the parent is. Source: the labels of the accept loop and of `emit_fork_dispatch` -/
inductive ParentPc where
  | accept
  | fork
  /-- the message that no process was forked -/
  | forkError
  /-- the descriptor is closed -/
  | close
  deriving DecidableEq

/-- The number of system calls to the next `accept`. -/
def ParentPc.distance : ParentPc → Nat
  | accept => 0
  | close => 1
  | forkError => 2
  | fork => 3

/-- The process that accepts. -/
structure Parent (σ : Type) where
  pc : ParentPc
  frame : Frame σ
  /-- the stack pointer, from `rbp` on -/
  rsp : Int
  /-- the results of `accept` -/
  accepted : List Int
  /-- the descriptors that were closed -/
  closed : List Int

/-- Where a child is. Source: the labels of `emit_raw_tcp_dynamic_bytes` -/
inductive ChildPc (σ : Type) where
  /-- the time limit of the reads -/
  | setTimeout
  /-- the step counter is cleared -/
  | clearStep
  | stepTop
  | read
  /-- the handler, with what remains to be done -/
  | run (actions : List Action) (ending : Ending σ)
  | stepTail
  | close
  /-- the process has ended -/
  | ended

/-- A forked process. -/
structure Child (σ : Type) where
  /-- the place of its connection among the accepted ones -/
  connection : Nat
  pc : ChildPc σ
  frame : Frame σ
  /-- the stack pointer, from `rbp` on -/
  rsp : Int
  /-- the bytes of every read; none at the end of the input, after the time limit or an error -/
  reads : List (List UInt8)
  /-- the request and the state that every run of the handler has found -/
  runs : List (List UInt8 × σ)
  /-- the bytes that were handed to the kernel for the client, write by write -/
  written : List (List UInt8)

/-- The parent and its children. -/
structure World (σ : Type) where
  parent : Parent σ
  children : List (Child σ)

variable {σ : Type} (s : StepService σ)

/-! ## Steps -/

/-- The child of a fork. -/
def Parent.forked (p : Parent σ) : Child σ where
  connection := p.accepted.length - 1
  pc := .setTimeout
  frame := p.frame
  rsp := p.rsp
  reads := []
  runs := []
  written := []

/-- One system call of the parent. Source: the accept loop of `emit_raw_tcp_dynamic_bytes` and
`emit_fork_dispatch` -/
inductive ParentStep : World σ → World σ → Prop
  | accept {p cs} (hpc : p.pc = .accept) (fd : Int) :
      ParentStep ⟨p, cs⟩ ⟨{ p with
        pc := .fork, frame := { p.frame with clientFd := fd }, accepted := p.accepted ++ [fd] }, cs⟩
  | fork {p cs} (hpc : p.pc = .fork) :
      ParentStep ⟨p, cs⟩ ⟨{ p with pc := .close }, cs ++ [p.forked]⟩
  | forkFails {p cs} (hpc : p.pc = .fork) : ParentStep ⟨p, cs⟩ ⟨{ p with pc := .forkError }, cs⟩
  | forkError {p cs} (hpc : p.pc = .forkError) : ParentStep ⟨p, cs⟩ ⟨{ p with pc := .close }, cs⟩
  | close {p cs} (hpc : p.pc = .close) :
      ParentStep ⟨p, cs⟩
        ⟨{ p with pc := .accept, closed := p.closed ++ [p.frame.clientFd] }, cs⟩

/-- One step of a child, up to the next system call or the next action of its handler. Source: the
step loop of `emit_raw_tcp_dynamic_bytes` -/
inductive ChildStep : Child σ → Child σ → Prop
  | setTimeout {c} (hpc : c.pc = .setTimeout) :
      ChildStep c { c with pc := .clearStep, rsp := c.rsp - 16 }
  | clearStep {c} (hpc : c.pc = .clearStep) :
      ChildStep c { c with pc := .stepTop, rsp := c.rsp + 16, frame := { c.frame with step := 0 } }
  /-- all steps are used -/
  | stepCap {c} (hpc : c.pc = .stepTop) (hcap : s.maxSteps ≤ c.frame.step) :
      ChildStep c { c with pc := .close }
  | step {c} (hpc : c.pc = .stepTop) (hcap : c.frame.step < s.maxSteps) :
      ChildStep c { c with
        pc := .read, frame := { c.frame with step := (c.frame.step + 1) % 2 ^ 64 } }
  /-- the end of the input, the time limit, or an error -/
  | readFails {c} (hpc : c.pc = .read) :
      ChildStep c { c with pc := .close, reads := c.reads ++ [[]] }
  | read {c} (hpc : c.pc = .read) (bytes : List UInt8) (hpos : bytes ≠ [])
      (hsize : bytes.length ≤ s.maxRequest) :
      ChildStep c { c with
        pc := .run (s.handle (c.frame.received bytes).request c.frame.state).1
          (s.handle (c.frame.received bytes).request c.frame.state).2
        frame := c.frame.received bytes
        reads := c.reads ++ [bytes]
        runs := c.runs ++ [((c.frame.received bytes).request, c.frame.state)] }
  | write {c bytes actions ending} (hpc : c.pc = .run (.write bytes :: actions) ending) :
      ChildStep c { c with pc := .run actions ending, written := c.written ++ [bytes] }
  | push {c size actions ending} (hpc : c.pc = .run (.push size :: actions) ending) :
      ChildStep c { c with pc := .run actions ending, rsp := c.rsp - size }
  | after {c state} (hpc : c.pc = .run [] (.after state)) :
      ChildStep c { c with pc := .stepTail, frame := { c.frame with state := state } }
  | clientAbort {c} (hpc : c.pc = .run [] .clientAbort) : ChildStep c { c with pc := .close }
  | operatorAbort {c} (hpc : c.pc = .run [] .operatorAbort) : ChildStep c { c with pc := .ended }
  | stepTail {c} (hpc : c.pc = .stepTail) :
      ChildStep c { c with pc := .stepTop, rsp := -s.frameSize }
  | close {c} (hpc : c.pc = .close) : ChildStep c { c with pc := .ended }
  /-- a signal ends the process -/
  | killed {c} : ChildStep c { c with pc := .ended }

/-- One step of a world: the parent's, or that of one child. -/
inductive Step : World σ → World σ → Prop
  | parent {w w'} (h : ParentStep w w') : Step w w'
  | child {p before c c' after} (h : ChildStep s c c') :
      Step ⟨p, before ++ c :: after⟩ ⟨p, before ++ c' :: after⟩

/-- The frame behind the start-up; nothing but the state block is set. Source: `emit_state_init` -/
def startFrame (stale : Frame σ) : Frame σ := { stale with state := s.initial }

/-- The world before the first `accept`. -/
def start (stale : Frame σ) : World σ where
  parent :=
    { pc := .accept, frame := startFrame s stale, rsp := -s.frameSize, accepted := [], closed := [] }
  children := []

/-- The runs of a service. -/
def stepService (stale : Frame σ) : System (World σ) where
  init w := w = start s stale
  step := Step s

/-! ## A conversation alone -/

namespace StepService

/-- The state behind the `after` block of a run. -/
def next (request : List UInt8) (state : σ) : Option σ :=
  match (s.handle request state).2 with
  | .after state' => some state'
  | _ => none

/-- The state behind the `after` blocks of the runs for some requests. -/
def stateAfter : List (List UInt8) → σ → Option σ
  | [], state => some state
  | request :: requests, state => (s.next request state).bind (stateAfter requests)

/-- The bytes of the writes among some actions. -/
def writes : List Action → List (List UInt8)
  | [] => []
  | .write bytes :: actions => bytes :: writes actions
  | .push _ :: actions => writes actions

/-- The bytes that the runs for some requests hand to the kernel, write by write. -/
def responses : List (List UInt8) → σ → List (List UInt8)
  | [], _ => []
  | request :: requests, state =>
    writes (s.handle request state).1 ++ ((s.next request state).map (responses requests)).getD []

end StepService

end Verbosec.Native.StepLoop
