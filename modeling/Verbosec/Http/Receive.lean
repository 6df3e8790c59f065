import Verbosec.Http.Framing
import Verbosec.Lib.Transition
import Verbosec.Lib.Word

/-!
# The receive loop

* `Receiver` - the slots of one connection and the stored bytes of its request buffer.
* `scanByte`, `scanStep`, `bodyStep` - the instructions after a read: one table transition with its
  actions, and the test for a complete body.
* `Step`, `receive` - the loop as a transition system over a byte stream. A read returns any nonempty
  part of the unread stream that fits the room it is given, or nothing at the end of the stream, or
  asks to be repeated.

Slots are 64-bit words, so that sums wrap; immediates are sign extended. `Pc.fault` stands for an
access outside the buffer. Deadlines and socket errors end the loop in `failed` from every read and
are left out: they only ever drop a connection.

Source: `native/http_io.rs`, `receive`.
-/

namespace Verbosec.Http

open Verbosec.Lib

/-! ## One connection -/

/-- The slots of a connection. Source: `native/http_io.rs`, `Io` -/
structure Receiver where
  /-- the bytes stored at the start of the request buffer -/
  buffer : List UInt8 := []
  /-- the number of bytes received. Source: `Io::have` -/
  received : Nat := 0
  /-- the number of bytes scanned -/
  scan : Nat := 0
  /-- the state of the machine -/
  state : Nat := startState
  /-- the body length so far -/
  length : Nat := 0
  /-- has a body length been declared? -/
  seen : Nat := 0
  /-- the length of the request, once its header is complete -/
  total : Nat := 0
  /-- the length of the target so far -/
  path : Nat := 0
  deriving DecidableEq, Repr

/-- Where the loop is. Source: the labels of `native/http_io.rs`, `receive` -/
inductive Pc where
  | read
  | scan
  | checkBody
  | complete
  /-- the connection is dropped. Source: label zero -/
  | failed
  /-- an access outside the request buffer -/
  | fault
  deriving DecidableEq, Repr

/-- A transition on a byte of the target. Source: `native/http_io.rs`, `receive` -/
def targetAction (action : Nat) (r : Receiver) : Option Receiver :=
  if action &&& targetFlag = 0 then some r
  else if imm 256 < word (r.path + 1) then none
  else some { r with path := word (r.path + 1) }

/-- A transition that starts a body length. Source: `native/http_io.rs`, `receive` -/
def lengthAction (action : Nat) (r : Receiver) : Option Receiver :=
  if action &&& lengthFlag = 0 then some r
  else if r.seen ≠ 0 then none
  else some { r with seen := 1 }

/-- A transition on a digit of a body length. Source: `native/http_io.rs`, `receive` -/
def digitAction (capacity action : Nat) (b : UInt8) (r : Receiver) : Option Receiver :=
  if action &&& digitFlag = 0 then some r
  else
    let length := word (word (r.length * 10) + wordSub b.toNat 48)
    if imm capacity < length then none else some { r with length := length }

/-- One byte through the machine; `none` drops the connection. Source: `native/http_io.rs`,
`receive`, from the label `scan` -/
def scanByte (capacity : Nat) (r : Receiver) (b : UInt8) : Option Receiver :=
  let action := table.entry r.state b
  if action = 0 then none
  else do
    let r := { r with scan := word (r.scan + 1), state := action &&& stateMask }
    let r ← targetAction action r
    let r ← lengthAction action r
    digitAction capacity action b r

/-- The machine at the label `scan`. Source: `native/http_io.rs`, `receive` -/
def scanStep (capacity : Nat) (r : Receiver) : Pc × Receiver :=
  if r.received ≤ r.scan then (.read, r)
  else
    match r.buffer[r.scan]? with
    | none => (.fault, r)
    | some b =>
        match scanByte capacity r b with
        | none => (.failed, r)
        | some r =>
            if r.state = doneState then
              if imm capacity < word (r.scan + r.length) then (.failed, r)
              else (.checkBody, { r with total := word (r.scan + r.length) })
            else (.scan, r)

/-- The machine at the label `check_body`. Source: `native/http_io.rs`, `receive` -/
def bodyStep (r : Receiver) : Pc × Receiver :=
  if r.total ≤ r.received then (.complete, r) else (.read, r)

/-- The room that a read is given. Source: `native/http_io.rs`, `receive`, from the label `read` -/
def room (capacity : Nat) (r : Receiver) : Nat := wordSub (imm capacity) r.received

/-- The bytes of a read, stored behind those received so far; outside the buffer this is a fault.
Source: `native/http_io.rs`, `receive`, after `recvfrom` -/
def store (capacity : Nat) (r : Receiver) (chunk : List UInt8) : Pc × Receiver :=
  let r' := { r with
    buffer := r.buffer.take r.received ++ chunk
    received := word (r.received + chunk.length) }
  if capacity < r.received + chunk.length then (.fault, r')
  else (if r.total ≠ 0 then .checkBody else .scan, r')

/-! ## The loop -/

/-- A connection: where the loop is, its slots, and the unread part of the stream. -/
structure Connection where
  /-- the program counter -/
  pc : Pc
  /-- the slots -/
  slots : Receiver
  /-- the unread part of the stream -/
  rest : List UInt8
  deriving DecidableEq, Repr

/-- One step of a connection. Source: `native/http_io.rs`, `receive` -/
inductive Step (capacity : Nat) : Connection → Connection → Prop
  /-- the buffer is full -/
  | full {r rest} (h : signed (room capacity r) ≤ 0) : Step capacity ⟨.read, r, rest⟩ ⟨.failed, r, rest⟩
  /-- the read was interrupted, or has to wait for the stream -/
  | again {r rest} (h : 0 < signed (room capacity r)) :
      Step capacity ⟨.read, r, rest⟩ ⟨.read, r, rest⟩
  /-- the stream has ended -/
  | closed {r} (h : 0 < signed (room capacity r)) :
      Step capacity ⟨.read, r, []⟩ ⟨.failed, r, []⟩
  /-- a read returns a nonempty chunk of the stream -/
  | read {r chunk rest} (h : 0 < signed (room capacity r)) (hne : chunk ≠ [])
      (hroom : chunk.length ≤ room capacity r) :
      Step capacity ⟨.read, r, chunk ++ rest⟩
        ⟨(store capacity r chunk).1, (store capacity r chunk).2, rest⟩
  /-- the next byte is scanned -/
  | scan {r rest} :
      Step capacity ⟨.scan, r, rest⟩ ⟨(scanStep capacity r).1, (scanStep capacity r).2, rest⟩
  /-- the body is complete or not -/
  | body {r rest} : Step capacity ⟨.checkBody, r, rest⟩ ⟨(bodyStep r).1, (bodyStep r).2, rest⟩

/-- The receive loop on a stream. Source: `native/http_io.rs`, `receive` -/
def receive (capacity : Nat) (stream : List UInt8) : System Connection where
  init := (· = ⟨.read, {}, stream⟩)
  step := Step capacity

end Verbosec.Http
