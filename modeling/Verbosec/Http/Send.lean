import Mathlib.Data.Nat.Bitwise
import Verbosec.Lib.Bytes
import Verbosec.Lib.Transition

/-!
# The response

* `BodySource`, `handlerSlots` - the slots that a handler leaves, arm by arm.
* `serialize`, `itoa` - the six segments of a response, and the digits of the numbers among them.
* `Sender`, `Step` - a response on its way: one system call with the instructions up to the next one.
* `sender` - the runs of a response, with a time limit or without one.

Addresses are numbers that do not wrap. Without a time limit every `write` transfers its whole
segment.

Source: `native.rs`, `emit_handler_to_slots`, `emit_http_serialize`; `native/http_io.rs`,
`start_response`, `send`.
-/

namespace Verbosec.Http.Send

open Verbosec.Lib Verbosec.Lib.Bytes

/-! ## What the handler leaves -/

/-- The slots `[rbp-24]`, `[rbp-32]` and `[rbp-40]`. -/
structure Slots where
  status : Nat
  bodyPtr : Nat
  bodyLen : Nat

/-- Where the code of a body finds it. Source: `native.rs`, the arms of `emit_handler_to_slots` -/
inductive BodySource where
  /-- a text literal in the code -/
  | literal (bytes : List UInt8)
  /-- a field of the request, which ends at a zero byte -/
  | field (ptr : Nat)
  /-- an address with a length: the buffer of a `concat`, a text of the state, a resource, a response
  of a connection -/
  | pair (ptr len : Nat)

/-- The number of bytes before the first zero byte, among the next `k` ones. Source: `repne scasb` -/
def strlen (m : Nat → UInt8) (p : Nat) : Nat → Nat
  | 0 => 0
  | k + 1 => if m p = 0 then 0 else strlen m (p + 1) k + 1

/-- The slots behind a handler whose status is `status`. A literal is at `lit` in the code. Source:
`native.rs`, `emit_handler_to_slots` -/
def handlerSlots (lit : List UInt8 → Nat) (m : Nat → UInt8) (status : Int) : BodySource → Slots
  | .literal bytes => ⟨(status % 2 ^ 64).toNat, lit bytes, bytes.length⟩
  | .field ptr => ⟨(status % 2 ^ 64).toNat, ptr, strlen m ptr (2 ^ 64 - 1)⟩
  | .pair ptr len => ⟨(status % 2 ^ 64).toNat, ptr, len⟩

/-! ## Segments -/

/-- The loop for the digits of a number, from the last one on. Source: `native.rs`,
`emit_write_itoa_slot` -/
def itoaLoop (n : Nat) (tail : List UInt8) : List UInt8 :=
  if h : n / 10 = 0 then UInt8.ofNat (n % 10 + 48) :: tail
  else itoaLoop (n / 10) (UInt8.ofNat (n % 10 + 48) :: tail)
termination_by n
decreasing_by omega

/-- The digits of a number. Source: `native.rs`, `emit_write_itoa_slot` -/
def itoa (n : Nat) : List UInt8 := if n = 0 then [0x30] else itoaLoop n []

/-- A part of a response. -/
inductive Segment where
  /-- Source: `emit_write_literal` -/
  | literal (bytes : List UInt8)
  /-- Source: `emit_write_itoa_slot` -/
  | number (value : Nat)
  /-- Source: `emit_write_body_ptr_len` -/
  | span (start length : Nat)

/-- The bytes of an ASCII text. -/
def ascii (s : String) : List UInt8 := s.toList.map fun c => UInt8.ofNat c.toNat

/-- The segments of a response. Source: `native.rs`, `emit_http_serialize` -/
def serialize (d : Slots) : List Segment :=
  [.literal (ascii "HTTP/1.0 "), .number d.status, .literal (ascii " OK\r\nContent-Length: "),
    .number d.bodyLen, .literal (ascii "\r\n\r\n"), .span d.bodyPtr d.bodyLen]

/-! ## Sending -/

/-- How the responses of a service are sent. -/
structure Transport where
  /-- the time limit of a response. Source: `response_timeout` -/
  seconds : Option Nat
  /-- does every connection have its own process? -/
  forked : Bool
  /-- the stack pointer at the top of the accept loop -/
  top : Nat
  /-- where the code has a literal -/
  lit : List UInt8 → Nat

/-- Where a response is. Source: the labels of `native/http_io.rs`, `send` -/
inductive Pc where
  /-- the clock that sets the deadline -/
  | startResponse
  /-- the next segment -/
  | segment
  | retry
  | send
  | blocked
  | poll
  /-- the system call without a time limit -/
  | write
  /-- the end of a segment. Source: the label `done` -/
  | segmentDone
  | close
  /-- behind the close -/
  | reset
  /-- the next connection, or the end of the process -/
  | ended
  deriving DecidableEq

/-- A response on its way. -/
structure Sender where
  pc : Pc
  /-- the segments from the one in work on -/
  rest : List Segment
  memory : Nat → UInt8
  rsp : Nat
  /-- Source: `Io::ptr` -/
  ptr : Nat
  /-- Source: `Io::left` -/
  left : Nat
  /-- when the time limit has started -/
  started : Int
  /-- Source: `Io::deadline` -/
  deadline : Int
  /-- the last reading of the clock -/
  now : Int
  /-- the bytes that the kernel has taken -/
  sent : List UInt8
  /-- has the connection failed? -/
  failed : Bool
  closed : Bool

/-- The bytes in the memory. -/
def readBytes (m : Nat → UInt8) (a k : Nat) : List UInt8 := (List.range k).map fun i => m (a + i)

namespace Sender

/-- A jump to the failure boundary. Source: label zero -/
def fail (x : Sender) : Sender := { x with pc := .close, failed := true }

/-- A segment becomes an address and a length; digits are built on the stack. -/
def openSegment (t : Transport) (x : Sender) : Segment → Sender
  | .literal bytes => { x with ptr := t.lit bytes, left := bytes.length }
  | .number value => { x with
      rsp := x.rsp - 24, memory := writeAll x.memory (x.rsp - (itoa value).length) (itoa value),
      ptr := x.rsp - (itoa value).length, left := (itoa value).length }
  | .span start length => { x with ptr := start, left := length }

/-- The digit buffer is released. -/
def closeSegment (x : Sender) : Segment → Sender
  | .number _ => { x with rsp := x.rsp + 24 }
  | _ => x

end Sender

open Sender

/-- One step of a response. Source: `native/http_io.rs`, `start_response`, `send`, `wait`, and the end
of the accept loop of `native.rs`, `emit_http10_dynamic_bytes` -/
inductive Step (t : Transport) : Sender → Sender → Prop
  | startResponse {x seconds} (hpc : x.pc = .startResponse) (ht : t.seconds = some seconds)
      (now : Int) :
      Step t x { x with
        pc := .segment, started := now, now := now, deadline := now + seconds * 1000 }
  /-- a reading of the clock fails -/
  | clockFails {x} (hpc : x.pc = .startResponse ∨ x.pc = .retry ∨ x.pc = .blocked) : Step t x x.fail
  | bounded {x segment rest} (hpc : x.pc = .segment) (hrest : x.rest = segment :: rest)
      (ht : t.seconds ≠ none) : Step t x { x.openSegment t segment with pc := .retry }
  | legacy {x segment rest} (hpc : x.pc = .segment) (hrest : x.rest = segment :: rest)
      (ht : t.seconds = none) : Step t x { x.openSegment t segment with pc := .write }
  | complete {x} (hpc : x.pc = .segment) (hrest : x.rest = []) : Step t x { x with pc := .close }
  /-- the deadline has passed -/
  | late {x} (hpc : x.pc = .retry ∨ x.pc = .blocked) (now : Int) (h : x.deadline - now ≤ 0) :
      Step t x { x.fail with now := now }
  | allSent {x} (hpc : x.pc = .retry) (now : Int) (h : 0 < x.deadline - now) (hleft : x.left = 0) :
      Step t x { x with pc := .segmentDone, now := now }
  | ready {x} (hpc : x.pc = .retry) (now : Int) (h : 0 < x.deadline - now) (hleft : x.left ≠ 0) :
      Step t x { x with pc := .send, now := now }
  /-- `EINTR` -/
  | sendInterrupted {x} (hpc : x.pc = .send) : Step t x { x with pc := .retry }
  /-- `EAGAIN` -/
  | sendBlocked {x} (hpc : x.pc = .send) : Step t x { x with pc := .blocked }
  /-- nothing was sent, or another error -/
  | sendFails {x} (hpc : x.pc = .send) : Step t x x.fail
  | send {x} (hpc : x.pc = .send) (n : Nat) (hpos : 0 < n) (hn : n ≤ x.left) :
      Step t x { x with
        pc := .retry, sent := x.sent ++ readBytes x.memory x.ptr n, ptr := x.ptr + n,
        left := x.left - n }
  | wait {x} (hpc : x.pc = .blocked) (now : Int) (h : 0 < x.deadline - now) :
      Step t x { x with pc := .poll, now := now }
  /-- `EINTR`, or an event -/
  | polled {x} (hpc : x.pc = .poll) : Step t x { x with pc := .retry }
  /-- no event in time, or an error -/
  | pollFails {x} (hpc : x.pc = .poll) : Step t x x.fail
  | write {x} (hpc : x.pc = .write) :
      Step t x { x with pc := .segmentDone, sent := x.sent ++ readBytes x.memory x.ptr x.left }
  | segmentDone {x segment rest} (hpc : x.pc = .segmentDone) (hrest : x.rest = segment :: rest) :
      Step t x { x.closeSegment segment with pc := .segment, rest := rest }
  | close {x} (hpc : x.pc = .close) : Step t x { x with pc := .reset, closed := true }
  | reset {x} (hpc : x.pc = .reset) (ht : t.forked = false) :
      Step t x { x with pc := .ended, rsp := t.top }
  | exit {x} (hpc : x.pc = .reset) (ht : t.forked = true) : Step t x { x with pc := .ended }

/-- The response behind a handler. -/
def start (t : Transport) (d : Slots) (m : Nat → UInt8) (rsp : Nat) : Sender where
  pc := if t.seconds = none then .segment else .startResponse
  rest := serialize d
  memory := m
  rsp := rsp
  ptr := 0
  left := 0
  started := 0
  deadline := 0
  now := 0
  sent := []
  failed := false
  closed := false

/-- The runs of a response. -/
def sender (t : Transport) (d : Slots) (m : Nat → UInt8) (rsp : Nat) : System Sender where
  init x := x = start t d m rsp
  step := Step t

end Verbosec.Http.Send
