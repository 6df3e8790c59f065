import Verbosec.Lib.Regions
import Verbosec.Lib.Word

/-!
# The memory of a concurrent execution

* `plan` - every lane gets the sizes of the largest body that it runs; the control words, the output
  buffers, and the stacks, a guard page before each, are placed one after another.
* `waves` - the bodies that run at the same time, the lane of each being its place in the wave.
* `protects` - the ranges that are made accessible; the mapping has no access otherwise.

A `usize` is a natural number below 2 ^ 64: a checked operation fails from there on, and the others
wrap around.

Source: `native/concurrent/layout.rs`, `plan`, and `native/concurrent/emit.rs`, `compile`.
-/

namespace Verbosec.Native.Layout

open Verbosec.Lib

/-! ## Numbers -/

/-- Source: `layout.rs`, `PAGE` -/
def PAGE : Nat := 4096

/-- Source: `layout.rs`, `HEADER` -/
def HEADER : Nat := 64

/-- Source: `layout.rs`, `CONTROL` -/
def CONTROL : Nat := 64

/-- Why there is no layout. -/
inductive Failure where
  | message (text : String)
  /-- a remainder by zero, or an index that is out of bounds -/
  | panic
  deriving DecidableEq, Repr

/-- Source: `concurrent.rs`, `error` -/
def error (message : String) : Failure :=
  .message ("native concurrent execution: " ++ message)

/-- Source: `usize::checked_add` -/
def checkedAdd (a b : Nat) (e : Failure) : Except Failure Nat :=
  if a + b < 2 ^ 64 then .ok (a + b) else .error e

/-- Source: `usize::checked_mul` -/
def checkedMul (a b : Nat) (e : Failure) : Except Failure Nat :=
  if a * b < 2 ^ 64 then .ok (a * b) else .error e

/-- Rounds up to a multiple of `a`, a power of two. Source: `layout.rs`, `align` -/
def align (n a : Nat) : Except Failure Nat :=
  (checkedAdd n (a - 1) (error "layout size overflow")).map fun v => v / a * a

/-! ## The layout -/

/-- The sizes that a prepared body needs. Source: `concurrent.rs`, `Body` -/
structure Body where
  frameBytes : Nat
  stackBytes : Nat
  outputBytes : Nat
  deriving DecidableEq, Repr

/-- Source: `layout.rs`, `Phase` -/
structure Phase where
  rule : String
  lane : Nat
  frameBytes : Nat
  stackBytes : Nat
  outputBytes : Nat
  deriving DecidableEq, Repr

/-- Source: `layout.rs`, `Lane` -/
structure Lane where
  control : Nat
  output : Nat
  outputBytes : Nat
  resultBytes : Nat
  stack : Nat
  stackBytes : Nat
  stackReserved : Nat
  deriving DecidableEq, Repr

/-- Source: `layout.rs`, `Report` -/
structure Report where
  execution : String
  input : String
  maxInFlight : Nat
  resultBatch : Nat
  declaredBytes : Option UInt32
  controlReserved : Nat
  reservedBytes : Nat
  lanes : List Lane
  phases : List Phase
  deriving DecidableEq, Repr

/-- A concurrent execution. Source: `ast.rs`, `Execution` and `ExecutionMode::Concurrent` -/
structure Execution where
  name : String
  input : String
  phases : List String
  maxInFlight : UInt32
  nativeMemory : Option UInt32
  resultBatch : UInt32
  deriving DecidableEq, Repr

/-- The lanes before the bodies are looked at. Source: `layout.rs`, `plan`, the binding `lanes` -/
def emptyLanes (count : Nat) : List Lane :=
  (List.range count).map fun i =>
    { control := word (HEADER + i * CONTROL), output := 0, outputBytes := 0, resultBytes := 0,
      stack := 0, stackBytes := 0, stackReserved := 0 }

/-- A lane takes the larger sizes of its own and the body's. -/
def Lane.take (lane : Lane) (body : Body) : Lane :=
  { lane with
    resultBytes := max lane.resultBytes body.outputBytes
    stackBytes := max lane.stackBytes body.stackBytes }

/-- The bodies from the `i`th on are given to the lanes in turn. Source: `layout.rs`, `plan`, the
loop over `bodies` -/
def assign (rules : List String) (count : Nat) :
    List Body → Nat → List Lane → Except Failure (List Lane × List Phase)
  | [], _, lanes => .ok (lanes, [])
  | body :: bodies, i, lanes =>
      if count = 0 then .error .panic
      else match rules[i]? with
        | none => .error .panic
        | some rule => do
            let (lanes, phases) ← assign rules count bodies (i + 1)
              (lanes.modify (i % count) fun lane => lane.take body)
            .ok (lanes,
              { rule, lane := i % count, frameBytes := body.frameBytes,
                stackBytes := body.stackBytes, outputBytes := body.outputBytes } :: phases)

/-- The output buffers are placed from the cursor on. Source: `layout.rs`, `plan`, the first loop
over `lanes` -/
def placeOutputs (batch : Nat) : List Lane → Nat → Except Failure (List Lane × Nat)
  | [], cursor => .ok ([], cursor)
  | lane :: lanes, cursor => do
      let bytes ← checkedMul lane.resultBytes batch (error "result batch capacity overflow")
      let stop ← checkedAdd cursor bytes (error "output size overflow")
      let next ← align stop 64
      let (lanes, last) ← placeOutputs batch lanes next
      .ok ({ lane with outputBytes := bytes, output := cursor } :: lanes, last)

/-- The stacks are placed from the cursor on, a page before each. Source: `layout.rs`, `plan`, the
second loop over `lanes` -/
def placeStacks : List Lane → Nat → Except Failure (List Lane × Nat)
  | [], cursor => .ok ([], cursor)
  | lane :: lanes, cursor => do
      let stack ← checkedAdd cursor PAGE (error "stack size overflow")
      let reserved ← align lane.stackBytes PAGE
      let next ← checkedAdd stack reserved (error "stack size overflow")
      let (lanes, last) ← placeStacks lanes next
      .ok ({ lane with stack := stack, stackReserved := reserved } :: lanes, last)

/-- Source: `layout.rs`, `plan` -/
def plan (e : Execution) (bodies : List Body) : Except Failure Report := do
  let count := min e.maxInFlight.toNat bodies.length
  let (lanes, phases) ← assign e.phases count bodies 0 (emptyLanes count)
  let (lanes, cursor) ← placeOutputs e.resultBatch.toNat lanes (word (HEADER + count * CONTROL))
  let controlReserved ← align cursor PAGE
  let (lanes, cursor) ← placeStacks lanes controlReserved
  if cursor > 268435456 then
    .error (error "reservation exceeds 256 MiB implementation limit")
  else
    .ok { execution := e.name, input := e.input, maxInFlight := e.maxInFlight.toNat,
          resultBatch := e.resultBatch.toNat, declaredBytes := e.nativeMemory,
          controlReserved := controlReserved, reservedBytes := cursor, lanes := lanes,
          phases := phases }

/-! ## The use of the layout -/

/-- The bodies in chunks of `n`. Source: `slice::chunks` -/
def waves (bodies : List Body) (n : Nat) : List (List Body) :=
  (List.range ((bodies.length + n - 1) / n)).map fun w => (bodies.drop (w * n)).take n

/-- The ranges that become readable and writable. Source: `emit.rs`, the calls of `protect` -/
def protects (r : Report) : List Region :=
  ⟨0, r.controlReserved⟩ :: r.lanes.map fun l => ⟨l.stack, l.stackReserved⟩

/-- The control words of a lane. -/
def Lane.controlRegion (l : Lane) : Region := ⟨l.control, CONTROL⟩

/-- The output buffer of a lane. -/
def Lane.outputRegion (l : Lane) : Region := ⟨l.output, l.outputBytes⟩

/-- The page before the stack of a lane. -/
def Lane.guardRegion (l : Lane) : Region := ⟨l.stack - PAGE, PAGE⟩

/-- The stack of a lane. -/
def Lane.stackRegion (l : Lane) : Region := ⟨l.stack, l.stackReserved⟩

/-- Everything that lies in the reservation. -/
def Report.regions (r : Report) : List Region :=
  ⟨0, HEADER⟩ :: (r.lanes.map Lane.controlRegion ++ r.lanes.map Lane.outputRegion ++
    r.lanes.flatMap fun l => [l.guardRegion, l.stackRegion])

end Verbosec.Native.Layout
