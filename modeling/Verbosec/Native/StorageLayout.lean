import Verbosec.Native.StorageOverlay

/-!
# The layout of the storage

* `propagate` - pointers in an order where every pointer comes before those it may stand for; each
  passes on its last use, and to its buffer.
* `layout` - the frame and the offsets of the buffers: the overlay where it is smaller than the
  plain placement.

Source: `native/bounded_text/storage.rs`, `Storage::propagate`, `Storage::layout`
-/

namespace Verbosec.Native.TextStorage

open Verbosec.Lib StorageCalls

/-! ## Aliases -/

/-- The state of the propagation. Source: `native/bounded_text/storage.rs`, `Storage::propagate` -/
structure Pass where
  /-- pointers with their last uses so far -/
  pointers : Dict Int Pointer
  /-- buffers with their last uses so far -/
  buffers : List Buffer
  /-- for each pointer, how often pointers to come may stand for it -/
  incoming : Dict Int Nat
  /-- pointers that no pointer to come may stand for -/
  ready : List Int
  deriving DecidableEq, Repr

/-- One more pointer may stand for `source`.
Source: `native/bounded_text/storage.rs`, `Storage::propagate` -/
def countSource (incoming : Dict Int Nat) (source : Int) : Except Failure (Dict Int Nat) :=
  if incoming.has source then .ok (adjust incoming source (· + 1))
  else .error (error "unknown join source")

/-- How often pointers may stand for each pointer.
Source: `native/bounded_text/storage.rs`, `Storage::propagate` -/
def countSources (pointers : Dict Int Pointer) : Except Failure (Dict Int Nat) :=
  pointers.foldlM (fun incoming e => e.2.sources.foldlM countSource incoming)
    (pointers.map fun e => (e.1, 0))

/-- A use at `last` of a pointer that may stand for `source`.
Source: `native/bounded_text/storage.rs`, `Storage::propagate` -/
def useSource (last : Nat) (p : Pass) (source : Int) : Except Failure Pass :=
  match p.pointers.lookup source, p.incoming.lookup source with
  | some _, some (count + 1) => .ok { p with
      pointers := adjust p.pointers source fun node => { node with last := max node.last last }
      incoming := adjust p.incoming source fun _ => count
      ready := if count = 0 then p.ready.orderedInsert (· ≤ ·) source else p.ready }
  | _, _ => .error .panic

/-- The last use of a buffer is at least `last`. -/
def Buffer.extend (last : Nat) (b : Buffer) : Buffer := { b with last := max b.last last }

/-- The buffer of a pointer is in use until the last use of the pointer.
Source: `native/bounded_text/storage.rs`, `Storage::propagate` -/
def Pointer.extendOwned (node : Pointer) (buffers : List Buffer) : List Buffer :=
  match node.buffer with
  | some id => buffers.modify id (Buffer.extend node.last)
  | none => buffers

/-- The loop over the pointers that are ready, with the number of those visited. No pointer is ready
twice, so `fuel` pointers are enough.
Source: `native/bounded_text/storage.rs`, `Storage::propagate` -/
def propagateFrom : Nat → Pass → Nat → Except Failure (Pass × Nat)
  | 0, p, visited => .ok (p, visited)
  | fuel + 1, p, visited =>
      match p.ready with
      | [] => .ok (p, visited)
      | ptr :: ready =>
          match p.pointers.lookup ptr with
          | none => .error .panic
          | some node => do
              let p ← node.sources.foldlM (useSource node.last)
                { p with buffers := node.extendOwned p.buffers, ready := ready }
              propagateFrom fuel p (visited + 1)

/-- Source: `native/bounded_text/storage.rs`, `Storage::propagate` -/
def Storage.propagate (s : Storage) : Except Failure Storage := do
  let incoming ← countSources s.pointers
  let (p, visited) ← propagateFrom s.pointers.length
    ⟨s.pointers, s.buffers, incoming, (incoming.filter (·.2 = 0)).map (·.1)⟩ 0
  if visited ≠ s.pointers.length then .error (error "cyclic text storage provenance")
  else .ok { s with pointers := p.pointers, buffers := p.buffers }

/-! ## The frame -/

/-- Source: `native/bounded_text.rs`, `FIXED_SCRATCH` -/
def fixedScratch : Nat := 16 + 32

/-- Source: `native/bounded_text.rs`, `FRAME_LIMIT` -/
def frameLimit : Nat := 2 * 1024 * 1024

/-- The interval of a buffer: its capacity in whole words, and its uses.
Source: `native/bounded_text/storage.rs`, `Storage::layout` -/
def Buffer.interval (buffer : Buffer) : Except Failure Interval :=
  match buffer.capacity with
  | none => .error (error (buffer.context ++ ": unknown buffer capacity"))
  | some n => do
      let n ← plus (error "buffer capacity overflow") n 7
      .ok ⟨n &&& (2 ^ 64 - 8), buffer.first, buffer.last⟩

/-- The smaller placement, the plain one if they are equal.
Source: `native/bounded_text/storage.rs`, `Storage::layout` -/
def choosePlacement (scopes : List (List Member)) (intervals : List Interval) :
    Except Failure (Nat × List Nat) := do
  let plain ← place intervals
  if 1 < scopes.length then do
    let overlaid ← overlay scopes intervals
    .ok (if overlaid.1 < plain.1 then overlaid else plain)
  else .ok plain

/-- A layout: the storage after propagation, the bytes of the frame, and the offsets with their
places in the code. -/
structure Layout where
  /-- the storage -/
  storage : Storage
  /-- bytes of slots and buffers -/
  bytes : Nat
  /-- the offset of every buffer, where the code holds it -/
  offsets : List (Nat × Int)
  deriving DecidableEq, Repr

/-- Source: `native/bounded_text/storage.rs`, `Storage::layout` -/
def Storage.layout (s : Storage) (slots : Nat) : Except Failure Layout :=
  if s.current ≠ 0 then .error (error "unclosed storage branch")
  else do
    let s ← s.propagate
    let intervals ← s.buffers.mapM Buffer.interval
    let (extent, starts) ← choosePlacement s.scopes intervals
    let frame ← plus (error "frame size overflow") slots extent
    let frame ← plus (error "frame size overflow") frame fixedScratch
    if frameLimit < frame then
      .error (error ("invocation frame exceeds " ++ toString frameLimit ++ " bytes (needs " ++
        toString frame ++ " including slots, buffer placement and fixed scratch)"))
    else .ok ⟨s, slots + extent, (s.buffers.zip (intervals.zip starts)).map fun p =>
      (p.1.address, -((slots + p.2.2 + p.2.1.size : Nat) : Int))⟩

end Verbosec.Native.TextStorage
