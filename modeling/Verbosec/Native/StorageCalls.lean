import Mathlib.Data.List.Destutter
import Verbosec.Lib.Fenwick

/-!
# Storage of the callers

The report of the buffers that the callers hold at every call of a bounded text program.

* `Node`, `add`, `before` - the tree of sums: a size is added along the chain of its position, and a
  prefix sum is read along the chain of cleared bits.
* `reserve` - the buffers first used before a call enter the tree, at the positions of their last
  uses.
* `report` - the calls in order: what is held when a call starts and what is still held when it ends
  are differences of the total and a prefix sum.

Positions, sizes and sums are words of 64 bits. A sum above them fails with its message where the
code checks it; elsewhere it panics, like a difference below zero, an index past the end or a missing
position.

Source: `native/bounded_text/storage/calls.rs`
-/

namespace Verbosec.Native.StorageCalls

open Verbosec.Lib

/-- Ways a report fails. -/
inductive Failure where
  /-- an error of the code -/
  | error (message : String)
  /-- an abort of the host -/
  | panic
  deriving DecidableEq, Repr

/-- An error with the prefix of its module. Source: `native/bounded_text.rs`, `error` -/
def error (message : String) : Failure := .error ("bounded text storage: " ++ message)

/-- A buffer: its capacity if it is known, its first and its last use.
Source: `native/bounded_text/storage.rs`, `Buffer` -/
structure Buffer where
  /-- bytes reserved -/
  capacity : Option Nat
  /-- first use -/
  first : Nat
  /-- last use -/
  last : Nat
  deriving DecidableEq, Repr

/-- An expanded call: its start and its end. Source: `native/bounded_text/storage/calls.rs`, `Call` -/
structure Call where
  /-- name of the called rule -/
  callee : String
  /-- the call around it -/
  parent : Option Nat
  /-- start -/
  first : Nat
  /-- end -/
  last : Nat
  deriving DecidableEq, Repr

/-- The report of a call. Source: `stack_budget.rs`, `CallStorage` -/
structure CallStorage where
  /-- name of the called rule -/
  callee : String
  /-- the call around it -/
  parentCall : Option Nat
  /-- bytes of the callers that are held when the call starts -/
  liveCallerBufferCapacityBytes : Nat
  /-- those that are still held when it ends -/
  retainedCallerBufferCapacityBytes : Nat
  deriving DecidableEq, Repr

/-! ## Words -/

/-- A sum of words, or the failure. -/
def plus (failure : Failure) (a b : Nat) : Except Failure Nat :=
  if a + b < 2 ^ 64 then .ok (a + b) else .error failure

/-- A difference of words. -/
def minus (a b : Nat) : Except Failure Nat := if b ≤ a then .ok (a - b) else .error .panic

/-- The negative of a word. Source: `usize::wrapping_neg` -/
def wrappingNeg (n : Nat) : Nat := (2 ^ 64 - n) % 2 ^ 64

lemma plus_of_lt {failure : Failure} {a b : Nat} (h : a + b < 2 ^ 64) :
    plus failure a b = .ok (a + b) := if_pos h

lemma plus_of_not_lt {failure : Failure} {a b : Nat} (h : ¬ a + b < 2 ^ 64) :
    plus failure a b = .error failure := if_neg h

lemma minus_of_le {a b : Nat} (h : b ≤ a) : minus a b = .ok (a - b) := if_pos h

lemma and_wrappingNeg {n : Nat} (hn : 0 < n) (h : n < 2 ^ 64) :
    n &&& wrappingNeg n = Fenwick.lowBit n := by
  rw [wrappingNeg, Nat.mod_eq_of_lt (by omega), Fenwick.and_two_pow_sub hn h]

/-! ## The tree of sums -/

/-- A node of the tree, a word other than zero. -/
def Node : Type := { n : Nat // 0 < n ∧ n < 2 ^ 64 }

/-- The next node of a chain.
Source: `native/bounded_text/storage/calls.rs`, `PrefixSums::add` -/
def Node.next (node : Node) : Except Failure Node :=
  let next := node.1 + (node.1 &&& wrappingNeg node.1)
  if h : next < 2 ^ 64 then .ok ⟨next, Nat.add_pos_left node.2.1 _, h⟩ else .error .panic

lemma Node.next_eq (node : Node) (h : node.1 + Fenwick.lowBit node.1 < 2 ^ 64) :
    node.next = .ok ⟨node.1 + Fenwick.lowBit node.1, Nat.add_pos_left node.2.1 _, h⟩ := by
  have hbit := and_wrappingNeg node.2.1 node.2.2
  simp only [Node.next, hbit, dif_pos h]

lemma Node.lt_of_next {node next : Node} (h : node.next = .ok next) : node.1 < next.1 := by
  have hpos : 0 < Fenwick.lowBit node.1 := Fenwick.lowBit_pos node.2.1
  simp only [Node.next, and_wrappingNeg node.2.1 node.2.2] at h
  split at h
  · cases h
    exact Nat.lt_add_of_pos_right hpos
  · cases h

/-- A size added along the chain of nodes from `node` on.
Source: `native/bounded_text/storage/calls.rs`, `PrefixSums::add` -/
def addFrom (sums : List Nat) (node : Node) (bytes : Nat) : Except Failure (List Nat) :=
  if h : node.1 < sums.length then do
    let sum ← plus (error "call storage capacity overflow") sums[node.1] bytes
    match hnext : node.next with
    | .ok next => addFrom (sums.set node.1 sum) next bytes
    | .error e => .error e
  else .ok sums
termination_by sums.length - node.1
decreasing_by
  have hlt := Node.lt_of_next hnext
  simp only [List.length_set]
  omega

/-- A size added at the position `index`.
Source: `native/bounded_text/storage/calls.rs`, `PrefixSums::add` -/
def add (sums : List Nat) (index bytes : Nat) : Except Failure (List Nat) :=
  if h : index + 1 < 2 ^ 64 then addFrom sums ⟨index + 1, Nat.succ_pos _, h⟩ bytes
  else .error .panic

/-- The sum of the first `count` positions, on top of `sum`.
Source: `native/bounded_text/storage/calls.rs`, `PrefixSums::before` -/
def before (sums : List Nat) (count sum : Nat) : Except Failure Nat :=
  if hzero : count = 0 then .ok sum
  else if h : count < sums.length then do
    let sum ← plus .panic sum sums[count]
    before sums (count &&& (count - 1)) sum
  else .error .panic
termination_by count
decreasing_by
  have hle : count &&& (count - 1) ≤ count - 1 := Nat.and_le_right
  omega

/-! ## The sweep -/

/-- The bytes reserved for a buffer: its capacity in whole words.
Source: `native/bounded_text/storage/calls.rs`, `report` -/
def Buffer.size (buffer : Buffer) : Except Failure Nat :=
  match buffer.capacity with
  | none => .error (error "call storage analysis requires known capacities")
  | some n => do
      let n ← plus (error "call storage capacity overflow") n 7
      .ok (n &&& (2 ^ 64 - 8))

/-- The last uses, in order and without repetition.
Source: `native/bounded_text/storage/calls.rs`, `report` -/
def ends (buffers : List Buffer) : List Nat :=
  ((buffers.map Buffer.last).mergeSort (· ≤ ·)).destutter (· ≠ ·)

/-- How many last uses come before `x`. Source: `slice::partition_point` -/
def partitionPoint (ends : List Nat) (x : Nat) : Nat := (ends.takeWhile (· < x)).length

/-- The position of a last use. Source: `slice::binary_search`, unwrapped -/
def binarySearch (ends : List Nat) (x : Nat) : Except Failure Nat :=
  match ends.idxOf? x with
  | some index => .ok index
  | none => .error .panic

/-- The state of the sweep: the buffers that have not entered the tree, the tree, and the bytes that
have entered it. -/
structure Sweep where
  /-- buffers to come -/
  buffers : List Buffer
  /-- the tree -/
  sums : List Nat
  /-- bytes in the tree -/
  total : Nat
  deriving DecidableEq, Repr

/-- The buffers first used before `first` enter the tree.
Source: `native/bounded_text/storage/calls.rs`, `report` -/
def reserve (ends : List Nat) (first : Nat) : List Buffer → List Nat → Nat → Except Failure Sweep
  | [], sums, total => .ok ⟨[], sums, total⟩
  | buffer :: buffers, sums, total =>
      if buffer.first < first then do
        let size ← buffer.size
        let total ← plus (error "call storage capacity overflow") total size
        let index ← binarySearch ends buffer.last
        let sums ← add sums index size
        reserve ends first buffers sums total
      else .ok ⟨buffer :: buffers, sums, total⟩

/-- The reports of the calls from a state on.
Source: `native/bounded_text/storage/calls.rs`, `report` -/
def sweep (ends : List Nat) : List Call → Sweep → Except Failure (List CallStorage)
  | [], _ => .ok []
  | call :: calls, s =>
      if call.last < call.first then .error (error "incomplete storage call")
      else do
        let s ← reserve ends call.first s.buffers s.sums s.total
        let live ← minus s.total (← before s.sums (partitionPoint ends call.first) 0)
        let retained ← minus s.total (← before s.sums (partitionPoint ends call.last) 0)
        let reports ← sweep ends calls s
        .ok (⟨call.callee, call.parent, live, retained⟩ :: reports)

/-- The report of all calls. Source: `native/bounded_text/storage/calls.rs`, `report` -/
def report (calls : List Call) (buffers : List Buffer) : Except Failure (List CallStorage) :=
  sweep (ends buffers) calls ⟨buffers, List.replicate ((ends buffers).length + 1) 0, 0⟩

end Verbosec.Native.StorageCalls
