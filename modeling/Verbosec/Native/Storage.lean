import Mathlib.Data.List.Sort
import Verbosec.Lib.Dict
import Verbosec.Native.StorageCalls

/-!
# The storage of text buffers

The buffers of a bounded text program, from the operations of the emitter to their places in the
frame.

* `Storage` - the state of the emitter: pointers with the pointers they may stand for, buffers with
  their uses, and the scopes of the branches.
* `Op`, `step` - the operations. A program holds the branches that it has opened, and only those.
* `propagate` - the last use of a pointer is a use of all pointers that it may stand for.
* `Free`, `place` - buffers in the order of their first uses take the smallest hole that fits; the
  holes of buffers that are no longer used are joined.
* `overlay` - both arms of a branch take one region.
* `layout` - the smaller of the two placements, as offsets below the slots of the frame.

Source: `native/bounded_text/storage.rs`
-/

namespace Verbosec.Native.TextStorage

open Verbosec.Lib StorageCalls

/-! ## The state -/

/-- A pointer: the pointers it may stand for, the buffer it owns, and its last use.
Source: `native/bounded_text/storage.rs`, `Pointer` -/
structure Pointer where
  /-- pointers joined in it -/
  sources : List Int := []
  /-- the buffer of a destination -/
  buffer : Option Nat := none
  /-- last use -/
  last : Nat := 0
  deriving DecidableEq, Repr

/-- A buffer with the place of its offset in the code and a name for messages.
Source: `native/bounded_text/storage.rs`, `Buffer` -/
structure Buffer extends StorageCalls.Buffer where
  /-- where the code holds the offset -/
  address : Nat
  /-- name in messages -/
  context : String
  deriving DecidableEq, Repr

/-- A member of a scope: a buffer, or a branch with the scopes of its arms.
Source: `native/bounded_text/storage.rs`, `Member` -/
inductive Member where
  | buffer (id : Nat)
  | choice (left right : Nat)
  deriving DecidableEq, Repr

/-- An open branch. Source: `native/bounded_text/storage.rs`, `Branch` -/
structure Branch where
  /-- scope around the branch -/
  parent : Nat
  /-- scope of the first arm -/
  left : Nat
  /-- scope of the second arm -/
  right : Nat
  deriving DecidableEq, Repr

/-- The state of the emitter. Source: `native/bounded_text/storage.rs`, `Storage` -/
structure Storage where
  /-- pointers by slot, in order -/
  pointers : Dict Int Pointer := []
  /-- buffers in the order of their reservations -/
  buffers : List Buffer := []
  /-- the number of uses so far -/
  clock : Nat := 0
  /-- members of the scopes -/
  scopes : List (List Member) := [[]]
  /-- the scope of the code being emitted -/
  current : Nat := 0
  /-- expanded calls -/
  calls : List Call := []
  /-- calls that have not ended -/
  callStack : List Nat := []
  deriving DecidableEq, Repr

/-! ## Maps -/

section maps

variable {α : Type}

/-- The value of a key changed. Source: `BTreeMap::get_mut` -/
def adjust (d : Dict Int α) (k : Int) (f : α → α) : Dict Int α :=
  d.map fun e => if e.1 = k then (k, f e.2) else e

@[simp] lemma map_fst_adjust (d : Dict Int α) (k : Int) (f : α → α) :
    (adjust d k f).map (·.1) = d.map (·.1) := by
  rw [adjust, List.map_map]
  refine List.map_congr_left fun e _ => ?_
  simp only [Function.comp_apply]
  split
  · rename_i h
    exact h.symm
  · rfl

lemma lookup_adjust (d : Dict Int α) (k k' : Int) (f : α → α) :
    (adjust d k f).lookup k' = if k' = k then (d.lookup k').map f else d.lookup k' := by
  induction d with
  | nil => simp [adjust]
  | cons e d ih =>
      obtain ⟨key, a⟩ := e
      rw [adjust, List.map_cons]
      rw [adjust] at ih
      by_cases hkey : key = k
      · subst hkey
        rw [if_pos rfl, List.lookup_cons, List.lookup_cons, ih]
        by_cases hk : k' = key
        · simp [hk]
        · simp [hk, beq_false_of_ne hk]
      · rw [if_neg hkey, List.lookup_cons, List.lookup_cons, ih]
        by_cases hk : k' = key
        · subst hk
          simp [hkey]
        · simp [beq_false_of_ne hk]

end maps

/-! ## Operations -/

/-- The next use. -/
def Storage.tick (s : Storage) : Except Failure Storage := do
  let clock ← plus .panic s.clock 1
  .ok { s with clock := clock }

/-- Source: `native/bounded_text/storage.rs`, `Storage::begin_call` -/
def Storage.beginCall (s : Storage) (callee : String) : Except Failure Storage := do
  let s ← s.tick
  .ok { s with
    calls := s.calls ++ [⟨callee, s.callStack.head?.map (· + 1), s.clock, 0⟩]
    callStack := s.calls.length :: s.callStack }

/-- Source: `native/bounded_text/storage.rs`, `Storage::end_call` -/
def Storage.endCall (s : Storage) (id : Nat) : Except Failure Storage :=
  if s.callStack.head? = some id then do
    let s ← s.tick
    .ok { s with
      calls := s.calls.modify id fun call => { call with last := s.clock }
      callStack := s.callStack.tail }
  else .error (error "unbalanced storage call")

/-- Source: `native/bounded_text/storage.rs`, `Storage::branch` -/
def Storage.branch (s : Storage) : Storage × Branch :=
  let branch : Branch := ⟨s.current, s.scopes.length, s.scopes.length + 1⟩
  ({ s with
      scopes := s.scopes.modify s.current (· ++ [.choice branch.left branch.right]) ++ [[], []]
      current := branch.left },
    branch)

/-- Source: `native/bounded_text/storage.rs`, `Storage::otherwise` -/
def Storage.otherwise (s : Storage) (branch : Branch) : Except Failure Storage :=
  if s.current ≠ branch.left then .error (error "unbalanced storage branch")
  else .ok { s with current := branch.right }

/-- Source: `native/bounded_text/storage.rs`, `Storage::end_branch` -/
def Storage.endBranch (s : Storage) (branch : Branch) : Except Failure Storage :=
  if s.current ≠ branch.right then .error (error "unbalanced storage branch")
  else .ok { s with current := branch.parent }

/-- Source: `native/bounded_text/storage.rs`, `Storage::pointer` -/
def Storage.pointer (s : Storage) (ptr : Int) : Storage :=
  if s.pointers.has ptr then s
  else { s with pointers := s.pointers.orderedInsert (fun e e' => e.1 ≤ e'.1) (ptr, {}) }

/-- Source: `native/bounded_text/storage.rs`, `Storage::touch` -/
def Storage.touch (s : Storage) (ptr : Int) : Except Failure Storage := do
  let s ← s.tick
  if s.pointers.has ptr then
    .ok { s with pointers := adjust s.pointers ptr fun node => { node with last := s.clock } }
  else .error (error "unknown text storage provenance")

/-- Source: `native/bounded_text/storage.rs`, `Storage::alias` -/
def Storage.alias (s : Storage) (dest source : Int) : Except Failure Storage :=
  if ¬ s.pointers.has source then .error (error "unknown alias storage provenance")
  else if dest = source then .ok s
  else match s.pointers.lookup dest with
    | none => .error (error "unknown text join")
    | some node =>
        if node.buffer.isSome then
          .error (error "cannot replace an owned destination with an alias")
        else if source ∈ node.sources then .ok s
        else .ok { s with
          pointers := adjust s.pointers dest fun node =>
            { node with sources := node.sources ++ [source] } }

/-- Source: `native/bounded_text/storage.rs`, `Storage::reserve` -/
def Storage.reserve (s : Storage) (ptr : Int) (capacity : Option Nat) (context : String)
    (address : Nat) : Except Failure Storage :=
  match s.pointers.lookup ptr with
  | none => .error (error "unknown destination")
  | some node =>
      if node.buffer.isSome ∨ node.sources ≠ [] then
        .error (error "destination storage already assigned")
      else do
        let s ← s.tick
        .ok { s with
          pointers := adjust s.pointers ptr fun node => { node with buffer := s.buffers.length }
          scopes := s.scopes.modify s.current (· ++ [.buffer s.buffers.length])
          buffers := s.buffers ++
            [{ capacity := capacity, first := s.clock, last := s.clock, address := address,
               context := context }] }

/-- Source: `native/bounded_text/storage.rs`, `Storage::capacity` -/
def Storage.capacity (s : Storage) (ptr : Int) (cap : Nat) : Except Failure Storage :=
  match (s.pointers.lookup ptr).bind Pointer.buffer with
  | none => .error (error "missing destination owner")
  | some id => .ok { s with
      buffers := s.buffers.modify id fun buffer => { buffer with capacity := some cap } }

/-- The operations. A branch is named by its number among those the program has opened. -/
inductive Op where
  | beginCall (callee : String)
  | endCall (id : Nat)
  | branch
  | otherwise (branch : Nat)
  | endBranch (branch : Nat)
  | pointer (ptr : Int)
  | touch (ptr : Int)
  | alias (dest source : Int)
  | reserve (ptr : Int) (capacity : Option Nat) (context : String) (address : Nat)
  | capacity (ptr : Int) (cap : Nat)
  deriving DecidableEq, Repr

/-- An emitter with the branches it has opened. -/
structure Emitter where
  /-- the state -/
  storage : Storage := {}
  /-- the branches opened so far -/
  branches : List Branch := []
  deriving DecidableEq, Repr

/-- One operation of the emitter. -/
def step (e : Emitter) : Op → Except Failure Emitter
  | .beginCall callee => return { e with storage := ← e.storage.beginCall callee }
  | .endCall id => return { e with storage := ← e.storage.endCall id }
  | .branch =>
      let (storage, branch) := e.storage.branch
      .ok ⟨storage, e.branches ++ [branch]⟩
  | .otherwise k =>
      match e.branches[k]? with
      | none => .error .panic
      | some branch => return { e with storage := ← e.storage.otherwise branch }
  | .endBranch k =>
      match e.branches[k]? with
      | none => .error .panic
      | some branch => return { e with storage := ← e.storage.endBranch branch }
  | .pointer ptr => .ok { e with storage := e.storage.pointer ptr }
  | .touch ptr => return { e with storage := ← e.storage.touch ptr }
  | .alias dest source => return { e with storage := ← e.storage.alias dest source }
  | .reserve ptr capacity context address =>
      return { e with storage := ← e.storage.reserve ptr capacity context address }
  | .capacity ptr cap => return { e with storage := ← e.storage.capacity ptr cap }

/-- A sequence of operations. -/
def run (ops : List Op) : Except Failure Emitter := ops.foldlM step {}

end Verbosec.Native.TextStorage
