import Mathlib.Data.List.Basic
import Mathlib.Logic.Function.Basic
import Verbosec.Lib.Transition

/-!
# The lanes of native concurrent execution

* `Phase`, `Job` - what the code of a phase does to one record, and the phases of an execution with
  the arguments of the process.
* `sequential` - the phases one after the other: what the property of the lanes is stated with.
* `Lane` - the memory that a worker shares with the coordinator, with the registers of the worker;
  `Lane.turn` is its next instruction.
* `State`, `State.coordinate` - the coordinator over its lanes; the answers of its system calls are
  given.
* `lanes` - the transition system: a worker or the coordinator goes on, or a system call is
  interrupted.

A step makes at most one access to memory that both parties use. A futex call that wakes does not
fail, and a call that waits fails only as `wait` expects; the exit of a thread clears its thread
word and wakes the coordinator in one step. The set-up of the mapping before the first wave is left
out.

Source: `native/concurrent/emit.rs`.
-/

namespace Verbosec.Native.Lanes

open Verbosec.Lib

/-! ## Executions -/

/-- The code of a phase. Source: `native/concurrent.rs`, `Body` -/
structure Phase (α : Type*) where
  /-- the arguments of a record. Source: `concept.fields.len()` -/
  width : Nat
  /-- the bytes of a record and whether its value is `false`; none where its input is refused -/
  run : List α → Option (List UInt8 × Bool)
  /-- the bytes that a record has at most. Source: `native/concurrent.rs`, `Body::output_bytes` -/
  outputBytes : Nat
  width_pos : 0 < width
  fits : ∀ record bytes falsy, run record = some (bytes, falsy) → bytes.length ≤ outputBytes

/-- An execution over the arguments of the process. Source: `native/concurrent.rs`, `Prepared` -/
structure Job (α : Type*) where
  phases : List (Phase α)
  /-- the arguments after the first -/
  args : List α
  /-- the number of lanes. Source: `max_in_flight` -/
  limit : Nat
  /-- the results of a worker between two exchanges. Source: `result_batch` -/
  batch : Nat
  limit_pos : 0 < limit
  batch_pos : 0 < batch

variable {α : Type*} (job : Job α)

/-- The room of a lane: that of the largest result of its phases, for each result of a batch.
Source: `native/concurrent/layout.rs`, `plan`, `result_bytes` and `output_bytes` -/
def Job.capacity (k : Nat) : Nat :=
  (job.phases.zipIdx.filter fun x => x.2 % job.limit = k).foldr
    (fun x bytes => max x.1.outputBytes bytes) 0 * job.batch

/-! ## The phases one after the other -/

/-- What comes before a result. -/
def prepend (bytes : List UInt8) (r : List UInt8 × Bool) : List UInt8 × Bool := (bytes ++ r.1, r.2)

/-- The bytes of the records of a phase up to the first that fails, and whether the phase fails.
Source: `native/concurrent/emit.rs`, `worker` -/
def Phase.loop (p : Phase α) (rest : List α) (sticky : Bool) : List UInt8 × Bool :=
  if _ : rest = [] then ([], sticky)
  else if rest.length < p.width then ([], true)
  else
    match p.run (rest.take p.width) with
    | none => ([], true)
    | some (bytes, falsy) => prepend bytes (p.loop (rest.drop p.width) (sticky || falsy))
termination_by rest.length
decreasing_by
  have := p.width_pos
  have := List.length_pos_of_ne_nil (l := rest) ‹_›
  rw [List.length_drop]
  omega

/-- The bytes of a phase and whether it fails. Source: `native/concurrent/emit.rs`, `worker` -/
def Phase.result (p : Phase α) (args : List α) : List UInt8 × Bool :=
  if args.length < p.width then ([], true) else p.loop args false

/-- Results up to the first that fails, and what follows them. -/
def chain : List (List UInt8 × Bool) → List UInt8 × Bool → List UInt8 × Bool
  | [], next => next
  | r :: rs, next => if r.2 then r else prepend r.1 (chain rs next)

/-- The bytes of the phases of an execution up to the first that fails, and whether one does. -/
def sequential : List UInt8 × Bool := chain (job.phases.map (·.result job.args)) ([], false)

/-! ## Workers -/

/-- The word that the two parties of a lane exchange. Source: `native/concurrent/emit.rs`, `EMPTY`,
`READY`, `DONE`, `ERROR` and `CANCEL` -/
inductive Word where
  | empty
  | ready
  | done
  | error
  | cancel
  deriving DecidableEq, Repr

/-- What a worker does when its result has been taken. Source: `native/concurrent/emit.rs`,
`publish` and `flush_batch`, the labels `exit` and `consumed` -/
inductive After (α : Type*) where
  /-- the records that are left -/
  | next (rest : List α)
  /-- the end of the last batch -/
  | complete
  | exit
  deriving DecidableEq, Repr

/-- Where a worker is. Source: `native/concurrent/emit.rs`, `worker` -/
inductive Pc (α : Type*) where
  | start
  /-- before the load of the control word -/
  | next (rest : List α)
  /-- before the tests and the code of a record -/
  | record (rest : List α)
  /-- storing the bytes of a record at the cursor -/
  | store (rest : List α) (bytes : List UInt8) (cursor : Nat)
  /-- the record is complete, its batch is not yet -/
  | commit (rest : List α)
  | flush (after : After α)
  | publish (word : Word) (after : After α)
  | wake (after : After α)
  /-- before the load of `await_consumption` -/
  | pending (after : After α)
  /-- before the call that waits -/
  | wait (after : After α)
  | asleep (after : After α)
  | done
  | fail
  | terminal
  | exit
  | ended
  /-- at label zero, which ends the process -/
  | aborted
  deriving DecidableEq, Repr

/-- What follows an exchange. Source: `native/concurrent/emit.rs`, `worker` and
`await_consumption` -/
def After.await : After α → Pc α
  | .exit => .exit
  | after => .pending after

/-- The control words of a lane, its output buffer and its worker. Source:
`native/concurrent/emit.rs`, the offsets from `r15` -/
structure Lane (α : Type*) where
  /-- offset 0 -/
  word : Word := .empty
  /-- the thread word is not zero; offset 4 -/
  thread : Bool := false
  /-- the bytes to be taken; offset 8 -/
  length : Nat := 0
  /-- did the phase fail? offset 16 -/
  status : Bool := false
  /-- where the next record goes in the buffer; offset 24 -/
  next : Nat := 0
  /-- the bytes of the batch; offset 48 -/
  filled : Nat := 0
  /-- the records of the batch; offset 56 -/
  count : Nat := 0
  buffer : Nat → UInt8 := fun _ => 0
  worker : Pc α := .ended
  /-- was a value `false`? -/
  sticky : Bool := false

/-- The batch is empty. Source: `native/concurrent/emit.rs`, `reset_batch` -/
def Lane.resetBatch (l : Lane α) : Lane α := { l with next := 0, filled := 0, count := 0 }

@[simp] lemma Lane.resetBatch_word (l : Lane α) : l.resetBatch.word = l.word := rfl

@[simp] lemma Lane.resetBatch_thread (l : Lane α) : l.resetBatch.thread = l.thread := rfl

@[simp] lemma Lane.resetBatch_length (l : Lane α) : l.resetBatch.length = l.length := rfl

@[simp] lemma Lane.resetBatch_status (l : Lane α) : l.resetBatch.status = l.status := rfl

@[simp] lemma Lane.resetBatch_next (l : Lane α) : l.resetBatch.next = 0 := rfl

@[simp] lemma Lane.resetBatch_buffer (l : Lane α) : l.resetBatch.buffer = l.buffer := rfl

@[simp] lemma Lane.resetBatch_sticky (l : Lane α) : l.resetBatch.sticky = l.sticky := rfl

/-- A worker whose result has been taken. Source: `native/concurrent/emit.rs`, `worker` -/
def Lane.consumed (l : Lane α) : After α → Lane α
  | .next rest => { (if job.batch = 1 then l else l.resetBatch) with worker := .next rest }
  | .complete => { l with worker := .publish .done .exit }
  | .exit => { l with worker := .exit }

/-- The tests and the code of a record up to its output. Source: `native/concurrent/emit.rs`,
`worker` -/
def Lane.record (p : Phase α) (l : Lane α) (rest : List α) : Lane α :=
  if rest = [] then { l with worker := .done }
  else if rest.length < p.width then { l with worker := .fail }
  else
    match p.run (rest.take p.width) with
    | none => { l with worker := .fail }
    | some (bytes, falsy) =>
        { l with worker := .store (rest.drop p.width) bytes l.next, sticky := l.sticky || falsy }

/-- A complete record is part of its batch. Source: `native/concurrent/emit.rs`, `worker` -/
def Lane.commit (l : Lane α) (rest : List α) : Lane α :=
  { l with
    filled := l.filled + l.length
    next := l.next + l.length
    count := l.count + 1
    worker := if l.count + 1 < job.batch then .next rest else .flush (.next rest) }

/-- The next instruction of a worker; none where it waits or has ended. Source:
`native/concurrent/emit.rs`, `worker`, `publish`, `flush_batch` and `await_consumption` -/
def Lane.turn (p : Phase α) (l : Lane α) : Option (Lane α) :=
  match l.worker with
  | .start =>
      let l := { (if job.batch = 1 then l else l.resetBatch) with sticky := false }
      some { l with worker := if job.args.length < p.width then .fail else .next job.args }
  | .next rest => some { l with worker := if l.word = .cancel then .exit else .record rest }
  | .record rest => some (l.record p rest)
  | .store rest (b :: bytes) cursor =>
      some { l with
        buffer := Function.update l.buffer cursor b, worker := .store rest bytes (cursor + 1) }
  | .store rest [] cursor =>
      some { l with
        length := cursor - l.next
        worker := if job.batch = 1 then .publish .ready (.next rest) else .commit rest }
  | .commit rest => some (l.commit job rest)
  | .flush after => some { l with length := l.filled, worker := .publish .ready after }
  -- a cancellation wins over the exchange
  | .publish word after =>
      some (if l.word = .empty then { l with word := word, worker := .wake after }
        else { l with worker := .exit })
  | .wake after => some { l with worker := after.await }
  | .pending after =>
      match l.word with
      | .cancel => some { l with worker := .exit }
      | .empty => some (l.consumed job after)
      | .ready => some { l with worker := .wait after }
      | .done | .error => some { l with worker := .aborted }
  | .wait after =>
      some { l with worker := if l.word = .ready then .asleep after else .pending after }
  | .done =>
      some { l with
        status := l.sticky, worker := if job.batch = 1 then .publish .done .exit else .terminal }
  | .fail =>
      some (if job.batch = 1 then { l with worker := .publish .error .exit }
        else { l with status := true, worker := .terminal })
  | .terminal =>
      some { l with worker := if l.filled = 0 then .publish .done .exit else .flush .complete }
  | .exit => some { l with thread := false, worker := .ended }
  | .asleep _ | .ended | .aborted => none

/-! ## The coordinator -/

/-- Where the coordinator is, with the lane. Source: `native/concurrent/emit.rs`, `compile` -/
inductive Place where
  /-- before the reset of a lane -/
  | reset (k : Nat)
  /-- before the start of a worker -/
  | clone (k : Nat)
  | receive (k : Nat)
  /-- before the call that waits for a result -/
  | wait (k : Nat)
  | asleep (k : Nat)
  | ready (k : Nat)
  /-- writing `n` bytes from `start` on -/
  | write (k start n : Nat)
  | consumed (k : Nat)
  | wake (k : Nat)
  | done (k : Nat)
  | cancel
  /-- before the cancellation of a lane -/
  | cancelLane (k : Nat)
  | cancelWake (k : Nat)
  | join (k : Nat)
  /-- before the call that waits for the end of a thread -/
  | joinWait (k : Nat)
  | joinAsleep (k : Nat)
  | exited (failed : Bool)
  deriving DecidableEq, Repr

/-- The coordinator and the lanes. -/
structure State (α : Type*) where
  place : Place
  /-- the number of phases before the wave -/
  start : Nat
  lanes : Nat → Lane α
  /-- the status in the header of the mapping -/
  failed : Bool
  /-- the bytes written -/
  log : List UInt8
  /-- history: the start of a worker or a write has failed -/
  refused : Bool

/-- The phases of the wave. Source: `slice::chunks` -/
def State.wave (s : State α) : List (Phase α) := (job.phases.drop s.start).take job.limit

/-- A lane after a change. -/
def State.setLane (s : State α) (k : Nat) (l : Lane α) : State α :=
  { s with lanes := Function.update s.lanes k l }

/-- The coordinator at another place. -/
def State.goto (s : State α) (place : Place) : State α := { s with place := place }

/-- The wave after `start` phases, or the end of the process. Source: `native/concurrent/emit.rs`,
`compile` -/
def State.nextWave (s : State α) (start : Nat) : State α :=
  if job.phases.length ≤ start then s.goto (.exited s.failed)
  else { s with place := .reset 0, start := start }

/-- The bytes of a buffer from a place on. -/
def read (m : Nat → UInt8) (start n : Nat) : List UInt8 := (List.range n).map fun i => m (start + i)

/-- A worker that waits is woken. Source: `native/concurrent/emit.rs`, `wake` -/
def Lane.woken (l : Lane α) : Lane α :=
  match l.worker with
  | .asleep after => { l with worker := .pending after }
  | _ => l

/-- What a system call returns. -/
inductive Answer where
  | ok (n : Nat)
  | failed
  deriving DecidableEq, Repr

/-- The next instruction of the coordinator; none where it waits or has ended, or where no call has
this answer. Source: `native/concurrent/emit.rs`, `compile` -/
def State.coordinate (s : State α) (answer : Answer) : Option (State α) :=
  let size := (s.wave job).length
  match s.place with
  | .reset k =>
      if k < size then
        some ((s.setLane k { s.lanes k with word := .empty }).goto (.reset (k + 1)))
      else some (s.goto (.clone 0))
  | .clone k =>
      if k < size then
        match answer with
        | .ok _ =>
            some ((s.setLane k { s.lanes k with thread := true, worker := .start }).goto
              (.clone (k + 1)))
        | .failed => some { s with place := .cancel, refused := true }
      else some (s.goto (.receive 0))
  | .receive k =>
      if k < size then
        match (s.lanes k).word with
        | .ready => some (s.goto (.ready k))
        | .done => some (s.goto (.done k))
        | .empty => some (s.goto (.wait k))
        | .error | .cancel => some (s.goto .cancel)
      else some (s.goto (.join 0))
  | .wait k =>
      some (s.goto (if (s.lanes k).word = .empty then .asleep k else .receive k))
  | .ready k =>
      if job.capacity k < (s.lanes k).length then some (s.goto .cancel)
      else
        some (s.goto (.write k (if job.batch = 1 then (s.lanes k).next else 0) (s.lanes k).length))
  | .write k start n =>
      if n = 0 then some (s.goto (.consumed k))
      else
        match answer with
        | .ok m =>
            if 0 < m ∧ m ≤ n then some { s with
              place := .write k (start + m) (n - m)
              log := s.log ++ read (s.lanes k).buffer start m }
            else none
        | .failed => some { s with place := .cancel, refused := true }
  | .consumed k => some ((s.setLane k { s.lanes k with word := .empty }).goto (.wake k))
  | .wake k => some ((s.setLane k (s.lanes k).woken).goto (.receive k))
  | .done k => some (s.goto (if (s.lanes k).status then .cancel else .receive (k + 1)))
  | .cancel => some { s with place := .cancelLane 0, failed := true }
  | .cancelLane k =>
      if k < size then
        some ((s.setLane k { s.lanes k with word := .cancel }).goto (.cancelWake k))
      else some (s.goto (.join 0))
  | .cancelWake k => some ((s.setLane k (s.lanes k).woken).goto (.cancelLane (k + 1)))
  | .join k =>
      if k < size then
        some (s.goto (if (s.lanes k).thread then .joinWait k else .join (k + 1)))
      else if s.failed then some (s.goto (.exited true))
      else some (s.nextWave job (s.start + job.limit))
  | .joinWait k =>
      some (s.goto (if (s.lanes k).thread then .joinAsleep k else .join k))
  | .asleep _ | .joinAsleep _ | .exited _ => none

/-! ## Runs -/

/-- The coordinator after an instruction of the worker of lane `k`: a call that wakes, or the end of
the thread, ends its wait. -/
def Place.after (place : Place) (k : Nat) (worker : Pc α) : Place :=
  match worker, place with
  | .wake _, .asleep j => if j = k then .receive k else .asleep j
  | .exit, .joinAsleep j => if j = k then .join k else .joinAsleep j
  | _, place => place

/-- The next instruction of the worker of lane `k`. -/
def State.work (s : State α) (p : Phase α) (k : Nat) : Option (State α) :=
  ((s.lanes k).turn job p).map fun l =>
    (s.setLane k l).goto (s.place.after k (s.lanes k).worker)

/-- One instruction of the coordinator or of a worker. -/
inductive Step (s : State α) : State α → Prop
  | worker {k p s'} (hp : (s.wave job)[k]? = some p) (h : s.work job p k = some s') : Step s s'
  | coordinator {answer s'} (h : s.coordinate job answer = some s') : Step s s'

/-- A call that waits is interrupted, or woken for nothing. -/
inductive Interrupt (s : State α) : State α → Prop
  | worker {k after} (h : (s.lanes k).worker = .asleep after) :
      Interrupt s (s.setLane k { s.lanes k with worker := .pending after })
  | receive {k} (h : s.place = .asleep k) : Interrupt s (s.goto (.receive k))
  | join {k} (h : s.place = .joinAsleep k) : Interrupt s (s.goto (.join k))

/-- The state before the first wave. -/
def startState : State α := State.nextWave job ⟨.reset 0, 0, fun _ => {}, false, [], false⟩ 0

/-- The runs of an execution. Source: `native/concurrent/emit.rs`, `compile` -/
def lanes : System (State α) where
  init := (· = startState job)
  step s s' := Step job s s' ∨ Interrupt s s'

end Verbosec.Native.Lanes
