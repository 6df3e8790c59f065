import Mathlib.Data.List.Basic
import Verbosec.Lib.Transition

/-!
# Executions over a batch of records

* `Job` - the phases of an execution, its records, and what evaluates a record and takes a value.
* `sequential` - the loop over phases and records.
* `WorkerStep`, `Step`, `concurrent` - the same job with a worker for each phase of a wave: workers
  send their results through bounded channels, and a coordinator receives them phase by phase.

Evaluation is a function of the phase and the record, and workers do not panic. A worker that cannot
be started is an input of the job. The history `evaluated` records which evaluations have begun.

Source: `interpreter/execution.rs`, `run`, and `interpreter/execution/concurrent.rs`.
-/

namespace Verbosec.Execution

open Verbosec.Lib

/-! ## Jobs -/

/-- A value that is emitted, with its phase, counted from one, and its record, from zero. -/
structure Event (V : Type*) where
  phase : Nat
  record : Nat
  value : V
  deriving DecidableEq, Repr

/-- Why an execution fails. -/
inductive Failure where
  /-- a record of a phase fails to be evaluated or to be emitted -/
  | record (phase index : Nat) (message : String)
  /-- a worker cannot be started -/
  | start (phase : Nat) (message : String)
  /-- a worker ended without a message that says so -/
  | stopped (phase : Nat)
  | limit
  | batch
  deriving DecidableEq, Repr

/-- An execution over a batch of records. -/
structure Job (ρ R V : Type*) where
  /-- the name of the execution -/
  name : String
  /-- the rules of its phases -/
  phases : List ρ
  /-- the records -/
  records : List R
  /-- the number of phases in flight. Source: `limit` -/
  limit : Nat
  /-- the number of unpublished results of a worker. Source: `result_batch` -/
  batch : Nat
  /-- the value of a record under a rule -/
  evaluate : ρ → R → Except String V
  /-- is a value `false`? -/
  isFalse : V → Bool
  /-- takes a value after those before it -/
  emit : List (Event V) → Event V → Except String Unit
  /-- the error of starting the worker of a phase. Source: `before_start` and `spawn_scoped` -/
  startError : Nat → Option String
  /-- the name of a rule -/
  ruleName : ρ → String

variable {ρ R V : Type*}

/-- The text of a failure. Source: `interpreter/execution.rs`, `run`, and
`interpreter/execution/concurrent.rs`, `run_with_start` -/
def Failure.text (job : Job ρ R V) : Failure → String
  | record phase index message =>
      "execution '" ++ job.name ++ "', phase " ++ toString phase ++ " ('" ++
        ((job.phases[phase - 1]?).map job.ruleName).getD "" ++ "'), record " ++ toString index ++
        ": " ++ message
  | start phase message =>
      "execution '" ++ job.name ++ "', phase " ++ toString phase ++ " ('" ++
        ((job.phases[phase - 1]?).map job.ruleName).getD "" ++ "'): cannot start worker: " ++ message
  | stopped phase =>
      "execution '" ++ job.name ++ "', phase " ++ toString phase ++ " ('" ++
        ((job.phases[phase - 1]?).map job.ruleName).getD "" ++
        "'): worker stopped without completion"
  | limit => "concurrent execution max_in_flight must be in [1, 64]"
  | batch => "concurrent execution result_batch must be in [1, 1024]"

/-- What has been emitted and how the execution ended. -/
abbrev Result (V : Type*) := List (Event V) × Except Failure Nat

/-! ## The sequential loop -/

variable (job : Job ρ R V)

/-- The records of a phase from one on; `.ok` carries whether a value was `false`. Source:
`interpreter/execution.rs`, `run` -/
def sequentialRecords (phase : Nat) (rule : ρ) :
    List R → Nat → Bool → List (Event V) → List (Event V) × Except Failure Bool
  | [], _, failed, log => (log, .ok failed)
  | r :: records, index, failed, log =>
      match job.evaluate rule r with
      | .error e => (log, .error (.record phase index e))
      | .ok value =>
          match job.emit log ⟨phase, index, value⟩ with
          | .error e => (log ++ [⟨phase, index, value⟩], .error (.record phase index e))
          | .ok () =>
              sequentialRecords phase rule records (index + 1) (failed || job.isFalse value)
                (log ++ [⟨phase, index, value⟩])

/-- The phases from one on. Source: `interpreter/execution.rs`, `run` -/
def sequentialPhases : List ρ → Nat → List (Event V) → Result V
  | [], _, log => (log, .ok 0)
  | rule :: phases, phase, log =>
      match sequentialRecords job phase rule job.records 0 false log with
      | (log, .error e) => (log, .error e)
      | (log, .ok true) => (log, .ok 1)
      | (log, .ok false) => sequentialPhases phases (phase + 1) log

/-- The sequential loop. Source: `interpreter/execution.rs`, `run` -/
def sequential : Result V := sequentialPhases job job.phases 1 []

/-! ## Workers -/

/-- What a worker sends. Source: `interpreter/execution/concurrent.rs`, `Message` -/
inductive Message (V : Type*) where
  | value (index : Nat) (v : V)
  | error (index : Nat) (e : String)
  | done (failed : Bool)
  deriving DecidableEq, Repr

/-- Where a worker is. Source: `interpreter/execution/concurrent.rs`, `produce` -/
inductive WorkerPc (V : Type*) where
  /-- before the records from `index` on -/
  | check (index : Nat)
  /-- evaluating a record, or before the test that follows -/
  | eval (index : Nat)
  /-- sending a message -/
  | send (m : Message V)
  | ended
  deriving DecidableEq, Repr

/-- A worker with its channel. -/
structure Worker (V : Type*) where
  /-- where it is -/
  pc : WorkerPc V := .check 0
  /-- was a value `false`? -/
  failed : Bool := false
  /-- the messages sent and not received -/
  queue : List (Message V) := []
  /-- is its receiver still there? -/
  alive : Bool := true
  deriving DecidableEq, Repr

/-- A worker that was just started. -/
def Worker.start : Worker V := {}

/-- After a message was sent. Source: `interpreter/execution/concurrent.rs`, `produce` -/
def afterSend : Message V → WorkerPc V
  | .value index _ => .check (index + 1)
  | .error _ _ | .done _ => .ended

/-- A worker with the result of a record. Source: `interpreter/execution/concurrent.rs`, `produce` -/
def Worker.result (w : Worker V) (rule : ρ) (index : Nat) (r : R) : Worker V :=
  match job.evaluate rule r with
  | .ok value =>
      { w with pc := .send (.value index value), failed := w.failed || job.isFalse value }
  | .error e => { w with pc := .send (.error index e) }

/-- One step of a worker. Source: `interpreter/execution/concurrent.rs`, `produce` -/
inductive WorkerStep (rule : ρ) (cancel : Bool) : Worker V → Worker V → Prop
  /-- the worker is cancelled -/
  | cancelled {w index} (hpc : w.pc = .check index ∨ w.pc = .eval index) (hcancel : cancel) :
      WorkerStep rule cancel w { w with pc := .ended }
  /-- the evaluation of a record begins -/
  | evaluate {w index} (hpc : w.pc = .check index) (hcancel : ¬ cancel)
      (hindex : index < job.records.length) :
      WorkerStep rule cancel w { w with pc := .eval index }
  /-- all records are evaluated -/
  | finish {w index} (hpc : w.pc = .check index) (hcancel : ¬ cancel)
      (hindex : job.records.length ≤ index) :
      WorkerStep rule cancel w { w with pc := .send (.done w.failed) }
  /-- the result of a record -/
  | result {w index r} (hpc : w.pc = .eval index) (hcancel : ¬ cancel)
      (hr : job.records[index]? = some r) :
      WorkerStep rule cancel w (w.result job rule index r)
  /-- a message is put into the channel -/
  | enqueue {w m} (hpc : w.pc = .send m) (halive : w.alive)
      (hroom : w.queue.length < job.batch - 1) :
      WorkerStep rule cancel w { w with pc := afterSend m, queue := w.queue ++ [m] }
  /-- the receiver is gone -/
  | closed {w m} (hpc : w.pc = .send m) (halive : ¬ w.alive) :
      WorkerStep rule cancel w { w with pc := .ended }

/-! ## The coordinator -/

/-- Where the coordinator is. Source: `interpreter/execution/concurrent.rs`, `run_with_start` -/
inductive Pc (V : Type*) where
  /-- starting the workers of a wave -/
  | admission
  /-- receiving from a worker -/
  | publish (k : Nat)
  /-- with a message of a worker -/
  | handle (k : Nat) (m : Message V)
  /-- before the cancellation of the wave -/
  | cancel
  /-- dropping the receivers from one on -/
  | drop (k : Nat)
  /-- joining the workers from one on -/
  | join (k : Nat)
  | returned
  deriving DecidableEq, Repr

/-- The coordinator and the workers of a wave. -/
structure State (V : Type*) where
  /-- where the coordinator is -/
  pc : Pc V
  /-- the number of phases before the wave -/
  start : Nat
  /-- the workers that were started, in the order of their phases -/
  workers : List (Worker V)
  /-- the cancellation of the wave -/
  cancel : Bool
  /-- the outcome so far -/
  outcome : Except Failure Nat
  /-- the values emitted -/
  log : List (Event V)
  /-- the phases and records whose evaluation has begun -/
  evaluated : List (Nat × Nat)

/-- The phases of the wave. Source: `slice::chunks` -/
def State.wave (s : State V) : List ρ := (job.phases.drop s.start).take job.limit

/-- The end of a phase or of the job. Source: `interpreter/execution/concurrent.rs`,
`run_with_start` -/
def State.fail (s : State V) (f : Failure) : State V := { s with pc := .cancel, outcome := .error f }

/-- A message is handled. Source: `interpreter/execution/concurrent.rs`, `run_with_start` -/
def State.handle (s : State V) (k : Nat) : Message V → State V
  | .value index v =>
      let event : Event V := ⟨s.start + k + 1, index, v⟩
      let s' := { s with log := s.log ++ [event] }
      match job.emit s.log event with
      | .error e => s'.fail (.record event.phase index e)
      | .ok () => { s' with pc := .publish k }
  | .error index e => s.fail (.record (s.start + k + 1) index e)
  | .done false => { s with pc := .publish (k + 1) }
  | .done true => { s with pc := .cancel, outcome := .ok 1 }

/-- The start of the wave after `start` phases, or the end of the job. Source:
`interpreter/execution/concurrent.rs`, `run_with_start` -/
def State.nextWave (s : State V) (start : Nat) : State V :=
  if job.phases.length ≤ start then { s with pc := .returned, outcome := .ok 0 }
  else { s with pc := .admission, start := start, workers := [], cancel := false, outcome := .ok 0 }

/-- A wave ends with its workers joined. Source: `interpreter/execution/concurrent.rs`,
`run_with_start` -/
def State.finishWave (s : State V) : State V :=
  match s.outcome with
  | .ok 0 => s.nextWave job (s.start + job.limit)
  | _ => { s with pc := .returned }

/-- The evaluation that a worker's step begins. -/
def begun (phase : Nat) (w w' : Worker V) : List (Nat × Nat) :=
  match w.pc, w'.pc with
  | .check index, .eval _ => [(phase, index)]
  | _, _ => []

/-- One step of the coordinator or of a worker. Source: `interpreter/execution/concurrent.rs`,
`run_with_start` and `produce` -/
inductive Step : State V → State V → Prop
  /-- a worker goes on -/
  | worker {s k w w' rule} (hw : s.workers[k]? = some w) (hrule : (s.wave job)[k]? = some rule)
      (hstep : WorkerStep job rule s.cancel w w') :
      Step s { s with
        workers := s.workers.set k w'
        evaluated := s.evaluated ++ begun (s.start + k + 1) w w' }
  /-- the worker of the next phase is started -/
  | admission {s} (hpc : s.pc = .admission) (hmore : s.workers.length < (s.wave job).length)
      (hstart : job.startError (s.start + s.workers.length + 1) = none) :
      Step s { s with workers := s.workers ++ [Worker.start] }
  /-- the worker of the next phase cannot be started -/
  | refuse {s e} (hpc : s.pc = .admission) (hmore : s.workers.length < (s.wave job).length)
      (hstart : job.startError (s.start + s.workers.length + 1) = some e) :
      Step s (s.fail (.start (s.start + s.workers.length + 1) e))
  /-- all workers of the wave are started -/
  | admitted {s} (hpc : s.pc = .admission) (hall : s.workers.length = (s.wave job).length) :
      Step s { s with pc := .publish 0 }
  /-- a message is received from the channel -/
  | receive {s k w m queue} (hpc : s.pc = .publish k) (hw : s.workers[k]? = some w)
      (hqueue : w.queue = m :: queue) :
      Step s { s with pc := .handle k m, workers := s.workers.set k { w with queue := queue } }
  /-- a message is received from a worker that waits for it -/
  | rendezvous {s k w m} (hpc : s.pc = .publish k) (hw : s.workers[k]? = some w)
      (hqueue : w.queue = []) (hsend : w.pc = .send m) :
      Step s { s with
        pc := .handle k m, workers := s.workers.set k { w with pc := afterSend m } }
  /-- the channel is empty and its worker has ended -/
  | hangup {s k w} (hpc : s.pc = .publish k) (hw : s.workers[k]? = some w) (hqueue : w.queue = [])
      (hended : w.pc = .ended) : Step s (s.fail (.stopped (s.start + k + 1)))
  /-- a message is handled -/
  | handle {s k m} (hpc : s.pc = .handle k m) : Step s (s.handle job k m)
  /-- all phases of the wave are published -/
  | published {s k} (hpc : s.pc = .publish k) (hall : s.workers.length ≤ k) :
      Step s { s with pc := .cancel }
  /-- the wave is cancelled -/
  | cancel {s} (hpc : s.pc = .cancel) : Step s { s with pc := .drop 0, cancel := true }
  /-- a receiver is dropped -/
  | drop {s k w} (hpc : s.pc = .drop k) (hw : s.workers[k]? = some w) :
      Step s { s with pc := .drop (k + 1), workers := s.workers.set k { w with alive := false } }
  /-- all receivers are dropped -/
  | dropped {s k} (hpc : s.pc = .drop k) (hall : s.workers.length ≤ k) :
      Step s { s with pc := .join 0 }
  /-- a worker is joined -/
  | join {s k w} (hpc : s.pc = .join k) (hw : s.workers[k]? = some w) (hended : w.pc = .ended) :
      Step s { s with pc := .join (k + 1) }
  /-- all workers are joined -/
  | joined {s k} (hpc : s.pc = .join k) (hall : s.workers.length ≤ k) : Step s (s.finishWave job)

/-- The start of a job. Source: `interpreter/execution/concurrent.rs`, `run_with_start` -/
def startState : State V :=
  let s : State V := ⟨.returned, 0, [], false, .ok 0, [], []⟩
  if ¬ (1 ≤ job.limit ∧ job.limit ≤ 64) then { s with outcome := .error .limit }
  else if ¬ (1 ≤ job.batch ∧ job.batch ≤ 1024) then { s with outcome := .error .batch }
  else s.nextWave job 0

/-- The runs of a job. Source: `interpreter/execution/concurrent.rs`, `run_with_start` -/
def concurrent : System (State V) where
  init := (· = startState job)
  step := Step job

end Verbosec.Execution
