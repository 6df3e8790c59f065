import Verbosec.Lib.Transition
import Verbosec.Native.Wait

/-!
# The supervisor of a worker pool

* `Supervisor` - where its loop is, its slots, its workers that it has not reaped, and, as a
  history, those that it has.
* `Step` - one system call with the instructions up to the next one, labelled with the signal that
  it sends, or the end of a worker, which may come between any two of them.
* `Supervisor.Owned` - the recorded process numbers are those of the workers not yet reaped.

Start-up is over: every fork has succeeded. `Pc.kill 0` is the failure boundary, from which the
supervisor signals its workers, drains them and exits with status 1.

Source: `native/pool/shutdown.rs`, `start`.
-/

namespace Verbosec.Native.Pool

open Verbosec.Lib

/-! ## The supervisor -/

/-- The next system call. Source: the labels of `native/pool/shutdown.rs`, `start` -/
inductive Pc where
  /-- the clock before a wait -/
  | clock
  /-- the wait for any worker that has ended -/
  | wait
  /-- the clock before a timed wait for a signal -/
  | waitClock
  /-- the wait for a signal -/
  | signalWait
  /-- the clock that sets the deadline -/
  | deadlineClock
  /-- the shutdown of the listener -/
  | shutdown
  /-- the failure boundary: the signal to the worker recorded at a place -/
  | kill (n : Nat)
  /-- the wait for the workers after a failure -/
  | drain
  | exit (status : Nat)
  deriving DecidableEq, Repr

/-- A worker that was reaped, with its wait status. -/
structure Reaped where
  /-- its process number -/
  pid : Int
  /-- its wait status -/
  status : Nat
  deriving DecidableEq, Repr

/-- The supervisor with its workers. -/
structure Supervisor where
  /-- the next system call -/
  pc : Pc
  /-- has a termination been requested? Source: `DRAINING` -/
  draining : Bool
  /-- Source: `LIVE` -/
  live : Int
  /-- Source: `DEADLINE` -/
  deadline : Int
  /-- the recorded process numbers, zero once reaped. Source: `Pool::pid` -/
  pids : List Int
  /-- the workers not yet reaped -/
  children : List Child
  /-- the workers reaped, the last one first -/
  reaped : List Reaped
  deriving DecidableEq, Repr

/-- What a step does to the outside. -/
inductive Event where
  | silent
  /-- a signal is sent. Source: system call 62 -/
  | signal (pid : Int)
  deriving DecidableEq, Repr

namespace Supervisor

/-- At the label `reap`. Source: `native/pool/shutdown.rs`, `start` -/
def atReap (s : Supervisor) : Supervisor :=
  { s with pc := if !s.draining then .wait else if s.live = 0 then .exit 0 else .clock }

/-- At the failure boundary. Source: `native/pool/shutdown.rs`, `start`, label zero -/
def fail (s : Supervisor) : Supervisor := { s with pc := .kill 0 }

/-- The time left before the deadline, a failure if there is none. Source:
`native/pool/shutdown.rs`, `remaining` -/
def remaining (s : Supervisor) (now : Int) (next : Pc) : Supervisor :=
  if s.deadline - now ≤ 0 then s.fail else { s with pc := next }

/-- At the label `wait_signal`. Source: `native/pool/shutdown.rs`, `start` -/
def atSignalWait (s : Supervisor) : Supervisor :=
  { s with pc := if s.draining then .waitClock else .signalWait }

/-- A worker was reaped: it leaves the record, and its end is a failure unless the pool is draining
and its status zero. Source: `native/pool/shutdown.rs`, `start`, to the label `known` and on -/
def reap (s : Supervisor) (pid : Int) (status : Nat) : Supervisor :=
  match s.pids.idxOf? pid with
  | none => s.fail
  | some n =>
      let s := { s with pids := s.pids.set n 0, live := s.live - 1 }
      if !s.draining then s.fail else if status ≠ 0 then s.fail else s.atReap

/-- The children after one of them was reaped. -/
def taken (s : Supervisor) (children : List Child) (pid : Int) (status : Nat) : Supervisor :=
  { s with children := children, reaped := ⟨pid, status⟩ :: s.reaped }

/-- A termination is requested. Source: `native/pool/shutdown.rs`, `start`, on `SIGTERM` -/
def terminate (s : Supervisor) : Supervisor :=
  if s.draining then s.atReap else { s with pc := .deadlineClock }

/-- The deadline is set and draining begins. Source: `native/pool/shutdown.rs`, `start` -/
def beginDrain (seconds : Nat) (s : Supervisor) (now : Int) : Supervisor :=
  { s with pc := .shutdown, deadline := now + seconds * 1000, draining := true }

end Supervisor

open Supervisor

/-- One step of the supervisor and its workers. Source: `native/pool/shutdown.rs`, `start` -/
inductive Step (seconds : Nat) : Supervisor → Event → Supervisor → Prop
  /-- a running worker ends -/
  | ends {s before pid status after} (hchildren : s.children = before ++ ⟨pid, none⟩ :: after)
      (hstatus : ¬ stopped status) :
      Step seconds s .silent { s with children := before ++ ⟨pid, some status⟩ :: after }
  /-- the clock is read before a wait -/
  | clock {s} (hpc : s.pc = .clock) (now : Int) : Step seconds s .silent (s.remaining now .wait)
  /-- a wait is interrupted -/
  | interrupted {s} (hpc : s.pc = .wait) : Step seconds s .silent s.atReap
  /-- a wait finds no child -/
  | noChildren {s} (hpc : s.pc = .wait) (hchildren : s.children = []) :
      Step seconds s .silent { s with pc := .exit 1 }
  /-- a wait finds nothing to report -/
  | nothing {s} (hpc : s.pc = .wait) (hchildren : s.children ≠ []) :
      Step seconds s .silent s.atSignalWait
  /-- a wait reports the stop of a traced child -/
  | stop {s} (hpc : s.pc = .wait) : Step seconds s .silent s.atReap
  /-- a wait reaps a worker that has ended -/
  | reap {s before pid status after} (hpc : s.pc = .wait)
      (hchildren : s.children = before ++ ⟨pid, some status⟩ :: after) :
      Step seconds s .silent ((s.taken (before ++ after) pid status).reap pid status)
  /-- the clock is read before a timed wait for a signal -/
  | waitClock {s} (hpc : s.pc = .waitClock) (now : Int) :
      Step seconds s .silent (s.remaining now .signalWait)
  /-- the wait for a signal is interrupted, times out or reports the end of a child -/
  | awake {s} (hpc : s.pc = .signalWait) : Step seconds s .silent s.atReap
  /-- the wait for a signal reports `SIGTERM` -/
  | terminate {s} (hpc : s.pc = .signalWait) : Step seconds s .silent s.terminate
  /-- the clock is read and the deadline set -/
  | deadline {s} (hpc : s.pc = .deadlineClock) (now : Int) :
      Step seconds s .silent (s.beginDrain seconds now)
  /-- the listener is shut down -/
  | shutdown {s} (hpc : s.pc = .shutdown) : Step seconds s .silent s.atReap
  /-- a system call before the failure boundary fails -/
  | fails {s} (hpc : s.pc ∈ [Pc.clock, .wait, .waitClock, .signalWait, .deadlineClock, .shutdown]) :
      Step seconds s .silent s.fail
  /-- the signal to a recorded worker -/
  | kill {s n pid} (hpc : s.pc = .kill n) (hpid : s.pids[n]? = some pid) (hpos : 0 < pid) :
      Step seconds s (.signal pid) { s with pc := .kill (n + 1) }
  /-- no worker is recorded any more at this place -/
  | skip {s n pid} (hpc : s.pc = .kill n) (hpid : s.pids[n]? = some pid) (hpos : pid ≤ 0) :
      Step seconds s .silent { s with pc := .kill (n + 1) }
  /-- all recorded workers have been signalled -/
  | killed {s n} (hpc : s.pc = .kill n) (hpid : s.pids[n]? = none) :
      Step seconds s .silent { s with pc := .drain }
  /-- a wait after a failure is interrupted or reports a stop -/
  | drainAgain {s} (hpc : s.pc = .drain) : Step seconds s .silent s
  /-- a wait after a failure reaps a worker -/
  | drain {s before pid status after} (hpc : s.pc = .drain)
      (hchildren : s.children = before ++ ⟨pid, some status⟩ :: after) :
      Step seconds s .silent (s.taken (before ++ after) pid status)
  /-- a wait after a failure finds no child, or fails -/
  | drained {s} (hpc : s.pc = .drain) : Step seconds s .silent { s with pc := .exit 1 }

/-- The supervisor after start-up, with the process numbers of its workers. -/
def started (workers : List Int) : Supervisor :=
  { pc := .wait, draining := false, live := workers.length, deadline := 0, pids := workers,
    children := workers.map (⟨·, none⟩), reaped := [] }

/-- The runs of a supervisor after start-up. The workers have distinct process numbers. Source:
`native/pool/shutdown.rs`, `start` -/
def supervise (seconds : Nat) (workers : List Int) : System Supervisor where
  init s := workers.Nodup ∧ (∀ pid ∈ workers, 0 < pid) ∧ s = started workers
  step s s' := ∃ e, Step seconds s e s'

/-! ## The record of the workers -/

/-- The process numbers that are recorded. -/
def recorded (pids : List Int) : List Int := pids.filter (· ≠ 0)

/-- Is this a place after a failure? -/
def Pc.failing : Pc → Bool
  | kill _ | drain | exit 1 => true
  | _ => false

/-- Is this a place after the last signal? -/
def Pc.late : Pc → Bool
  | drain | exit _ => true
  | _ => false

/-- What holds of the supervisor at every system call. -/
structure Supervisor.Owned (workers : List Int) (s : Supervisor) : Prop where
  /-- a worker is reaped or not -/
  history : (s.reaped.map Reaped.pid ++ s.children.map Child.pid).Perm workers
  /-- the count of the recorded workers -/
  live : s.live = (recorded s.pids).length
  /-- the recorded workers are those not reaped, as long as they may be signalled -/
  table : ¬ s.pc.late → (recorded s.pids).Perm (s.children.map Child.pid)
  /-- without a failure, workers have only ended while draining, and with status zero -/
  clean : ¬ s.pc.failing → ∀ r ∈ s.reaped, r.status = 0 ∧ s.draining
  /-- an exit with status zero comes after the last worker -/
  final : s.pc = .exit 0 → s.draining ∧ s.children = []

/-- A recorded worker that is removed was one of the record. -/
lemma recorded_set {pids : List Int} {n : Nat} {pid : Int} (h : pids[n]? = some pid)
    (hpid : pid ≠ 0) : (pid :: recorded (pids.set n 0)).Perm (recorded pids) := by
  induction pids generalizing n with
  | nil => simp at h
  | cons p pids ih =>
      cases n with
      | zero =>
          obtain rfl : p = pid := by simpa using h
          simp [recorded, hpid]
      | succ n =>
          have hrest := ih (by simpa using h)
          by_cases hp : p = 0
          · simpa [recorded, hp] using hrest
          · have hcons : ∀ l : List Int, recorded (p :: l) = p :: recorded l := fun l => by
              simp [recorded, hp]
            rw [List.set_cons_succ, hcons, hcons]
            exact (List.Perm.swap _ _ _).trans (hrest.cons p)

namespace Supervisor.Owned

variable {workers : List Int} {s : Supervisor} {seconds : Nat}

/-- A step to another place of the loop, to a failure or to an exit after one. -/
lemma goto (hs : Owned workers s) {pc : Pc} (hpc : pc ≠ .exit 0)
    (hlate : ¬ pc.late → ¬ s.pc.late) (hfailing : ¬ pc.failing → ¬ s.pc.failing) :
    Owned workers { s with pc := pc } where
  history := hs.history
  live := hs.live
  table h := hs.table (hlate h)
  clean h := hs.clean (hfailing h)
  final h := absurd h hpc

lemma fail (hs : Owned workers s) (hlate : ¬ s.pc.late) : Owned workers s.fail :=
  hs.goto (by simp) (fun _ => hlate) (by simp [Pc.failing])

lemma remaining (hs : Owned workers s) (hlate : ¬ s.pc.late) (hfailing : ¬ s.pc.failing) (now : Int)
    {next : Pc} (hnext : next ≠ .exit 0) : Owned workers (s.remaining now next) := by
  unfold Supervisor.remaining
  split
  · exact hs.fail hlate
  · exact hs.goto hnext (fun _ => hlate) fun _ => hfailing

lemma atReap (hs : Owned workers s) (hlate : ¬ s.pc.late) (hfailing : ¬ s.pc.failing) :
    Owned workers s.atReap where
  history := hs.history
  live := hs.live
  table _ := hs.table hlate
  clean _ := hs.clean hfailing
  final h := by
    have hexit : s.draining ∧ s.live = 0 := by
      simp only [Supervisor.atReap] at h
      cases hd : s.draining <;> simp [hd] at h ⊢
      by_contra hlive
      simp [hlive] at h
    have hnone : recorded s.pids = [] := by
      have hlive := hs.live
      rw [hexit.2] at hlive
      exact List.eq_nil_of_length_eq_zero (by omega)
    have hchildren := hs.table hlate
    rw [hnone] at hchildren
    exact ⟨hexit.1, List.map_eq_nil_iff.mp hchildren.symm.eq_nil⟩

/-- A worker that is reaped leaves the record. -/
lemma reap (hs : Owned workers s) (hpos : ∀ pid ∈ workers, 0 < pid) (hpc : s.pc = .wait)
    {before after : List Child} {pid : Int} {status : Nat}
    (hchildren : s.children = before ++ ⟨pid, some status⟩ :: after) :
    Owned workers ((s.taken (before ++ after) pid status).reap pid status) ∧
      (¬ s.draining → ((s.taken (before ++ after) pid status).reap pid status).pc = .kill 0) := by
  have hmem : pid ∈ s.children.map Child.pid := by simp [hchildren]
  have hpid : pid ≠ 0 := by
    have := hpos pid (hs.history.mem_iff.mp (List.mem_append_right _ hmem))
    omega
  have htable := hs.table (by simp [hpc, Pc.late])
  have hrecorded : pid ∈ s.pids := (List.mem_filter.mp (htable.mem_iff.mpr hmem)).1
  obtain ⟨n, hn⟩ : ∃ n, s.pids.idxOf? pid = some n := by
    rw [← Option.isSome_iff_exists, List.isSome_idxOf?]
    exact hrecorded
  have hget : s.pids[n]? = some pid := by
    obtain ⟨hlt, hget, _⟩ := List.idxOf?_eq_some_iff.mp hn
    rw [List.getElem?_eq_getElem hlt, hget]
  have hset := recorded_set hget hpid
  -- the record loses the worker that the children lose
  let s₁ : Supervisor := { s with
    pids := s.pids.set n 0, live := s.live - 1, children := before ++ after
    reaped := ⟨pid, status⟩ :: s.reaped }
  have hhistory : (s₁.reaped.map Reaped.pid ++ s₁.children.map Child.pid).Perm workers := by
    refine List.Perm.trans ?_ hs.history
    rw [hchildren]
    simp only [s₁, List.map_cons, List.map_append, List.cons_append]
    rw [← List.append_assoc, ← List.append_assoc]
    exact List.perm_middle.symm
  have hlive : s₁.live = (recorded s₁.pids).length := by
    have := hset.length_eq
    have := hs.live
    simp only [List.length_cons] at *
    simp only [s₁]
    omega
  have htable₁ : (recorded s₁.pids).Perm (s₁.children.map Child.pid) := by
    refine List.Perm.cons_inv (a := pid) ((hset.trans htable).trans ?_)
    rw [hchildren]
    simp only [s₁, List.map_cons, List.map_append]
    exact List.perm_middle
  have hfail : Owned workers s₁.fail :=
    ⟨hhistory, hlive, fun _ => htable₁, by simp [Supervisor.fail, Pc.failing],
      by simp [Supervisor.fail]⟩
  have hreap : (s.taken (before ++ after) pid status).reap pid status =
      if !s.draining then s₁.fail else if status ≠ 0 then s₁.fail else s₁.atReap := by
    simp only [Supervisor.reap, taken, hn]
    rfl
  rw [hreap]
  cases hd : s.draining with
  | false => exact ⟨hfail, fun _ => rfl⟩
  | true =>
      refine ⟨?_, by simp⟩
      by_cases hstatus : status = 0
      · have hclean : ¬ s₁.pc.failing → ∀ r ∈ s₁.reaped, r.status = 0 ∧ s₁.draining := by
          intro hf r hr
          simp only [s₁, List.mem_cons] at hr
          rcases hr with rfl | hr
          · exact ⟨hstatus, hd⟩
          · exact hs.clean hf r hr
        have hs₁ : Owned workers s₁ :=
          ⟨hhistory, hlive, fun _ => htable₁, hclean, by simp [s₁, hpc]⟩
        simpa [hstatus] using
          hs₁.atReap (by simp [s₁, hpc, Pc.late]) (by simp [s₁, hpc, Pc.failing])
      · simpa [hstatus] using hfail

/-- **Every step keeps the record.** -/
lemma step (hs : Owned workers s) (hpos : ∀ pid ∈ workers, 0 < pid) {e : Event} {s' : Supervisor}
    (hstep : Step seconds s e s') : Owned workers s' := by
  cases hstep with
  | @ends before pid status after hchildren =>
      have hmap : (before ++ ⟨pid, some status⟩ :: after).map Child.pid =
          s.children.map Child.pid := by simp [hchildren]
      refine ⟨?_, hs.live, fun h => ?_, hs.clean, fun h => ?_⟩
      · simpa only [hmap] using hs.history
      · simpa only [hmap] using hs.table h
      · exact absurd (hs.final h).2 (by simp [hchildren])
  | clock hpc now => exact hs.remaining (by simp [hpc, Pc.late]) (by simp [hpc, Pc.failing]) now (by simp)
  | waitClock hpc now =>
      exact hs.remaining (by simp [hpc, Pc.late]) (by simp [hpc, Pc.failing]) now (by simp)
  | interrupted hpc | stop hpc | awake hpc | shutdown hpc =>
      exact hs.atReap (by simp [hpc, Pc.late]) (by simp [hpc, Pc.failing])
  | noChildren hpc => exact hs.goto (by simp) (by simp [Pc.late]) (by simp [Pc.failing])
  | nothing hpc =>
      refine hs.goto ?_ (by simp [hpc, Pc.late]) (by simp [hpc, Pc.failing])
      split <;> simp
  | reap hpc hchildren => exact (hs.reap hpos hpc hchildren).1
  | terminate hpc =>
      unfold Supervisor.terminate
      split
      · exact hs.atReap (by simp [hpc, Pc.late]) (by simp [hpc, Pc.failing])
      · exact hs.goto (by simp) (by simp [hpc, Pc.late]) (by simp [hpc, Pc.failing])
  | deadline hpc now =>
      exact ⟨hs.history, hs.live, fun _ => hs.table (by simp [hpc, Pc.late]),
        fun _ r hr => ⟨(hs.clean (by simp [hpc, Pc.failing]) r hr).1, rfl⟩,
        by simp [beginDrain]⟩
  | fails hpc =>
      refine hs.fail ?_
      simp only [List.mem_cons, List.not_mem_nil, or_false] at hpc
      rcases hpc with h | h | h | h | h | h <;> simp [h, Pc.late]
  | kill hpc | skip hpc => exact hs.goto (by simp) (by simp [hpc, Pc.late]) (by simp [Pc.failing])
  | killed hpc => exact hs.goto (by simp) (by simp [Pc.late]) (by simp [Pc.failing])
  | drainAgain => exact hs
  | @drain before pid status after hpc hchildren =>
      refine ⟨?_, hs.live, by simp [taken, hpc, Pc.late], by simp [taken, hpc, Pc.failing],
        by simp [taken, hpc]⟩
      refine List.Perm.trans ?_ hs.history
      rw [hchildren]
      simp only [taken, List.map_cons, List.map_append, List.cons_append]
      rw [← List.append_assoc, ← List.append_assoc]
      exact List.perm_middle.symm
  | drained hpc => exact hs.goto (by simp) (by simp [Pc.late]) (by simp [Pc.failing])

end Supervisor.Owned

/-! ## Runs -/

section Runs

variable {workers : List Int} {seconds : Nat} {s s' : Supervisor} {e : Event}

/-- A failure is not left. -/
lemma failing_step (hs : s.pc.failing) (hstep : Step seconds s e s') : s'.pc.failing := by
  cases hstep with
  | ends | drainAgain => exact hs
  | kill | skip | killed | drained | drain => simp_all [Pc.failing, taken]
  | fails hpc =>
      simp only [List.mem_cons, List.not_mem_nil, or_false] at hpc
      rcases hpc with h | h | h | h | h | h <;> simp [h, Pc.failing] at hs
  | _ => simp_all [Pc.failing]

@[simp] lemma atReap_draining : s.atReap.draining = s.draining := rfl

@[simp] lemma atReap_deadline : s.atReap.deadline = s.deadline := rfl

@[simp] lemma atReap_pc_ne : s.atReap.pc ≠ .deadlineClock := by
  unfold Supervisor.atReap
  grind

@[simp] lemma remaining_keeps {now : Int} {next : Pc} :
    (s.remaining now next).draining = s.draining ∧ (s.remaining now next).deadline = s.deadline := by
  unfold Supervisor.remaining
  split <;> exact ⟨rfl, rfl⟩

lemma remaining_pc_ne {now : Int} {next : Pc} (h : next ≠ .deadlineClock) :
    (s.remaining now next).pc ≠ .deadlineClock := by
  unfold Supervisor.remaining
  split
  · simp [Supervisor.fail]
  · exact h

lemma reap_keeps {pid : Int} {status : Nat} :
    (s.reap pid status).draining = s.draining ∧ (s.reap pid status).deadline = s.deadline ∧
      (s.reap pid status).pc ≠ .deadlineClock := by
  unfold Supervisor.reap
  split
  · simp [Supervisor.fail]
  · dsimp only
    split
    · simp [Supervisor.fail]
    · split <;> simp [Supervisor.fail]

/-- The place that sets the deadline is not reached again once draining. -/
lemma undrained_step (hs : s.draining → s.pc ≠ .deadlineClock) (hstep : Step seconds s e s') :
    s'.draining → s'.pc ≠ .deadlineClock := by
  cases hstep with
  | ends | drainAgain | drain => exact hs
  | clock hpc now | waitClock hpc now => exact fun _ => remaining_pc_ne (by simp)
  | reap => exact fun _ => reap_keeps.2.2
  | interrupted | stop | awake | shutdown => simp
  | terminate =>
      unfold Supervisor.terminate
      split
      · simp
      · simp_all
  | nothing =>
      intro hd
      unfold Supervisor.atSignalWait at *
      simp_all
  | _ => simp [Supervisor.fail, beginDrain]

/-- While draining, the deadline does not move. -/
lemma deadline_step (hd : s.draining) (hpc : s.pc ≠ .deadlineClock) (hstep : Step seconds s e s') :
    s'.deadline = s.deadline ∧ s'.draining := by
  cases hstep with
  | clock | waitClock => exact ⟨remaining_keeps.2, remaining_keeps.1.trans hd⟩
  | reap => exact ⟨reap_keeps.2.1, reap_keeps.1.trans hd⟩
  | terminate =>
      unfold Supervisor.terminate
      rw [if_pos hd]
      exact ⟨rfl, hd⟩
  | deadline hclock => exact absurd hclock hpc
  | _ => exact ⟨rfl, hd⟩

/-- A worker is only reaped by a wait. -/
lemma reaped_step (hpc : s.pc ≠ .drain) (hreaped : s'.reaped ≠ s.reaped)
    (hstep : Step seconds s e s') :
    ∃ before pid status after, s.pc = .wait ∧ s.children = before ++ ⟨pid, some status⟩ :: after ∧
      s' = (s.taken (before ++ after) pid status).reap pid status := by
  cases hstep with
  | reap hwait hchildren => exact ⟨_, _, _, _, hwait, hchildren, rfl⟩
  | clock | waitClock =>
      unfold Supervisor.remaining at hreaped
      split at hreaped <;> exact absurd rfl hreaped
  | terminate =>
      unfold Supervisor.terminate at hreaped
      split at hreaped <;> exact absurd rfl hreaped
  | drain hdrain => exact absurd hdrain hpc
  | _ => exact absurd rfl hreaped

lemma owned (hs : (supervise seconds workers).Reachable s) :
    Owned workers s ∧ (s.draining → s.pc ≠ .deadlineClock) ∧
      workers.Nodup ∧ ∀ pid ∈ workers, 0 < pid := by
  refine hs.invariant (I := fun s => Owned workers s ∧ (s.draining → s.pc ≠ .deadlineClock) ∧
    workers.Nodup ∧ ∀ pid ∈ workers, 0 < pid) ?_ ?_
  · rintro s ⟨hnodup, hpos, rfl⟩
    have hrecorded : recorded workers = workers :=
      List.filter_eq_self.mpr fun pid hpid => by simpa using Int.ne_of_gt (hpos pid hpid)
    refine ⟨⟨?_, ?_, ?_, ?_, ?_⟩, by simp [started], hnodup, hpos⟩
    · simp [started, Function.comp_def]
    · simp [started, hrecorded]
    · simp [started, hrecorded, Function.comp_def]
    · simp [started]
    · simp [started]
  · rintro x y _ ⟨howned, hclock, hnodup, hpos⟩ ⟨e, hstep⟩
    exact ⟨howned.step hpos hstep, undrained_step hclock hstep, hnodup, hpos⟩

end Runs

end Verbosec.Native.Pool
