import Verbosec.Lib.Transition
import Verbosec.Lib.Word
import Verbosec.Native.Wait

/-!
# Admission of the forking server

* `Admission` - the parent: where its loop is, its slot counter and its children.
* `Step` - one system call of the parent with the instructions up to the next one, or the end of a
  child, which may come between any two of them.
* `Admission.Accounted` - the counter is the number of children.

The parent owns all its waitable children. A wait reports an end, a stop of a traced child, an
interruption, or that there is nothing to report; other errors end the parent in `Exit.syscall`.

Source: `native/admission.rs`.
-/

namespace Verbosec.Native.Admission

open Verbosec.Lib

/-! ## The parent and its children -/

/-- Why the parent ends. -/
inductive Exit where
  /-- a child was reaped with no slot claimed -/
  | underflow
  /-- there is no child, but a slot is claimed -/
  | noChild
  /-- another failure of a system call -/
  | syscall
  deriving DecidableEq, Repr

/-- The two places where children are reaped. Source: `native/admission.rs`, `dispatch` -/
inductive Place where
  /-- at the top of the loop -/
  | top
  /-- after a connection was accepted -/
  | accepted
  deriving DecidableEq, Repr

/-- The next system call of the parent. Source: `native/admission.rs`, `dispatch` -/
inductive Pc where
  | reap (place : Place)
  | poll
  | accept
  | fork
  | close
  | exit (e : Exit)
  deriving DecidableEq, Repr

/-- The parent with its children. -/
structure Server where
  /-- the next system call -/
  pc : Pc
  /-- the slot counter. Source: `Admission::count` -/
  count : Nat
  /-- the children that have not been reaped -/
  children : List Child
  deriving DecidableEq, Repr

/-! ## The instructions between system calls -/

/-- After the last wait of a place. Source: `native/admission.rs`, `dispatch`, after `reap` -/
def afterReap (limit : Nat) (place : Place) (count : Nat) : Pc :=
  match place with
  | .top => .poll
  | .accepted => if imm limit ≤ count then .close else .fork

/-- A wait finds no children. Source: `native/admission.rs`, `reap`, label `no_children` -/
def noChildren (limit : Nat) (place : Place) (count : Nat) : Pc :=
  if count ≠ 0 then .exit .noChild else afterReap limit place count

/-- A child was reaped. Source: `native/admission.rs`, `reap` -/
def reaped (place : Place) (count : Nat) : Pc × Nat :=
  if signed count ≤ 0 then (.exit .underflow, count) else (.reap place, wordSub count 1)

/-! ## The loop -/

/-- One step of the parent and its children. Source: `native/admission.rs`, `reap` and `dispatch` -/
inductive Step (limit : Nat) : Server → Server → Prop
  /-- a running child ends -/
  | ends {pc count before pid status after} (hstatus : ¬ stopped status) :
      Step limit ⟨pc, count, before ++ ⟨pid, none⟩ :: after⟩
        ⟨pc, count, before ++ ⟨pid, some status⟩ :: after⟩
  /-- a wait is interrupted -/
  | interrupted {place count children} :
      Step limit ⟨.reap place, count, children⟩ ⟨.reap place, count, children⟩
  /-- a wait finds no child -/
  | noChildren {place count} :
      Step limit ⟨.reap place, count, []⟩ ⟨noChildren limit place count, count, []⟩
  /-- a wait finds nothing to report -/
  | nothing {place count children} (h : children ≠ []) :
      Step limit ⟨.reap place, count, children⟩ ⟨afterReap limit place count, count, children⟩
  /-- a wait reports the stop of a traced child -/
  | stop {place count children} (h : children ≠ []) :
      Step limit ⟨.reap place, count, children⟩ ⟨.reap place, count, children⟩
  /-- a wait reaps a child that has ended -/
  | reap {place count before pid status after} :
      Step limit ⟨.reap place, count, before ++ ⟨pid, some status⟩ :: after⟩
        ⟨(reaped place count).1, (reaped place count).2, before ++ after⟩
  /-- a wait fails -/
  | waitFails {place count children} :
      Step limit ⟨.reap place, count, children⟩ ⟨.exit .syscall, count, children⟩
  /-- the listener is polled without success -/
  | idle {count children} : Step limit ⟨.poll, count, children⟩ ⟨.reap .top, count, children⟩
  /-- a connection is waiting -/
  | ready {count children} : Step limit ⟨.poll, count, children⟩ ⟨.accept, count, children⟩
  /-- the poll fails -/
  | pollFails {count children} :
      Step limit ⟨.poll, count, children⟩ ⟨.exit .syscall, count, children⟩
  /-- a transient error of accept -/
  | retry {count children} : Step limit ⟨.accept, count, children⟩ ⟨.reap .top, count, children⟩
  /-- a permanent error of accept -/
  | acceptFails {count children} :
      Step limit ⟨.accept, count, children⟩ ⟨.exit .syscall, count, children⟩
  /-- a connection is accepted -/
  | accept {count children} :
      Step limit ⟨.accept, count, children⟩ ⟨.reap .accepted, count, children⟩
  /-- a child is forked, with a process number that no child has -/
  | fork {count children} (pid : Int) (hpid : ∀ c ∈ children, c.pid ≠ pid) :
      Step limit ⟨.fork, count, children⟩ ⟨.close, word (count + 1), ⟨pid, none⟩ :: children⟩
  /-- the fork fails -/
  | forkFails {count children} : Step limit ⟨.fork, count, children⟩ ⟨.close, count, children⟩
  /-- the parent closes its end of the connection -/
  | close {count children} : Step limit ⟨.close, count, children⟩ ⟨.reap .top, count, children⟩

/-- The server from its start-up on. Source: `native/admission.rs`, `setup` and `dispatch` -/
def serve (limit : Nat) : System Server where
  init := (· = ⟨.reap .top, 0, []⟩)
  step := Step limit

/-- The limits that a service may declare. Source: `ast.rs`, `Service::admission_error` -/
def admissible (limit : Nat) : Bool := 1 ≤ limit && limit ≤ 65535

/-! ## Accounting -/

/-- What holds of the server at every system call. -/
structure Accounted (limit : Nat) (s : Server) : Prop where
  /-- the counter is the number of children -/
  count_eq : s.count = s.children.length
  /-- no more children than slots -/
  bounded : s.count ≤ limit
  /-- a fork has a free slot -/
  free : s.pc = .fork → s.count < limit
  /-- the accounting exits are not taken -/
  sound : s.pc ≠ .exit .underflow ∧ s.pc ≠ .exit .noChild

variable {limit : Nat}

lemma afterReap_accounted (h : limit < 2 ^ 31) {place : Place} {count : Nat}
    {children : List Child} (hcount : count = children.length) (hle : count ≤ limit) :
    Accounted limit ⟨afterReap limit place count, count, children⟩ := by
  cases place with
  | top => exact ⟨hcount, hle, by simp [afterReap], by simp [afterReap]⟩
  | accepted =>
      by_cases hfull : limit ≤ count
      · refine ⟨hcount, hle, ?_, ?_⟩ <;> simp [afterReap, imm_of_lt h, hfull]
      · refine ⟨hcount, hle, fun _ => Nat.lt_of_not_le hfull, ?_⟩
        simp [afterReap, imm_of_lt h, hfull]

/-- **Every step keeps the account.** -/
lemma Accounted.step (h : limit < 2 ^ 31) {s s' : Server} (hs : Accounted limit s)
    (hstep : Step limit s s') : Accounted limit s' := by
  obtain ⟨hcount, hle, hfree, hsound⟩ := hs
  cases hstep with
  | ends hstatus => exact ⟨by simpa using hcount, hle, hfree, hsound⟩
  | noChildren =>
      obtain rfl : _ = 0 := hcount
      exact afterReap_accounted h rfl (Nat.zero_le _)
  | nothing => exact afterReap_accounted h hcount hle
  | @reap place count before pid status after =>
      -- the child that is reaped is one of those counted
      have hpos : count = before.length + (after.length + 1) := by simpa using hcount
      have hlt : count < 2 ^ 63 := by simp only at hle; omega
      have hreaped : reaped place count = (.reap place, count - 1) := by
        rw [reaped, signed_of_lt hlt, if_neg (by omega), wordSub_of_le (by omega) (by omega)]
      rw [hreaped]
      refine ⟨?_, ?_, by simp, by simp⟩
      · simp; omega
      · simp only at hle ⊢; omega
  | @fork count children pid hpid =>
      have hlt : count < limit := hfree rfl
      have hword : word (count + 1) = count + 1 := word_of_lt (by omega)
      rw [hword]
      exact ⟨by simpa using hcount, hlt, by simp, by simp⟩
  | _ => exact ⟨hcount, hle, by simp, by simp⟩

/-- **The account of every run.** With an admissible limit, at every system call of every run the
counter is the number of children not yet reaped and at most the limit, a fork is only attempted
below the limit, and the exits on an underflow and on a missing child are not taken. -/
theorem serve_accounted (h : admissible limit) {s : Server} (hs : (serve limit).Reachable s) :
    s.count = s.children.length ∧ s.count ≤ limit ∧ (s.pc = .fork → s.count < limit) ∧
      s.pc ≠ .exit .underflow ∧ s.pc ≠ .exit .noChild := by
  have hlimit : limit < 2 ^ 31 := by
    simp only [admissible, Bool.and_eq_true, decide_eq_true_eq] at h
    omega
  have hacc : Accounted limit s := by
    refine hs.invariant ?_ fun x y _ hx hstep => hx.step hlimit hstep
    rintro x rfl
    exact ⟨rfl, Nat.zero_le _, by simp, by simp⟩
  exact ⟨hacc.count_eq, hacc.bounded, hacc.free, hacc.sound⟩

/-- A run with one slot: the child that was forked claims it. -/
theorem serve_accounted_one :
    (1 : Nat) = [(⟨7, none⟩ : Child)].length ∧ (1 : Nat) ≤ 1 ∧ (Pc.close = .fork → 1 < 1) ∧
      Pc.close ≠ .exit .underflow ∧ Pc.close ≠ .exit .noChild := by
  have h₀ : (serve 1).Reachable ⟨.reap .top, 0, []⟩ := .init rfl
  have h₁ : (serve 1).Reachable ⟨.poll, 0, []⟩ := h₀.step .noChildren
  have h₂ : (serve 1).Reachable ⟨.reap .accepted, 0, []⟩ := (h₁.step .ready).step .accept
  have h₃ : (serve 1).Reachable ⟨.fork, 0, []⟩ := h₂.step .noChildren
  exact serve_accounted (by decide) (h₃.step (.fork 7 (by simp)))

end Verbosec.Native.Admission
