import Mathlib.Algebra.BigOperators.Group.Finset.Basic
import Verbosec.Native.LanesRun

/-!
# The end of the lanes

* `Lane.turn_isSome` - a worker goes on unless it waits or has ended.
* `State.Sound.progress` - an execution that has not ended goes on: the coordinator never waits for
  a worker that waits for it.
* `Lane.cost`, `State.cost` - what is left to do; every instruction lowers it, and an interrupted
  call raises it by two.
* `lanes_terminate` - the instructions of a run are bounded, and a run that has not ended goes on.

Source: `native/concurrent/emit.rs`.
-/

namespace Verbosec.Native.Lanes

open Verbosec.Lib

variable {α : Type*} {job : Job α} {s s' : State α} {k : Nat} {p : Phase α} {l l' : Lane α}

/-! ## Progress -/

/-- A worker goes on unless it waits or has ended. -/
lemma Lane.turn_isSome (hended : l.worker ≠ .ended) (haborted : l.worker ≠ .aborted)
    (hasleep : ∀ after, l.worker ≠ .asleep after) : ∃ l', l.turn job p = some l' := by
  unfold Lane.turn
  cases hw : l.worker with
  | store rest bytes cursor => cases bytes <;> exact ⟨_, rfl⟩
  | pending after => cases hword : l.word <;> exact ⟨_, rfl⟩
  | asleep after => exact absurd hw (hasleep after)
  | ended => exact absurd hw hended
  | aborted => exact absurd hw haborted
  | _ => exact ⟨_, rfl⟩

namespace State.Sound

/-- The worker of a lane goes on. -/
lemma worker_goes (h : s.Sound job) (hk : k < (s.wave job).length)
    (hended : (s.lanes k).worker ≠ .ended) (hasleep : ∀ after, (s.lanes k).worker ≠ .asleep after) :
    ∃ s', Step job s s' := by
  have hp := List.getElem?_eq_getElem hk
  have haborted : (s.lanes k).worker ≠ .aborted := fun hw => by
    have hat := (h.lanes k _ hp).at_worker
    simp only [Lane.At, hw] at hat
  obtain ⟨l', hturn⟩ : ∃ l', (s.lanes k).turn job (s.wave job)[k] = some l' :=
    Lane.turn_isSome hended haborted hasleep
  exact ⟨_, .worker hp (by rw [State.work, hturn, Option.map_some])⟩

/-- **Progress**: an execution that has not ended goes on. -/
lemma progress (h : s.Sound job) : (∃ failed, s.place = .exited failed) ∨ ∃ s', Step job s s' := by
  have hplace := h.place
  have hcoordinate : ∀ answer, (s.coordinate job answer).isSome → ∃ s', Step job s s' :=
    fun answer hsome => ⟨_, .coordinator (Option.some_get hsome).symm⟩
  cases hs : s.place with
  | exited failed => exact .inl ⟨failed, rfl⟩
  | asleep k =>
      simp only [State.At, hs] at hplace
      obtain ⟨hr, hk, hword⟩ := hplace
      have hlive := hr.live k (Nat.le_refl k) hk
      refine .inr (h.worker_goes hk (fun hended => ?_) fun after hasleep => ?_)
      · rcases hword with hword | ⟨after, hw⟩
        · exact hlive.2 hended hword
        · rw [hended] at hw
          cases hw
      · rcases hword with hword | ⟨after', hw⟩
        · rcases h.sleeping k after hasleep with hready | hwake | hwake
          · rw [hword] at hready
            cases hready
          · rw [hs] at hwake
            cases hwake
          · rw [hs] at hwake
            cases hwake
        · rw [hasleep] at hw
          cases hw
  | joinAsleep k =>
      simp only [State.At, hs] at hplace
      obtain ⟨-, hwords, -, hended⟩ := hplace
      have hk : k < (s.wave job).length := Nat.lt_of_not_le fun hle => hended (h.idle k hle).ended
      refine .inr (h.worker_goes hk hended fun after hasleep => ?_)
      rcases h.sleeping k after hasleep with hready | hwake | hwake
      · rw [hwords k hk] at hready
        split_ifs at hready
      · rw [hs] at hwake
        cases hwake
      · rw [hs] at hwake
        cases hwake
  | write k start n =>
      refine .inr (hcoordinate (.ok n) ?_)
      by_cases hn : n = 0
      · simp [State.coordinate, hs, hn]
      · simp [State.coordinate, hs, hn, Nat.pos_of_ne_zero hn]
  | receive k =>
      refine .inr (hcoordinate (.ok 0) ?_)
      simp only [State.coordinate, hs]
      split_ifs
      · split <;> rfl
      · rfl
  | reset k | clone k | join k | ready k | cancelLane k =>
      refine .inr (hcoordinate (.ok 0) ?_)
      simp only [State.coordinate, hs]
      split_ifs <;> rfl
  | _ => exact .inr (hcoordinate (.ok 0) (by simp [State.coordinate, hs]))

end State.Sound

/-! ## Costs -/

/-- The bytes of a result at most. -/
def Job.bytes (job : Job α) : Nat :=
  job.phases.foldr (fun p bytes => max p.outputBytes bytes) 0 * job.batch

/-- What it takes the coordinator to take a result. -/
def Job.taking (job : Job α) : Nat := job.bytes + 11

/-- What it takes a worker to go through a record. -/
def Job.recording (job : Job α) : Nat := job.taking + job.bytes + 16

/-- What it takes a worker to end after its last record. -/
def Job.ending (job : Job α) : Nat := 2 * job.taking + 25

/-- What it takes a worker to go through all records. -/
def Job.working (job : Job α) : Nat := job.recording * job.args.length + job.ending + 2

/-- What the phases from one on take. -/
def Job.later (job : Job α) (start : Nat) : Nat :=
  (job.phases.length - start) * (job.limit * (job.working + 16) + job.bytes + 15)

/-- What is left to do for a worker after an exchange. -/
def After.cost (job : Job α) : After α → Nat
  | .next rest => job.recording * rest.length + job.ending + 2
  | .complete => job.taking + 11
  | .exit => 1

/-- What is left to do for a worker. -/
def Lane.working (job : Job α) (l : Lane α) : Nat :=
  match l.worker with
  | .start => job.working
  | .next rest => job.recording * rest.length + job.ending + 1
  | .record rest => job.recording * rest.length + job.ending
  | .store rest bytes _ => (After.next rest).cost job + job.taking + bytes.length + 13
  | .commit rest => (After.next rest).cost job + job.taking + 12
  | .flush after => after.cost job + job.taking + 11
  | .publish _ after => after.cost job + job.taking + 10
  | .wake after => after.cost job + 7
  | .pending after => after.cost job + 3
  | .wait after => after.cost job + if l.word = .ready then 2 else 4
  | .asleep after => after.cost job + 1
  | .done | .fail => 2 * job.taking + 24
  | .terminal => 2 * job.taking + 23
  | .exit => 3
  | .ended | .aborted => 0

/-- What is left to do for a lane; a result that is published is still to be taken. -/
def Lane.cost (job : Job α) (l : Lane α) : Nat :=
  l.working job + if l.word = .ready then job.taking else 0

/-- A coordinator that would wait looks again where there is something to take. -/
def Lane.unread (l : Lane α) : Nat := if l.word = .empty then 0 else 2

/-- A coordinator that would wait looks again where the worker has ended. -/
def Lane.unjoined (l : Lane α) : Nat := if l.thread then 0 else 2

/-- What is left to do for the coordinator, but for the results that it is still to take. -/
def State.coordination (job : Job α) (s : State α) : Nat :=
  let n := (s.wave job).length
  let later := job.later (s.start + job.limit)
  match s.place with
  | .reset k => n - k + n * (job.working + 1) + (14 * n + later + job.bytes + 17)
  | .clone k => (n - k) * (job.working + 1) + (14 * n + later + job.bytes + 16)
  | .receive k => 4 * (n - k) + 10 * n + later + job.bytes + 15
  | .ready k | .done k => 4 * (n - k) + 10 * n + later + job.bytes + 14
  | .wait k => 4 * (n - k) + 10 * n + later + job.bytes + 14 + (s.lanes k).unread
  | .asleep k => 4 * (n - k) + 10 * n + later + job.bytes + 13
  | .write k _ left => 4 * (n - k) + 10 * n + later + left + 11
  | .consumed k => 4 * (n - k) + 10 * n + later + 10
  | .wake k => 4 * (n - k) + 10 * n + later + job.bytes + 18
  | .cancel => 10 * n + later + 5
  | .cancelLane k => 6 * (n - k) + 4 * n + later + 4
  | .cancelWake k => 6 * (n - (k + 1)) + 4 * n + later + 7
  | .join k => 4 * (n - k) + later + 3
  | .joinWait k => 4 * (n - k) + later + 2 + (s.lanes k).unjoined
  | .joinAsleep k => 4 * (n - k) + later + 1
  | .exited _ => 0

/-- What is left to do for some lanes. -/
def laneCosts (job : Job α) (lanes : Nat → Lane α) : Nat :=
  ∑ k ∈ Finset.range job.limit, (lanes k).cost job

/-- What is left to do. -/
def State.cost (job : Job α) (s : State α) : Nat := laneCosts job s.lanes + s.coordination job

/-! ### Lanes -/

lemma After.cost_pos (job : Job α) (after : After α) : 0 < after.cost job := by
  cases after <;> simp [After.cost]

/-- The room of a lane is at most that of all phases. -/
lemma capacity_le (job : Job α) (k : Nat) : job.capacity k ≤ job.bytes := by
  refine Nat.mul_le_mul_right _ ?_
  rw [show job.phases.foldr (fun p bytes => max p.outputBytes bytes) 0 =
      (job.phases.zipIdx).foldr (fun x bytes => max x.1.outputBytes bytes) 0 by
    conv_lhs => rw [← List.zipIdx_map_fst 0 job.phases, List.foldr_map]]
  induction job.phases.zipIdx with
  | nil => exact Nat.le_refl 0
  | cons x xs ih =>
      rw [List.filter_cons]
      split
      · exact max_le_max (Nat.le_refl _) ih
      · exact ih.trans (Nat.le_max_right _ _)

lemma outputBytes_le {i : Nat} (hp : job.phases[i]? = some p) : p.outputBytes ≤ job.bytes :=
  ((Nat.le_mul_of_pos_right _ job.batch_pos).trans (le_capacity hp)).trans (capacity_le job _)

/-- A record that is read is one less. -/
lemma recording_drop (job : Job α) (p : Phase α) {rest : List α} (hrest : rest ≠ []) :
    job.recording * (rest.drop p.width).length + job.recording ≤ job.recording * rest.length := by
  have hpos := List.length_pos_of_ne_nil hrest
  have hwidth := p.width_pos
  rw [List.length_drop, ← Nat.mul_succ]
  exact Nat.mul_le_mul_left _ (by omega)

/-- Does an instruction of a worker leave a coordinator that waits where it is? -/
def Lane.Quiet (l l' : Lane α) : Prop :=
  l'.word = l.word ∧ l'.thread = l.thread ∧ (∀ after, l.worker ≠ .wake after) ∧ l.worker ≠ .exit

/-- An instruction of a worker lowers what is left to do; where the coordinator may have to look
again, by enough for that. -/
lemma Lane.turn_cost (houtput : p.outputBytes ≤ job.bytes) (hturn : l.turn job p = some l') :
    l'.cost job < l.cost job ∧ (l.Quiet l' ∨ l'.cost job + 2 < l.cost job) := by
  unfold Lane.turn at hturn
  unfold Lane.cost Lane.working Lane.Quiet
  cases hw : l.worker with
  | start =>
      rw [hw] at hturn
      cases hturn
      have hword : (if job.batch = 1 then l else l.resetBatch).word = l.word := by split <;> rfl
      have hthread : (if job.batch = 1 then l else l.resetBatch).thread = l.thread := by
        split <;> rfl
      refine ⟨?_, .inl ⟨hword, hthread, by simp, by simp⟩⟩
      simp only [hword]
      by_cases hargs : job.args.length < p.width
      · simp only [if_pos hargs, Job.working, Job.ending]
        omega
      · simp only [if_neg hargs, Job.working]
        omega
  | next rest =>
      rw [hw] at hturn
      cases hturn
      refine ⟨?_, .inl ⟨rfl, rfl, by simp, by simp⟩⟩
      by_cases hc : l.word = .cancel
      · simp only [if_pos hc, Job.ending]
        omega
      · simp only [if_neg hc]
        omega
  | record rest =>
      rw [hw] at hturn
      obtain rfl := Option.some.inj hturn
      unfold Lane.record
      by_cases hrest : rest = []
      · rw [if_pos hrest]
        refine ⟨?_, .inl ⟨rfl, rfl, by simp, by simp⟩⟩
        simp only [Job.ending]
        omega
      rw [if_neg hrest]
      by_cases hshort : rest.length < p.width
      · rw [if_pos hshort]
        refine ⟨?_, .inl ⟨rfl, rfl, by simp, by simp⟩⟩
        simp only [Job.ending]
        omega
      rw [if_neg hshort]
      cases hrun : p.run (rest.take p.width) with
      | none =>
          refine ⟨?_, .inl ⟨rfl, rfl, by simp, by simp⟩⟩
          simp only [Job.ending]
          omega
      | some r =>
          obtain ⟨bytes, falsy⟩ := r
          have hlen := (p.fits _ _ _ hrun).trans houtput
          have hdrop := recording_drop job p hrest
          have hrecording : job.recording = job.taking + job.bytes + 16 := rfl
          refine ⟨?_, .inl ⟨rfl, rfl, by simp, by simp⟩⟩
          simp only [After.cost]
          omega
  | store rest bytes cursor =>
      cases bytes with
      | nil =>
          rw [hw] at hturn
          cases hturn
          refine ⟨?_, .inl ⟨rfl, rfl, by simp, by simp⟩⟩
          by_cases hb : job.batch = 1
          · simp only [if_pos hb, List.length_nil]
            omega
          · simp only [if_neg hb, List.length_nil]
            omega
      | cons b bytes =>
          rw [hw] at hturn
          cases hturn
          refine ⟨?_, .inl ⟨rfl, rfl, by simp, by simp⟩⟩
          simp only [List.length_cons]
          omega
  | commit rest =>
      rw [hw] at hturn
      cases hturn
      refine ⟨?_, .inl ⟨rfl, rfl, by simp, by simp⟩⟩
      unfold Lane.commit
      by_cases hlt : l.count + 1 < job.batch
      · simp only [if_pos hlt, After.cost]
        omega
      · simp only [if_neg hlt]
        omega
  | flush after =>
      rw [hw] at hturn
      cases hturn
      refine ⟨?_, .inl ⟨rfl, rfl, by simp, by simp⟩⟩
      simp only
      omega
  | publish word after =>
      rw [hw] at hturn
      cases hturn
      by_cases he : l.word = .empty
      · have hlt : (after.cost job + 7 + if word = .ready then job.taking else 0) + 2 <
            after.cost job + job.taking + 10 + if l.word = .ready then job.taking else 0 := by
          split_ifs <;> omega
        rw [if_pos he]
        exact ⟨by simp only; omega, .inr hlt⟩
      · have := after.cost_pos job
        rw [if_neg he]
        refine ⟨?_, .inl ⟨rfl, rfl, by simp, by simp⟩⟩
        simp only
        omega
  | wake after =>
      rw [hw] at hturn
      cases hturn
      cases after <;> simp only [After.await, After.cost] <;> omega
  | pending after =>
      have := after.cost_pos job
      rw [hw] at hturn
      simp only at hturn
      cases hword : l.word with
      | empty =>
          rw [hword] at hturn
          cases hturn
          cases after with
          | next rest =>
              have hw' : (if job.batch = 1 then l else l.resetBatch).word = l.word := by
                split <;> rfl
              have ht' : (if job.batch = 1 then l else l.resetBatch).thread = l.thread := by
                split <;> rfl
              refine ⟨?_, .inl ⟨hw'.trans hword, ht', by simp, by simp⟩⟩
              simp only [Lane.consumed, hw', hword, After.cost]
              omega
          | complete =>
              refine ⟨?_, .inl ⟨hword, rfl, by simp, by simp⟩⟩
              simp only [Lane.consumed, hword, After.cost]
              omega
          | exit =>
              refine ⟨?_, .inl ⟨hword, rfl, by simp, by simp⟩⟩
              simp only [Lane.consumed, hword, After.cost]
              omega
      | ready | done | error | cancel =>
          rw [hword] at hturn
          cases hturn
          refine ⟨?_, .inl ⟨rfl, rfl, by simp, by simp⟩⟩
          simp only [if_true, reduceCtorEq, if_false]
          omega
  | wait after =>
      rw [hw] at hturn
      cases hturn
      refine ⟨?_, .inl ⟨rfl, rfl, by simp, by simp⟩⟩
      by_cases hr : l.word = .ready
      · simp only [if_pos hr]
        omega
      · simp only [if_neg hr]
        omega
  | done | fail =>
      rw [hw] at hturn
      cases hturn
      by_cases hb : job.batch = 1
      · simp only [if_pos hb, After.cost]
        exact ⟨by omega, .inl ⟨trivial, trivial, by simp, by simp⟩⟩
      · simp only [if_neg hb]
        exact ⟨by omega, .inl ⟨trivial, trivial, by simp, by simp⟩⟩
  | terminal =>
      rw [hw] at hturn
      cases hturn
      by_cases hf : l.filled = 0
      · simp only [if_pos hf, After.cost]
        exact ⟨by omega, .inl ⟨trivial, trivial, by simp, by simp⟩⟩
      · simp only [if_neg hf, After.cost]
        exact ⟨by omega, .inl ⟨trivial, trivial, by simp, by simp⟩⟩
  | exit =>
      rw [hw] at hturn
      cases hturn
      simp only
      omega
  | asleep after | ended | aborted => rw [hw] at hturn; cases hturn

/-- A word that takes a result, or a call that wakes, makes a worker look again. -/
lemma Lane.cost_word (job : Job α) (l : Lane α) {word : Word} (hword : word ≠ .ready) :
    ({ l with word := word } : Lane α).cost job + (if l.word = .ready then job.taking else 0) ≤
      l.cost job + 2 := by
  unfold Lane.cost Lane.working
  simp only [if_neg hword]
  cases l.worker <;> simp only <;> (try split_ifs) <;> omega

lemma Lane.cost_ended {word : Word} (hword : word ≠ .ready) (hended : l.worker = .ended) :
    ({ l with word := word } : Lane α).cost job ≤ l.cost job := by
  simp [Lane.cost, Lane.working, hended, hword]

lemma Lane.cost_woken (l : Lane α) : l.woken.cost job ≤ l.cost job + 2 := by
  unfold Lane.woken
  cases hw : l.worker with
  | asleep after => simp only [Lane.cost, Lane.working, hw]; omega
  | _ => exact Nat.le_add_right _ _

/-- The lanes after a change of one. -/
lemma laneCosts_set {lanes : Nat → Lane α} (hk : k < job.limit) :
    laneCosts job (Function.update lanes k l) + (lanes k).cost job =
      laneCosts job lanes + l.cost job := by
  have hmem : k ∈ Finset.range job.limit := Finset.mem_range.mpr hk
  unfold laneCosts
  rw [← Finset.sum_erase_add _ _ hmem, ← Finset.sum_erase_add _ _ hmem, Function.update_self]
  have hrest : ∑ j ∈ (Finset.range job.limit).erase k, (Function.update lanes k l j).cost job =
      ∑ j ∈ (Finset.range job.limit).erase k, (lanes j).cost job :=
    Finset.sum_congr rfl fun j hj => by rw [Function.update_of_ne (Finset.ne_of_mem_erase hj)]
  omega

/-- The lanes after a change of one that raises what is left to do by at most `n`. -/
lemma laneCosts_le {lanes : Nat → Lane α} {n : Nat} (hl : l.cost job ≤ (lanes k).cost job + n) :
    laneCosts job (Function.update lanes k l) ≤ laneCosts job lanes + n := by
  rcases Nat.lt_or_ge k job.limit with hk | hk
  · have : laneCosts job (Function.update lanes k l) + (lanes k).cost job =
        laneCosts job lanes + l.cost job := laneCosts_set hk
    omega
  · refine (Finset.sum_congr rfl fun j hj => ?_).le.trans (Nat.le_add_right _ _)
    rw [Function.update_of_ne]
    have := Finset.mem_range.mp hj
    omega

lemma wave_le (s : State α) : (s.wave job).length ≤ job.limit := by
  rw [State.wave, List.length_take]
  exact Nat.min_le_left _ _

/-- A wave and what comes after it take less than what was planned for it. -/
lemma wave_cost (job : Job α) (start : Nat) {n : Nat} (hn : n ≤ job.limit)
    (hstart : start < job.phases.length) :
    n + n * (job.working + 1) + 14 * n + job.later (start + job.limit) + job.bytes + 17 <
      job.later start + 3 := by
  have hmul := Nat.mul_le_mul_right (job.working + 16) hn
  rw [Nat.mul_add n, Nat.mul_add] at *
  have hlimit := job.limit_pos
  have hlater : job.later (start + job.limit) +
      (job.limit * (job.working + 16) + job.bytes + 15) ≤ job.later start := by
    unfold Job.later
    rw [← Nat.succ_mul]
    exact Nat.mul_le_mul_right _ (by omega)
  rw [Nat.mul_add] at hlater
  omega

/-! ### Instructions -/

/-- A coordinator that is not waiting for a lane does not depend on it. -/
lemma State.coordination_setLane (job : Job α) (s : State α) (k : Nat) (l : Lane α) :
    ((s.setLane k l).goto s.place).coordination job ≤ s.coordination job + 2 ∧
      (l.word = (s.lanes k).word → l.thread = (s.lanes k).thread →
        ((s.setLane k l).goto s.place).coordination job = s.coordination job) := by
  unfold State.coordination
  cases hs : s.place with
  | wait j =>
      have hlane : (Function.update s.lanes k l j).unread ≤ 2 := by
        unfold Lane.unread
        split <;> omega
      refine ⟨Nat.add_le_add (Nat.le_add_right _ _) hlane,
        fun hword _ => Nat.add_left_cancel_iff.mpr ?_⟩
      refine State.forall_update (P := fun j l => l.word = (s.lanes j).word →
        l.unread = (s.lanes j).unread) (fun hword => ?_) (fun _ _ _ => rfl) j ?_
      · unfold Lane.unread
        rw [hword]
      · exact State.forall_update (P := fun j l => l.word = (s.lanes j).word) hword
          (fun _ _ => rfl) j
  | joinWait j =>
      have hlane : (Function.update s.lanes k l j).unjoined ≤ 2 := by
        unfold Lane.unjoined
        split <;> omega
      refine ⟨Nat.add_le_add (Nat.le_add_right _ _) hlane,
        fun _ hthread => Nat.add_left_cancel_iff.mpr ?_⟩
      refine State.forall_update (P := fun j l => l.thread = (s.lanes j).thread →
        l.unjoined = (s.lanes j).unjoined) (fun hthread => ?_) (fun _ _ _ => rfl) j ?_
      · unfold Lane.unjoined
        rw [hthread]
      · exact State.forall_update (P := fun j l => l.thread = (s.lanes j).thread) hthread
          (fun _ _ => rfl) j
  | _ => exact ⟨Nat.le_add_right _ _, fun _ _ => rfl⟩

/-- An instruction of a worker lowers what is left to do. -/
lemma State.work_cost (hp : (s.wave job)[k]? = some p) (hwork : s.work job p k = some s') :
    s'.cost job < s.cost job := by
  obtain ⟨l, hturn, rfl⟩ := Option.map_eq_some_iff.mp hwork
  have hphase : job.phases[s.start + k]? = some p := by
    rw [State.wave, List.getElem?_take] at hp
    split_ifs at hp
    rwa [List.getElem?_drop] at hp
  have hk := (State.lt_of_wave hp).trans_le (wave_le s)
  obtain ⟨hlt, hquiet⟩ := Lane.turn_cost (outputBytes_le hphase) hturn
  have hlanes : laneCosts job (Function.update s.lanes k l) + (s.lanes k).cost job =
      laneCosts job s.lanes + l.cost job := laneCosts_set hk
  unfold State.cost
  rw [State.lanes_goto, State.lanes_setLane]
  rcases Place.after_cases s.place k (s.lanes k).worker with
    ⟨hpc, -⟩ | ⟨hs, ⟨after, hw⟩, hpc⟩ | ⟨hs, hexit, hpc⟩
  · rw [hpc]
    obtain ⟨hle, hsame⟩ := State.coordination_setLane job s k l
    rcases hquiet with hquiet | hmore
    · have := hsame hquiet.1 hquiet.2.1
      omega
    · omega
  · have hmore := hquiet.resolve_left fun hquiet => hquiet.2.2.1 after hw
    have hle : ((s.setLane k l).goto (.receive k)).coordination job ≤ s.coordination job + 2 := by
      simp only [State.coordination, hs]
      exact Nat.le_refl _
    rw [hpc]
    omega
  · have hmore := hquiet.resolve_left fun hquiet => hquiet.2.2.2 hexit
    have hle : ((s.setLane k l).goto (.join k)).coordination job ≤ s.coordination job + 2 := by
      simp only [State.coordination, hs]
      exact Nat.le_refl _
    rw [hpc]
    omega

namespace State.Sound

/-- The coordinator at another place, with less to do. -/
lemma cost_goto {place : Place}
    (h : (s.goto place).coordination job < s.coordination job) :
    (s.goto place).cost job < s.cost job :=
  Nat.add_lt_add_left h _

/-- The coordinator at another place, with a lane that has more to do by less. -/
lemma cost_set {place : Place} {n : Nat} (hl : l.cost job ≤ (s.lanes k).cost job + n)
    (h : ((s.setLane k l).goto place).coordination job + n < s.coordination job) :
    ((s.setLane k l).goto place).cost job < s.cost job := by
  have hlanes := laneCosts_le hl
  unfold State.cost
  rw [lanes_goto, lanes_setLane]
  omega

lemma receive_cost (hs : s.place = .receive k) {answer : Answer}
    (hstep : s.coordinate job answer = some s') : s'.cost job < s.cost job := by
  simp only [State.coordinate, hs] at hstep
  split_ifs at hstep
  · cases hword : (s.lanes k).word <;> simp only [hword] at hstep <;> cases hstep
    all_goals
      refine cost_goto ?_
      simp only [State.coordination, hs, place_goto, wave_goto, start_goto, lanes_goto,
        Lane.unread, hword, if_true]
      omega
  · cases hstep
    refine cost_goto ?_
    simp only [State.coordination, hs, place_goto, wave_goto, start_goto]
    omega

/-- Taking a result is paid for by the lane that has published it. -/
lemma consumed_cost (h : s.Sound job) (hs : s.place = .consumed k) {answer : Answer}
    (hstep : s.coordinate job answer = some s') : s'.cost job < s.cost job := by
  have hplace := h.place
  simp only [State.At, hs] at hplace
  obtain ⟨-, hk, hready⟩ := hplace
  simp only [State.coordinate, hs] at hstep
  have hlane := Lane.cost_word job (s.lanes k) (show Word.empty ≠ .ready by simp)
  rw [if_pos hready] at hlane
  generalize ({ s.lanes k with word := .empty } : Lane α) = l at hstep hlane
  cases hstep
  have hlanes : laneCosts job (Function.update s.lanes k l) + (s.lanes k).cost job =
      laneCosts job s.lanes + l.cost job := laneCosts_set (hk.trans_le (wave_le s))
  have htaking : job.taking = job.bytes + 11 := rfl
  simp only [State.cost, State.coordination, hs, place_goto, wave_goto, start_goto, lanes_goto,
    wave_setLane, start_setLane, lanes_setLane]
  omega

/-- The end of a wave pays for the next one. -/
lemma join_cost (hs : s.place = .join k) {answer : Answer}
    (hstep : s.coordinate job answer = some s') : s'.cost job < s.cost job := by
  simp only [State.coordinate, hs] at hstep
  split_ifs at hstep with hk hthread hfailed
  · cases hstep
    refine cost_goto ?_
    simp only [State.coordination, hs, place_goto, wave_goto, start_goto, lanes_goto,
      Lane.unjoined, hthread, if_true]
    omega
  · cases hstep
    refine cost_goto ?_
    simp only [State.coordination, hs, place_goto, wave_goto, start_goto]
    omega
  · cases hstep
    refine cost_goto ?_
    simp only [State.coordination, hs, place_goto]
    omega
  · obtain rfl := Option.some.inj hstep
    unfold State.nextWave
    split_ifs with hlast
    · refine cost_goto ?_
      simp only [State.coordination, hs, place_goto]
      omega
    · refine Nat.add_lt_add_left ?_ (laneCosts job s.lanes)
      have hcost := wave_cost job (s.start + job.limit)
        (wave_le { s with place := .reset 0, start := s.start + job.limit })
        (Nat.lt_of_not_le hlast)
      simp only [State.coordination, hs]
      omega

/-- **An instruction of the coordinator lowers what is left to do.** -/
lemma coordinate_cost (h : s.Sound job) {answer : Answer}
    (hstep : s.coordinate job answer = some s') : s'.cost job < s.cost job := by
  have hplace := h.place
  cases hs : s.place with
  | reset k =>
      simp only [State.At, hs] at hplace
      simp only [State.coordinate, hs] at hstep
      split_ifs at hstep with hk <;> cases hstep
      · refine cost_set (n := 0) (Lane.cost_ended (by simp) (hplace.2.1 k)) ?_
        simp only [State.coordination, hs, place_goto, wave_goto, start_goto, wave_setLane,
          start_setLane]
        omega
      · refine cost_goto ?_
        simp only [State.coordination, hs, place_goto, wave_goto, start_goto, Nat.sub_zero]
        omega
  | clone k =>
      simp only [State.coordinate, hs] at hstep
      split_ifs at hstep with hk
      · have hmul : ((s.wave job).length - k) * (job.working + 1) =
            ((s.wave job).length - (k + 1)) * (job.working + 1) + (job.working + 1) := by
          rw [← Nat.succ_mul]
          congr 1
          omega
        cases answer with
        | ok n =>
            cases hstep
            refine cost_set (n := job.working) ?_ ?_
            · simp only [Lane.cost, Lane.working]
              omega
            · simp only [State.coordination, hs, place_goto, wave_goto, start_goto, wave_setLane,
                start_setLane]
              omega
        | failed =>
            cases hstep
            refine Nat.add_lt_add_left ?_ (laneCosts job s.lanes)
            simp only [State.coordination, hs, State.wave]
            omega
      · cases hstep
        refine cost_goto ?_
        simp only [State.coordination, hs, place_goto, wave_goto, start_goto]
        omega
  | receive k => exact receive_cost hs hstep
  | wait k =>
      simp only [State.coordinate, hs] at hstep
      cases hstep
      refine cost_goto ?_
      by_cases hempty : (s.lanes k).word = .empty
      · simp only [State.coordination, hs, place_goto, wave_goto, start_goto, Lane.unread,
          if_pos hempty]
        omega
      · simp only [State.coordination, hs, place_goto, wave_goto, start_goto, Lane.unread,
          if_neg hempty]
        omega
  | ready k =>
      have hcapacity := capacity_le job k
      simp only [State.coordinate, hs] at hstep
      split at hstep <;> cases hstep <;> refine cost_goto ?_ <;>
        simp only [State.coordination, hs, place_goto, wave_goto, start_goto] <;> omega
  | write k start left =>
      simp only [State.coordinate, hs] at hstep
      split_ifs at hstep with hn
      · cases hstep
        refine cost_goto ?_
        simp only [State.coordination, hs, place_goto, wave_goto, start_goto]
        omega
      · cases answer with
        | failed =>
            cases hstep
            refine Nat.add_lt_add_left ?_ (laneCosts job s.lanes)
            simp only [State.coordination, hs, State.wave]
            omega
        | ok m =>
            simp only at hstep
            split_ifs at hstep with hm
            cases hstep
            refine Nat.add_lt_add_left ?_ (laneCosts job s.lanes)
            simp only [State.coordination, hs, State.wave]
            omega
  | consumed k => exact h.consumed_cost hs hstep
  | wake k | cancelWake k =>
      simp only [State.coordinate, hs] at hstep
      cases hstep
      refine cost_set (s.lanes k).cost_woken ?_
      simp only [State.coordination, hs, place_goto, wave_goto, start_goto, wave_setLane,
        start_setLane]
      omega
  | done k =>
      simp only [State.At, hs] at hplace
      have hk := hplace.2.1
      simp only [State.coordinate, hs] at hstep
      cases hstep
      refine cost_goto ?_
      split <;> simp only [State.coordination, hs, place_goto, wave_goto, start_goto] <;> omega
  | cancel =>
      simp only [State.coordinate, hs] at hstep
      cases hstep
      refine Nat.add_lt_add_left ?_ (laneCosts job s.lanes)
      simp only [State.coordination, hs, State.wave]
      omega
  | cancelLane k =>
      simp only [State.coordinate, hs] at hstep
      split_ifs at hstep with hk <;> cases hstep
      · refine cost_set (n := 2) ?_ ?_
        · exact (Nat.le_add_right _ _).trans ((s.lanes k).cost_word job (by simp))
        · simp only [State.coordination, hs, place_goto, wave_goto, start_goto, wave_setLane,
            start_setLane]
          omega
      · refine cost_goto ?_
        simp only [State.coordination, hs, place_goto, wave_goto, start_goto]
        omega
  | join k => exact join_cost hs hstep
  | joinWait k =>
      simp only [State.coordinate, hs] at hstep
      cases hstep
      refine cost_goto ?_
      cases hthread : (s.lanes k).thread <;>
        simp only [State.coordination, hs, place_goto, wave_goto, start_goto, Lane.unjoined,
          hthread,
          if_true, if_false, reduceCtorEq] <;> omega
  | asleep k | joinAsleep k | exited failed => simp [State.coordinate, hs] at hstep

end State.Sound

/-! ## Termination -/

/-- An interrupted call raises what is left to do by two. -/
lemma interrupt_cost (job : Job α) (hstep : Interrupt s s') : s'.cost job ≤ s.cost job + 2 := by
  cases hstep with
  | @worker k after hw =>
      have hlane : ({ s.lanes k with worker := .pending after } : Lane α).cost job ≤
          (s.lanes k).cost job + 2 := by
        simp only [Lane.cost, Lane.working, hw]
        omega
      have hlanes := laneCosts_le hlane
      have hplace := (State.coordination_setLane job s k
        { s.lanes k with worker := .pending after }).2 rfl rfl
      have hcost : (s.setLane k { s.lanes k with worker := .pending after }).cost job =
          laneCosts job (Function.update s.lanes k { s.lanes k with worker := .pending after }) +
            s.coordination job := congrArg (_ + ·) hplace
      rw [hcost, State.cost]
      omega
  | @receive k hs =>
      have hplace : (s.goto (.receive k)).coordination job = s.coordination job + 2 := by
        simp only [State.coordination, hs]
        rfl
      exact (congrArg (laneCosts job s.lanes + ·) hplace).le
  | @join k hs =>
      have hplace : (s.goto (.join k)).coordination job = s.coordination job + 2 := by
        simp only [State.coordination, hs]
        rfl
      exact (congrArg (laneCosts job s.lanes + ·) hplace).le

lemma State.Sound.step_cost (h : s.Sound job)
    (hstep : Step job s s') : s'.cost job < s.cost job := by
  cases hstep with
  | worker hp hwork => exact State.work_cost hp hwork
  | coordinator hstep => exact h.coordinate_cost hstep

/-- **The lanes end**: in a run with `m` interrupted calls, the instructions are at most the cost of
the execution and two for each of these calls; and in every state of a run, either the process has
ended, or the coordinator or a worker has a next instruction. So an execution whose calls are
interrupted finitely often ends, whatever the order of its instructions. -/
theorem lanes_terminate {n m : Nat} (h : Run job n m s) :
    n + s.cost job ≤ (startState job).cost job + 2 * m ∧
      ((∃ failed, s.place = .exited failed) ∨ ∃ s', Step job s s') := by
  refine ⟨?_, (sound_of_reachable h.reachable).progress⟩
  induction h with
  | start => omega
  | step h hstep ih =>
      have := (sound_of_reachable h.reachable).step_cost hstep
      omega
  | interrupt h hstep ih =>
      have := interrupt_cost job hstep
      omega

/-- The execution with one digit ends in time. -/
theorem lanes_terminate_digits : ∃ s, Run digits 29 0 s ∧ s.place = .exited false ∧
    29 + s.cost digits ≤ (startState digits).cost digits := by
  obtain ⟨s, hfollow, hplace⟩ : ∃ s,
      (startState digits).follow digits digitsMoves = some s ∧ s.place = .exited false :=
    ⟨_, rfl, rfl⟩
  have hrun := Run.start.follow hfollow
  exact ⟨s, hrun, hplace, (lanes_terminate hrun).1⟩

end Verbosec.Native.Lanes
