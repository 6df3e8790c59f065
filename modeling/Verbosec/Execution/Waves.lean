import Mathlib.Tactic.Common
import Verbosec.Execution.Concurrent

/-!
# The states of a concurrent execution

* `messages` - what a worker sends; `Worker.pending` what is still to come from it.
* `publishWave` - the result of the messages of a wave; `publishWave_allMessages` says that it is that
  of its phases.
* `State.Sound` - what is known at each place of the coordinator; `State.Sound.step` is its invariance.
-/

namespace Verbosec.Execution

open Verbosec.Lib

variable {ρ R V : Type*} (job : Job ρ R V)

/-! ## Messages -/

/-- The messages of a worker from a record on. -/
def messages (rule : ρ) : List R → Nat → Bool → List (Message V)
  | [], _, failed => [.done failed]
  | r :: records, index, failed =>
      match job.evaluate rule r with
      | .ok v => .value index v :: messages rule records (index + 1) (failed || job.isFalse v)
      | .error e => [.error index e]

/-- The messages that a worker has still to send. -/
def Worker.rest (rule : ρ) (w : Worker V) : List (Message V) :=
  match w.pc with
  | .check index | .eval index => messages job rule (job.records.drop index) index w.failed
  | .send m =>
      m :: match m with
        | .value index _ => messages job rule (job.records.drop (index + 1)) (index + 1) w.failed
        | _ => []
  | .ended => []

/-- The messages that are still to be received from a worker. -/
def Worker.pending (rule : ρ) (w : Worker V) : List (Message V) := w.queue ++ w.rest job rule

/-- All messages of a phase. -/
def allMessages (rule : ρ) : List (Message V) := messages job rule job.records 0 false

/-- A worker that is not cancelled keeps what is to come from it. -/
lemma WorkerStep.pending {rule : ρ} {cancel : Bool} {w w' : Worker V} (hcancel : ¬ cancel)
    (halive : w.alive) (h : WorkerStep job rule cancel w w') :
    w'.pending job rule = w.pending job rule ∧ w'.alive := by
  cases h with
  | cancelled _ h => exact absurd h hcancel
  | closed _ h => exact absurd halive h
  | evaluate hpc => exact ⟨by simp [Worker.pending, Worker.rest, hpc], halive⟩
  | finish hpc _ hindex =>
      refine ⟨?_, halive⟩
      simp [Worker.pending, Worker.rest, hpc, List.drop_of_length_le hindex, messages]
  | @result index r hpc _ hr =>
      have hdrop : job.records.drop index = r :: job.records.drop (index + 1) := by
        obtain ⟨hlt, rfl⟩ := List.getElem?_eq_some_iff.mp hr
        exact List.drop_eq_getElem_cons hlt
      simp only [Worker.pending, Worker.rest, hpc, hdrop, messages, Worker.result]
      cases job.evaluate rule r with
      | ok v => exact ⟨rfl, halive⟩
      | error e => exact ⟨rfl, halive⟩
  | @enqueue m hpc =>
      refine ⟨?_, halive⟩
      cases m <;> simp [Worker.pending, Worker.rest, hpc, afterSend]

/-! ## The result of the messages -/

/-- The messages of a phase, and what follows when it is done without a failure. -/
def publishPhase (phase : Nat) (next : List (Event V) → Result V) :
    List (Message V) → List (Event V) → Result V
  | [], log => (log, .error (.stopped phase))
  | .value index v :: messages, log =>
      match job.emit log ⟨phase, index, v⟩ with
      | .error e => (log ++ [⟨phase, index, v⟩], .error (.record phase index e))
      | .ok () => publishPhase phase next messages (log ++ [⟨phase, index, v⟩])
  | .error index e :: _, log => (log, .error (.record phase index e))
  | .done false :: _, log => next log
  | .done true :: _, log => (log, .ok 1)

/-- The messages of the phases of a wave, and what follows. -/
def publishWave (next : List (Event V) → Result V) :
    List (List (Message V)) → Nat → List (Event V) → Result V
  | [], _, log => next log
  | messages :: rest, phase, log =>
      publishPhase job phase (publishWave next rest (phase + 1)) messages log

/-- The messages of a phase are its records. -/
lemma publishPhase_messages (phase : Nat) (next : List (Event V) → Result V) (rule : ρ)
    (records : List R) (index : Nat) (failed : Bool) (log : List (Event V)) :
    publishPhase job phase next (messages job rule records index failed) log =
      match sequentialRecords job phase rule records index failed log with
      | (log, .error e) => (log, .error e)
      | (log, .ok true) => (log, .ok 1)
      | (log, .ok false) => next log := by
  induction records generalizing index failed log with
  | nil => cases failed <;> rfl
  | cons r records ih =>
      rw [messages, sequentialRecords]
      cases job.evaluate rule r with
      | error e => rfl
      | ok v =>
          simp only [publishPhase]
          cases job.emit log ⟨phase, index, v⟩ with
          | error e => rfl
          | ok u => exact ih _ _ _

/-- The messages of a wave are its phases. -/
lemma publishWave_allMessages (wave phases : List ρ) (phase : Nat) (log : List (Event V)) :
    publishWave job (sequentialPhases job phases (phase + wave.length)) (wave.map (allMessages job))
        phase log =
      sequentialPhases job (wave ++ phases) phase log := by
  induction wave generalizing phase log with
  | nil => rfl
  | cons rule wave ih =>
      rw [List.map_cons, publishWave, allMessages, publishPhase_messages, List.cons_append,
        sequentialPhases]
      have hlen : phase + (rule :: wave).length = phase + 1 + wave.length := by
        rw [List.length_cons]
        omega
      rcases sequentialRecords job phase rule job.records 0 false log with ⟨log, e | b⟩
      · rfl
      · cases b with
        | true => rfl
        | false =>
            rw [hlen]
            exact ih _ _

/-! ## The workers of a wave -/

/-- The messages to come from the workers that were started. -/
def State.pendings (s : State V) : List (List (Message V)) :=
  List.zipWith (fun w rule => w.pending job rule) s.workers (s.wave job)

/-- Before the cancellation of a wave every channel is open. -/
structure State.Open (s : State V) : Prop where
  cancel : s.cancel = false
  outcome : s.outcome = .ok 0
  alive : ∀ w ∈ s.workers, w.alive

/-- What is known at each place of the coordinator. -/
def State.Place (s : State V) : Prop :=
  match s.pc with
  | .admission =>
      s.Open ∧ s.pendings job = ((s.wave job).take s.workers.length).map (allMessages job)
  | .publish k => s.Open ∧ s.workers.length = (s.wave job).length ∧ k ≤ s.workers.length
  | .handle k _ => s.Open ∧ s.workers.length = (s.wave job).length ∧ k < s.workers.length
  | .cancel => True
  | .drop k =>
      s.cancel = true ∧ k ≤ s.workers.length ∧ ∀ j < k, ∀ w, s.workers[j]? = some w → ¬ w.alive
  | .join k =>
      s.cancel = true ∧ (∀ w ∈ s.workers, ¬ w.alive) ∧ k ≤ s.workers.length ∧
        ∀ j < k, ∀ w, s.workers[j]? = some w → w.pc = .ended
  | .returned => ∀ w ∈ s.workers, w.pc = .ended

/-- What holds of a worker: its channel holds a batch less the message being sent, and a record that
it evaluates is one of the batch. -/
structure Worker.Sound (w : Worker V) : Prop where
  bounded : w.queue.length + 1 ≤ job.batch
  evaluating : ∀ index, w.pc = .eval index → index < job.records.length

/-- What holds of every state. -/
structure State.Sound (s : State V) : Prop where
  /-- there are no more workers than phases in the wave -/
  size : s.workers.length ≤ (s.wave job).length
  /-- the parameters are in range, and the wave is one of the job -/
  limits : s.pc ≠ .returned → 1 ≤ job.limit ∧ 1 ≤ job.batch ∧ s.start < job.phases.length
  workers : ∀ w ∈ s.workers, w.Sound job
  place : s.Place job

/-! ### One worker -/

variable {job}

lemma WorkerStep.sound {rule : ρ} {cancel : Bool} {w w' : Worker V}
    (h : WorkerStep job rule cancel w w') (hw : w.Sound job) : w'.Sound job := by
  cases h with
  | evaluate _ _ hindex =>
      refine ⟨hw.bounded, fun index hpc => ?_⟩
      obtain rfl : _ = index := by simpa using hpc
      exact hindex
  | result =>
      simp only [Worker.result]
      split <;> exact ⟨hw.bounded, fun index hpc => absurd hpc (by simp)⟩
  | @enqueue m _ _ hroom =>
      refine ⟨?_, fun index hpc => ?_⟩
      · rw [List.length_append, List.length_singleton]
        omega
      · cases m <;> exact absurd hpc (by simp [afterSend])
  | _ => exact ⟨hw.bounded, fun index hpc => absurd hpc (by simp)⟩

lemma WorkerStep.alive {rule : ρ} {cancel : Bool} {w w' : Worker V}
    (h : WorkerStep job rule cancel w w') : w'.alive = w.alive := by
  cases h with
  | result => simp only [Worker.result]; split <;> rfl
  | _ => rfl

lemma WorkerStep.not_ended {rule : ρ} {cancel : Bool} {w w' : Worker V}
    (h : WorkerStep job rule cancel w w') : w.pc ≠ .ended := by
  cases h with
  | cancelled hpc => rcases hpc with hpc | hpc <;> simp [hpc]
  | evaluate hpc | finish hpc | result hpc | enqueue hpc | closed hpc => simp [hpc]

lemma forall_mem_set {P : Worker V → Prop} {l : List (Worker V)} {k : Nat} {w : Worker V}
    (hl : ∀ w ∈ l, P w) (hw : P w) : ∀ x ∈ l.set k w, P x := fun x hx => by
  rcases List.mem_or_eq_of_mem_set hx with hx | rfl
  · exact hl x hx
  · exact hw

/-- A worker that keeps what is to come from it changes nothing of the messages. -/
lemma zipWith_set {l : List (Worker V)} {wave : List ρ} {k : Nat} {w w' : Worker V} {rule : ρ}
    (hw : l[k]? = some w) (hrule : wave[k]? = some rule)
    (h : w'.pending job rule = w.pending job rule) :
    List.zipWith (fun w rule => w.pending job rule) (l.set k w') wave =
      List.zipWith (fun w rule => w.pending job rule) l wave := by
  refine List.ext_getElem? fun i => ?_
  rw [List.getElem?_zipWith, List.getElem?_zipWith]
  by_cases hi : k = i
  · subst hi
    rw [List.getElem?_set_self (List.getElem?_eq_some_iff.mp hw).1, hw, hrule]
    simp [h]
  · rw [List.getElem?_set_ne hi]

lemma zipWith_snoc {α β γ : Type*} {f : α → β → γ} {l : List α} {x : α} {l' : List β} {y : β}
    (h : l'[l.length]? = some y) :
    List.zipWith f (l ++ [x]) l' = List.zipWith f l l' ++ [f x y] := by
  induction l generalizing l' with
  | nil => cases l' <;> simp_all
  | cons z l ih =>
      cases l' with
      | nil => simp at h
      | cons y' l' => simpa using ih (by simpa using h)

/-- The messages to come with one more worker. -/
lemma zipWith_append_worker {l : List (Worker V)} {wave : List ρ} (hlen : l.length < wave.length)
    (h : List.zipWith (fun w rule => w.pending job rule) l wave =
      (wave.take l.length).map (allMessages job)) :
    List.zipWith (fun w rule => w.pending job rule) (l ++ [Worker.start]) wave =
      (wave.take (l.length + 1)).map (allMessages job) := by
  have hnew : (Worker.start : Worker V).pending job wave[l.length] =
      allMessages job wave[l.length] := rfl
  rw [zipWith_snoc (List.getElem?_eq_getElem hlen), h, hnew, ← List.take_append_getElem hlen,
    List.map_append]
  rfl

/-! ### Invariance -/

namespace State.Sound

variable {s s' : State V}

/-- A worker's step. -/
lemma worker (hs : s.Sound job) {k : Nat} {w w' : Worker V} {rule : ρ} {evaluated : List (Nat × Nat)}
    (hw : s.workers[k]? = some w) (hrule : (s.wave job)[k]? = some rule)
    (hstep : WorkerStep job rule s.cancel w w') :
    ({ s with workers := s.workers.set k w', evaluated := evaluated } : State V).Sound job := by
  have hmem : w ∈ s.workers := List.mem_of_getElem? hw
  have halive : s.Open → ∀ w₁ ∈ s.workers.set k w', w₁.alive := fun h =>
    forall_mem_set h.alive (by rw [hstep.alive]; exact h.alive w hmem)
  -- the receivers and the ends of other workers stay as they are
  have hdead : ∀ (j : Nat) (w₁ : Worker V), (s.workers.set k w')[j]? = some w₁ →
      (∀ w₂ : Worker V, s.workers[j]? = some w₂ → ¬ w₂.alive) → ¬ w₁.alive := by
    intro j w₁ hj h
    by_cases hkj : k = j
    · subst hkj
      rw [List.getElem?_set_self (List.getElem?_eq_some_iff.mp hw).1] at hj
      obtain rfl := Option.some.inj hj
      rw [hstep.alive]
      exact h w hw
    · rw [List.getElem?_set_ne hkj] at hj
      exact h w₁ hj
  refine ⟨by rw [List.length_set]; exact hs.size, hs.limits,
    forall_mem_set hs.workers (hstep.sound (hs.workers w hmem)), ?_⟩
  have hplace := hs.place
  unfold State.Place at hplace ⊢
  cases hpc : s.pc with
  | admission =>
      simp only [hpc] at hplace ⊢
      obtain ⟨hopen, hpendings⟩ := hplace
      have hkeep := (WorkerStep.pending job (by simp [hopen.cancel]) (hopen.alive w hmem) hstep).1
      rw [List.length_set]
      exact ⟨⟨hopen.cancel, hopen.outcome, halive hopen⟩,
        (zipWith_set hw hrule hkeep).trans hpendings⟩
  | publish j =>
      simp only [hpc] at hplace ⊢
      obtain ⟨hopen, hrest⟩ := hplace
      rw [List.length_set]
      exact ⟨⟨hopen.cancel, hopen.outcome, halive hopen⟩, hrest⟩
  | handle j m =>
      simp only [hpc] at hplace ⊢
      obtain ⟨hopen, hrest⟩ := hplace
      rw [List.length_set]
      exact ⟨⟨hopen.cancel, hopen.outcome, halive hopen⟩, hrest⟩
  | cancel => trivial
  | drop j =>
      simp only [hpc] at hplace ⊢
      obtain ⟨hcancel, hj, hdropped⟩ := hplace
      exact ⟨hcancel, by simpa using hj, fun i hi w₁ hw₁ => hdead i w₁ hw₁ (hdropped i hi)⟩
  | join j =>
      simp only [hpc] at hplace ⊢
      obtain ⟨hcancel, hall, hj, hjoined⟩ := hplace
      refine ⟨hcancel, ?_, by simpa using hj, fun i hi w₁ hw₁ => ?_⟩
      · exact forall_mem_set hall (by rw [hstep.alive]; exact hall w hmem)
      · by_cases hki : k = i
        · subst hki
          exact absurd (hjoined k hi w hw) hstep.not_ended
        · rw [List.getElem?_set_ne hki] at hw₁
          exact hjoined i hi w₁ hw₁
  | returned =>
      simp only [hpc] at hplace
      exact absurd (hplace w hmem) hstep.not_ended

/-- A message is taken from a worker. -/
lemma take (hs : s.Sound job) {k : Nat} {w w' : Worker V} {m : Message V} (hpc : s.pc = .publish k)
    (hw : s.workers[k]? = some w) (hsound : w'.Sound job) (halive : w'.alive = w.alive) :
    ({ s with pc := .handle k m, workers := s.workers.set k w' } : State V).Sound job := by
  have hplace := hs.place
  simp only [State.Place, hpc] at hplace
  obtain ⟨hopen, hfull, -⟩ := hplace
  have hk : k < s.workers.length := (List.getElem?_eq_some_iff.mp hw).1
  refine ⟨by rw [List.length_set]; exact hs.size, fun _ => hs.limits (by simp [hpc]),
    forall_mem_set hs.workers hsound, ⟨hopen.cancel, hopen.outcome, ?_⟩, ?_, ?_⟩
  · exact forall_mem_set hopen.alive (by rw [halive]; exact hopen.alive w (List.mem_of_getElem? hw))
  · rw [List.length_set]
    exact hfull
  · rw [List.length_set]
    exact hk

/-- The end of a phase or of the job before the cancellation. -/
lemma toCancel (hs : s.Sound job) (hpc : s.pc ≠ .returned) {outcome : Except Failure Nat}
    {log : List (Event V)} :
    ({ s with pc := .cancel, outcome := outcome, log := log } : State V).Sound job :=
  ⟨hs.size, fun _ => hs.limits hpc, hs.workers, trivial⟩

lemma handle (hs : s.Sound job) {k : Nat} {m : Message V} (hpc : s.pc = .handle k m) :
    (s.handle job k m).Sound job := by
  have hplace := hs.place
  simp only [State.Place, hpc] at hplace
  obtain ⟨hopen, hfull, hk⟩ := hplace
  have hlimits := hs.limits (by simp [hpc])
  have hgo : ∀ (j : Nat) (log : List (Event V)), j ≤ s.workers.length →
      ({ s with pc := .publish j, log := log } : State V).Sound job := fun j log hj =>
    ⟨hs.size, fun _ => hlimits, hs.workers, ⟨hopen.cancel, hopen.outcome, hopen.alive⟩, hfull, hj⟩
  cases m with
  | value index v =>
      simp only [State.handle]
      split
      · exact hs.toCancel (by simp [hpc])
      · exact hgo k _ (Nat.le_of_lt hk)
  | error index e => exact hs.toCancel (by simp [hpc])
  | done failed =>
      cases failed with
      | true => exact hs.toCancel (by simp [hpc])
      | false => exact hgo (k + 1) _ hk

lemma nextWave (hlimit : 1 ≤ job.limit) (hbatch : 1 ≤ job.batch) {start : Nat}
    (hended : ∀ w ∈ s.workers, w.pc = .ended)
    (hsize : s.workers.length ≤ (s.wave job).length) (hworkers : ∀ w ∈ s.workers, w.Sound job) :
    (s.nextWave job start).Sound job := by
  unfold State.nextWave
  split
  · exact ⟨hsize, by simp, hworkers, hended⟩
  · next hstart =>
      exact ⟨Nat.zero_le _, fun _ => ⟨hlimit, hbatch, by simpa using hstart⟩, by simp,
        ⟨⟨rfl, rfl, by simp⟩, rfl⟩⟩

lemma finishWave (hs : s.Sound job) {k : Nat} (hpc : s.pc = .join k) (hall : s.workers.length ≤ k) :
    (s.finishWave job).Sound job := by
  have hplace := hs.place
  simp only [State.Place, hpc] at hplace
  obtain ⟨-, -, -, hjoined⟩ := hplace
  have hended : ∀ w ∈ s.workers, w.pc = .ended := fun w hw => by
    obtain ⟨j, hget⟩ := List.mem_iff_getElem?.mp hw
    exact hjoined j (Nat.lt_of_lt_of_le (List.getElem?_eq_some_iff.mp hget).1 hall) w hget
  unfold State.finishWave
  split
  · obtain ⟨hlimit, hbatch, -⟩ := hs.limits (by simp [hpc])
    exact nextWave hlimit hbatch hended hs.size hs.workers
  · exact ⟨hs.size, by simp, hs.workers, hended⟩

/-- **Every step keeps the state sound.** -/
theorem step (hs : s.Sound job) (hstep : Step job s s') : s'.Sound job := by
  cases hstep with
  | worker hw hrule hstep => exact hs.worker hw hrule hstep
  | admission hpc hmore hstart =>
      have hplace := hs.place
      simp only [State.Place, hpc] at hplace
      obtain ⟨hopen, hpendings⟩ := hplace
      refine ⟨by rw [List.length_append]; exact hmore, hs.limits, ?_, ?_⟩
      · intro w hw
        rcases List.mem_append.mp hw with hw | hw
        · exact hs.workers w hw
        · rw [List.mem_singleton.mp hw]
          exact ⟨(hs.limits (by simp [hpc])).2.1, by simp [Worker.start]⟩
      · simp only [State.Place, hpc, List.length_append]
        refine ⟨⟨hopen.cancel, hopen.outcome, fun w hw => ?_⟩, zipWith_append_worker hmore hpendings⟩
        rcases List.mem_append.mp hw with hw | hw
        · exact hopen.alive w hw
        · rw [List.mem_singleton.mp hw]
          rfl
  | refuse hpc => exact hs.toCancel (by simp [hpc])
  | admitted hpc hall =>
      have hplace := hs.place
      simp only [State.Place, hpc] at hplace
      exact ⟨hs.size, fun _ => hs.limits (by simp [hpc]), hs.workers,
        ⟨hplace.1.cancel, hplace.1.outcome, hplace.1.alive⟩, hall, Nat.zero_le _⟩
  | @receive k w m queue hpc hw hqueue =>
      have hsound := hs.workers w (List.mem_of_getElem? hw)
      refine hs.take hpc hw ⟨?_, hsound.evaluating⟩ rfl
      have hbounded := hsound.bounded
      rw [hqueue, List.length_cons] at hbounded
      simp only
      omega
  | @rendezvous k w m hpc hw hqueue hsend =>
      have hsound := hs.workers w (List.mem_of_getElem? hw)
      refine hs.take hpc hw ⟨hsound.bounded, fun index hpc => ?_⟩ rfl
      cases m <;> exact absurd hpc (by simp [afterSend])
  | hangup hpc => exact hs.toCancel (by simp [hpc])
  | handle hpc => exact hs.handle hpc
  | published hpc => exact hs.toCancel (by simp [hpc])
  | cancel hpc =>
      exact ⟨hs.size, fun _ => hs.limits (by simp [hpc]), hs.workers, rfl, Nat.zero_le _, by simp⟩
  | @drop k w hpc hw =>
      have hplace := hs.place
      simp only [State.Place, hpc] at hplace
      obtain ⟨hcancel, -, hdropped⟩ := hplace
      have hsound := hs.workers w (List.mem_of_getElem? hw)
      have hk : k < s.workers.length := (List.getElem?_eq_some_iff.mp hw).1
      refine ⟨by rw [List.length_set]; exact hs.size, fun _ => hs.limits (by simp [hpc]),
        forall_mem_set hs.workers ⟨hsound.bounded, hsound.evaluating⟩, hcancel,
        by rw [List.length_set]; exact hk, fun j hj w₁ hw₁ => ?_⟩
      by_cases hkj : k = j
      · subst hkj
        rw [List.getElem?_set_self hk] at hw₁
        simp [← Option.some.inj hw₁]
      · rw [List.getElem?_set_ne hkj] at hw₁
        exact hdropped j (by omega) w₁ hw₁
  | @dropped k hpc hall =>
      have hplace := hs.place
      simp only [State.Place, hpc] at hplace
      obtain ⟨hcancel, -, hdropped⟩ := hplace
      refine ⟨hs.size, fun _ => hs.limits (by simp [hpc]), hs.workers, hcancel, fun w hw => ?_,
        Nat.zero_le _, by simp⟩
      obtain ⟨j, hj⟩ := List.mem_iff_getElem?.mp hw
      exact hdropped j (Nat.lt_of_lt_of_le (List.getElem?_eq_some_iff.mp hj).1 hall) w hj
  | @join k w hpc hw hended =>
      have hplace := hs.place
      simp only [State.Place, hpc] at hplace
      obtain ⟨hcancel, hdead, -, hjoined⟩ := hplace
      have hk : k < s.workers.length := (List.getElem?_eq_some_iff.mp hw).1
      refine ⟨hs.size, fun _ => hs.limits (by simp [hpc]), hs.workers, hcancel, hdead, hk,
        fun j hj w₁ hw₁ => ?_⟩
      rcases Nat.lt_succ_iff_lt_or_eq.mp hj with hj | rfl
      · exact hjoined j hj w₁ hw₁
      · obtain rfl := Option.some.inj (hw.symm.trans hw₁)
        exact hended
  | joined hpc hall => exact hs.finishWave hpc hall

end State.Sound

/-- The start of a job is sound. -/
lemma startState_sound : (startState job).Sound job := by
  have hreturned : ∀ outcome : Except Failure Nat,
      (⟨.returned, 0, [], false, outcome, [], []⟩ : State V).Sound job := fun _ =>
    ⟨Nat.zero_le _, by simp, by simp, by simp [State.Place]⟩
  unfold startState
  dsimp only
  split
  · exact hreturned _
  · next hlimit =>
      split
      · exact hreturned _
      · next hbatch =>
          exact State.Sound.nextWave (not_not.mp hlimit).1 (not_not.mp hbatch).1 (by simp)
            (Nat.zero_le _) (by simp)

/-- Every state of a run is sound. -/
lemma sound {s : State V} (hs : (concurrent job).Reachable s) : s.Sound job := by
  refine hs.invariant ?_ fun _ _ _ hx hstep => hx.step hstep
  rintro _ rfl
  exact startState_sound

end Verbosec.Execution
