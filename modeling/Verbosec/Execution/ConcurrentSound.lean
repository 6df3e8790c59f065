import Mathlib.Algebra.Order.Ring.Int
import Mathlib.Data.Prod.Lex
import Verbosec.Execution.Waves

/-!
# Concurrent executions agree with the sequential loop

* `State.predict` - the result that a state leads to; every step keeps it (`predict_step`).
* `progress`, `remaining_lt` - a run that has not returned can go on, and every step comes closer to
  the end.
* `concurrent_sequential` - the values emitted and the outcome of every run are those of the
  sequential loop, and every run ends.
* `concurrent_bounded` - a worker holds no more results than a batch, a worker that is joined is not
  blocked, waves do not overlap, and a wave that cannot be started emits nothing.
-/

namespace Verbosec.Execution

open Verbosec.Lib

variable {ρ R V : Type*} {job : Job ρ R V}

/-! ## The result that a state leads to -/

variable (job) in
/-- The phases after a wave. -/
def State.later (s : State V) (log : List (Event V)) : Result V :=
  sequentialPhases job (job.phases.drop (s.start + (s.wave job).length))
    (s.start + 1 + (s.wave job).length) log

variable (job) in
/-- The result that a state leads to: that of the messages to come and of the phases after the wave. -/
def State.predict (s : State V) : Result V :=
  match s.pc with
  | .admission => sequentialPhases job (job.phases.drop s.start) (s.start + 1) s.log
  | .publish k =>
      publishWave job (s.later job) ((s.pendings job).drop k) (s.start + k + 1) s.log
  | .handle k m =>
      publishWave job (s.later job) (((s.pendings job).drop k).modifyHead (m :: ·))
        (s.start + k + 1) s.log
  | .cancel | .drop _ | .join _ =>
      match s.outcome with
      | .ok 0 => s.later job s.log
      | outcome => (s.log, outcome)
  | .returned => (s.log, s.outcome)

lemma take_append_drop_length {α : Type*} (l : List α) (n : Nat) :
    l.take n ++ l.drop (l.take n).length = l := by
  rcases Nat.le_total n l.length with h | h
  · rw [List.length_take_of_le h, List.take_append_drop]
  · rw [List.take_of_length_le h, List.drop_length, List.append_nil]

/-- The phases from a wave on. -/
lemma wave_append (s : State V) :
    s.wave job ++ job.phases.drop (s.start + (s.wave job).length) = job.phases.drop s.start := by
  rw [← List.drop_drop]
  exact take_append_drop_length _ _

/-- The messages to come from the workers from one on. -/
lemma zipWith_drop {l : List (Worker V)} {wave : List ρ} {k : Nat} {w : Worker V} {rule : ρ}
    (hw : l[k]? = some w) (hrule : wave[k]? = some rule) (w' : Worker V) :
    (List.zipWith (fun w rule => w.pending job rule) l wave).drop k =
        w.pending job rule :: (List.zipWith (fun w rule => w.pending job rule) l wave).drop (k + 1) ∧
      (List.zipWith (fun w rule => w.pending job rule) (l.set k w') wave).drop k =
        w'.pending job rule ::
          (List.zipWith (fun w rule => w.pending job rule) l wave).drop (k + 1) := by
  induction l generalizing wave k with
  | nil => simp at hw
  | cons x l ih =>
      cases wave with
      | nil => simp at hrule
      | cons y wave =>
          cases k with
          | zero =>
              obtain rfl : x = w := by simpa using hw
              obtain rfl : y = rule := by simpa using hrule
              exact ⟨rfl, rfl⟩
          | succ k => exact ih (by simpa using hw) (by simpa using hrule)

section Predict

variable {s s' : State V}

/-- The worker that the coordinator receives from has a phase. -/
lemma State.Sound.exists_rule (hs : s.Sound job) {k : Nat} {w : Worker V}
    (hw : s.workers[k]? = some w) : ∃ rule, (s.wave job)[k]? = some rule := by
  have hk := (List.getElem?_eq_some_iff.mp hw).1
  have hsize := hs.size
  exact ⟨_, List.getElem?_eq_getElem (by omega)⟩

/-- A worker changes nothing of the result. -/
lemma predict_worker (hs : s.Sound job) {k : Nat} {w w' : Worker V} {rule : ρ}
    {evaluated : List (Nat × Nat)} (hw : s.workers[k]? = some w)
    (hrule : (s.wave job)[k]? = some rule) (hstep : WorkerStep job rule s.cancel w w') :
    ({ s with workers := s.workers.set k w', evaluated := evaluated } : State V).predict job =
      s.predict job := by
  have hkeep : s.Open → (List.zipWith (fun w rule => w.pending job rule) (s.workers.set k w')
      (s.wave job)) = s.pendings job := fun hopen =>
    zipWith_set hw hrule (WorkerStep.pending job (by simp [hopen.cancel])
      (hopen.alive w (List.mem_of_getElem? hw)) hstep).1
  have hplace := hs.place
  unfold State.Place at hplace
  unfold State.predict
  cases hpc : s.pc with
  | publish j =>
      simp only [hpc] at hplace ⊢
      have hpendings := hkeep hplace.1
      simp only [State.pendings] at hpendings ⊢
      exact congrArg (fun p => publishWave job (s.later job) (p.drop j) (s.start + j + 1) s.log) hpendings
  | handle j m =>
      simp only [hpc] at hplace ⊢
      have hpendings := hkeep hplace.1
      simp only [State.pendings] at hpendings ⊢
      exact congrArg (fun p => publishWave job (s.later job) ((p.drop j).modifyHead (m :: ·))
        (s.start + j + 1) s.log) hpendings
  | _ => rfl

/-- A message that is taken from a worker is the next one to come. -/
lemma predict_take (hs : s.Sound job) {k : Nat} {w w' : Worker V} {m : Message V}
    (hpc : s.pc = .publish k) (hw : s.workers[k]? = some w)
    (h : ∀ rule, w.pending job rule = m :: w'.pending job rule) :
    ({ s with pc := .handle k m, workers := s.workers.set k w' } : State V).predict job =
      s.predict job := by
  obtain ⟨rule, hrule⟩ := hs.exists_rule hw
  obtain ⟨hbefore, hafter⟩ := zipWith_drop hw hrule w'
  unfold State.predict
  simp only [hpc, State.pendings]
  rw [hbefore, h rule]
  exact congrArg (fun p => publishWave job (s.later job) (p.modifyHead (m :: ·)) (s.start + k + 1)
    s.log) hafter

lemma predict_handle (hs : s.Sound job) {k : Nat} {m : Message V} (hpc : s.pc = .handle k m) :
    (s.handle job k m).predict job = s.predict job := by
  have hplace := hs.place
  simp only [State.Place, hpc] at hplace
  obtain ⟨hopen, -, hk⟩ := hplace
  obtain ⟨rule, hrule⟩ := hs.exists_rule (List.getElem?_eq_getElem hk)
  have hdrop := (@zipWith_drop _ _ _ job _ _ _ _ _ (List.getElem?_eq_getElem hk) hrule
    s.workers[k]).1
  have hbefore : s.predict job =
      publishPhase job (s.start + k + 1)
        (publishWave job (s.later job) ((s.pendings job).drop (k + 1)) (s.start + k + 1 + 1))
        (m :: s.workers[k].pending job rule) s.log := by
    simp only [State.predict, hpc, State.pendings, hdrop, List.modifyHead_cons, publishWave]
  rw [hbefore]
  cases m with
  | value index v =>
      simp only [State.handle, publishPhase]
      cases job.emit s.log ⟨s.start + k + 1, index, v⟩ with
      | error e => rfl
      | ok u =>
          have hpublish : ∀ log, ({ s with pc := .publish k, log := log } : State V).predict job =
              publishWave job (s.later job) ((s.pendings job).drop k) (s.start + k + 1) log :=
            fun log => rfl
          simp only [hpublish, State.pendings, hdrop, publishWave]
  | error index e => rfl
  | done failed => cases failed <;> rfl

lemma predict_finishWave (hs : s.Sound job) {k : Nat} (hpc : s.pc = .join k) :
    (s.finishWave job).predict job = s.predict job := by
  have hlimits := hs.limits (by simp [hpc])
  have hbefore : s.predict job = match s.outcome with
      | .ok 0 => s.later job s.log
      | outcome => (s.log, outcome) := by
    simp only [State.predict, hpc]
  rw [hbefore]
  have hwave : (s.wave job).length = min job.limit (job.phases.length - s.start) := by
    simp [State.wave]
  unfold State.finishWave
  rcases s.outcome with e | n
  · rfl
  · cases n with
    | zero =>
        unfold State.nextWave
        by_cases hend : job.phases.length ≤ s.start + job.limit
        · have hdrop : job.phases.drop (s.start + (s.wave job).length) = [] :=
            List.drop_of_length_le (by omega)
          rw [if_pos hend]
          simp [State.predict, State.later, hdrop, sequentialPhases]
        · have hfull : (s.wave job).length = job.limit := by omega
          rw [if_neg hend]
          simp only [State.predict, State.later, hfull]
          congr 1
          omega
    | succ n => rfl

/-- **Every step keeps the result** that the state leads to, where all workers can be started. -/
theorem predict_step (hstart : ∀ phase, job.startError phase = none) (hs : s.Sound job)
    (hstep : Step job s s') : s'.predict job = s.predict job := by
  have hplace := hs.place
  unfold State.Place at hplace
  cases hstep with
  | worker hw hrule hstep => exact predict_worker hs hw hrule hstep
  | admission hpc => simp only [State.predict, hpc]
  | refuse _ _ h => exact absurd (hstart _ ▸ h) (by simp)
  | admitted hpc hall =>
      simp only [hpc] at hplace
      have hwave : s.pendings job = (s.wave job).map (allMessages job) := by
        rw [hplace.2, hall, List.take_length]
      have hresult := publishWave_allMessages job (s.wave job)
        (job.phases.drop (s.start + (s.wave job).length)) (s.start + 1) s.log
      rw [wave_append] at hresult
      simp only [State.predict, hpc]
      rw [← hresult, ← hwave]
      rfl
  | receive hpc hw hqueue =>
      refine predict_take hs hpc hw fun rule => ?_
      simp [Worker.pending, Worker.rest, hqueue]
  | @rendezvous k w m hpc hw hqueue hsend =>
      refine predict_take hs hpc hw fun rule => ?_
      cases m <;> simp [Worker.pending, Worker.rest, hqueue, hsend, afterSend]
  | @hangup k w hpc hw hqueue hended =>
      obtain ⟨rule, hrule⟩ := hs.exists_rule hw
      have hdrop := (@zipWith_drop _ _ _ job _ _ _ _ _ hw hrule w).1
      have hpending : w.pending job rule = [] := by simp [Worker.pending, Worker.rest, hqueue, hended]
      simp only [State.predict, hpc, State.pendings, hdrop, hpending, publishWave, publishPhase]
      rfl
  | handle hpc => exact predict_handle hs hpc
  | @published k hpc hall =>
      simp only [hpc] at hplace
      have hdrop : (s.pendings job).drop k = [] :=
        List.drop_of_length_le (by simp [State.pendings]; omega)
      simp only [State.predict, hpc, hdrop, publishWave, hplace.1.outcome]
      rfl
  | cancel hpc | drop hpc | dropped hpc | join hpc => simp only [State.predict, hpc]; rfl
  | joined hpc => exact predict_finishWave hs hpc

end Predict

/-! ## What is emitted -/

section Emitted

lemma prefix_sequentialRecords (phase : Nat) (rule : ρ) (records : List R) (index : Nat)
    (failed : Bool) (log : List (Event V)) :
    log <+: (sequentialRecords job phase rule records index failed log).1 := by
  induction records generalizing index failed log with
  | nil => exact List.prefix_refl _
  | cons r records ih =>
      rw [sequentialRecords]
      cases job.evaluate rule r with
      | error e => exact List.prefix_refl _
      | ok v =>
          simp only
          cases job.emit log ⟨phase, index, v⟩ with
          | error e => exact List.prefix_append _ _
          | ok u => exact (List.prefix_append _ _).trans (ih _ _ _)

lemma prefix_sequentialPhases (phases : List ρ) (phase : Nat) (log : List (Event V)) :
    log <+: (sequentialPhases job phases phase log).1 := by
  induction phases generalizing phase log with
  | nil => exact List.prefix_refl _
  | cons rule phases ih =>
      have hrecords := @prefix_sequentialRecords _ _ _ job phase rule job.records 0 false log
      rw [sequentialPhases]
      split
      · next h => rwa [h] at hrecords
      · next h => rwa [h] at hrecords
      · next h =>
          rw [h] at hrecords
          exact hrecords.trans (ih _ _)

lemma prefix_publishPhase {next : List (Event V) → Result V} (hnext : ∀ log, log <+: (next log).1)
    (phase : Nat) (messages : List (Message V)) (log : List (Event V)) :
    log <+: (publishPhase job phase next messages log).1 := by
  induction messages generalizing log with
  | nil => exact List.prefix_refl _
  | cons m messages ih =>
      cases m with
      | value index v =>
          rw [publishPhase]
          cases job.emit log ⟨phase, index, v⟩ with
          | error e => exact List.prefix_append _ _
          | ok u => exact (List.prefix_append _ _).trans (ih _)
      | error index e => exact List.prefix_refl _
      | done failed =>
          cases failed with
          | true => exact List.prefix_refl _
          | false => exact hnext log

lemma prefix_publishWave {next : List (Event V) → Result V} (hnext : ∀ log, log <+: (next log).1)
    (pendings : List (List (Message V))) (phase : Nat) (log : List (Event V)) :
    log <+: (publishWave job next pendings phase log).1 := by
  induction pendings generalizing phase log with
  | nil => exact hnext log
  | cons messages pendings ih => exact prefix_publishPhase (fun log => ih _ log) _ _ _

/-- What was emitted comes first in the result. -/
lemma prefix_predict (s : State V) : s.log <+: (s.predict job).1 := by
  have hlater : ∀ log, log <+: (s.later job log).1 := fun log => prefix_sequentialPhases _ _ log
  unfold State.predict
  split
  · exact prefix_sequentialPhases _ _ _
  · exact prefix_publishWave hlater _ _ _
  · exact prefix_publishWave hlater _ _ _
  all_goals first | exact List.prefix_refl _ | (split; exacts [hlater _, List.prefix_refl _])

end Emitted

/-! ## Progress -/

section Progress

variable {s s' : State V}

/-- A worker that is not sending and has not ended can go on. -/
lemma Worker.Sound.progress {rule : ρ} {cancel : Bool} {w : Worker V} (hw : w.Sound job) {index : Nat}
    (hpc : w.pc = .check index ∨ w.pc = .eval index) : ∃ w', WorkerStep job rule cancel w w' := by
  by_cases hcancel : cancel
  · exact ⟨_, .cancelled hpc hcancel⟩
  · rcases hpc with hpc | hpc
    · by_cases hindex : index < job.records.length
      · exact ⟨_, .evaluate hpc hcancel hindex⟩
      · exact ⟨_, .finish hpc hcancel (by omega)⟩
    · exact ⟨_, .result hpc hcancel (List.getElem?_eq_getElem (hw.evaluating index hpc))⟩

/-- A worker without a receiver ends in one step, once cancelled. -/
lemma Worker.ends {rule : ρ} {w : Worker V} (halive : ¬ w.alive) :
    w.pc = .ended ∨ (∃ w', WorkerStep job rule true w w') ∧
      ∀ w', WorkerStep job rule true w w' → w'.pc = .ended := by
  have hall : ∀ w', WorkerStep job rule true w w' → w'.pc = .ended := by
    intro w' hstep
    cases hstep with
    | cancelled | closed => rfl
    | enqueue _ h => exact absurd h halive
    | evaluate _ h | finish _ h | result _ h => exact absurd rfl h
  cases hpc : w.pc with
  | ended => exact .inl rfl
  | check index => exact .inr ⟨⟨_, .cancelled (.inl hpc) rfl⟩, hall⟩
  | eval index => exact .inr ⟨⟨_, .cancelled (.inr hpc) rfl⟩, hall⟩
  | send m => exact .inr ⟨⟨_, .closed hpc halive⟩, hall⟩

/-- **A run that has not returned can go on.** -/
theorem progress (hs : s.Sound job) (hpc : s.pc ≠ .returned) : ∃ s', Step job s s' := by
  have hplace := hs.place
  unfold State.Place at hplace
  cases h : s.pc with
  | admission =>
      by_cases hmore : s.workers.length < (s.wave job).length
      · cases hstart : job.startError (s.start + s.workers.length + 1) with
        | none => exact ⟨_, .admission h hmore hstart⟩
        | some e => exact ⟨_, .refuse h hmore hstart⟩
      · exact ⟨_, .admitted h (Nat.le_antisymm hs.size (Nat.not_lt.mp hmore))⟩
  | publish k =>
      by_cases hk : k < s.workers.length
      · have hw := List.getElem?_eq_getElem hk
        obtain ⟨rule, hrule⟩ := hs.exists_rule hw
        have hsound := hs.workers _ (List.getElem_mem hk)
        cases hqueue : s.workers[k].queue with
        | cons m queue => exact ⟨_, .receive h hw hqueue⟩
        | nil =>
            cases hworker : s.workers[k].pc with
            | check index =>
                obtain ⟨w', hstep⟩ : ∃ w', WorkerStep job rule s.cancel s.workers[k] w' :=
                  hsound.progress (.inl hworker)
                exact ⟨_, .worker hw hrule hstep⟩
            | eval index =>
                obtain ⟨w', hstep⟩ : ∃ w', WorkerStep job rule s.cancel s.workers[k] w' :=
                  hsound.progress (.inr hworker)
                exact ⟨_, .worker hw hrule hstep⟩
            | send m => exact ⟨_, .rendezvous h hw hqueue hworker⟩
            | ended => exact ⟨_, .hangup h hw hqueue hworker⟩
      · exact ⟨_, .published h (Nat.not_lt.mp hk)⟩
  | handle k m => exact ⟨_, .handle h⟩
  | cancel => exact ⟨_, .cancel h⟩
  | drop k =>
      by_cases hk : k < s.workers.length
      · exact ⟨_, .drop h (List.getElem?_eq_getElem hk)⟩
      · exact ⟨_, .dropped h (Nat.not_lt.mp hk)⟩
  | join k =>
      simp only [h] at hplace
      obtain ⟨hcancel, hdead, -, -⟩ := hplace
      by_cases hk : k < s.workers.length
      · have hw := List.getElem?_eq_getElem hk
        obtain ⟨rule, hrule⟩ := hs.exists_rule hw
        rcases @Worker.ends _ _ _ job rule _ (hdead _ (List.getElem_mem hk)) with hended | hstep
        · exact ⟨_, .join h hw hended⟩
        · obtain ⟨w', hstep⟩ := hstep.1
          exact ⟨_, .worker hw hrule (hcancel ▸ hstep)⟩
      · exact ⟨_, .joined h (Nat.not_lt.mp hk)⟩
  | returned => exact absurd h hpc

/-! ### Termination -/

/-- A bound on the steps of a worker that does not send. -/
def WorkerPc.weight (records : Nat) : WorkerPc V → Nat
  | check index => 3 * (records - index) + 3
  | eval index => 3 * (records - index) + 2
  | send (.value index _) => 3 * (records - (index + 1)) + 4
  | send _ => 1
  | ended => 0

/-- A bound on the steps that a worker and its messages cause. -/
def Worker.weight (records : Nat) (w : Worker V) : Nat :=
  3 * w.pc.weight records + 2 * w.queue.length

/-- How far the coordinator is in a wave of `size` phases, of which `started` have a worker. -/
def Pc.stage (size started : Nat) : Pc V → Nat
  | admission => 3 * (size + 2) + 1 + (size - started)
  | publish k | handle k _ => 2 * (size + 2) + (size - k)
  | cancel => (size + 2) + (size + 1)
  | drop k => (size + 2) + (size - k)
  | join k => 1 + (size - k)
  | returned => 0

/-- Has a message been taken? -/
def Pc.handling : Pc V → Nat
  | handle _ _ => 1
  | _ => 0

variable (job) in
/-- A measure that every step decreases. -/
def State.remaining (s : State V) : Nat ×ₗ Nat ×ₗ Nat :=
  toLex (job.phases.length - s.start, toLex (s.pc.stage (s.wave job).length s.workers.length,
    (s.workers.map (·.weight job.records.length)).sum + s.pc.handling))

lemma WorkerStep.weight_lt {rule : ρ} {cancel : Bool} {w w' : Worker V}
    (h : WorkerStep job rule cancel w w') (hw : w.Sound job) :
    w'.weight job.records.length < w.weight job.records.length := by
  cases h with
  | @cancelled index hpc =>
      rcases hpc with hpc | hpc <;> simp [Worker.weight, WorkerPc.weight, hpc]
  | evaluate hpc | finish hpc =>
      simp only [Worker.weight, WorkerPc.weight, hpc]
      omega
  | @result index r hpc _ hr =>
      have hindex := hw.evaluating index hpc
      simp only [Worker.result]
      split <;> simp only [Worker.weight, WorkerPc.weight, hpc] <;> omega
  | @enqueue m hpc =>
      cases m <;>
        simp only [Worker.weight, WorkerPc.weight, hpc, afterSend, List.length_append,
          List.length_singleton] <;> omega
  | @closed m hpc => cases m <;> simp only [Worker.weight, WorkerPc.weight, hpc] <;> omega

lemma sum_map_set {f : Worker V → Nat} {l : List (Worker V)} {k : Nat} {w : Worker V}
    (hw : l[k]? = some w) (w' : Worker V) :
    ((l.set k w').map f).sum + f w = (l.map f).sum + f w' := by
  induction l generalizing k with
  | nil => simp at hw
  | cons x l ih =>
      cases k with
      | zero =>
          obtain rfl : x = w := by simpa using hw
          simp only [List.set_cons_zero, List.map_cons, List.sum_cons]
          omega
      | succ k =>
          have hrest := ih (by simpa using hw)
          simp only [List.set_cons_succ, List.map_cons, List.sum_cons]
          omega

lemma lex_third {a b c c' : Nat} (h : c < c') :
    (toLex (a, toLex (b, c)) : Nat ×ₗ Nat ×ₗ Nat) < toLex (a, toLex (b, c')) :=
  Prod.Lex.toLex_lt_toLex.mpr (.inr ⟨rfl, Prod.Lex.toLex_lt_toLex.mpr (.inr ⟨rfl, h⟩)⟩)

lemma lex_second {a b b' c c' : Nat} (h : b < b') :
    (toLex (a, toLex (b, c)) : Nat ×ₗ Nat ×ₗ Nat) < toLex (a, toLex (b', c')) :=
  Prod.Lex.toLex_lt_toLex.mpr (.inr ⟨rfl, Prod.Lex.toLex_lt_toLex.mpr (.inl h)⟩)

/-- **Every step comes closer to the end.** -/
theorem remaining_lt (hs : s.Sound job) (hstep : Step job s s') :
    s'.remaining job < s.remaining job := by
  have hplace := hs.place
  unfold State.Place at hplace
  have hsize := hs.size
  cases hstep with
  | @worker k w w' rule hw hrule hstep =>
      have hlt := hstep.weight_lt (hs.workers w (List.mem_of_getElem? hw))
      have hsum := sum_map_set (f := (·.weight job.records.length)) hw w'
      simp only [State.remaining, State.wave, List.length_set]
      exact lex_third (by omega)
  | admission hpc hmore =>
      refine lex_second ?_
      simp only [hpc, Pc.stage, List.length_append, List.length_singleton]
      simp only [State.wave] at hmore ⊢
      omega
  | refuse hpc =>
      refine lex_second ?_
      simp only [State.fail, hpc, Pc.stage]
      simp only [State.wave]
      omega
  | admitted hpc =>
      refine lex_second ?_
      simp only [hpc, Pc.stage]
      simp only [State.wave]
      omega
  | @receive k w m queue hpc hw hqueue =>
      have hsum := sum_map_set (f := (·.weight job.records.length)) hw { w with queue := queue }
      have hweight : w.weight job.records.length =
          ({ w with queue := queue } : Worker V).weight job.records.length + 2 := by
        simp only [Worker.weight, hqueue, List.length_cons]
        omega
      simp only [State.remaining, hpc, Pc.stage, Pc.handling]
      exact lex_third (by omega)
  | @rendezvous k w m hpc hw hqueue hsend =>
      have hsum := sum_map_set (f := (·.weight job.records.length)) hw { w with pc := afterSend m }
      have hweight : ({ w with pc := afterSend m } : Worker V).weight job.records.length + 3 ≤
          w.weight job.records.length := by
        cases m <;> simp only [Worker.weight, WorkerPc.weight, hsend, afterSend] <;> omega
      simp only [State.remaining, hpc, Pc.stage, Pc.handling]
      exact lex_third (by omega)
  | @hangup k w hpc =>
      refine lex_second ?_
      simp only [State.fail, hpc, Pc.stage]
      simp only [State.wave]
      omega
  | @handle k m hpc =>
      simp only [hpc] at hplace
      obtain ⟨-, hfull, hk⟩ := hplace
      have hcancel : ∀ outcome log, ({ s with pc := .cancel, outcome := outcome, log := log } :
          State V).remaining job < s.remaining job := fun outcome log => by
        refine lex_second ?_
        simp only [hpc, Pc.stage]
        simp only [State.wave]
        omega
      cases m with
      | value index v =>
          simp only [State.handle]
          split
          · exact hcancel _ _
          · simp only [State.remaining, hpc, Pc.stage, Pc.handling]
            exact lex_third (by omega)
      | error index e => exact hcancel _ _
      | done failed =>
          cases failed with
          | true => exact hcancel _ _
          | false =>
              refine lex_second ?_
              simp only [State.handle, hpc, Pc.stage]
              simp only [State.wave] at hfull ⊢
              omega
  | published hpc =>
      refine lex_second ?_
      simp only [hpc, Pc.stage]
      simp only [State.wave]
      omega
  | cancel hpc =>
      refine lex_second ?_
      simp only [hpc, Pc.stage]
      simp only [State.wave]
      omega
  | @drop k w hpc hw =>
      have hk := (List.getElem?_eq_some_iff.mp hw).1
      refine lex_second ?_
      simp only [hpc, Pc.stage]
      simp only [State.wave] at hsize ⊢
      omega
  | dropped hpc =>
      refine lex_second ?_
      simp only [hpc, Pc.stage]
      simp only [State.wave]
      omega
  | @join k w hpc hw =>
      have hk := (List.getElem?_eq_some_iff.mp hw).1
      refine lex_second ?_
      simp only [hpc, Pc.stage]
      simp only [State.wave] at hsize ⊢
      omega
  | @joined k hpc =>
      obtain ⟨hlimit, -, hstart⟩ := hs.limits (by simp [hpc])
      have hreturned : ∀ outcome, ({ s with pc := .returned, outcome := outcome } :
          State V).remaining job < s.remaining job := fun outcome => by
        refine lex_second ?_
        simp only [hpc, Pc.stage]
        omega
      unfold State.finishWave
      split
      · unfold State.nextWave
        split
        · exact hreturned _
        · refine Prod.Lex.toLex_lt_toLex.mpr (.inl ?_)
          simp only
          omega
      · exact hreturned _

end Progress

/-! ## Runs -/

section Runs

variable {s : State V}

/-- What was emitted comes from the waves so far; before a wave is published, from those before. -/
structure State.Emitted (job : Job ρ R V) (s : State V) : Prop where
  wave : ∀ e ∈ s.log, e.phase ≤ s.start + (s.wave job).length
  before : (s.pc = .admission ∨ ∃ phase message, s.outcome = .error (.start phase message)) →
    ∀ e ∈ s.log, e.phase ≤ s.start

lemma State.Emitted.step {s' : State V} (he : s.Emitted job) (hs : s.Sound job)
    (hstep : Step job s s') : s'.Emitted job := by
  have hplace := hs.place
  unfold State.Place at hplace
  cases hstep with
  | worker => exact ⟨he.wave, he.before⟩
  | admission => exact ⟨he.wave, he.before⟩
  | refuse hpc => exact ⟨he.wave, fun _ => he.before (.inl hpc)⟩
  | admitted hpc | receive hpc | rendezvous hpc | published hpc | cancel hpc | drop hpc | dropped hpc
  | join hpc =>
      refine ⟨he.wave, fun h => he.before (.inr ?_)⟩
      rcases h with h | h
      · exact absurd h (by simp)
      · exact h
  | hangup hpc => exact ⟨he.wave, fun h => absurd h (by simp [State.fail])⟩
  | @handle k m hpc =>
      simp only [hpc] at hplace
      obtain ⟨hopen, -, hk⟩ := hplace
      have hsize := hs.size
      have hlog : ∀ index v, ∀ e ∈ s.log ++ [(⟨s.start + k + 1, index, v⟩ : Event V)],
          e.phase ≤ s.start + (s.wave job).length := by
        intro index v e h
        rcases List.mem_append.mp h with h | h
        · exact he.wave e h
        · rw [List.mem_singleton.mp h]
          simp only
          omega
      cases m with
      | value index v =>
          simp only [State.handle]
          split
          · exact ⟨hlog index v, fun h => absurd h (by simp [State.fail])⟩
          · exact ⟨hlog index v, fun h => absurd h (by simp [hopen.outcome])⟩
      | error index e => exact ⟨he.wave, fun h => absurd h (by simp [State.handle, State.fail])⟩
      | done failed =>
          cases failed with
          | true => exact ⟨he.wave, fun h => absurd h (by simp [State.handle])⟩
          | false => exact ⟨he.wave, fun h => absurd h (by simp [State.handle, hopen.outcome])⟩
  | @joined k hpc =>
      have hwave : (s.wave job).length ≤ job.limit := by simp [State.wave]
      unfold State.finishWave
      split
      · unfold State.nextWave
        split
        · exact ⟨he.wave, fun h => absurd h (by simp)⟩
        · refine ⟨fun e h => ?_, fun _ e h => ?_⟩
          · have := he.wave e h
            simp only
            omega
          · have := he.wave e h
            simp only
            omega
      · exact ⟨he.wave, fun h => he.before (.inr (by simpa using h))⟩

lemma emitted (hs : (concurrent job).Reachable s) : s.Emitted job := by
  refine hs.invariant ?_ fun x y hx he hstep => he.step (sound hx) hstep
  rintro _ rfl
  unfold startState
  dsimp only
  split
  · exact ⟨by simp, by simp⟩
  · split
    · exact ⟨by simp, by simp⟩
    · unfold State.nextWave
      split <;> exact ⟨by simp, by simp⟩

/-- The evaluated results that a worker holds and the one it is evaluating. -/
def Worker.unpublished (w : Worker V) : Nat :=
  w.queue.length + match w.pc with
    | .eval _ | .send _ => 1
    | _ => 0

/-- **Speculation is bounded and joining never blocks.** In every state of every run, whatever fails:
a worker holds at most a batch of unpublished results; the worker that the coordinator joins has no
receiver any more, and has ended or ends with its next step; a new wave starts only when all workers
of the wave before are joined and have ended; a wave that could not be started has emitted nothing,
and the job returns only when all workers that were started have ended. -/
theorem concurrent_bounded (hs : (concurrent job).Reachable s) :
    (∀ w ∈ s.workers, w.unpublished ≤ job.batch) ∧
      (∀ k w rule, s.pc = .join k → s.workers[k]? = some w → ¬ w.alive ∧
        (w.pc = .ended ∨ (∃ w', WorkerStep job rule s.cancel w w') ∧
          ∀ w', WorkerStep job rule s.cancel w w' → w'.pc = .ended)) ∧
      (∀ s', Step job s s' → s'.start ≠ s.start →
        s.pc = .join s.workers.length ∧ ∀ w ∈ s.workers, w.pc = .ended) ∧
      ((∃ phase message, s.outcome = .error (.start phase message)) →
        ∀ e ∈ s.log, e.phase ≤ s.start) ∧
      (s.pc = .returned → ∀ w ∈ s.workers, w.pc = .ended) := by
  have hsound := sound hs
  have hplace := hsound.place
  unfold State.Place at hplace
  refine ⟨fun w hw => ?_, fun k w rule hpc hw => ?_, fun s' hstep hne => ?_,
    fun h => (emitted hs).before (.inr h), fun hpc => by simpa only [hpc] using hplace⟩
  · have hbounded := (hsound.workers w hw).bounded
    unfold Worker.unpublished
    split <;> omega
  · simp only [hpc] at hplace
    obtain ⟨hcancel, hdead, -, -⟩ := hplace
    have halive := hdead w (List.mem_of_getElem? hw)
    rw [hcancel]
    exact ⟨halive, Worker.ends halive⟩
  · cases hstep with
    | @joined k hpc hall =>
        simp only [hpc] at hplace
        obtain ⟨-, -, hk, hjoined⟩ := hplace
        obtain rfl : k = s.workers.length := Nat.le_antisymm hk hall
        refine ⟨hpc, fun w hw => ?_⟩
        obtain ⟨j, hj⟩ := List.mem_iff_getElem?.mp hw
        exact hjoined j (List.getElem?_eq_some_iff.mp hj).1 w hj
    | @handle k m =>
        refine absurd ?_ hne
        cases m with
        | value index v => simp only [State.handle]; split <;> rfl
        | error index e => rfl
        | done failed => cases failed <;> rfl
    | _ => exact absurd rfl hne

/-- No evaluation has begun in a wave that has not started. -/
lemma evaluated_step {s' : State V} (h : ∀ p ∈ s.evaluated, p.1 ≤ s.start + (s.wave job).length)
    (hstep : Step job s s') : ∀ p ∈ s'.evaluated, p.1 ≤ s'.start + (s'.wave job).length := by
  cases hstep with
  | @worker k w w' rule hw hrule hstep =>
      have hk := (List.getElem?_eq_some_iff.mp hrule).1
      intro p hp
      rcases List.mem_append.mp hp with hp | hp
      · exact h p hp
      · unfold begun at hp
        split at hp
        · rw [List.mem_singleton.mp hp]
          simp only [State.wave] at hk ⊢
          omega
        · exact absurd hp (by simp)
  | @handle k m =>
      cases m with
      | value index v => simp only [State.handle]; split <;> exact h
      | error index e => exact h
      | done failed => cases failed <;> exact h
  | joined =>
      have hwave : (s.wave job).length ≤ job.limit := by simp [State.wave]
      unfold State.finishWave
      split
      · unfold State.nextWave
        split
        · exact h
        · intro p hp
          have := h p hp
          simp only
          omega
      · exact h
  | _ => exact h

lemma evaluated (hs : (concurrent job).Reachable s) :
    ∀ p ∈ s.evaluated, p.1 ≤ s.start + (s.wave job).length := by
  refine hs.invariant (I := fun s => ∀ p ∈ s.evaluated, p.1 ≤ s.start + (s.wave job).length) ?_
    fun x y _ hx hstep => evaluated_step hx hstep
  rintro _ rfl
  unfold startState
  dsimp only
  split
  · simp
  · split
    · simp
    · unfold State.nextWave
      split <;> simp

/-- A wave does not change after a failure. -/
lemma start_step {s' : State V} (hs : s.Sound job) (houtcome : s.outcome ≠ .ok 0)
    (hstep : Step job s s') : s'.start = s.start := by
  have hplace := hs.place
  unfold State.Place at hplace
  cases hstep with
  | @handle k m hpc =>
      simp only [hpc] at hplace
      exact absurd hplace.1.outcome houtcome
  | joined =>
      unfold State.finishWave
      split
      · next h => exact absurd h houtcome
      · rfl
  | _ => rfl

/-- The result that the start of a job leads to. -/
lemma predict_startState (hlimit : 1 ≤ job.limit ∧ job.limit ≤ 64)
    (hbatch : 1 ≤ job.batch ∧ job.batch ≤ 1024) :
    (startState job).predict job = sequential job := by
  unfold startState
  dsimp only
  rw [if_neg (not_not.mpr hlimit), if_neg (not_not.mpr hbatch)]
  unfold State.nextWave
  split
  · next h =>
      have hnil : job.phases = [] := List.eq_nil_of_length_eq_zero (by omega)
      simp [State.predict, sequential, hnil, sequentialPhases]
  · rfl

/-- **Concurrent execution is the sequential loop.** Where all workers can be started: in every state
of every run, the values emitted so far are the first of the sequential loop; when the run returns,
the values emitted and the outcome are those of the loop; a run that has not returned can go on, and
no run is infinite; no record of a later wave has been evaluated, and after a failure the wave does
not change any more. -/
theorem concurrent_sequential (hlimit : 1 ≤ job.limit ∧ job.limit ≤ 64)
    (hbatch : 1 ≤ job.batch ∧ job.batch ≤ 1024) (hstart : ∀ phase, job.startError phase = none)
    (hs : (concurrent job).Reachable s) :
    s.log <+: (sequential job).1 ∧
      (s.pc = .returned → (s.log, s.outcome) = sequential job) ∧
      (s.pc ≠ .returned → ∃ s', Step job s s') ∧
      Acc (fun s' s => Step job s s') s ∧
      (∀ p ∈ s.evaluated, p.1 ≤ s.start + (s.wave job).length) ∧
      (s.outcome ≠ .ok 0 → ∀ s', Step job s s' → s'.start = s.start) := by
  have hsound := sound hs
  have hpredict : s.predict job = sequential job := by
    refine hs.invariant (I := fun s => s.predict job = sequential job) ?_
      fun x y hx h hstep => (predict_step hstart (sound hx) hstep).trans h
    rintro _ rfl
    exact predict_startState hlimit hbatch
  refine ⟨hpredict ▸ prefix_predict s, fun hpc => ?_, progress hsound, ?_, evaluated hs,
    fun h s' => start_step hsound h⟩
  · rw [← hpredict]
    simp only [State.predict, hpc]
  · exact System.acc (s := concurrent job) (I := State.Sound job) wellFounded_lt (State.remaining job)
      (fun x y hx hstep => ⟨hx.step hstep, remaining_lt hx hstep⟩) hsound

end Runs

/-! ### Two phases, the first of which fails -/

/-- A job of two phases with one record, the first phase of which fails on it. -/
def failing (startError : Nat → Option String) : Job Bool Unit Unit where
  name := "e"
  phases := [true, false]
  records := [()]
  limit := 2
  batch := 1
  evaluate fails _ := if fails then .error "fails" else .ok ()
  isFalse _ := false
  emit _ _ := .ok ()
  startError := startError
  ruleName _ := "r"

/-- After both workers were started, the first has failed. -/
theorem concurrent_sequential_failing :
    ∃ s : State Unit, s.outcome = .error (.record 1 0 "fails") ∧
      s.log <+: (sequential (failing fun _ => none)).1 ∧
      ∃ s', Step (failing fun _ => none) s s' := by
  have h₀ : (concurrent (failing fun _ => none)).Reachable _ := .init rfl
  have h₁ := (h₀.step (.admission rfl (by decide) rfl)).step (.admission rfl (by decide) rfl)
  have h₂ := h₁.step (.admitted rfl rfl)
  have h₃ := h₂.step (.worker (k := 0) rfl rfl (.evaluate rfl (by decide) (by decide)))
  have h₄ := h₃.step (.worker (k := 0) rfl rfl (.result rfl (by decide) rfl))
  have h₅ := (h₄.step (.rendezvous rfl rfl rfl rfl)).step (.handle rfl)
  have h := concurrent_sequential (by decide) (by decide) (fun _ => rfl) h₅
  exact ⟨_, rfl, h.1, h.2.2.1 (by decide)⟩

/-- After the failure of the first phase, a record of the second phase may still be evaluated. -/
theorem concurrent_speculates :
    ∃ s s' : State Unit, (concurrent (failing fun _ => none)).Reachable s ∧
      s.outcome = .error (.record 1 0 "fails") ∧ Step (failing fun _ => none) s s' ∧
      (2, 0) ∉ s.evaluated ∧ (2, 0) ∈ s'.evaluated := by
  have h₀ : (concurrent (failing fun _ => none)).Reachable _ := .init rfl
  have h₁ := (h₀.step (.admission rfl (by decide) rfl)).step (.admission rfl (by decide) rfl)
  have h₂ := h₁.step (.admitted rfl rfl)
  have h₃ := h₂.step (.worker (k := 0) rfl rfl (.evaluate rfl (by decide) (by decide)))
  have h₄ := h₃.step (.worker (k := 0) rfl rfl (.result rfl (by decide) rfl))
  have h₅ := (h₄.step (.rendezvous rfl rfl rfl rfl)).step (.handle rfl)
  exact ⟨_, _, h₅, rfl, .worker (k := 1) rfl rfl (.evaluate rfl (by decide) (by decide)),
    by decide, by decide⟩

/-- The second worker cannot be started: the wave emits nothing. -/
theorem concurrent_bounded_refused :
    ∃ s : State Unit, s.outcome = .error (.start 2 "refused") ∧ ∀ e ∈ s.log, e.phase ≤ 0 := by
  have h₀ : (concurrent (failing fun n => if n = 2 then some "refused" else none)).Reachable _ :=
    .init rfl
  have h₁ := (h₀.step (.admission rfl (by decide) rfl)).step (.refuse (e := "refused") rfl (by decide) rfl)
  exact ⟨_, rfl, (concurrent_bounded h₁).2.2.2.1 ⟨_, _, rfl⟩⟩

end Verbosec.Execution
