import Verbosec.Native.LanesSound

/-!
# Runs of the lanes

* `Run` - a run with the number of its instructions and of its interrupted calls; `State.follow` is
  the run that takes given instructions.
* `lanes_sequential` - the bytes written and the status are those of the phases one after the other.
* `lanes_within` - stores and writes lie in the buffer of a lane, and the two parties do not use it
  at one time.
* `lanes_handoff` - what a lane has published stays until the coordinator takes it.

Source: `native/concurrent/emit.rs`.
-/

namespace Verbosec.Native.Lanes

open Verbosec.Lib

variable {α : Type*} {job : Job α} {s s' : State α} {k : Nat} {p : Phase α} {l l' : Lane α}

/-! ## Soundness of runs -/

lemma Lane.idle_empty : ({} : Lane α).Idle job :=
  ⟨fun _ => ⟨rfl, rfl, rfl⟩, rfl, rfl, by simp⟩

lemma State.sound_start : (startState job).Sound job := by
  have hsequential : sequential job = State.resultsFrom job 0 := rfl
  unfold startState State.nextWave
  split_ifs with hnone
  · have hphases : job.phases = [] := List.eq_nil_of_length_eq_zero (Nat.le_zero.mp hnone)
    exact {
      aligned := Nat.zero_mod _
      lanes := fun k p _ => Lane.idle_empty.sound p
      idle := fun k _ => Lane.idle_empty
      sleeping := by simp [State.goto]
      place := ⟨by simp, fun _ => rfl⟩
      total := fun _ => by simp [State.total, State.goto, sequential, hphases, chain]
      log := List.nil_prefix }
  · exact {
      aligned := Nat.zero_mod _
      lanes := fun k p _ => Lane.idle_empty.sound p
      idle := fun k _ => Lane.idle_empty
      sleeping := by simp
      place := ⟨⟨rfl, rfl⟩, fun _ => rfl, fun j hj => absurd hj (Nat.not_lt_zero j)⟩
      total := fun _ => hsequential.symm
      log := List.nil_prefix }

/-- Every state of a run is sound. -/
theorem sound_of_reachable (h : (lanes job).Reachable s) : s.Sound job :=
  h.invariant (fun _ hstart => hstart ▸ State.sound_start) fun _ _ _ hsound => hsound.step

/-! ## Given instructions -/

/-- An instruction, by who takes it. -/
inductive Move where
  | worker (k : Nat)
  | coordinator (answer : Answer)
  deriving DecidableEq, Repr

/-- The state after an instruction. -/
def State.move (job : Job α) (s : State α) : Move → Option (State α)
  | .worker k => (s.wave job)[k]?.bind fun p => s.work job p k
  | .coordinator answer => s.coordinate job answer

/-- The state after some instructions. -/
def State.follow (job : Job α) (s : State α) (moves : List Move) : Option (State α) :=
  moves.foldlM (State.move job) s

/-- A run with the number of its instructions and of its interrupted calls. -/
inductive Run (job : Job α) : Nat → Nat → State α → Prop
  | start : Run job 0 0 (startState job)
  | step {n m s s'} (h : Run job n m s) (hstep : Step job s s') : Run job (n + 1) m s'
  | interrupt {n m s s'} (h : Run job n m s) (hstep : Interrupt s s') : Run job n (m + 1) s'

lemma Run.reachable {n m : Nat} (h : Run job n m s) : (lanes job).Reachable s := by
  induction h with
  | start => exact .init rfl
  | step _ hstep ih => exact ih.step (.inl hstep)
  | interrupt _ hstep ih => exact ih.step (.inr hstep)

lemma State.move_step {m : Move} (h : s.move job m = some s') : Step job s s' := by
  cases m with
  | worker k =>
      obtain ⟨p, hp, hwork⟩ := Option.bind_eq_some_iff.mp h
      exact .worker hp hwork
  | coordinator answer => exact .coordinator h

lemma Run.follow {moves : List Move} {n m : Nat} (h : Run job n m s)
    (hfollow : s.follow job moves = some s') : Run job (n + moves.length) m s' := by
  induction moves generalizing n s with
  | nil => cases hfollow; exact h
  | cons move moves ih =>
      obtain ⟨t, ht, hrest⟩ := Option.bind_eq_some_iff.mp hfollow
      rw [List.length_cons, Nat.add_comm moves.length, ← Nat.add_assoc]
      exact ih (h.step (State.move_step ht)) hrest

/-! ## The output -/

/-- **The lanes agree with the phases one after the other**: in every run, whatever the order in
which the workers and the coordinator go on, whatever parts of the output a write takes, and
wherever calls are interrupted, the bytes written are a part of the sequential output, from its
start on. At the end they are all of it, and the status is that of the sequential phases, unless a
thread could not be started or a write failed; then the execution fails. -/
theorem lanes_sequential (h : (lanes job).Reachable s) :
    s.log <+: (sequential job).1 ∧
      ∀ failed, s.place = .exited failed →
        (s.refused = false → (s.log, failed) = sequential job) ∧
          (s.refused = true → failed = true) := by
  have hsound := sound_of_reachable h
  refine ⟨hsound.log, fun failed hs => ⟨fun hrefused => ?_, fun hrefused => ?_⟩⟩
  · have htotal := hsound.total hrefused
    simp only [State.total, hs] at htotal
    exact htotal
  · have hplace := hsound.place
    simp only [State.At, hs] at hplace
    exact hplace.1 hrefused

/-- A phase that writes a digit for each record, on one lane. -/
def digits : Job Unit where
  phases := [
    { width := 1
      run := fun _ => some ([49], false)
      outputBytes := 1
      width_pos := Nat.one_pos
      fits := fun _ _ _ h => by cases h; exact Nat.le_refl 1 }]
  args := [()]
  limit := 1
  batch := 1
  limit_pos := Nat.one_pos
  batch_pos := Nat.one_pos

/-- The instructions of an execution with one record, the coordinator before its worker. -/
def digitsMoves : List Move :=
  List.replicate 4 (.coordinator (.ok 0)) ++ List.replicate 7 (.worker 0) ++
    List.replicate 6 (.coordinator (.ok 1)) ++ List.replicate 7 (.worker 0) ++
    List.replicate 5 (.coordinator (.ok 0))

/-- The digit of the one record is written. -/
theorem lanes_sequential_digits : ∃ s, (lanes digits).Reachable s ∧ s.place = .exited false ∧
    s.log = [49] ∧ (s.log, false) = sequential digits := by
  obtain ⟨s, hfollow, hplace, hlog, hrefused⟩ : ∃ s,
      (startState digits).follow digits digitsMoves = some s ∧ s.place = .exited false ∧
        s.log = [49] ∧ s.refused = false := ⟨_, rfl, rfl, rfl, rfl⟩
  have hrun := (Run.start.follow hfollow).reachable
  exact ⟨s, hrun, hplace, hlog, ((lanes_sequential hrun).2 false hplace).1 hrefused⟩

/-! ## The memory of a lane -/

/-- What an instruction of the coordinator changes in lane `k`. -/
inductive State.Changes (s : State α) (k : Nat) : Lane α → Prop
  | same : Changes s k (s.lanes k)
  | emptied (h : s.place = .reset k ∨ s.place = .consumed k) :
      Changes s k { s.lanes k with word := .empty }
  | started (h : s.place = .clone k) :
      Changes s k { s.lanes k with thread := true, worker := .start }
  | cancelled (h : s.place = .cancelLane k) : Changes s k { s.lanes k with word := .cancel }
  | woken (h : s.place = .wake k ∨ s.place = .cancelWake k) : Changes s k (s.lanes k).woken

lemma State.coordinate_changes {answer : Answer} (hstep : s.coordinate job answer = some s')
    (k : Nat) : s.Changes k (s'.lanes k) := by
  have hset : ∀ {j l place}, (j = k → s.Changes k l) → s.Changes k
      (((s.setLane j l).goto place).lanes k) := fun {j l place} hl => by
    by_cases hj : j = k
    · subst hj
      rw [lanes_goto, lanes_setLane, Function.update_self]
      exact hl rfl
    · rw [lanes_goto, lanes_setLane, Function.update_of_ne (Ne.symm hj)]
      exact .same
  unfold State.coordinate at hstep
  cases hs : s.place with
  | reset j =>
      simp only [hs] at hstep
      split_ifs at hstep <;> cases hstep
      · exact hset fun hj => hj ▸ .emptied (.inl hs)
      · exact .same
  | clone j =>
      simp only [hs] at hstep
      split_ifs at hstep <;> try split at hstep
      all_goals cases hstep
      · exact hset fun hj => hj ▸ .started hs
      · exact .same
      · exact .same
  | consumed j =>
      simp only [hs] at hstep
      cases hstep
      exact hset fun hj => hj ▸ .emptied (.inr hs)
  | wake j =>
      simp only [hs] at hstep
      cases hstep
      exact hset fun hj => hj ▸ .woken (.inl hs)
  | cancelLane j =>
      simp only [hs] at hstep
      split_ifs at hstep <;> cases hstep
      · exact hset fun hj => hj ▸ .cancelled hs
      · exact .same
  | cancelWake j =>
      simp only [hs] at hstep
      cases hstep
      exact hset fun hj => hj ▸ .woken (.inr hs)
  | receive j =>
      simp only [hs] at hstep
      split_ifs at hstep <;> try split at hstep
      all_goals cases hstep; exact .same
  | write j start n =>
      simp only [hs] at hstep
      split_ifs at hstep <;> try split at hstep
      all_goals try split_ifs at hstep
      all_goals cases hstep; exact .same
  | join j =>
      simp only [hs] at hstep
      split_ifs at hstep
      · cases hstep; exact .same
      · cases hstep; exact .same
      · cases hstep; exact .same
      · obtain rfl := Option.some.inj hstep
        unfold State.nextWave
        split_ifs <;> exact .same
  | wait j | ready j | done j | cancel | joinWait j =>
      simp only [hs] at hstep
      first | cases hstep | (split_ifs at hstep <;> cases hstep)
      all_goals exact .same
  | asleep j | joinAsleep j | exited failed => simp [hs] at hstep

/-- **The buffers of the lanes**: in every state of a run, a worker stores in the buffer of its
lane and only while nothing is published there, the coordinator writes from the published part of
the buffer, and no worker has met a word that it does not expect. -/
theorem lanes_within (h : (lanes job).Reachable s) (hp : (s.wave job)[k]? = some p) :
    (∀ rest b bytes cursor, (s.lanes k).worker = .store rest (b :: bytes) cursor →
        cursor < job.capacity k ∧ ((s.lanes k).word = .empty ∨ (s.lanes k).word = .cancel)) ∧
      (∀ start n, s.place = .write k start n →
        (s.lanes k).word = .ready ∧ start + n = (s.lanes k).length ∧
          (s.lanes k).length ≤ job.capacity k) ∧
      (s.lanes k).worker ≠ .aborted := by
  have hsound := sound_of_reachable h
  have hlane := hsound.lanes k p hp
  have hcapacity := hsound.phase_of_wave hp
  refine ⟨fun rest b bytes cursor hw => ⟨?_, ?_⟩, fun start n hs => ?_, fun hw => ?_⟩
  · exact (hlane.cursor_lt hw).trans_le hcapacity
  · have hat := hlane.at_worker
    simp only [Lane.At, hw] at hat
    exact hat.1
  · have hplace := hsound.place
    simp only [State.At, hs] at hplace
    obtain ⟨-, -, hready, hlength⟩ := hplace
    exact ⟨hready, hlength, (hlane.length_le hready).trans hcapacity⟩
  · have hat := hlane.at_worker
    simp only [Lane.At, hw] at hat

/-- The digit is stored in the buffer of its lane. -/
theorem lanes_within_digits : ∃ s, (lanes digits).Reachable s ∧
    (s.lanes 0).worker = .store [] [49] 0 ∧ 0 < digits.capacity 0 := by
  obtain ⟨s, p, hfollow, hp, hworker⟩ : ∃ s p,
      (startState digits).follow digits (digitsMoves.take 7) = some s ∧
        (s.wave digits)[0]? = some p ∧ (s.lanes 0).worker = .store [] [49] 0 :=
    ⟨_, _, rfl, rfl, rfl⟩
  have hrun := (Run.start.follow hfollow).reachable
  exact ⟨s, hrun, hworker, ((lanes_within hrun hp).1 _ _ _ _ hworker).1⟩

/-- **The exchange of results**: in every step of a run, what a lane has published stays as it is
until the coordinator has taken it or cancels the lane, and a cancelled lane stays cancelled until
the next wave. -/
theorem lanes_handoff (h : (lanes job).Reachable s) (hstep : (lanes job).step s s')
    (hp : (s.wave job)[k]? = some p) :
    ((s.lanes k).word = .ready ∨ (s.lanes k).word = .done ∨ (s.lanes k).word = .error →
        ((s'.lanes k).buffer = (s.lanes k).buffer ∧ (s'.lanes k).length = (s.lanes k).length ∧
          (s'.lanes k).status = (s.lanes k).status ∧ (s'.lanes k).next = (s.lanes k).next) ∧
        ((s'.lanes k).word = (s.lanes k).word ∨ s.place = .reset k ∨ s.place = .consumed k ∨
          s.place = .cancelLane k)) ∧
      ((s.lanes k).word = .cancel → (s'.lanes k).word = .cancel ∨ s.place = .reset k) := by
  have hsound := sound_of_reachable h
  have hlane := hsound.lanes k p hp
  rcases hstep with (⟨hq, hwork⟩ | hstep) | hstep
  · rename_i j q
    obtain ⟨l, hturn, rfl⟩ := Option.map_eq_some_iff.mp hwork
    by_cases hj : j = k
    · subst hj
      obtain rfl := Option.some.inj (hp.symm.trans hq)
      rw [State.lanes_goto, State.lanes_setLane, Function.update_self]
      refine ⟨fun hword => ?_, fun hcancel => ?_⟩
      · obtain ⟨hsame, hbuffer, hlength, hstatus, hnext⟩ := hlane.fixed hturn hword
        exact ⟨⟨hbuffer, hlength, hstatus, hnext⟩, .inl hsame⟩
      · rw [(hlane.goes hturn).word (by simp [hcancel])]
        exact .inl hcancel
    · rw [State.lanes_goto, State.lanes_setLane, Function.update_of_ne (Ne.symm hj)]
      exact ⟨fun _ => ⟨⟨rfl, rfl, rfl, rfl⟩, .inl rfl⟩, .inl⟩
  · have hplace := hsound.place
    have hword : ∀ l : Lane α, l.woken.buffer = l.buffer ∧ l.woken.length = l.length ∧
        l.woken.status = l.status ∧ l.woken.next = l.next := fun l => by
      unfold Lane.woken
      split <;> exact ⟨rfl, rfl, rfl, rfl⟩
    generalize hl : s'.lanes k = l
    cases hl ▸ State.coordinate_changes hstep k with
    | same => exact ⟨fun _ => ⟨⟨rfl, rfl, rfl, rfl⟩, .inl rfl⟩, .inl⟩
    | emptied hs =>
        refine ⟨fun _ => ⟨⟨rfl, rfl, rfl, rfl⟩, .inr (hs.imp_right .inl)⟩, fun hcancel => ?_⟩
        refine .inr (hs.resolve_right fun hs => ?_)
        simp only [State.At, hs] at hplace
        rw [hplace.2.2] at hcancel
        cases hcancel
    | started hs => exact ⟨fun _ => ⟨⟨rfl, rfl, rfl, rfl⟩, .inl rfl⟩, .inl⟩
    | cancelled hs =>
        exact ⟨fun _ => ⟨⟨rfl, rfl, rfl, rfl⟩, .inr (.inr (.inr hs))⟩, fun _ => .inl rfl⟩
    | woken hs =>
        rw [Lane.woken_word]
        exact ⟨fun _ => ⟨hword _, .inl rfl⟩, .inl⟩
  · cases hstep with
    | receive hs => exact ⟨fun _ => ⟨⟨rfl, rfl, rfl, rfl⟩, .inl rfl⟩, .inl⟩
    | join hs => exact ⟨fun _ => ⟨⟨rfl, rfl, rfl, rfl⟩, .inl rfl⟩, .inl⟩
    | @worker j after hw =>
        by_cases hj : j = k
        · subst hj
          rw [State.lanes_setLane, Function.update_self]
          exact ⟨fun _ => ⟨⟨rfl, rfl, rfl, rfl⟩, .inl rfl⟩, .inl⟩
        · rw [State.lanes_setLane, Function.update_of_ne (Ne.symm hj)]
          exact ⟨fun _ => ⟨⟨rfl, rfl, rfl, rfl⟩, .inl rfl⟩, .inl⟩

/-- The published digit stays while the coordinator finds it. -/
theorem lanes_handoff_digits : ∃ s s', (lanes digits).Reachable s ∧ (lanes digits).step s s' ∧
    (s.lanes 0).word = .ready ∧ (s'.lanes 0).buffer = (s.lanes 0).buffer := by
  obtain ⟨s, s', p, hfollow, hmove, hp, hword⟩ : ∃ s s' p,
      (startState digits).follow digits (digitsMoves.take 11) = some s ∧
        s.coordinate digits (.ok 1) = some s' ∧ (s.wave digits)[0]? = some p ∧
        (s.lanes 0).word = .ready := ⟨_, _, _, rfl, rfl, rfl, rfl⟩
  have hrun := (Run.start.follow hfollow).reachable
  have hstep : (lanes digits).step s s' := .inl (.coordinator hmove)
  exact ⟨s, s', hrun, hstep, hword, ((lanes_handoff hrun hstep hp).1 (.inl hword)).1.1⟩

end Verbosec.Native.Lanes
