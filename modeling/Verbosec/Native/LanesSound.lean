import Mathlib.Data.List.Infix
import Verbosec.Native.LanesWorker

/-!
# The coordinator of the lanes

* `State.total` - the bytes and the status that a state leads to.
* `State.Sound` - what is known at each place of the coordinator; `State.Sound.step` is its
  invariance, and the total stays that of the phases one after the other.

Source: `native/concurrent/emit.rs`, `compile`.
-/

namespace Verbosec.Native.Lanes

open Verbosec.Lib

variable {α : Type*} {job : Job α}

/-! ## Results -/

lemma chain_append (rs more : List (List UInt8 × Bool)) (next : List UInt8 × Bool) :
    chain (rs ++ more) next = chain rs (chain more next) := by
  induction rs with
  | nil => rfl
  | cons r rs ih => simp [chain, ih]

/-- The bytes of the first result come first. -/
lemma chain_prepend (bytes : List UInt8) (r : List UInt8 × Bool) (rs : List (List UInt8 × Bool))
    (next : List UInt8 × Bool) :
    chain (prepend bytes r :: rs) next = prepend bytes (chain (r :: rs) next) := by
  unfold chain
  cases hr : r.2 <;> simp [prepend, hr]

/-- The room of a lane is enough for its phases. -/
lemma le_capacity {i : Nat} {p : Phase α} (hp : job.phases[i]? = some p) :
    p.outputBytes * job.batch ≤ job.capacity (i % job.limit) := by
  refine Nat.mul_le_mul_right _ ?_
  have hmem : (p, i) ∈ job.phases.zipIdx.filter fun x => x.2 % job.limit = i % job.limit := by
    rw [List.mem_filter]
    exact ⟨List.mem_zipIdx_iff_getElem?.mpr (by simpa using hp), by simp⟩
  generalize job.phases.zipIdx.filter (fun x => x.2 % job.limit = i % job.limit) = l at hmem
  induction l with
  | nil => cases hmem
  | cons x l ih =>
      rw [List.foldr_cons]
      rcases List.mem_cons.mp hmem with rfl | hmem
      · exact Nat.le_max_left _ _
      · exact (ih hmem).trans (Nat.le_max_right _ _)

/-- What is to come from the lanes of some phases, from lane `k` on. -/
def pendings (job : Job α) (lanes : Nat → Lane α) : Nat → List (Phase α) → List (List UInt8 × Bool)
  | _, [] => []
  | k, p :: ps => (lanes k).pending job p :: pendings job lanes (k + 1) ps

lemma pendings_congr {lanes lanes' : Nat → Lane α} {k : Nat} {ps : List (Phase α)}
    (h : ∀ i p, ps[i]? = some p → (lanes' (k + i)).pending job p = (lanes (k + i)).pending job p) :
    pendings job lanes' k ps = pendings job lanes k ps := by
  induction ps generalizing k with
  | nil => rfl
  | cons p ps ih =>
      unfold pendings
      refine congrArg₂ _ (h 0 p rfl) (ih fun i q hq => ?_)
      have := h (i + 1) q (by simpa using hq)
      rwa [show k + (i + 1) = k + 1 + i by omega] at this

/-- The lanes of workers that were just started. -/
lemma pendings_results {lanes : Nat → Lane α} {k : Nat} {ps : List (Phase α)}
    (h : ∀ i p, ps[i]? = some p → (lanes (k + i)).pending job p = p.result job.args) :
    pendings job lanes k ps = ps.map (·.result job.args) := by
  induction ps generalizing k with
  | nil => rfl
  | cons p ps ih =>
      rw [pendings, List.map_cons]
      refine congrArg₂ _ (h 0 p rfl) (ih fun i q hq => ?_)
      have := h (i + 1) q (by simpa using hq)
      rwa [show k + (i + 1) = k + 1 + i by omega] at this

/-- A worker that has been started and is not cancelled has not ended before it has published. -/
def Lane.Live (l : Lane α) : Prop := l.word ≠ .cancel ∧ (l.worker = .ended → l.word ≠ .empty)

/-- What holds of a lane without a worker. -/
structure Lane.Idle (job : Job α) (l : Lane α) : Prop where
  single : job.batch = 1 → l.next = 0 ∧ l.filled = 0 ∧ l.count = 0
  thread : l.thread = false
  ended : l.worker = .ended
  word : l.word ≠ .ready

namespace State

variable (job) (s : State α)

/-- The result of the phases from one on. -/
def resultsFrom (start : Nat) : List UInt8 × Bool :=
  chain ((job.phases.drop start).map (·.result job.args)) ([], false)

/-- The result of the lanes from lane `k` on and of the waves to come. -/
def ahead (k : Nat) : List UInt8 × Bool :=
  chain (pendings job s.lanes k ((s.wave job).drop k)) (resultsFrom job (s.start + job.limit))

/-- The bytes and the status that a state leads to, where no call fails. -/
def total : List UInt8 × Bool :=
  match s.place with
  | .reset _ | .clone _ => prepend s.log (resultsFrom job s.start)
  | .receive k | .wait k | .asleep k | .ready k | .wake k | .done k => prepend s.log (s.ahead job k)
  | .write k start _ => (s.log ++ (s.ahead job k).1.drop start, (s.ahead job k).2)
  | .consumed k => (s.log ++ (s.ahead job k).1.drop (s.lanes k).length, (s.ahead job k).2)
  | .cancel | .cancelLane _ | .cancelWake _ => (s.log, true)
  | .join _ | .joinWait _ | .joinAsleep _ =>
      if s.failed then (s.log, true) else prepend s.log (resultsFrom job (s.start + job.limit))
  | .exited failed => (s.log, failed)

/-- No lane of the wave has failed, and all workers from lane `k` on have been started and have not
been cancelled. -/
structure Receiving (k : Nat) : Prop where
  clean : s.failed = false ∧ s.refused = false
  live : ∀ j, k ≤ j → j < (s.wave job).length → (s.lanes j).Live
  done : ∀ j < k, (s.lanes j).word = .done

/-- What is known at each place of the coordinator. -/
def At : Prop :=
  match s.place with
  | .reset k =>
      (s.failed = false ∧ s.refused = false) ∧ (∀ j, (s.lanes j).worker = .ended) ∧
        ∀ j < k, (s.lanes j).word = .empty
  | .clone k =>
      (s.failed = false ∧ s.refused = false) ∧
        (∀ j < k, (s.lanes j).Live ∧
          ∀ p, (s.wave job)[j]? = some p → (s.lanes j).pending job p = p.result job.args) ∧
        ∀ j, k ≤ j → (s.lanes j).worker = .ended ∧
          (j < (s.wave job).length → (s.lanes j).word = .empty)
  | .receive k => s.Receiving job k
  | .wait k | .wake k => s.Receiving job k ∧ k < (s.wave job).length
  | .asleep k =>
      s.Receiving job k ∧ k < (s.wave job).length ∧
        ((s.lanes k).word = .empty ∨ ∃ after, (s.lanes k).worker = .wake after)
  | .ready k => s.Receiving job k ∧ k < (s.wave job).length ∧ (s.lanes k).word = .ready
  | .write k start n =>
      s.Receiving job k ∧ k < (s.wave job).length ∧ (s.lanes k).word = .ready ∧
        start + n = (s.lanes k).length
  | .consumed k => s.Receiving job k ∧ k < (s.wave job).length ∧ (s.lanes k).word = .ready
  | .done k => s.Receiving job k ∧ k < (s.wave job).length ∧ (s.lanes k).word = .done
  | .cancel => True
  | .cancelLane k => s.failed = true ∧ ∀ j < k, (s.lanes j).word = .cancel
  | .cancelWake k => s.failed = true ∧ ∀ j ≤ k, (s.lanes j).word = .cancel
  | .join k | .joinWait k =>
      (s.refused → s.failed) ∧
        (∀ j < (s.wave job).length, (s.lanes j).word = if s.failed then .cancel else .done) ∧
        ∀ j < k, (s.lanes j).worker = .ended
  | .joinAsleep k =>
      (s.refused → s.failed) ∧
        (∀ j < (s.wave job).length, (s.lanes j).word = if s.failed then .cancel else .done) ∧
        (∀ j < k, (s.lanes j).worker = .ended) ∧ (s.lanes k).worker ≠ .ended
  | .exited failed => (s.refused → failed) ∧ ∀ j, (s.lanes j).worker = .ended

/-- What holds of every state. -/
structure Sound : Prop where
  aligned : s.start % job.limit = 0
  lanes : ∀ k p, (s.wave job)[k]? = some p → (s.lanes k).Sound job p
  idle : ∀ k, (s.wave job).length ≤ k → (s.lanes k).Idle job
  sleeping : ∀ k after, (s.lanes k).worker = .asleep after →
    (s.lanes k).word = .ready ∨ s.place = .wake k ∨ s.place = .cancelWake k
  place : s.At job
  total : s.refused = false → s.total job = sequential job
  log : s.log <+: (sequential job).1

end State

/-! ## Steps of a worker -/

section worker

variable {p : Phase α} {l l' : Lane α}

lemma Lane.Idle.sound (h : l.Idle job) (p : Phase α) : l.Sound job p :=
  ⟨h.single, by simp [h.thread, h.ended], by simp only [Lane.At, h.ended]; exact h.word⟩

lemma Lane.Sound.idle (h : l.Sound job p) (hended : l.worker = .ended) : l.Idle job := by
  have hat := h.at_worker
  simp only [Lane.At, hended] at hat
  exact ⟨h.single, by simpa [hended] using h.thread, hended, hat⟩

lemma Lane.Live.turn (hlive : l.Live) (h : l.Sound job p) (hturn : l.turn job p = some l') :
    l'.Live := by
  have hat := h.at_worker
  refine ⟨?_, fun hended => ?_⟩
  · rcases Lane.Sound.turn_word hturn with hword | ⟨-, word, after, hw, -, rfl⟩
    · rw [hword]
      exact hlive.1
    · simp only [Lane.At, hw] at hat
      rcases hat.2 with ⟨rfl, -⟩ | ⟨rfl | rfl, -⟩ <;> simp
  · obtain ⟨hexit, hword⟩ := Lane.turn_ended hturn hended
    simp only [Lane.At, hexit] at hat
    rw [hword]
    exact hat.2

/-- How a worker goes on: what the coordinator relies on of an instruction of a worker and of a
wait of it that is interrupted. -/
structure Lane.Goes (job : Job α) (p : Phase α) (l l' : Lane α) : Prop where
  running : l.worker ≠ .ended
  sound : l'.Sound job p
  word : l.word ≠ .empty → l'.word = l.word
  publishes : l'.word = l.word ∨ ∃ after, l'.worker = .wake after
  live : l.Live → l'.Live
  pending : l.word ≠ .cancel → l'.pending job p = l.pending job p
  length : l.word = .ready → l'.length = l.length
  ended : l'.worker = .ended → l.worker = .exit
  asleep : ∀ after, l'.worker = .asleep after → l'.word = .ready

lemma Lane.Sound.goes (h : l.Sound job p) (hturn : l.turn job p = some l') : l.Goes job p l' where
  running := Lane.turn_not_ended hturn
  sound := h.turn hturn
  word hword := (turn_word hturn).resolve_right fun he => hword he.1
  publishes := (turn_word hturn).imp_right fun ⟨_, _, after, _, hl, _⟩ => ⟨after, hl⟩
  live hlive := hlive.turn h hturn
  pending := h.turn_pending hturn
  length hready := (h.fixed hturn (.inl hready)).2.2.1
  ended hended := (Lane.turn_ended hturn hended).1
  asleep _ := Lane.turn_asleep hturn

/-- A wait of a worker is interrupted. -/
lemma Lane.Sound.interrupted (h : l.Sound job p) {after : After α} (hw : l.worker = .asleep after) :
    l.Goes job p { l with worker := .pending after } where
  running := by simp [hw]
  sound := by
    have hat := h.at_worker
    simp only [Lane.At, hw] at hat
    exact ⟨h.single, by simpa [hw] using h.thread, hat⟩
  word _ := rfl
  publishes := .inl rfl
  live hlive := ⟨hlive.1, by simp⟩
  pending _ := by cases after <;> simp only [Lane.pending, hw, Lane.published, After.rest]
  length _ := rfl
  ended := by simp
  asleep := by simp

/-! ## Changes of the coordinator -/

namespace Lane

lemma Sound.taken (h : l.Sound job p) (hready : l.word = .ready) :
    ({ l with word := .empty } : Lane α).Sound job p := by
  refine ⟨h.single, h.thread, ?_⟩
  have hat := h.at_worker
  unfold At Open Exchanged at hat ⊢
  cases hw : l.worker <;> simp_all

lemma Sound.cancelled (h : l.Sound job p) : ({ l with word := .cancel } : Lane α).Sound job p := by
  refine ⟨h.single, h.thread, ?_⟩
  have hat := h.at_worker
  unfold At Open Exchanged at hat ⊢
  cases hw : l.worker <;> simp_all <;> first | exact hat.2 | exact hat.2.1

lemma Sound.started (h : l.Idle job) (hempty : l.word = .empty) :
    ({ l with thread := true, worker := .start } : Lane α).Sound job p :=
  ⟨h.single, by simp, .inl hempty⟩

lemma Sound.woken (h : l.Sound job p) : l.woken.Sound job p := by
  unfold Lane.woken
  split
  · next after hw =>
      have hat := h.at_worker
      simp only [At, hw] at hat
      exact ⟨h.single, by simpa [hw] using h.thread, hat⟩
  · exact h

lemma woken_pending : l.woken.pending job p = l.pending job p := by
  unfold Lane.woken
  split
  · next after hw => cases after <;> simp only [Lane.pending, hw, Lane.published, After.rest]
  · rfl

@[simp] lemma woken_word : l.woken.word = l.word := by
  unfold Lane.woken
  split <;> rfl

@[simp] lemma woken_ended : l.woken.worker = .ended ↔ l.worker = .ended := by
  unfold Lane.woken
  split
  · next after hw => simp [hw]
  · rfl

lemma woken_not_asleep (after : After α) : l.woken.worker ≠ .asleep after := by
  unfold Lane.woken
  split
  · simp
  · next h => exact h after

end Lane

end worker

/-- A worker changes the place of the coordinator where it ends its wait. -/
lemma Place.after_cases (place : Place) (k : Nat) (worker : Pc α) :
    (place.after k worker = place ∧ (∀ after, place = .asleep k → worker ≠ .wake after) ∧
        (place = .joinAsleep k → worker ≠ .exit)) ∨
      (place = .asleep k ∧ (∃ after, worker = .wake after) ∧ place.after k worker = .receive k) ∨
      (place = .joinAsleep k ∧ worker = .exit ∧ place.after k worker = .join k) := by
  cases worker with
  | wake after =>
      cases place with
      | asleep j => by_cases hj : j = k <;> simp [Place.after, hj]
      | _ => simp [Place.after]
  | exit =>
      cases place with
      | joinAsleep j => by_cases hj : j = k <;> simp [Place.after, hj]
      | _ => simp [Place.after]
  | _ => simp [Place.after]

namespace State

variable {s s' : State α} {k : Nat} {p : Phase α} {l : Lane α}

@[simp] lemma place_goto {place : Place} : (s.goto place).place = place := rfl

@[simp] lemma wave_goto {place : Place} : (s.goto place).wave job = s.wave job := rfl

@[simp] lemma start_goto {place : Place} : (s.goto place).start = s.start := rfl

@[simp] lemma lanes_goto {place : Place} : (s.goto place).lanes = s.lanes := rfl

@[simp] lemma failed_goto {place : Place} : (s.goto place).failed = s.failed := rfl

@[simp] lemma log_goto {place : Place} : (s.goto place).log = s.log := rfl

@[simp] lemma refused_goto {place : Place} : (s.goto place).refused = s.refused := rfl

@[simp] lemma ahead_goto {place : Place} : (s.goto place).ahead job k = s.ahead job k := rfl

@[simp] lemma place_setLane : (s.setLane k l).place = s.place := rfl

@[simp] lemma wave_setLane : (s.setLane k l).wave job = s.wave job := rfl

@[simp] lemma start_setLane : (s.setLane k l).start = s.start := rfl

@[simp] lemma lanes_setLane : (s.setLane k l).lanes = Function.update s.lanes k l := rfl

@[simp] lemma failed_setLane : (s.setLane k l).failed = s.failed := rfl

@[simp] lemma log_setLane : (s.setLane k l).log = s.log := rfl

@[simp] lemma refused_setLane : (s.setLane k l).refused = s.refused := rfl

lemma lt_of_wave (hp : (s.wave job)[k]? = some p) : k < (s.wave job).length :=
  (List.getElem?_eq_some_iff.mp hp).1

/-- A property of all lanes after a change of one. -/
lemma forall_update {P : Nat → Lane α → Prop} {lanes : Nat → Lane α} (hl : P k l)
    (h : ∀ j, j ≠ k → P j (lanes j)) (j : Nat) : P j (Function.update lanes k l j) := by
  by_cases hj : j = k
  · subst hj
    rwa [Function.update_self]
  · rw [Function.update_of_ne hj]
    exact h j hj

/-- The lanes from one on after a change of a lane that keeps what is to come from it. -/
lemma ahead_update {t : State α} (hwave : t.wave job = s.wave job) (hstart : t.start = s.start)
    (hlanes : t.lanes = Function.update s.lanes k l) {j : Nat}
    (h : j ≤ k → ∀ p, (s.wave job)[k]? = some p → l.pending job p = (s.lanes k).pending job p) :
    t.ahead job j = s.ahead job j := by
  unfold ahead
  rw [hwave, hstart, hlanes]
  refine congrArg (chain · _) (pendings_congr fun i q hq => ?_)
  rw [List.getElem?_drop] at hq
  by_cases hk : j + i = k
  · rw [hk, Function.update_self]
    exact h (by omega) q (hk ▸ hq)
  · rw [Function.update_of_ne hk]

namespace Receiving

/-- The worker of a lane goes on. -/
lemma update {t : State α} {j : Nat} (h : s.Receiving job j) (hwave : t.wave job = s.wave job)
    (hclean : t.failed = s.failed ∧ t.refused = s.refused)
    (hlanes : t.lanes = Function.update s.lanes k l)
    (hlive : j ≤ k → k < (s.wave job).length → l.Live) (hdone : k < j → l.word = .done) :
    t.Receiving job j where
  clean := by rw [hclean.1, hclean.2]; exact h.clean
  live i hi hlt := by
    rw [hwave] at hlt
    rw [hlanes]
    exact forall_update (P := fun i l => j ≤ i → i < (s.wave job).length → l.Live) hlive
      (fun i _ => h.live i) i hi hlt
  done i hi := by
    rw [hlanes]
    exact forall_update (P := fun i l => i < j → l.word = .done) hdone (fun i _ => h.done i) i hi

lemma goto {j : Nat} {place : Place} (h : s.Receiving job j) : (s.goto place).Receiving job j :=
  ⟨h.clean, h.live, h.done⟩

end Receiving

namespace Sound

/-- What is known at a place of the coordinator, after an instruction of a worker. -/
lemma worker_at (h : s.Sound job) (hp : (s.wave job)[k]? = some p)
    (hgoes : (s.lanes k).Goes job p l) :
    ((s.setLane k l).goto (s.place.after k (s.lanes k).worker)).At job := by
  have hnot := hgoes.running
  have hplace := h.place
  have hreceiving : ∀ {j place}, s.Receiving job j →
      ((s.setLane k l).goto place).Receiving job j := fun hr =>
    hr.update rfl ⟨rfl, rfl⟩ rfl (fun hjk hlt => hgoes.live (hr.live k hjk hlt))
      (fun hjk => by rw [hgoes.word (by simp [hr.done k hjk]), hr.done k hjk])
  have hword : ∀ {j w}, w ≠ Word.empty → (s.lanes j).word = w →
      (Function.update s.lanes k l j).word = w := fun {j w} hw hj =>
    forall_update (P := fun j l => (s.lanes j).word = w → l.word = w)
      (fun hj => (hgoes.word (by rw [hj]; exact hw)).trans hj) (fun _ _ hj => hj) j hj
  have hended : ∀ {j}, (s.lanes j).worker = .ended →
      (Function.update s.lanes k l j).worker = .ended := fun {j} hj =>
    forall_update (P := fun j l => (s.lanes j).worker = .ended → l.worker = .ended)
      (fun hj => absurd hj hnot) (fun _ _ hj => hj) j hj
  rcases Place.after_cases s.place k (s.lanes k).worker with
    ⟨hpc, hawake, hend⟩ | ⟨hs, -, hpc⟩ | ⟨hs, hexit, hpc⟩
  case inr.inl =>
    simp only [State.At, hs] at hplace
    simp only [State.At, hpc]
    exact hreceiving hplace.1
  case inr.inr =>
    simp only [State.At, hs] at hplace
    simp only [State.At, hpc]
    exact ⟨hplace.1, fun i hi => hword (by split_ifs <;> simp) (hplace.2.1 i hi),
      fun i hi => hended (hplace.2.2.1 i hi)⟩
  rw [hpc]
  unfold State.At at hplace ⊢
  cases hs : s.place with
  | reset j => rw [hs] at hplace; exact absurd (hplace.2.1 k) hnot
  | clone j =>
      simp only [hs] at hplace
      obtain ⟨hclean, hstarted, hidle⟩ := hplace
      have hkj : k < j := Nat.lt_of_not_le fun hjk => hnot (hidle k hjk).1
      refine ⟨hclean, fun i hi => ?_, fun i hi => ?_⟩
      · refine forall_update (P := fun i l => i < j → l.Live ∧ ∀ p, (s.wave job)[i]? = some p →
          l.pending job p = p.result job.args) (fun hkj => ?_) (fun i _ => hstarted i) i hi
        obtain ⟨hlive, hpending⟩ := hstarted k hkj
        refine ⟨hgoes.live hlive, fun q hq => ?_⟩
        obtain rfl := Option.some.inj (hp.symm.trans hq)
        exact (hgoes.pending hlive.1).trans (hpending p hp)
      · rw [lanes_goto, lanes_setLane, Function.update_of_ne (by omega)]
        exact hidle i hi
  | receive j =>
      simp only [hs] at hplace
      exact hreceiving hplace
  | wait j =>
      simp only [hs] at hplace
      exact ⟨hreceiving hplace.1, hplace.2⟩
  | wake j =>
      simp only [hs] at hplace
      exact ⟨hreceiving hplace.1, hplace.2⟩
  | asleep j =>
      simp only [hs] at hplace
      obtain ⟨hr, hj, hempty⟩ := hplace
      refine ⟨hreceiving hr, hj, ?_⟩
      by_cases hkj : j = k
      · subst hkj
        rw [lanes_goto, lanes_setLane, Function.update_self]
        exact hgoes.publishes.imp_left fun hword =>
          hword.trans (hempty.resolve_right fun ⟨after, hw⟩ => hawake after hs hw)
      · rw [lanes_goto, lanes_setLane, Function.update_of_ne hkj]
        exact hempty
  | ready j =>
      simp only [hs] at hplace
      exact ⟨hreceiving hplace.1, hplace.2.1, hword (by simp) hplace.2.2⟩
  | consumed j =>
      simp only [hs] at hplace
      exact ⟨hreceiving hplace.1, hplace.2.1, hword (by simp) hplace.2.2⟩
  | done j =>
      simp only [hs] at hplace
      exact ⟨hreceiving hplace.1, hplace.2.1, hword (by simp) hplace.2.2⟩
  | write j start n =>
      simp only [hs] at hplace
      obtain ⟨hr, hj, hready, hlength⟩ := hplace
      refine ⟨hreceiving hr, hj, hword (by simp) hready, ?_⟩
      refine forall_update (P := fun i l => i = j → start + n = l.length) (fun hkj => ?_)
        (fun i _ hi => hi ▸ hlength) j rfl
      subst hkj
      rw [hlength]
      exact (hgoes.length hready).symm
  | cancel => trivial
  | cancelLane j =>
      simp only [hs] at hplace
      exact ⟨hplace.1, fun i hi => hword (by simp) (hplace.2 i hi)⟩
  | cancelWake j =>
      simp only [hs] at hplace
      exact ⟨hplace.1, fun i hi => hword (by simp) (hplace.2 i hi)⟩
  | join j =>
      simp only [hs] at hplace
      exact ⟨hplace.1, fun i hi => hword (by split_ifs <;> simp) (hplace.2.1 i hi),
        fun i hi => hended (hplace.2.2 i hi)⟩
  | joinWait j =>
      simp only [hs] at hplace
      exact ⟨hplace.1, fun i hi => hword (by split_ifs <;> simp) (hplace.2.1 i hi),
        fun i hi => hended (hplace.2.2 i hi)⟩
  | joinAsleep j =>
      simp only [hs] at hplace
      obtain ⟨hrefused, hwords, hjoined, hj⟩ := hplace
      refine ⟨hrefused, fun i hi => hword (by split_ifs <;> simp) (hwords i hi),
        fun i hi => hended (hjoined i hi), ?_⟩
      refine forall_update (P := fun i l => i = j → l.worker ≠ .ended) (fun hkj hl => ?_)
        (fun i _ hi => hi ▸ hj) j rfl
      exact hend (by rw [hs, hkj]) (hgoes.ended hl)
  | exited f => rw [hs] at hplace; exact absurd (hplace.2 k) hnot

/-- An instruction of a worker changes nothing of what the state leads to. -/
lemma worker_total (h : s.Sound job) (hp : (s.wave job)[k]? = some p)
    (hgoes : (s.lanes k).Goes job p l) :
    ((s.setLane k l).goto (s.place.after k (s.lanes k).worker)).total job =
      s.total job := by
  have hk := lt_of_wave hp
  have hplace := h.place
  have hahead : ∀ {j place}, s.Receiving job j →
      ((s.setLane k l).goto place).ahead job j = s.ahead job j :=
    fun {j place} hr => ahead_update (s := s) (t := (s.setLane k l).goto place) (k := k) (l := l)
        rfl rfl rfl fun hjk q hq => by
      obtain rfl := Option.some.inj (hp.symm.trans hq)
      exact hgoes.pending (hr.live k hjk hk).1
  unfold State.At at hplace
  rcases Place.after_cases s.place k (s.lanes k).worker with
    ⟨hpc, -, -⟩ | ⟨hs, -, hpc⟩ | ⟨hs, -, hpc⟩
  case inr.inl =>
    simp only [hs] at hplace
    simp only [State.total, place_goto, hpc]
    simp only [hs]
    rw [hahead hplace.1]
    rfl
  case inr.inr =>
    simp only [State.total, place_goto, hpc]
    simp only [hs]
    rfl
  rw [hpc]
  cases hs : s.place with
  | receive j =>
      simp only [hs] at hplace
      simp only [State.total, place_goto, hs]
      rw [hahead hplace]
      rfl
  | wait j | wake j | asleep j | ready j | done j | write j start n =>
      simp only [hs] at hplace
      simp only [State.total, place_goto, hs]
      rw [hahead hplace.1]
      rfl
  | consumed j =>
      simp only [hs] at hplace
      simp only [State.total, place_goto, hs]
      have hlength : (Function.update s.lanes k l j).length = (s.lanes j).length :=
        forall_update (P := fun i l => i = j → l.length = (s.lanes j).length)
          (fun hkj => hkj ▸ hgoes.length (hkj ▸ hplace.2.2))
          (fun i _ hi => by rw [hi]) j rfl
      rw [hahead hplace.1, lanes_goto, lanes_setLane, hlength]
      rfl
  | _ => simp only [State.total, place_goto, hs]; rfl

/-- **A worker that goes on keeps the state sound.** -/
lemma goes (h : s.Sound job) (hp : (s.wave job)[k]? = some p) (hgoes : (s.lanes k).Goes job p l) :
    ((s.setLane k l).goto (s.place.after k (s.lanes k).worker)).Sound job := by
  have hk := lt_of_wave hp
  refine ⟨h.aligned, ?_, ?_, ?_, h.worker_at hp hgoes, ?_, h.log⟩
  · intro j q hq
    refine forall_update (P := fun j l => ∀ q, (s.wave job)[j]? = some q → l.Sound job q)
      (fun q hq => ?_) (fun j _ => h.lanes j) j q hq
    obtain rfl := Option.some.inj (hp.symm.trans hq)
    exact hgoes.sound
  · intro j hj
    rw [lanes_goto, lanes_setLane,
      Function.update_of_ne (by rintro rfl; exact absurd hk (Nat.not_lt.mpr hj))]
    exact h.idle j hj
  · intro j after
    refine forall_update (P := fun j l => l.worker = .asleep after → l.word = .ready ∨
        s.place.after k (s.lanes k).worker = .wake j ∨
        s.place.after k (s.lanes k).worker = .cancelWake j)
      (fun hasleep => .inl (hgoes.asleep after hasleep)) (fun j _ hasleep => ?_) j
    refine (h.sleeping j after hasleep).imp_right fun hplace => ?_
    rcases Place.after_cases s.place k (s.lanes k).worker with
      ⟨hpc, -, -⟩ | ⟨hs, -, -⟩ | ⟨hs, -, -⟩
    · exact hplace.imp (hpc.trans ·) (hpc.trans ·)
    · exact absurd hplace (by simp [hs])
    · exact absurd hplace (by simp [hs])
  · intro hrefused
    rw [h.worker_total hp hgoes]
    exact h.total hrefused

lemma worker (h : s.Sound job) (hp : (s.wave job)[k]? = some p)
    (hwork : s.work job p k = some s') : s'.Sound job := by
  obtain ⟨l, hturn, rfl⟩ := Option.map_eq_some_iff.mp hwork
  exact h.goes hp ((h.lanes k p hp).goes hturn)

/-! ### The coordinator -/

lemma sound_or_idle (h : s.Sound job) (k : Nat) :
    (∃ p, (s.wave job)[k]? = some p ∧ (s.lanes k).Sound job p) ∨
      (s.wave job).length ≤ k ∧ (s.lanes k).Idle job := by
  rcases Nat.lt_or_ge k (s.wave job).length with hk | hk
  · exact .inl ⟨_, List.getElem?_eq_getElem hk, h.lanes k _ (List.getElem?_eq_getElem hk)⟩
  · exact .inr ⟨hk, h.idle k hk⟩

lemma idle_of_ended (h : s.Sound job) {k : Nat} (hended : (s.lanes k).worker = .ended) :
    (s.lanes k).Idle job := by
  rcases h.sound_or_idle k with ⟨p, -, hsound⟩ | ⟨-, hidle⟩
  · exact hsound.idle hended
  · exact hidle

lemma ended_of_thread (h : s.Sound job) {k : Nat} :
    (s.lanes k).thread = true ↔ (s.lanes k).worker ≠ .ended := by
  rcases h.sound_or_idle k with ⟨p, -, hsound⟩ | ⟨-, hidle⟩
  · exact hsound.thread
  · simp [hidle.thread, hidle.ended]

/-- The phase of a lane is one of the execution. -/
lemma phase_of_wave (h : s.Sound job) (hp : (s.wave job)[k]? = some p) :
    p.outputBytes * job.batch ≤ job.capacity k := by
  rw [State.wave, List.getElem?_take] at hp
  split_ifs at hp with hk
  rw [List.getElem?_drop] at hp
  have hmod : (s.start + k) % job.limit = k := by
    rw [Nat.add_mod, h.aligned, Nat.zero_add, Nat.mod_mod, Nat.mod_eq_of_lt hk]
  have hle := le_capacity hp
  rwa [hmod] at hle

/-- What is known of a state whose coordinator has moved, where the lanes and the bytes written are
as before. -/
lemma moved (h : s.Sound job) {place : Place}
    (hwake : ∀ k, s.place ≠ .wake k ∧ s.place ≠ .cancelWake k)
    (hat : (s.goto place).At job)
    (htotal : s.refused = false → (s.goto place).total job = s.total job) :
    (s.goto place).Sound job where
  aligned := h.aligned
  lanes := h.lanes
  idle := h.idle
  sleeping k after hasleep :=
    .inl ((h.sleeping k after hasleep).resolve_right fun hp => hp.elim (hwake k).1 (hwake k).2)
  place := hat
  total hrefused := (htotal hrefused).trans (h.total hrefused)
  log := h.log

/-- What is known of a state whose coordinator has moved and changed a lane. -/
lemma changed (h : s.Sound job) {place : Place} {l : Lane α}
    (hwake : ∀ j, j ≠ k → s.place ≠ .wake j ∧ s.place ≠ .cancelWake j)
    (hasleep : ∀ after, l.worker = .asleep after →
      l.word = .ready ∨ place = .wake k ∨ place = .cancelWake k)
    (hl : ∀ p, (s.wave job)[k]? = some p → l.Sound job p)
    (hidle : (s.wave job).length ≤ k → l.Idle job)
    (hat : ((s.setLane k l).goto place).At job)
    (htotal : s.refused = false → ((s.setLane k l).goto place).total job = s.total job) :
    ((s.setLane k l).goto place).Sound job where
  aligned := h.aligned
  lanes j p hp := forall_update (P := fun j l => ∀ p, (s.wave job)[j]? = some p → l.Sound job p) hl
    (fun j _ => h.lanes j) j p hp
  idle j hj := forall_update (P := fun j l => (s.wave job).length ≤ j → l.Idle job) hidle
    (fun j _ => h.idle j) j hj
  sleeping := forall_update (P := fun j l => ∀ after, l.worker = .asleep after →
    l.word = .ready ∨ place = .wake j ∨ place = .cancelWake j) hasleep fun j hj after hw =>
      .inl ((h.sleeping j after hw).resolve_right fun hp => hp.elim (hwake j hj).1 (hwake j hj).2)
  place := hat
  total hrefused := (htotal hrefused).trans (h.total hrefused)
  log := h.log

/-- The call of a lane's phase fails. -/
lemma refuse (h : s.Sound job) (hwake : ∀ k, s.place ≠ .wake k ∧ s.place ≠ .cancelWake k) :
    ({ s with place := .cancel, refused := true } : State α).Sound job where
  aligned := h.aligned
  lanes := h.lanes
  idle := h.idle
  sleeping k after hasleep :=
    .inl ((h.sleeping k after hasleep).resolve_right fun hp => hp.elim (hwake k).1 (hwake k).2)
  place := trivial
  total hrefused := by cases hrefused
  log := h.log

variable {answer : Answer}

lemma reset (h : s.Sound job) (hs : s.place = .reset k)
    (hstep : s.coordinate job answer = some s') : s'.Sound job := by
  have hplace := h.place
  simp only [State.At, hs] at hplace
  obtain ⟨hclean, hended, hempty⟩ := hplace
  simp only [State.coordinate, hs] at hstep
  split_ifs at hstep with hk
  · cases hstep
    have hidle := h.idle_of_ended (hended k)
    have hidle' : ({ s.lanes k with word := .empty } : Lane α).Idle job :=
      ⟨hidle.single, hidle.thread, hidle.ended, by simp⟩
    have hended' : ∀ j, (Function.update s.lanes k { s.lanes k with word := .empty } j).worker =
        .ended := forall_update (P := fun _ l => l.worker = .ended) (hended k) fun j _ => hended j
    refine h.changed (by simp [hs]) (by simp [hended k]) (fun p _ => hidle'.sound p)
      (fun _ => hidle') ⟨hclean, hended', fun j hj => ?_⟩ fun _ => ?_
    · refine forall_update (P := fun j l => j < k + 1 → l.word = .empty) (fun _ => rfl)
        (fun j hjk hj => hempty j (by omega)) j hj
    · simp only [State.total, place_goto, hs]
      rfl
  · cases hstep
    refine h.moved (by simp [hs]) ⟨hclean, fun j hj => absurd hj (Nat.not_lt_zero j), fun j _ =>
      ⟨hended j, fun hj => hempty j (Nat.lt_of_lt_of_le hj (Nat.not_lt.mp hk))⟩⟩ fun _ => ?_
    simp only [State.total, place_goto, hs]
    rfl

/-- All workers of a wave are started. -/
lemma ahead_zero (h : ∀ j p, (s.wave job)[j]? = some p →
    (s.lanes j).pending job p = p.result job.args) :
    s.ahead job 0 = resultsFrom job s.start := by
  unfold ahead
  rw [List.drop_zero, pendings_results (fun i p hp => by rw [Nat.zero_add]; exact h i p hp)]
  unfold resultsFrom
  rw [← chain_append, ← List.map_append, ← List.drop_drop, State.wave, List.take_append_drop]

lemma clone (h : s.Sound job) (hs : s.place = .clone k)
    (hstep : s.coordinate job answer = some s') : s'.Sound job := by
  have hplace := h.place
  simp only [State.At, hs] at hplace
  obtain ⟨hclean, hstarted, hidle⟩ := hplace
  simp only [State.coordinate, hs] at hstep
  split_ifs at hstep with hk
  · cases answer with
    | failed => cases hstep; exact h.refuse (by simp [hs])
    | ok n =>
        cases hstep
        obtain ⟨hended, hempty⟩ := hidle k (Nat.le_refl k)
        have hword := hempty hk
        refine h.changed (by simp [hs]) (by simp)
          (fun p _ => .started (h.idle_of_ended hended) hword)
          (fun hle => absurd hk (Nat.not_lt.mpr hle)) ⟨hclean, fun j hj => ?_, fun j hj => ?_⟩
          fun _ => ?_
        · refine forall_update (P := fun j l => j < k + 1 → l.Live ∧
            ∀ p, (s.wave job)[j]? = some p → l.pending job p = p.result job.args)
            (fun _ => ⟨⟨by simp [hword], by simp⟩, fun p _ => rfl⟩)
            (fun j hjk hj => hstarted j (by omega)) j hj
        · rw [lanes_goto, lanes_setLane, Function.update_of_ne (by omega)]
          exact hidle j (by omega)
        · simp only [State.total, place_goto, hs]
          rfl
  · cases hstep
    have hlt : ∀ j, j < (s.wave job).length → j < k := fun j hj => by omega
    refine h.moved (by simp [hs])
      ⟨hclean, fun j _ hj => (hstarted j (hlt j hj)).1, fun j hj => absurd hj (Nat.not_lt_zero j)⟩
      fun _ => ?_
    simp only [State.total, place_goto, hs, log_goto, ahead_goto]
    rw [ahead_zero fun j p hp => (hstarted j (hlt j (lt_of_wave hp))).2 p hp]

/-- What is to come from a lane comes first. -/
lemma ahead_eq (hp : (s.wave job)[k]? = some p) :
    s.ahead job k = chain ((s.lanes k).pending job p ::
      pendings job s.lanes (k + 1) ((s.wave job).drop (k + 1)))
        (resultsFrom job (s.start + job.limit)) := by
  unfold ahead
  rw [List.drop_eq_getElem_cons (lt_of_wave hp), pendings]
  obtain ⟨hlt, rfl⟩ := List.getElem?_eq_some_iff.mp hp
  rfl

/-- What is published comes first in what is ahead. -/
lemma ahead_ready (h : s.Sound job) (hp : (s.wave job)[k]? = some p)
    (hready : (s.lanes k).word = .ready) : s.ahead job k =
      prepend (read (s.lanes k).buffer 0 (s.lanes k).length)
        ((s.setLane k { s.lanes k with word := .empty }).ahead job k) := by
  rw [ahead_eq hp, (h.lanes k p hp).pending_of_ready hready, chain_prepend,
    ahead_eq (s := s.setLane k { s.lanes k with word := .empty }) hp]
  simp only [lanes_setLane, Function.update_self, wave_setLane, start_setLane]
  refine congrArg (fun rest => prepend _ (chain (_ :: rest) _)) (pendings_congr fun i q _ => ?_)
  rw [Function.update_of_ne (by omega)]

lemma receive (h : s.Sound job) (hs : s.place = .receive k)
    (hstep : s.coordinate job answer = some s') : s'.Sound job := by
  have hr := h.place
  simp only [State.At, hs] at hr
  have htotal : s.total job = prepend s.log (s.ahead job k) := by simp only [State.total, hs]
  simp only [State.coordinate, hs] at hstep
  split_ifs at hstep with hk
  · have hp := List.getElem?_eq_getElem hk
    have hsound := h.lanes k _ hp
    have hlive := hr.live k (Nat.le_refl k) hk
    cases hword : (s.lanes k).word with
    | ready =>
        simp only [hword] at hstep
        cases hstep
        exact h.moved (by simp [hs]) ⟨hr.goto, hk, hword⟩ fun _ => htotal.symm
    | done =>
        simp only [hword] at hstep
        cases hstep
        exact h.moved (by simp [hs]) ⟨hr.goto, hk, hword⟩ fun _ => htotal.symm
    | empty =>
        simp only [hword] at hstep
        cases hstep
        exact h.moved (by simp [hs]) ⟨hr.goto, hk⟩ fun _ => htotal.symm
    | error =>
        simp only [hword] at hstep
        cases hstep
        refine h.moved (by simp [hs]) trivial fun _ => ?_
        rw [htotal, ahead_eq hp, hsound.pending_of_error hword]
        simp [State.total, chain, prepend]
    | cancel => exact absurd hword hlive.1
  · cases hstep
    refine h.moved (by simp [hs]) ⟨by simp [hr.clean], fun j hj => ?_, by simp⟩ fun _ => ?_
    · rw [lanes_goto, failed_goto, hr.clean.1]
      exact hr.done j (Nat.lt_of_lt_of_le hj (Nat.not_lt.mp hk))
    · rw [htotal, ahead, List.drop_of_length_le (Nat.not_lt.mp hk)]
      simp [State.total, hr.clean, pendings, chain]

lemma wait (h : s.Sound job) (hs : s.place = .wait k)
    (hstep : s.coordinate job answer = some s') : s'.Sound job := by
  have hplace := h.place
  simp only [State.At, hs] at hplace
  have htotal : s.total job = prepend s.log (s.ahead job k) := by simp only [State.total, hs]
  simp only [State.coordinate, hs] at hstep
  cases hstep
  split_ifs with hempty
  · exact h.moved (by simp [hs]) ⟨hplace.1.goto, hplace.2, .inl hempty⟩ fun _ => htotal.symm
  · exact h.moved (by simp [hs]) ⟨hplace.1.clean, hplace.1.live, hplace.1.done⟩ fun _ => htotal.symm

lemma ready (h : s.Sound job) (hs : s.place = .ready k)
    (hstep : s.coordinate job answer = some s') : s'.Sound job := by
  have hplace := h.place
  simp only [State.At, hs] at hplace
  obtain ⟨hr, hk, hready⟩ := hplace
  have hp := List.getElem?_eq_getElem hk
  have hsound := h.lanes k _ hp
  have hlength := (hsound.length_le hready).trans (h.phase_of_wave hp)
  have hstart : (if job.batch = 1 then (s.lanes k).next else 0) = 0 := by
    split_ifs with hb
    · exact (hsound.single hb).1
    · rfl
  simp only [State.coordinate, hs, if_neg (Nat.not_lt.mpr hlength), hstart] at hstep
  cases hstep
  refine h.moved (by simp [hs]) ⟨hr.goto, hk, hready, Nat.zero_add _⟩ fun _ => ?_
  simp only [State.total, place_goto, hs]
  rfl

/-- A write takes the bytes that come next. -/
lemma write (h : s.Sound job) {start n : Nat} (hs : s.place = .write k start n)
    (hstep : s.coordinate job answer = some s') : s'.Sound job := by
  have hplace := h.place
  simp only [State.At, hs] at hplace
  obtain ⟨hr, hk, hready, hlength⟩ := hplace
  have hp := List.getElem?_eq_getElem hk
  simp only [State.coordinate, hs] at hstep
  split_ifs at hstep with hn
  · cases hstep
    refine h.moved (by simp [hs]) ⟨hr.goto, hk, hready⟩ fun _ => ?_
    simp only [State.total, place_goto, hs, lanes_goto, ahead_goto, log_goto]
    rw [← hlength, hn, Nat.add_zero]
  · cases answer with
    | failed => cases hstep; exact h.refuse (by simp [hs])
    | ok m =>
        simp only at hstep
        split_ifs at hstep with hm
        cases hstep
        have hdrop : (s.ahead job k).1.drop start =
            read (s.lanes k).buffer start m ++ (s.ahead job k).1.drop (start + m) := by
          obtain ⟨rest, hrest⟩ : ∃ rest, (s.ahead job k).1 =
              read (s.lanes k).buffer 0 (start + m) ++ rest := by
            rw [h.ahead_ready hp hready, ← hlength, show start + n = start + m + (n - m) by omega,
              read_add, prepend, List.append_assoc]
            exact ⟨_, rfl⟩
          rw [hrest, List.drop_left' (length_read _ _ _), read_add, List.append_assoc,
            List.drop_left' (length_read _ _ _), Nat.zero_add]
        have htotal := h.total hr.clean.2
        simp only [State.total, hs] at htotal
        rw [hdrop, ← List.append_assoc] at htotal
        exact {
          aligned := h.aligned
          lanes := h.lanes
          idle := h.idle
          sleeping := fun j after hasleep =>
            .inl ((h.sleeping j after hasleep).resolve_right (by simp [hs]))
          place := ⟨⟨hr.clean, hr.live, hr.done⟩, hk, hready, by simp only; omega⟩
          total := fun _ => htotal
          log := ⟨_, congrArg Prod.fst htotal⟩ }

lemma consumed (h : s.Sound job) (hs : s.place = .consumed k)
    (hstep : s.coordinate job answer = some s') : s'.Sound job := by
  have hplace := h.place
  simp only [State.At, hs] at hplace
  obtain ⟨hr, hk, hready⟩ := hplace
  have hp := List.getElem?_eq_getElem hk
  simp only [State.coordinate, hs] at hstep
  cases hstep
  refine h.changed (by simp [hs]) (by simp) (fun p hp => (h.lanes k p hp).taken hready)
    (fun hle => absurd hk (Nat.not_lt.mpr hle)) ⟨?_, hk⟩ fun _ => ?_
  · refine hr.update rfl ⟨rfl, rfl⟩ rfl (fun _ _ => ⟨by simp, fun hended => ?_⟩)
      fun hlt => absurd hlt (Nat.lt_irrefl k)
    have hat := (h.lanes k _ hp).at_worker
    simp only [Lane.At, show (s.lanes k).worker = .ended from hended] at hat
    exact absurd hready hat
  · simp only [State.total, place_goto, hs, log_goto, log_setLane, ahead_goto]
    rw [h.ahead_ready hp hready, prepend, prepend]
    simp

/-- The worker of a lane is woken. -/
lemma wake (h : s.Sound job) (hs : s.place = .wake k)
    (hstep : s.coordinate job answer = some s') : s'.Sound job := by
  have hplace := h.place
  simp only [State.At, hs] at hplace
  obtain ⟨hr, hk⟩ := hplace
  simp only [State.coordinate, hs] at hstep
  cases hstep
  refine h.changed (fun j hj => by simp [hs, Ne.symm hj])
    (fun after hasleep => absurd hasleep (Lane.woken_not_asleep after))
    (fun p hp => (h.lanes k p hp).woken) (fun hle => absurd hk (Nat.not_lt.mpr hle)) ?_ fun _ => ?_
  · refine hr.update rfl ⟨rfl, rfl⟩ rfl (fun _ _ => ?_) fun hlt => absurd hlt (Nat.lt_irrefl k)
    have hlive := hr.live k (Nat.le_refl k) hk
    exact ⟨by rw [Lane.woken_word]; exact hlive.1,
      fun hended => by rw [Lane.woken_word]; exact hlive.2 (Lane.woken_ended.mp hended)⟩
  · simp only [State.total, place_goto, hs, log_goto, log_setLane, ahead_goto]
    rw [ahead_update (s := s) (t := s.setLane k (s.lanes k).woken) (k := k) rfl rfl rfl
      fun _ p _ => Lane.woken_pending]

lemma done (h : s.Sound job) (hs : s.place = .done k)
    (hstep : s.coordinate job answer = some s') : s'.Sound job := by
  have hplace := h.place
  simp only [State.At, hs] at hplace
  obtain ⟨hr, hk, hword⟩ := hplace
  have hp := List.getElem?_eq_getElem hk
  have hahead := ahead_eq hp
  rw [(h.lanes k _ hp).pending_of_done hword] at hahead
  simp only [State.coordinate, hs] at hstep
  cases hstep
  split_ifs with hstatus
  · refine h.moved (by simp [hs]) trivial fun _ => ?_
    simp only [State.total, place_goto, hs]
    rw [hahead]
    simp [chain, prepend, hstatus]
  · refine h.moved (by simp [hs]) ⟨hr.clean, fun j hj => hr.live j (by omega), fun j hj => ?_⟩
      fun _ => ?_
    · rcases Nat.lt_succ_iff_lt_or_eq.mp hj with hj | rfl
      · exact hr.done j hj
      · exact hword
    · simp only [State.total, place_goto, hs]
      rw [hahead]
      simp [chain, hstatus, ahead, State.goto, State.wave]

/-! ### The end of a wave -/

lemma cancel (h : s.Sound job) (hs : s.place = .cancel)
    (hstep : s.coordinate job answer = some s') : s'.Sound job := by
  simp only [State.coordinate, hs] at hstep
  cases hstep
  exact {
    aligned := h.aligned
    lanes := h.lanes
    idle := h.idle
    sleeping := fun j after hasleep =>
      .inl ((h.sleeping j after hasleep).resolve_right (by simp [hs]))
    place := ⟨rfl, fun j hj => absurd hj (Nat.not_lt_zero j)⟩
    total := fun hrefused => by
      have htotal := h.total hrefused
      simp only [State.total, hs] at htotal
      exact htotal
    log := h.log }

lemma cancelLane (h : s.Sound job) (hs : s.place = .cancelLane k)
    (hstep : s.coordinate job answer = some s') : s'.Sound job := by
  have hplace := h.place
  simp only [State.At, hs] at hplace
  obtain ⟨hfailed, hwords⟩ := hplace
  simp only [State.coordinate, hs] at hstep
  split_ifs at hstep with hk
  · cases hstep
    refine h.changed (by simp [hs]) (fun _ _ => .inr (.inr rfl))
      (fun p hp => (h.lanes k p hp).cancelled) (fun hle => absurd hk (Nat.not_lt.mpr hle))
      ⟨hfailed, fun j hj => ?_⟩ fun _ => ?_
    · refine forall_update (P := fun j l => j ≤ k → l.word = .cancel) (fun _ => rfl)
        (fun j hjk hj => hwords j (by omega)) j hj
    · simp only [State.total, place_goto, hs]
      rfl
  · cases hstep
    refine h.moved (by simp [hs]) ⟨fun _ => hfailed, fun j hj => ?_, by simp⟩ fun _ => ?_
    · rw [lanes_goto, failed_goto, hfailed]
      exact hwords j (Nat.lt_of_lt_of_le hj (Nat.not_lt.mp hk))
    · simp only [State.total, place_goto, hs, failed_goto, hfailed, if_true, log_goto]

lemma cancelWake (h : s.Sound job) (hs : s.place = .cancelWake k)
    (hstep : s.coordinate job answer = some s') : s'.Sound job := by
  have hplace := h.place
  simp only [State.At, hs] at hplace
  obtain ⟨hfailed, hwords⟩ := hplace
  simp only [State.coordinate, hs] at hstep
  cases hstep
  refine h.changed (fun j hj => by simp [hs, Ne.symm hj])
    (fun after hasleep => absurd hasleep (Lane.woken_not_asleep after))
    (fun p hp => (h.lanes k p hp).woken) (fun hle => ?_) ⟨hfailed, fun j hj => ?_⟩ fun _ => ?_
  · have hidle := h.idle k hle
    rw [Lane.woken, hidle.ended]
    exact hidle
  · refine forall_update (P := fun j l => j < k + 1 → l.word = .cancel)
      (fun _ => by rw [Lane.woken_word]; exact hwords k (Nat.le_refl k))
      (fun j _ hj => hwords j (by omega)) j hj
  · simp only [State.total, place_goto, hs]
    rfl

lemma join (h : s.Sound job) (hs : s.place = .join k)
    (hstep : s.coordinate job answer = some s') : s'.Sound job := by
  have hplace := h.place
  simp only [State.At, hs] at hplace
  obtain ⟨hrefused, hwords, hjoined⟩ := hplace
  have htotal : s.total job =
      if s.failed then (s.log, true)
      else prepend s.log (resultsFrom job (s.start + job.limit)) := by
    simp only [State.total, hs]
  simp only [State.coordinate, hs] at hstep
  split_ifs at hstep with hk hthread hfailed
  · cases hstep
    exact h.moved (by simp [hs]) ⟨hrefused, hwords, hjoined⟩ fun _ => htotal.symm
  · cases hstep
    refine h.moved (by simp [hs]) ⟨hrefused, hwords, fun j hj => ?_⟩ fun _ => htotal.symm
    rcases Nat.lt_succ_iff_lt_or_eq.mp hj with hj | rfl
    · exact hjoined j hj
    · exact not_not.mp (mt h.ended_of_thread.mpr hthread)
  all_goals
    have hended : ∀ j, (s.lanes j).worker = .ended := fun j => by
      rcases Nat.lt_or_ge j k with hj | hj
      · exact hjoined j hj
      · exact (h.idle j ((Nat.not_lt.mp hk).trans hj)).ended
  · cases hstep
    refine h.moved (by simp [hs]) ⟨fun _ => rfl, hended⟩ fun _ => ?_
    rw [htotal, if_pos hfailed]
    rfl
  · obtain rfl := Option.some.inj hstep
    have hclean : s.failed = false ∧ s.refused = false :=
      ⟨by simpa using hfailed, by simpa [hfailed] using hrefused⟩
    rw [hclean.1] at htotal
    unfold State.nextWave
    split_ifs with hlast
    · refine h.moved (by simp [hs]) ⟨by simp [hclean.2], hended⟩ fun _ => ?_
      rw [htotal, resultsFrom, List.drop_of_length_le hlast]
      simp [State.total, hclean.1, chain, prepend]
    · have hidle := fun j => h.idle_of_ended (hended j)
      exact {
        aligned := by rw [Nat.add_mod_right]; exact h.aligned
        lanes := fun j p _ => (hidle j).sound p
        idle := fun j _ => hidle j
        sleeping := fun j after hasleep => by
          rw [show (s.lanes j).worker = _ from hended j] at hasleep
          cases hasleep
        place := ⟨hclean, hended, fun j hj => absurd hj (Nat.not_lt_zero j)⟩
        total := fun hrefused => htotal.symm.trans (h.total hrefused)
        log := h.log }

lemma joinWait (h : s.Sound job) (hs : s.place = .joinWait k)
    (hstep : s.coordinate job answer = some s') : s'.Sound job := by
  have hplace := h.place
  simp only [State.At, hs] at hplace
  obtain ⟨hrefused, hwords, hjoined⟩ := hplace
  have htotal : s.total job =
      if s.failed then (s.log, true)
      else prepend s.log (resultsFrom job (s.start + job.limit)) := by
    simp only [State.total, hs]
  simp only [State.coordinate, hs] at hstep
  cases hstep
  split_ifs with hthread
  · exact h.moved (by simp [hs]) ⟨hrefused, hwords, hjoined, h.ended_of_thread.mp hthread⟩
      fun _ => htotal.symm
  · exact h.moved (by simp [hs]) ⟨hrefused, hwords, hjoined⟩ fun _ => htotal.symm

/-- **An instruction of the coordinator keeps the state sound.** -/
lemma coordinator (h : s.Sound job) (hstep : s.coordinate job answer = some s') : s'.Sound job := by
  cases hs : s.place with
  | reset k => exact h.reset hs hstep
  | clone k => exact h.clone hs hstep
  | receive k => exact h.receive hs hstep
  | wait k => exact h.wait hs hstep
  | ready k => exact h.ready hs hstep
  | write k start n => exact h.write hs hstep
  | consumed k => exact h.consumed hs hstep
  | wake k => exact h.wake hs hstep
  | done k => exact h.done hs hstep
  | cancel => exact h.cancel hs hstep
  | cancelLane k => exact h.cancelLane hs hstep
  | cancelWake k => exact h.cancelWake hs hstep
  | join k => exact h.join hs hstep
  | joinWait k => exact h.joinWait hs hstep
  | asleep k | joinAsleep k | exited failed => simp [State.coordinate, hs] at hstep

/-- An interrupted call keeps the state sound. -/
lemma interrupt (h : s.Sound job) (hstep : Interrupt s s') : s'.Sound job := by
  have hplace := h.place
  cases hstep with
  | receive hs =>
      simp only [State.At, hs] at hplace
      refine h.moved (by simp [hs]) ⟨hplace.1.clean, hplace.1.live, hplace.1.done⟩ fun _ => ?_
      simp only [State.total, place_goto, hs]
      rfl
  | join hs =>
      simp only [State.At, hs] at hplace
      refine h.moved (by simp [hs]) ⟨hplace.1, hplace.2.1, hplace.2.2.1⟩ fun _ => ?_
      simp only [State.total, place_goto, hs]
      rfl
  | @worker k after hw =>
      obtain ⟨p, hp, hsound⟩ := (h.sound_or_idle k).resolve_right fun hidle => by
        rw [hidle.2.ended] at hw
        cases hw
      have hgoes := h.goes hp (hsound.interrupted hw)
      rwa [hw] at hgoes

/-- **Every step keeps the state sound.** -/
theorem step (h : s.Sound job) (hstep : (Native.Lanes.lanes job).step s s') : s'.Sound job := by
  rcases hstep with (⟨hp, hwork⟩ | hstep) | hstep
  · exact h.worker hp hwork
  · exact h.coordinator hstep
  · exact h.interrupt hstep

end Sound

end State

end Verbosec.Native.Lanes
