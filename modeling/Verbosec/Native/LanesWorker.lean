import Mathlib.Tactic.Common
import Verbosec.Native.Lanes

/-!
# The worker of a lane

* `Lane.pending` - what the coordinator is still to take from a lane that is not cancelled;
  `Sound.pending` says that the instructions of the worker keep it.
* `Lane.Sound` - what is known at each place of the worker; `Sound.turn` is its invariance.
* `Sound.fixed` - the worker changes nothing of what it has published until that is taken.

Source: `native/concurrent/emit.rs`, `worker`.
-/

namespace Verbosec.Native.Lanes

open Verbosec.Lib

variable {α : Type*} {job : Job α} {p : Phase α} {l l' : Lane α}

/-! ## Bytes of a buffer -/

@[simp] lemma read_zero (m : Nat → UInt8) (start : Nat) : read m start 0 = [] := rfl

@[simp] lemma length_read (m : Nat → UInt8) (start n : Nat) : (read m start n).length = n := by
  simp [read]

lemma read_add (m : Nat → UInt8) (start n k : Nat) :
    read m start (n + k) = read m start n ++ read m (start + n) k := by
  simp [read, List.range_add, Function.comp_def, Nat.add_assoc]

/-- A byte that is stored at the end. -/
lemma read_update (m : Nat → UInt8) (n : Nat) (b : UInt8) :
    read (Function.update m n b) 0 (n + 1) = read m 0 n ++ [b] := by
  rw [read_add]
  refine congrArg₂ _ (List.map_congr_left fun i hi => ?_) (by simp [read])
  rw [Function.update_of_ne]
  have := List.mem_range.mp hi
  omega

@[simp] lemma prepend_nil (r : List UInt8 × Bool) : prepend [] r = r := rfl

lemma prepend_append (bytes more : List UInt8) (r : List UInt8 × Bool) :
    prepend (bytes ++ more) r = prepend bytes (prepend more r) := by
  simp [prepend]

/-! ## What is to come from a lane -/

/-- What a worker sends after its result has been taken. -/
def After.rest (p : Phase α) (l : Lane α) : After α → List UInt8 × Bool
  | .next rest => p.loop rest l.sticky
  | .complete | .exit => ([], l.status)

/-- What a lane has published, with what comes after it. -/
def Lane.published (p : Phase α) (l : Lane α) (after : After α) : List UInt8 × Bool :=
  match l.word with
  | .ready => prepend (read l.buffer 0 l.length) (after.rest p l)
  | .empty | .cancel => after.rest p l
  | .done => ([], l.status)
  | .error => ([], true)

/-- What is to come from a lane that is not cancelled. -/
def Lane.pending (job : Job α) (p : Phase α) (l : Lane α) : List UInt8 × Bool :=
  match l.worker with
  | .start => p.result job.args
  | .next rest | .record rest => prepend (read l.buffer 0 l.next) (p.loop rest l.sticky)
  | .store rest bytes cursor =>
      prepend (read l.buffer 0 cursor ++ bytes) (p.loop rest l.sticky)
  | .commit rest => prepend (read l.buffer 0 (l.next + l.length)) (p.loop rest l.sticky)
  | .flush after => prepend (read l.buffer 0 l.filled) (after.rest p l)
  | .publish .ready after => prepend (read l.buffer 0 l.length) (after.rest p l)
  | .publish .error _ => ([], true)
  | .publish _ _ => ([], l.status)
  | .wake after | .pending after | .wait after | .asleep after => l.published p after
  | .done => (read l.buffer 0 l.next, l.sticky)
  | .fail => (read l.buffer 0 l.next, true)
  | .terminal => (read l.buffer 0 l.filled, l.status)
  | .exit | .ended | .aborted => l.published p .exit

/-! ## Invariants -/

/-- The coordinator has taken what there was, or has cancelled the lane. -/
def Lane.Open (l : Lane α) : Prop := l.word = .empty ∨ l.word = .cancel

/-- The batch is not full, and its records are where they belong. -/
def Lane.Room (job : Job α) (p : Phase α) (l : Lane α) : Prop :=
  l.next = l.filled ∧ l.filled ≤ l.count * p.outputBytes ∧ l.count < job.batch

/-- What a worker does after an exchange is not its end, and there is a last batch only where
results are exchanged in batches. -/
def After.Sound (job : Job α) : After α → Prop
  | .next _ => True
  | .complete => job.batch ≠ 1
  | .exit => False

/-- What is known of the word of a lane after an exchange. -/
def Lane.Exchanged (job : Job α) (p : Phase α) (l : Lane α) (after : After α) : Prop :=
  match l.word with
  | .empty => after.Sound job
  | .ready => after.Sound job ∧ l.length ≤ p.outputBytes * job.batch
  | .done | .error => after = .exit
  | .cancel => True

/-- What is known at each place of a worker. -/
def Lane.At (job : Job α) (p : Phase α) (l : Lane α) : Prop :=
  match l.worker with
  | .start => l.Open
  | .next _ | .record _ | .done | .fail => l.Open ∧ l.Room job p
  | .store _ bytes cursor =>
      l.Open ∧ l.Room job p ∧ l.next ≤ cursor ∧ cursor + bytes.length ≤ l.next + p.outputBytes
  | .commit _ => l.Open ∧ l.Room job p ∧ l.length ≤ p.outputBytes ∧ job.batch ≠ 1
  | .flush after =>
      l.Open ∧ after.Sound job ∧ l.filled ≤ p.outputBytes * job.batch ∧ job.batch ≠ 1
  | .terminal => l.Open ∧ l.Room job p ∧ job.batch ≠ 1
  | .publish word after =>
      l.Open ∧ (word = .ready ∧ after.Sound job ∧ l.length ≤ p.outputBytes * job.batch ∨
        (word = .done ∨ word = .error) ∧ after = .exit)
  | .wake after => l.Exchanged job p after
  | .pending after | .wait after | .asleep after =>
      l.Exchanged job p after ∧ l.word ≠ .done ∧ l.word ≠ .error
  | .exit => l.word ≠ .ready ∧ l.word ≠ .empty
  | .ended => l.word ≠ .ready
  | .aborted => False

/-- What holds of every lane with its phase. -/
structure Lane.Sound (job : Job α) (p : Phase α) (l : Lane α) : Prop where
  /-- where results are not exchanged in batches, the records stay at the start of the buffer -/
  single : job.batch = 1 → l.next = 0 ∧ l.filled = 0 ∧ l.count = 0
  /-- the thread word is that of a worker -/
  thread : l.thread = true ↔ l.worker ≠ .ended
  at_worker : l.At job p

/-- Does a worker go on? -/
def Pc.awake : Pc α → Bool
  | .asleep _ | .ended => false
  | _ => true

/-- A worker falls asleep where its result is not taken, and it ends at its exit. -/
lemma Lane.turn_worker (hturn : l.turn job p = some l') :
    (∃ after, l.worker = .wait after ∧ l.word = .ready ∧ l' = { l with worker := .asleep after }) ∨
      (l.worker = .exit ∧ l' = { l with thread := false, worker := .ended }) ∨
      (l'.worker.awake = true ∧ l'.thread = l.thread) := by
  unfold Lane.turn at hturn
  cases hw : l.worker with
  | wait after =>
      rw [hw] at hturn
      cases hturn
      by_cases hr : l.word = .ready
      · exact .inl ⟨after, rfl, hr, by rw [if_pos hr]⟩
      · exact .inr (.inr ⟨by simp [hr, Pc.awake], rfl⟩)
  | exit => rw [hw] at hturn; cases hturn; exact .inr (.inl ⟨rfl, rfl⟩)
  | asleep after | ended | aborted => rw [hw] at hturn; cases hturn
  | start =>
      rw [hw] at hturn
      cases hturn
      refine .inr (.inr ⟨?_, by simp only; split_ifs <;> rfl⟩)
      simp only
      split_ifs <;> rfl
  | record rest =>
      rw [hw] at hturn
      obtain rfl := Option.some.inj hturn
      refine .inr (.inr ?_)
      unfold Lane.record
      split_ifs
      · exact ⟨rfl, rfl⟩
      · exact ⟨rfl, rfl⟩
      · split <;> exact ⟨rfl, rfl⟩
  | store rest bytes cursor =>
      cases bytes <;> rw [hw] at hturn <;> cases hturn <;> refine .inr (.inr ⟨?_, rfl⟩)
      · simp only
        split_ifs <;> rfl
      · rfl
  | pending after =>
      rw [hw] at hturn
      refine .inr (.inr ?_)
      cases hword : l.word with
      | empty =>
          rw [hword] at hturn
          cases hturn
          cases after with
          | next rest => by_cases hb : job.batch = 1 <;> simp [Lane.consumed, hb, Pc.awake]
          | complete | exit => exact ⟨rfl, rfl⟩
      | _ => rw [hword] at hturn; cases hturn; exact ⟨rfl, rfl⟩
  | wake after =>
      rw [hw] at hturn
      cases hturn
      cases after <;> exact .inr (.inr ⟨rfl, rfl⟩)
  | next rest | commit rest | publish word after | done | fail | terminal =>
      rw [hw] at hturn
      cases hturn
      refine .inr (.inr ?_)
      first | unfold Lane.commit | skip
      split_ifs <;> exact ⟨rfl, rfl⟩
  | flush after => rw [hw] at hturn; cases hturn; exact .inr (.inr ⟨rfl, rfl⟩)

lemma Lane.turn_not_ended (hturn : l.turn job p = some l') : l.worker ≠ .ended := by
  intro h
  simp [Lane.turn, h] at hturn

/-- A worker falls asleep on a result that is not taken. -/
lemma Lane.turn_asleep (hturn : l.turn job p = some l') {after : After α}
    (hasleep : l'.worker = .asleep after) : l'.word = .ready := by
  rcases Lane.turn_worker hturn with ⟨after, -, hr, rfl⟩ | ⟨-, rfl⟩ | ⟨hawake, -⟩
  · exact hr
  · cases hasleep
  · rw [hasleep] at hawake
    cases hawake

/-- Only the exit of a worker ends it. -/
lemma Lane.turn_ended (hturn : l.turn job p = some l') (hended : l'.worker = .ended) :
    l.worker = .exit ∧ l'.word = l.word := by
  rcases Lane.turn_worker hturn with ⟨after, -, -, rfl⟩ | ⟨hexit, rfl⟩ | ⟨hawake, -⟩
  · cases hended
  · exact ⟨hexit, rfl⟩
  · rw [hended] at hawake
    cases hawake

namespace Lane.Sound

/-- The room of a batch that is not full. -/
lemma filled_le (h : l.Room job p) {n : Nat} (hn : n ≤ p.outputBytes) :
    l.filled + n ≤ p.outputBytes * job.batch ∧ l.filled + n ≤ (l.count + 1) * p.outputBytes := by
  obtain ⟨-, hfilled, hcount⟩ := h
  have hmul := Nat.mul_le_mul_right p.outputBytes hcount
  rw [Nat.succ_mul] at hmul
  rw [Nat.mul_comm p.outputBytes, Nat.succ_mul]
  omega

lemma turn_single (h : l.Sound job p) (hturn : l.turn job p = some l') :
    job.batch = 1 → l'.next = 0 ∧ l'.filled = 0 ∧ l'.count = 0 := by
  intro hbatch
  have hs := h.single hbatch
  have hat := h.at_worker
  unfold Lane.At at hat
  unfold Lane.turn at hturn
  cases hw : l.worker with
  | commit rest => exact absurd hbatch (by simp only [hw] at hat; exact hat.2.2.2)
  | store rest bytes cursor =>
      cases bytes <;> (rw [hw] at hturn; cases hturn; exact hs)
  | record rest =>
      rw [hw] at hturn
      obtain rfl := Option.some.inj hturn
      unfold Lane.record
      split_ifs
      · exact hs
      · exact hs
      · split <;> exact hs
  | publish word after => rw [hw] at hturn; cases hturn; split <;> exact hs
  | pending after =>
      simp only [hw] at hturn
      split at hturn <;> cases hturn <;> first | exact hs | skip
      cases after <;> simp only [Lane.consumed, if_pos hbatch] <;> exact hs
  | start =>
      simp only [hw, if_pos hbatch] at hturn
      cases hturn
      exact hs
  | fail => simp only [hw, if_pos hbatch] at hturn; cases hturn; exact hs
  | asleep after | ended | aborted => rw [hw] at hturn; cases hturn
  | _ => rw [hw] at hturn; cases hturn; exact hs

lemma turn_thread (h : l.Sound job p) (hturn : l.turn job p = some l') :
    l'.thread = true ↔ l'.worker ≠ .ended := by
  have hthread := h.thread.mpr (Lane.turn_not_ended hturn)
  rcases Lane.turn_worker hturn with ⟨after, -, -, rfl⟩ | ⟨-, rfl⟩ | ⟨hawake, hl'⟩
  · simpa using hthread
  · simp
  · refine iff_of_true (hl'.trans hthread) fun hended => ?_
    rw [hended] at hawake
    cases hawake

/-- The record that follows is stored behind the ones before it. -/
lemma record_at (hopen : l.Open) (hroom : l.Room job p) (rest : List α) :
    (l.record p rest).At job p := by
  unfold Lane.record
  split_ifs
  · exact ⟨hopen, hroom⟩
  · exact ⟨hopen, hroom⟩
  · split
    · exact ⟨hopen, hroom⟩
    · next bytes falsy hrun =>
        exact ⟨hopen, hroom, Nat.le_refl _, Nat.add_le_add_left (p.fits _ _ _ hrun) _⟩

lemma turn_at (h : l.Sound job p) (hturn : l.turn job p = some l') : l'.At job p := by
  have hat := h.at_worker
  unfold Lane.At at hat
  unfold Lane.turn at hturn
  have hempty : l.Open → l.resetBatch.Room job p := fun _ =>
    ⟨rfl, Nat.zero_le _, job.batch_pos⟩
  have hsingle : job.batch = 1 → l.Room job p := fun hb => by
    obtain ⟨hnext, hfilled, hcount⟩ := h.single hb
    exact ⟨hnext.trans hfilled.symm, by omega, by omega⟩
  cases hw : l.worker with
  | start =>
      simp only [hw] at hturn hat
      cases hturn
      have hroom : (if job.batch = 1 then l else l.resetBatch).Room job p := by
        split_ifs with hb
        · exact hsingle hb
        · exact hempty hat
      have hopen : (if job.batch = 1 then l else l.resetBatch).Open := by
        split_ifs <;> exact hat
      by_cases hargs : job.args.length < p.width
      · simp only [if_pos hargs]
        exact ⟨hopen, hroom⟩
      · simp only [if_neg hargs]
        exact ⟨hopen, hroom⟩
  | next rest =>
      simp only [hw] at hturn hat
      cases hturn
      by_cases hc : l.word = .cancel
      · simp only [if_pos hc]
        exact ⟨by simp [hc], by simp [hc]⟩
      · simp only [if_neg hc]
        exact hat
  | record rest =>
      simp only [hw] at hturn hat
      obtain rfl := Option.some.inj hturn
      exact record_at hat.1 hat.2 rest
  | store rest bytes cursor =>
      simp only [hw] at hat
      obtain ⟨hopen, hroom, hnext, hcursor⟩ := hat
      cases bytes with
      | nil =>
          rw [hw] at hturn
          cases hturn
          rw [List.length_nil] at hcursor
          by_cases hb : job.batch = 1
          · simp only [if_pos hb]
            refine ⟨hopen, .inl ⟨rfl, trivial, ?_⟩⟩
            simp only [hb]
            omega
          · simp only [if_neg hb]
            exact ⟨hopen, hroom, by simp only; omega, hb⟩
      | cons b bytes =>
          rw [hw] at hturn
          cases hturn
          rw [List.length_cons] at hcursor
          exact ⟨hopen, hroom, by simp only; omega, by simp only; omega⟩
  | commit rest =>
      simp only [hw] at hturn hat
      cases hturn
      obtain ⟨hopen, hroom, hlength, hb⟩ := hat
      obtain ⟨hcap, hcount⟩ := filled_le hroom hlength
      unfold Lane.commit
      split_ifs with hlt
      · exact ⟨hopen, congrArg (· + l.length) hroom.1, hcount, hlt⟩
      · exact ⟨hopen, trivial, hcap, hb⟩
  | flush after =>
      simp only [hw] at hturn hat
      cases hturn
      exact ⟨hat.1, .inl ⟨rfl, hat.2.1, hat.2.2.1⟩⟩
  | publish word after =>
      simp only [hw] at hturn hat
      obtain ⟨hopen, hword⟩ := hat
      cases hturn
      split_ifs with he
      · rcases hword with ⟨rfl, hafter, hlength⟩ | ⟨rfl | rfl, rfl⟩
        · exact ⟨hafter, hlength⟩
        · rfl
        · rfl
      · have hc : l.word = .cancel := hopen.resolve_left he
        exact ⟨by simp [hc], by simp [hc]⟩
  | wake after =>
      simp only [hw, Lane.Exchanged] at hturn hat
      cases hturn
      cases after with
      | exit =>
          refine ⟨fun hr => ?_, fun he => ?_⟩
          · simp only [show l.word = .ready from hr] at hat
            exact hat.1
          · simp only [show l.word = .empty from he] at hat
            exact hat
      | next rest =>
          refine ⟨hat, fun hd => ?_, fun he => ?_⟩
          · simp only [show l.word = .done from hd] at hat
            cases hat
          · simp only [show l.word = .error from he] at hat
            cases hat
      | complete =>
          refine ⟨hat, fun hd => ?_, fun he => ?_⟩
          · simp only [show l.word = .done from hd] at hat
            cases hat
          · simp only [show l.word = .error from he] at hat
            cases hat
  | pending after =>
      simp only [hw] at hturn hat
      obtain ⟨hex, hdone, herror⟩ := hat
      cases hword : l.word with
      | empty =>
          simp only [hword] at hturn
          cases hturn
          simp only [Lane.Exchanged, hword] at hex
          cases after with
          | next rest =>
              unfold Lane.consumed
              by_cases hb : job.batch = 1
              · simp only [if_pos hb]
                exact ⟨.inl hword, hsingle hb⟩
              · simp only [if_neg hb]
                exact ⟨.inl hword, hempty (.inl hword)⟩
          | complete => exact ⟨.inl hword, .inr ⟨.inl rfl, rfl⟩⟩
          | exit => exact hex.elim
      | ready =>
          simp only [hword] at hturn
          cases hturn
          exact ⟨by simpa [Lane.Exchanged, hword] using hex, by simp, by simp⟩
      | done => exact absurd hword hdone
      | error => exact absurd hword herror
      | cancel =>
          simp only [hword] at hturn
          cases hturn
          exact ⟨by simp, by simp⟩
  | wait after =>
      simp only [hw] at hturn hat
      cases hturn
      split_ifs <;> exact hat
  | done =>
      simp only [hw] at hturn hat
      cases hturn
      by_cases hb : job.batch = 1
      · simp only [if_pos hb]
        exact ⟨hat.1, .inr ⟨.inl rfl, rfl⟩⟩
      · simp only [if_neg hb]
        exact ⟨hat.1, hat.2, hb⟩
  | fail =>
      simp only [hw] at hturn hat
      cases hturn
      by_cases hb : job.batch = 1
      · simp only [if_pos hb]
        exact ⟨hat.1, .inr ⟨.inr rfl, rfl⟩⟩
      · simp only [if_neg hb]
        exact ⟨hat.1, hat.2, hb⟩
  | terminal =>
      simp only [hw] at hturn hat
      cases hturn
      obtain ⟨hopen, hroom, hb⟩ := hat
      by_cases hf : l.filled = 0
      · simp only [if_pos hf]
        exact ⟨hopen, .inr ⟨.inl rfl, rfl⟩⟩
      · simp only [if_neg hf]
        exact ⟨hopen, hb, (filled_le hroom (Nat.zero_le _)).1, hb⟩
  | exit =>
      simp only [hw] at hturn hat
      cases hturn
      exact hat.1
  | asleep after | ended | aborted => rw [hw] at hturn; cases hturn

/-- **The instructions of a worker keep what is known of its lane.** -/
lemma turn (h : l.Sound job p) (hturn : l.turn job p = some l') : l'.Sound job p :=
  ⟨h.turn_single hturn, h.turn_thread hturn, h.turn_at hturn⟩

/-! ## What is published -/

/-- What a lane has published lies in its buffer. -/
lemma length_le (h : l.Sound job p) (hword : l.word = .ready) :
    l.length ≤ p.outputBytes * job.batch := by
  have hat := h.at_worker
  unfold Lane.At at hat
  cases hw : l.worker <;> simp only [hw, Lane.Open, Lane.Exchanged, hword, reduceCtorEq, false_or,
    false_and, ne_eq, not_true, not_false_eq_true, and_true] at hat
  all_goals exact hat.2

/-- A store of a worker lies in the buffer of its lane. -/
lemma cursor_lt (h : l.Sound job p) {rest : List α} {b : UInt8} {bytes : List UInt8} {cursor : Nat}
    (hw : l.worker = .store rest (b :: bytes) cursor) : cursor < p.outputBytes * job.batch := by
  have hat := h.at_worker
  simp only [Lane.At, hw, List.length_cons] at hat
  obtain ⟨-, hroom, hnext, hcursor⟩ := hat
  have hfilled := (filled_le hroom (Nat.le_refl p.outputBytes)).1
  have hnext := hroom.1
  omega

/-- **A worker changes nothing of what it has published until that is taken.** -/
lemma fixed (h : l.Sound job p) (hturn : l.turn job p = some l')
    (hword : l.word = .ready ∨ l.word = .done ∨ l.word = .error) :
    l'.word = l.word ∧ l'.buffer = l.buffer ∧ l'.length = l.length ∧ l'.status = l.status ∧
      l'.next = l.next := by
  have hat := h.at_worker
  unfold Lane.At Lane.Open Lane.Exchanged at hat
  unfold Lane.turn at hturn
  rcases hword with hword | hword | hword <;>
    (cases hw : l.worker <;> simp only [hw, hword, reduceCtorEq, or_false, false_and, ne_eq,
      not_true, not_false_eq_true, and_true, and_false] at hat hturn <;> cases hturn <;> simp [hword])

/-- A worker changes the word of its lane only where the coordinator has taken what there was. -/
lemma turn_word (hturn : l.turn job p = some l') :
    l'.word = l.word ∨
      l.word = .empty ∧ ∃ word after, l.worker = .publish word after ∧ l'.worker = .wake after ∧
        l' = { l with word := word, worker := .wake after } := by
  unfold Lane.turn at hturn
  cases hw : l.worker with
  | publish word after =>
      rw [hw] at hturn
      cases hturn
      split_ifs with he
      · exact .inr ⟨he, word, after, rfl, rfl, rfl⟩
      · exact .inl rfl
  | store rest bytes cursor => cases bytes <;> (rw [hw] at hturn; cases hturn; exact .inl rfl)
  | record rest =>
      rw [hw] at hturn
      obtain rfl := Option.some.inj hturn
      unfold Lane.record
      split_ifs
      · exact .inl rfl
      · exact .inl rfl
      · split <;> exact .inl rfl
  | pending after =>
      simp only [hw] at hturn
      split at hturn <;> cases hturn <;> try exact .inl rfl
      cases after with
      | next rest => by_cases hb : job.batch = 1 <;> simp [Lane.consumed, hb]
      | complete | exit => exact .inl rfl
  | start => rw [hw] at hturn; cases hturn; by_cases hb : job.batch = 1 <;> simp [hb]
  | fail => rw [hw] at hturn; cases hturn; by_cases hb : job.batch = 1 <;> simp [hb]
  | asleep after | ended | aborted => rw [hw] at hturn; cases hturn
  | _ => rw [hw] at hturn; cases hturn; exact .inl rfl

/-! ## What is to come -/

lemma pending_of_done (h : l.Sound job p) (hword : l.word = .done) :
    l.pending job p = ([], l.status) := by
  have hat := h.at_worker
  unfold Lane.At Lane.Open Lane.Exchanged at hat
  unfold Lane.pending Lane.published
  cases hw : l.worker <;> simp only [hw, hword, reduceCtorEq, or_false, false_and, ne_eq, not_true,
    and_false] at hat ⊢

lemma pending_of_error (h : l.Sound job p) (hword : l.word = .error) :
    l.pending job p = ([], true) := by
  have hat := h.at_worker
  unfold Lane.At Lane.Open Lane.Exchanged at hat
  unfold Lane.pending Lane.published
  cases hw : l.worker <;> simp only [hw, hword, reduceCtorEq, or_false, false_and, ne_eq, not_true,
    and_false] at hat ⊢

/-- What is published comes first. -/
lemma pending_of_ready (h : l.Sound job p) (hword : l.word = .ready) :
    l.pending job p =
      prepend (read l.buffer 0 l.length) (({ l with word := .empty } : Lane α).pending job p) := by
  have hat := h.at_worker
  unfold Lane.At Lane.Open Lane.Exchanged at hat
  unfold Lane.pending Lane.published
  cases hw : l.worker <;> simp only [hw, hword, reduceCtorEq, or_false, false_and, ne_eq, not_true]
    at hat ⊢
  all_goals rename_i after; cases after <;> rfl

/-- What is to come from a record that follows. -/
lemma record_pending (rest : List α) :
    (l.record p rest).pending job p =
      prepend (read l.buffer 0 l.next) (p.loop rest l.sticky) := by
  rw [Phase.loop]
  unfold Lane.record
  split_ifs with hrest hshort
  · simp [Lane.pending, prepend]
  · simp [Lane.pending, prepend]
  · cases hrun : p.run (rest.take p.width) with
    | none => simp [Lane.pending, prepend]
    | some r => simp [Lane.pending, prepend_append]

/-- **The instructions of a worker that is not cancelled keep what is to come from it.** -/
lemma turn_pending (h : l.Sound job p) (hturn : l.turn job p = some l') (hc : l.word ≠ .cancel) :
    l'.pending job p = l.pending job p := by
  have hat := h.at_worker
  unfold Lane.At at hat
  unfold Lane.turn at hturn
  cases hw : l.worker with
  | start =>
      simp only [hw] at hturn
      cases hturn
      by_cases hb : job.batch = 1
      · simp only [if_pos hb, Lane.pending, hw, Phase.result, (h.single hb).1]
        split_ifs <;> simp_all
      · simp only [if_neg hb, Lane.pending, hw, Phase.result, Lane.resetBatch]
        split_ifs <;> simp_all
  | next rest =>
      simp only [hw, if_neg hc] at hturn
      cases hturn
      simp only [Lane.pending, hw]
  | record rest =>
      rw [hw] at hturn
      obtain rfl := Option.some.inj hturn
      rw [record_pending]
      simp only [Lane.pending, hw]
  | store rest bytes cursor =>
      simp only [hw] at hat
      cases bytes with
      | nil =>
          rw [hw] at hturn
          cases hturn
          by_cases hb : job.batch = 1
          · simp [Lane.pending, hw, hb, After.rest, (h.single hb).1]
          · simp [Lane.pending, hw, hb, Nat.add_sub_cancel' hat.2.2.1]
      | cons b bytes =>
          rw [hw] at hturn
          cases hturn
          simp only [Lane.pending, hw]
          rw [read_update, List.append_assoc, List.singleton_append]
  | commit rest =>
      simp only [hw] at hturn hat
      cases hturn
      unfold Lane.commit
      split_ifs
      · simp only [Lane.pending, hw]
      · simp only [Lane.pending, hw, After.rest, hat.2.1.1]
  | flush after =>
      rw [hw] at hturn
      cases hturn
      cases after <;> simp only [Lane.pending, hw, After.rest]
  | publish word after =>
      simp only [hw] at hturn hat
      have he : l.word = .empty := hat.1.resolve_right hc
      rw [if_pos he] at hturn
      cases hturn
      rcases hat.2 with ⟨rfl, -, -⟩ | ⟨rfl | rfl, rfl⟩
      · cases after <;> simp only [Lane.pending, hw, Lane.published, After.rest]
      · simp only [Lane.pending, hw, Lane.published]
      · simp only [Lane.pending, hw, Lane.published]
  | wake after =>
      simp only [hw] at hturn hat
      cases hturn
      cases after <;> simp only [Lane.pending, hw, After.await, Lane.published, After.rest]
  | pending after =>
      simp only [hw, Lane.Exchanged] at hturn hat
      cases hword : l.word with
      | empty =>
          simp only [hword] at hturn hat
          obtain rfl := Option.some.inj hturn
          cases after with
          | next rest =>
              by_cases hb : job.batch = 1
              · simp [Lane.consumed, Lane.pending, hw, hb, Lane.published, hword, After.rest,
                  (h.single hb).1]
              · simp [Lane.consumed, Lane.pending, hw, hb, Lane.published, hword, After.rest]
          | complete => simp [Lane.consumed, Lane.pending, hw, Lane.published, hword, After.rest]
          | exit => exact hat.1.elim
      | ready =>
          simp only [hword] at hturn
          cases hturn
          cases after <;> simp [Lane.pending, hw, Lane.published, hword, After.rest]
      | done => exact absurd hword hat.2.1
      | error => exact absurd hword hat.2.2
      | cancel => exact absurd hword hc
  | wait after =>
      rw [hw] at hturn
      cases hturn
      split_ifs <;> cases after <;> simp only [Lane.pending, hw, Lane.published, After.rest]
  | done =>
      simp only [hw] at hturn hat
      cases hturn
      by_cases hb : job.batch = 1
      · simp [Lane.pending, hw, hb, (h.single hb).1]
      · simp [Lane.pending, hw, hb, hat.2.1]
  | fail =>
      simp only [hw] at hturn hat
      cases hturn
      by_cases hb : job.batch = 1
      · simp [Lane.pending, hw, hb, (h.single hb).1]
      · simp [Lane.pending, hw, hb, hat.2.1]
  | terminal =>
      rw [hw] at hturn
      cases hturn
      split_ifs with hf
      · simp [Lane.pending, hw, hf]
      · simp [Lane.pending, hw, After.rest, prepend]
  | exit =>
      rw [hw] at hturn
      cases hturn
      simp only [Lane.pending, hw, Lane.published, After.rest]
  | asleep after | ended | aborted => rw [hw] at hturn; cases hturn

end Lane.Sound

end Verbosec.Native.Lanes
