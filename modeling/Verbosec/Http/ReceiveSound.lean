import Mathlib.Data.Nat.Bitwise
import Verbosec.Http.Accept
import Verbosec.Http.Receive
import Verbosec.Http.Reference

/-!
# The receive loop and the reference

* `scanByte_slots` - the instructions on one byte are the machine without words.
* `Tracks` - the slots of a connection are those of the machine on the bytes scanned so far;
  `Tracks.step` is its invariance.
* `receive_sound` - over every run, however the stream is cut into reads, the loop completes with the
  length that the reference gives, and only then.
-/

namespace Verbosec.Http

open Verbosec.Lib

variable {capacity : Nat}

/-! ## One byte -/

/-- The slots of a connection, from those of the machine. -/
def Scan.slots (s : Scan) (buffer : List UInt8) (received scan total : Nat) : Receiver where
  buffer := buffer
  received := received
  scan := scan
  state := s.phase.encode
  length := s.length
  seen := s.seen.toNat
  total := total
  path := s.path

/-- The counters of the machine are in range. -/
structure Scan.Ok (capacity : Nat) (s : Scan) : Prop where
  phase : s.phase.Valid
  path : s.path ≤ 256
  length : s.length ≤ capacity

lemma Scan.Ok.feed {s s' : Scan} {b : UInt8} (hs : s.Ok capacity)
    (h : feed capacity s b = some s') : s'.Ok capacity := by
  obtain ⟨p, a, hnext, hact⟩ := feed_eq_some.mp h
  have hp := hs.phase.next hnext
  cases a with
  | none => exact Option.some.inj hact ▸ ⟨hp, hs.path, hs.length⟩
  | digit =>
      simp only [act] at hact
      split at hact
      case isTrue => exact absurd hact (by simp)
      next hle => exact Option.some.inj hact ▸ ⟨hp, hs.path, by simp only; omega⟩
  | length =>
      simp only [act] at hact
      split at hact
      case isTrue => exact absurd hact (by simp)
      next => exact Option.some.inj hact ▸ ⟨hp, hs.path, hs.length⟩
  | target =>
      simp only [act] at hact
      split at hact
      case isTrue => exact absurd hact (by simp)
      next hle => exact Option.some.inj hact ▸ ⟨hp, by simp only; omega, hs.length⟩

lemma encode_bounds {p : Phase} (hp : p.Valid) : 1 ≤ p.encode ∧ p.encode < 68 := by
  have hmem : p.encode ∈ Phase.all.map Phase.encode := List.mem_map_of_mem hp.mem_all
  rw [encode_all] at hmem
  obtain ⟨i, hi, hcode⟩ := List.mem_map.mp hmem
  have := List.mem_range.mp hi
  omega

lemma and_two_pow_eq_zero {n k : Nat} (h : n < 2 ^ k) : n &&& 2 ^ k = 0 := by
  rw [Nat.and_two_pow, Nat.testBit_lt_two_pow h]
  simp

/-- The bits of an entry. -/
lemma code_bits {n : Nat} (h : n < 68) (hpos : 1 ≤ n) (a : Action) :
    n ||| a.flag ≠ 0 ∧ (n ||| a.flag) &&& stateMask = n ∧
      ((n ||| a.flag) &&& targetFlag = 0 ↔ a ≠ .target) ∧
      ((n ||| a.flag) &&& lengthFlag = 0 ↔ a ≠ .length) ∧
      ((n ||| a.flag) &&& digitFlag = 0 ↔ a ≠ .digit) := by
  have hmask : n &&& stateMask = n := Nat.and_two_pow_sub_one_of_lt_two_pow (n := 13) (by omega)
  have htarget : n &&& targetFlag = 0 := and_two_pow_eq_zero (k := 13) (by omega)
  have hlength : n &&& lengthFlag = 0 := and_two_pow_eq_zero (k := 14) (by omega)
  have hdigit : n &&& digitFlag = 0 := and_two_pow_eq_zero (k := 15) (by omega)
  refine ⟨fun hzero => ?_, ?_, ?_, ?_, ?_⟩
  · have := (Nat.or_eq_zero_iff.mp hzero).1
    omega
  · rw [Nat.and_or_distrib_right, hmask]
    cases a <;> simp [Action.flag, digitFlag, lengthFlag, targetFlag, stateMask]
  · rw [Nat.and_or_distrib_right, htarget]
    cases a <;> simp [Action.flag, digitFlag, lengthFlag, targetFlag]
  · rw [Nat.and_or_distrib_right, hlength]
    cases a <;> simp [Action.flag, digitFlag, lengthFlag, targetFlag]
  · rw [Nat.and_or_distrib_right, hdigit]
    cases a <;> simp [Action.flag, digitFlag, lengthFlag, targetFlag]

lemma next_digit {p q : Phase} {b : UInt8} (h : p.next b = some (q, .digit)) : digitByte b := by
  cases p with
  | name w k => cases w <;> grind [Phase.next, Phase.nextName, Phase.afterName]
  | _ => grind [Phase.next, Phase.nextHeader]

/-- The instructions on one byte, by the entry of the table. -/
lemma scanByte_eq {r : Receiver} {b : UInt8} {action : Nat} (h : table.entry r.state b = action) :
    scanByte capacity r b =
      if action = 0 then none
      else
        (targetAction action
          { r with scan := word (r.scan + 1), state := action &&& stateMask }).bind fun r =>
            (lengthAction action r).bind (digitAction capacity action b) := by
  subst h
  rfl

/-- **The instructions on one byte are the machine.** -/
theorem scanByte_slots (hcapacity : capacity < 2 ^ 31) {s : Scan} (hs : s.Ok capacity)
    {buffer : List UInt8} {received scan total : Nat} (hscan : scan < 2 ^ 31) (b : UInt8) :
    scanByte capacity (s.slots buffer received scan total) b =
      (feed capacity s b).map (·.slots buffer received (scan + 1) total) := by
  have hentry : table.entry s.phase.encode b = Phase.code (s.phase.next b) :=
    entry_encode hs.phase b
  cases hnext : s.phase.next b with
  | none =>
      rw [hnext] at hentry
      rw [scanByte_eq (r := s.slots buffer received scan total) hentry, feed, hnext]
      rfl
  | some t =>
      obtain ⟨p, a⟩ := t
      obtain ⟨hpos, hlt⟩ := encode_bounds (hs.phase.next hnext)
      obtain ⟨hzero, hstate, htarget, hlength, hdigit⟩ := code_bits hlt hpos a
      have hpath := hs.path
      have hlen := hs.length
      rw [hnext] at hentry
      rw [scanByte_eq (r := s.slots buffer received scan total) hentry, feed, hnext]
      simp only [Scan.slots, Phase.code, if_neg hzero, Option.bind_some, hstate]
      rw [word_of_lt (show scan + 1 < 2 ^ 64 by omega)]
      cases a with
      | none => simp_all [targetAction, lengthAction, digitAction, act]
      | target =>
          have hword : word (s.path + 1) = s.path + 1 := word_of_lt (by omega)
          have himm : imm 256 = 256 := rfl
          simp only [targetAction, htarget, ne_eq, not_true_eq_false, if_false, hword, himm, act]
          split
          · rfl
          · simp_all [lengthAction, digitAction]
      | length =>
          have ht : (p.encode ||| Action.length.flag) &&& targetFlag = 0 := htarget.mpr (by simp)
          have hl : (p.encode ||| Action.length.flag) &&& lengthFlag ≠ 0 := by simpa using hlength
          have hd : (p.encode ||| Action.length.flag) &&& digitFlag = 0 := hdigit.mpr (by simp)
          simp only [targetAction, ht, if_true, Option.bind_some, lengthAction, hl, if_false, act]
          cases s.seen <;> simp [digitAction, hd]
      | digit =>
          have ht : (p.encode ||| Action.digit.flag) &&& targetFlag = 0 := htarget.mpr (by simp)
          have hl : (p.encode ||| Action.digit.flag) &&& lengthFlag = 0 := hlength.mpr (by simp)
          have hd : (p.encode ||| Action.digit.flag) &&& digitFlag ≠ 0 := by simpa using hdigit
          obtain ⟨hlow, hhigh⟩ := digitByte_toNat (next_digit hnext)
          have hword : word (word (s.length * 10) + wordSub b.toNat 48) =
              s.length * 10 + (b.toNat - 48) := by
            have hten : word (s.length * 10) = s.length * 10 := word_of_lt (by omega)
            rw [hten, wordSub_of_le hlow (by omega), word_of_lt (by omega)]
          have hta : ∀ r, targetAction (p.encode ||| Action.digit.flag) r = some r := fun r => if_pos ht
          have hla : ∀ r, lengthAction (p.encode ||| Action.digit.flag) r = some r := fun r => if_pos hl
          rw [hta, Option.bind_some, hla, Option.bind_some, digitAction, if_neg hd,
            imm_of_lt hcapacity]
          simp only [hword, act]
          split <;> rfl

lemma encode_eq_done {p : Phase} : p.encode = doneState ↔ p = .done := by
  cases p with
  | method k => cases k <;> simp [Phase.encode, doneState]; omega
  | name w k => cases w <;> simp [Phase.encode, doneState] <;> omega
  | version k => simp [Phase.encode, doneState]; omega
  | _ => simp [Phase.encode, doneState]

/-- The label `scan` with a byte that the machine rejects; the machine is a variable, so that its
table stays closed. -/
lemma scanStep_none {r : Receiver} {b : UInt8} {next : UInt8 → Option Receiver}
    (hmachine : scanByte capacity r = next) (hscan : ¬ r.received ≤ r.scan)
    (hget : r.buffer[r.scan]? = some b) (hnext : next b = none) :
    scanStep capacity r = (.failed, r) := by
  unfold scanStep
  rw [hmachine]
  simp only [if_neg hscan, hget, hnext]

/-- The label `scan` with a byte that the machine takes. -/
lemma scanStep_some {r r' : Receiver} {b : UInt8} {next : UInt8 → Option Receiver}
    (hmachine : scanByte capacity r = next) (hscan : ¬ r.received ≤ r.scan)
    (hget : r.buffer[r.scan]? = some b) (hnext : next b = some r') :
    scanStep capacity r =
      if r'.state = doneState then
        if imm capacity < word (r'.scan + r'.length) then (.failed, r')
        else (.checkBody, { r' with total := word (r'.scan + r'.length) })
      else (.scan, r') := by
  unfold scanStep
  rw [hmachine]
  simp only [if_neg hscan, hget, hnext]

/-- The instructions at the label `scan` with a byte to scan. -/
lemma scanStep_slots (hcapacity : capacity < 2 ^ 31) {s : Scan} (hs : s.Ok capacity)
    {buffer : List UInt8} {scan total : Nat} (hbuffer : buffer.length < 2 ^ 31)
    (hscan : scan < buffer.length) :
    scanStep capacity (s.slots buffer buffer.length scan total) =
      match feed capacity s buffer[scan] with
      | none => (.failed, s.slots buffer buffer.length scan total)
      | some s' =>
          if s'.phase = .done then
            if capacity < scan + 1 + s'.length then
              (.failed, s'.slots buffer buffer.length (scan + 1) total)
            else (.checkBody, s'.slots buffer buffer.length (scan + 1) (scan + 1 + s'.length))
          else (.scan, s'.slots buffer buffer.length (scan + 1) total) := by
  have hget : (s.slots buffer buffer.length scan total).buffer[scan]? = some buffer[scan] :=
    List.getElem?_eq_getElem hscan
  have hnot : ¬ (s.slots buffer buffer.length scan total).received ≤
      (s.slots buffer buffer.length scan total).scan := Nat.not_le.mpr hscan
  have hbyte : scanByte capacity (s.slots buffer buffer.length scan total) buffer[scan] =
      (feed capacity s buffer[scan]).map (·.slots buffer buffer.length (scan + 1) total) :=
    scanByte_slots hcapacity hs (by omega) buffer[scan]
  cases hfeed : feed capacity s buffer[scan] with
  | none =>
      rw [hfeed] at hbyte
      exact scanStep_none rfl hnot hget hbyte
  | some s' =>
      have hlen := (hs.feed hfeed).length
      have hstate : (s'.slots buffer buffer.length (scan + 1) total).state = doneState ↔
          s'.phase = .done := encode_eq_done
      have hword : word (scan + 1 + s'.length) = scan + 1 + s'.length := word_of_lt (by omega)
      rw [hfeed] at hbyte
      rw [scanStep_some rfl hnot hget hbyte]
      simp only [hstate, imm_of_lt hcapacity,
        show (s'.slots buffer buffer.length (scan + 1) total).scan = scan + 1 from rfl,
        show (s'.slots buffer buffer.length (scan + 1) total).length = s'.length from rfl, hword]
      rfl

/-! ## The machine on a stream -/

/-- A request whose head the machine has read is what the reference decides on. -/
lemma reference_of_done (hcapacity : capacity < 2 ^ 64) {text rest : List UInt8} {s : Scan}
    (h : feedAll capacity {} text = some s) (hdone : s.phase = .done) :
    (∃ head : Head capacity, text = head.bytes ∧ s = head.scan .done) ∧
      reference (text ++ rest) capacity =
        if capacity < text.length + s.length then .invalid
        else if (text ++ rest).length < text.length + s.length then .more
        else .complete (text.length + s.length) := by
  obtain ⟨head, rfl, rfl⟩ := exists_head_of_feedAll hcapacity h hdone
  exact ⟨⟨head, rfl, rfl⟩, reference_bytes head rest⟩

/-- After a complete head every byte is rejected. -/
lemma feedAll_done {s s' : Scan} {text : List UInt8} (hdone : s.phase = .done)
    (h : feedAll capacity s text = some s') : text = [] := by
  cases text with
  | nil => rfl
  | cons b text =>
      rw [feedAll_cons, feed, hdone] at h
      exact absurd h (by simp [Phase.next])

/-- A stream on which the machine gets stuck before the end of a head is not accepted. -/
lemma reference_of_stuck (hcapacity : capacity < 2 ^ 64) {text rest : List UInt8} {s : Scan}
    (h : feedAll capacity {} text = some s) (hdone : s.phase ≠ .done)
    (hstuck : (∀ b ∈ rest.head?, feed capacity s b = none) ∨ capacity ≤ text.length) (n : Nat) :
    reference (text ++ rest) capacity ≠ .complete n := by
  intro hcomplete
  obtain ⟨head, rest', hdata, rfl⟩ := exists_head hcomplete
  have hhead := feedAll_bytes hcapacity head
  have hle : head.bytes.length ≤ capacity := by
    rw [hdata, reference_bytes] at hcomplete
    split at hcomplete
    case isTrue => exact absurd hcomplete (by simp)
    next hle => exact Nat.le_trans (Nat.le_add_right _ _) (Nat.le_of_not_lt hle)
  rcases List.append_eq_append_iff.mp hdata with ⟨w, hw, hrest⟩ | ⟨w, hw, -⟩
  · -- the machine has not read the whole head
    cases w with
    | nil =>
        rw [List.append_nil] at hw
        rw [hw, h] at hhead
        exact hdone (by rw [Option.some.inj hhead]; rfl)
    | cons b w =>
        rw [hw, feedAll_append, h, Option.bind_some, feedAll_cons] at hhead
        rcases hstuck with hstuck | hfull
        · rw [hstuck b (by rw [hrest]; rfl)] at hhead
          exact absurd hhead (by simp)
        · rw [hw, List.length_append, List.length_cons] at hle
          omega
  · -- the machine has read the head and more
    rw [hw, feedAll_append, hhead, Option.bind_some] at h
    obtain rfl := feedAll_done rfl h
    exact hdone (by rw [← Option.some.inj h]; rfl)

/-! ## One connection -/

/-- What is known at each place of the loop. -/
def Place (capacity : Nat) (stream buffer : List UInt8) (scan total : Nat) (s : Scan) : Pc → Prop
  | .scan => total = 0 ∧ s.phase ≠ .done
  | .read =>
      total = 0 ∧ s.phase ≠ .done ∧ scan = buffer.length ∨
        s.phase = .done ∧ total = scan + s.length ∧ total ≤ capacity ∧ buffer.length < total
  | .checkBody => s.phase = .done ∧ total = scan + s.length ∧ total ≤ capacity
  | .complete =>
      s.phase = .done ∧ total = scan + s.length ∧ total ≤ capacity ∧ total ≤ buffer.length
  | .failed => ∀ n, reference stream capacity ≠ .complete n
  | .fault => False

/-- The machine on the first bytes of a stream, some of which have been received. -/
structure Scanned (capacity : Nat) (stream rest : List UInt8) (s : Scan) (buffer : List UInt8)
    (scan : Nat) : Prop where
  split : stream = buffer ++ rest
  scanned : scan ≤ buffer.length
  machine : feedAll capacity {} (buffer.take scan) = some s

/-- The slots of a connection are those of the machine on the bytes scanned so far. -/
structure Tracks (capacity : Nat) (stream : List UInt8) (c : Connection) (s : Scan)
    (buffer : List UInt8) (scan total : Nat) : Prop
    extends Scanned capacity stream c.rest s buffer scan where
  slots : c.slots = s.slots buffer buffer.length scan total
  bounded : buffer.length ≤ capacity
  ok : s.Ok capacity
  place : Place capacity stream buffer scan total s c.pc

section Connection

variable {stream buffer rest : List UInt8} {c c' : Connection} {s : Scan} {scan total : Nat}

/-- The head that was scanned, once it is complete. -/
lemma Scanned.reference_of_done (h : Scanned capacity stream rest s buffer scan)
    (hcapacity : capacity < 2 ^ 31) (hdone : s.phase = .done) :
    (∃ head : Head capacity, buffer.take scan = head.bytes ∧ s = head.scan .done) ∧
      reference stream capacity =
        if capacity < scan + s.length then .invalid
        else if stream.length < scan + s.length then .more
        else .complete (scan + s.length) := by
  have hlen : (buffer.take scan).length = scan := List.length_take_of_le h.scanned
  have hstream : buffer.take scan ++ (buffer.drop scan ++ rest) = stream := by
    rw [← List.append_assoc, List.take_append_drop, h.split]
  have hcap : capacity < 2 ^ 64 := by omega
  have hreference := @Http.reference_of_done _ hcap _ (buffer.drop scan ++ rest) _ h.machine hdone
  rwa [hstream, hlen] at hreference

lemma Scanned.reference_of_stuck (h : Scanned capacity stream rest s buffer scan)
    (hcapacity : capacity < 2 ^ 31) (hdone : s.phase ≠ .done)
    (hstuck : (∀ b ∈ (buffer.drop scan ++ rest).head?, feed capacity s b = none) ∨
      capacity ≤ scan) (n : Nat) : reference stream capacity ≠ .complete n := by
  have hlen : (buffer.take scan).length = scan := List.length_take_of_le h.scanned
  have hstream : buffer.take scan ++ (buffer.drop scan ++ rest) = stream := by
    rw [← List.append_assoc, List.take_append_drop, h.split]
  rw [← hstream]
  exact Http.reference_of_stuck (by omega) h.machine hdone (by rwa [hlen]) n

/-- A read that cannot go on has no complete request. -/
lemma Tracks.reference_of_read (h : Tracks capacity stream c s buffer scan total)
    (hcapacity : capacity < 2 ^ 31) (hpc : c.pc = .read)
    (hend : c.rest = [] ∨ capacity ≤ buffer.length) (n : Nat) :
    reference stream capacity ≠ .complete n := by
  have hplace := h.place
  rw [hpc] at hplace
  rcases hplace with ⟨-, hdone, hscan⟩ | ⟨hdone, htotal, hle, hlt⟩
  · refine h.reference_of_stuck hcapacity hdone ?_ n
    rcases hend with hrest | hfull
    · exact .inl (by simp [hrest, hscan])
    · exact .inr (by omega)
  · rcases hend with hrest | hfull
    · have hstream : stream = buffer := by rw [h.split, hrest, List.append_nil]
      rw [(h.reference_of_done hcapacity hdone).2, if_neg (by omega), if_pos (by rw [hstream]; omega)]
      simp
    · omega

/-- A read that returns a part of the stream. -/
lemma Tracks.store (h : Tracks capacity stream c s buffer scan total) (hcapacity : capacity < 2 ^ 31)
    (hpc : c.pc = .read) {chunk : List UInt8} (hrest : c.rest = chunk ++ rest)
    (hroom : chunk.length ≤ room capacity c.slots) :
    Tracks capacity stream
      ⟨(store capacity c.slots chunk).1, (store capacity c.slots chunk).2, rest⟩ s
      (buffer ++ chunk) scan total := by
  have hbounded := h.bounded
  have hsize : buffer.length + chunk.length ≤ capacity := by
    rw [room, h.slots, imm_of_lt hcapacity] at hroom
    have : wordSub capacity buffer.length = capacity - buffer.length :=
      wordSub_of_le hbounded (by omega)
    rw [show (s.slots buffer buffer.length scan total).received = buffer.length from rfl, this]
      at hroom
    omega
  have hstore : Http.store capacity c.slots chunk =
      (if total ≠ 0 then .checkBody else .scan,
        s.slots (buffer ++ chunk) (buffer ++ chunk).length scan total) := by
    rw [h.slots, Http.store]
    simp only [Scan.slots, List.take_length, List.length_append]
    rw [if_neg (by omega), word_of_lt (by omega)]
    rfl
  rw [hstore]
  refine ⟨⟨?_, ?_, ?_⟩, rfl, ?_, h.ok, ?_⟩
  · rw [h.split, hrest, List.append_assoc]
  · exact h.scanned.trans (by simp)
  · rw [List.take_append_of_le_length h.scanned]
    exact h.machine
  · rwa [List.length_append]
  · have hplace := h.place
    rw [hpc] at hplace
    rcases hplace with ⟨htotal, hdone, -⟩ | ⟨hdone, htotal, hle, hlt⟩
    · simp [htotal, Place, hdone]
    · have hne : total ≠ 0 := by omega
      simp only [ne_eq, hne, not_false_eq_true, if_true, Place]
      exact ⟨hdone, htotal, hle⟩

/-- The next byte is scanned. -/
lemma Tracks.scanStep (h : Tracks capacity stream c s buffer scan total)
    (hcapacity : capacity < 2 ^ 31) (hpc : c.pc = .scan) :
    ∃ s' scan' total', Tracks capacity stream
      ⟨(scanStep capacity c.slots).1, (scanStep capacity c.slots).2, c.rest⟩ s' buffer scan' total' := by
  have hplace := h.place
  rw [hpc] at hplace
  obtain ⟨rfl, hdone⟩ := hplace
  have hbounded := h.bounded
  rw [h.slots]
  by_cases hall : buffer.length ≤ scan
  · -- everything has been scanned
    have hstep : Http.scanStep capacity (s.slots buffer buffer.length scan 0) =
        (.read, s.slots buffer buffer.length scan 0) := if_pos hall
    rw [hstep]
    refine ⟨s, scan, 0, h.toScanned, rfl, h.bounded, h.ok, .inl ⟨rfl, hdone, ?_⟩⟩
    exact Nat.le_antisymm h.scanned hall
  · have hlt : scan < buffer.length := by omega
    have hstep := @scanStep_slots _ hcapacity s h.ok buffer scan 0 (by omega) hlt
    cases hfeed : feed capacity s buffer[scan] with
    | none =>
        rw [hstep, hfeed]
        refine ⟨s, scan, 0, h.toScanned, rfl, h.bounded, h.ok, ?_⟩
        refine h.reference_of_stuck hcapacity hdone (.inl ?_)
        rw [List.drop_eq_getElem_cons hlt, List.cons_append, List.head?_cons]
        simpa using hfeed
    | some s' =>
        rw [hfeed] at hstep
        have hmachine : feedAll capacity {} (buffer.take (scan + 1)) = some s' := by
          rw [← List.take_append_getElem hlt, feedAll_append, h.machine, Option.bind_some,
            feedAll_cons, hfeed]
          rfl
        have hscanned : Scanned capacity stream c.rest s' buffer (scan + 1) :=
          ⟨h.split, hlt, hmachine⟩
        have hok := h.ok.feed hfeed
        by_cases hphase : s'.phase = .done
        · by_cases hle : capacity < scan + 1 + s'.length
          · simp only [hphase, if_true, hle] at hstep
            rw [hstep]
            refine ⟨s', scan + 1, 0, hscanned, rfl, h.bounded, hok, fun n => ?_⟩
            rw [(hscanned.reference_of_done hcapacity hphase).2, if_pos hle]
            simp
          · simp only [hphase, if_true, hle, if_false] at hstep
            rw [hstep]
            exact ⟨s', scan + 1, scan + 1 + s'.length, hscanned, rfl, h.bounded, hok, hphase, rfl,
              by omega⟩
        · simp only [hphase, if_false] at hstep
          rw [hstep]
          exact ⟨s', scan + 1, 0, hscanned, rfl, h.bounded, hok, rfl, hphase⟩

/-- The body is complete or not. -/
lemma Tracks.bodyStep (h : Tracks capacity stream c s buffer scan total)
    (hpc : c.pc = .checkBody) :
    Tracks capacity stream ⟨(bodyStep c.slots).1, (bodyStep c.slots).2, c.rest⟩ s buffer scan
      total := by
  have hplace := h.place
  rw [hpc] at hplace
  obtain ⟨hdone, htotal, hle⟩ := hplace
  rw [h.slots]
  by_cases hall : total ≤ buffer.length
  · have hstep : Http.bodyStep (s.slots buffer buffer.length scan total) =
        (.complete, s.slots buffer buffer.length scan total) := if_pos hall
    rw [hstep]
    exact ⟨h.toScanned, rfl, h.bounded, h.ok, hdone, htotal, hle, hall⟩
  · have hstep : Http.bodyStep (s.slots buffer buffer.length scan total) =
        (.read, s.slots buffer buffer.length scan total) := if_neg hall
    rw [hstep]
    exact ⟨h.toScanned, rfl, h.bounded, h.ok, .inr ⟨hdone, htotal, hle, by omega⟩⟩

lemma Tracks.room (h : Tracks capacity stream c s buffer scan total) (hcapacity : capacity < 2 ^ 31) :
    signed (room capacity c.slots) = capacity - buffer.length ∧
      Http.room capacity c.slots = capacity - buffer.length := by
  have hbounded := h.bounded
  have hroom : Http.room capacity c.slots = capacity - buffer.length := by
    rw [Http.room, h.slots, imm_of_lt hcapacity]
    exact wordSub_of_le hbounded (by omega)
  refine ⟨?_, hroom⟩
  rw [hroom, signed_of_lt (by omega)]
  omega

/-- A connection that is dropped by a read. -/
lemma Tracks.dropped (h : Tracks capacity stream c s buffer scan total) (hcapacity : capacity < 2 ^ 31)
    (hpc : c.pc = .read) (hend : c.rest = [] ∨ capacity ≤ buffer.length) :
    Tracks capacity stream ⟨.failed, c.slots, c.rest⟩ s buffer scan total :=
  ⟨h.toScanned, h.slots, h.bounded, h.ok, h.reference_of_read hcapacity hpc hend⟩

/-- **Every step keeps track.** -/
lemma Tracks.step (h : Tracks capacity stream c s buffer scan total) (hcapacity : capacity < 2 ^ 31)
    (hstep : Step capacity c c') :
    ∃ s' buffer' scan' total', Tracks capacity stream c' s' buffer' scan' total' := by
  cases hstep with
  | full hroom =>
      refine ⟨s, buffer, scan, total, h.dropped hcapacity rfl (.inr ?_)⟩
      have := (h.room hcapacity).1
      simp only at this
      omega
  | again => exact ⟨s, buffer, scan, total, h⟩
  | closed => exact ⟨s, buffer, scan, total, h.dropped hcapacity rfl (.inl rfl)⟩
  | read hpos hne hroom => exact ⟨_, _, _, _, h.store hcapacity rfl rfl hroom⟩
  | scan =>
      obtain ⟨s', scan', total', h'⟩ := h.scanStep hcapacity rfl
      exact ⟨s', buffer, scan', total', h'⟩
  | body => exact ⟨s, buffer, scan, total, h.bodyStep rfl⟩

/-- A connection starts with nothing scanned. -/
lemma tracks_start (stream : List UInt8) :
    Tracks capacity stream ⟨.read, {}, stream⟩ {} [] 0 0 :=
  ⟨⟨rfl, Nat.le_refl _, rfl⟩, rfl, Nat.zero_le _, ⟨Nat.zero_le _, Nat.zero_le _, Nat.zero_le _⟩,
    .inl ⟨rfl, by simp, rfl⟩⟩

lemma exists_tracks (hcapacity : capacity < 2 ^ 31) (hc : (receive capacity stream).Reachable c) :
    ∃ s buffer scan total, Tracks capacity stream c s buffer scan total := by
  refine hc.invariant (I := fun c => ∃ s buffer scan total,
    Tracks capacity stream c s buffer scan total) ?_ ?_
  · rintro c rfl
    exact ⟨_, _, _, _, tracks_start stream⟩
  · rintro c c' _ ⟨s, buffer, scan, total, h⟩ hstep
    exact h.step hcapacity hstep

/-! ## The end of a run -/

/-- Has the loop ended? -/
def Connection.Ended (c : Connection) : Prop := c.pc = .complete ∨ c.pc = .failed

/-- A bound on the steps to the end, repeated reads apart. -/
def Connection.remaining (c : Connection) : Nat :=
  3 * c.rest.length + (c.slots.received - c.slots.scan) +
    match c.pc with
    | .scan | .checkBody => 2
    | .read => 1
    | _ => 0

/-- Every step but a repeated read comes closer to the end. -/
lemma Tracks.remaining_lt (h : Tracks capacity stream c s buffer scan total)
    (hcapacity : capacity < 2 ^ 31) (hstep : Step capacity c c') :
    c'.remaining < c.remaining ∨ c.pc = .read ∧ c' = c := by
  have hbounded := h.bounded
  have hscanned := h.scanned
  cases hstep with
  | full | closed => exact .inl (by simp [Connection.remaining])
  | again => exact .inr ⟨rfl, rfl⟩
  | @read r chunk rest hpos hne hroom =>
      obtain rfl : r = _ := h.slots
      have htracks := (h.store hcapacity rfl rfl hroom).slots
      have hchunk : 0 < chunk.length := List.length_pos_iff.mpr hne
      left
      generalize Http.store capacity (s.slots buffer buffer.length scan total) chunk = t at htracks ⊢
      obtain ⟨pc, r⟩ := t
      obtain rfl : r = _ := htracks
      simp only [Connection.remaining, Scan.slots, List.length_append]
      cases pc <;> simp only <;> omega
  | @scan r rest =>
      obtain rfl : r = _ := h.slots
      left
      by_cases hall : buffer.length ≤ scan
      · have hstep : Http.scanStep capacity (s.slots buffer buffer.length scan total) =
            (.read, s.slots buffer buffer.length scan total) := if_pos hall
        rw [hstep]
        simp [Connection.remaining]
      · rw [scanStep_slots hcapacity h.ok (by omega) (by omega)]
        cases feed capacity s buffer[scan] with
        | none => simp [Connection.remaining]
        | some s' =>
            simp only
            split
            · split <;> simp only [Connection.remaining, Scan.slots] <;> omega
            · simp only [Connection.remaining, Scan.slots]
              omega
  | body =>
      left
      simp only [Http.bodyStep]
      split <;> simp [Connection.remaining]

/-- A loop that has not ended can go on. -/
lemma Tracks.progress (h : Tracks capacity stream c s buffer scan total)
    (hcapacity : capacity < 2 ^ 31) (hend : ¬ c.Ended) :
    ∃ c', Step capacity c c' ∧ c'.remaining < c.remaining := by
  obtain ⟨pc, r, rest⟩ := c
  cases pc with
  | complete => exact absurd (.inl rfl) hend
  | failed => exact absurd (.inr rfl) hend
  | fault => exact absurd h.place id
  | scan =>
      exact ⟨_, .scan, (h.remaining_lt hcapacity .scan).resolve_right (by simp)⟩
  | checkBody =>
      exact ⟨_, .body, (h.remaining_lt hcapacity .body).resolve_right (by simp)⟩
  | read =>
      obtain ⟨hsigned, hroom⟩ := h.room hcapacity
      by_cases hpos : 0 < signed (Http.room capacity r)
      · cases rest with
        | nil =>
            exact ⟨_, .closed hpos, (h.remaining_lt hcapacity (.closed hpos)).resolve_right (by simp)⟩
        | cons b rest =>
            have hone : [b].length ≤ Http.room capacity r := by
              rw [hsigned] at hpos
              rw [hroom, List.length_singleton]
              omega
            have hstep : Step capacity ⟨.read, r, [b] ++ rest⟩
                ⟨(Http.store capacity r [b]).1, (Http.store capacity r [b]).2, rest⟩ :=
              .read hpos (by simp) hone
            refine ⟨_, hstep, (h.remaining_lt hcapacity hstep).resolve_right ?_⟩
            simp
      · exact ⟨_, .full (by omega),
          (h.remaining_lt hcapacity (.full (by omega))).resolve_right (by simp)⟩

/-- **The receive loop agrees with the reference** on every stream, for every capacity that is a
32-bit immediate, and however the stream is cut into reads. In every state that a run reaches: no
access is outside the buffer, and no more than the capacity is received; at the end, the request is
complete with a length exactly if the reference says so; a complete request has a target of at most
256 bytes, at most one header that declares a body length, and a length that is the sum of its head
and body; and a loop that has not ended can go on, each step but a repeated read bringing it closer
to the end. -/
theorem receive_sound (hcapacity : capacity < 2 ^ 31)
    (hc : (receive capacity stream).Reachable c) :
    (c.pc ≠ .fault ∧ c.slots.received ≤ capacity ∧ c.slots.buffer.length = c.slots.received) ∧
      (c.Ended → ∀ n, (c.pc = .complete ∧ c.slots.total = n ↔
        reference stream capacity = .complete n)) ∧
      (c.pc = .complete → c.slots.path ≤ 256 ∧
        c.slots.total = c.slots.scan + c.slots.length ∧ c.slots.total ≤ capacity ∧
        ∃ head : Head capacity, stream.take c.slots.scan = head.bytes ∧
          head.lines.countP declaresLength ≤ 1) ∧
      (¬ c.Ended → ∃ c', Step capacity c c' ∧ c'.remaining < c.remaining) ∧
      ∀ c', Step capacity c c' → c'.remaining < c.remaining ∨ c.pc = .read ∧ c' = c := by
  obtain ⟨s, buffer, scan, total, h⟩ := exists_tracks hcapacity hc
  have hslots := h.slots
  have hstream : stream.take scan = buffer.take scan := by
    rw [h.split, List.take_append_of_le_length h.scanned]
  refine ⟨⟨fun hpc => ?_, ?_, ?_⟩, fun hend n => ?_, fun hpc => ?_, h.progress hcapacity,
    fun c' => h.remaining_lt hcapacity⟩
  · have hplace := h.place
    rw [hpc] at hplace
    exact hplace
  · rw [hslots]
    exact h.bounded
  · rw [hslots]
    rfl
  · have hplace := h.place
    rcases hend with hpc | hpc
    · rw [hpc] at hplace
      obtain ⟨hdone, htotal, hle, hreceived⟩ := hplace
      have hlen : buffer.length ≤ stream.length := by rw [h.split]; simp
      rw [(h.reference_of_done hcapacity hdone).2, if_neg (by omega), if_neg (by omega), hslots,
        ← htotal]
      simp [hpc, Scan.slots]
    · rw [hpc] at hplace ⊢
      simp [hplace n]
  · have hplace := h.place
    rw [hpc] at hplace
    obtain ⟨hdone, htotal, hle, -⟩ := hplace
    obtain ⟨head, hbytes, -⟩ := (h.reference_of_done hcapacity hdone).1
    rw [hslots]
    exact ⟨h.ok.path, htotal, hle, head, hstream.trans hbytes, head.count_le_one⟩

/-- The first read of a request: the loop can go on from its start. -/
theorem receive_sound_start :
    (Pc.read ≠ .fault ∧ 0 ≤ 64 ∧ ([] : List UInt8).length = 0) ∧
      ∃ c', Step 64 ⟨.read, {}, [71, 69, 84]⟩ c' ∧
        c'.remaining < (⟨.read, {}, [71, 69, 84]⟩ : Connection).remaining := by
  have h := receive_sound (by decide)
    (.init rfl : (receive 64 [71, 69, 84]).Reachable ⟨.read, {}, [71, 69, 84]⟩)
  exact ⟨h.1, h.2.2.2.1 (by simp [Connection.Ended])⟩

end Connection

end Verbosec.Http
