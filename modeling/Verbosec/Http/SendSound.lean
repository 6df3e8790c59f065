import Mathlib.Data.List.Infix
import Verbosec.Http.Send
import Verbosec.Wasm.Itoa

/-!
# Responses are framed

* `itoa_eq` - the digits are the decimal ones.
* `response` - a status line, the length of the body, and the body.
* `Sender.Sound` - what is sent and what is left are the response; `Step.sound` keeps it.
* `framed_iff` - when every run of a response is framed.
-/

namespace Verbosec.Http.Send

open Verbosec.Lib Verbosec.Lib.Bytes Sender

/-! ## Digits -/

lemma itoaLoop_eq (n : Nat) (tail : List UInt8) : itoaLoop n tail = Wasm.digitBytes n ++ tail := by
  induction n using Nat.strongRecOn generalizing tail with
  | ind n ih =>
      rw [itoaLoop]
      by_cases h : n / 10 = 0
      · have hlt : n < 10 := by omega
        rw [dif_pos h, Wasm.digitBytes_of_lt hlt, Nat.mod_eq_of_lt hlt, List.singleton_append]
      · have hge : 10 ≤ n := by omega
        rw [dif_neg h, ih _ (by omega), Wasm.digitBytes_of_ge hge, List.append_assoc,
          List.singleton_append]

/-- The digits of a number are its decimal ones. -/
lemma itoa_eq (n : Nat) : itoa n = Wasm.digitBytes n := by
  rw [itoa]
  split
  · rename_i h
    subst h
    rfl
  · rw [itoaLoop_eq, List.append_nil]

lemma digitBytes_length_le {n k : Nat} (hk : 0 < k) (h : n < 10 ^ k) :
    (Wasm.digitBytes n).length ≤ k := by
  induction k generalizing n with
  | zero => cases hk
  | succ k ih =>
      rcases Nat.lt_or_ge n 10 with hlt | hge
      · rw [Wasm.digitBytes_of_lt hlt]
        exact hk
      · rw [Wasm.digitBytes_of_ge hge, List.length_append]
        have hpos : 0 < k := by
          rcases Nat.eq_zero_or_pos k with rfl | hpos
          · omega
          · exact hpos
        have hdiv : n / 10 < 10 ^ k := by
          rw [Nat.pow_succ] at h
          omega
        exact Nat.succ_le_succ (ih hpos hdiv)

/-- A digit is no space. -/
lemma not_mem_digitBytes (n : Nat) : (0x20 : UInt8) ∉ Wasm.digitBytes n := by
  induction n using Nat.strongRecOn with
  | ind n ih =>
      have hdigit : ∀ d < 10, (0x20 : UInt8) ≠ UInt8.ofNat (d + 48) := by decide
      rcases Nat.lt_or_ge n 10 with hlt | hge
      · rw [Wasm.digitBytes_of_lt hlt]
        exact fun h => hdigit n hlt (List.mem_singleton.mp h)
      · rw [Wasm.digitBytes_of_ge hge]
        intro h
        rcases List.mem_append.mp h with h | h
        · exact ih _ (by omega) h
        · exact hdigit _ (Nat.mod_lt _ (by decide)) (List.mem_singleton.mp h)

/-- A number is read back from its digits. -/
lemma foldl_digitBytes (n : Nat) :
    (Wasm.digitBytes n).foldl (fun v b => 10 * v + (b.toNat - 48)) 0 = n := by
  induction n using Nat.strongRecOn with
  | ind n ih =>
      have hdigit : ∀ d < 10, (UInt8.ofNat (d + 48)).toNat - 48 = d := by decide
      rcases Nat.lt_or_ge n 10 with hlt | hge
      · rw [Wasm.digitBytes_of_lt hlt, List.foldl_cons, List.foldl_nil, hdigit n hlt]
        omega
      · rw [Wasm.digitBytes_of_ge hge, List.foldl_append, ih _ (by omega), List.foldl_cons,
          List.foldl_nil, hdigit _ (Nat.mod_lt _ (by decide))]
        omega

/-- A status in its range has three digits. -/
lemma digitBytes_three {n : Nat} (h : 100 ≤ n) (h' : n ≤ 599) : (Wasm.digitBytes n).length = 3 := by
  rw [Wasm.digitBytes_of_ge (by omega), Wasm.digitBytes_of_ge (by omega),
    Wasm.digitBytes_of_lt (by omega)]
  rfl

/-! ## Responses -/

/-- A status line, the length of the body, and the body. -/
def response (status : Nat) (body : List UInt8) : List UInt8 :=
  ascii "HTTP/1.0 " ++ (Wasm.digitBytes status ++ (ascii " OK\r\nContent-Length: " ++
    (Wasm.digitBytes body.length ++ (ascii "\r\n\r\n" ++ body))))

/-- A response shows its status. -/
lemma status_of_prefix {status status' : Nat} {body body' : List UInt8}
    (h : response status body <+: response status' body') : status = status' := by
  obtain ⟨rest, h⟩ := h
  rw [response, response, List.append_assoc] at h
  have htail := List.append_cancel_left h
  have hspace : ascii " OK\r\nContent-Length: " = 0x20 :: ascii "OK\r\nContent-Length: " := rfl
  rw [hspace] at htail
  simp only [List.append_assoc, List.cons_append] at htail
  have htake : ∀ (n : Nat) (more : List UInt8),
      (Wasm.digitBytes n ++ 0x20 :: more).takeWhile (· ≠ 0x20) = Wasm.digitBytes n := by
    intro n more
    have hdigits : ∀ b ∈ Wasm.digitBytes n, decide (b ≠ 0x20) = true := fun b hb =>
      decide_eq_true fun heq => not_mem_digitBytes n (heq ▸ hb)
    rw [List.takeWhile_append_of_pos hdigits]
    simp
  have hdigits := congrArg (List.takeWhile (· ≠ 0x20)) htail
  rw [htake, htake] at hdigits
  rw [← foldl_digitBytes status, hdigits, foldl_digitBytes]

/-! ## Memory -/

section memory

variable {m m' : Nat → UInt8} {a : Nat} {bytes : List UInt8}

lemma readBytes_append (m : Nat → UInt8) (a n k : Nat) :
    readBytes m a (n + k) = readBytes m a n ++ readBytes m (a + n) k := by
  rw [readBytes, List.range_add, List.map_append, List.map_map]
  simp only [readBytes, Function.comp_def, Nat.add_assoc]

lemma readBytes_of_holds (h : Holds m a bytes) : readBytes m a bytes.length = bytes := by
  refine List.ext_getElem (by simp [readBytes]) fun i hi hi' => ?_
  simpa [readBytes] using h i hi'

/-- The bytes of a region that was not written. -/
lemma readBytes_same {b c k : Nat} (h : SameOutside b c m m') (hsep : a + k ≤ b ∨ c ≤ a) :
    readBytes m' a k = readBytes m a k := by
  refine List.map_congr_left fun i hi => h _ ?_
  have := List.mem_range.mp hi
  omega

lemma strlen_eq {k : Nat} (h : Holds m a (bytes ++ [0])) (hplain : 0 ∉ bytes)
    (hk : bytes.length < k) : strlen m a k = bytes.length := by
  induction bytes generalizing a k with
  | nil =>
      obtain ⟨k, rfl⟩ := Nat.exists_eq_succ_of_ne_zero (Nat.ne_of_gt hk)
      rw [strlen, if_pos (holds_cons.mp h).1]
      rfl
  | cons b bs ih =>
      obtain ⟨k, rfl⟩ := Nat.exists_eq_succ_of_ne_zero (Nat.ne_of_gt (Nat.zero_lt_of_lt hk))
      obtain ⟨hb, hbs⟩ := holds_cons.mp h
      have hne : ¬ m a = 0 := fun hzero => hplain (hb ▸ hzero ▸ List.mem_cons_self)
      rw [strlen, if_neg hne,
        ih hbs (fun hmem => hplain (List.mem_cons_of_mem _ hmem)) (Nat.lt_of_succ_lt_succ hk)]
      rfl

end memory

/-! ## Segments -/

/-- The bytes of a segment. -/
def segmentBytes (m : Nat → UInt8) : Segment → List UInt8
  | .literal bytes => bytes
  | .number value => itoa value
  | .span start length => readBytes m start length

/-- The bytes of segments. -/
def bytesOf (m : Nat → UInt8) (segments : List Segment) : List UInt8 :=
  segments.flatMap (segmentBytes m)

/-- The memory behind a handler: literals and the body lie outside of the digit buffer. -/
structure Placed (t : Transport) (d : Slots) (m : Nat → UInt8) (rsp : Nat) : Prop where
  room : 24 ≤ rsp
  literals : ∀ bytes, .literal bytes ∈ serialize d →
    Holds m (t.lit bytes) bytes ∧ Separate (t.lit bytes) bytes.length (rsp - 24) 24
  body : Separate d.bodyPtr d.bodyLen (rsp - 24) 24
  words : d.status < 2 ^ 64 ∧ d.bodyLen < 2 ^ 64

/-- The stack pointer within a segment. -/
def segmentRsp (rsp : Nat) : Segment → Nat
  | .number _ => rsp - 24
  | _ => rsp

section segments

variable {t : Transport} {d : Slots} {m : Nat → UInt8} {rsp : Nat} {x : Sender} {segment : Segment}

lemma segment_number {value : Nat} (h : .number value ∈ serialize d) :
    value = d.status ∨ value = d.bodyLen := by
  simpa [serialize] using h

lemma segment_span {ptr len : Nat} (h : .span ptr len ∈ serialize d) :
    ptr = d.bodyPtr ∧ len = d.bodyLen := by
  simpa [serialize] using h

/-- The digits of a word fit into their buffer. -/
lemma itoa_length_le {n : Nat} (h : n < 2 ^ 64) : (itoa n).length ≤ 24 := by
  rw [itoa_eq]
  have := digitBytes_length_le (k := 20) (n := n) (by decide) (by omega)
  omega

/-- What is to be sent of a segment when it is opened. -/
structure Opened (m : Nat → UInt8) (rsp : Nat) (x y : Sender) (segment : Segment) : Prop where
  memory : SameOutside (rsp - 24) rsp m y.memory
  bytes : readBytes y.memory y.ptr y.left = segmentBytes m segment
  rsp : y.rsp = segmentRsp rsp segment
  rest : y.rest = x.rest
  sent : y.sent = x.sent
  failed : y.failed = x.failed
  started : y.started = x.started
  deadline : y.deadline = x.deadline

lemma opened (h : Placed t d m rsp) (hmem : segment ∈ serialize d) (hrsp : x.rsp = rsp)
    (hsame : SameOutside (rsp - 24) rsp m x.memory) :
    Opened m rsp x (x.openSegment t segment) segment := by
  have hroom := h.room
  cases segment with
  | literal bytes =>
      obtain ⟨hholds, hsep⟩ := h.literals bytes hmem
      have hsep' : t.lit bytes + bytes.length ≤ rsp - 24 ∨ rsp ≤ t.lit bytes := by
        rw [Separate] at hsep
        omega
      refine ⟨hsame, ?_, hrsp, rfl, rfl, rfl, rfl, rfl⟩
      exact (readBytes_same hsame hsep').trans (readBytes_of_holds hholds)
  | number value =>
      have hlength : (itoa value).length ≤ 24 := by
        rcases segment_number hmem with rfl | rfl
        · exact itoa_length_le h.words.1
        · exact itoa_length_le h.words.2
      refine ⟨fun a ha => ?_, readBytes_of_holds (holds_writeAll _ _ _), ?_, rfl, rfl, rfl, rfl, rfl⟩
      · rw [← hsame a ha]
        exact sameOutside_writeAll _ _ _ a (by rw [hrsp]; omega)
      · change x.rsp - 24 = rsp - 24
        rw [hrsp]
  | span ptr len =>
      obtain ⟨rfl, rfl⟩ := segment_span hmem
      have hsep : d.bodyPtr + d.bodyLen ≤ rsp - 24 ∨ rsp ≤ d.bodyPtr := by
        have := h.body
        rw [Separate] at this
        omega
      exact ⟨hsame, readBytes_same hsame hsep, hrsp, rfl, rfl, rfl, rfl, rfl⟩

end segments

/-! ## Runs -/

namespace Sender

variable (t : Transport) (d : Slots) (m : Nat → UInt8) (rsp : Nat) (x : Sender)

/-- Between two segments: what is sent and what is left are the response. -/
structure Between (rest : List Segment) : Prop where
  failed : x.failed = false
  rsp : x.rsp = rsp
  bytes : x.sent ++ bytesOf m rest = bytesOf m (serialize d)

/-- Within a segment. -/
structure Within (pending : List UInt8) : Prop where
  failed : x.failed = false
  rest : ∃ segment rest, x.rest = segment :: rest ∧ x.rsp = segmentRsp rsp segment ∧
    x.sent ++ (pending ++ bytesOf m rest) = bytesOf m (serialize d)

/-- The one deadline of the response. -/
def Timed : Prop := ∀ seconds, t.seconds = some seconds → x.deadline = x.started + seconds * 1000

/-- Everything is sent, if the connection has not failed. -/
def Settled : Prop := x.failed = false → x.sent = bytesOf m (serialize d)

/-- What holds at a place. -/
def At : Prop :=
  match x.pc with
  | .startResponse => x.Between d m rsp x.rest
  | .segment => x.Between d m rsp x.rest ∧ x.Timed t
  | .retry | .blocked | .poll | .write =>
    x.Within d m rsp (readBytes x.memory x.ptr x.left) ∧ x.Timed t
  | .send =>
    x.Within d m rsp (readBytes x.memory x.ptr x.left) ∧ x.Timed t ∧ x.now < x.deadline
  | .segmentDone => x.Within d m rsp [] ∧ x.Timed t
  | .close => x.Settled d m
  | .reset => x.Settled d m ∧ x.closed = true
  | .ended => x.Settled d m ∧ x.closed = true ∧ (t.forked = false → x.rsp = t.top)

/-- What holds of a response on its way. -/
structure Sound : Prop where
  place : x.At t d m rsp
  memory : SameOutside (rsp - 24) rsp m x.memory
  segments : x.rest <:+ serialize d
  sent : x.sent <+: bytesOf m (serialize d)

end Sender

section runs

variable {t : Transport} {d : Slots} {m : Nat → UInt8} {rsp : Nat} {x y : Sender}

/-- A failure leaves what was sent. -/
lemma Sender.Sound.fail (h : x.Sound t d m rsp) : x.fail.Sound t d m rsp where
  place := fun hfailed => by cases hfailed
  memory := h.memory
  segments := h.segments
  sent := h.sent

/-- A segment is opened. -/
lemma Sender.Sound.open (h : x.Sound t d m rsp) (hplaced : Placed t d m rsp) {segment : Segment}
    {rest : List Segment} (hpc : x.pc = .segment) (hrest : x.rest = segment :: rest) {pc : Pc}
    (hnext : pc = .retry ∨ pc = .write) :
    Sender.Sound t d m rsp { x.openSegment t segment with pc := pc } := by
  have hplace := h.place
  rw [At, hpc] at hplace
  obtain ⟨⟨hfailed, hrsp, hbytes⟩, htimed⟩ := hplace
  have hmem : segment ∈ serialize d := h.segments.subset (hrest ▸ List.mem_cons_self)
  have hopened := opened hplaced hmem hrsp h.memory
  have hwithin : Within d m rsp { x.openSegment t segment with pc := pc }
      (readBytes (x.openSegment t segment).memory (x.openSegment t segment).ptr
        (x.openSegment t segment).left) := by
    refine ⟨hopened.failed.trans hfailed, segment, rest, hopened.rest.trans hrest, hopened.rsp, ?_⟩
    change (x.openSegment t segment).sent ++ _ = _
    rw [hopened.bytes, hopened.sent, ← hbytes, hrest]
    rfl
  have htimed' : Timed t { x.openSegment t segment with pc := pc } := by
    intro seconds ht
    change (x.openSegment t segment).deadline = (x.openSegment t segment).started + _
    rw [hopened.deadline, hopened.started]
    exact htimed seconds ht
  refine ⟨?_, hopened.memory, ?_, ?_⟩
  · rcases hnext with rfl | rfl <;> exact ⟨hwithin, htimed'⟩
  · change (x.openSegment t segment).rest <:+ _
    rw [hopened.rest]
    exact h.segments
  · change (x.openSegment t segment).sent <+: _
    rw [hopened.sent]
    exact h.sent

/-- The kernel takes bytes of the segment. -/
lemma Sender.Within.send (h : x.Within d m rsp (readBytes x.memory x.ptr x.left)) {n : Nat}
    (hn : n ≤ x.left) : Within d m rsp
      { x with
        pc := .retry, sent := x.sent ++ readBytes x.memory x.ptr n, ptr := x.ptr + n,
        left := x.left - n }
      (readBytes x.memory (x.ptr + n) (x.left - n)) := by
  obtain ⟨hfailed, segment, rest, hrest, hrsp, hbytes⟩ := h
  refine ⟨hfailed, segment, rest, hrest, hrsp, ?_⟩
  have hsplit := readBytes_append x.memory x.ptr n (x.left - n)
  rw [Nat.add_sub_cancel' hn] at hsplit
  rw [← hbytes, hsplit]
  simp only [List.append_assoc]

/-- Bytes of the segment are a part of the response. -/
lemma Sender.Within.begins {pending more : List UInt8} (h : x.Within d m rsp (pending ++ more)) :
    x.sent ++ pending <+: bytesOf m (serialize d) := by
  obtain ⟨-, segment, rest, -, -, hbytes⟩ := h
  refine ⟨more ++ bytesOf m rest, ?_⟩
  rw [← hbytes]
  simp only [List.append_assoc]

/-- What one step keeps. -/
lemma Step.sound (hplaced : Placed t d m rsp) (h : x.Sound t d m rsp) (hstep : Step t x y) :
    y.Sound t d m rsp := by
  have hplace := h.place
  rw [At] at hplace
  cases hstep with
  | startResponse hpc ht now =>
      rw [hpc] at hplace
      refine ⟨⟨⟨hplace.failed, hplace.rsp, hplace.bytes⟩, fun seconds hseconds => ?_⟩, h.memory,
        h.segments, h.sent⟩
      cases hseconds.symm.trans ht
      rfl
  | clockFails hpc => exact h.fail
  | bounded hpc hrest ht => exact h.open hplaced hpc hrest (.inl rfl)
  | legacy hpc hrest ht => exact h.open hplaced hpc hrest (.inr rfl)
  | complete hpc hrest =>
      rw [hpc] at hplace
      refine ⟨fun _ => ?_, h.memory, h.segments, h.sent⟩
      have hbytes := hplace.1.bytes
      rw [hrest] at hbytes
      exact (List.append_nil _).symm.trans hbytes
  | late hpc now hlate => exact ⟨fun hfailed => (by cases hfailed), h.memory, h.segments, h.sent⟩
  | allSent hpc now hlate hleft =>
      rw [hpc] at hplace
      obtain ⟨⟨hfailed, hwithin⟩, htimed⟩ := hplace
      rw [hleft] at hwithin
      exact ⟨⟨⟨hfailed, hwithin⟩, htimed⟩, h.memory, h.segments, h.sent⟩
  | ready hpc now hlate hleft =>
      rw [hpc] at hplace
      obtain ⟨⟨hfailed, hwithin⟩, htimed⟩ := hplace
      exact ⟨⟨⟨hfailed, hwithin⟩, htimed, Int.lt_of_sub_pos hlate⟩, h.memory, h.segments, h.sent⟩
  | sendInterrupted hpc =>
      rw [hpc] at hplace
      obtain ⟨⟨hfailed, hwithin⟩, htimed, -⟩ := hplace
      exact ⟨⟨⟨hfailed, hwithin⟩, htimed⟩, h.memory, h.segments, h.sent⟩
  | sendBlocked hpc =>
      rw [hpc] at hplace
      obtain ⟨⟨hfailed, hwithin⟩, htimed, -⟩ := hplace
      exact ⟨⟨⟨hfailed, hwithin⟩, htimed⟩, h.memory, h.segments, h.sent⟩
  | sendFails hpc => exact h.fail
  | send hpc n hpos hn =>
      rw [hpc] at hplace
      obtain ⟨hwithin, htimed, -⟩ := hplace
      refine ⟨⟨hwithin.send hn, htimed⟩, h.memory, h.segments, ?_⟩
      have hsplit := readBytes_append x.memory x.ptr n (x.left - n)
      rw [Nat.add_sub_cancel' hn] at hsplit
      exact (hsplit ▸ hwithin).begins
  | wait hpc now hlate =>
      rw [hpc] at hplace
      obtain ⟨⟨hfailed, hwithin⟩, htimed⟩ := hplace
      exact ⟨⟨⟨hfailed, hwithin⟩, htimed⟩, h.memory, h.segments, h.sent⟩
  | polled hpc =>
      rw [hpc] at hplace
      obtain ⟨⟨hfailed, hwithin⟩, htimed⟩ := hplace
      exact ⟨⟨⟨hfailed, hwithin⟩, htimed⟩, h.memory, h.segments, h.sent⟩
  | pollFails hpc => exact h.fail
  | write hpc =>
      rw [hpc] at hplace
      obtain ⟨hwithin, htimed⟩ := hplace
      refine ⟨⟨⟨hwithin.failed, ?_⟩, htimed⟩, h.memory, h.segments, ?_⟩
      · obtain ⟨-, segment, rest, hrest, hrsp, hbytes⟩ := hwithin
        exact ⟨segment, rest, hrest, hrsp, by rw [← hbytes, List.append_assoc]; rfl⟩
      · have hwhole : x.Within d m rsp (readBytes x.memory x.ptr x.left ++ []) := by
          rw [List.append_nil]
          exact hwithin
        exact hwhole.begins
  | @segmentDone segment rest hpc hrest =>
      rw [hpc] at hplace
      obtain ⟨⟨hfailed, segment', rest', hrest', hrsp, hbytes⟩, htimed⟩ := hplace
      cases hrest.symm.trans hrest'
      have hroom := hplaced.room
      have hnext : rest <:+ serialize d := (List.suffix_cons segment rest).trans (hrest ▸ h.segments)
      cases segment with
      | literal bytes => exact ⟨⟨⟨hfailed, hrsp, hbytes⟩, htimed⟩, h.memory, hnext, h.sent⟩
      | span start length => exact ⟨⟨⟨hfailed, hrsp, hbytes⟩, htimed⟩, h.memory, hnext, h.sent⟩
      | number value =>
          refine ⟨⟨⟨hfailed, ?_, hbytes⟩, htimed⟩, h.memory, hnext, h.sent⟩
          change x.rsp + 24 = rsp
          rw [hrsp]
          exact Nat.sub_add_cancel hroom
  | close hpc =>
      rw [hpc] at hplace
      exact ⟨⟨hplace, rfl⟩, h.memory, h.segments, h.sent⟩
  | reset hpc ht =>
      rw [hpc] at hplace
      exact ⟨⟨hplace.1, hplace.2, fun _ => rfl⟩, h.memory, h.segments, h.sent⟩
  | exit hpc ht =>
      rw [hpc] at hplace
      refine ⟨⟨hplace.1, hplace.2, fun hforked => ?_⟩, h.memory, h.segments, h.sent⟩
      cases hforked.symm.trans ht

/-- What holds in every run. -/
lemma reachable_sound (hplaced : Placed t d m rsp) (h : (sender t d m rsp).Reachable x) :
    x.Sound t d m rsp := by
  refine h.invariant (I := Sender.Sound t d m rsp) (fun x hx => ?_) fun _ _ _ hsound hstep =>
    Step.sound hplaced hsound hstep
  cases hx
  refine ⟨?_, SameOutside.refl _ _ _, List.suffix_rfl, List.nil_prefix⟩
  rw [At, start]
  cases ht : t.seconds with
  | none => exact ⟨⟨rfl, rfl, rfl⟩, fun seconds hseconds => by cases ht.symm.trans hseconds⟩
  | some seconds => exact ⟨rfl, rfl, rfl⟩

end runs

/-! ## Whole responses -/

section complete

variable {t : Transport} {d : Slots} {m : Nat → UInt8} {rsp : Nat} {x : Sender}

lemma openSegment_rest (segment : Segment) : (x.openSegment t segment).rest = x.rest := by
  cases segment <;> rfl

lemma openSegment_deadline (segment : Segment) :
    (x.openSegment t segment).deadline = x.deadline := by
  cases segment <;> rfl

lemma closeSegment_deadline (segment : Segment) : (x.closeSegment segment).deadline = x.deadline := by
  cases segment <;> rfl

/-- Where the kernel takes everything in time, a segment is sent. -/
lemma retry_run (hpc : x.pc = .retry) (hdeadline : 0 < x.deadline) :
    ∃ y, Relation.ReflTransGen (Step t) x y ∧ y.pc = .segmentDone ∧ y.rest = x.rest ∧
      y.deadline = x.deadline := by
  have htime : 0 < x.deadline - 0 := by omega
  by_cases hleft : x.left = 0
  · exact ⟨_, .single (.allSent hpc 0 htime hleft), rfl, rfl, rfl⟩
  · have hready := Step.ready (t := t) hpc 0 htime hleft
    have hsend := Step.send (t := t) (x := { x with pc := .send, now := 0 }) rfl x.left
      (Nat.pos_of_ne_zero hleft) (Nat.le_refl _)
    have hsent := Step.allSent (t := t) (x := { x with
      pc := .retry, now := 0, sent := x.sent ++ readBytes x.memory x.ptr x.left,
      ptr := x.ptr + x.left, left := x.left - x.left }) rfl 0 htime (Nat.sub_self _)
    exact ⟨_, ((Relation.ReflTransGen.single hready).tail hsend).tail hsent, rfl, rfl, rfl⟩

/-- A segment is sent, and the next one comes. -/
lemma segment_run {segment : Segment} {rest : List Segment} (hpc : x.pc = .segment)
    (hrest : x.rest = segment :: rest) (hdeadline : t.seconds ≠ none → 0 < x.deadline) :
    ∃ y, Relation.ReflTransGen (Step t) x y ∧ y.pc = .segment ∧ y.rest = rest ∧
      y.deadline = x.deadline := by
  have hopened : (x.openSegment t segment).rest = segment :: rest :=
    (openSegment_rest segment).trans hrest
  have hopenedDeadline : (x.openSegment t segment).deadline = x.deadline :=
    openSegment_deadline segment
  have hnext : ∀ {y : Sender}, Relation.ReflTransGen (Step t) x y → y.pc = .segmentDone →
      y.rest = segment :: rest → y.deadline = x.deadline → ∃ z,
        Relation.ReflTransGen (Step t) x z ∧ z.pc = .segment ∧ z.rest = rest ∧
          z.deadline = x.deadline := fun hrun hdone hrest hdeadline =>
    ⟨_, hrun.tail (.segmentDone hdone hrest), rfl, rfl, (closeSegment_deadline _).trans hdeadline⟩
  by_cases ht : t.seconds = none
  · have hopen := Step.legacy hpc hrest ht
    have hwrite := Step.write (t := t) (x := { x.openSegment t segment with pc := .write }) rfl
    exact hnext ((Relation.ReflTransGen.single hopen).tail hwrite) rfl hopened hopenedDeadline
  · have hopen := Step.bounded hpc hrest ht
    obtain ⟨y, hrun, hdone, hyrest, hydeadline⟩ := retry_run (t := t)
      (x := { x.openSegment t segment with pc := .retry }) rfl (hopenedDeadline ▸ hdeadline ht)
    exact hnext (hrun.head hopen) hdone (hyrest.trans hopened) (hydeadline.trans hopenedDeadline)

/-- All segments are sent. -/
lemma segments_run {rest : List Segment} (hpc : x.pc = .segment) (hrest : x.rest = rest)
    (hdeadline : t.seconds ≠ none → 0 < x.deadline) :
    ∃ y, Relation.ReflTransGen (Step t) x y ∧ y.pc = .segment ∧ y.rest = [] := by
  induction rest generalizing x with
  | nil => exact ⟨x, .refl, hpc, hrest⟩
  | cons segment rest ih =>
      obtain ⟨y, hrun, hypc, hyrest, hydeadline⟩ := segment_run hpc hrest hdeadline
      obtain ⟨z, hrun', hz⟩ := ih hypc hyrest fun ht => hydeadline ▸ hdeadline ht
      exact ⟨z, hrun.trans hrun', hz⟩

/-- Some run sends the whole response. -/
lemma exists_complete : ∃ x, (sender t d m rsp).Reachable x ∧ x.pc = .segment ∧ x.rest = [] := by
  cases ht : t.seconds with
  | none =>
      have hpc : (start t d m rsp).pc = .segment := if_pos ht
      obtain ⟨y, hrun, hy⟩ := segments_run hpc rfl fun h => absurd ht h
      exact ⟨y, ⟨_, rfl, hrun⟩, hy⟩
  | some seconds =>
      have hpc : (start t d m rsp).pc = .startResponse :=
        if_neg (by rw [ht]; exact Option.some_ne_none _)
      have hstart := Step.startResponse hpc ht 1
      have hdeadline : (0 : Int) < 1 + seconds * 1000 := by omega
      obtain ⟨y, hrun, hy⟩ := segments_run (t := t) (x := { start t d m rsp with
        pc := .segment, started := 1, now := 1, deadline := 1 + seconds * 1000 }) rfl rfl
        fun _ => hdeadline
      exact ⟨y, ⟨_, rfl, hrun.head hstart⟩, hy⟩

end complete

/-! ## Handlers -/

/-- The code of a body finds its text. -/
def Finds (lit : List UInt8 → Nat) (m : Nat → UInt8) (body : List UInt8) : BodySource → Prop
  | .literal bytes => bytes = body ∧ Holds m (lit bytes) bytes
  | .field ptr => Holds m ptr (body ++ [0]) ∧ 0 ∉ body
  | .pair ptr len => len = body.length ∧ Holds m ptr body

/-- A completed handler with a status and a body, and the memory that it leaves: the literals of the
code and the body lie outside of the digit buffer below the stack pointer. -/
structure Handled (t : Transport) (m : Nat → UInt8) (rsp : Nat) (status : Int) (body : List UInt8)
    (source : BodySource) : Prop where
  room : 24 ≤ rsp
  number : -2 ^ 63 ≤ status ∧ status < 2 ^ 63
  fits : body.length < 2 ^ 63
  finds : Finds t.lit m body source
  clear : Separate (handlerSlots t.lit m status source).bodyPtr body.length (rsp - 24) 24
  literals : ∀ bytes, .literal bytes ∈ serialize (handlerSlots t.lit m status source) →
    Holds m (t.lit bytes) bytes ∧ Separate (t.lit bytes) bytes.length (rsp - 24) 24

section handlers

variable {t : Transport} {m : Nat → UInt8} {rsp : Nat} {status : Int} {body : List UInt8}
  {source : BodySource}

lemma handlerSlots_status :
    (handlerSlots t.lit m status source).status = (status % 2 ^ 64).toNat := by
  cases source <;> rfl

/-- The slots of the body stand for the text. -/
lemma Handled.slots (h : Handled t m rsp status body source) :
    (handlerSlots t.lit m status source).bodyLen = body.length ∧
      Holds m (handlerSlots t.lit m status source).bodyPtr body := by
  have hfinds := h.finds
  cases source with
  | literal bytes =>
      obtain ⟨rfl, hholds⟩ := hfinds
      exact ⟨rfl, hholds⟩
  | field ptr =>
      obtain ⟨hholds, hplain⟩ := hfinds
      have hfits := h.fits
      exact ⟨strlen_eq hholds hplain (by omega), (holds_append.mp hholds).1⟩
  | pair ptr len => exact hfinds

lemma Handled.placed (h : Handled t m rsp status body source) :
    Placed t (handlerSlots t.lit m status source) m rsp where
  room := h.room
  literals := h.literals
  body := by
    rw [h.slots.1]
    exact h.clear
  words := by
    have hfits := h.fits
    rw [h.slots.1, handlerSlots_status]
    omega

/-- The segments are the response. -/
lemma Handled.bytes (h : Handled t m rsp status body source) :
    bytesOf m (serialize (handlerSlots t.lit m status source)) =
      response (status % 2 ^ 64).toNat body := by
  obtain ⟨hlen, hholds⟩ := h.slots
  have hbody := readBytes_of_holds hholds
  rw [response, serialize, handlerSlots_status, hlen]
  simp only [bytesOf, List.flatMap_cons, List.flatMap_nil, segmentBytes, itoa_eq, hbody,
    List.append_nil]

/-- A response as it should be on the wire, at any time of its run. -/
structure Framed (t : Transport) (status : Int) (body : List UInt8) (x : Sender) : Prop where
  /-- what is sent begins a response with a status of three digits, and is all of it in the end -/
  bytes : ∃ shown, 100 ≤ shown ∧ shown ≤ 599 ∧ (Wasm.digitBytes shown).length = 3 ∧
    x.sent <+: response shown body ∧
      (x.pc = .ended → x.failed = false → shown = status ∧ x.sent = response shown body)
  /-- no system call comes after the deadline -/
  deadline : x.pc = .send → x.now < x.deadline ∧
    ∀ seconds, t.seconds = some seconds → x.deadline = x.started + seconds * 1000
  ended : x.pc = .ended → x.closed = true ∧ (t.forked = false → x.rsp = t.top)
  next : x.pc ≠ .ended → ∃ y, Step t x y

/-- Every response has a next step before its end. -/
lemma exists_step {d : Slots} {x : Sender} (h : x.Sound t d m rsp) (hpc : x.pc ≠ .ended) :
    ∃ y, Step t x y := by
  have hplace := h.place
  rw [At] at hplace
  cases hx : x.pc with
  | startResponse => exact ⟨_, .clockFails (.inl hx)⟩
  | segment =>
      cases hrest : x.rest with
      | nil => exact ⟨_, .complete hx hrest⟩
      | cons segment rest =>
          by_cases ht : t.seconds = none
          · exact ⟨_, .legacy hx hrest ht⟩
          · exact ⟨_, .bounded hx hrest ht⟩
  | retry => exact ⟨_, .clockFails (.inr (.inl hx))⟩
  | send => exact ⟨_, .sendFails hx⟩
  | blocked => exact ⟨_, .clockFails (.inr (.inr hx))⟩
  | poll => exact ⟨_, .pollFails hx⟩
  | write => exact ⟨_, .write hx⟩
  | segmentDone =>
      rw [hx] at hplace
      obtain ⟨⟨-, segment, rest, hrest, -⟩, -⟩ := hplace
      exact ⟨_, .segmentDone hx hrest⟩
  | close => exact ⟨_, .close hx⟩
  | reset =>
      cases ht : t.forked with
      | false => exact ⟨_, .reset hx ht⟩
      | true => exact ⟨_, .exit hx ht⟩
  | ended => exact absurd hx hpc

/-- A status in its range gives framed responses. -/
lemma framed_of_status (h : Handled t m rsp status body source)
    (hstatus : 100 ≤ status ∧ status ≤ 599) {x : Sender}
    (hx : (sender t (handlerSlots t.lit m status source) m rsp).Reachable x) :
    Framed t status body x := by
  have hsound := reachable_sound h.placed hx
  have hplace := hsound.place
  have hsent := hsound.sent
  rw [At] at hplace
  rw [h.bytes] at hsent
  refine ⟨⟨(status % 2 ^ 64).toNat, by omega, by omega, digitBytes_three (by omega) (by omega), hsent,
    fun hpc hfailed => ⟨by omega, ?_⟩⟩, fun hpc => ?_, fun hpc => ?_, exists_step hsound⟩
  · rw [hpc] at hplace
    exact (hplace.1 hfailed).trans h.bytes
  · rw [hpc] at hplace
    exact ⟨hplace.2.2, hplace.2.1⟩
  · rw [hpc] at hplace
    exact hplace.2

/-- Another status does not: the whole response shows it. -/
lemma status_of_framed (h : Handled t m rsp status body source)
    (hframed : ∀ x, (sender t (handlerSlots t.lit m status source) m rsp).Reachable x →
      Framed t status body x) : 100 ≤ status ∧ status ≤ 599 := by
  obtain ⟨x, hx, hpc, hrest⟩ : ∃ x, (sender t (handlerSlots t.lit m status source) m rsp).Reachable
    x ∧ x.pc = .segment ∧ x.rest = [] := exists_complete
  obtain ⟨shown, hlow, hhigh, -, hprefix, -⟩ := (hframed x hx).bytes
  have hplace := (reachable_sound h.placed hx).place
  rw [At, hpc] at hplace
  have hsent := hplace.1.bytes
  have hnil : bytesOf m x.rest = [] := by rw [hrest]; rfl
  rw [hnil, List.append_nil, h.bytes] at hsent
  rw [hsent] at hprefix
  have hshown := status_of_prefix hprefix
  have hnumber := h.number
  omega

end handlers

/-! ## A service with a time limit -/

/-- The literals, and the body `hi`. -/
def sampleMemory : Nat → UInt8 :=
  writeAll (writeAll (writeAll (writeAll (fun _ => 0) 10000 (ascii "HTTP/1.0 ")) 10100
    (ascii " OK\r\nContent-Length: ")) 10200 (ascii "\r\n\r\n")) 20000 (ascii "hi")

/-- A service whose connections are served one after another. -/
def sampleTransport : Transport where
  seconds := some 5
  forked := false
  top := 4096
  lit bytes :=
    if bytes = ascii "HTTP/1.0 " then 10000
    else if bytes = ascii " OK\r\nContent-Length: " then 10100 else 10200

lemma sampleHandled {status : Int} (hstatus : -2 ^ 63 ≤ status ∧ status < 2 ^ 63) :
    Handled sampleTransport sampleMemory 4096 status (ascii "hi") (.pair 20000 2) where
  room := by decide
  number := hstatus
  fits := Nat.lt_of_lt_of_le (show 2 < 4 by decide) (by omega)
  finds := ⟨rfl, holds_writeAll _ _ _⟩
  clear := .inr (show 4096 - 24 + 24 ≤ 20000 by decide)
  literals := by
    intro bytes hmem
    have hcases : bytes = ascii "HTTP/1.0 " ∨ bytes = ascii " OK\r\nContent-Length: " ∨
        bytes = ascii "\r\n\r\n" := by simpa [serialize] using hmem
    rcases hcases with rfl | rfl | rfl
    · refine ⟨?_, .inr (by decide)⟩
      exact (((holds_writeAll _ _ _).writeAll (.inl (by decide))).writeAll
        (.inl (by decide))).writeAll (.inl (by decide))
    · refine ⟨?_, .inr (by decide)⟩
      exact ((holds_writeAll _ _ _).writeAll (.inl (by decide))).writeAll (.inl (by decide))
    · refine ⟨?_, .inr (by decide)⟩
      exact (holds_writeAll _ _ _).writeAll (.inl (by decide))

end Verbosec.Http.Send
