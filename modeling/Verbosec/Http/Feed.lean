import Mathlib.Data.List.Induction
import Verbosec.Http.Automaton

/-!
# The machine without words

* `Scan`, `feed`, `feedAll` - the machine without words and numbers: its state and the three counters.
* `feedAll_bytes` - the machine accepts the bytes of a head.
-/

namespace Verbosec.Http

/-! ## The machine -/

/-- The state of the machine with its counters. -/
structure Scan where
  /-- the state -/
  phase : Phase := .method 0
  /-- the length of the target so far -/
  path : Nat := 0
  /-- has a body length been declared? -/
  seen : Bool := false
  /-- the body length so far -/
  length : Nat := 0
  deriving DecidableEq, Repr

/-- What a transition does to the counters; `none` refuses. -/
def act (capacity : Nat) (b : UInt8) (s : Scan) : Action → Option Scan
  | .none => some s
  | .target => if 256 < s.path + 1 then none else some { s with path := s.path + 1 }
  | .length => if s.seen then none else some { s with seen := true }
  | .digit =>
      if capacity < s.length * 10 + (b.toNat - 48) then none
      else some { s with length := s.length * 10 + (b.toNat - 48) }

/-- One byte through the machine. -/
def feed (capacity : Nat) (s : Scan) (b : UInt8) : Option Scan :=
  (s.phase.next b).bind fun t => act capacity b { s with phase := t.1 } t.2

/-- A text through the machine. -/
def feedAll (capacity : Nat) (s : Scan) (text : List UInt8) : Option Scan :=
  text.foldlM (feed capacity) s

variable {capacity : Nat} {s : Scan} {b : UInt8}

@[simp] lemma feedAll_nil : feedAll capacity s [] = some s := rfl

lemma feedAll_cons {text : List UInt8} :
    feedAll capacity s (b :: text) = (feed capacity s b).bind (feedAll capacity · text) := rfl

lemma feedAll_append {text text' : List UInt8} :
    feedAll capacity s (text ++ text') =
      (feedAll capacity s text).bind (feedAll capacity · text') :=
  List.foldlM_append

/-- A step without an action. -/
lemma feed_plain {p : Phase} (h : s.phase.next b = some (p, .none)) :
    feed capacity s b = some { s with phase := p } := by
  rw [feed, h]
  rfl

/-- A loop of the machine without an action. -/
lemma feedAll_loop {text : List UInt8} (h : ∀ b ∈ text, s.phase.next b = some (s.phase, .none)) :
    feedAll capacity s text = some s := by
  induction text with
  | nil => rfl
  | cons b text ih =>
      obtain ⟨hb, htext⟩ := List.forall_mem_cons.mp h
      rw [feedAll_cons, feed_plain hb]
      exact ih htext

/-! ## The request line is accepted -/

lemma feedAll_method {path : Nat} {seen : Bool} {length k : Nat} {text : List UInt8}
    (hlen : k + text.length ≤ 8) (htok : ∀ b ∈ text, token b) :
    feedAll capacity ⟨.method k, path, seen, length⟩ text =
      some ⟨.method (k + text.length), path, seen, length⟩ := by
  induction text generalizing k with
  | nil => rfl
  | cons b text ih =>
      obtain ⟨hb, htext⟩ := List.forall_mem_cons.mp htok
      rw [List.length_cons] at hlen
      have hnext : (Phase.method k).next b = some (.method (k + 1), .none) := by
        rw [Phase.next, if_neg (fun h => (token_ne hb).2.2.1 h.1), if_pos ⟨hb, by omega⟩]
      rw [feedAll_cons, feed_plain hnext, Option.bind_some, ih (by omega) htext, List.length_cons,
        show k + 1 + text.length = k + (text.length + 1) by omega]

lemma feedAll_target {path : Nat} {seen : Bool} {length : Nat} {text : List UInt8}
    (hlen : path + text.length ≤ 256) (hbytes : ∀ b ∈ text, targetByte b) :
    feedAll capacity ⟨.target, path, seen, length⟩ text =
      some ⟨.target, path + text.length, seen, length⟩ := by
  induction text generalizing path with
  | nil => rfl
  | cons b text ih =>
      obtain ⟨hb, htext⟩ := List.forall_mem_cons.mp hbytes
      rw [List.length_cons] at hlen
      have hnext : Phase.target.next b = some (.target, .target) := by
        rw [Phase.next, if_neg (targetByte_ne hb).2.2, if_pos hb]
      have hfeed : feed capacity ⟨.target, path, seen, length⟩ b =
          some ⟨.target, path + 1, seen, length⟩ := by
        rw [feed, hnext, Option.bind_some, act, if_neg (by simp only; omega)]
      rw [feedAll_cons, hfeed, Option.bind_some, ih (by omega) htext, List.length_cons,
        show path + 1 + text.length = path + (text.length + 1) by omega]

/-- The machine accepts a request line. -/
lemma feedAll_request {method target : List UInt8} {minor : UInt8}
    (h : RequestLine method target minor) :
    feedAll capacity {} (requestBytes method target minor ++ crlf) =
      some ⟨.headers, target.length, false, 0⟩ := by
  obtain ⟨b, rest, rfl⟩ : ∃ b rest, target = b :: rest := by
    cases target with
    | nil => exact absurd h.target.origin (by simp)
    | cons b rest => exact ⟨b, rest, rfl⟩
  obtain rfl : b = 47 := by simpa using h.target.origin
  obtain ⟨hslash, hrest⟩ := List.forall_mem_cons.mp h.target.bytes
  have hbound := h.target.bounded
  rw [List.length_cons] at hbound
  have hpos : 0 < method.length := List.length_pos_iff.mpr h.method.nonempty
  have hstart : feedAll capacity {} method = some ⟨.method method.length, 0, false, 0⟩ := by
    simpa using feedAll_method (k := 0) (by simpa using h.method.short) h.method.tokens
  have hspace : feed capacity ⟨.method method.length, 0, false, 0⟩ 32 =
      some ⟨.targetStart, 0, false, 0⟩ := feed_plain (by simp [Phase.next, hpos])
  have hfirst : feed capacity ⟨.targetStart, 0, false, 0⟩ 47 = some ⟨.target, 1, false, 0⟩ := rfl
  have htarget : feedAll capacity ⟨.target, 1, false, 0⟩ rest =
      some ⟨.target, 1 + rest.length, false, 0⟩ := feedAll_target (by omega) hrest
  have hversion : feedAll capacity ⟨.target, 1 + rest.length, false, 0⟩
      (32 :: (versionPrefix ++ [minor]) ++ crlf) = some ⟨.headers, 1 + rest.length, false, 0⟩ := by
    rcases h.minor with rfl | rfl <;> rfl
  rw [requestBytes, List.append_assoc, feedAll_append, hstart, Option.bind_some, List.cons_append,
    feedAll_cons, hspace, Option.bind_some, List.append_assoc, List.cons_append, feedAll_cons,
    hfirst, Option.bind_some, feedAll_append, htarget, Option.bind_some, hversion,
    List.length_cons, Nat.add_comm]

/-! ## Header names -/

/-- The states after a nonempty prefix of a header name. -/
inductive NameAt (name : List UInt8) : Phase → Prop
  | known {w : HeaderName} (h : name.map lower <+: w.bytes) : NameAt name (.name w name.length)
  | generic (h : ∀ w : HeaderName, ¬ name.map lower <+: w.bytes) : NameAt name .genericName

/-- The recognised names start differently. -/
lemma HeaderName.eq_of_prefix {w w' : HeaderName} {name : List UInt8} (hne : name ≠ [])
    (h : name <+: w.bytes) (h' : name <+: w'.bytes) : w = w' := by
  obtain ⟨b, name, rfl⟩ := List.exists_cons_of_ne_nil hne
  obtain ⟨rest, hrest⟩ := h
  obtain ⟨rest', hrest'⟩ := h'
  have hhead : w.bytes.head? = some b := by rw [← hrest]; rfl
  have hhead' : w'.bytes.head? = some b := by rw [← hrest']; rfl
  have heads : w.bytes.head? = w'.bytes.head? := hhead.trans hhead'.symm
  cases w <;> cases w' <;> first | rfl | exact absurd heads (by decide)

lemma prefix_snoc {l w : List UInt8} {b : UInt8} :
    l ++ [b] <+: w ↔ l <+: w ∧ w[l.length]? = some b := by
  constructor
  · rintro ⟨rest, rfl⟩
    exact ⟨⟨b :: rest, by simp⟩, by simp⟩
  · rintro ⟨⟨rest, rfl⟩, hget⟩
    cases rest with
    | nil => simp at hget
    | cons c rest =>
        obtain rfl : c = b := by simpa using hget
        exact ⟨rest, by simp⟩

/-- A token extends a header name. -/
lemma NameAt.next {name : List UInt8} {p : Phase} (h : NameAt name p) (hne : name ≠ [])
    (hb : token b) : ∃ p', p.next b = some (p', .none) ∧ NameAt (name ++ [b]) p' := by
  have hcolon : b ≠ 58 := (token_ne hb).2.2.2
  have hmap : (name ++ [b]).map lower = name.map lower ++ [lower b] := by simp
  cases h with
  | @known w h =>
      by_cases hget : w.bytes[name.length]? = some (lower b)
      · refine ⟨.name w (name.length + 1), ?_, ?_⟩
        · simp [Phase.next, Phase.nextName, hcolon, hget]
        · rw [show name.length + 1 = (name ++ [b]).length by simp]
          exact .known (by rw [hmap, prefix_snoc]; exact ⟨h, by simpa using hget⟩)
      · refine ⟨.genericName, ?_, .generic fun w' h' => ?_⟩
        · simp [Phase.next, Phase.nextName, hcolon, hget, hb]
        · rw [hmap, prefix_snoc] at h'
          obtain rfl := HeaderName.eq_of_prefix (by simpa using hne) h h'.1
          exact hget (by simpa using h'.2)
  | generic h =>
      refine ⟨.genericName, ?_, .generic fun w h' => ?_⟩
      · simp [Phase.next, hcolon, hb]
      · rw [hmap, prefix_snoc] at h'
        exact h w h'.1

/-- A token starts a header name. -/
lemma nameAt_first (hb : token b) :
    ∃ p, Phase.headers.next b = some (p, .none) ∧ NameAt [b] p := by
  have hcr : b ≠ 13 := (token_ne hb).2.1
  have hstart : ∀ w : HeaderName, ([b].map lower <+: w.bytes) ↔ w.bytes.head? = some (lower b) := by
    intro w
    cases w <;> simp [HeaderName.bytes, contentLength, transferEncoding, expectName, eq_comm]
  by_cases hc : lower b = 99
  · exact ⟨_, by simp [Phase.next, Phase.nextHeader, hcr, hc],
      .known (w := .contentLength) ((hstart _).mpr (by simp [hc]; rfl))⟩
  · by_cases ht : lower b = 116
    · exact ⟨_, by simp [Phase.next, Phase.nextHeader, hcr, ht],
        .known (w := .transferEncoding) ((hstart _).mpr (by simp [ht]; rfl))⟩
    · by_cases he : lower b = 101
      · exact ⟨_, by simp [Phase.next, Phase.nextHeader, hcr, he],
          .known (w := .expect) ((hstart _).mpr (by simp [he]; rfl))⟩
      · refine ⟨.genericName, by simp [Phase.next, Phase.nextHeader, hcr, hc, ht, he, hb],
          .generic fun w h => ?_⟩
        have hhead := (hstart w).mp h
        cases w with
        | contentLength => exact hc (Option.some.inj (show some 99 = some (lower b) from hhead)).symm
        | transferEncoding => exact ht (Option.some.inj (show some 116 = some (lower b) from hhead)).symm
        | expect => exact he (Option.some.inj (show some 101 = some (lower b) from hhead)).symm

/-- The machine on a header name. -/
lemma feedAll_name {path : Nat} {seen : Bool} {length : Nat} {name : List UInt8} (hne : name ≠ [])
    (htok : ∀ b ∈ name, token b) :
    ∃ p, feedAll capacity ⟨.headers, path, seen, length⟩ name = some ⟨p, path, seen, length⟩ ∧
      NameAt name p := by
  induction name using List.reverseRecOn with
  | nil => exact absurd rfl hne
  | append_singleton name b ih =>
      have hb : token b := htok b (by simp)
      by_cases hname : name = []
      · subst hname
        obtain ⟨p, hnext, hp⟩ := nameAt_first hb
        refine ⟨p, ?_, hp⟩
        rw [List.nil_append, feedAll_cons, feed_plain hnext]
        rfl
      · obtain ⟨p, hfeed, hp⟩ := ih hname fun b hb => htok b (by simp [hb])
        obtain ⟨p', hnext, hp'⟩ := hp.next hname hb
        refine ⟨p', ?_, hp'⟩
        rw [feedAll_append, hfeed, Option.bind_some, feedAll_cons, feed_plain hnext]
        rfl

/-- The colon after a name that is not recognised. -/
lemma NameAt.colon_other {name : List UInt8} {p : Phase} (h : NameAt name p)
    (hname : ∀ w : HeaderName, name.map lower ≠ w.bytes) : p.next 58 = some (.value, .none) := by
  cases h with
  | @known w h =>
      have hlen : name.length ≠ w.bytes.length := fun hlen =>
        hname w (h.eq_of_length (by simpa using hlen))
      simp [Phase.next, Phase.nextName, hlen]
  | generic => rfl

/-- The colon after a recognised name. -/
lemma NameAt.colon_known {name : List UInt8} {p : Phase} {w : HeaderName} (h : NameAt name p)
    (hname : name.map lower = w.bytes) : p.next 58 = Phase.afterName w := by
  have hlen : name.length = w.bytes.length := by rw [← hname, List.length_map]
  cases h with
  | @known w' h =>
      have hne : name.map lower ≠ [] := by rw [hname]; cases w <;> decide
      have hw : name.map lower <+: w.bytes := hname ▸ List.prefix_refl _
      obtain rfl := HeaderName.eq_of_prefix hne h hw
      simp [Phase.next, Phase.nextName, hlen]
  | generic h => exact absurd (hname ▸ List.prefix_refl _) (h w)

/-! ## Header lines are accepted -/

lemma digitByte_toNat (h : digitByte b) : 48 ≤ b.toNat ∧ b.toNat ≤ 57 := by
  simp only [digitByte, Bool.and_eq_true, decide_eq_true_eq] at h
  exact ⟨UInt8.le_iff_toNat_le.mp h.1, UInt8.le_iff_toNat_le.mp h.2⟩

/-- One digit of a body length. -/
lemma bodyLength_cons (hcapacity : capacity < 2 ^ 64) {digits : List UInt8} {n m : Nat} :
    bodyLength capacity (b :: digits) n = some m ↔
      digitByte b ∧ n * 10 + (b.toNat - 48) ≤ capacity ∧
        bodyLength capacity digits (n * 10 + (b.toNat - 48)) = some m := by
  rw [bodyLength]
  by_cases hb : digitByte b
  · by_cases hle : n * 10 + (b.toNat - 48) ≤ capacity
    · simp only [hb, Bool.not_true, Bool.false_eq_true, if_false, true_and, hle]
      rw [if_neg (by omega), if_neg (by omega)]
    · simp only [hb, Bool.not_true, Bool.false_eq_true, if_false, true_and, hle, false_and, iff_false]
      rw [if_pos (show capacity < _ by omega)]
      split <;> simp
  · simp [hb]

/-- A digit from the states that read one. -/
lemma feed_digit {p : Phase} {path : Nat} {seen : Bool} {n : Nat}
    (hp : p.next b = some (.digits, .digit)) (hle : n * 10 + (b.toNat - 48) ≤ capacity) :
    feed capacity ⟨p, path, seen, n⟩ b =
      some ⟨.digits, path, seen, n * 10 + (b.toNat - 48)⟩ := by
  rw [feed, hp, Option.bind_some, act, if_neg (by simp only; omega)]

lemma leading_next_digit (h : digitByte b) : Phase.leading.next b = some (.digits, .digit) := by
  have hblank := digitByte_not_blank h
  simp only [blank, Bool.or_eq_true, decide_eq_true_eq] at hblank
  rw [Phase.next, if_neg hblank, if_pos h]

lemma digits_next_digit (h : digitByte b) : Phase.digits.next b = some (.digits, .digit) := by
  have hblank := digitByte_not_blank h
  simp only [blank, Bool.or_eq_true, decide_eq_true_eq] at hblank
  have hcr : b ≠ 13 := (fieldByte_ne (digitByte_fieldByte h)).2
  rw [Phase.next, if_neg hcr, if_neg hblank, if_pos h]

lemma feedAll_digits (hcapacity : capacity < 2 ^ 64) {path : Nat} {seen : Bool}
    {digits : List UInt8} {n m : Nat} (h : bodyLength capacity digits n = some m) :
    feedAll capacity ⟨.digits, path, seen, n⟩ digits = some ⟨.digits, path, seen, m⟩ := by
  induction digits generalizing n with
  | nil =>
      obtain rfl : n = m := by simpa [bodyLength] using h
      rfl
  | cons b digits ih =>
      obtain ⟨hb, hle, hrest⟩ := (bodyLength_cons hcapacity).mp h
      rw [feedAll_cons, feed_digit (digits_next_digit hb) hle]
      exact ih hrest

/-- The machine accepts a header line. -/
lemma feedAll_line (hcapacity : capacity < 2 ^ 64) {path : Nat} {length length' : Option Nat}
    {line : List UInt8} (h : headerLine capacity length line = some length') :
    feedAll capacity ⟨.headers, path, length.isSome, length.getD 0⟩ (line ++ crlf) =
      some ⟨.headers, path, length'.isSome, length'.getD 0⟩ := by
  obtain ⟨name, value, rfl, hne, htok, hheader⟩ := headerLine_iff.mp h
  obtain ⟨p, hname, hp⟩ := feedAll_name hne htok
  rw [headerBytes, List.append_assoc, feedAll_append, hname, Option.bind_some, List.cons_append,
    feedAll_cons]
  cases hheader with
  | other hother hvalue =>
      have hloop : ∀ b ∈ value, Phase.value.next b = some (.value, .none) := fun b hb => by
        rw [Phase.next, if_neg (fieldByte_ne (hvalue b hb)).2, if_pos (hvalue b hb)]
      rw [feed_plain (hp.colon_other hother), Option.bind_some, feedAll_append,
        feedAll_loop hloop]
      rfl
  | @contentLength before digits after n hlen hbefore hafter hdigits hbody =>
      have hleading : ∀ b ∈ before, Phase.leading.next b = some (.leading, .none) := fun b hb => by
        have := hbefore b hb
        simp only [blank, Bool.or_eq_true, decide_eq_true_eq] at this
        rw [Phase.next, if_pos this]
      have htrailing : ∀ p ∈ [Phase.digits, Phase.trailing], ∀ b ∈ after,
          p.next b = some (.trailing, .none) := fun p hp b hb => by
        have hcr : b ≠ 13 := (fieldByte_ne (blank_fieldByte (hafter b hb))).2
        have := hafter b hb
        simp only [blank, Bool.or_eq_true, decide_eq_true_eq] at this
        simp only [List.mem_cons, List.not_mem_nil, or_false] at hp
        rcases hp with rfl | rfl <;> rw [Phase.next, if_neg hcr, if_pos this]
      have hcolon : feed capacity ⟨p, path, false, 0⟩ 58 = some ⟨.leading, path, true, 0⟩ := by
        rw [feed, hp.colon_known hlen]
        rfl
      have hread : feedAll capacity ⟨.leading, path, true, 0⟩ (before ++ digits) =
          some ⟨.digits, path, true, n⟩ := by
        obtain ⟨b, digits, rfl⟩ := List.exists_cons_of_ne_nil hdigits
        obtain ⟨hb, hle, hrest⟩ := (bodyLength_cons hcapacity).mp hbody
        rw [feedAll_append, feedAll_loop hleading, Option.bind_some, feedAll_cons,
          feed_digit (leading_next_digit hb) hle]
        exact feedAll_digits hcapacity hrest
      have hend : feedAll capacity ⟨.digits, path, true, n⟩ (after ++ crlf) =
          some ⟨.headers, path, true, n⟩ := by
        cases after with
        | nil => rfl
        | cons b after =>
            have htail : ∀ b ∈ after, Phase.trailing.next b = some (.trailing, .none) :=
              fun b hb => htrailing _ (by simp) b (by simp [hb])
            rw [List.cons_append, feedAll_cons, feed_plain (htrailing _ (by simp) b (by simp)),
              Option.bind_some, feedAll_append, feedAll_loop htail]
            rfl
      simp only [Option.isSome_none, Option.getD_none, Option.isSome_some, Option.getD_some]
      rw [hcolon, Option.bind_some, List.append_assoc (before ++ digits), feedAll_append, hread,
        Option.bind_some, hend]

/-- The machine accepts header lines. -/
lemma feedAll_lines (hcapacity : capacity < 2 ^ 64) {path : Nat} {lines : List (List UInt8)}
    {length length' : Option Nat} (h : lines.foldlM (headerLine capacity) length = some length') :
    feedAll capacity ⟨.headers, path, length.isSome, length.getD 0⟩ (linesBytes lines) =
      some ⟨.headers, path, length'.isSome, length'.getD 0⟩ := by
  induction lines generalizing length with
  | nil =>
      obtain rfl : length = length' := by simpa using h
      rfl
  | cons line lines ih =>
      obtain ⟨length₁, hline, hrest⟩ := Option.bind_eq_some_iff.mp h
      rw [show linesBytes (line :: lines) = line ++ crlf ++ linesBytes lines from rfl,
        feedAll_append, feedAll_line hcapacity hline]
      exact ih hrest

/-- What the machine has when it has read a head. -/
def Head.scan (head : Head capacity) (p : Phase) : Scan :=
  ⟨p, head.target.length, head.length.isSome, head.length.getD 0⟩

/-- **The machine accepts a head.** -/
theorem feedAll_bytes (hcapacity : capacity < 2 ^ 64) (head : Head capacity) :
    feedAll capacity {} head.bytes = some (head.scan .done) := by
  have hlines : linesBytes head.allLines =
      requestBytes head.method head.target head.minor ++ crlf ++ linesBytes head.lines := rfl
  have hheaders : feedAll capacity ⟨.headers, head.target.length, _, _⟩ _ = _ :=
    feedAll_lines hcapacity head.headers
  simp only [Option.isSome_none, Option.getD_none] at hheaders
  rw [Head.bytes, hlines, List.append_assoc, feedAll_append, feedAll_request head.request,
    Option.bind_some, feedAll_append, hheaders]
  rfl

end Verbosec.Http
