import Verbosec.Http.Feed

/-!
# What the machine accepts

* `Reads` - what the machine has read in each of its states; `Reads.feed` is its invariance.
* `exists_head_of_feedAll` - what the machine accepts are the bytes of a head.
-/

namespace Verbosec.Http

/-- A header name that is not recognised. -/
structure OtherName (name : List UInt8) : Prop where
  nonempty : name ≠ []
  tokens : ∀ b ∈ name, token b
  other : ∀ w : HeaderName, name.map lower ≠ w.bytes

/-- The name of a body length. -/
structure LengthName (name : List UInt8) : Prop where
  nonempty : name ≠ []
  tokens : ∀ b ∈ name, token b
  length : name.map lower = HeaderName.bytes .contentLength

/-- What the machine has read in each of its states. -/
inductive Reads (capacity : Nat) : List UInt8 → Scan → Prop
  | method {text} (hlen : text.length ≤ 8) (htok : ∀ b ∈ text, token b) :
      Reads capacity text ⟨.method text.length, 0, false, 0⟩
  | targetStart {method} (hmethod : Method method) :
      Reads capacity (method ++ [32]) ⟨.targetStart, 0, false, 0⟩
  | target {method target} (hmethod : Method method) (htarget : Target target) :
      Reads capacity (method ++ 32 :: target) ⟨.target, target.length, false, 0⟩
  | version {method target k} (hmethod : Method method) (htarget : Target target)
      (hk : k ≤ versionPrefix.length) :
      Reads capacity (method ++ 32 :: (target ++ 32 :: versionPrefix.take k))
        ⟨.version k, target.length, false, 0⟩
  | versionCr {method target minor} (h : RequestLine method target minor) :
      Reads capacity (requestBytes method target minor) ⟨.versionCr, target.length, false, 0⟩
  | versionLf {method target minor} (h : RequestLine method target minor) :
      Reads capacity (requestBytes method target minor ++ [13])
        ⟨.versionLf, target.length, false, 0⟩
  | headers (head : Head capacity) : Reads capacity (linesBytes head.allLines) (head.scan .headers)
  | endLf (head : Head capacity) :
      Reads capacity (linesBytes head.allLines ++ [13]) (head.scan .endLf)
  | done (head : Head capacity) : Reads capacity head.bytes (head.scan .done)
  | name (head : Head capacity) {name p} (hne : name ≠ []) (htok : ∀ b ∈ name, token b)
      (hp : NameAt name p) : Reads capacity (linesBytes head.allLines ++ name) (head.scan p)
  | value (head : Head capacity) {name value} (hname : OtherName name)
      (hvalue : ∀ b ∈ value, fieldByte b) :
      Reads capacity (linesBytes head.allLines ++ headerBytes name value) (head.scan .value)
  | leading (head : Head capacity) {name before} (hlength : head.length = none)
      (hname : LengthName name) (hbefore : ∀ b ∈ before, blank b) :
      Reads capacity (linesBytes head.allLines ++ headerBytes name before)
        ⟨.leading, head.target.length, true, 0⟩
  | digits (head : Head capacity) {name before digits n} (hlength : head.length = none)
      (hname : LengthName name) (hbefore : ∀ b ∈ before, blank b) (hdigits : digits ≠ [])
      (hbody : bodyLength capacity digits 0 = some n) :
      Reads capacity (linesBytes head.allLines ++ headerBytes name (before ++ digits))
        ⟨.digits, head.target.length, true, n⟩
  | trailing (head : Head capacity) {name before digits after n} (hlength : head.length = none)
      (hname : LengthName name) (hbefore : ∀ b ∈ before, blank b) (hdigits : digits ≠ [])
      (hbody : bodyLength capacity digits 0 = some n) (hafter : ∀ b ∈ after, blank b) :
      Reads capacity (linesBytes head.allLines ++ headerBytes name (before ++ digits ++ after))
        ⟨.trailing, head.target.length, true, n⟩
  | valueLf (head : Head capacity) {line length}
      (hline : headerLine capacity head.length line = some length) :
      Reads capacity (linesBytes head.allLines ++ (line ++ [13]))
        ⟨.valueLf, head.target.length, length.isSome, length.getD 0⟩

variable {capacity : Nat}

/-- A head with one more header line. -/
def Head.extend (head : Head capacity) {line : List UInt8} {length : Option Nat}
    (h : headerLine capacity head.length line = some length) : Head capacity where
  method := head.method
  target := head.target
  minor := head.minor
  lines := head.lines ++ [line]
  length := length
  request := head.request
  headers := by
    rw [List.foldlM_append, head.headers]
    simpa using h

lemma Head.extend_allLines (head : Head capacity) {line : List UInt8} {length : Option Nat}
    (h : headerLine capacity head.length line = some length) :
    linesBytes (head.extend h).allLines = linesBytes head.allLines ++ (line ++ crlf) := by
  simp [linesBytes, Head.allLines, Head.extend]

lemma bodyLength_append (hcapacity : capacity < 2 ^ 64) {digits : List UInt8} {b : UInt8}
    {n m : Nat} (h : bodyLength capacity digits n = some m) (hb : digitByte b)
    (hle : m * 10 + (b.toNat - 48) ≤ capacity) :
    bodyLength capacity (digits ++ [b]) n = some (m * 10 + (b.toNat - 48)) := by
  induction digits generalizing n with
  | nil =>
      obtain rfl : n = m := by simpa [bodyLength] using h
      exact (bodyLength_cons hcapacity).mpr ⟨hb, hle, rfl⟩
  | cons c digits ih =>
      obtain ⟨hc, hle', hrest⟩ := (bodyLength_cons hcapacity).mp h
      exact (bodyLength_cons hcapacity).mpr ⟨hc, hle', ih hrest⟩

/-- The steps of the machine by their transition. -/
lemma feed_eq_some {s s' : Scan} {b : UInt8} :
    feed capacity s b = some s' ↔
      ∃ p a, s.phase.next b = some (p, a) ∧ act capacity b { s with phase := p } a = some s' := by
  simp only [feed, Option.bind_eq_some_iff, Prod.exists]

lemma token_of_lower {w : HeaderName} {b : UInt8} (h : lower b ∈ w.bytes) : token b := by
  have hletters : ∀ c ∈ w.bytes, 97 ≤ c ∧ c ≤ 122 ∨ c = 45 := by cases w <;> decide +kernel
  have hb := hletters _ h
  simp only [lower, Bool.and_eq_true, decide_eq_true_eq] at hb
  simp only [token, Bool.or_eq_true, Bool.and_eq_true, decide_eq_true_eq]
  split at hb
  next hupper => exact .inl (.inl (.inr hupper))
  next =>
    rcases hb with hb | rfl
    · exact .inl (.inr hb)
    · exact .inr (by decide)

/-- The bytes that a name state does not reject. -/
lemma NameAt.of_next {name : List UInt8} {p p' : Phase} {a : Action} {b : UInt8} (h : NameAt name p)
    (hne : name ≠ []) (hnext : p.next b = some (p', a)) :
    b = 58 ∨ token b ∧ a = .none ∧ NameAt (name ++ [b]) p' := by
  by_cases hcolon : b = 58
  · exact .inl hcolon
  · right
    by_cases hb : token b
    · obtain ⟨q, hq, hat⟩ := h.next hne hb
      obtain ⟨rfl, rfl⟩ := Prod.mk.inj (Option.some.inj (hnext.symm.trans hq))
      exact ⟨hb, rfl, hat⟩
    · cases h with
      | @known w h =>
          have hget : w.bytes[name.length]? ≠ some (lower b) := fun hget =>
            hb (token_of_lower (List.mem_of_getElem? hget))
          simp [Phase.next, Phase.nextName, hcolon, hget, hb] at hnext
      | generic h => simp [Phase.next, hcolon, hb] at hnext

/-- A value state ends its line. -/
lemma feed_cr {s s' : Scan} {line : List UInt8} {length : Option Nat} {head : Head capacity}
    (hline : headerLine capacity head.length line = some length)
    (hpath : s.path = head.target.length) (hseen : s.seen = length.isSome)
    (hlength : s.length = length.getD 0) (hnext : s.phase.next 13 = some (.valueLf, .none))
    (hs : feed capacity s 13 = some s') :
    Reads capacity (linesBytes head.allLines ++ line ++ [13]) s' := by
  obtain rfl : { s with phase := .valueLf } = s' := by simpa [feed_plain hnext] using hs
  rw [hpath, hseen, hlength, List.append_assoc]
  exact .valueLf head hline

/-- The line of a body length. -/
lemma headerLine_length {name before digits after : List UInt8} {n : Nat} (hname : LengthName name)
    (hbefore : ∀ b ∈ before, blank b) (hdigits : digits ≠ [])
    (hbody : bodyLength capacity digits 0 = some n) (hafter : ∀ b ∈ after, blank b) :
    headerLine capacity none (headerBytes name (before ++ digits ++ after)) = some (some n) :=
  headerLine_iff.mpr ⟨name, _, rfl, hname.nonempty, hname.tokens,
    .contentLength hname.length hbefore hafter hdigits hbody⟩

lemma append_snoc {l l' : List UInt8} {b : UInt8} : l ++ l' ++ [b] = l ++ (l' ++ [b]) :=
  List.append_assoc _ _ _

lemma headerBytes_snoc {name value : List UInt8} {b : UInt8} :
    headerBytes name value ++ [b] = headerBytes name (value ++ [b]) := by
  simp [headerBytes]

/-- **Every step keeps account of what was read.** -/
theorem Reads.feed (hcapacity : capacity < 2 ^ 64) {text : List UInt8} {s s' : Scan} {b : UInt8}
    (h : Reads capacity text s) (hs : feed capacity s b = some s') :
    Reads capacity (text ++ [b]) s' := by
  obtain ⟨p, a, hnext, hact⟩ := feed_eq_some.mp hs
  cases h with
  | method hlen htok =>
      simp only [Phase.next] at hnext
      split at hnext
      next hb =>
        obtain ⟨rfl, rfl⟩ : Phase.targetStart = p ∧ Action.none = a := by simpa using hnext
        obtain rfl := Option.some.inj hact
        rw [hb.1]
        exact .targetStart ⟨List.length_pos_iff.mp hb.2, hlen, htok⟩
      next =>
        split at hnext
        case isFalse => exact absurd hnext (by simp)
        next hb =>
          obtain ⟨rfl, rfl⟩ : Phase.method (text.length + 1) = p ∧ Action.none = a := by
            simpa using hnext
          obtain rfl := Option.some.inj hact
          have hsnoc : text.length + 1 = (text ++ [b]).length := by simp
          rw [hsnoc]
          refine .method (by simp; omega) fun c hc => ?_
          rcases List.mem_append.mp hc with hc | hc
          · exact htok c hc
          · rw [List.mem_singleton.mp hc]; exact hb.1
  | @targetStart method hmethod =>
      simp only [Phase.next] at hnext
      split at hnext
      case isFalse => exact absurd hnext (by simp)
      next hb =>
        obtain ⟨rfl, rfl⟩ : Phase.target = p ∧ Action.target = a := by simpa using hnext
        obtain rfl := Option.some.inj hact
        rw [hb, List.append_assoc]
        exact .target hmethod ⟨rfl, by simp, by decide +kernel⟩
  | @target method target hmethod htarget =>
      simp only [Phase.next] at hnext
      split at hnext
      next hb =>
        obtain ⟨rfl, rfl⟩ : Phase.version 0 = p ∧ Action.none = a := by simpa using hnext
        obtain rfl := Option.some.inj hact
        rw [hb, List.append_assoc]
        exact .version (k := 0) hmethod htarget (Nat.zero_le _)
      next =>
        split at hnext
        case isFalse => exact absurd hnext (by simp)
        next hb =>
          obtain ⟨rfl, rfl⟩ : Phase.target = p ∧ Action.target = a := by simpa using hnext
          simp only [act] at hact
          split at hact
          case isTrue => exact absurd hact (by simp)
          next hle =>
            obtain rfl := Option.some.inj hact
            have hsnoc : target.length + 1 = (target ++ [b]).length := by simp
            have hne : target ≠ [] := by rintro rfl; exact absurd htarget.origin (by simp)
            rw [List.append_assoc, hsnoc]
            refine .target hmethod ⟨?_, by simp; omega, fun c hc => ?_⟩
            · exact (List.head?_append_of_ne_nil _ hne).trans htarget.origin
            · rcases List.mem_append.mp hc with hc | hc
              · exact htarget.bytes c hc
              · rw [List.mem_singleton.mp hc]; exact hb
  | @version method target k hmethod htarget hk =>
      simp only [Phase.next] at hnext
      split at hnext
      next hb =>
        obtain ⟨rfl, rfl⟩ : Phase.version (k + 1) = p ∧ Action.none = a := by simpa using hnext
        obtain rfl := Option.some.inj hact
        obtain ⟨hlt, hget⟩ := List.getElem?_eq_some_iff.mp hb
        have htake : versionPrefix.take k ++ [b] = versionPrefix.take (k + 1) := by
          rw [← hget, List.take_append_getElem]
        have hbytes : method ++ 32 :: (target ++ 32 :: versionPrefix.take k) ++ [b] =
            method ++ 32 :: (target ++ 32 :: versionPrefix.take (k + 1)) := by
          simp [← htake]
        rw [hbytes]
        exact .version hmethod htarget hlt
      next =>
        split at hnext
        case isFalse => exact absurd hnext (by simp)
        next hb =>
          obtain ⟨rfl, rfl⟩ : Phase.versionCr = p ∧ Action.none = a := by simpa using hnext
          obtain rfl := Option.some.inj hact
          have hbytes : method ++ 32 :: (target ++ 32 :: versionPrefix.take k) ++ [b] =
              requestBytes method target b := by
            rw [hb.1, List.take_length, requestBytes]
            simp
          rw [hbytes]
          exact .versionCr ⟨hmethod, htarget, hb.2⟩
  | versionCr h =>
      simp only [Phase.next] at hnext
      split at hnext
      case isFalse => exact absurd hnext (by simp)
      next hb =>
        obtain ⟨rfl, rfl⟩ : Phase.versionLf = p ∧ Action.none = a := by simpa using hnext
        obtain rfl := Option.some.inj hact
        rw [hb]
        exact .versionLf h
  | @versionLf method target minor h =>
      simp only [Phase.next] at hnext
      split at hnext
      case isFalse => exact absurd hnext (by simp)
      next hb =>
        obtain ⟨rfl, rfl⟩ : Phase.headers = p ∧ Action.none = a := by simpa using hnext
        obtain rfl := Option.some.inj hact
        let head : Head capacity := ⟨method, target, minor, [], none, h, rfl⟩
        have hbytes : requestBytes method target minor ++ [13] ++ [b] = linesBytes head.allLines := by
          simp [linesBytes, Head.allLines, head, crlf, hb]
        rw [hbytes]
        exact .headers head
  | headers head =>
      by_cases hcr : b = 13
      · subst hcr
        obtain ⟨rfl, rfl⟩ : Phase.endLf = p ∧ Action.none = a := by
          simpa [Head.scan, Phase.next, Phase.nextHeader] using hnext
        obtain rfl := Option.some.inj hact
        exact .endLf head
      · have hb : token b := by
          by_contra hb
          have hlower : ∀ w : HeaderName, lower b ∉ w.bytes := fun w hw => hb (token_of_lower hw)
          have hc : lower b ≠ 99 := fun h => hlower .contentLength (by rw [h]; decide)
          have ht : lower b ≠ 116 := fun h => hlower .transferEncoding (by rw [h]; decide)
          have he : lower b ≠ 101 := fun h => hlower .expect (by rw [h]; decide)
          simp [Head.scan, Phase.next, Phase.nextHeader, hcr, hc, ht, he, hb] at hnext
        obtain ⟨q, hq, hat⟩ := nameAt_first hb
        obtain ⟨rfl, rfl⟩ := Prod.mk.inj (Option.some.inj (hnext.symm.trans hq))
        obtain rfl := Option.some.inj hact
        exact .name head (by simp) (by simpa using hb) hat
  | endLf head =>
      simp only [Head.scan, Phase.next] at hnext
      split at hnext
      case isFalse => exact absurd hnext (by simp)
      next hb =>
        obtain ⟨rfl, rfl⟩ : Phase.done = p ∧ Action.none = a := by simpa using hnext
        obtain rfl := Option.some.inj hact
        rw [hb, List.append_assoc]
        exact .done head
  | done head => exact absurd hnext (by simp [Head.scan, Phase.next])
  | @name head name p₀ hne htok hp =>
      rcases hp.of_next hne hnext with rfl | ⟨hb, rfl, hat⟩
      · by_cases hother : ∀ w : HeaderName, name.map lower ≠ w.bytes
        · rw [show (head.scan p₀).phase = p₀ from rfl, hp.colon_other hother] at hnext
          obtain ⟨rfl, rfl⟩ : Phase.value = p ∧ Action.none = a := by simpa using hnext
          obtain rfl := Option.some.inj hact
          rw [append_snoc]
          exact .value head ⟨hne, htok, hother⟩ (by simp)
        · obtain ⟨w, hw⟩ := not_forall_not.mp hother
          rw [show (head.scan p₀).phase = p₀ from rfl, hp.colon_known hw] at hnext
          cases w with
          | contentLength =>
              obtain ⟨rfl, rfl⟩ : Phase.leading = p ∧ Action.length = a := by
                simpa [Phase.afterName] using hnext
              have hnone : head.length = none := by
                cases hlength : head.length with
                | none => rfl
                | some n => simp [act, Head.scan, hlength] at hact
              obtain rfl : (⟨.leading, head.target.length, true, 0⟩ : Scan) = s' := by
                simpa [act, Head.scan, hnone] using hact
              rw [append_snoc]
              exact .leading head hnone ⟨hne, htok, hw⟩ (by simp)
          | transferEncoding => exact absurd hnext (by simp [Phase.afterName])
          | expect => exact absurd hnext (by simp [Phase.afterName])
      · obtain rfl := Option.some.inj hact
        rw [append_snoc]
        refine .name head (by simp) (fun c hc => ?_) hat
        rcases List.mem_append.mp hc with hc | hc
        · exact htok c hc
        · rw [List.mem_singleton.mp hc]; exact hb
  | @value head name value hname hvalue =>
      simp only [Head.scan, Phase.next] at hnext
      split at hnext
      next hb =>
        subst hb
        have hline : headerLine capacity head.length (headerBytes name value) = some head.length :=
          headerLine_iff.mpr ⟨name, value, rfl, hname.nonempty, hname.tokens, .other hname.other hvalue⟩
        exact feed_cr hline rfl rfl rfl rfl hs
      next =>
        split at hnext
        case isFalse => exact absurd hnext (by simp)
        next hb =>
          obtain ⟨rfl, rfl⟩ : Phase.value = p ∧ Action.none = a := by simpa using hnext
          obtain rfl := Option.some.inj hact
          rw [append_snoc, headerBytes_snoc]
          refine .value head hname fun c hc => ?_
          rcases List.mem_append.mp hc with hc | hc
          · exact hvalue c hc
          · rw [List.mem_singleton.mp hc]; exact hb
  | @leading head name before hlength hname hbefore =>
      simp only [Phase.next] at hnext
      split at hnext
      next hb =>
        obtain ⟨rfl, rfl⟩ : Phase.leading = p ∧ Action.none = a := by simpa using hnext
        obtain rfl := Option.some.inj hact
        rw [append_snoc, headerBytes_snoc]
        refine .leading head hlength hname fun c hc => ?_
        rcases List.mem_append.mp hc with hc | hc
        · exact hbefore c hc
        · rw [List.mem_singleton.mp hc]; simpa [blank] using hb
      next =>
        split at hnext
        case isFalse => exact absurd hnext (by simp)
        next hb =>
          obtain ⟨rfl, rfl⟩ : Phase.digits = p ∧ Action.digit = a := by simpa using hnext
          simp only [act] at hact
          split at hact
          case isTrue => exact absurd hact (by simp)
          next hle =>
            obtain rfl := Option.some.inj hact
            rw [append_snoc, headerBytes_snoc]
            exact .digits head hlength hname hbefore (by simp)
              ((bodyLength_cons hcapacity).mpr ⟨hb, by omega, rfl⟩)
  | @digits head name before digits n hlength hname hbefore hdigits hbody =>
      simp only [Phase.next] at hnext
      split at hnext
      next hb =>
        subst hb
        have hline := headerLine_length hname hbefore hdigits hbody (List.forall_mem_nil _)
        rw [List.append_nil, ← hlength] at hline
        exact feed_cr hline rfl rfl rfl rfl hs
      next =>
        split at hnext
        next hb =>
          obtain ⟨rfl, rfl⟩ : Phase.trailing = p ∧ Action.none = a := by simpa using hnext
          obtain rfl := Option.some.inj hact
          rw [append_snoc, headerBytes_snoc]
          exact .trailing head hlength hname hbefore hdigits hbody (by simpa [blank] using hb)
        next =>
          split at hnext
          case isFalse => exact absurd hnext (by simp)
          next hb =>
            obtain ⟨rfl, rfl⟩ : Phase.digits = p ∧ Action.digit = a := by simpa using hnext
            simp only [act] at hact
            split at hact
            case isTrue => exact absurd hact (by simp)
            next hle =>
              obtain rfl := Option.some.inj hact
              rw [append_snoc, headerBytes_snoc, append_snoc]
              exact .digits head hlength hname hbefore (by simp)
                (bodyLength_append hcapacity hbody hb (by omega))
  | @trailing head name before digits after n hlength hname hbefore hdigits hbody hafter =>
      simp only [Phase.next] at hnext
      split at hnext
      next hb =>
        subst hb
        have hline := headerLine_length hname hbefore hdigits hbody hafter
        rw [← hlength] at hline
        exact feed_cr hline rfl rfl rfl rfl hs
      next =>
        split at hnext
        case isFalse => exact absurd hnext (by simp)
        next hb =>
          obtain ⟨rfl, rfl⟩ : Phase.trailing = p ∧ Action.none = a := by simpa using hnext
          obtain rfl := Option.some.inj hact
          rw [append_snoc, headerBytes_snoc, append_snoc]
          refine .trailing head hlength hname hbefore hdigits hbody fun c hc => ?_
          rcases List.mem_append.mp hc with hc | hc
          · exact hafter c hc
          · rw [List.mem_singleton.mp hc]; simpa [blank] using hb
  | @valueLf head line length hline =>
      simp only [Phase.next] at hnext
      split at hnext
      case isFalse => exact absurd hnext (by simp)
      next hb =>
        obtain ⟨rfl, rfl⟩ : Phase.headers = p ∧ Action.none = a := by simpa using hnext
        obtain rfl := Option.some.inj hact
        have hbytes : linesBytes head.allLines ++ (line ++ [13]) ++ [b] =
            linesBytes (head.extend hline).allLines := by
          rw [head.extend_allLines hline, hb]
          simp [crlf]
        rw [hbytes]
        exact .headers (head.extend hline)

/-- What the machine has read from its start. -/
lemma reads_of_feedAll (hcapacity : capacity < 2 ^ 64) {text : List UInt8} {s : Scan}
    (h : feedAll capacity {} text = some s) : Reads capacity text s := by
  induction text using List.reverseRecOn generalizing s with
  | nil =>
      obtain rfl := Option.some.inj h
      exact .method (by simp) (by simp)
  | append_singleton text b ih =>
      rw [feedAll_append] at h
      obtain ⟨s₁, htext, hb⟩ := Option.bind_eq_some_iff.mp h
      rw [feedAll_cons, Option.bind_eq_some_iff] at hb
      obtain ⟨s₂, hb, hrest⟩ := hb
      obtain rfl := Option.some.inj hrest
      exact (ih htext).feed hcapacity hb

/-- **The machine accepts only heads.** -/
theorem exists_head_of_feedAll (hcapacity : capacity < 2 ^ 64) {text : List UInt8} {s : Scan}
    (h : feedAll capacity {} text = some s) (hdone : s.phase = .done) :
    ∃ head : Head capacity, text = head.bytes ∧ s = head.scan .done := by
  have hreads := reads_of_feedAll hcapacity h
  cases hreads with
  | done head => exact ⟨head, rfl, rfl⟩
  | name head hne htok hp =>
      obtain rfl : _ = Phase.done := hdone
      cases hp
  | _ => exact absurd hdone (by simp [Head.scan])

end Verbosec.Http
