import Mathlib.Data.FinEnum
import Mathlib.Data.List.TakeWhile
import Mathlib.Tactic.Common
import Verbosec.Http.Framing

/-!
# The grammar of a request head

* `RequestLine`, `Header` - the parts of a request line and of a header line that are accepted.
* `requestLine_iff`, `headerLine_iff` - the tests of the reference are the grammar.
* `Head` - a request line and header lines with their body length, `Head.bytes` its bytes.
* `Head.count_le_one` - at most one header declares a body length.
-/

namespace Verbosec.Http

/-! ## Classes of bytes -/

lemma token_ne {b : UInt8} (h : token b) : b ≠ 10 ∧ b ≠ 13 ∧ b ≠ 32 ∧ b ≠ 58 := by
  refine ⟨?_, ?_, ?_, ?_⟩ <;> rintro rfl <;> exact absurd h (by decide)

lemma targetByte_ne {b : UInt8} (h : targetByte b) : b ≠ 10 ∧ b ≠ 13 ∧ b ≠ 32 := by
  refine ⟨?_, ?_, ?_⟩ <;> rintro rfl <;> exact absurd h (by decide)

lemma fieldByte_ne {b : UInt8} (h : fieldByte b) : b ≠ 10 ∧ b ≠ 13 := by
  refine ⟨?_, ?_⟩ <;> rintro rfl <;> exact absurd h (by decide)

/-- The white space of a header value. -/
def blank (b : UInt8) : Bool := b = 32 || b = 9

lemma isWhite_eq_blank {b : UInt8} (h : fieldByte b) : isWhite b = blank b := by
  have hb := fieldByte_ne h
  have h12 : b ≠ 12 := by rintro rfl; exact absurd h (by decide)
  simp only [isWhite, blank, Bool.decide_or, List.mem_cons, List.not_mem_nil, or_false]
  grind

lemma blank_fieldByte {b : UInt8} (h : blank b) : fieldByte b := by
  simp only [blank, Bool.or_eq_true, decide_eq_true_eq] at h
  rcases h with rfl | rfl <;> rfl

lemma digitByte_fieldByte {b : UInt8} (h : digitByte b) : fieldByte b := by
  simp only [digitByte, fieldByte, Bool.and_eq_true, Bool.or_eq_true, decide_eq_true_eq] at *
  grind

lemma digitByte_not_blank {b : UInt8} (h : digitByte b) : ¬ blank b := by
  simp only [digitByte, blank, Bool.and_eq_true, Bool.or_eq_true, decide_eq_true_eq] at *
  grind

/-! ## The request line -/

/-- The method of a request line. -/
structure Method (method : List UInt8) : Prop where
  nonempty : method ≠ []
  short : method.length ≤ 8
  tokens : ∀ b ∈ method, token b

/-- The target of a request line. -/
structure Target (target : List UInt8) : Prop where
  origin : target.head? = some 47
  bounded : target.length ≤ 256
  bytes : ∀ b ∈ target, targetByte b

/-- The parts of a request line. -/
structure RequestLine (method target : List UInt8) (minor : UInt8) : Prop where
  method : Method method
  target : Target target
  minor : minor = 48 ∨ minor = 49

/-- The bytes of a request line. -/
def requestBytes (method target : List UInt8) (minor : UInt8) : List UInt8 :=
  method ++ 32 :: (target ++ 32 :: (versionPrefix ++ [minor]))

lemma intercalate_three (method target version : List UInt8) :
    [32].intercalate [method, target, version] = method ++ 32 :: (target ++ 32 :: version) := by
  simp [List.intercalate, List.intersperse]

/-- **The test of a request line is its grammar.** -/
theorem requestLine_iff {line : List UInt8} :
    requestLine line ↔
      ∃ method target minor, RequestLine method target minor ∧
        line = requestBytes method target minor := by
  constructor
  · intro h
    unfold requestLine at h
    split at h
    case h_2 => exact absurd h (by simp)
    case h_1 method target version hsplit =>
      have hline := @List.intercalate_splitOn _ line _ _ 32
      rw [hsplit, intercalate_three] at hline
      simp only [Bool.and_eq_true, Bool.or_eq_true, Bool.not_eq_true', decide_eq_true_eq,
        List.isEmpty_eq_false_iff, List.all_eq_true] at h
      obtain ⟨⟨⟨⟨⟨⟨hne, hshort⟩, htok⟩, horigin⟩, hbound⟩, htarget⟩, hversion⟩ := h
      rcases hversion with rfl | rfl
      · exact ⟨method, target, 48, ⟨⟨hne, hshort, htok⟩, ⟨horigin, hbound, htarget⟩, .inl rfl⟩, hline.symm⟩
      · exact ⟨method, target, 49, ⟨⟨hne, hshort, htok⟩, ⟨horigin, hbound, htarget⟩, .inr rfl⟩, hline.symm⟩
  · rintro ⟨method, target, minor, h, rfl⟩
    have hsplit : (requestBytes method target minor).splitOn 32 =
        [method, target, versionPrefix ++ [minor]] := by
      rw [requestBytes, ← intercalate_three]
      refine List.splitOn_intercalate 32 ?_ (by simp)
      intro l hl
      simp only [List.mem_cons, List.not_mem_nil, or_false] at hl
      rcases hl with rfl | rfl | rfl
      · exact fun hmem => (token_ne (h.method.tokens 32 hmem)).2.2.1 rfl
      · exact fun hmem => (targetByte_ne (h.target.bytes 32 hmem)).2.2 rfl
      · rcases h.minor with rfl | rfl <;> decide
    rw [requestLine, hsplit]
    simp only [Bool.and_eq_true, Bool.or_eq_true, Bool.not_eq_true', decide_eq_true_eq,
      List.isEmpty_eq_false_iff, List.all_eq_true, List.append_cancel_left_eq, List.cons.injEq,
      and_true]
    exact ⟨⟨⟨⟨⟨⟨h.method.nonempty, h.method.short⟩, h.method.tokens⟩, h.target.origin⟩,
      h.target.bounded⟩, h.target.bytes⟩, h.minor⟩

/-- A line without a line end. -/
def Plain (line : List UInt8) : Prop := line ≠ [] ∧ 10 ∉ line ∧ 13 ∉ line

lemma RequestLine.plain {method target : List UInt8} {minor : UInt8}
    (h : RequestLine method target minor) : Plain (requestBytes method target minor) := by
  have hm : ∀ b ∈ method, b ≠ 10 ∧ b ≠ 13 := fun b hb =>
    ⟨(token_ne (h.method.tokens b hb)).1, (token_ne (h.method.tokens b hb)).2.1⟩
  have ht : ∀ b ∈ target, b ≠ 10 ∧ b ≠ 13 := fun b hb =>
    ⟨(targetByte_ne (h.target.bytes b hb)).1, (targetByte_ne (h.target.bytes b hb)).2.1⟩
  have hv : ∀ b ∈ versionPrefix ++ [minor], b ≠ 10 ∧ b ≠ 13 := by
    rcases h.minor with rfl | rfl <;> decide +kernel
  refine ⟨by simp [requestBytes], ?_, ?_⟩
  all_goals
    intro hmem
    simp only [requestBytes, List.mem_append, List.mem_cons] at hmem
    grind

/-! ## A header line -/

/-- The header names that the machine recognises. -/
inductive HeaderName where
  | contentLength | transferEncoding | expect
  deriving DecidableEq, Repr

/-- The bytes of a recognised header name. -/
def HeaderName.bytes : HeaderName → List UInt8
  | .contentLength => Http.contentLength
  | .transferEncoding => Http.transferEncoding
  | .expect => expectName

/-- A header with name `name` and value `value` is accepted, from one declared body length to the
next. -/
inductive Header (capacity : Nat) (name : List UInt8) :
    Option Nat → List UInt8 → Option Nat → Prop
  /-- any header that the machine does not recognise -/
  | other {length value} (hname : ∀ w : HeaderName, name.map lower ≠ w.bytes)
      (hvalue : ∀ b ∈ value, fieldByte b) : Header capacity name length value length
  /-- the first declaration of a body length -/
  | contentLength {before digits after n} (hname : name.map lower = HeaderName.bytes .contentLength)
      (hbefore : ∀ b ∈ before, blank b) (hafter : ∀ b ∈ after, blank b) (hdigits : digits ≠ [])
      (hlength : bodyLength capacity digits 0 = some n) :
      Header capacity name none (before ++ digits ++ after) (some n)

lemma bodyLength_digits {capacity n m : Nat} {digits : List UInt8}
    (h : bodyLength capacity digits n = some m) : ∀ b ∈ digits, digitByte b := by
  induction digits generalizing n with
  | nil => simp
  | cons b bs ih =>
      simp only [bodyLength] at h
      split at h
      · exact absurd h (by simp)
      · next hb =>
          split at h
          · exact absurd h (by simp)
          · split at h
            · exact absurd h (by simp)
            · simpa using ⟨by simpa using hb, ih h⟩

lemma dropWhile_append_not {p : UInt8 → Bool} {before rest : List UInt8}
    (hbefore : ∀ b ∈ before, p b) (hrest : ∀ b ∈ rest.head?, ¬ p b) :
    (before ++ rest).dropWhile p = rest := by
  rw [List.dropWhile_append_of_pos hbefore]
  cases rest with
  | nil => rfl
  | cons b bs => simp [show p b = false by simpa using hrest b rfl]

/-- Trimming removes the white space around a text that neither starts nor ends with one. -/
lemma trimAscii_append {before text after : List UInt8} (hbefore : ∀ b ∈ before, isWhite b)
    (hafter : ∀ b ∈ after, isWhite b) (htext : text ≠ []) (hwhite : ∀ b ∈ text, ¬ isWhite b) :
    trimAscii (before ++ text ++ after) = text := by
  have hhead : ∀ b ∈ (text ++ after).head?, ¬ isWhite b := by
    rw [List.head?_append_of_ne_nil _ htext]
    exact fun b hb => hwhite b (List.mem_of_mem_head? hb)
  have hlast : ∀ b ∈ text.reverse.head?, ¬ isWhite b := fun b hb =>
    hwhite b (List.mem_reverse.mp (List.mem_of_mem_head? hb))
  rw [trimAscii, List.append_assoc, dropWhile_append_not hbefore hhead, List.reverse_append,
    dropWhile_append_not (by simpa using hafter) hlast, List.reverse_reverse]

/-- Trimming splits off white space on both sides. -/
lemma exists_trimAscii (value : List UInt8) : ∃ before after,
    value = before ++ trimAscii value ++ after ∧ (∀ b ∈ before, isWhite b) ∧
      ∀ b ∈ after, isWhite b := by
  set rest := value.dropWhile isWhite with hrest
  refine ⟨value.takeWhile isWhite, (rest.reverse.takeWhile isWhite).reverse, ?_, ?_, ?_⟩
  · have hback : trimAscii value ++ (rest.reverse.takeWhile isWhite).reverse = rest := by
      rw [trimAscii, ← List.reverse_append, List.takeWhile_append_dropWhile, List.reverse_reverse]
    rw [List.append_assoc, hback, hrest, List.takeWhile_append_dropWhile]
  · exact fun b hb => List.mem_takeWhile_imp hb
  · exact fun b hb => List.mem_takeWhile_imp (List.mem_reverse.mp hb)

/-- The bytes of a header line. -/
def headerBytes (name value : List UInt8) : List UInt8 := name ++ 58 :: value

/-- The reference on a line with a colon after a name. -/
lemma headerLine_bytes {capacity : Nat} {length : Option Nat} {name value : List UInt8}
    (hname : 58 ∉ name) :
    headerLine capacity length (headerBytes name value) =
      if name ≠ [] ∧ (∀ b ∈ name, token b) ∧ ∀ b ∈ value, fieldByte b then
        if name.map lower = HeaderName.bytes .transferEncoding ∨
            name.map lower = HeaderName.bytes .expect then none
        else if name.map lower = HeaderName.bytes .contentLength then
          if length.isSome ∨ trimAscii value = [] then none
          else (bodyLength capacity (trimAscii value) 0).map some
        else some length
      else none := by
  have hidx : (name ++ 58 :: value).idxOf? 58 = some name.length := by
    refine List.idxOf?_eq_some_iff.mpr ⟨by simp, by simp, fun j hj => ?_⟩
    rw [List.getElem_append_left hj]
    exact fun h => hname (h ▸ List.getElem_mem hj)
  have hdrop : (name ++ 58 :: value).drop (name.length + 1) = value := by simp [List.drop_append]
  have hbytes : ∀ w : HeaderName, eqIgnoreCase name w.bytes = decide (name.map lower = w.bytes) := by
    intro w; cases w <;> rfl
  have hte := hbytes .transferEncoding
  have hexpect := hbytes .expect
  have hlength := hbytes .contentLength
  simp only [HeaderName.bytes] at hte hexpect hlength ⊢
  rw [headerLine, headerBytes, hidx]
  simp only [List.take_left', hdrop, hte, hexpect, hlength, Bool.or_eq_true,
    Bool.not_eq_true', List.isEmpty_iff, List.all_eq_false]
  by_cases hok : name ≠ [] ∧ (∀ b ∈ name, token b) ∧ ∀ b ∈ value, fieldByte b
  · rw [if_pos hok, if_neg (by grind)]
    grind
  · rw [if_neg hok, if_pos (by grind)]

/-- A line with a colon is a header line. -/
lemma headerBytes_of_idxOf {line : List UInt8} {i : Nat} (h : line.idxOf? 58 = some i) :
    line = headerBytes (line.take i) (line.drop (i + 1)) ∧ 58 ∉ line.take i := by
  obtain ⟨hi, hget, hbefore⟩ := List.idxOf?_eq_some_iff.mp h
  constructor
  · rw [headerBytes, ← hget, List.getElem_cons_drop, List.take_append_drop]
  · intro hmem
    obtain ⟨j, hj, hjget⟩ := List.mem_iff_getElem.mp hmem
    rw [List.length_take] at hj
    rw [List.getElem_take] at hjget
    exact hbefore j (by omega) hjget

/-- **The test of a header line is its grammar.** -/
theorem headerLine_iff {capacity : Nat} {length length' : Option Nat} {line : List UInt8} :
    headerLine capacity length line = some length' ↔
      ∃ name value, line = headerBytes name value ∧ name ≠ [] ∧ (∀ b ∈ name, token b) ∧
        Header capacity name length value length' := by
  constructor
  · intro h
    obtain ⟨i, hi⟩ : ∃ i, line.idxOf? 58 = some i := by
      cases hidx : line.idxOf? 58 with
      | none => simp [headerLine, hidx] at h
      | some i => exact ⟨i, rfl⟩
    obtain ⟨hline, hcolon⟩ := headerBytes_of_idxOf hi
    generalize line.take i = name at hline hcolon
    generalize line.drop (i + 1) = value at hline
    subst hline
    rw [headerLine_bytes hcolon] at h
    split at h
    case isFalse => exact absurd h (by simp)
    next hok =>
    obtain ⟨hne, htok, hfield⟩ := hok
    refine ⟨name, value, rfl, hne, htok, ?_⟩
    split at h
    case isTrue => exact absurd h (by simp)
    next hrefused =>
    obtain ⟨hte, hexpect⟩ := not_or.mp hrefused
    split at h
    next hlength =>
        split at h
        case isTrue => exact absurd h (by simp)
        next hnone =>
        obtain ⟨hnone, hempty⟩ := not_or.mp hnone
        obtain ⟨n, hn, rfl⟩ := Option.map_eq_some_iff.mp h
        obtain ⟨before, after, hvalue, hbefore, hafter⟩ := exists_trimAscii value
        have hwhite : ∀ b ∈ value, isWhite b → blank b := fun b hb hw => by
          rwa [← isWhite_eq_blank (hfield b hb)]
        obtain rfl := Option.not_isSome_iff_eq_none.mp hnone
        rw [hvalue] at hwhite ⊢
        refine .contentLength hlength (fun b hb => ?_) (fun b hb => ?_) hempty hn
        · exact hwhite b (by simp [hb]) (hbefore b hb)
        · exact hwhite b (by simp [hb]) (hafter b hb)
    next hlength =>
        obtain rfl : length = length' := by simpa using h
        refine .other (fun w => ?_) hfield
        cases w with
        | contentLength => exact hlength
        | transferEncoding => exact hte
        | expect => exact hexpect
  · rintro ⟨name, value, rfl, hne, htok, hheader⟩
    have hcolon : 58 ∉ name := fun hmem => (token_ne (htok 58 hmem)).2.2.2 rfl
    rw [headerLine_bytes hcolon]
    cases hheader with
    | other hname hvalue =>
        rw [if_pos ⟨hne, htok, hvalue⟩, if_neg (by simp [hname]), if_neg (hname _)]
    | @contentLength before digits after n hname hbefore hafter hdigits hlength =>
        have hdig := bodyLength_digits hlength
        have hfield : ∀ b ∈ before ++ digits ++ after, fieldByte b := by
          simp only [List.mem_append]
          rintro b ((hb | hb) | hb)
          · exact blank_fieldByte (hbefore b hb)
          · exact digitByte_fieldByte (hdig b hb)
          · exact blank_fieldByte (hafter b hb)
        have hwhite : ∀ b ∈ before ++ digits ++ after, isWhite b = blank b := fun b hb =>
          isWhite_eq_blank (hfield b hb)
        have htrim : trimAscii (before ++ digits ++ after) = digits := by
          refine trimAscii_append (fun b hb => ?_) (fun b hb => ?_) hdigits fun b hb => ?_
          · rw [hwhite b (by simp [hb])]; exact hbefore b hb
          · rw [hwhite b (by simp [hb])]; exact hafter b hb
          · rw [hwhite b (by simp [hb])]; exact digitByte_not_blank (hdig b hb)
        have hother : ¬ (name.map lower = HeaderName.bytes .transferEncoding ∨
            name.map lower = HeaderName.bytes .expect) := by rw [hname]; decide
        rw [if_pos ⟨hne, htok, hfield⟩, if_neg hother, if_pos hname, htrim,
          if_neg (by simp [hdigits]), hlength, Option.map_some]

lemma headerLine_plain {capacity : Nat} {length length' : Option Nat} {line : List UInt8}
    (h : headerLine capacity length line = some length') : Plain line := by
  obtain ⟨name, value, rfl, hne, htok, hheader⟩ := headerLine_iff.mp h
  have hvalue : ∀ b ∈ value, b ≠ 10 ∧ b ≠ 13 := by
    cases hheader with
    | other _ hvalue => exact fun b hb => fieldByte_ne (hvalue b hb)
    | contentLength _ hbefore hafter _ hlength =>
        have hdig := bodyLength_digits hlength
        simp only [List.mem_append]
        rintro b ((hb | hb) | hb)
        · exact fieldByte_ne (blank_fieldByte (hbefore b hb))
        · exact fieldByte_ne (digitByte_fieldByte (hdig b hb))
        · exact fieldByte_ne (blank_fieldByte (hafter b hb))
  have hname : ∀ b ∈ name, b ≠ 10 ∧ b ≠ 13 := fun b hb =>
    ⟨(token_ne (htok b hb)).1, (token_ne (htok b hb)).2.1⟩
  refine ⟨by simp [headerBytes], ?_, ?_⟩
  all_goals
    intro hmem
    simp only [headerBytes, List.mem_append, List.mem_cons] at hmem
    grind

/-! ## A request head -/

/-- Does a header line declare a body length? -/
def declaresLength (line : List UInt8) : Bool :=
  (line.takeWhile (· ≠ 58)).map lower = contentLength

/-- An accepted declaration is the first. -/
lemma headerLine_count {capacity : Nat} {length length' : Option Nat} {line : List UInt8}
    (h : headerLine capacity length line = some length') :
    length'.isSome.toNat = length.isSome.toNat + (declaresLength line).toNat := by
  obtain ⟨name, value, rfl, hne, htok, hheader⟩ := headerLine_iff.mp h
  have hname : (headerBytes name value).takeWhile (· ≠ 58) = name := by
    rw [headerBytes, List.takeWhile_append_of_pos]
    · simp
    · exact fun b hb => by simpa using (token_ne (htok b hb)).2.2.2
  cases hheader with
  | other hother =>
      have : declaresLength (headerBytes name value) = false := 
        decide_eq_false (by rw [hname]; exact hother .contentLength)
      simp [this]
  | contentLength hlen =>
      have : declaresLength (headerBytes name _) = true := 
        decide_eq_true (by rw [hname]; exact hlen)
      rw [this]
      rfl

/-- The bytes of lines, each with its line end. -/
def linesBytes (lines : List (List UInt8)) : List UInt8 := lines.flatMap (· ++ crlf)

/-- A request head that is accepted within a capacity. -/
structure Head (capacity : Nat) where
  /-- the method of the request line -/
  method : List UInt8
  /-- the target of the request line -/
  target : List UInt8
  /-- the minor version -/
  minor : UInt8
  /-- the header lines -/
  lines : List (List UInt8)
  /-- the declared body length -/
  length : Option Nat
  request : RequestLine method target minor
  headers : lines.foldlM (headerLine capacity) none = some length

namespace Head

variable {capacity : Nat} (head : Head capacity)

/-- The lines of a head. -/
def allLines : List (List UInt8) :=
  requestBytes head.method head.target head.minor :: head.lines

/-- The bytes of a head, with the blank line. -/
def bytes : List UInt8 := linesBytes head.allLines ++ crlf

/-- The length of the whole request. -/
def total : Nat := head.bytes.length + head.length.getD 0

lemma foldlM_headerLine {P : List UInt8 → Prop} {lines : List (List UInt8)}
    {length length' : Option Nat} (h : lines.foldlM (headerLine capacity) length = some length')
    (hP : ∀ {length length' line}, headerLine capacity length line = some length' → P line) :
    ∀ line ∈ lines, P line := by
  induction lines generalizing length with
  | nil => simp
  | cons line lines ih =>
      obtain ⟨length₁, hline, hrest⟩ := Option.bind_eq_some_iff.mp h
      simpa using ⟨hP hline, ih hrest⟩

/-- The lines of a head have no line end in them. -/
lemma plain : ∀ line ∈ head.allLines, Plain line := by
  simp only [allLines, List.forall_mem_cons]
  exact ⟨head.request.plain, foldlM_headerLine head.headers headerLine_plain⟩

/-- **At most one header of a head declares a body length.** -/
theorem count_le_one : head.lines.countP declaresLength ≤ 1 := by
  have hcount : ∀ {lines : List (List UInt8)} {length length' : Option Nat},
      lines.foldlM (headerLine capacity) length = some length' →
      length'.isSome.toNat = length.isSome.toNat + lines.countP declaresLength := by
    intro lines
    induction lines with
    | nil => intro length length' h; simp_all
    | cons line lines ih =>
        intro length length' h
        obtain ⟨length₁, hline, hrest⟩ := Option.bind_eq_some_iff.mp h
        rw [ih hrest, headerLine_count hline, List.countP_cons]
        cases declaresLength line <;> simp; omega
  have h := hcount head.headers
  have hle := Bool.toNat_le head.length.isSome
  simp at h
  omega

end Head

end Verbosec.Http
