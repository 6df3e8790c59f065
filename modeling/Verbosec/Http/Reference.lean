import Verbosec.Http.Grammar

/-!
# The reference by grammar

* `findBlank_bytes`, `splitInclusive_linesBytes` - the scans of the reference on the bytes of lines.
* `reference_bytes` - the reference on a stream that starts with a head.
* `exists_head` - a stream that the reference accepts starts with a head.
-/

namespace Verbosec.Http

variable {capacity : Nat}

/-! ## Scans -/

lemma isPrefixOf_cons_of_ne {a b : UInt8} (h : a ≠ b) (l l' : List UInt8) :
    (a :: l).isPrefixOf (b :: l') = false := by
  simp [List.isPrefixOf_cons_cons, h]

lemma findBlank_cons_of_ne {b : UInt8} (h : 13 ≠ b) (bs : List UInt8) :
    findBlank (b :: bs) = (findBlank bs).map (· + 1) := by
  rw [findBlank, show crlf ++ crlf = 13 :: 10 :: crlf from rfl, isPrefixOf_cons_of_ne h,
    if_neg (by simp)]

lemma findBlank_line {line : List UInt8} (h : 13 ∉ line) (tail : List UInt8) :
    findBlank (line ++ crlf ++ tail) =
      if crlf.isPrefixOf tail then some line.length
      else (findBlank tail).map (· + (line.length + 2)) := by
  induction line with
  | nil =>
      have hcr : (crlf ++ crlf).isPrefixOf (13 :: 10 :: tail) = crlf.isPrefixOf tail := by
        simp [crlf]
      rw [show ([] : List UInt8) ++ crlf ++ tail = 13 :: 10 :: tail from rfl, findBlank, hcr,
        findBlank_cons_of_ne (by decide), Option.map_map]
      rfl
  | cons b bs ih =>
      obtain ⟨hb, hbs⟩ := not_or.mp (mt List.mem_cons.mpr h)
      rw [List.cons_append, List.cons_append, findBlank_cons_of_ne hb, ih hbs]
      split
      · rfl
      · rw [Option.map_map, List.length_cons]
        rfl

/-- The first blank line comes right after the last line, none of the lines being empty. -/
lemma findBlank_linesBytes {lines : List (List UInt8)} (h : ∀ line ∈ lines, Plain line)
    (hne : lines ≠ []) (rest : List UInt8) :
    findBlank (linesBytes lines ++ crlf ++ rest) = some ((linesBytes lines).length - 2) := by
  induction lines with
  | nil => exact absurd rfl hne
  | cons line lines ih =>
      obtain ⟨hplain, hlines⟩ := List.forall_mem_cons.mp h
      have hbytes : linesBytes (line :: lines) = line ++ crlf ++ linesBytes lines := rfl
      have hlen : 2 ≤ (linesBytes (line :: lines)).length := by simp [hbytes, crlf]; omega
      rw [hbytes, List.append_assoc _ _ crlf, List.append_assoc _ _ rest, findBlank_line hplain.2.2]
      cases lines with
      | nil => simp [linesBytes, crlf]
      | cons line' lines =>
          obtain ⟨b, bs, rfl⟩ := List.exists_cons_of_ne_nil (hlines line' (by simp)).1
          have hb : 13 ≠ b := fun hb => (hlines (b :: bs) (by simp)).2.2 (by simp [hb])
          have hstart : crlf.isPrefixOf (linesBytes ((b :: bs) :: lines) ++ crlf ++ rest) = false :=
            isPrefixOf_cons_of_ne hb _ _
          have hlen' : 2 ≤ (linesBytes ((b :: bs) :: lines)).length := by
            simp [linesBytes, crlf]; omega
          rw [hstart, if_neg (by simp), ih hlines (by simp), Option.map_some, List.length_append,
            List.length_append]
          simp only [crlf, List.length_cons, List.length_nil, Option.some.injEq]
          omega

/-- Lines are split at their line feeds. -/
lemma splitInclusive_linesBytes {lines : List (List UInt8)} (h : ∀ line ∈ lines, Plain line) :
    splitInclusive (linesBytes lines) = lines.map (· ++ crlf) := by
  have hline : ∀ (line rest : List UInt8), 10 ∉ line →
      splitInclusive (line ++ 10 :: rest) = (line ++ [10]) :: splitInclusive rest := by
    intro line rest hlf
    induction line with
    | nil => simp [splitInclusive]
    | cons b bs ih =>
        obtain ⟨hb, hbs⟩ := not_or.mp (mt List.mem_cons.mpr hlf)
        simp [splitInclusive, ih hbs, Ne.symm hb]
  induction lines with
  | nil => rfl
  | cons line lines ih =>
      obtain ⟨hplain, hlines⟩ := List.forall_mem_cons.mp h
      have hlf : 10 ∉ line ++ [13] := by simpa using hplain.2.1
      have hbytes : linesBytes (line :: lines) = (line ++ [13]) ++ 10 :: linesBytes lines := by
        simp [linesBytes, crlf]
      rw [hbytes, hline _ _ hlf, ih hlines]
      simp [crlf]

lemma flatten_splitInclusive (l : List UInt8) : (splitInclusive l).flatten = l := by
  induction l with
  | nil => rfl
  | cons b bs ih =>
      simp only [splitInclusive]
      split
      · simp [ih]
      · split
        next hnil => simpa [hnil] using ih
        next line lines hcons => simpa [hcons] using ih

lemma stripSuffix_eq_some {suffix l l' : List UInt8} :
    stripSuffix suffix l = some l' ↔ l = l' ++ suffix := by
  rw [stripSuffix]
  constructor
  · intro h
    split at h
    case isFalse => exact absurd h (by simp)
    next hsuffix =>
      obtain ⟨l₀, rfl⟩ := List.isSuffixOf_iff_suffix.mp hsuffix
      simp_all
  · rintro rfl
    simp

lemma findBlank_eq_some {l : List UInt8} {i : Nat} (h : findBlank l = some i) :
    l = l.take i ++ crlf ++ crlf ++ l.drop (i + 4) := by
  induction l generalizing i with
  | nil => simp [findBlank] at h
  | cons b bs ih =>
      rw [findBlank] at h
      split at h
      next hstart =>
        obtain rfl : 0 = i := by simpa using h
        obtain ⟨rest, hrest⟩ := List.isPrefixOf_iff_prefix.mp hstart
        rw [← hrest]
        rfl
      next =>
        obtain ⟨j, hj, rfl⟩ := Option.map_eq_some_iff.mp h
        simpa using ih hj

/-- The headers of the reference, each line being stripped first. -/
lemma headerLines_eq_some {lines : List (List UInt8)} {length length' : Option Nat} :
    headerLines capacity lines length = some length' ↔
      ∃ stripped : List (List UInt8), lines = stripped.map (· ++ crlf) ∧
        stripped.foldlM (headerLine capacity) length = some length' := by
  induction lines generalizing length with
  | nil =>
      constructor
      · exact fun h => ⟨[], rfl, h⟩
      · rintro ⟨stripped, hlines, h⟩
        obtain rfl : stripped = [] := by simpa using hlines.symm
        exact h
  | cons line lines ih =>
      rw [headerLines]
      constructor
      · intro h
        split at h
        · exact absurd h (by simp)
        next line₀ hstrip =>
        obtain ⟨length₁, hline, hrest⟩ := Option.bind_eq_some_iff.mp h
        obtain ⟨stripped, rfl, hfold⟩ := ih.mp hrest
        refine ⟨line₀ :: stripped, by rw [stripSuffix_eq_some.mp hstrip, List.map_cons], ?_⟩
        exact Option.bind_eq_some_iff.mpr ⟨length₁, hline, hfold⟩
      · rintro ⟨stripped, hlines, hfold⟩
        cases stripped with
        | nil => exact absurd hlines (by simp)
        | cons line₀ stripped =>
            obtain ⟨rfl, rfl⟩ := List.cons.inj hlines
            obtain ⟨length₁, hline, hrest⟩ := Option.bind_eq_some_iff.mp hfold
            rw [stripSuffix_eq_some.mpr rfl]
            exact Option.bind_eq_some_iff.mpr ⟨length₁, hline, ih.mpr ⟨stripped, rfl, hrest⟩⟩

/-! ## The reference and heads -/

/-- **The reference on a stream that starts with a head** decides by the length of the request. -/
theorem reference_bytes (head : Head capacity) (rest : List UInt8) :
    reference (head.bytes ++ rest) capacity =
      if capacity < head.total then .invalid
      else if (head.bytes ++ rest).length < head.total then .more
      else .complete head.total := by
  have hlen : 2 ≤ (linesBytes head.allLines).length := by
    simp [Head.allLines, linesBytes, crlf]; omega
  have hblank : findBlank (head.bytes ++ rest) = some ((linesBytes head.allLines).length - 2) :=
    findBlank_linesBytes head.plain (by simp [Head.allLines]) rest
  have hstop : (linesBytes head.allLines).length - 2 + 4 = head.bytes.length := by
    simp [Head.bytes, crlf]; omega
  have htake : (head.bytes ++ rest).take (head.bytes.length - 2) = linesBytes head.allLines := by
    rw [Head.bytes, List.append_assoc]
    simp [crlf]
  have hsplit : splitInclusive (linesBytes head.allLines) =
      (requestBytes head.method head.target head.minor ++ crlf) ::
        head.lines.map (· ++ crlf) := splitInclusive_linesBytes head.plain
  have hrequest : requestLine (requestBytes head.method head.target head.minor) :=
    requestLine_iff.mpr ⟨_, _, _, head.request, rfl⟩
  have hheaders : headerLines capacity (head.lines.map (· ++ crlf)) none = some head.length :=
    headerLines_eq_some.mpr ⟨_, rfl, head.headers⟩
  have hle : head.bytes.length ≤ head.total := Nat.le_add_right _ _
  have hstrip : stripSuffix crlf (requestBytes head.method head.target head.minor ++ crlf) =
      some (requestBytes head.method head.target head.minor) := stripSuffix_eq_some.mpr rfl
  rw [reference, hblank, Option.map_some, hstop]
  simp only [htake, hsplit, hstrip, hrequest, hheaders, Bool.not_true, Bool.false_eq_true, if_false,
    show head.bytes.length + head.length.getD 0 = head.total from rfl]
  split
  · rw [if_pos (by omega)]
  · rfl

/-- **A stream that the reference accepts starts with a head.** -/
theorem exists_head {data : List UInt8} {n : Nat} (h : reference data capacity = .complete n) :
    ∃ (head : Head capacity) (rest : List UInt8), data = head.bytes ++ rest ∧ n = head.total := by
  have hdone := h
  rw [reference] at h
  cases hblank : findBlank data with
  | none =>
      rw [hblank] at h
      simp only [Option.map_none] at h
      split at h <;> exact absurd h (by simp)
  | some i =>
      rw [hblank] at h
      simp only [Option.map_some] at h
      split at h
      case isTrue => exact absurd h (by simp)
      next =>
      split at h
      · exact absurd h (by simp)
      next line lines hsplit =>
      split at h
      · exact absurd h (by simp)
      next line₀ hstrip =>
      split at h
      case isTrue => exact absurd h (by simp)
      next hrequest =>
      split at h
      · exact absurd h (by simp)
      next length hheaders =>
      obtain ⟨method, target, minor, hline, rfl⟩ := requestLine_iff.mp (by simpa using hrequest)
      obtain ⟨stripped, rfl, hfold⟩ := headerLines_eq_some.mp hheaders
      let head : Head capacity := ⟨method, target, minor, stripped, length, hline, hfold⟩
      have hdata := findBlank_eq_some hblank
      have hlines : data.take (i + 4 - 2) = linesBytes head.allLines := by
        rw [← flatten_splitInclusive (data.take _), hsplit, stripSuffix_eq_some.mp hstrip]
        simp [head, Head.allLines, linesBytes, List.flatMap_def]
      have hi : i + 4 ≤ data.length := by
        have := congrArg List.length hdata
        simp [crlf] at this
        omega
      have htake : data.take (i + 4 - 2) = data.take i ++ crlf := by
        conv_lhs => rw [hdata]
        rw [List.append_assoc, List.append_assoc, List.take_append, List.length_take]
        simp [crlf, show min i data.length = i by omega, List.take_take]
      have hbytes : data = head.bytes ++ data.drop (i + 4) := by
        rw [Head.bytes, ← hlines, htake]
        exact hdata
      refine ⟨head, data.drop (i + 4), hbytes, ?_⟩
      rw [hbytes, reference_bytes] at hdone
      split at hdone
      case isTrue => exact absurd hdone (by simp)
      split at hdone
      case isTrue => exact absurd hdone (by simp)
      exact (Frame.complete.inj hdone).symm

end Verbosec.Http
