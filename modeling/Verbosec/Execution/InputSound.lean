import Verbosec.Execution.InputPosition

/-!
# The scanner of execution input follows its grammar

* `reads_string`, `reads_number`, `reads_value` - the tokens.
* `reads_object`, `reads_records` - flat objects, and arrays of them.
* `parse_iff` - a text is read exactly if it is a document of the grammar, as what it denotes; on
  every other text there is an error at a byte.
-/

namespace Verbosec.Execution.Input

open Verbosec.Interpreter Verbosec.Lib

variable {text input : List Char} {position : Nat}

/-! ## Escapes -/

lemma lt_of_asciiBind {α : Type} {f : UInt8 → Option α} {c : Char} {a : α}
    (h : asciiBind f c = some a) : c.toNat < 128 := by
  by_contra hc
  rw [asciiBind, if_neg hc] at h
  cases h

lemma hexDigit_of_le {b : UInt8} (hb : 128 ≤ b.toNat) : hexDigit b = none := by
  simp only [hexDigit, UInt8.le_iff_toNat_le]
  rw [if_neg (by simp; omega), if_neg (by simp; omega), if_neg (by simp; omega)]

lemma reads_hexDigits (count value : Nat) (h : At text position input) :
    Reads text (Reader.hexDigits text count value position) (HexAt count value input) := by
  induction count generalizing value position input with
  | zero => exact Reads.ok value h fun _ _ => Iff.rfl
  | succ count ih =>
      rw [Reader.hexDigits, byteAt_bind (fun _ => hexDigit_of_le) h]
      cases input with
      | nil =>
          refine Reads.error _ _ ?_
          rintro n rest ⟨c, input', digit, hinput, -⟩
          cases hinput
      | cons c input =>
          rw [List.head?_cons, Option.bind_some]
          rcases hdigit : asciiBind hexDigit c with _ | digit
          · refine Reads.error _ _ ?_
            rintro n rest ⟨c', input', digit', hinput, hdigit', -⟩
            cases hinput
            rw [hdigit] at hdigit'
            cases hdigit'
          · refine (ih (value * 16 + digit) (h.cons_of_lt (lt_of_asciiBind hdigit))).of_iff fun n rest => ?_
            constructor
            · rintro ⟨c', input', digit', hinput, hdigit', hrest⟩
              cases hinput
              rw [hdigit] at hdigit'
              cases hdigit'
              exact hrest
            · exact fun hrest => ⟨c, input, digit, rfl, hdigit, hrest⟩

lemma reads_lowSurrogate (code : Nat) (h : At text position input) :
    Reads text (Reader.lowSurrogate text code position) fun n rest =>
      ∃ middle low, input = '\\' :: 'u' :: middle ∧ HexAt 4 0 middle low rest ∧ Low low ∧
        n = 0x10000 + (code - 0xd800) * 1024 + low - 0xdc00 := by
  rw [Reader.lowSurrogate, sliceFrom_of_at h]
  dsimp only
  split_ifs with hu
  · obtain ⟨middle, rfl⟩ := List.isPrefixOf_iff_prefix.mp hu
    have hat : At text (position + 2) middle := h.append (s := ['\\', 'u'])
    refine Reads.of_iff (Reads.bind (reads_hexDigits 4 0 hat) (S := fun low rest n rest' =>
      Low low ∧ n = 0x10000 + (code - 0xd800) * 1024 + low - 0xdc00 ∧ rest' = rest)
      fun low rest position hat _ => ?_) fun n rest => ?_
    · dsimp only
      split_ifs with hlow
      · exact Reads.ok _ hat fun _ _ => ⟨fun h => h.2, fun h => ⟨hlow, h⟩⟩
      · exact Reads.error _ _ fun _ _ h => hlow h.1
    · constructor
      · rintro ⟨middle', low, hmiddle, hhex, hlow, hn⟩
        cases hmiddle
        exact ⟨low, rest, hhex, hlow, hn, rfl⟩
      · rintro ⟨low, rest', hhex, hlow, hn, rfl⟩
        exact ⟨middle, low, rfl, hhex, hlow, hn⟩
  · refine Reads.error _ _ ?_
    rintro n rest ⟨middle, low, rfl, -⟩
    exact hu (List.isPrefixOf_iff_prefix.mpr ⟨middle, rfl⟩)

lemma reads_unicodeEscape (h : At text position input) :
    Reads text (Reader.unicodeEscape text position) fun c rest =>
      ∃ n, CodeAt input n rest ∧ n.isValidChar ∧ c = Char.ofNat n := by
  have hcode : Reads text (Reader.hex text position >>= fun r =>
      if 0xd800 ≤ r.1 ∧ r.1 ≤ 0xdbff then Reader.lowSurrogate text r.1 r.2 else .ok r)
      (CodeAt input) := by
    refine Reads.of_iff (Reads.bind (reads_hexDigits 4 0 h) (S := fun code middle n rest =>
      ¬ High code ∧ n = code ∧ rest = middle ∨
        High code ∧ ∃ middle' low, middle = '\\' :: 'u' :: middle' ∧ HexAt 4 0 middle' low rest ∧
          Low low ∧ n = 0x10000 + (code - 0xd800) * 1024 + low - 0xdc00)
      fun code middle position hat _ => ?_) fun n rest => Iff.rfl
    dsimp only
    split_ifs with hhigh
    · exact (reads_lowSurrogate code hat).of_iff fun n rest =>
        ⟨fun h => h.elim (fun h => absurd hhigh h.1) (·.2), fun h => .inr ⟨hhigh, h⟩⟩
    · exact Reads.ok code hat fun n rest =>
        ⟨fun h => h.elim (·.2) (fun h => absurd h.1 hhigh), fun h => .inl ⟨hhigh, h⟩⟩
  have hassoc : Reader.unicodeEscape text position =
      (Reader.hex text position >>= fun r =>
        if 0xd800 ≤ r.1 ∧ r.1 ≤ 0xdbff then Reader.lowSurrogate text r.1 r.2 else .ok r) >>=
      fun r => if r.1.isValidChar then .ok (Char.ofNat r.1, r.2)
        else .error (.error r.2 "invalid Unicode scalar") := by
    rw [Reader.unicodeEscape, bind_assoc]
    refine congrArg _ (funext fun r => ?_)
    dsimp only
    split_ifs <;> rfl
  rw [hassoc]
  refine Reads.of_iff (Reads.bind hcode (S := fun n middle c rest =>
    n.isValidChar ∧ c = Char.ofNat n ∧ rest = middle) fun n middle position hat _ => ?_)
    fun c rest => ?_
  · dsimp only
    split_ifs with hvalid
    · exact Reads.ok _ hat fun _ _ => ⟨fun h => h.2, fun h => ⟨hvalid, h⟩⟩
    · exact Reads.error _ _ fun _ _ h => hvalid h.1
  · constructor
    · rintro ⟨n, hcode, hvalid, hc⟩
      exact ⟨n, rest, hcode, hvalid, hc, rfl⟩
    · rintro ⟨n, rest', hcode, hvalid, hc, rfl⟩
      exact ⟨n, hcode, hvalid, hc⟩

lemma lookup_simpleEscapes_of_le {b : UInt8} (hb : 128 ≤ b.toNat) :
    simpleEscapes.lookup b = none := by
  have hne : ∀ n : UInt8, n.toNat < 128 → (b == n) = false := by
    intro n hn
    refine beq_eq_false_iff_ne.mpr ?_
    rintro rfl
    omega
  simp [simpleEscapes, List.lookup_cons, hne 34 (by decide), hne 92 (by decide), hne 47 (by decide),
    hne 98 (by decide), hne 102 (by decide), hne 110 (by decide), hne 114 (by decide),
    hne 116 (by decide)]

/-- The letter of a code's escape is none of the others. -/
lemma lookup_simpleEscapes_u : asciiBind (fun b => simpleEscapes.lookup b) 'u' = none := by decide

lemma reads_escape (h : At text position input) :
    Reads text (Reader.escape text position) (EscapeAt input) := by
  have hlookup := byteAt_bind (f := fun b => simpleEscapes.lookup b)
    (fun _ => lookup_simpleEscapes_of_le) h
  have hu := byteAt_eq_some (c := 'u') (by decide) h
  rw [Reader.escape]
  rcases hbyte : Reader.byteAt text position with _ | b
  · refine Reads.error _ _ ?_
    rw [byteAt_of_at h] at hbyte
    rintro c rest (⟨x, rfl, hx⟩ | ⟨input', n, rfl, -⟩)
    · simp [utf8EncodeChar_of_lt (lt_of_asciiBind hx)] at hbyte
    · simp [utf8EncodeChar_of_lt (c := 'u') (by decide)] at hbyte
  · rw [hbyte, Option.bind_some] at hlookup
    rw [hbyte, Option.some_inj] at hu
    dsimp only
    rcases hc : simpleEscapes.lookup b with _ | c
    · rw [hc] at hlookup
      have hnone : ∀ x input', input = x :: input' →
          asciiBind (fun b => simpleEscapes.lookup b) x = none := by
        rintro x input' rfl
        exact hlookup.symm
      dsimp only
      split_ifs with hb
      · obtain ⟨input', rfl⟩ := List.head?_eq_some_iff.mp (hu.mp hb)
        refine (reads_unicodeEscape (h.cons_of_lt (by decide))).of_iff fun c rest => ?_
        constructor
        · rintro (⟨x, hx, hxc⟩ | ⟨input'', n, hinput, hcode⟩)
          · rw [hnone x _ hx] at hxc
            cases hxc
          · cases hinput
            exact ⟨n, hcode⟩
        · rintro ⟨n, hcode⟩
          exact .inr ⟨input', n, rfl, hcode⟩
      · refine Reads.error _ _ ?_
        rintro c rest (⟨x, hx, hxc⟩ | ⟨input', n, rfl, -⟩)
        · rw [hnone x _ hx] at hxc
          cases hxc
        · exact hb (hu.mpr rfl)
    · rw [hc] at hlookup
      rcases input with _ | ⟨x, input⟩
      · cases hlookup
      have hx : asciiBind (fun b => simpleEscapes.lookup b) x = some c := hlookup.symm
      refine Reads.ok c (h.cons_of_lt (lt_of_asciiBind hx)) fun c' rest => ?_
      constructor
      · rintro (⟨x', hinput, hxc⟩ | ⟨input', n, hinput, -⟩)
        · cases hinput
          rw [hx] at hxc
          cases hxc
          exact ⟨rfl, rfl⟩
        · cases hinput
          rw [lookup_simpleEscapes_u] at hx
          cases hx
      · rintro ⟨rfl, rfl⟩
        exact .inl ⟨x, rfl, hx⟩

/-! ## Strings -/

lemma reads_stringBody {fuel : Nat} (out : List Char) (hfuel : input.length < fuel)
    (h : At text position input) :
    Reads text (Reader.stringBody text fuel out position) fun s rest =>
      ∃ s', BodyAt input s' rest ∧ s = out ++ s' := by
  induction fuel generalizing out position input with
  | zero => exact absurd hfuel (Nat.not_lt_zero _)
  | succ fuel ih =>
      rw [Reader.stringBody, sliceFrom_of_at h]
      cases input with
      | nil =>
          refine Reads.error _ _ ?_
          rintro s rest ⟨s', hbody, -⟩
          cases hbody
      | cons c input =>
          have hcons := h.cons
          rw [List.length_cons] at hfuel
          dsimp only
          split_ifs with hquote hcontrol hslash
          · subst hquote
            refine Reads.ok out hcons fun s rest => ⟨?_, ?_⟩
            · rintro ⟨s', hbody, rfl⟩
              cases hbody with
              | close => exact ⟨List.append_nil out, rfl⟩
              | plain hne => exact absurd rfl hne
            · rintro ⟨rfl, rfl⟩
              exact ⟨[], .close, (List.append_nil s).symm⟩
          · refine Reads.error _ _ ?_
            rintro s rest ⟨s', hbody, -⟩
            cases hbody with
            | close => exact hquote rfl
            | plain _ hlt => omega
            | escape => exact absurd hcontrol (by decide)
          · subst hslash
            refine Reads.of_iff (Reads.bind (reads_escape hcons)
              (S := fun c middle s rest => ∃ s', BodyAt middle s' rest ∧ s = out ++ [c] ++ s')
              fun c middle position hat hescape => ?_) fun s rest => ?_
            · have := hescape.length_le
              exact ih (out ++ [c]) (by omega) hat
            · constructor
              · rintro ⟨s', hbody, rfl⟩
                cases hbody with
                | plain _ _ hne => exact absurd rfl hne
                | @escape c _ middle s' _ hescape hbody =>
                    exact ⟨c, middle, hescape, s', hbody, by simp⟩
              · rintro ⟨c, middle, hescape, s', hbody, rfl⟩
                exact ⟨c :: s', .escape hescape hbody, by simp⟩
          · refine (ih (out ++ [c]) (by omega) hcons).of_iff fun s rest => ⟨?_, ?_⟩
            · rintro ⟨s', hbody, rfl⟩
              cases hbody with
              | close => exact absurd rfl hquote
              | @plain _ _ s' _ _ _ _ hbody => exact ⟨s', hbody, by simp⟩
              | escape => exact absurd rfl hslash
            · rintro ⟨s', hbody, rfl⟩
              exact ⟨c :: s', .plain hquote (by omega) hslash hbody, by simp⟩

lemma reads_string (h : At text position input) :
    Reads text (Reader.string text position) (StringAt input) := by
  refine Reads.of_iff (Reads.bind (reads_expect (c := '"') (by decide) h)
    (S := fun _ body s rest => ∃ out, BodyAt body out rest ∧ s = String.ofList out)
    fun _ body position hat _ => ?_) fun s rest => ?_
  · have hfuel := hat.length_le
    refine Reads.of_iff (Reads.bind (reads_stringBody [] (Nat.lt_succ_of_le hfuel) hat)
      (S := fun out middle s rest => s = String.ofList out ∧ rest = middle)
      fun out middle position hat _ => Reads.ok _ hat fun _ _ => Iff.rfl) fun s rest => ?_
    constructor
    · rintro ⟨out, hbody, rfl⟩
      exact ⟨out, rest, ⟨out, hbody, rfl⟩, rfl, rfl⟩
    · rintro ⟨out, rest', ⟨out', hbody, rfl⟩, rfl, rfl⟩
      exact ⟨out, hbody, rfl⟩
  · constructor
    · rintro ⟨body, htoken, hbody⟩
      exact ⟨(), body, htoken, hbody⟩
    · rintro ⟨_, body, htoken, hbody⟩
      exact ⟨body, htoken, hbody⟩

/-! ## Numbers -/

lemma isDigit_of_le {b : UInt8} (hb : 128 ≤ b.toNat) : isDigit b = false := by
  simp only [isDigit, UInt8.le_iff_toNat_le, Bool.and_eq_false_iff, decide_eq_false_iff_not]
  right
  simp
  omega

/-- The sign of a number, which may be absent. -/
def Signed (input sign unsigned : List Char) : Prop :=
  input = sign ++ unsigned ∧ (sign = ['-'] ∨ sign = [] ∧ input.head? ≠ some '-')

/-- The digits of a number are all the digits after its sign. -/
lemma numberText_iff {sign unsigned rest : List Char} {v : Value}
    (hsign : Signed input sign unsigned) :
    (∃ t n, input = t ++ rest ∧ NumberText t n ∧ (∀ c ∈ rest.head?, ¬ ascii isDigit c) ∧
      v = .number n) ↔
    unsigned.takeWhile (ascii isDigit) ≠ [] ∧
      (1 < (unsigned.takeWhile (ascii isDigit)).length → unsigned.head? ≠ some '0') ∧
      rest = unsigned.dropWhile (ascii isDigit) ∧
      ∃ n, parseI64 (sign ++ unsigned.takeWhile (ascii isDigit)) = some n ∧ v = .number n := by
  have hhead : ∀ digits rest : List Char, digits ≠ [] → (digits ++ rest).head? = digits.head? := by
    intro digits rest hne
    cases digits with
    | nil => exact absurd rfl hne
    | cons => rfl
  obtain ⟨rfl, hsign⟩ := hsign
  constructor
  · rintro ⟨t, n, hinput, ⟨digits, ht, hne, hdigits, hzero, hparse⟩, hrest, rfl⟩
    have hsplit : t = sign ++ digits ∧ unsigned = digits ++ rest := by
      rcases ht with rfl | rfl
      · rcases hsign with rfl | ⟨rfl, -⟩
        · obtain ⟨c, ds, rfl⟩ := List.exists_cons_of_ne_nil hne
          cases hinput
          exact absurd (hdigits '-' (List.mem_cons_self ..)) (by decide)
        · exact ⟨rfl, hinput⟩
      · rcases hsign with rfl | ⟨rfl, hminus⟩
        · exact ⟨rfl, List.cons_inj_right _ |>.mp hinput⟩
        · rw [List.nil_append] at hinput hminus
          rw [hinput] at hminus
          exact absurd rfl hminus
    obtain ⟨rfl, rfl⟩ := hsplit
    have htake : (digits ++ rest).takeWhile (ascii isDigit) = digits := by
      rw [List.takeWhile_append_of_pos hdigits]
      cases rest with
      | nil => simp
      | cons c rest => simp [hrest c rfl]
    have hdrop : (digits ++ rest).dropWhile (ascii isDigit) = rest := by
      rw [List.dropWhile_append_of_pos hdigits]
      cases rest with
      | nil => rfl
      | cons c rest => simp [hrest c rfl]
    rw [htake, hdrop, hhead digits rest hne]
    exact ⟨hne, hzero, rfl, n, hparse, rfl⟩
  · rintro ⟨hne, hzero, rfl, n, hparse, rfl⟩
    have hsplit : unsigned.takeWhile (ascii isDigit) ++ unsigned.dropWhile (ascii isDigit) =
        unsigned := List.takeWhile_append_dropWhile
    refine ⟨sign ++ unsigned.takeWhile (ascii isDigit), n, ?_, ⟨_, ?_, hne, ?_, ?_, hparse⟩, ?_,
      rfl⟩
    · rw [List.append_assoc, hsplit]
    · rcases hsign with rfl | ⟨rfl, -⟩
      · exact .inr rfl
      · exact .inl rfl
    · exact fun c hc => List.mem_takeWhile_imp hc
    · intro hlen
      rw [← hhead _ (unsigned.dropWhile (ascii isDigit)) hne, hsplit]
      exact hzero hlen
    · intro c hc
      have hnot := List.head?_dropWhile_not (ascii isDigit) unsigned
      rw [hc] at hnot
      simpa using hnot

lemma length_asBytes_takeWhile (p : UInt8 → Bool) (l : List Char) :
    (asBytes (l.takeWhile (ascii p))).length = (l.takeWhile (ascii p)).length := by
  induction l with
  | nil => rfl
  | cons c l ih =>
      by_cases hc : ascii p c
      · have hlt : c.toNat < 128 := by
          simp only [ascii, Bool.and_eq_true, decide_eq_true_eq] at hc
          exact hc.1
        simp [hc, ih, utf8Size_of_lt hlt, Nat.add_comm]
      · simp [hc]

lemma sliceTo_length (s rest : List Char) : sliceTo (s ++ rest) (asBytes s).length = some s := by
  induction s with
  | nil => cases rest <;> rfl
  | cons c s ih =>
      have hpos := c.utf8Size_pos
      obtain ⟨n, hn⟩ : ∃ n, c.utf8Size + (asBytes s).length = n + 1 :=
        ⟨c.utf8Size + (asBytes s).length - 1, by omega⟩
      rw [asBytes_cons, List.length_append, String.length_utf8EncodeChar, hn, List.cons_append,
        sliceTo, if_pos (by omega), ← hn, Nat.add_sub_cancel_left, ih]
      rfl

/-- The digits of a number and what follows, by their positions. -/
lemma reads_digits {start digits : Nat} {sign unsigned : List Char} (h : At text start input)
    (hsign : Signed input sign unsigned) (hdigits : digits = start + sign.length)
    (hat : At text digits unsigned) :
    Reads text
      (if Reader.skip text isDigit digits = digits then
        .error (.error (Reader.skip text isDigit digits) "expected text or an i64 integer")
      else if 1 < Reader.skip text isDigit digits - digits ∧
          Reader.byteAt text digits = some 48 then
        .error (.error (Reader.skip text isDigit digits) "leading zero in number")
      else
        match (sliceFrom text start).bind
            (sliceTo · (Reader.skip text isDigit digits - start)) with
        | none => .error .panic
        | some literal =>
            match parseI64 literal with
            | some n => .ok (Value.number n, Reader.skip text isDigit digits)
            | none => .error (.error (Reader.skip text isDigit digits)
                "integer outside i64 range"))
      fun v rest => ∃ t n, input = t ++ rest ∧ NumberText t n ∧
        (∀ c ∈ rest.head?, ¬ ascii isDigit c) ∧ v = Value.number n := by
  have hskip := hat.skip (p := isDigit) fun _ => isDigit_of_le
  have hend : Reader.skip text isDigit digits =
      digits + (unsigned.takeWhile (ascii isDigit)).length := by
    have hleft := hat.length_add
    have hright := hskip.length_add
    have hsplit : asBytes unsigned = asBytes (unsigned.takeWhile (ascii isDigit)) ++
        asBytes (unsigned.dropWhile (ascii isDigit)) := by
      rw [← asBytes_append, List.takeWhile_append_dropWhile]
    rw [hsplit, List.length_append, length_asBytes_takeWhile] at hleft
    omega
  have hzero := byteAt_eq_some (c := '0') (by decide) hat
  have hslice : (sliceFrom text start).bind (sliceTo · (Reader.skip text isDigit digits - start)) =
      some (sign ++ unsigned.takeWhile (ascii isDigit)) := by
    have hlen : (asBytes sign).length = sign.length := by
      rcases hsign.2 with rfl | ⟨rfl, -⟩ <;> rfl
    have hlen' : Reader.skip text isDigit digits - start =
        (asBytes (sign ++ unsigned.takeWhile (ascii isDigit))).length := by
      rw [asBytes_append, List.length_append, length_asBytes_takeWhile]
      omega
    rw [sliceFrom_of_at h, Option.bind_some, hlen', hsign.1]
    have hslice := sliceTo_length (sign ++ unsigned.takeWhile (ascii isDigit))
      (unsigned.dropWhile (ascii isDigit))
    rwa [List.append_assoc, List.takeWhile_append_dropWhile] at hslice
  refine Reads.of_iff ?_ fun v rest => numberText_iff hsign
  rw [hslice]
  split_ifs with hempty hlead
  · refine Reads.error _ _ fun v rest hv => hv.1 (List.length_eq_zero_iff.mp (by omega))
  · refine Reads.error _ _ fun v rest hv => hv.2.1 (by omega) (hzero.mp hlead.2)
  · have hne : unsigned.takeWhile (ascii isDigit) ≠ [] := by
      intro hnil
      rw [hnil] at hend
      exact hempty hend
    have hlead : 1 < (unsigned.takeWhile (ascii isDigit)).length →
        unsigned.head? ≠ some '0' :=
      fun hlen hhead => hlead ⟨by omega, hzero.mpr hhead⟩
    dsimp only
    rcases hparse : parseI64 (sign ++ unsigned.takeWhile (ascii isDigit)) with _ | n
    · refine Reads.error _ _ ?_
      rintro v rest ⟨-, -, -, n, hn, -⟩
      cases hn
    · refine Reads.ok _ hskip fun v rest => ⟨?_, ?_⟩
      · rintro ⟨-, -, rfl, n', hn, rfl⟩
        cases hn
        exact ⟨rfl, rfl⟩
      · rintro ⟨rfl, rfl⟩
        exact ⟨hne, hlead, rfl, n, rfl, rfl⟩

lemma reads_number (h : At text position input) :
    Reads text (Reader.number text position) fun v rest =>
      ∃ t n, input = t ++ rest ∧ NumberText t n ∧ (∀ c ∈ rest.head?, ¬ ascii isDigit c) ∧
        v = .number n := by
  have hminus : Reader.byteAt text position = some 45 ↔ input.head? = some '-' :=
    byteAt_eq_some (c := '-') (by decide) h
  by_cases hsign : input.head? = some '-'
  · obtain ⟨unsigned, rfl⟩ := List.head?_eq_some_iff.mp hsign
    have hread := reads_digits h ⟨rfl, .inl rfl⟩
      (show position + 1 = position + ['-'].length from rfl) (h.cons_of_lt (by decide))
    rw [Reader.number, if_pos (hminus.mpr rfl)]
    exact hread
  · have hread := reads_digits h ⟨rfl, .inr ⟨rfl, hsign⟩⟩ rfl h
    rw [Reader.number, if_neg fun hbyte => hsign (hminus.mp hbyte)]
    exact hread

/-! ## Values -/

lemma StringAt.head? {rest : List Char} {s : String} (h : StringAt input s rest) :
    (strip input).head? = some '"' := by
  obtain ⟨body, htoken, -⟩ := h
  rw [show strip input = '"' :: body from htoken]
  rfl

lemma NumberText.head? {t : List Char} {n : Int64} (h : NumberText t n) :
    ∃ c, (∀ rest, (t ++ rest).head? = some c) ∧ (c = '-' ∨ ascii isDigit c) := by
  obtain ⟨digits, ht, hne, hdigits, -⟩ := h
  obtain ⟨c, ds, rfl⟩ := List.exists_cons_of_ne_nil hne
  rcases ht with rfl | rfl
  · exact ⟨c, fun _ => rfl, .inr (hdigits c (List.mem_cons_self ..))⟩
  · exact ⟨'-', fun _ => rfl, .inl rfl⟩

lemma reads_value (h : At text position input) :
    Reads text (Reader.value text position) (ValueAt input) := by
  have hspace := h.space
  have hquote : Reader.byteAt text (Reader.space text position) = some 34 ↔
      (strip input).head? = some '"' := byteAt_eq_some (c := '"') (by decide) hspace
  rw [Reader.value]
  dsimp only
  split_ifs with hbyte
  · have hhead := hquote.mp hbyte
    have hstring : Reads text (Reader.string text (Reader.space text position)) (StringAt input) :=
      (reads_string hspace).of_iff fun s rest => by simp only [StringAt, token_strip]
    refine Reads.of_iff (Reads.bind hstring (S := fun s middle v rest => v = .text s ∧ rest = middle)
      fun s middle position hat _ => Reads.ok _ hat fun _ _ => Iff.rfl) fun v rest => ?_
    constructor
    · rintro (⟨s, hs, rfl⟩ | ⟨hstrip, -⟩ | ⟨hstrip, -⟩ | ⟨t, n, hstrip, hnumber, -⟩)
      · exact ⟨s, rest, hs, rfl, rfl⟩
      · rw [hstrip] at hhead
        exact absurd hhead (by simp)
      · rw [hstrip] at hhead
        exact absurd hhead (by simp)
      · obtain ⟨c, hc, hor⟩ := hnumber.head?
        rw [hstrip, hc, Option.some_inj] at hhead
        subst hhead
        exact absurd hor (by decide)
    · rintro ⟨s, rest', hs, rfl, rfl⟩
      exact .inl ⟨s, hs, rfl⟩
  · have hnot : ∀ s rest, ¬ StringAt input s rest := fun s rest hs => hbyte (hquote.mpr hs.head?)
    rw [sliceFrom_of_at hspace]
    dsimp only
    split_ifs with htrue hfalse
    · obtain ⟨rest, hrest⟩ := List.isPrefixOf_iff_prefix.mp htrue
      rw [← hrest] at hspace
      refine Reads.ok _ hspace.append fun v rest' => ⟨?_, ?_⟩
      · rintro (⟨s, hs, rfl⟩ | ⟨hstrip, rfl⟩ | ⟨hstrip, -⟩ | ⟨t, n, hstrip, hnumber, -⟩)
        · exact absurd hs (hnot s rest')
        · exact ⟨rfl, List.append_cancel_left (hstrip.symm.trans hrest.symm)⟩
        · rw [← hrest] at hstrip
          cases hstrip
        · obtain ⟨c, hc, hor⟩ := hnumber.head?
          have hhead := congrArg List.head? (hrest.trans hstrip)
          rw [hc] at hhead
          cases hhead
          exact absurd hor (by decide)
      · rintro ⟨rfl, rfl⟩
        exact .inr (.inl ⟨hrest.symm, rfl⟩)
    · obtain ⟨rest, hrest⟩ := List.isPrefixOf_iff_prefix.mp hfalse
      rw [← hrest] at hspace
      refine Reads.ok _ hspace.append fun v rest' => ⟨?_, ?_⟩
      · rintro (⟨s, hs, rfl⟩ | ⟨hstrip, -⟩ | ⟨hstrip, rfl⟩ | ⟨t, n, hstrip, hnumber, -⟩)
        · exact absurd hs (hnot s rest')
        · rw [← hrest] at hstrip
          cases hstrip
        · exact ⟨rfl, List.append_cancel_left (hstrip.symm.trans hrest.symm)⟩
        · obtain ⟨c, hc, hor⟩ := hnumber.head?
          have hhead := congrArg List.head? (hrest.trans hstrip)
          rw [hc] at hhead
          cases hhead
          exact absurd hor (by decide)
      · rintro ⟨rfl, rfl⟩
        exact .inr (.inr (.inl ⟨hrest.symm, rfl⟩))
    · refine (reads_number hspace).of_iff fun v rest => ⟨?_, fun h => .inr (.inr (.inr h))⟩
      rintro (⟨s, hs, rfl⟩ | ⟨hstrip, -⟩ | ⟨hstrip, -⟩ | hnumber)
      · exact absurd hs (hnot s rest)
      · exact absurd (List.isPrefixOf_iff_prefix.mpr ⟨rest, hstrip.symm⟩) htrue
      · exact absurd (List.isPrefixOf_iff_prefix.mpr ⟨rest, hstrip.symm⟩) hfalse
      · exact hnumber

/-! ## Objects -/

lemma Token.unique {c d : Char} {rest rest' : List Char} (h : Token c input () rest)
    (h' : Token d input () rest') : c = d ∧ rest = rest' :=
  List.cons.inj (h.symm.trans h')

/-- A choice by the next token. -/
lemma reads_take {α : Type} {c : Char} (hc : c.toNat < 128) (h : At text position input)
    {f : Bool × Nat → Except Stop (α × Nat)} {S : List Char → α → List Char → Prop}
    {T : α → List Char → Prop}
    (htrue : ∀ position rest, At text position rest → Reads text (f (true, position)) (S rest))
    (hfalse : ∀ position, At text position (strip input) → Reads text (f (false, position)) T) :
    Reads text (f (Reader.take text c.toNat.toUInt8 position)) fun v rest' =>
      (∃ rest, Token c input () rest ∧ S rest v rest') ∨
        (∀ rest, ¬ Token c input () rest) ∧ T v rest' := by
  rcases take_of_at hc h with ⟨position', rest, htake, hat, htoken⟩ | ⟨position', htake, hat, hnone⟩
  · rw [htake]
    refine (htrue position' rest hat).of_iff fun v rest' => ⟨?_, fun h => .inl ⟨rest, htoken, h⟩⟩
    rintro (⟨rest'', htoken', hS⟩ | ⟨hnone, -⟩)
    · rwa [(htoken.unique htoken').2]
    · exact absurd htoken (hnone rest)
  · rw [htake]
    refine (hfalse position' hat).of_iff fun v rest' => ⟨?_, fun h => .inr ⟨hnone, h⟩⟩
    rintro (⟨rest'', htoken', -⟩ | ⟨-, hT⟩)
    · exact absurd htoken' (hnone rest'')
    · exact hT

/-- What is read where a token may close: what there is so far, or more of it. -/
def closeOr {α : Type} (closed : α) (more : Nat → Except Stop (α × Nat)) :
    Bool × Nat → Except Stop (α × Nat)
  | (true, position) => .ok (closed, position)
  | (false, position) => more position

/-- What is read after a comma. -/
def afterComma {α : Type} (text : List Char) (more : Nat → Except Stop (α × Nat)) (position : Nat) :
    Except Stop (α × Nat) :=
  Reader.expect text 44 position >>= fun comma => more comma.2

lemma FieldsAt.head? {ms : List (String × Value)} {rest : List Char} (h : FieldsAt input ms rest) :
    (strip input).head? = some '"' := by
  cases h with
  | last h _ => exact h.choose_spec.choose_spec.1.head?
  | more h _ _ => exact h.choose_spec.choose_spec.1.head?

lemma fieldsAt_strip {ms : List (String × Value)} {rest : List Char} :
    FieldsAt (strip input) ms rest ↔ FieldsAt input ms rest := by
  have hmember : ∀ m middle, MemberAt (strip input) m middle ↔ MemberAt input m middle := by
    intro m middle
    simp only [MemberAt, StringAt, token_strip]
  constructor
  · intro h
    cases h with
    | last h hclose => exact .last ((hmember _ _).mp h) hclose
    | more h hcomma h' => exact .more ((hmember _ _).mp h) hcomma h'
  · intro h
    cases h with
    | last h hclose => exact .last ((hmember _ _).mpr h) hclose
    | more h hcomma h' => exact .more ((hmember _ _).mpr h) hcomma h'

/-- The members read after those of a map, and the map with them. -/
def FieldsAfter (sofar : Dict String Value) (input : List Char) (record : Dict String Value)
    (rest : List Char) : Prop :=
  ∃ ms, FieldsAt input ms rest ∧ (ms.map (·.1)).Nodup ∧ (∀ m ∈ ms, sofar.has m.1 = false) ∧
    record = ms.foldl (fun d m => Dict.insert d m.1 m.2) sofar

/-- What follows a member: the closing brace, or a comma and further members. -/
def FieldsTail (sofar : Dict String Value) (input : List Char) (record : Dict String Value)
    (rest : List Char) : Prop :=
  (Token '}' input () rest ∧ record = sofar) ∨
    ∃ middle, Token ',' input () middle ∧ FieldsAfter sofar middle record rest

lemma fieldsAfter_iff {sofar record : Dict String Value} {rest : List Char} :
    FieldsAfter sofar input record rest ↔
      ∃ m middle, MemberAt input m middle ∧ sofar.has m.1 = false ∧
        FieldsTail (sofar.insert m.1 m.2) middle record rest := by
  have hhas : ∀ (m m' : String × Value),
      (sofar.insert m.1 m.2).has m'.1 = false ↔ m'.1 ≠ m.1 ∧ sofar.has m'.1 = false := by
    intro m m'
    simp only [Dict.has_eq_false, Dict.lookup_insert]
    by_cases h : m'.1 = m.1 <;> simp [h]
  constructor
  · rintro ⟨ms, hfields, hnodup, hnew, rfl⟩
    cases hfields with
    | @last _ middle _ m h hclose =>
        exact ⟨m, middle, h, hnew m (List.mem_singleton_self m), .inl ⟨hclose, rfl⟩⟩
    | @more _ middle middle' _ m ms h hcomma h' =>
        rw [List.map_cons, List.nodup_cons] at hnodup
        refine ⟨m, middle, h, hnew m (List.mem_cons_self ..), .inr ⟨middle', hcomma, ms, h',
          hnodup.2, fun m' hm' => (hhas m m').mpr ⟨fun heq => hnodup.1 ?_, ?_⟩, rfl⟩⟩
        · exact List.mem_map.mpr ⟨m', hm', heq⟩
        · exact hnew m' (List.mem_cons_of_mem _ hm')
  · rintro ⟨m, middle, hmember, hm, ⟨hclose, rfl⟩ | ⟨middle', hcomma, ms, hfields, hnodup, hnew,
      rfl⟩⟩
    · exact ⟨[m], .last hmember hclose, List.nodup_singleton _,
        fun m' hm' => List.mem_singleton.mp hm' ▸ hm, rfl⟩
    · refine ⟨m :: ms, .more hmember hcomma hfields, ?_, fun m' hm' => ?_, rfl⟩
      · rw [List.map_cons, List.nodup_cons]
        refine ⟨fun hmem => ?_, hnodup⟩
        obtain ⟨m', hm', heq⟩ := List.mem_map.mp hmem
        exact ((hhas m m').mp (hnew m' hm')).1 heq
      · rcases List.mem_cons.mp hm' with rfl | hm'
        · exact hm
        · exact ((hhas m m').mp (hnew m' hm')).2

lemma reads_fields {fuel : Nat} (sofar : Dict String Value) (hfuel : input.length < fuel)
    (h : At text position input) :
    Reads text (Reader.fields text fuel sofar position) (FieldsAfter sofar input) := by
  induction fuel generalizing sofar position input with
  | zero => exact absurd hfuel (Nat.not_lt_zero _)
  | succ fuel ih =>
      have htail : ∀ key v position rest, At text position rest → rest.length < input.length →
          Reads text (if sofar.has key then .error (.error position "duplicate field")
            else
              closeOr (sofar.insert key v)
                (afterComma text (Reader.fields text fuel (sofar.insert key v)))
                (Reader.take text 125 position))
            fun record rest' => sofar.has key = false ∧
              FieldsTail (sofar.insert key v) rest record rest' := by
        intro key v position rest hat hlen
        split_ifs with hkey
        · exact Reads.error _ _ fun _ _ h => by rw [hkey] at h; cases h.1
        · refine Reads.of_iff (reads_take (c := '}') (by decide) hat
            (f := closeOr (sofar.insert key v)
              (afterComma text (Reader.fields text fuel (sofar.insert key v))))
            (S := fun rest record rest' => record = sofar.insert key v ∧ rest' = rest)
            (T := fun record rest' => ∃ u middle, Token ',' (strip rest) u middle ∧
              FieldsAfter (sofar.insert key v) middle record rest')
            (fun position rest hat => Reads.ok _ hat fun _ _ => Iff.rfl)
            fun position hat => Reads.bind (reads_expect (c := ',') (by decide) hat)
              fun _ middle position hat hcomma => ih _ ?_ hat) fun record rest' => ?_
          · have := Token.length_lt (token_strip.mp hcomma)
            omega
          · constructor
            · rintro ⟨-, ⟨hclose, rfl⟩ | ⟨middle, hcomma, hafter⟩⟩
              · exact .inl ⟨rest', hclose, rfl, rfl⟩
              · refine .inr ⟨fun rest' hclose => ?_, (), middle, token_strip.mpr hcomma, hafter⟩
                exact absurd (hclose.unique hcomma).1 (by decide)
            · rintro (⟨rest, hclose, rfl, rfl⟩ | ⟨-, _, middle, hcomma, hafter⟩)
              · exact ⟨Bool.eq_false_iff.mpr hkey, .inl ⟨hclose, rfl⟩⟩
              · exact ⟨Bool.eq_false_iff.mpr hkey, .inr ⟨middle, token_strip.mp hcomma, hafter⟩⟩
      refine Reads.of_iff (Reads.bind (reads_string h)
        (S := fun key middle record rest => ∃ u middle', Token ':' middle u middle' ∧
          ∃ v middle'', ValueAt middle' v middle'' ∧ sofar.has key = false ∧
            FieldsTail (sofar.insert key v) middle'' record rest)
        fun key middle position hat hkey =>
          Reads.bind (reads_expect (c := ':') (by decide) hat) fun _ middle' position hat hcolon =>
            Reads.bind (reads_value hat) fun v middle'' position hat hv =>
              htail key v position middle'' hat ?_) fun record rest => ?_
      · have := hkey.length_lt
        have := Token.length_lt hcolon
        have := hv.length_le
        omega
      · rw [fieldsAfter_iff]
        constructor
        · rintro ⟨⟨key, v⟩, middle'', ⟨middle, middle', hkey, hcolon, hv⟩, htail⟩
          exact ⟨key, middle, hkey, (), middle', hcolon, v, middle'', hv, htail⟩
        · rintro ⟨key, middle, hkey, _, middle', hcolon, v, middle'', hv, htail⟩
          exact ⟨(key, v), middle'', ⟨middle, middle', hkey, hcolon, hv⟩, htail⟩

lemma reads_object (h : At text position input) :
    Reads text (Reader.object text position) (ObjectAt input) := by
  refine Reads.of_iff (Reads.bind (reads_expect (c := '{') (by decide) h)
    (S := fun _ middle record rest' =>
      (∃ rest, Token '}' middle () rest ∧ record = [] ∧ rest' = rest) ∨
        (∀ rest, ¬ Token '}' middle () rest) ∧ FieldsAfter [] (strip middle) record rest')
    fun _ middle position hat _ => reads_take (c := '}') (by decide) hat
      (f := closeOr [] (Reader.fields text ((asBytes text).length + 1) []))
      (fun position rest hat => Reads.ok _ hat fun _ _ => Iff.rfl)
      fun position hat => reads_fields [] (Nat.lt_succ_of_le hat.length_le) hat)
    fun record rest => ?_
  constructor
  · rintro ⟨middle, hopen, ⟨hclose, rfl⟩ | ⟨ms, hfields, hnodup, rfl⟩⟩
    · exact ⟨(), middle, hopen, .inl ⟨rest, hclose, rfl, rfl⟩⟩
    · refine ⟨(), middle, hopen, .inr ⟨fun rest' hclose => ?_, ms, fieldsAt_strip.mpr hfields,
        hnodup, fun m _ => rfl, rfl⟩⟩
      have hhead := hfields.head?
      rw [show strip middle = '}' :: rest' from hclose] at hhead
      cases hhead
  · rintro ⟨_, middle, hopen, ⟨rest, hclose, rfl, rfl⟩ | ⟨-, ms, hfields, hnodup, -, rfl⟩⟩
    · exact ⟨middle, hopen, .inl ⟨hclose, rfl⟩⟩
    · exact ⟨middle, hopen, .inr ⟨ms, fieldsAt_strip.mp hfields, hnodup, rfl⟩⟩

/-! ## Documents -/

/-- What follows a record: the closing bracket, or a comma and further records. -/
def RecordsTail (input : List Char) (records : List (Dict String Value)) (rest : List Char) :
    Prop :=
  (Token ']' input () rest ∧ records = []) ∨
    ∃ middle, Token ',' input () middle ∧ RecordsAt middle records rest

lemma recordsAt_iff {records : List (Dict String Value)} {rest : List Char} :
    RecordsAt input records rest ↔
      ∃ record middle records', ObjectAt input record middle ∧ RecordsTail middle records' rest ∧
        records = record :: records' := by
  constructor
  · intro h
    cases h with
    | @last _ middle _ record h hclose => exact ⟨record, middle, [], h, .inl ⟨hclose, rfl⟩, rfl⟩
    | @more _ middle middle' _ record records h hcomma h' =>
        exact ⟨record, middle, records, h, .inr ⟨middle', hcomma, h'⟩, rfl⟩
  · rintro ⟨record, middle, records', h, ⟨hclose, rfl⟩ | ⟨middle', hcomma, h'⟩, rfl⟩
    · exact .last h hclose
    · exact .more h hcomma h'

lemma RecordsAt.head? {records : List (Dict String Value)} {rest : List Char}
    (h : RecordsAt input records rest) : (strip input).head? = some '{' := by
  obtain ⟨record, middle, records', ⟨middle', hopen, -⟩, -⟩ := recordsAt_iff.mp h
  rw [show strip input = '{' :: middle' from hopen]
  rfl

lemma recordsAt_strip {records : List (Dict String Value)} {rest : List Char} :
    RecordsAt (strip input) records rest ↔ RecordsAt input records rest := by
  simp only [recordsAt_iff, ObjectAt, token_strip]

lemma reads_records {fuel : Nat} (sofar : List (Dict String Value)) (hfuel : input.length < fuel)
    (h : At text position input) :
    Reads text (Reader.records text fuel sofar position) fun records rest =>
      ∃ records', RecordsAt input records' rest ∧ records = sofar ++ records' := by
  induction fuel generalizing sofar position input with
  | zero => exact absurd hfuel (Nat.not_lt_zero _)
  | succ fuel ih =>
      refine Reads.of_iff (Reads.bind (reads_object h)
        (S := fun record middle records rest' =>
          (∃ rest, Token ']' middle () rest ∧ records = sofar ++ [record] ∧ rest' = rest) ∨
            (∀ rest, ¬ Token ']' middle () rest) ∧
              ∃ u middle', Token ',' (strip middle) u middle' ∧
                ∃ records', RecordsAt middle' records' rest' ∧
                  records = sofar ++ [record] ++ records')
        fun record middle position hat hrecord => reads_take (c := ']') (by decide) hat
          (f := closeOr (sofar ++ [record])
            (afterComma text (Reader.records text fuel (sofar ++ [record]))))
          (fun position rest hat => Reads.ok _ hat fun _ _ => Iff.rfl)
          fun position hat => Reads.bind (reads_expect (c := ',') (by decide) hat)
            fun _ middle' position hat hcomma => ih _ ?_ hat) fun records rest => ?_
      · have := hrecord.length_lt
        have := Token.length_lt (token_strip.mp hcomma)
        omega
      · constructor
        · rintro ⟨records', hrecords, rfl⟩
          obtain ⟨record, middle, records'', hrecord, htail, rfl⟩ := recordsAt_iff.mp hrecords
          refine ⟨record, middle, hrecord, ?_⟩
          rcases htail with ⟨hclose, rfl⟩ | ⟨middle', hcomma, hrecords'⟩
          · exact .inl ⟨rest, hclose, rfl, rfl⟩
          · refine .inr ⟨fun rest' hclose => ?_, (), middle', token_strip.mpr hcomma, records'',
              hrecords', by simp⟩
            exact absurd (hclose.unique hcomma).1 (by decide)
        · rintro ⟨record, middle, hrecord, ⟨rest, hclose, rfl, rfl⟩ | ⟨-, _, middle', hcomma,
            records', hrecords, rfl⟩⟩
          · exact ⟨[record], .last hrecord hclose, rfl⟩
          · exact ⟨record :: records', .more hrecord (token_strip.mp hcomma) hrecords, by simp⟩

/-- The array of a document. -/
lemma reads_array (text : List Char) :
    Reads text (Reader.expect text 91 0 >>= fun opened =>
      closeOr [] (Reader.records text ((asBytes text).length + 1) [])
        (Reader.take text 93 opened.2))
      fun records rest => ∃ middle, Token '[' text () middle ∧
        (Token ']' middle () rest ∧ records = [] ∨ RecordsAt middle records rest) := by
  refine Reads.of_iff (Reads.bind (reads_expect (c := '[') (by decide) (At.start : At text 0 text))
    (S := fun _ middle records rest' =>
      (∃ rest, Token ']' middle () rest ∧ records = [] ∧ rest' = rest) ∨
        (∀ rest, ¬ Token ']' middle () rest) ∧
          ∃ records', RecordsAt (strip middle) records' rest' ∧ records = [] ++ records')
    fun _ middle position hat _ => reads_take (c := ']') (by decide) hat
      (f := closeOr [] (Reader.records text ((asBytes text).length + 1) []))
      (fun position rest hat => Reads.ok _ hat fun _ _ => Iff.rfl)
      fun position hat => reads_records [] (Nat.lt_succ_of_le hat.length_le) hat)
    fun records rest => ?_
  constructor
  · rintro ⟨middle, hopen, ⟨hclose, rfl⟩ | hrecords⟩
    · exact ⟨(), middle, hopen, .inl ⟨rest, hclose, rfl, rfl⟩⟩
    · refine ⟨(), middle, hopen, .inr ⟨fun rest' hclose => ?_, records,
        recordsAt_strip.mpr hrecords, rfl⟩⟩
      have hhead := hrecords.head?
      rw [show strip middle = ']' :: rest' from hclose] at hhead
      cases hhead
  · rintro ⟨_, middle, hopen, ⟨rest, hclose, rfl, rfl⟩ | ⟨-, records', hrecords, rfl⟩⟩
    · exact ⟨middle, hopen, .inl ⟨hclose, rfl⟩⟩
    · exact ⟨middle, hopen, .inr (recordsAt_strip.mp hrecords)⟩

/-- A text is a document, and read as what it denotes, or there is an error at a byte. -/
lemma parse_cases (text : String) :
    (∃ records, parse text = .ok records ∧
      ∀ records', Document text.toList records' ↔ records' = records) ∨
    (∃ position message, parse text = .error (.error position message)) ∧
      ∀ records, ¬ Document text.toList records := by
  have hsplit : parse text = (Reader.expect text.toList 91 0 >>= fun opened =>
      closeOr [] (Reader.records text.toList ((asBytes text.toList).length + 1) [])
        (Reader.take text.toList 93 opened.2)) >>= fun all =>
          if Reader.space text.toList all.2 ≠ (asBytes text.toList).length then
            .error (.error (Reader.space text.toList all.2) "trailing input")
          else .ok all.1 := by
    rw [parse, bind_assoc]
    refine congrArg _ (funext ?_)
    rintro ⟨_, position⟩
    dsimp only
    rcases Reader.take text.toList 93 position with ⟨_ | _, position'⟩ <;> rfl
  have hdocument : ∀ records, Document text.toList records ↔ ∃ rest, (∃ middle,
      Token '[' text.toList () middle ∧
        (Token ']' middle () rest ∧ records = [] ∨ RecordsAt middle records rest)) ∧
      strip rest = [] := by
    intro records
    constructor
    · rintro ⟨middle, rest, hopen, harray, hrest⟩
      exact ⟨rest, ⟨middle, hopen, harray⟩, hrest⟩
    · rintro ⟨rest, ⟨middle, hopen, harray⟩, hrest⟩
      exact ⟨middle, rest, hopen, harray, hrest⟩
  rcases reads_array text.toList with ⟨records, rest, position, hx, hat, hR⟩ |
    ⟨⟨position, message, hx⟩, hR⟩
  · have hlen : Reader.space text.toList (records, position).2 + _ = _ := hat.space.length_add
    rw [hsplit, hx]
    by_cases hrest : strip rest = []
    · refine .inl ⟨records, ?_, fun records' => ?_⟩
      · rw [hrest] at hlen
        exact if_neg fun hne => hne hlen
      · rw [hdocument]
        constructor
        · rintro ⟨rest', harray, -⟩
          exact ((hR records' rest').mp harray).1
        · rintro rfl
          exact ⟨rest, (hR _ _).mpr ⟨rfl, rfl⟩, hrest⟩
    · refine .inr ⟨⟨_, _, if_pos fun heq => hrest ?_⟩, fun records' hdoc => ?_⟩
      · have hle := length_le_length_asBytes (strip rest)
        exact List.length_eq_zero_iff.mp (by omega)
      · obtain ⟨rest', harray, hrest'⟩ := (hdocument records').mp hdoc
        rw [((hR records' rest').mp harray).2] at hrest'
        exact hrest hrest'
  · refine .inr ⟨⟨position, message, by rw [hsplit, hx]; rfl⟩, fun records hdoc => ?_⟩
    obtain ⟨rest, harray, -⟩ := (hdocument records).mp hdoc
    exact hR records rest harray

end Verbosec.Execution.Input
