import Verbosec.Wasm.Itoa

/-!
# The JSON escape of the WebAssembly backend

* `escapedByte`, `escapedBytes` - what the function writes.
* `writeEscaped_runs` - the decision on one byte.
* `jsonEscape_short` - on fewer than `2 ^ 31` bytes the function writes their escape.
* `jsonEscape_long` - on more bytes the function writes nothing.
-/

namespace Verbosec.Wasm

open Lib.Wasm Lib.Bytes

/-! ## What is written -/

/-- A hexadecimal digit. -/
def hexDigit (n : Nat) : UInt8 := UInt8.ofNat (if n < 10 then n + 48 else n + 87)

/-- The escape of one byte: the five bytes of the other backends, and four hexadecimal digits for
the other control bytes. Source: `wasm.rs`, `build_json_escape_body` -/
def escapedByte (b : UInt8) : List UInt8 :=
  if b = 34 then [92, 34]
  else if b = 92 then [92, 92]
  else if b = 10 then [92, 110]
  else if b = 13 then [92, 114]
  else if b = 9 then [92, 116]
  else if b < 32 then [92, 117, 48, 48, hexDigit (b.toNat / 16), hexDigit (b.toNat % 16)]
  else [b]

/-- The escape of bytes. -/
def escapedBytes (bytes : List UInt8) : List UInt8 := bytes.flatMap escapedByte

/-! ## One byte -/

section byte

variable {p n q j d : Value} {c size : Nat} {b : UInt8} {m : Nat → UInt8} {is : List Instr}
  {Q : Outcome → Prop}

/-- The comparison with one of the bytes that have an escape of their own. -/
lemma whenByte_runs {x : UInt8} {yes no : List Instr}
    (hyes : b = x → Runs yes ⟨[p, n, q, .i32 c, j, .i32 b.toNat, d], m, size, []⟩ (Leaves is [] Q))
    (hno : b ≠ x → Runs no ⟨[p, n, q, .i32 c, j, .i32 b.toNat, d], m, size, []⟩ (Leaves is [] Q)) :
    Runs (whenByte x.toNat yes no ++ is) ⟨[p, n, q, .i32 c, j, .i32 b.toNat, d], m, size, []⟩ Q := by
  rw [whenByte, List.append_assoc, List.singleton_append]
  refine Runs.ops (t := ⟨[p, n, q, .i32 c, j, .i32 b.toNat, d], m, size, [truth (b = x)]⟩)
    (by simp [UInt8.toNat_inj]) (Runs.iteTruth rfl ?_)
  by_cases h : b = x
  · rw [if_pos (decide_eq_true h)]
    exact hyes h
  · rw [if_neg (by simpa using h)]
    exact hno h

/-- A backslash and a byte. -/
lemma writeEscape_runs {x : Nat} (hfit : c + 2 ≤ size) (hsize : size ≤ 2 ^ 32)
    (k : Runs is ⟨[p, n, q, .i32 (lowBits 32 (c + 2)), j, .i32 b.toNat, d],
      writeAll m c [92, UInt8.ofNat x], size, []⟩ Q) :
    Runs (writeEscape x) ⟨[p, n, q, .i32 c, j, .i32 b.toNat, d], m, size, []⟩ (Leaves is [] Q) := by
  have hnext : addBits 32 c 1 = c + 1 := addBits_eq (by omega)
  have hend : addBits 32 c 2 = lowBits 32 (c + 2) := rfl
  have hfirst : c < size := by omega
  have hsecond : c + 1 < size := by omega
  rw [writeEscape, ← List.append_nil (ops _)]
  refine Runs.ops (t := ⟨[p, n, q, .i32 (lowBits 32 (c + 2)), j, .i32 b.toNat, d],
    writeAll m c [92, UInt8.ofNat x], size, []⟩) ?_ (Runs.nil k)
  simp [hnext, hend, hfirst, hsecond, writeAll]

/-- The byte itself. -/
lemma writeByte_runs (hfit : c + 1 ≤ size)
    (k : Runs is ⟨[p, n, q, .i32 (lowBits 32 (c + 1)), j, .i32 b.toNat, d], writeAll m c [b], size,
      []⟩ Q) :
    Runs writeByte ⟨[p, n, q, .i32 c, j, .i32 b.toNat, d], m, size, []⟩ (Leaves is [] Q) := by
  have hend : addBits 32 c 1 = lowBits 32 (c + 1) := rfl
  have hfirst : c < size := by omega
  rw [writeByte, ← List.append_nil (ops _)]
  refine Runs.ops (t := ⟨[p, n, q, .i32 (lowBits 32 (c + 1)), j, .i32 b.toNat, d],
    writeAll m c [b], size, []⟩) ?_ (Runs.nil k)
  simp [hend, hfirst, writeAll]

/-- Four hexadecimal digits. -/
lemma writeControl_runs (hb : b < 32) (hfit : c + 6 ≤ size) (hsize : size ≤ 2 ^ 32)
    (k : Runs is ⟨[p, n, q, .i32 (lowBits 32 (c + 6)), j, .i32 b.toNat, .i32 (b.toNat % 16)],
      writeAll m c [92, 117, 48, 48, hexDigit (b.toNat / 16), hexDigit (b.toNat % 16)], size, []⟩
      Q) :
    Runs writeControl ⟨[p, n, q, .i32 c, j, .i32 b.toNat, d], m, size, []⟩ (Leaves is [] Q) := by
  have hsmall : b.toNat < 32 := hb
  have hcursor : ∀ i < 6, addBits 32 c i = c + i := fun i hi => addBits_eq (by omega)
  have hend : addBits 32 c 6 = lowBits 32 (c + 6) := rfl
  have hinside : ∀ i < 6, c + i < size := fun i hi => by omega
  have hfirst : c < size := by omega
  have hshift : b.toNat >>> 4 = b.toNat / 16 := Nat.shiftRight_eq_div_pow _ 4
  have hmask : b.toNat &&& 15 = b.toNat % 16 := Nat.and_two_pow_sub_one_eq_mod _ 4
  have hhigh : UInt8.ofNat (addBits 32 (b.toNat / 16) 48) = hexDigit (b.toNat / 16) := by
    rw [addBits_eq (by omega), hexDigit, if_pos (by omega)]
  have hlow : UInt8.ofNat (if signed 32 (b.toNat % 16) < signed 32 10 then
      addBits 32 (b.toNat % 16) 48 else addBits 32 (b.toNat % 16) 87) = hexDigit (b.toNat % 16) := by
    rw [signed_of_lt (by omega), signed_of_lt (by omega), addBits_eq (by omega),
      addBits_eq (by omega), hexDigit]
    simp only [Nat.cast_lt]
  rw [writeControl, ← List.append_nil (ops _)]
  refine Runs.ops (t := ⟨[p, n, q, .i32 (lowBits 32 (c + 6)), j, .i32 b.toNat,
    .i32 (b.toNat % 16)], writeAll m c [92, 117, 48, 48, hexDigit (b.toNat / 16),
    hexDigit (b.toNat % 16)], size, []⟩) ?_ (Runs.nil k)
  simp [hcursor, hend, hinside, hfirst, hshift, hmask, hhigh, hlow, writeAll]

/-- A comparison inside of another one. -/
lemma whenByte_inner {x : UInt8} {yes no : List Instr}
    (hyes : b = x → Runs yes ⟨[p, n, q, .i32 c, j, .i32 b.toNat, d], m, size, []⟩ (Leaves [] [] Q))
    (hno : b ≠ x → Runs no ⟨[p, n, q, .i32 c, j, .i32 b.toNat, d], m, size, []⟩ (Leaves [] [] Q)) :
    Runs (whenByte x.toNat yes no) ⟨[p, n, q, .i32 c, j, .i32 b.toNat, d], m, size, []⟩ Q := by
  rw [← List.append_nil (whenByte _ _ _)]
  exact whenByte_runs hyes hno

/-- The escape of the byte is written, and the cursor stands behind it. -/
lemma writeEscaped_runs (hfit : c + (escapedByte b).length ≤ size) (hsize : size ≤ 2 ^ 32)
    (k : ∀ d', Runs is ⟨[p, n, q, .i32 (lowBits 32 (c + (escapedByte b).length)), j, .i32 b.toNat,
      d'], writeAll m c (escapedByte b), size, []⟩ Q) :
    Runs (writeEscaped ++ is) ⟨[p, n, q, .i32 c, j, .i32 b.toNat, d], m, size, []⟩ Q := by
  rw [escapedByte] at hfit k
  refine whenByte_runs (x := 34) (fun h => ?_) (fun h₁ => ?_)
  · rw [if_pos h] at hfit k
    exact writeEscape_runs hfit hsize (k d)
  rw [if_neg h₁] at hfit k
  refine whenByte_inner (x := 92) (fun h => ?_) (fun h₂ => ?_)
  · rw [if_pos h] at hfit k
    exact writeEscape_runs hfit hsize (Runs.nil (k d))
  rw [if_neg h₂] at hfit k
  refine whenByte_inner (x := 10) (fun h => ?_) (fun h₃ => ?_)
  · rw [if_pos h] at hfit k
    exact writeEscape_runs hfit hsize (Runs.nil (Runs.nil (k d)))
  rw [if_neg h₃] at hfit k
  refine whenByte_inner (x := 13) (fun h => ?_) (fun h₄ => ?_)
  · rw [if_pos h] at hfit k
    exact writeEscape_runs hfit hsize (Runs.nil (Runs.nil (Runs.nil (k d))))
  rw [if_neg h₄] at hfit k
  refine whenByte_inner (x := 9) (fun h => ?_) (fun h₅ => ?_)
  · rw [if_pos h] at hfit k
    exact writeEscape_runs hfit hsize (Runs.nil (Runs.nil (Runs.nil (Runs.nil (k d)))))
  rw [if_neg h₅] at hfit k
  have hsmall : b.toNat < 256 := UInt8.toNat_lt b
  have hsigned : signed 32 b.toNat < signed 32 32 ↔ b < 32 := by
    rw [signed_of_lt (by omega), signed_of_lt (by decide), UInt8.lt_iff_toNat_lt]
    exact Nat.cast_lt
  refine Runs.ops (t := ⟨[p, n, q, .i32 c, j, .i32 b.toNat, d], m, size, [truth (b < 32)]⟩)
    (by simp [hsigned]) (Runs.iteTruth rfl ?_)
  by_cases hcontrol : b < 32
  · rw [if_pos hcontrol] at hfit k
    rw [if_pos (decide_eq_true hcontrol)]
    exact writeControl_runs hcontrol hfit hsize
      (Runs.nil (Runs.nil (Runs.nil (Runs.nil (Runs.nil (k _))))))
  · rw [if_neg hcontrol] at hfit k
    rw [if_neg (by simpa using hcontrol)]
    exact writeByte_runs hfit (Runs.nil (Runs.nil (Runs.nil (Runs.nil (Runs.nil (k d))))))

end byte

/-! ## The function -/

/-- What the function leaves: `out` from `q` on, and the other bytes as they were. -/
def WritesAt (m : Nat → UInt8) (q : Nat) (out : List UInt8) (stack : List Value)
    (m' : Nat → UInt8) : Prop :=
  stack = [.i32 (lowBits 32 (q + out.length)), .i32 out.length, .i32 q] ∧ Holds m' q out ∧
    SameOutside q (q + out.length) m m'

section call

variable {p q size : Nat} {m : Nat → UInt8} {bytes : List UInt8}

/-- The body of the function, up to what follows the loop. -/
lemma jsonEscapeHelper_body : jsonEscapeHelper.body =
    ops [.localGet 2, .localSet 3, .i32Const 0, .localSet 4] ++ Instr.block [.loop escapeRound] ::
    (ops [.localGet 2, .localGet 3, .localGet 2, .i32Sub, .localGet 3] ++ []) := rfl

lemma jsonEscapeHelper_start : jsonEscapeHelper.start [.i32 p, .i32 bytes.length, .i32 q] m size =
    ⟨[.i32 p, .i32 bytes.length, .i32 q, .i32 0, .i32 0, .i32 0, .i32 0], m, size, []⟩ := rfl

lemma escapedByte_pos (b : UInt8) : 0 < (escapedByte b).length := by
  unfold escapedByte
  split_ifs <;> exact Nat.zero_lt_succ _

lemma escapedBytes_cons (b : UInt8) (bs : List UInt8) :
    escapedBytes (b :: bs) = escapedByte b ++ escapedBytes bs := List.flatMap_cons

/-- The results from the last state. -/
lemma escape_results {out : List UInt8} {j b d : Value} {m' : Nat → UInt8}
    (hpos : q < 2 ^ 32) (hout : out.length < 2 ^ 32)
    (hholds : Holds m' q out) (hsame : SameOutside q (q + out.length) m m') {n : Value} :
    Runs (ops [.localGet 2, .localGet 3, .localGet 2, .i32Sub, .localGet 3] ++ [])
      ⟨[.i32 p, n, .i32 q, .i32 (lowBits 32 (q + out.length)), j, b, d], m', size, []⟩
      (Ends (WritesAt m q out)) := by
  have hlen : subBits 32 (lowBits 32 (q + out.length)) q = out.length := by
    rw [subBits, lowBits]
    omega
  exact Runs.ops (t := ⟨[.i32 p, n, .i32 q, .i32 (lowBits 32 (q + out.length)), j, b, d], m', size,
    [.i32 (lowBits 32 (q + out.length)), .i32 out.length, .i32 q]⟩) (by simp [hlen])
    (Runs.nil ⟨rfl, hholds, hsame⟩)

/-- What is left of the bytes. -/
def unescaped (n : Nat) (s : State) : Nat :=
  match s.locals with
  | _ :: _ :: _ :: _ :: .i32 i :: _ => n - i
  | _ => 0

/-- The loop writes the escapes, and leaves the block around it. -/
lemma escape_loop {Q : Outcome → Prop} {b₀ d₀ : Value} (hlen : bytes.length < 2 ^ 31)
    (hsize : size ≤ 2 ^ 32) (hq : q < 2 ^ 32) (hfit : p + bytes.length ≤ size)
    (hout : q + (escapedBytes bytes).length ≤ size)
    (hsep : Separate p bytes.length q (escapedBytes bytes).length) (hholds : Holds m p bytes)
    (k : ∀ b d m', Holds m' q (escapedBytes bytes) →
      SameOutside q (q + (escapedBytes bytes).length) m m' → Q (.br 0 ⟨[.i32 p, .i32 bytes.length,
        .i32 q, .i32 (lowBits 32 (q + (escapedBytes bytes).length)), .i32 bytes.length, b, d], m',
        size, []⟩)) :
    Runs [.loop escapeRound] ⟨[.i32 p, .i32 bytes.length, .i32 q, .i32 q, .i32 0, b₀, d₀], m, size,
      []⟩ Q := by
  have hcursor : lowBits 32 (q + ([] : List UInt8).length) = q := lowBits_eq (by simpa using hq)
  refine Runs.loop (fun s => ∃ i out b d m', s = ⟨[.i32 p, .i32 bytes.length, .i32 q,
    .i32 (lowBits 32 (q + out.length)), .i32 i, b, d], m', size, []⟩ ∧ i ≤ bytes.length ∧
    escapedBytes bytes = out ++ escapedBytes (bytes.drop i) ∧ Holds m' q out ∧
    SameOutside q (q + out.length) m m') (unescaped bytes.length)
    ⟨0, [], b₀, d₀, m, by rw [hcursor], Nat.zero_le _, rfl, holds_nil _ _, SameOutside.refl _ _ _⟩ ?_
  rintro s ⟨i, out, b, d, m', rfl, hi, hsplit, hwritten, hsame⟩ -
  have hsn : signed 32 bytes.length = bytes.length := signed_of_lt hlen
  have hsi : signed 32 i = i := signed_of_lt (by omega)
  rw [escapeRound]
  simp only [List.append_assoc, List.singleton_append]
  refine Runs.ops (t := ⟨[.i32 p, .i32 bytes.length, .i32 q, .i32 (lowBits 32 (q + out.length)),
    .i32 i, b, d], m', size, [truth (bytes.length ≤ i)]⟩) (by simp [hsn, hsi])
    (Runs.iteTruth rfl ?_)
  by_cases hend : bytes.length ≤ i
  · obtain rfl : i = bytes.length := Nat.le_antisymm hi hend
    rw [if_pos (decide_eq_true hend)]
    have hall : escapedBytes bytes = out := by
      rw [hsplit, List.drop_length]
      exact List.append_nil out
    rw [hall] at k
    exact Runs.br (k b d m' hwritten hsame)
  · rw [if_neg (by simpa using hend)]
    have hlt : i < bytes.length := Nat.lt_of_not_le hend
    have hdrop : bytes.drop i = bytes[i] :: bytes.drop (i + 1) := List.drop_eq_getElem_cons hlt
    rw [hdrop, escapedBytes_cons, ← List.append_assoc] at hsplit
    have htotal : out.length + (escapedByte bytes[i]).length ≤ (escapedBytes bytes).length := by
      rw [hsplit, List.length_append, List.length_append]
      omega
    have hpos := escapedByte_pos bytes[i]
    have hlow : lowBits 32 (q + out.length) = q + out.length := lowBits_eq (by omega)
    have haddr : addBits 32 p i = p + i := addBits_eq (by omega)
    have hinside : p + i < size := by omega
    have hbyte : m' (p + i) = bytes[i] := by
      rw [hsame (p + i) (by rcases hsep with h | h <;> omega)]
      exact hholds i hlt
    have hnext : addBits 32 i 1 = i + 1 := addBits_eq (by omega)
    refine Runs.nil (Runs.ops (t := ⟨[.i32 p, .i32 bytes.length, .i32 q, .i32 (q + out.length),
      .i32 i, .i32 bytes[i].toNat, d], m', size, []⟩) (by simp [haddr, hinside, hbyte, hlow])
      (writeEscaped_runs (by omega) hsize fun d' => ?_))
    refine Runs.ops (t := ⟨[.i32 p, .i32 bytes.length, .i32 q,
      .i32 (lowBits 32 (q + out.length + (escapedByte bytes[i]).length)), .i32 (i + 1),
      .i32 bytes[i].toNat, d'], writeAll m' (q + out.length) (escapedByte bytes[i]), size, []⟩)
      (by simp [hnext]) (Runs.br ?_)
    refine ⟨⟨i + 1, out ++ escapedByte bytes[i], .i32 bytes[i].toNat, d',
      writeAll m' (q + out.length) (escapedByte bytes[i]), ?_, hlt, hsplit, ?_, ?_⟩,
      Nat.sub_lt_sub_left hlt (Nat.lt_succ_self i)⟩
    · rw [List.length_append, Nat.add_assoc]
    · refine holds_append.mpr ⟨hwritten.congr fun x _ hx => ?_, holds_writeAll _ _ _⟩
      exact sameOutside_writeAll _ _ _ x (.inl hx)
    · intro x hx
      rw [List.length_append] at hx
      rw [sameOutside_writeAll _ _ _ x (by omega)]
      exact hsame x (by omega)

/-- On fewer than `2 ^ 31` bytes the function writes their escape. -/
theorem jsonEscape_short (hlen : bytes.length < 2 ^ 31) (hsize : size ≤ 2 ^ 32) (hq : q < 2 ^ 32)
    (hfit : p + bytes.length ≤ size) (hout : q + (escapedBytes bytes).length ≤ size)
    (hsep : Separate p bytes.length q (escapedBytes bytes).length) (hholds : Holds m p bytes) :
    Runs jsonEscapeHelper.body (jsonEscapeHelper.start [.i32 p, .i32 bytes.length, .i32 q] m size)
      (Ends (WritesAt m q (escapedBytes bytes))) := by
  have hsmall : (escapedBytes bytes).length < 2 ^ 32 := by
    cases bytes with
    | nil => exact Nat.two_pow_pos 32
    | cons b bs =>
        rw [List.length_cons] at hfit hsep
        rcases hsep with h | h <;> omega
  rw [jsonEscapeHelper_body, jsonEscapeHelper_start]
  refine Runs.ops (t := ⟨[.i32 p, .i32 bytes.length, .i32 q, .i32 q, .i32 0, .i32 0, .i32 0], m,
    size, []⟩) (by simp) (Runs.block ?_)
  refine escape_loop hlen hsize hq hfit hout hsep hholds fun b d m' hwritten hsame => ?_
  exact escape_results hq hsmall hwritten hsame

/-- From `2 ^ 31` bytes on the length is negative for the test of the loop, which ends at once. -/
theorem jsonEscape_long (hlen : 2 ^ 31 ≤ bytes.length) (hmax : bytes.length ≤ 2 ^ 32)
    (hq : q < 2 ^ 32) :
    Runs jsonEscapeHelper.body (jsonEscapeHelper.start [.i32 p, .i32 bytes.length, .i32 q] m size)
      (Ends (WritesAt m q [])) := by
  have hnegative : signed 32 bytes.length ≤ 0 := by
    rw [signed, if_neg (by omega)]
    omega
  have hends : signed 32 bytes.length ≤ signed 32 0 := hnegative
  have hcursor : lowBits 32 (q + ([] : List UInt8).length) = q := lowBits_eq (by simpa using hq)
  rw [jsonEscapeHelper_body, jsonEscapeHelper_start]
  refine Runs.ops (t := ⟨[.i32 p, .i32 bytes.length, .i32 q, .i32 q, .i32 0, .i32 0, .i32 0], m,
    size, []⟩) (by simp) (Runs.block ?_)
  refine Runs.loop (· = ⟨[.i32 p, .i32 bytes.length, .i32 q, .i32 q, .i32 0, .i32 0, .i32 0], m,
    size, []⟩) (fun _ => 0) rfl ?_
  rintro s rfl -
  rw [escapeRound]
  simp only [List.append_assoc, List.singleton_append]
  refine Runs.ops (t := ⟨[.i32 p, .i32 bytes.length, .i32 q, .i32 q, .i32 0, .i32 0, .i32 0], m,
    size, [truth true]⟩) (by simp [hends]) (Runs.iteTruth rfl (Runs.br ?_))
  have hresults : ∀ c : Nat, c = lowBits 32 (q + ([] : List UInt8).length) →
      Runs (ops [.localGet 2, .localGet 3, .localGet 2, .i32Sub, .localGet 3] ++ [])
        ⟨[.i32 p, .i32 bytes.length, .i32 q, .i32 c, .i32 0, .i32 0, .i32 0], m, size, []⟩
        (Ends (WritesAt m q [])) := by
    rintro c rfl
    have hlength : ([] : List UInt8).length < 2 ^ 32 := Nat.two_pow_pos 32
    exact escape_results hq hlength (holds_nil m q) (SameOutside.refl _ _ m)
  exact hresults q hcursor.symm

end call

end Verbosec.Wasm
