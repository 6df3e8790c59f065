import Verbosec.Wasm.Itoa

/-!
# The number reader of the WebAssembly backend

* `readInteger` - the number that bytes spell.
* `parse_loop` - the loop reads the digits.
* `parseInt_short` - on fewer than `2 ^ 31` bytes the function traps where nothing is spelled, and
  returns the number that is spelled, reduced to 64 bits.
* `parseInt_long` - on more bytes the function returns zero.
-/

namespace Verbosec.Wasm

open Lib.Wasm Lib.Bytes

/-! ## Spelled numbers -/

/-- The value of digits behind the value `v`. -/
def readDigits : Nat → List UInt8 → Option Nat
  | v, [] => some v
  | v, b :: bs =>
      if 48 ≤ b.toNat ∧ b.toNat ≤ 57 then readDigits (10 * v + (b.toNat - 48)) bs else none

/-- The value of at least one digit. -/
def readNatural (bytes : List UInt8) : Option Nat :=
  if bytes = [] then none else readDigits 0 bytes

/-- The value of digits behind at most one minus sign. -/
def readInteger : List UInt8 → Option Int
  | [] => none
  | b :: bs =>
      if b = 45 then (readNatural bs).map fun n : Nat => -(n : Int)
      else (readNatural (b :: bs)).map fun n : Nat => (n : Int)

/-! ## One digit -/

section loop

variable {p v i b size : Nat} {g : Value} {m : Nat → UInt8} {bytes : List UInt8}

/-- A digit behind a number, in 64 bits. -/
lemma push_digit {d : Nat} (hd : d < 10) :
    addBits 64 (mulBits 64 (lowBits 64 v) 10) (unsigned 64 (signed 32 d)) =
      lowBits 64 (10 * v + d) := by
  have hsigned : signed 32 d = d := signed_of_lt (by omega)
  have hext : unsigned 64 (d : Int) = d := by
    rw [unsigned, Int.emod_eq_of_lt (by omega) (by omega), Int.toNat_natCast]
  rw [hsigned, hext, addBits, mulBits, lowBits, lowBits]
  omega

/-- What is left of the bytes. -/
def unread (n : Nat) (s : State) : Nat :=
  match s.locals with
  | _ :: _ :: _ :: .i32 i :: _ => n - i
  | _ => 0

/-- The loop reads the digits from byte `i` on, and leaves the block around it. -/
lemma parse_loop {Q : Outcome → Prop} (hlen : bytes.length < 2 ^ 31) (hsize : size ≤ 2 ^ 32)
    (hfit : p + bytes.length ≤ size) (hholds : Holds m p bytes) (hi : i ≤ bytes.length)
    (ktrap : readDigits v (bytes.drop i) = none → Q .trap)
    (k : ∀ u c, readDigits v (bytes.drop i) = some u → Q (.br 0
      ⟨[.i32 p, .i32 bytes.length, .i64 (lowBits 64 u), .i32 bytes.length, g, .i32 c], m, size,
        []⟩)) :
    Runs [.loop parseRound]
      ⟨[.i32 p, .i32 bytes.length, .i64 (lowBits 64 v), .i32 i, g, .i32 b], m, size, []⟩ Q := by
  refine Runs.loop (fun s => ∃ j u c, s = ⟨[.i32 p, .i32 bytes.length, .i64 (lowBits 64 u), .i32 j,
    g, .i32 c], m, size, []⟩ ∧ j ≤ bytes.length ∧
    readDigits u (bytes.drop j) = readDigits v (bytes.drop i)) (unread bytes.length)
    ⟨i, v, b, rfl, hi, rfl⟩ ?_
  rintro s ⟨j, u, c, rfl, hj, hread⟩ -
  have hsn : signed 32 bytes.length = bytes.length := signed_of_lt hlen
  have hsj : signed 32 j = j := signed_of_lt (by omega)
  rw [parseRound]
  simp only [List.append_assoc, List.singleton_append]
  refine Runs.ops (t := ⟨[.i32 p, .i32 bytes.length, .i64 (lowBits 64 u), .i32 j, g, .i32 c], m,
    size, [truth (bytes.length ≤ j)]⟩) (by simp [hsn, hsj]) (Runs.iteTruth rfl ?_)
  by_cases hend : bytes.length ≤ j
  · obtain rfl : j = bytes.length := Nat.le_antisymm hj hend
    rw [if_pos (decide_eq_true hend)]
    rw [List.drop_length, readDigits] at hread
    exact Runs.br (k u c hread.symm)
  · rw [if_neg (by simpa using hend)]
    have hlt : j < bytes.length := Nat.lt_of_not_le hend
    have hdrop : bytes.drop j = bytes[j] :: bytes.drop (j + 1) := List.drop_eq_getElem_cons hlt
    have haddr : addBits 32 p j = p + j := addBits_eq (by omega)
    have hinside : p + j < size := by omega
    have hbyte : m (p + j) = bytes[j] := hholds j hlt
    have hsmall : bytes[j].toNat < 256 := UInt8.toNat_lt _
    have hsb : signed 32 bytes[j].toNat = bytes[j].toNat := signed_of_lt (by omega)
    have hslow : signed 32 48 = 48 := rfl
    have hshigh : signed 32 57 = 57 := rfl
    rw [hdrop, readDigits] at hread
    refine Runs.nil (Runs.ops (t := ⟨[.i32 p, .i32 bytes.length, .i64 (lowBits 64 u), .i32 j, g,
      .i32 bytes[j].toNat], m, size, [truth (bytes[j].toNat < 48)]⟩) (by
        simp [haddr, hinside, hbyte, hsb, hslow]) (Runs.iteTruth rfl ?_))
    by_cases hlow : bytes[j].toNat < 48
    · rw [if_pos (decide_eq_true hlow)]
      rw [if_neg (by omega)] at hread
      exact Runs.unreachable (ktrap hread.symm)
    · rw [if_neg (by simpa using hlow)]
      refine Runs.nil (Runs.ops (t := ⟨[.i32 p, .i32 bytes.length, .i64 (lowBits 64 u), .i32 j, g,
        .i32 bytes[j].toNat], m, size, [truth (57 < bytes[j].toNat)]⟩) (by
          simp [hsb, hshigh]) (Runs.iteTruth rfl ?_))
      by_cases hhigh : 57 < bytes[j].toNat
      · rw [if_pos (decide_eq_true hhigh)]
        rw [if_neg (by omega)] at hread
        exact Runs.unreachable (ktrap hread.symm)
      · rw [if_neg (by simpa using hhigh)]
        rw [if_pos (by omega)] at hread
        have hdigit : subBits 32 bytes[j].toNat 48 = bytes[j].toNat - 48 :=
          subBits_eq (by omega) (by omega)
        have hpush := push_digit (v := u) (d := bytes[j].toNat - 48) (by omega)
        have hnext : addBits 32 j 1 = j + 1 := addBits_eq (by omega)
        refine Runs.nil (Runs.ops (t := ⟨[.i32 p, .i32 bytes.length,
          .i64 (lowBits 64 (10 * u + (bytes[j].toNat - 48))), .i32 (j + 1), g,
          .i32 bytes[j].toNat], m, size, []⟩) (by simp [hdigit, hpush, hnext]) (Runs.br ?_))
        exact ⟨⟨j + 1, _, _, rfl, hlt, hread⟩, Nat.sub_lt_sub_left hlt (Nat.lt_succ_self j)⟩

end loop

/-! ## The function -/

/-- What follows the first byte. -/
def parseTail : List Instr :=
  .block [.loop parseRound] :: (ops [.localGet 4] ++
  Instr.ite (ops [.i64Const 0, .localGet 2, .i64Sub, .localSet 2] ++ []) [] ::
  (ops [.localGet 2] ++ []))

/-- The body of the function, up to what follows the first byte. -/
lemma parseInt_body : parseInt.body =
    ops [.i64Const 0, .localSet 2, .i32Const 0, .localSet 3, .i32Const 0, .localSet 4, .localGet 1,
      .i32Eqz] ++ Instr.ite [.unreachable] [] ::
    (ops [.localGet 0, .i32Load8U 0, .localSet 5, .localGet 5, .i32Const 45, .i32Eq] ++
    .ite (ops [.i32Const 1, .localSet 4, .i32Const 1, .localSet 3, .localGet 1, .i32Const 1,
      .i32Eq] ++ [Instr.ite [.unreachable] []]) [] :: parseTail) := rfl

/-- How the function ends on bytes that spell `z`, or nothing. -/
def Parsed (m : Nat → UInt8) : Option Int → Outcome → Prop
  | none => (· = .trap)
  | some z => Ends fun stack m' => stack = [.i64 (unsigned 64 z)] ∧ m' = m

/-- A number with its sign. -/
def withSign (negative : Bool) (n : Nat) : Int := if negative then -n else n

lemma lowBits_nonneg (n : Nat) : lowBits 64 n = unsigned 64 (n : Int) := by
  rw [lowBits, unsigned]
  omega

lemma lowBits_neg (n : Nat) : subBits 64 0 (lowBits 64 n) = unsigned 64 (-(n : Int)) := by
  rw [subBits, lowBits, unsigned]
  omega

/-- The sign is applied behind the loop. -/
lemma parseTail_sign {p n i v b size : Nat} {m : Nat → UInt8} (negative : Bool) :
    Runs (ops [.localGet 4] ++
      Instr.ite (ops [.i64Const 0, .localGet 2, .i64Sub, .localSet 2] ++ []) [] ::
      (ops [.localGet 2] ++ []))
      ⟨[.i32 p, .i32 n, .i64 (lowBits 64 v), .i32 i, truth negative, .i32 b], m, size, []⟩
      (Parsed m (some (withSign negative v))) := by
  refine Runs.ops (t := ⟨[.i32 p, .i32 n, .i64 (lowBits 64 v), .i32 i, truth negative, .i32 b], m,
    size, [truth negative]⟩) (by simp) (Runs.iteTruth rfl ?_)
  cases negative with
  | false =>
      refine Runs.nil (Runs.ops (t := ⟨[.i32 p, .i32 n, .i64 (lowBits 64 v), .i32 i, truth false,
        .i32 b], m, size, [.i64 (lowBits 64 v)]⟩) (by simp) (Runs.nil ⟨?_, rfl⟩))
      rw [lowBits_nonneg]
      rfl
  | true =>
      refine Runs.ops (t := ⟨[.i32 p, .i32 n, .i64 (unsigned 64 (-(v : Int))), .i32 i, truth true,
        .i32 b], m, size, []⟩) (by simp [lowBits_neg]) (Runs.nil ?_)
      exact Runs.ops (t := ⟨[.i32 p, .i32 n, .i64 (unsigned 64 (-(v : Int))), .i32 i, truth true,
        .i32 b], m, size, [.i64 (unsigned 64 (-(v : Int)))]⟩) (by simp) (Runs.nil ⟨rfl, rfl⟩)

section call

variable {p size : Nat} {m : Nat → UInt8} {bytes : List UInt8}

/-- The digits from byte `i` on. -/
lemma parseTail_runs {i b : Nat} (negative : Bool) (hlen : bytes.length < 2 ^ 31)
    (hsize : size ≤ 2 ^ 32) (hfit : p + bytes.length ≤ size) (hholds : Holds m p bytes)
    (hi : i ≤ bytes.length) :
    Runs parseTail
      ⟨[.i32 p, .i32 bytes.length, .i64 0, .i32 i, truth negative, .i32 b], m, size, []⟩
      (Parsed m ((readDigits 0 (bytes.drop i)).map (withSign negative))) := by
  refine Runs.block (parse_loop (v := 0) hlen hsize hfit hholds hi ?_ ?_)
  · intro hnone
    rw [hnone]
    rfl
  · intro u c hsome
    rw [hsome]
    exact parseTail_sign negative

/-- The part of the function before the digits. -/
lemma parseInt_runs {Q : Outcome → Prop} (hfit : p + bytes.length ≤ size) (hholds : Holds m p bytes)
    (ktrap : bytes = [] ∨ bytes = [45] → Q .trap)
    (k : ∀ b bs, bytes = b :: bs → bytes ≠ [45] → Runs parseTail
      ⟨[.i32 p, .i32 bytes.length, .i64 0, .i32 (b = 45 : Bool).toNat, truth (b = 45),
        .i32 b.toNat], m, size, []⟩ Q) :
    Runs parseInt.body (parseInt.start [.i32 p, .i32 bytes.length] m size) Q := by
  have hstart : parseInt.start [.i32 p, .i32 bytes.length] m size =
    ⟨[.i32 p, .i32 bytes.length, .i64 0, .i32 0, .i32 0, .i32 0], m, size, []⟩ := rfl
  rw [parseInt_body, hstart]
  refine Runs.ops (t := ⟨[.i32 p, .i32 bytes.length, .i64 0, .i32 0, .i32 0, .i32 0], m, size,
    [truth (bytes.length = 0)]⟩) (by simp) (Runs.iteTruth rfl ?_)
  cases hbytes : bytes with
  | nil =>
      exact Runs.unreachable (ktrap (.inl hbytes))
  | cons b bs =>
      rw [← hbytes]
      have hlen : bytes.length = bs.length + 1 := by rw [hbytes, List.length_cons]
      have hbyte : m p = b := by
        rw [hbytes] at hholds
        exact (holds_cons.mp hholds).1
      have hinside : p < size := by omega
      have hiff : b.toNat = 45 ↔ b = 45 := UInt8.toNat_inj (b := 45)
      rw [if_neg (by simp [hlen])]
      refine Runs.nil (Runs.ops (t := ⟨[.i32 p, .i32 bytes.length, .i64 0, .i32 0, .i32 0,
        .i32 b.toNat], m, size, [truth (b = 45)]⟩) (by simp [hbyte, hinside, hiff])
        (Runs.iteTruth rfl ?_))
      by_cases hminus : b = 45
      · rw [if_pos (decide_eq_true hminus)]
        refine Runs.ops (t := ⟨[.i32 p, .i32 bytes.length, .i64 0, .i32 1, .i32 1, .i32 b.toNat], m,
          size, [truth (bytes.length = 1)]⟩) (by simp) (Runs.iteTruth rfl ?_)
        by_cases hone : bytes.length = 1
        · rw [if_pos (decide_eq_true hone)]
          have hnil : bs = [] := List.eq_nil_of_length_eq_zero (by omega)
          exact Runs.unreachable (ktrap (.inr (by rw [hbytes, hminus, hnil])))
        · rw [if_neg (by simpa using hone)]
          have := k b bs hbytes (fun h => hone (by rw [h]; rfl))
          rw [decide_eq_true hminus] at this
          exact Runs.nil (Runs.nil this)
      · rw [if_neg (by simpa using hminus)]
        have := k b bs hbytes (fun h => hminus (by rw [hbytes] at h; exact (List.cons.inj h).1))
        rw [decide_eq_false hminus] at this
        exact Runs.nil this

/-- On fewer than `2 ^ 31` bytes the function reads what they spell. -/
theorem parseInt_short (hlen : bytes.length < 2 ^ 31) (hsize : size ≤ 2 ^ 32)
    (hfit : p + bytes.length ≤ size) (hholds : Holds m p bytes) :
    Runs parseInt.body (parseInt.start [.i32 p, .i32 bytes.length] m size)
      (Parsed m (readInteger bytes)) := by
  refine parseInt_runs hfit hholds ?_ fun b bs hbytes hlone => ?_
  · rintro (rfl | rfl)
    · rfl
    · rfl
  · by_cases hminus : b = 45
    · have hsome : bs ≠ [] := fun h => hlone (by rw [hbytes, hminus, h])
      have hread : readInteger bytes =
          (readDigits 0 (bytes.drop 1)).map (withSign (decide (b = 45))) := by
        rw [hbytes, readInteger, if_pos hminus, readNatural, if_neg hsome, decide_eq_true hminus]
        rfl
      rw [hread, decide_eq_true hminus]
      refine parseTail_runs (i := 1) true hlen hsize hfit hholds ?_
      rw [hbytes, List.length_cons]
      omega
    · have hread : readInteger bytes =
          (readDigits 0 (bytes.drop 0)).map (withSign (decide (b = 45))) := by
        rw [hbytes, readInteger, if_neg hminus, readNatural, if_neg (List.cons_ne_nil _ _),
          decide_eq_false hminus]
        rfl
      rw [hread, decide_eq_false hminus]
      exact parseTail_runs (i := 0) false hlen hsize hfit hholds (Nat.zero_le _)

/-- From `2 ^ 31` bytes on the length is negative for the test of the loop, which ends at once. -/
theorem parseInt_long (hlen : 2 ^ 31 ≤ bytes.length) (hsize : size ≤ 2 ^ 32)
    (hfit : p + bytes.length ≤ size) (hholds : Holds m p bytes) :
    Runs parseInt.body (parseInt.start [.i32 p, .i32 bytes.length] m size) (Parsed m (some 0)) := by
  refine parseInt_runs hfit hholds ?_ fun b bs hbytes _ => ?_
  · rintro (rfl | rfl)
    · exact absurd hlen (by decide)
    · exact absurd hlen (by decide)
  · have hnegative : signed 32 bytes.length ≤ 0 := by
      rw [signed, if_neg (by omega)]
      omega
    have hindex : ∀ c : Bool, signed 32 c.toNat = c.toNat := by decide
    have hends : signed 32 bytes.length ≤ signed 32 (b = 45 : Bool).toNat := by
      rw [hindex]
      omega
    refine Runs.block (Runs.loop (· = ⟨[.i32 p, .i32 bytes.length, .i64 0,
      .i32 (b = 45 : Bool).toNat, truth (b = 45), .i32 b.toNat], m, size, []⟩) (fun _ => 0) rfl ?_)
    rintro s rfl -
    rw [parseRound]
    simp only [List.append_assoc, List.singleton_append]
    refine Runs.ops (t := ⟨[.i32 p, .i32 bytes.length, .i64 0, .i32 (b = 45 : Bool).toNat,
      truth (b = 45), .i32 b.toNat], m, size, [truth true]⟩) (by simp [hends])
      (Runs.iteTruth rfl (Runs.br ?_))
    have hzero : withSign (decide (b = 45)) 0 = 0 := by
      rw [withSign]
      split <;> rfl
    rw [← hzero]
    exact parseTail_sign (v := 0) (decide (b = 45))

end call

end Verbosec.Wasm
