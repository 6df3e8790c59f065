import Mathlib.Data.Nat.Digits.Defs
import Mathlib.Tactic.IntervalCases
import Verbosec.Lib.Bytes
import Verbosec.Wasm.Helpers

/-!
# The number writer of the WebAssembly backend

* `digitBytes` - the decimal digits of a number.
* `itoa_loop` - the loop writes the digits backwards from byte 47.
* `itoa_returns` - the function returns the place of the decimal text of its argument.
-/

namespace Verbosec.Wasm

open Lib.Wasm Lib.Bytes

/-! ## Digits -/

/-- The decimal digits of a number, as bytes. -/
def digitBytes (n : Nat) : List UInt8 := (Nat.toDigits 10 n).map fun c => UInt8.ofNat c.toNat

/-- The byte of a digit. -/
lemma digitChar_byte {d : Nat} (h : d < 10) :
    UInt8.ofNat (Nat.digitChar d).toNat = UInt8.ofNat (d + 48) := by
  interval_cases d <;> rfl

lemma digitBytes_of_lt {n : Nat} (h : n < 10) : digitBytes n = [UInt8.ofNat (n + 48)] := by
  rw [digitBytes, Nat.toDigits_of_lt_base h, List.map_singleton, digitChar_byte h]

lemma digitBytes_of_ge {n : Nat} (h : 10 ≤ n) :
    digitBytes n = digitBytes (n / 10) ++ [UInt8.ofNat (n % 10 + 48)] := by
  rw [digitBytes, Nat.toDigits_of_base_le (by decide) h, List.map_append, List.map_singleton,
    digitChar_byte (Nat.mod_lt _ (by decide)), digitBytes]

/-! ## One digit -/

section loop

variable {n g : Value} {v c size : Nat} {m : Nat → UInt8}

/-- The digit of the units is written at the cursor. -/
lemma itoaRound_ops (hc : 0 < c) (hc' : c < 2 ^ 32) (hsize : c < size) :
    evalAll [.localGet 2, .localGet 1, .i64Const 10, .i64RemU, .i32WrapI64, .i32Const 48, .i32Add,
      .i32Store8 0, .localGet 2, .i32Const 1, .i32Sub, .localSet 2, .localGet 1, .i64Const 10,
      .i64DivU, .localSet 1, .localGet 1, .i64Const 0, .i64Ne]
      ⟨[n, .i64 v, .i32 c, g], m, size, []⟩ =
    .ok ⟨[n, .i64 (v / 10), .i32 (c - 1), g], Function.update m c (UInt8.ofNat (v % 10 + 48)), size,
      [truth (v / 10 ≠ 0)]⟩ := by
  have hdigit : lowBits 32 (v % 10) = v % 10 := lowBits_eq (by omega)
  have hbyte : addBits 32 (v % 10) 48 = v % 10 + 48 := addBits_eq (by omega)
  have hcursor : subBits 32 c 1 = c - 1 := subBits_eq hc hc'
  simp [hsize, hdigit, hbyte, hcursor]

/-- The state before a round: the digits `suffix` of `v₀` stand behind the cursor, and the digits
of `v` are missing. -/
def ItoaInv (n g : Value) (v₀ size : Nat) (m₀ : Nat → UInt8) (s : State) : Prop :=
  ∃ v c m suffix, s = ⟨[n, .i64 v, .i32 c, g], m, size, []⟩ ∧ 0 < v ∧
    digitBytes v₀ = digitBytes v ++ suffix ∧ v * 10 ^ suffix.length ≤ v₀ ∧
    c + suffix.length = 47 ∧ Holds m (c + 1) suffix ∧ SameOutside (c + 1) 48 m₀ m

/-- What is left of the number. -/
def remaining (s : State) : Nat :=
  match s.locals with
  | _ :: .i64 v :: _ => v
  | _ => 0

/-- Twenty digits are enough. -/
lemma length_suffix_lt {v v₀ k : Nat} (hv₀ : v₀ < 2 ^ 64) (hv : 0 < v) (h : v * 10 ^ k ≤ v₀) :
    k < 20 := by
  by_contra hk
  have hpow : 10 ^ 20 ≤ 10 ^ k := Nat.pow_le_pow_right (by decide) (Nat.le_of_not_lt hk)
  have hle : 10 ^ k ≤ v * 10 ^ k := Nat.le_mul_of_pos_left _ hv
  have hbig : 2 ^ 64 < 10 ^ 20 := by decide
  omega

/-- The loop writes the digits up to byte 47. -/
lemma itoa_loop {is : List Instr} {Q : Outcome → Prop} (hv : 0 < v) (hv' : v < 2 ^ 64)
    (hsize : 48 ≤ size)
    (k : ∀ c m', c + (digitBytes v).length = 47 → 27 ≤ c → Holds m' (c + 1) (digitBytes v) →
      SameOutside (c + 1) 48 m m' → Runs is ⟨[n, .i64 0, .i32 c, g], m', size, []⟩ Q) :
    Runs (.loop itoaRound :: is) ⟨[n, .i64 v, .i32 47, g], m, size, []⟩ Q := by
  refine Runs.loop (ItoaInv n g v size m) remaining ?_ ?_
  · exact ⟨v, 47, m, [], rfl, hv, (List.append_nil _).symm, by simp, rfl, holds_nil _ _,
      SameOutside.refl _ _ _⟩
  · rintro s ⟨u, c, m', suffix, rfl, hu, hdigits, hle, hc, hholds, hsame⟩ -
    have hlen := length_suffix_lt hv' hu hle
    refine Runs.ops (itoaRound_ops (by omega) (by omega) (by omega)) ?_
    have hwritten : Holds (Function.update m' c (UInt8.ofNat (u % 10 + 48))) c
        (UInt8.ofNat (u % 10 + 48) :: suffix) := by
      refine holds_cons.mpr ⟨Function.update_self .., hholds.congr fun x hx _ => ?_⟩
      exact Function.update_of_ne (by omega) ..
    have hsame' : SameOutside c 48 m (Function.update m' c (UInt8.ofNat (u % 10 + 48))) :=
      SameOutside.update (fun x hx => hsame x (by omega)) (by omega) _
    refine Runs.brIf rfl (fun hmore => ?_) (fun hdone => Runs.nil ?_)
    · have hge : 10 ≤ u := by
        have := of_decide_eq_true hmore
        omega
      refine ⟨⟨u / 10, c - 1, _, UInt8.ofNat (u % 10 + 48) :: suffix, rfl, by omega, ?_, ?_, ?_, ?_,
        ?_⟩, ?_⟩
      · rw [hdigits, digitBytes_of_ge hge, List.append_assoc, List.singleton_append]
      · have hround : u / 10 * 10 ^ (suffix.length + 1) ≤ u * 10 ^ suffix.length := by
          rw [Nat.pow_succ', ← Nat.mul_assoc]
          exact Nat.mul_le_mul_right _ (Nat.div_mul_le_self u 10)
        exact hround.trans hle
      · rw [List.length_cons]
        omega
      · rw [Nat.sub_add_cancel (by omega)]
        exact hwritten
      · rw [Nat.sub_add_cancel (by omega)]
        exact hsame'
      · exact Nat.div_lt_self hu (by decide)
    · have hlt : u < 10 := by
        have := of_decide_eq_false hdone
        omega
      have hzero : u / 10 = 0 := Nat.div_eq_of_lt hlt
      rw [digitBytes_of_lt hlt, List.singleton_append] at hdigits
      rw [hzero]
      rw [Nat.mod_eq_of_lt hlt] at hwritten hsame' ⊢
      rw [hdigits] at k
      refine k (c - 1) _ ?_ (by omega) ?_ ?_
      · rw [List.length_cons]
        omega
      · rw [Nat.sub_add_cancel (by omega)]
        exact hwritten
      · rw [Nat.sub_add_cancel (by omega)]
        exact hsame'

end loop

/-! ## The function -/

/-- The bytes of a number with its sign. -/
def decimalBytes (negative : Bool) (n : Nat) : List UInt8 :=
  if negative then 45 :: digitBytes n else digitBytes n

/-- What the function leaves: the place of the text, and the other bytes as they were. -/
def WritesText (m : Nat → UInt8) (text : List UInt8) (stack : List Value) (m' : Nat → UInt8) :
    Prop :=
  ∃ p, stack = [.i32 text.length, .i32 p] ∧ 16 ≤ p ∧ p + text.length ≤ 48 ∧ Holds m' p text ∧
    SameOutside 16 48 m m'

/-- What follows the sign. -/
def itoaTail : List Instr :=
  ops [.localGet 1, .i64Eqz] ++
  Instr.ite (ops [.i32Const 16, .i32Const 48, .i32Store8 0, .i32Const 16, .i32Const 1] ++
    [Instr.ret]) [] ::
  (ops [.i32Const 47, .localSet 2] ++
  Instr.loop itoaRound ::
  (ops [.localGet 3] ++
  .ite (ops [.localGet 2, .i32Const 45, .i32Store8 0, .localGet 2, .i32Const 1, .i32Sub,
    .localSet 2] ++ []) [] ::
  (ops [.localGet 2, .i32Const 1, .i32Add, .i32Const 47, .localGet 2, .i32Sub] ++ [])))

/-- The body of the function, up to what follows the sign. -/
lemma itoa_body : itoa.body =
    ops [.localGet 0, .localSet 1, .i32Const 0, .localSet 3, .localGet 1, .i64Const 0, .i64LtS] ++
    Instr.ite (ops [.i32Const 1, .localSet 3, .i64Const 0, .localGet 1, .i64Sub,
      .localSet 1] ++ []) [] ::
    itoaTail := rfl

/-- The place of the text from the cursor below it. -/
lemma itoa_place {n : Value} {g c size : Nat} {m m' : Nat → UInt8} {text : List UInt8}
    (hc : c + text.length = 47) (hlow : 15 ≤ c) (h : Holds m' (c + 1) text)
    (hsame : SameOutside (c + 1) 48 m m') :
    Runs (ops [.localGet 2, .i32Const 1, .i32Add, .i32Const 47, .localGet 2, .i32Sub] ++ [])
      ⟨[n, .i64 0, .i32 c, .i32 g], m', size, []⟩ (Ends (WritesText m text)) := by
  have hnext : addBits 32 c 1 = c + 1 := addBits_eq (by omega)
  have hlen : subBits 32 47 c = text.length := by
    rw [subBits_eq (by omega) (by decide)]
    omega
  refine Runs.ops (t := ⟨[n, .i64 0, .i32 c, .i32 g], m', size, [.i32 text.length, .i32 (c + 1)]⟩)
    (by simp [hnext, hlen]) (Runs.nil ⟨c + 1, rfl, by omega, by omega, h, ?_⟩)
  exact fun x hx => hsame x (by omega)

lemma itoaTail_runs {n : Value} {v size : Nat} {m : Nat → UInt8} (negative : Bool)
    (hv : v < 2 ^ 64) (hneg : negative = true → 0 < v) (hsize : 48 ≤ size) :
    Runs itoaTail ⟨[n, .i64 v, .i32 0, truth negative], m, size, []⟩
      (Ends (WritesText m (decimalBytes negative v))) := by
  refine Runs.ops (t := ⟨[n, .i64 v, .i32 0, truth negative], m, size, [truth (v = 0)]⟩)
    (by simp) (Runs.iteTruth rfl ?_)
  by_cases hzero : v = 0
  · have hpos : negative = false := by
      cases negative with
      | false => rfl
      | true => exact absurd (hneg rfl) (by omega)
    have hsixteen : 16 + 0 < size := by omega
    have htext : decimalBytes false 0 = [48] := digitBytes_of_lt (by decide)
    rw [if_pos (decide_eq_true hzero), hzero, hpos, htext]
    refine Runs.ops (t := ⟨[n, .i64 0, .i32 0, truth false], Function.update m 16 48, size,
      [.i32 1, .i32 16]⟩) (by simp [hsixteen]) (Runs.ret ?_)
    have hholds : Holds (Function.update m 16 48) 16 [48] :=
      holds_cons.mpr ⟨Function.update_self 16 48 m, holds_nil _ _⟩
    refine ⟨16, rfl, le_rfl, by decide, hholds, ?_⟩
    exact (SameOutside.refl 16 48 m).update (by omega) 48
  · rw [if_neg (by simpa using hzero)]
    refine Runs.nil (Runs.ops (t := ⟨[n, .i64 v, .i32 47, truth negative], m, size, []⟩)
      (by simp) (itoa_loop (by omega) hv hsize ?_))
    intro c m' hc hlow hholds hsame
    refine Runs.ops (t := ⟨[n, .i64 0, .i32 c, truth negative], m', size, [truth negative]⟩)
      (by simp) (Runs.iteTruth rfl ?_)
    cases negative with
    | false => exact Runs.nil (itoa_place hc (by omega) hholds hsame)
    | true =>
        have hcursor : subBits 32 c 1 = c - 1 := subBits_eq (by omega) (by omega)
        have hinside : c < size := by omega
        refine Runs.ops (t := ⟨[n, .i64 0, .i32 (c - 1), truth true], Function.update m' c 45, size,
          []⟩) (by simp [hcursor, hinside]) (Runs.nil (itoa_place ?_ (by omega) ?_ ?_))
        · rw [decimalBytes, if_pos rfl, List.length_cons]
          omega
        · rw [Nat.sub_add_cancel (by omega), decimalBytes, if_pos rfl]
          refine holds_cons.mpr ⟨Function.update_self .., hholds.congr fun x hx _ => ?_⟩
          exact Function.update_of_ne (by omega) ..
        · rw [Nat.sub_add_cancel (by omega)]
          exact SameOutside.update (fun x hx => hsame x (by omega)) (by omega) _

/-- The least number is its own negation, which is its absolute value as an unsigned number. -/
lemma negated {z : Int} (h : -2 ^ 63 ≤ z) (hneg : z < 0) :
    subBits 64 0 (unsigned 64 z) = z.natAbs := by
  rw [subBits, unsigned]
  have hmod : z % 2 ^ 64 = z + 2 ^ 64 := by
    rw [← Int.add_mul_emod_self_left z (2 ^ 64) 1, Int.mul_one]
    exact Int.emod_eq_of_lt (by omega) (by omega)
  rw [hmod, Nat.mod_eq_of_lt] <;> omega

/-- A number of 64 bits reads as itself. -/
lemma signed_unsigned {z : Int} (h : -2 ^ 63 ≤ z) (h' : z < 2 ^ 63) :
    signed 64 (unsigned 64 z) = z := by
  rw [signed, unsigned]
  split <;> omega

/-- The function returns the place of the text of its argument. -/
theorem itoa_returns {z : Int} (h : -2 ^ 63 ≤ z) (h' : z < 2 ^ 63) {size : Nat} (hsize : 48 ≤ size)
    (m : Nat → UInt8) :
    ∃ results m', itoa.Returns [.i64 (unsigned 64 z)] m size results.reverse m' ∧
      WritesText m (decimalBytes (z < 0) z.natAbs) results m' := by
  refine Func.returns_of_runs ?_
  have hzero : signed 64 0 = 0 := rfl
  have hstart : itoa.start [.i64 (unsigned 64 z)] m size =
    ⟨[.i64 (unsigned 64 z), .i64 0, .i32 0, .i32 0], m, size, []⟩ := rfl
  rw [itoa_body, hstart]
  refine Runs.ops (t := ⟨[.i64 (unsigned 64 z), .i64 (unsigned 64 z), .i32 0, .i32 0], m, size,
    [truth (z < 0)]⟩) (by simp [signed_unsigned h h', hzero]) (Runs.iteTruth rfl ?_)
  by_cases hneg : z < 0
  · rw [if_pos (decide_eq_true hneg), decide_eq_true hneg]
    refine Runs.ops (t := ⟨[.i64 (unsigned 64 z), .i64 z.natAbs, .i32 0, truth true], m, size, []⟩)
      (by simp [negated h hneg, truth]) (Runs.nil ?_)
    exact itoaTail_runs true (by omega) (fun _ => by omega) hsize
  · rw [if_neg (by simpa using hneg), decide_eq_false hneg]
    have hsame : unsigned 64 z = z.natAbs := by
      rw [unsigned, Int.emod_eq_of_lt (by omega) (by omega)]
      omega
    rw [hsame]
    exact Runs.nil (itoaTail_runs false (by omega) (fun hf => absurd hf (by decide)) hsize)

end Verbosec.Wasm
