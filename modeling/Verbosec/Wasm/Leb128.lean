import Verbosec.Lib.Wasm
import Mathlib.Algebra.Order.GroupWithZero.Basic
import Mathlib.Algebra.Order.Ring.Int

/-!
# Numbers in LEB128

* `emitLeb128`, `emitSleb128` - the bytes that the encoders append.
* `Delimited` - every byte but the last one has its high bit.
* `uleb_bound`, `sleb_bound` - what some bytes can stand for at all.
* `leb128_exact` - the encoders are exact, self-delimiting and as short as possible.

Source: `wasm.rs`, `emit_leb128` and `emit_sleb128`.
-/

namespace Verbosec.Wasm

open Verbosec.Lib.Wasm (uleb sleb)

/-! ## Words -/

lemma toNat_shift (n : UInt64) : (n >>> 7).toNat = n.toNat / 128 := by
  rw [UInt64.toNat_shiftRight, Nat.shiftRight_eq_div_pow]
  rfl

lemma toNat_group (n : UInt64) : (n &&& 0x7F).toUInt8.toNat = n.toNat % 128 := by
  rw [UInt64.toNat_toUInt8, UInt64.toNat_and]
  have hmask : n.toNat &&& (0x7F : UInt64).toNat = n.toNat % 2 ^ 7 :=
    Nat.and_two_pow_sub_one_eq_mod n.toNat 7
  rw [hmask]
  omega

/-- A byte of seven bits with the high bit. -/
lemma toNat_more {b : UInt8} (h : b.toNat < 128) : (b ||| 0x80).toNat = b.toNat + 128 := by
  have hor := Nat.two_pow_add_eq_or_of_lt (i := 7) h 1
  have hbit : (0x80 : UInt8).toNat = 2 ^ 7 * 1 := rfl
  rw [UInt8.toNat_or, Nat.or_comm, hbit, ← hor]
  omega

lemma toInt_shift (n : Int64) : (n >>> 7).toInt = n.toInt / 128 := by
  have hshift : (n >>> 7).toBitVec = n.toBitVec.sshiftRight 7 := rfl
  rw [← Int64.toInt_toBitVec, hshift, BitVec.toInt_sshiftRight, Int.shiftRight_eq_div_pow]
  rfl

lemma toNat_signedGroup (n : Int64) :
    (((n &&& 0x7F).toUInt64.toUInt8.toNat : Nat) : Int) = n.toInt % 128 := by
  have hand : (n &&& 0x7F).toUInt64 = n.toUInt64 &&& 0x7F := rfl
  have hmod : n.toInt = (n.toUInt64.toNat : Int).bmod (2 ^ 64) := by
    rw [← Int64.toInt_toBitVec, BitVec.toInt_eq_toNat_bmod]
    rfl
  have hlt := n.toUInt64.toNat_lt
  rw [hand, toNat_group, hmod, Int.bmod_def]
  split <;> omega

/-! ## The encoders -/

/-- Source: `wasm.rs`, `emit_leb128` -/
def emitLeb128 (value : UInt64) : List UInt8 :=
  let byte := (value &&& 0x7F).toUInt8
  if value >>> 7 = 0 then [byte] else (byte ||| 0x80) :: emitLeb128 (value >>> 7)
termination_by value.toNat
decreasing_by
  rename_i h
  have hne : (value >>> 7).toNat ≠ 0 := fun hz => h (UInt64.toNat_inj.mp hz)
  rw [toNat_shift] at hne ⊢
  omega

/-- Does another byte follow? Source: `wasm.rs`, `emit_sleb128`, `more`, of the shifted value and the
byte -/
def more (value : Int64) (byte : UInt8) : Bool :=
  !(value = 0 && byte &&& 0x40 = 0) && !(value = -1 && byte &&& 0x40 ≠ 0)

/-- The bit that decides is that of the numbers from 64 on. -/
lemma sign_bit {b : UInt8} (h : b.toNat < 128) : b &&& 0x40 = 0 ↔ b.toNat < 64 := by
  have hall : ∀ k : Fin 128, (UInt8.ofNat k &&& 0x40 = 0 ↔ (UInt8.ofNat k).toNat < 64) := by
    decide +kernel
  have hb := hall ⟨b.toNat, h⟩
  rwa [UInt8.ofNat_toNat] at hb

/-- Another byte follows exactly where seven bits with a sign are too few. -/
lemma more_iff (n : Int64) :
    more (n >>> 7) (n &&& 0x7F).toUInt64.toUInt8 = true ↔ ¬ (-64 ≤ n.toInt ∧ n.toInt < 64) := by
  have hgroup := toNat_signedGroup n
  have hbit := sign_bit (b := (n &&& 0x7F).toUInt64.toUInt8) (by omega)
  have hzero : n >>> 7 = 0 ↔ n.toInt / 128 = 0 := by
    rw [← toInt_shift, ← Int64.toInt_zero, Int64.toInt_inj]
  have hone : n >>> 7 = -1 ↔ n.toInt / 128 = -1 := by
    rw [← toInt_shift, ← show (-1 : Int64).toInt = -1 from rfl, Int64.toInt_inj]
  unfold more
  simp only [Bool.and_eq_true, Bool.not_eq_true', Bool.and_eq_false_iff, decide_eq_false_iff_not,
    hzero, hone, hbit, ne_eq, not_not]
  omega

/-- Source: `wasm.rs`, `emit_sleb128` -/
def emitSleb128 (value : Int64) : List UInt8 :=
  let byte := (value &&& 0x7F).toUInt64.toUInt8
  if more (value >>> 7) byte then (byte ||| 0x80) :: emitSleb128 (value >>> 7) else [byte]
termination_by value.toInt.natAbs
decreasing_by
  rename_i h
  rw [more_iff] at h
  rw [toInt_shift]
  omega

/-! ## What bytes can stand for -/

/-- Every byte but the last one has its high bit. -/
def Delimited : List UInt8 → Prop
  | [] => False
  | [b] => b.toNat < 128
  | b :: bs => 128 ≤ b.toNat ∧ Delimited bs

/-- The number in some bytes has at most seven bits for each of them. -/
lemma uleb_bound : ∀ {bs rest : List UInt8} {n : Nat}, uleb bs = some (n, rest) →
    n < 2 ^ (7 * (bs.length - rest.length)) ∧ rest.length < bs.length := by
  intro bs
  induction bs with
  | nil => intro rest n h; cases h
  | cons b bs ih =>
      intro rest n h
      unfold uleb at h
      split at h
      · rename_i hb
        cases h
        simp only [List.length_cons]
        have hlen : bs.length + 1 - bs.length = 1 := by omega
        rw [hlen]
        omega
      · obtain ⟨⟨k, r⟩, hk, hn⟩ := Option.map_eq_some_iff.mp h
        cases hn
        obtain ⟨hlt, hlen⟩ := ih hk
        have hb := b.toNat_lt
        have hpow : 2 ^ (7 * (bs.length + 1 - r.length)) =
            128 * 2 ^ (7 * (bs.length - r.length)) := by
          rw [show 7 * (bs.length + 1 - r.length) = 7 + 7 * (bs.length - r.length) by omega,
            Nat.pow_add]
        simp only [List.length_cons]
        rw [hpow]
        omega

/-- The signed number in some bytes has at most seven bits for each of them, its sign included. -/
lemma sleb_bound : ∀ {bs rest : List UInt8} {n : Int}, sleb bs = some (n, rest) →
    rest.length < bs.length ∧ -(2 ^ (7 * (bs.length - rest.length) - 1) : Int) ≤ n ∧
      n < 2 ^ (7 * (bs.length - rest.length) - 1) := by
  intro bs
  induction bs with
  | nil => intro rest n h; cases h
  | cons b bs ih =>
      intro rest n h
      unfold sleb at h
      split at h
      · rename_i hb
        cases h
        simp only [List.length_cons]
        have hlen : bs.length + 1 - bs.length = 1 := by omega
        rw [hlen]
        split <;> omega
      · obtain ⟨⟨k, r⟩, hk, hn⟩ := Option.map_eq_some_iff.mp h
        cases hn
        obtain ⟨hlen, hlow, hhigh⟩ := ih hk
        have hb := b.toNat_lt
        have hpow : (2 : Int) ^ (7 * (bs.length + 1 - r.length) - 1) =
            128 * 2 ^ (7 * (bs.length - r.length) - 1) := by
          rw [show 7 * (bs.length + 1 - r.length) - 1 = 7 + (7 * (bs.length - r.length) - 1) by
            omega, pow_add]
          rfl
        simp only [List.length_cons]
        rw [hpow]
        omega

/-! ## The bytes of the encoders -/

/-- The bytes of a number, what they stand for, and that their number is no larger than it need
be. -/
lemma emitLeb128_spec (n : UInt64) :
    (∀ rest, uleb (emitLeb128 n ++ rest) = some (n.toNat, rest)) ∧ Delimited (emitLeb128 n) ∧
      ((emitLeb128 n).length = 1 ∨ 2 ^ (7 * ((emitLeb128 n).length - 1)) ≤ n.toNat) := by
  fun_induction emitLeb128 n with
  | case1 n byte h =>
      have hgroup : byte.toNat = n.toNat % 128 := toNat_group n
      have hzero : n.toNat / 128 = 0 := by rw [← toNat_shift, h]; rfl
      refine ⟨fun rest => ?_, ?_, Or.inl rfl⟩
      · rw [List.singleton_append, uleb, if_pos (by omega)]
        simp only [Option.some.injEq, Prod.mk.injEq, and_true]
        omega
      · show byte.toNat < 128
        omega
  | case2 n byte h ih =>
      obtain ⟨hdecode, hdelimited, hshort⟩ := ih
      have hgroup : byte.toNat = n.toNat % 128 := toNat_group n
      have hmore := toNat_more (b := byte) (by omega)
      have hnonzero : n.toNat / 128 ≠ 0 := by
        rw [← toNat_shift]
        exact fun hz => h (UInt64.toNat_inj.mp hz)
      rw [toNat_shift] at hdecode hshort
      refine ⟨fun rest => ?_, ?_, Or.inr ?_⟩
      · rw [List.cons_append, uleb, if_neg (by omega), hdecode]
        simp only [Option.map_some, Option.some.injEq, Prod.mk.injEq, and_true]
        omega
      · cases hbs : emitLeb128 (n >>> 7) with
        | nil => rw [hbs] at hdelimited; exact hdelimited.elim
        | cons b bs =>
            rw [hbs] at hdelimited
            exact ⟨by omega, hdelimited⟩
      · rw [List.length_cons, Nat.add_sub_cancel]
        rcases hshort with hone | hshort
        · rw [hone]
          omega
        · have hlen : 0 < (emitLeb128 (n >>> 7)).length := by
            have := uleb_bound (hdecode [])
            rw [List.append_nil] at this
            exact this.2
          rw [show 7 * (emitLeb128 (n >>> 7)).length =
            7 * ((emitLeb128 (n >>> 7)).length - 1) + 7 by omega, Nat.pow_add]
          omega

/-- The bytes of a signed number, what they stand for, and that their number is no larger than it
need be. -/
lemma emitSleb128_spec (n : Int64) :
    (∀ rest, sleb (emitSleb128 n ++ rest) = some (n.toInt, rest)) ∧ Delimited (emitSleb128 n) ∧
      ((emitSleb128 n).length = 1 ∨
        ¬ (-(2 ^ (7 * ((emitSleb128 n).length - 1) - 1) : Int) ≤ n.toInt ∧
          n.toInt < 2 ^ (7 * ((emitSleb128 n).length - 1) - 1))) := by
  fun_induction emitSleb128 n with
  | case1 n byte h ih =>
      rw [more_iff] at h
      obtain ⟨hdecode, hdelimited, hshort⟩ := ih
      have hgroup : (byte.toNat : Int) = n.toInt % 128 := toNat_signedGroup n
      have hmore := toNat_more (b := byte) (by omega)
      rw [toInt_shift] at hdecode hshort
      refine ⟨fun rest => ?_, ?_, Or.inr ?_⟩
      · rw [List.cons_append, sleb, if_neg (by omega), hdecode]
        simp only [Option.map_some, Option.some.injEq, Prod.mk.injEq, and_true]
        omega
      · cases hbs : emitSleb128 (n >>> 7) with
        | nil => rw [hbs] at hdelimited; exact hdelimited.elim
        | cons b bs =>
            rw [hbs] at hdelimited
            exact ⟨by omega, hdelimited⟩
      · rw [List.length_cons, Nat.add_sub_cancel]
        rcases hshort with hone | hshort
        · rw [hone]
          omega
        · have hlen : 1 < (emitSleb128 (n >>> 7)).length ∨ (emitSleb128 (n >>> 7)).length = 1 := by
            have := sleb_bound (hdecode [])
            rw [List.append_nil] at this
            have := this.1
            simp only [List.length_nil] at this
            omega
          rcases hlen with hlen | hlen
          · rw [show 7 * (emitSleb128 (n >>> 7)).length - 1 =
              (7 * ((emitSleb128 (n >>> 7)).length - 1) - 1) + 7 by omega, pow_add]
            omega
          · rw [hlen]
            omega
  | case2 n byte h =>
      rw [more_iff, not_not] at h
      have hgroup : (byte.toNat : Int) = n.toInt % 128 := toNat_signedGroup n
      refine ⟨fun rest => ?_, ?_, Or.inl rfl⟩
      · rw [List.singleton_append, sleb, if_pos (by omega)]
        simp only [Option.some.injEq, Prod.mk.injEq, and_true]
        split <;> omega
      · show byte.toNat < 128
        omega

/-- **The LEB128 encoders are exact**: the bytes decode to the number and to nothing else, whatever
follows them; only the last one has no high bit; no shorter bytes decode to the number; and there are
at most ten of them. -/
theorem leb128_exact :
    (∀ n : UInt64, (∀ rest, uleb (emitLeb128 n ++ rest) = some (n.toNat, rest)) ∧
      Delimited (emitLeb128 n) ∧
      (∀ bs, uleb bs = some (n.toNat, []) → (emitLeb128 n).length ≤ bs.length) ∧
      (emitLeb128 n).length ≤ 10) ∧
    ∀ n : Int64, (∀ rest, sleb (emitSleb128 n ++ rest) = some (n.toInt, rest)) ∧
      Delimited (emitSleb128 n) ∧
      (∀ bs, sleb bs = some (n.toInt, []) → (emitSleb128 n).length ≤ bs.length) ∧
      (emitSleb128 n).length ≤ 10 := by
  refine ⟨fun n => ?_, fun n => ?_⟩
  · obtain ⟨hdecode, hdelimited, hshort⟩ := emitLeb128_spec n
    refine ⟨hdecode, hdelimited, fun bs hbs => ?_, ?_⟩
    · obtain ⟨hlt, hlen⟩ := uleb_bound hbs
      rw [List.length_nil, Nat.sub_zero] at hlt
      rcases hshort with hone | hshort
      · rw [List.length_nil] at hlen
        omega
      · have := (Nat.pow_lt_pow_iff_right (by omega)).mp (lt_of_le_of_lt hshort hlt)
        omega
    · rcases hshort with hone | hshort
      · omega
      · have := (Nat.pow_lt_pow_iff_right (by omega)).mp (lt_of_le_of_lt hshort n.toNat_lt)
        omega
  · obtain ⟨hdecode, hdelimited, hshort⟩ := emitSleb128_spec n
    -- a number of `k` bits fits into every larger number of bits
    have hfits : ∀ {k l : Nat}, k ≤ l → -(2 ^ k : Int) ≤ n.toInt ∧ n.toInt < 2 ^ k →
        -(2 ^ l : Int) ≤ n.toInt ∧ n.toInt < 2 ^ l := by
      intro k l hkl h
      have hpow : (2 : Int) ^ k ≤ 2 ^ l := pow_le_pow_right₀ (by omega) hkl
      omega
    refine ⟨hdecode, hdelimited, fun bs hbs => ?_, ?_⟩
    · obtain ⟨hlen, hbound⟩ := sleb_bound hbs
      rw [List.length_nil] at hlen hbound
      rcases hshort with hone | hshort
      · omega
      · by_contra hlt
        exact hshort (hfits (by omega) hbound)
    · rcases hshort with hone | hshort
      · omega
      · by_contra hlt
        refine hshort (hfits (k := 63) (by omega) ⟨?_, ?_⟩)
        · have := n.le_toInt
          omega
        · have := n.toInt_lt
          omega

end Verbosec.Wasm
