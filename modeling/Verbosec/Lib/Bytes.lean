import Mathlib.Data.Nat.Bitwise
import Mathlib.Logic.Function.Basic
import Mathlib.Tactic.Common

/-!
# Bytes in a memory

* `Holds` - bytes that stand in a memory.
* `SameOutside` - memories that differ in one region only.
* `writeAll` - bytes that are written one after another.
* `Separate` - regions without a common byte.
-/

namespace Verbosec.Lib.Bytes

/-- The bytes stand in the memory from `a` on. -/
def Holds (m : Nat → UInt8) (a : Nat) (bytes : List UInt8) : Prop :=
  ∀ (i : Nat) (h : i < bytes.length), m (a + i) = bytes[i]

/-- The memories agree outside of the bytes from `a` up to `b`. -/
def SameOutside (a b : Nat) (m m' : Nat → UInt8) : Prop := ∀ x, x < a ∨ b ≤ x → m' x = m x

@[simp] lemma holds_nil (m : Nat → UInt8) (a : Nat) : Holds m a [] := fun i h => by cases h

lemma holds_cons {m : Nat → UInt8} {a : Nat} {b : UInt8} {bytes : List UInt8} :
    Holds m a (b :: bytes) ↔ m a = b ∧ Holds m (a + 1) bytes := by
  constructor
  · intro h
    refine ⟨by simpa using h 0 (Nat.zero_lt_succ _), fun i hi => ?_⟩
    have := h (i + 1) (Nat.succ_lt_succ hi)
    rwa [List.getElem_cons_succ, show a + (i + 1) = a + 1 + i by omega] at this
  · rintro ⟨hb, h⟩ i hi
    cases i with
    | zero => simpa using hb
    | succ i =>
        have := h i (Nat.lt_of_succ_lt_succ hi)
        rwa [List.getElem_cons_succ, show a + (i + 1) = a + 1 + i by omega]

/-- What stands in a memory also stands in one that agrees with it there. -/
lemma Holds.congr {m m' : Nat → UInt8} {a : Nat} {bytes : List UInt8} (h : Holds m a bytes)
    (hsame : ∀ x, a ≤ x → x < a + bytes.length → m' x = m x) : Holds m' a bytes := by
  intro i hi
  rw [hsame _ (Nat.le_add_right _ _) (by omega)]
  exact h i hi

lemma SameOutside.refl (a b : Nat) (m : Nat → UInt8) : SameOutside a b m m := fun _ _ => rfl

/-- A byte is written inside. -/
lemma SameOutside.update {a b x : Nat} {m m' : Nat → UInt8} (h : SameOutside a b m m')
    (hx : a ≤ x ∧ x < b) (v : UInt8) : SameOutside a b m (Function.update m' x v) := by
  intro y hy
  rw [Function.update_of_ne (by omega)]
  exact h y hy

/-- Bytes that are written one after another from `a` on. -/
def writeAll : (Nat → UInt8) → Nat → List UInt8 → Nat → UInt8
  | m, _, [] => m
  | m, a, b :: bs => writeAll (Function.update m a b) (a + 1) bs

lemma sameOutside_writeAll (bytes : List UInt8) (m : Nat → UInt8) (a : Nat) :
    SameOutside a (a + bytes.length) m (writeAll m a bytes) := by
  induction bytes generalizing m a with
  | nil => exact SameOutside.refl _ _ _
  | cons b bs ih =>
      intro x hx
      rw [List.length_cons] at hx
      rw [writeAll, ih (Function.update m a b) (a + 1) x (by omega), Function.update_of_ne (by omega)]

lemma holds_writeAll (bytes : List UInt8) (m : Nat → UInt8) (a : Nat) :
    Holds (writeAll m a bytes) a bytes := by
  induction bytes generalizing m a with
  | nil => exact holds_nil _ _
  | cons b bs ih =>
      refine holds_cons.mpr ⟨?_, ih (Function.update m a b) (a + 1)⟩
      rw [writeAll, sameOutside_writeAll bs _ _ a (.inl (Nat.lt_succ_self a)), Function.update_self]

lemma writeAll_append (bytes more : List UInt8) (m : Nat → UInt8) (a : Nat) :
    writeAll m a (bytes ++ more) = writeAll (writeAll m a bytes) (a + bytes.length) more := by
  induction bytes generalizing m a with
  | nil => rfl
  | cons b bs ih =>
      rw [List.cons_append, writeAll, ih, writeAll, List.length_cons,
        show a + 1 + bs.length = a + (bs.length + 1) by omega]

lemma holds_append {m : Nat → UInt8} {a : Nat} {bytes more : List UInt8} :
    Holds m a (bytes ++ more) ↔ Holds m a bytes ∧ Holds m (a + bytes.length) more := by
  induction bytes generalizing a with
  | nil => simp
  | cons b bs ih =>
      rw [List.cons_append, holds_cons, holds_cons, ih, and_assoc, List.length_cons,
        show a + 1 + bs.length = a + (bs.length + 1) by omega]

/-- Memory regions without a common byte. -/
def Separate (a len a' len' : Nat) : Prop := a + len ≤ a' ∨ a' + len' ≤ a

/-- What stands in a memory stays where other bytes are written. -/
lemma Holds.writeAll {m : Nat → UInt8} {a b : Nat} {bytes more : List UInt8} (h : Holds m a bytes)
    (hsep : Separate a bytes.length b more.length) : Holds (writeAll m b more) a bytes :=
  h.congr fun x hx hx' => sameOutside_writeAll _ _ _ x (by rcases hsep with h | h <;> omega)

end Verbosec.Lib.Bytes
