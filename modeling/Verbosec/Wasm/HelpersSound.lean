import Verbosec.Interpreter.TextBytes
import Verbosec.Lib.JsonString
import Verbosec.Wasm.JsonEscape
import Verbosec.Wasm.ParseInt

/-!
# What the helpers of the WebAssembly backend do

* `WritesNumber`, `ReadsNumber`, `EscapesText` - what the three functions are for.
* `InRange`, `Readable` - when the number reader does it.
* `helpersMeet_iff` - the bytes of the three bodies are functions that do what they are for exactly
  where the text that is read is readable and the text that is escaped is shorter than `2 ^ 31`
  bytes.
-/

namespace Verbosec.Wasm

open Lib.Wasm Lib.Bytes Lib.JsonString Interpreter

/-! ## The escape is read back -/

/-- The reader gets the byte back from its escape. -/
lemma readAll_escapedByte (b : UInt8) : readAll .plain (escapedByte b) = some (.plain, [b]) := by
  have hall : ∀ n < 256, readAll .plain (escapedByte (UInt8.ofNat n)) =
      some (.plain, [UInt8.ofNat n]) := by decide +kernel
  have hb := hall b.toNat (UInt8.toNat_lt b)
  rwa [UInt8.ofNat_toNat] at hb

theorem readString_escapedBytes (bytes : List UInt8) :
    readString (escapedBytes bytes) = some bytes := by
  have hall : readAll .plain (escapedBytes bytes) = some (.plain, bytes) := by
    induction bytes with
    | nil => rfl
    | cons b bs ih =>
        rw [escapedBytes_cons, readAll_append (readAll_escapedByte b), ih]
        rfl
  rw [readString, hall]

/-! ## The decimal text -/

lemma digit_ascii {n : Nat} {c : Char} (h : c ∈ Nat.toDigits 10 n) : c.toNat < 128 := by
  have hdigit := Nat.isDigit_of_mem_toDigits (by decide) (by decide) h
  rw [Char.isDigit, Bool.and_eq_true, decide_eq_true_eq, decide_eq_true_eq] at hdigit
  have hle : c.toNat ≤ 57 := hdigit.2
  omega

/-- The bytes of the decimal rendering. -/
lemma utf8Bytes_decimal (n : Int64) :
    utf8Bytes (decimal n) = decimalBytes (n.toInt < 0) n.toInt.natAbs := by
  have hdecimal : decimal n = n.toInt.repr := rfl
  rw [hdecimal]
  rcases n.toInt with k | k
  · have hrepr : (Int.ofNat k).repr = String.ofList (Nat.toDigits 10 k) := rfl
    have hpos : decide (Int.ofNat k < 0) = false :=
      decide_eq_false (Int.not_lt.mpr (Int.natCast_nonneg k))
    rw [hrepr, utf8Bytes_ascii fun c hc => digit_ascii hc, hpos]
    rfl
  · have hrepr : (Int.negSucc k).repr = String.ofList ('-' :: Nat.toDigits 10 (k + 1)) := by
      simp [Int.repr, Nat.repr]
    have hneg : decide (Int.negSucc k < 0) = true := decide_eq_true (Int.negSucc_lt_zero k)
    rw [hrepr, utf8Bytes_ascii, hneg]
    · rfl
    · intro c hc
      rcases List.mem_cons.mp hc with rfl | hc
      · decide
      · exact digit_ascii hc

/-! ## What the helpers are for -/

/-- The number writer returns the place of the decimal text of `n`, in the bytes 16 to 47, and
writes nothing else. -/
def WritesNumber (f : Func) (m : Nat → UInt8) (size : Nat) (n : Int64) : Prop :=
  ∃ p m', f.Returns [.i64 (unsigned 64 n.toInt)] m size
      [.i32 p, .i32 (utf8Bytes (decimal n)).length] m' ∧
    16 ≤ p ∧ p + (utf8Bytes (decimal n)).length ≤ 48 ∧ Holds m' p (utf8Bytes (decimal n)) ∧
    SameOutside 16 48 m m'

/-- Is `z` a number of 64 bits? -/
def InRange (z : Int) : Prop := -2 ^ 63 ≤ z ∧ z < 2 ^ 63

instance (z : Int) : Decidable (InRange z) := inferInstanceAs (Decidable (_ ∧ _))

/-- The number reader returns the number that the bytes at `p` spell, and traps where they spell
none or one outside of the range. -/
def ReadsNumber (f : Func) (m : Nat → UInt8) (size p : Nat) (bytes : List UInt8) : Prop :=
  match readInteger bytes with
  | none => f.Traps [.i32 p, .i32 bytes.length] m size
  | some z =>
      if InRange z then f.Returns [.i32 p, .i32 bytes.length] m size [.i64 (unsigned 64 z)] m
      else f.Traps [.i32 p, .i32 bytes.length] m size

/-- The escape of the text at `p` stands at `q`, a reader gets the text back from it, its start,
its length and the pointer past it are returned, and nothing else is written. -/
def EscapesText (f : Func) (m : Nat → UInt8) (size p : Nat) (text : List UInt8) (q : Nat) : Prop :=
  ∃ out m', f.Returns [.i32 p, .i32 text.length, .i32 q] m size
      [.i32 q, .i32 out.length, .i32 (lowBits 32 (q + out.length))] m' ∧
    Holds m' q out ∧ readString out = some text ∧ SameOutside q (q + out.length) m m'

/-- Bytes that the number reader treats as it should: a number that they spell is in range, and they
are few enough to be looked at, or spell zero. -/
def Readable (bytes : List UInt8) : Prop :=
  (∀ z, readInteger bytes = some z → InRange z) ∧
    (bytes.length < 2 ^ 31 ∨ readInteger bytes = some 0)

/-! ## What they do -/

section calls

variable {p q size : Nat} {m : Nat → UInt8} {bytes : List UInt8}

lemma writesNumber (hsize : 48 ≤ size) (m : Nat → UInt8) (n : Int64) :
    WritesNumber itoa m size n := by
  have hle : -2 ^ 63 ≤ n.toInt := Int64.le_toInt n
  have hlt : n.toInt < 2 ^ 63 := Int64.toInt_lt n
  obtain ⟨_, m', hreturns, p, rfl, hlow, hhigh, hholds, hsame⟩ := itoa_returns hle hlt hsize m
  rw [← utf8Bytes_decimal] at hreturns hhigh hholds
  exact ⟨p, m', hreturns, hlow, hhigh, hholds, hsame⟩

/-- The number reader on bytes that spell `z`, or nothing, for it. -/
lemma parsed_some {z : Int} (h : Runs parseInt.body
    (parseInt.start [.i32 p, .i32 bytes.length] m size) (Parsed m (some z))) :
    parseInt.Returns [.i32 p, .i32 bytes.length] m size [.i64 (unsigned 64 z)] m := by
  obtain ⟨_, _, hreturns, rfl, rfl⟩ := Func.returns_of_runs
    (P := fun stack m' => stack = [.i64 (unsigned 64 z)] ∧ m' = m) h
  exact hreturns

lemma unsigned_inj {z z' : Int} (hz : InRange z) (hz' : InRange z')
    (h : unsigned 64 z = unsigned 64 z') : z = z' := by
  rw [← signed_unsigned hz.1 hz.2, h, signed_unsigned hz'.1 hz'.2]

/-- The number reader does what it is for exactly on the readable bytes. -/
lemma readsNumber_iff (hsize : size ≤ 2 ^ 32) (hfit : p + bytes.length ≤ size)
    (hholds : Holds m p bytes) : ReadsNumber parseInt m size p bytes ↔ Readable bytes := by
  rw [ReadsNumber, Readable]
  by_cases hlen : bytes.length < 2 ^ 31
  · have hruns := parseInt_short hlen hsize hfit hholds
    cases hread : readInteger bytes with
    | none =>
        rw [hread] at hruns
        exact iff_of_true (Func.traps_of_runs hruns) ⟨fun z hz => (by cases hz), .inl hlen⟩
    | some z =>
        rw [hread] at hruns
        have hreturns := parsed_some hruns
        by_cases hrange : InRange z
        · simp only [if_pos hrange]
          exact iff_of_true hreturns ⟨fun z' hz' => Option.some.inj hz' ▸ hrange, .inl hlen⟩
        · simp only [if_neg hrange]
          exact iff_of_false (fun h => h.not_returns hreturns) fun h => hrange (h.1 z rfl)
  · have hreturns := parsed_some (parseInt_long (Nat.le_of_not_lt hlen) hsize hfit hholds)
    cases hread : readInteger bytes with
    | none =>
        refine iff_of_false (fun h => Func.Traps.not_returns h hreturns) ?_
        rintro ⟨-, h | h⟩
        · exact hlen h
        · cases h
    | some z =>
        by_cases hrange : InRange z
        · simp only [if_pos hrange]
          constructor
          · intro h
            have hsame := (h.unique hreturns rfl).1
            have hzero : z = 0 := unsigned_inj hrange (by decide)
              (Value.i64.inj (List.cons.inj hsame).1)
            exact ⟨fun z' hz' => Option.some.inj hz' ▸ hrange, .inr (by rw [hzero])⟩
          · rintro ⟨-, h | h⟩
            · exact absurd h hlen
            · rw [Option.some.inj h]
              exact hreturns
        · simp only [if_neg hrange]
          exact iff_of_false (fun h => h.not_returns hreturns) fun h => hrange (h.1 z rfl)

/-- The escape does what it is for exactly on texts of fewer than `2 ^ 31` bytes. -/
lemma escapesText_iff (hsize : size ≤ 2 ^ 32) (hq : q < 2 ^ 32) (hfit : p + bytes.length ≤ size)
    (hout : q + (escapedBytes bytes).length ≤ size)
    (hsep : Separate p bytes.length q (escapedBytes bytes).length) (hholds : Holds m p bytes) :
    EscapesText jsonEscapeHelper m size p bytes q ↔ bytes.length < 2 ^ 31 := by
  by_cases hlen : bytes.length < 2 ^ 31
  · refine iff_of_true ?_ hlen
    obtain ⟨_, m', hreturns, rfl, hwritten, hsame⟩ :=
      Func.returns_of_runs (jsonEscape_short hlen hsize hq hfit hout hsep hholds)
    exact ⟨escapedBytes bytes, m', hreturns, hwritten, readString_escapedBytes bytes, hsame⟩
  · refine iff_of_false ?_ hlen
    rintro ⟨out, m₁, hreturns, -, hread, -⟩
    obtain ⟨_, m₂, hnothing, rfl, -, -⟩ := Func.returns_of_runs (jsonEscape_long (p := p) (m := m)
      (Nat.le_of_not_lt hlen) (by omega) hq)
    have hsame := (hreturns.unique hnothing rfl).1
    have hlength : out.length = 0 :=
      Value.i32.inj (List.cons.inj (List.cons.inj hsame).2).1
    rw [List.eq_nil_of_length_eq_zero hlength] at hread
    rw [← Option.some.inj hread] at hlen
    exact hlen (Nat.two_pow_pos 31)

end calls

/-- The bytes of the three bodies are functions that do what they are for: on every number, on the
bytes at `p`, and on the text at `a`, whose escape goes to `q`. -/
def HelpersMeet (m : Nat → UInt8) (size p : Nat) (bytes : List UInt8) (a : Nat) (text : List UInt8)
    (q : Nat) : Prop :=
  ∃ f g h, decodeFunc buildItoaBody = some f ∧ decodeFunc buildParseIntBody = some g ∧
    decodeFunc buildJsonEscapeBody = some h ∧ (∀ n, WritesNumber f m size n) ∧
    ReadsNumber g m size p bytes ∧ EscapesText h m size a text q

/-- The regions of a call of the number reader and of one of the escape: they lie in the memory, and
the escape does not go to the text. -/
structure Regions (m : Nat → UInt8) (size p : Nat) (bytes : List UInt8) (a : Nat)
    (text : List UInt8) (q : Nat) : Prop where
  scratch : 48 ≤ size
  addressable : size ≤ 2 ^ 32
  bytes_at : Holds m p bytes
  bytes_fit : p + bytes.length ≤ size
  text_at : Holds m a text
  text_fits : a + text.length ≤ size
  pointer : q < 2 ^ 32
  escape_fits : q + (escapedBytes text).length ≤ size
  separate : Separate a text.length q (escapedBytes text).length

lemma helpersMeet_iff_calls {m : Nat → UInt8} {size p a q : Nat} {bytes text : List UInt8}
    (hlow : 48 ≤ size) :
    HelpersMeet m size p bytes a text q ↔
      ReadsNumber parseInt m size p bytes ∧ EscapesText jsonEscapeHelper m size a text q := by
  constructor
  · rintro ⟨f, g, h, -, hg, hh, -, hreads, hescapes⟩
    rw [decode_parseInt] at hg
    rw [decode_jsonEscapeHelper] at hh
    cases hg
    cases hh
    exact ⟨hreads, hescapes⟩
  · rintro ⟨hreads, hescapes⟩
    exact ⟨itoa, parseInt, jsonEscapeHelper, decode_itoa, decode_parseInt, decode_jsonEscapeHelper,
      fun n => writesNumber hlow m n, hreads, hescapes⟩

/-- The helpers do what they are for exactly on readable bytes and on texts of fewer than `2 ^ 31`
bytes. -/
theorem helpersMeet_iff {m : Nat → UInt8} {size p a q : Nat} {bytes text : List UInt8}
    (h : Regions m size p bytes a text q) :
    HelpersMeet m size p bytes a text q ↔ Readable bytes ∧ text.length < 2 ^ 31 := by
  rw [helpersMeet_iff_calls h.scratch, readsNumber_iff h.addressable h.bytes_fit h.bytes_at,
    escapesText_iff h.addressable h.pointer h.text_fits h.escape_fits h.separate h.text_at]

/-- A memory with bytes from 1024 on. -/
def page (bytes : List UInt8) (x : Nat) : UInt8 := if 1024 ≤ x then bytes.getD (x - 1024) 0 else 0

lemma holds_page (bytes : List UInt8) : Holds (page bytes) 1024 bytes := by
  intro i hi
  rw [page, if_pos (Nat.le_add_right _ _), Nat.add_sub_cancel_left, List.getD_eq_getElem?_getD,
    List.getElem?_eq_getElem hi, Option.getD_some]

/-- Bytes behind the literals of a memory of one page, and their escape behind them. -/
lemma regions_page {bytes : List UInt8} (h : bytes.length ≤ 1024)
    (h' : (escapedBytes bytes).length ≤ 1024) :
    Regions (page bytes) 65536 1024 bytes 1024 bytes 2048 where
  scratch := by decide
  addressable := by omega
  bytes_at := holds_page bytes
  bytes_fit := by omega
  text_at := holds_page bytes
  text_fits := by omega
  pointer := by decide
  escape_fits := by omega
  separate := .inl (by omega)

/-- On a negative number the helpers do what they are for. -/
theorem helpersMeet_iff_seven :
    HelpersMeet (page [45, 55]) 65536 1024 [45, 55] 1024 [45, 55] 2048 :=
  (helpersMeet_iff (regions_page (by decide) (by decide))).mpr
    ⟨⟨fun z hz => Option.some.inj hz ▸ (by decide : InRange (-7)), .inl (by decide)⟩, by decide⟩

/-- The digits of `2 ^ 63`. -/
def tooBig : List UInt8 := digitBytes (2 ^ 63)

/-- The number reader returns the least number for the digits of `2 ^ 63`. -/
theorem helpers_overflow :
    ¬ ∀ m size p bytes a text q, Regions m size p bytes a text q →
      HelpersMeet m size p bytes a text q := by
  intro h
  have hread : readInteger tooBig = some (2 ^ 63) := by decide +kernel
  have hregions : Regions (page tooBig) 65536 1024 tooBig 1024 tooBig 2048 :=
    regions_page (by decide +kernel) (by decide +kernel)
  have hreads := (helpersMeet_iff_calls hregions.scratch).mp (h _ _ _ _ _ _ _ hregions)
  have hreadable := (readsNumber_iff hregions.addressable hregions.bytes_fit hregions.bytes_at).mp
    hreads.1
  exact absurd (hreadable.1 _ hread).2 (by decide)

end Verbosec.Wasm
