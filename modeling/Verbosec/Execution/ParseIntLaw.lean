import Verbosec.Interpreter.Eval
import Verbosec.Interpreter.TextBytes
import Verbosec.Lib.Utf8

/-!
# The grammar of `parse_int`

* `Reads` - an optional minus sign and at least one digit, with its value; `Documented` - and the
  value is a 64-bit number.
* `foldParseInt` - the optimizer on a literal.
* `nativeParseInt` - the scan loop that the compiler emits.
* `Conforms`, `agrees_iff_conforms` - the texts on which the interpreter, the optimizer and the loop
  all have the documented result.

Source: `ast.rs`, `ParseInt`; `interpreter.rs`, `optimizer.rs` and `native.rs`, the arms `ParseInt`.
-/

namespace Verbosec.Execution.ParseInt

open Verbosec.Lib Verbosec.Interpreter

/-! ## The documented grammar -/

/-- A decimal digit. -/
def IsDigit (c : Char) : Prop := 48 ≤ c.toNat ∧ c.toNat ≤ 57

instance (c : Char) : Decidable (IsDigit c) := inferInstanceAs (Decidable (_ ∧ _))

/-- The value of digits behind the value `v`. -/
def valueFrom (v : Nat) (ds : List Char) : Nat := ds.foldl (fun v d => 10 * v + (d.toNat - 48)) v

/-- The characters are at least one digit, of value `v`. -/
def ReadsDigits (cs : List Char) (v : Nat) : Prop :=
  cs ≠ [] ∧ (∀ c ∈ cs, IsDigit c) ∧ v = valueFrom 0 cs

/-- The characters are an optional minus sign and at least one digit, of value `z`. -/
def Reads (cs : List Char) (z : Int) : Prop :=
  ∃ v ds, ReadsDigits ds v ∧ (cs = '-' :: ds ∧ z = -(v : Int) ∨ cs = ds ∧ z = v)

/-- The documented result of a text. Source: `ast.rs`, `ParseInt` -/
def Documented (s : String) (n : Int64) : Prop := Reads s.toList n.toInt

/-! ## The optimizer -/

/-- The reading of a literal at compile time. Source: `optimizer.rs`, `optimize_expr`, the arm
`ParseInt`, after the inner expression has been optimized -/
def foldParseInt (inner : Expr) : Expr :=
  match inner with
  | .text s =>
      match parseI64 (trim s) with
      | some n => .number n
      | none => .parseInt inner
  | _ => .parseInt inner

/-! ## The scan loop -/

/-- The loop over the digits, the accumulator in `rax`; `none` where it jumps to the abort. Source:
`native.rs`, the arm `ParseInt` of `emit_eval_expr`, step 5 -/
def scanLoop : List UInt8 → UInt64 → Option UInt64
  | [], rax => some rax
  | b :: bytes, rax =>
      let rdx := b.toUInt64 - 0x30
      if 9 < rdx then none else scanLoop bytes (rax * 10 + rdx)

/-- The emitted scan of a text. Source: `native.rs`, the arm `ParseInt` of `emit_eval_expr`, steps 3
to 6 -/
def nativeParseInt (bytes : List UInt8) : Option Int64 :=
  match bytes with
  | [] => none
  | b :: rest =>
      let negative := b == 0x2D
      let digits := if negative then rest else b :: rest
      if digits = [] then none
      else (scanLoop digits 0).map fun rax => (if negative then 0 - rax else rax).toInt64

/-! ## Digits -/

lemma digit?_eq_some {c : Char} {d : Nat} : digit? c = some d ↔ IsDigit c ∧ d = c.toNat - 48 := by
  unfold digit? IsDigit
  split
  · rename_i h
    exact ⟨fun hd => ⟨h, (Option.some.inj hd).symm⟩, fun hd => by rw [hd.2]⟩
  · rename_i h
    exact ⟨nofun, fun hd => absurd hd.1 h⟩

lemma foldlM_digit {ds : List Char} {v w : Nat} :
    ds.foldlM (fun n c => (digit? c).map (10 * n + ·)) v = some w ↔
      (∀ c ∈ ds, IsDigit c) ∧ w = valueFrom v ds := by
  induction ds generalizing v with
  | nil => simp [valueFrom, eq_comm]
  | cons d ds ih =>
      rw [List.foldlM_cons]
      constructor
      · intro h
        obtain ⟨x, hx, h⟩ := Option.bind_eq_some_iff.mp h
        obtain ⟨y, hy, rfl⟩ := Option.map_eq_some_iff.mp hx
        obtain ⟨hd, rfl⟩ := digit?_eq_some.mp hy
        obtain ⟨hds, hw⟩ := ih.mp h
        exact ⟨List.forall_mem_cons.mpr ⟨hd, hds⟩, hw⟩
      · rintro ⟨h, hw⟩
        obtain ⟨hd, hds⟩ := List.forall_mem_cons.mp h
        refine Option.bind_eq_some_iff.mpr ⟨10 * v + (d.toNat - 48), ?_, ih.mpr ⟨hds, hw⟩⟩
        rw [digit?_eq_some.mpr ⟨hd, rfl⟩]
        rfl

lemma digits?_eq_some {ds : List Char} {v : Nat} : digits? ds = some v ↔ ReadsDigits ds v := by
  cases ds with
  | nil => exact ⟨nofun, fun h => absurd rfl h.1⟩
  | cons d ds =>
      refine foldlM_digit.trans ⟨fun h => ⟨nofun, h⟩, fun h => h.2⟩

/-- The first character of digits is no sign. -/
lemma ReadsDigits.head_ne {c : Char} {ds : List Char} {v : Nat} (h : ReadsDigits (c :: ds) v) :
    c ≠ '-' ∧ c ≠ '+' := by
  have hc := h.2.1 c List.mem_cons_self
  constructor <;> rintro rfl <;> exact absurd hc (by decide)

/-- The value of the characters is unique. -/
lemma Reads.unique {cs : List Char} {z z' : Int} (h : Reads cs z) (h' : Reads cs z') : z = z' := by
  obtain ⟨v, ds, hds, h⟩ := h
  obtain ⟨v', ds', hds', h'⟩ := h'
  rcases h with ⟨rfl, rfl⟩ | ⟨rfl, rfl⟩ <;> rcases h' with ⟨heq, rfl⟩ | ⟨heq, rfl⟩
  · cases heq
    rw [hds.2.2, hds'.2.2]
  · subst heq
    exact absurd rfl hds'.head_ne.1
  · subst heq
    exact absurd rfl hds.head_ne.1
  · subst heq
    rw [hds.2.2, hds'.2.2]

/-! ## The parser of the standard library -/

/-- The characters are an optional sign of either kind and at least one digit, of value `z`. -/
def ReadsSigned (cs : List Char) (z : Int) : Prop :=
  Reads cs z ∨ ∃ (v : Nat) (ds : List Char), ReadsDigits ds v ∧ cs = '+' :: ds ∧ z = (v : Int)

lemma parseI64_eq_some {cs : List Char} {n : Int64} :
    parseI64 cs = some n ↔ ReadsSigned cs n.toInt := by
  unfold parseI64
  split
  · rename_i ds
    rw [Option.bind_eq_some_iff]
    constructor
    · rintro ⟨v, hv, hn⟩
      exact .inl ⟨v, ds, digits?_eq_some.mp hv, .inl ⟨rfl, toI64?_eq_some.mp hn⟩⟩
    · rintro (⟨v, ds', hds, ⟨heq, hn⟩ | ⟨heq, -⟩⟩ | ⟨v, ds', -, heq, -⟩)
      · cases heq
        exact ⟨v, digits?_eq_some.mpr hds, toI64?_eq_some.mpr hn⟩
      · subst heq
        exact absurd rfl hds.head_ne.1
      · cases heq
  · rename_i ds
    rw [Option.bind_eq_some_iff]
    constructor
    · rintro ⟨v, hv, hn⟩
      exact .inr ⟨v, ds, digits?_eq_some.mp hv, rfl, toI64?_eq_some.mp hn⟩
    · rintro (⟨v, ds', hds, ⟨heq, -⟩ | ⟨heq, -⟩⟩ | ⟨v, ds', hds, heq, hn⟩)
      · cases heq
      · subst heq
        exact absurd rfl hds.head_ne.2
      · cases heq
        exact ⟨v, digits?_eq_some.mpr hds, toI64?_eq_some.mpr hn⟩
  · rename_i hminus hplus
    rw [Option.bind_eq_some_iff]
    constructor
    · rintro ⟨v, hv, hn⟩
      exact .inl ⟨v, _, digits?_eq_some.mp hv, .inr ⟨rfl, toI64?_eq_some.mp hn⟩⟩
    · rintro (⟨v, ds', hds, ⟨heq, -⟩ | ⟨heq, hn⟩⟩ | ⟨v, ds', -, heq, -⟩)
      · exact absurd heq (hminus ds')
      · subst heq
        exact ⟨v, digits?_eq_some.mpr hds, toI64?_eq_some.mpr hn⟩
      · exact absurd heq (hplus ds')

/-- Nothing is trimmed off a number. -/
lemma trim_of_reads {s : String} {z : Int} (h : Reads s.toList z) : trim s = s.toList := by
  have hplain : ∀ c ∈ s.toList, isWhiteSpace c = false := by
    have hdigit : ∀ c, IsDigit c → isWhiteSpace c = false := by
      intro c hc
      unfold IsDigit at hc
      simp only [isWhiteSpace, Bool.or_eq_false_iff, Bool.and_eq_false_iff, decide_eq_false_iff_not]
      omega
    obtain ⟨v, ds, hds, ⟨heq, -⟩ | ⟨heq, -⟩⟩ := h <;> rw [heq]
    · exact List.forall_mem_cons.mpr ⟨by decide, fun c hc => hdigit c (hds.2.1 c hc)⟩
    · exact fun c hc => hdigit c (hds.2.1 c hc)
  have hdrop : ∀ cs : List Char, (∀ c ∈ cs, isWhiteSpace c = false) →
      cs.dropWhile isWhiteSpace = cs := by
    intro cs hcs
    cases cs with
    | nil => rfl
    | cons c cs => rw [List.dropWhile_cons_of_neg (by simp [hcs c List.mem_cons_self])]
  unfold trim
  rw [hdrop _ hplain, hdrop _ fun c hc => hplain c (List.mem_reverse.mp hc), List.reverse_reverse]

/-! ## The loop -/

/-- The register after the code of the digit `0` is subtracted from a byte. -/
lemma toNat_sub_zero (b : UInt8) :
    (b.toUInt64 - 0x30).toNat = (b.toNat + (2 ^ 64 - 48)) % 2 ^ 64 := by
  rw [UInt64.toNat_sub, UInt8.toNat_toUInt64, Nat.add_comm]
  rfl

/-- A byte that is no digit ends the loop. -/
lemma scanLoop_stop {b : UInt8} (h : ¬ (48 ≤ b.toNat ∧ b.toNat ≤ 57)) (bytes : List UInt8)
    (rax : UInt64) : scanLoop (b :: bytes) rax = none := by
  have hb := b.toNat_lt
  refine if_pos ?_
  rw [UInt64.lt_iff_toNat_lt, toNat_sub_zero]
  show 9 < _
  omega

/-- A digit is pushed. -/
lemma scanLoop_digit {b : UInt8} (h : 48 ≤ b.toNat ∧ b.toNat ≤ 57) (bytes : List UInt8) (v : Nat) :
    scanLoop (b :: bytes) (UInt64.ofNat v) =
      scanLoop bytes (UInt64.ofNat (10 * v + (b.toNat - 48))) := by
  have hb := b.toNat_lt
  have hsub : b.toUInt64 - 0x30 = UInt64.ofNat (b.toNat - 48) := by
    rw [← UInt64.toNat_inj, toNat_sub_zero, UInt64.toNat_ofNat_of_lt' (show _ < 2 ^ 64 by omega)]
    omega
  have hle : ¬ (9 : UInt64) < b.toUInt64 - 0x30 := by
    rw [UInt64.lt_iff_toNat_lt, toNat_sub_zero]
    show ¬ 9 < _
    omega
  refine (if_neg hle).trans ?_
  rw [hsub, Nat.mul_comm 10 v, UInt64.ofNat_add, UInt64.ofNat_mul]
  rfl

/-- The loop reads digits into the low 64 bits of their value. -/
lemma scanLoop_chars (cs : List Char) (v : Nat) :
    scanLoop (cs.flatMap String.utf8EncodeChar) (UInt64.ofNat v) =
      (cs.foldlM (fun n c => (digit? c).map (10 * n + ·)) v).map UInt64.ofNat := by
  induction cs generalizing v with
  | nil => rfl
  | cons c cs ih =>
      rw [List.flatMap_cons, List.foldlM_cons]
      by_cases hc : IsDigit c
      · obtain ⟨h₁, h₂⟩ := hc
        have hcode : (UInt8.ofNat c.toNat).toNat = c.toNat :=
          UInt8.toNat_ofNat_of_lt' (show _ < 256 by omega)
        rw [Utf8.encode_ascii (by omega), List.singleton_append,
          scanLoop_digit (by rw [hcode]; exact ⟨h₁, h₂⟩), ih, hcode,
          digit?_eq_some.mpr ⟨⟨h₁, h₂⟩, rfl⟩]
        rfl
      · have hnone : digit? c = none := by
          cases hd : digit? c with
          | none => rfl
          | some d => exact absurd (digit?_eq_some.mp hd).1 hc
        rw [hnone]
        show _ = none
        by_cases hascii : c.toNat < 128
        · have hcode : (UInt8.ofNat c.toNat).toNat = c.toNat :=
            UInt8.toNat_ofNat_of_lt' (show _ < 256 by omega)
          rw [Utf8.encode_ascii hascii, List.singleton_append]
          exact scanLoop_stop (by rw [hcode]; exact hc) _ _
        · obtain ⟨b, bs, hb, hhigh⟩ := Utf8.encode_high (Nat.le_of_not_lt hascii)
          rw [hb, List.cons_append]
          exact scanLoop_stop (by omega) _ _

/-- The loop behind the sign, on the bytes of a text. -/
lemma scanLoop_eq_some {cs : List Char} (hne : cs ≠ []) {rax : UInt64} :
    scanLoop (cs.flatMap String.utf8EncodeChar) 0 = some rax ↔
      ∃ v, ReadsDigits cs v ∧ rax = UInt64.ofNat v := by
  rw [show (0 : UInt64) = UInt64.ofNat 0 from rfl, scanLoop_chars, Option.map_eq_some_iff]
  constructor
  · rintro ⟨v, hv, rfl⟩
    exact ⟨v, ⟨hne, foldlM_digit.mp hv⟩, rfl⟩
  · rintro ⟨v, hv, rfl⟩
    exact ⟨v, foldlM_digit.mpr hv.2, rfl⟩

lemma toInt64_ofNat (v : Nat) : (UInt64.ofNat v).toInt64 = Int64.ofInt v := by
  refine Int64.toBitVec_inj.mp ?_
  show BitVec.ofNat 64 v = BitVec.ofInt 64 v
  exact (BitVec.ofInt_natCast 64 v).symm

lemma toInt64_neg (v : Nat) : (0 - UInt64.ofNat v).toInt64 = Int64.ofInt (-(v : Int)) := by
  refine Int64.toBitVec_inj.mp ?_
  show 0#64 - BitVec.ofNat 64 v = BitVec.ofInt 64 (-(v : Int))
  rw [BitVec.zero_sub, BitVec.ofInt_neg, BitVec.ofInt_natCast]

lemma flatMap_encode_ne_nil {cs : List Char} (h : cs ≠ []) :
    cs.flatMap String.utf8EncodeChar ≠ [] := by
  obtain ⟨c, cs, rfl⟩ := List.exists_cons_of_ne_nil h
  rw [List.flatMap_cons]
  exact List.append_ne_nil_of_left_ne_nil String.utf8EncodeChar_ne_nil _

/-- The scan of digits, once the sign is known. -/
lemma scan_digits {cs : List Char} {f : UInt64 → Int64} {n : Int64} :
    (if cs.flatMap String.utf8EncodeChar = [] then none
      else (scanLoop (cs.flatMap String.utf8EncodeChar) 0).map f) = some n ↔
      ∃ v, ReadsDigits cs v ∧ n = f (UInt64.ofNat v) := by
  by_cases hne : cs = []
  · subst hne
    exact ⟨nofun, fun ⟨v, hv, _⟩ => absurd rfl hv.1⟩
  · rw [if_neg (flatMap_encode_ne_nil hne), Option.map_eq_some_iff]
    constructor
    · rintro ⟨rax, hrax, rfl⟩
      obtain ⟨v, hv, rfl⟩ := (scanLoop_eq_some hne).mp hrax
      exact ⟨v, hv, rfl⟩
    · rintro ⟨v, hv, rfl⟩
      exact ⟨_, (scanLoop_eq_some hne).mpr ⟨v, hv, rfl⟩, rfl⟩

/-- The bytes of a text start with a minus sign where the text does. -/
lemma encode_head (c : Char) : ∃ b bs, String.utf8EncodeChar c = b :: bs ∧
    ((b == 0x2D) = true ↔ c = '-') := by
  by_cases hascii : c.toNat < 128
  · refine ⟨UInt8.ofNat c.toNat, [], Utf8.encode_ascii hascii, ?_⟩
    rw [beq_iff_eq, ← UInt8.toNat_inj, UInt8.toNat_ofNat_of_lt' (show _ < 256 by omega)]
    constructor
    · intro h
      rw [← Char.ofNat_toNat c, h]
      rfl
    · rintro rfl
      rfl
  · obtain ⟨b, bs, hb, hhigh⟩ := Utf8.encode_high (Nat.le_of_not_lt hascii)
    refine ⟨b, bs, hb, ?_⟩
    rw [beq_iff_eq]
    constructor
    · rintro rfl
      exact absurd hhigh (by decide)
    · rintro rfl
      exact absurd (by decide) hascii

/-- **The loop reads the documented grammar**, and gives the low 64 bits of the value. -/
lemma nativeParseInt_eq_some {s : String} {n : Int64} :
    nativeParseInt (utf8Bytes s) = some n ↔ ∃ z, Reads s.toList z ∧ n = Int64.ofInt z := by
  have hbytes : utf8Bytes s = s.toList.flatMap String.utf8EncodeChar := by
    rw [← utf8Bytes_ofList, String.ofList_toList]
  rw [hbytes]
  cases s.toList with
  | nil =>
      refine ⟨nofun, ?_⟩
      rintro ⟨z, ⟨v, ds, hds, ⟨heq, -⟩ | ⟨rfl, -⟩⟩, -⟩
      · cases heq
      · exact absurd rfl hds.1
  | cons c cs =>
      by_cases hc : c = '-'
      · subst hc
        refine (scan_digits (f := fun rax => (0 - rax).toInt64)).trans ?_
        constructor
        · rintro ⟨v, hv, rfl⟩
          exact ⟨_, ⟨v, cs, hv, .inl ⟨rfl, rfl⟩⟩, toInt64_neg v⟩
        · rintro ⟨z, ⟨v, ds, hds, ⟨heq, rfl⟩ | ⟨rfl, -⟩⟩, rfl⟩
          · cases heq
            exact ⟨v, hds, (toInt64_neg v).symm⟩
          · exact absurd rfl hds.head_ne.1
      · obtain ⟨b, bs, hb, hminus⟩ := encode_head c
        have hflat : (c :: cs).flatMap String.utf8EncodeChar =
            b :: (bs ++ cs.flatMap String.utf8EncodeChar) := by
          rw [List.flatMap_cons, hb, List.cons_append]
        have hpositive : (b == 0x2D) = false := Bool.eq_false_iff.mpr (mt hminus.mp hc)
        have hrun : nativeParseInt ((c :: cs).flatMap String.utf8EncodeChar) =
            if (c :: cs).flatMap String.utf8EncodeChar = [] then none
            else (scanLoop ((c :: cs).flatMap String.utf8EncodeChar) 0).map (·.toInt64) := by
          rw [hflat]
          simp only [nativeParseInt, hpositive, Bool.false_eq_true, if_false]
        rw [hrun]
        refine (scan_digits (f := (·.toInt64))).trans ?_
        constructor
        · rintro ⟨v, hv, rfl⟩
          exact ⟨_, ⟨v, _, hv, .inr ⟨rfl, rfl⟩⟩, toInt64_ofNat v⟩
        · rintro ⟨z, ⟨v, ds, hds, ⟨heq, -⟩ | ⟨rfl, rfl⟩⟩, rfl⟩
          · cases heq
            exact absurd rfl hc
          · exact ⟨v, hds, (toInt64_ofNat v).symm⟩

/-! ## One grammar -/

/-- The text has the documented result in all three implementations: the documented number where
there is one, and otherwise a reported error, no folding, and the abort. -/
structure Agrees (s : String) : Prop where
  interpreter : ∀ n, applyParseInt (.text s) = .ok (.number n) ↔ Documented s n
  optimizer : ∀ n, foldParseInt (.text s) = .number n ↔ Documented s n
  native : ∀ n, nativeParseInt (utf8Bytes s) = some n ↔ Documented s n
  fails : (∀ n, ¬ Documented s n) → (∃ err, applyParseInt (.text s) = .error (.runtime err)) ∧
    foldParseInt (.text s) = .parseInt (.text s) ∧ nativeParseInt (utf8Bytes s) = none

/-- The text is in the grammar, with a 64-bit value, or it is not in the grammar, and without the
white space around it, it is no sign and digits with such a value. -/
def Conforms (s : String) : Prop :=
  (∃ n, Documented s n) ∨
    ((∀ z, ¬ Reads s.toList z) ∧ ∀ z, ReadsSigned (trim s) z → ¬ InI64 z)

lemma applyParseInt_eq_ok {s : String} {n : Int64} :
    applyParseInt (.text s) = .ok (.number n) ↔ ReadsSigned (trim s) n.toInt := by
  rw [← parseI64_eq_some]
  simp only [applyParseInt]
  cases parseI64 (trim s) with
  | none => exact ⟨nofun, nofun⟩
  | some m => exact ⟨fun h => by cases h; rfl, fun h => by cases h; rfl⟩

lemma foldParseInt_eq_number {s : String} {n : Int64} :
    foldParseInt (.text s) = .number n ↔ ReadsSigned (trim s) n.toInt := by
  rw [← parseI64_eq_some]
  simp only [foldParseInt]
  cases parseI64 (trim s) with
  | none => exact ⟨nofun, nofun⟩
  | some m => exact ⟨fun h => by cases h; rfl, fun h => by cases h; rfl⟩

/-- A signed reading of a text without white space around it, when it is in the grammar. -/
lemma readsSigned_trim_iff {s : String} {z z' : Int} (h : Reads s.toList z) :
    ReadsSigned (trim s) z' ↔ z' = z := by
  rw [trim_of_reads h]
  constructor
  · rintro (h' | ⟨v, ds, hds, heq, -⟩)
    · exact h'.unique h
    · obtain ⟨w, es, hes, ⟨heq', -⟩ | ⟨heq', -⟩⟩ := h
      · cases heq.symm.trans heq'
      · subst heq'
        rw [heq] at hes
        exact absurd rfl hes.head_ne.2
  · rintro rfl
    exact .inl h

/-- **The three implementations have the documented result exactly on the texts that conform.** -/
theorem agrees_iff_conforms (s : String) : Agrees s ↔ Conforms s := by
  constructor
  · intro h
    by_cases hdoc : ∃ n, Documented s n
    · exact .inl hdoc
    · refine .inr ⟨fun z hz => ?_, fun z hz hfit => ?_⟩
      · exact hdoc ⟨_, (h.native _).mp (nativeParseInt_eq_some.mpr ⟨z, hz, rfl⟩)⟩
      · obtain ⟨n, -, rfl⟩ := exists_toI64? hfit
        exact hdoc ⟨n, (h.interpreter n).mp (applyParseInt_eq_ok.mpr hz)⟩
  · rintro (⟨n, hn⟩ | ⟨hout, hsigned⟩)
    · have hsame : ∀ m : Int64, m.toInt = n.toInt ↔ Documented s m := fun m =>
        ⟨fun h => by rw [Documented, h]; exact hn, fun h => Reads.unique h hn⟩
      refine ⟨fun m => ?_, fun m => ?_, fun m => ?_, fun h => absurd hn (h n)⟩
      · rw [applyParseInt_eq_ok, readsSigned_trim_iff hn, hsame]
      · rw [foldParseInt_eq_number, readsSigned_trim_iff hn, hsame]
      · rw [nativeParseInt_eq_some, ← hsame]
        constructor
        · rintro ⟨z, hz, rfl⟩
          rw [hz.unique hn, Int64.ofInt_toInt]
        · intro hm
          exact ⟨n.toInt, hn, by rw [Int64.ofInt_toInt, Int64.toInt_inj.mp hm]⟩
    · have hdoc : ∀ m, ¬ Documented s m := fun m hm => hout _ hm
      have hparse : parseI64 (trim s) = none := by
        cases hp : parseI64 (trim s) with
        | none => rfl
        | some m => exact absurd (inI64_toInt m) (hsigned _ (parseI64_eq_some.mp hp))
      have hnative : nativeParseInt (utf8Bytes s) = none := by
        cases hp : nativeParseInt (utf8Bytes s) with
        | none => rfl
        | some m =>
            obtain ⟨z, hz, -⟩ := nativeParseInt_eq_some.mp hp
            exact absurd hz (hout z)
      refine ⟨fun m => ?_, fun m => ?_, fun m => ?_, fun _ => ⟨⟨.parseInt s, ?_⟩, ?_, hnative⟩⟩
      · exact iff_of_false (fun h => hsigned _ (applyParseInt_eq_ok.mp h) (inI64_toInt m)) (hdoc m)
      · exact iff_of_false (fun h => hsigned _ (foldParseInt_eq_number.mp h) (inI64_toInt m))
          (hdoc m)
      · exact iff_of_false (fun h => by rw [hnative] at h; cases h) (hdoc m)
      · simp only [applyParseInt, hparse]
        rfl
      · simp only [foldParseInt, hparse]

/-- The interpreter and the optimizer read a number behind a space, and the documented grammar has
none there. -/
theorem space_is_read : ¬ Agrees " 7" := by
  intro h
  have hread : applyParseInt (.text " 7") = .ok (.number 7) := by rfl
  obtain ⟨v, ds, hds, ⟨heq, -⟩ | ⟨heq, -⟩⟩ := (h.interpreter 7).mp hread
  · exact absurd (List.cons.inj heq).1 (by decide)
  · have hspace : IsDigit ' ' := hds.2.1 ' ' (heq ▸ List.mem_cons_self)
    exact absurd hspace (by decide)

end Verbosec.Execution.ParseInt
