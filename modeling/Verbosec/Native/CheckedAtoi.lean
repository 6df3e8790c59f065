import Mathlib.Tactic.Ring
import Verbosec.Lib.Amd64

/-!
# The strict argument parser

* `checkedAtoi`, `program` - the bytes of the parser.
* `accumulate`, `leads_top` - the loop, and what it does to the accumulator.
* `checked`, `leads_checked` - the value that the code finds.
* `Numeral`, `accumulate_eq_some` - decimal numbers; the tests of the loop refuse the rest.
* `checkedAtoi_exact` - the code accepts exactly the decimal numbers of 64 bits.

Source: `native.rs`, `emit_checked_atoi_inline`.
-/

namespace Verbosec.Native.CheckedAtoi

open Verbosec.Lib.Amd64 Verbosec.Lib.Bytes

/-- A jump with the distance that is patched in, from behind its four bytes. Source: `native.rs`,
`emit_checked_atoi_inline`, `jump` and `patch` -/
def jump (op : List UInt8) (p target : Int) : List UInt8 := op ++ le32 (target - p - 4)

/-- The code at `base`; the jumps of `aborts` are patched to `abort`. Source: `native.rs`,
`emit_checked_atoi_inline` -/
def checkedAtoi (base abort : Nat) : List UInt8 :=
  let target : Int := (abort : Int) - base
  List.flatten [
    [0x31, 0xC0, 0x31, 0xC9], -- xor eax,eax; xor ecx,ecx
    [0x80, 0x3F, 0x2D], -- cmp byte [rdi],'-'
    jump [0x0F, 0x85] 9 18, -- unsigned
    [0xB1, 1, 0x48, 0xFF, 0xC7], -- negative flag; inc rdi
    [0x80, 0x3F, 0],
    jump [0x0F, 0x84] 23 target,
    -- top
    [0x0F, 0xB6, 0x17, 0x84, 0xD2], -- movzx edx,[rdi]; test dl,dl
    jump [0x0F, 0x84] 34 77, -- done
    [0x83, 0xEA, 0x30, 0x83, 0xFA, 9], -- digit in 0..9 (unsigned)
    jump [0x0F, 0x87] 46 target,
    [0x48, 0x6B, 0xC0, 10], -- imul rax,rax,10
    jump [0x0F, 0x80] 56 target, -- jo
    [0x48, 0x29, 0xD0], -- sub rax,rdx
    jump [0x0F, 0x80] 65 target,
    [0x48, 0xFF, 0xC7],
    jump [0xE9] 73 27, -- back
    [0x84, 0xC9], -- test cl,cl
    jump [0x0F, 0x85] 81 94, -- negative
    [0x48, 0xF7, 0xD8], -- neg rax
    jump [0x0F, 0x80] 90 target]

/-- The code as a program. -/
def program (base abort : Nat) : Image := ⟨base, checkedAtoi base abort⟩

/-- The code has addresses, and its jumps reach an abort that is outside of it. -/
structure Placed (base abort : Nat) : Prop where
  stop_lt : base + 94 < 2 ^ 64
  abort_lt : abort < 2 ^ 64
  near : -2 ^ 31 + 94 ≤ (abort : Int) - base ∧ (abort : Int) - base < 2 ^ 31
  outside : abort < base ∨ base + 94 < abort

/-! ## Numbers -/

/-- Is the byte a digit? -/
def isDigit (b : UInt8) : Bool := 0x30 ≤ b ∧ b ≤ 0x39

/-- The number of some digits. -/
def decimal (ds : List UInt8) : Nat := ds.foldl (fun n b => 10 * n + (b.toNat - 0x30)) 0

/-- What the loop does to the accumulator; none where it aborts. -/
def accumulate : Int → List UInt8 → Option Int
  | acc, [] => some acc
  | acc, b :: bs =>
      if isDigit b ∧ fits 64 (acc * 10) ∧ fits 64 (acc * 10 - (b.toNat - 0x30 : Nat)) then
        accumulate (acc * 10 - (b.toNat - 0x30 : Nat)) bs
      else none

/-! ## The loop -/

section loop

variable {base abort : Nat} (hplaced : Placed base abort) {ok : Nat → Bool} {c : Cpu}

/-- A text in the accessible memory, behind `rdi` and up to its terminator. -/
structure Text (ok : Nat → Bool) (c : Cpu) (s : List UInt8) : Prop where
  bytes : Holds c.mem (c.get 64 .rdi) (s ++ [0])
  access : ∀ i ≤ s.length, ok (c.get 64 .rdi + i) = true
  room : c.get 64 .rdi + s.length < 2 ^ 64

lemma Text.congr {c c' : Cpu} {s : List UInt8} (h : Text ok c s) (hmem : c'.mem = c.mem)
    (hrdi : c'.get 64 .rdi = c.get 64 .rdi) : Text ok c' s := by
  obtain ⟨hbytes, hok, hroom⟩ := h
  rw [← hrdi] at hbytes hok hroom
  rw [← hmem] at hbytes
  exact ⟨hbytes, hok, hroom⟩

/-- The end of the loop, for the accumulator that it leaves. -/
def Scanned (base abort : Nat) (c : Cpu) (r : Option Int) (t : Nat × Cpu) : Prop :=
  match r with
  | some v => t.1 = base + 77 ∧ reading 64 (t.2.get 64 .rax) = v ∧ t.2.get 8 .rcx = c.get 8 .rcx
  | none => t.1 = abort

/-- The comparison that finds what is no digit. -/
lemma above_nine (b : UInt8) :
    holds (Alu.cmp.flags 32 (wrap 32 (Alu.sub.exact 32 b.toNat 0x30)) 9) 7 = !isDigit b := by
  have hall : ∀ n : Fin 256, holds (Alu.cmp.flags 32 (wrap 32 (Alu.sub.exact 32 n 0x30)) 9) 7 =
      !(decide (0x30 ≤ n.val) && decide (n.val ≤ 0x39)) := by decide +kernel
  rw [hall ⟨b.toNat, b.toNat_lt⟩, isDigit, Bool.decide_and]
  rfl

lemma digit_value {b : UInt8} (h : isDigit b = true) :
    wrap 32 (Alu.sub.exact 32 b.toNat 0x30) = b.toNat - 0x30 := by
  have hb := b.toNat_lt
  simp only [isDigit, UInt8.le_iff_toNat_le, decide_eq_true_eq] at h
  obtain ⟨hlow, hhigh⟩ := h
  have hlow : 0x30 ≤ b.toNat := hlow
  rw [Alu.exact, reading, reading, wrap, if_pos (by omega), if_pos (by omega)]
  omega

include hplaced in
/-- A jump to the abort, that ends at `k`. -/
lemma target_abort {k : Nat} (hk : k ≤ 94) {z : Int} (hz : z = (abort : Int) - base - k) :
    displaced (base + k)
      (int32 (byteOf z) (byteOf (z / 2 ^ 8)) (byteOf (z / 2 ^ 16)) (byteOf (z / 2 ^ 24))) =
        abort := by
  have hnear := hplaced.near
  exact displaced_int32 (by omega) (by omega) hplaced.abort_lt

include hplaced in
/-- A jump inside of the code, from `k` to `dest`. -/
lemma target_inside {k dest : Nat} (hdest : dest ≤ 94) {d : Int} (hd : d = (dest : Int) - k) :
    displaced (base + k) d = base + dest := by
  have hstop := hplaced.stop_lt
  rw [displaced]
  omega

include hplaced in
/-- The byte is loaded; the end of the text is the end of the loop. -/
lemma leads_byte {b : UInt8} (hb : c.mem (c.get 64 .rdi) = b) (hok : ok (c.get 64 .rdi) = true)
    {Q : Nat × Cpu → Prop}
    (h : ∀ c' : Cpu, c'.mem = c.mem → (∀ n r, r ≠ .rdx → c'.get n r = c.get n r) →
      c'.get 32 .rdx = b.toNat →
      Leads (program base abort) ok (base + if b = 0 then 77 else 38, c') Q) :
    Leads (program base abort) ok (base + 27, c) Q := by
  have hlt := b.toNat_lt
  have hlow : (c.set 32 .rdx (c.mem (c.get 64 .rdi)).toNat).get 8 .rdx = b.toNat := by
    rw [Cpu.get_set _ (by decide), hb]
    omega
  refine .next (P := program base abort) (k := 27) (.movzxMem 32 .rdx .rdi) rfl (if_pos hok) ?_
  refine .next (P := program base abort) (k := 30) (.test 8 .rdx .rdx) rfl rfl ?_
  have hnext := h { c.set 32 .rdx (c.mem (c.get 64 .rdi)).toNat with
      flags := Alu.xor.flags 8 ((c.set 32 .rdx (c.mem (c.get 64 .rdi)).toNat).get 8 .rdx &&&
        (c.set 32 .rdx (c.mem (c.get 64 .rdi)).toNat).get 8 .rdx) 0 }
    rfl (fun n r hr => Cpu.get_set_of_ne _ hr) (by
      rw [Cpu.get_mk, Cpu.get_set _ (by decide), hb]
      omega)
  have hzero : (Alu.xor.flags 8 b.toNat 0).zero = decide (b = 0) := by
    rw [test_zero hlt]
    exact decide_eq_decide.mpr (UInt8.toNat_inj (b := 0))
  refine .jcc (P := program base abort) (k := 32) 4 (base + 77) rfl
    (target_inside hplaced (by omega) (by decide +kernel)) (fun hyes => ?_) (fun hno => ?_)
  · have : b = 0 := by
      simpa [holds, hlow, hzero] using hyes
    rwa [if_pos this] at hnext
  · have : b ≠ 0 := by
      simpa [holds, hlow, hzero] using hno
    rwa [if_neg this] at hnext

include hplaced in
/-- The byte is checked for a digit; what is none leads to the abort. -/
lemma leads_digit {b : UInt8} (hb : c.get 32 .rdx = b.toNat) {Q : Nat × Cpu → Prop}
    (habort : isDigit b = false → ∀ c', Q (abort, c'))
    (h : isDigit b = true → ∀ c' : Cpu, c'.mem = c.mem →
      (∀ n r, r ≠ .rdx → c'.get n r = c.get n r) → c'.get 64 .rdx = b.toNat - 0x30 →
      Leads (program base abort) ok (base + 50, c') Q) :
    Leads (program base abort) ok (base + 38, c) Q := by
  refine .next (P := program base abort) (k := 38) (.aluImm .sub 32 .rdx 0x30) rfl rfl ?_
  refine .next (P := program base abort) (k := 41) (.aluImm .cmp 32 .rdx 9) rfl rfl ?_
  have hcmp : holds (((c.alu .sub 32 .rdx (wrap 32 0x30)).alu .cmp 32 .rdx (wrap 32 9)).flags) 7 =
      !isDigit b := by
    rw [Cpu.flags_alu, Cpu.get_alu _ (by decide) (by decide), hb, ← above_nine,
      Nat.mod_eq_of_lt (wrap_lt 32 _)]
    rfl
  refine .jcc (P := program base abort) (k := 44) 7 abort rfl
    (target_abort hplaced (by omega) (by omega)) (fun hyes => ?_) (fun hno => ?_)
  · rw [hcmp, Bool.not_eq_true'] at hyes
    exact .here (habort hyes _)
  · rw [hcmp, Bool.not_eq_false'] at hno
    refine h hno _ (by simp) (fun n r hr => ?_) ?_
    · rw [Cpu.get_cmp, Cpu.get_alu_of_ne _ hr]
    · have hvalue := digit_value hno
      have hlt := b.toNat_lt
      rw [Cpu.get_cmp, Cpu.get_alu _ (by decide) (by decide), hb]
      exact (congrArg (· % 2 ^ 64) hvalue).trans (Nat.mod_eq_of_lt (by omega))

include hplaced in
/-- The digit is added; a number that is no word leads to the abort. -/
lemma leads_add {d : Nat} (hd : c.get 64 .rdx = d) (hlt : d < 10) (acc : Int)
    (hacc : reading 64 (c.get 64 .rax) = acc) (hroom : c.get 64 .rdi + 1 < 2 ^ 64)
    {Q : Nat × Cpu → Prop}
    (habort : ¬ (fits 64 (acc * 10) ∧ fits 64 (acc * 10 - d)) → ∀ c', Q (abort, c'))
    (h : fits 64 (acc * 10) ∧ fits 64 (acc * 10 - d) → ∀ c' : Cpu, c'.mem = c.mem →
      c'.get 64 .rdi = c.get 64 .rdi + 1 → c'.get 8 .rcx = c.get 8 .rcx →
      reading 64 (c'.get 64 .rax) = acc * 10 - d →
      Leads (program base abort) ok (base + 27, c') Q) :
    Leads (program base abort) ok (base + 50, c) Q := by
  refine .next (P := program base abort) (k := 50) (.imul .rax .rax 10) rfl rfl ?_
  refine .jcc (P := program base abort) (k := 54) 0 abort rfl
    (target_abort hplaced (by omega) (by omega)) (fun hyes => .here (habort ?_ _)) (fun hno => ?_)
  · rintro ⟨hfits, -⟩
    simp [holds, hacc, hfits] at hyes
  have hfits : fits 64 (acc * 10) = true := by
    simpa [holds, hacc] using hno
  rw [hacc]
  refine .next (P := program base abort) (k := 60) (.alu .sub 64 .rax .rdx) rfl rfl ?_
  generalize hc₁ : Cpu.mk (c.set 64 .rax (wrap 64 (acc * 10))).regs _ _ _ = c₁
  have hmem₁ : c₁.mem = c.mem := by rw [← hc₁]; rfl
  have hrdi₁ : c₁.get 64 .rdi = c.get 64 .rdi := by
    rw [← hc₁, Cpu.get_mk, Cpu.get_set_of_ne _ (by decide)]
  have hrcx₁ : c₁.get 8 .rcx = c.get 8 .rcx := by
    rw [← hc₁, Cpu.get_mk, Cpu.get_set_of_ne _ (by decide)]
  have hrdx₁ : c₁.get 64 .rdx = d := by
    rw [← hc₁, Cpu.get_mk, Cpu.get_set_of_ne _ (by decide), hd]
  have hrax₁ : c₁.get 64 .rax = wrap 64 (acc * 10) := by
    rw [← hc₁, Cpu.get_mk, Cpu.get_set _ (by decide), Nat.mod_eq_of_lt (wrap_lt 64 _)]
  have hexact : Alu.sub.exact 64 (c₁.get 64 .rax) (c₁.get 64 .rdx) = acc * 10 - d := by
    rw [hrax₁, hrdx₁, Alu.exact, reading_wrap hfits, reading, if_pos (by omega)]
  refine .jcc (P := program base abort) (k := 63) 0 abort rfl
    (target_abort hplaced (by omega) (by omega)) (fun hyes => .here (habort ?_ _)) (fun hno => ?_)
  · rintro ⟨-, hfits'⟩
    simp [holds, Alu.flags, hexact, hfits'] at hyes
  have hfits' : fits 64 (acc * 10 - d) = true := by
    simpa [holds, Alu.flags, hexact] using hno
  refine .next (P := program base abort) (k := 69) (.inc .rdi) rfl rfl ?_
  refine .jmp (P := program base abort) (k := 72) (base + 27) rfl
    (target_inside hplaced (by omega) (by decide +kernel)) (h ⟨hfits, hfits'⟩ _ ?_ ?_ ?_ ?_)
  · simp [hmem₁]
  · rw [Cpu.get_mk, Cpu.get_alu _ (by decide) (by decide), Cpu.get_alu_of_ne _ (by decide), hrdi₁,
      inc_word hroom, Nat.mod_eq_of_lt hroom]
  · rw [Cpu.get_mk, Cpu.get_alu_of_ne _ (by decide), Cpu.get_alu_of_ne _ (by decide), hrcx₁]
  · rw [Cpu.get_mk, Cpu.get_alu_of_ne _ (by decide), Cpu.get_alu _ (by decide) (by decide), hexact,
      Nat.mod_eq_of_lt (wrap_lt 64 _), reading_wrap hfits']

include hplaced in
/-- **The loop** accumulates the digits, and leads to the abort where it cannot. -/
lemma leads_top {bs : List UInt8} (hbs : 0 ∉ bs) (acc : Int) (htext : Text ok c bs)
    (hacc : reading 64 (c.get 64 .rax) = acc) :
    Leads (program base abort) ok (base + 27, c) (Scanned base abort c (accumulate acc bs)) := by
  induction bs generalizing c acc with
  | nil =>
      obtain ⟨hbytes, hok, -⟩ := htext
      have hbyte : c.mem (c.get 64 .rdi) = 0 := (holds_cons.mp hbytes).1
      refine leads_byte hplaced hbyte (hok 0 (Nat.le_refl _)) fun c' _ hrest _ =>
        .here ⟨rfl, ?_, ?_⟩
      · rw [hrest _ _ (by decide), hacc]
      · exact hrest _ _ (by decide)
  | cons b bs ih =>
      obtain ⟨hbytes, hok, hroom⟩ := htext
      obtain ⟨hbyte, htail⟩ := holds_cons.mp hbytes
      have hne : b ≠ 0 := fun h => hbs (h ▸ List.mem_cons_self)
      have hlength : (b :: bs).length = bs.length + 1 := rfl
      refine leads_byte hplaced hbyte (hok 0 (Nat.zero_le _)) fun c₁ hmem₁ hrest₁ hrdx₁ => ?_
      rw [if_neg hne]
      refine leads_digit hplaced hrdx₁ (fun hno c' => ?_) fun hdigit c₂ hmem₂ hrest₂ hrdx₂ => ?_
      · simp [accumulate, hno, Scanned]
      have hrdi₂ : c₂.get 64 .rdi = c.get 64 .rdi := by
        rw [hrest₂ _ _ (by decide), hrest₁ _ _ (by decide)]
      have hdigit' := hdigit
      simp only [isDigit, UInt8.le_iff_toNat_le, decide_eq_true_eq] at hdigit'
      have hhigh : b.toNat ≤ 0x39 := hdigit'.2
      refine leads_add hplaced hrdx₂ (by omega) acc ?_ (by omega) (fun hno c' => ?_)
        fun hfits c₃ hmem₃ hrdi₃ hrcx₃ hrax₃ => ?_
      · rw [hrest₂ _ _ (by decide), hrest₁ _ _ (by decide), hacc]
      · have hstop : ¬ (isDigit b ∧ fits 64 (acc * 10) ∧
            fits 64 (acc * 10 - (b.toNat - 0x30 : Nat))) := fun h => hno h.2
        rw [accumulate, if_neg hstop]
        rfl
      have htext₃ : Text ok c₃ bs := by
        refine ⟨?_, fun i hi => ?_, by omega⟩
        · rw [hmem₃, hmem₂, hmem₁, hrdi₃, hrdi₂]
          exact htail
        · rw [hrdi₃, hrdi₂, Nat.add_assoc, Nat.add_comm 1 i]
          exact hok (i + 1) (by omega)
      have hrcx : c₃.get 8 .rcx = c.get 8 .rcx := by
        rw [hrcx₃, hrest₂ _ _ (by decide), hrest₁ _ _ (by decide)]
      rw [accumulate, if_pos ⟨hdigit, hfits⟩]
      refine (ih (fun h => hbs (List.mem_cons_of_mem _ h)) _ htext₃ hrax₃).mono fun t ht => ?_
      revert ht
      unfold Scanned
      rw [hrcx]
      exact id

/-- The value of a text, as the code finds it; none where it aborts. -/
def checked (s : List UInt8) : Option Int :=
  if s.head? = some 0x2D then if s.tail = [] then none else accumulate 0 s.tail
  else if s = [] then none
  else (accumulate 0 s).filter (fun v => fits 64 (-v)) |>.map fun v => -v

/-- The code ends behind itself with a value, or at the abort. -/
def Ends (base abort : Nat) (r : Option Int) (t : Nat × Cpu) : Prop :=
  match r with
  | some v => t.1 = base + 94 ∧ reading 64 (t.2.get 64 .rax) = v
  | none => t.1 = abort

include hplaced in
/-- Behind the loop the number is negated, unless there is a sign. -/
lemma leads_done {negative : Bool} (hsign : c.get 8 .rcx = negative.toNat) {v : Int}
    (hv : reading 64 (c.get 64 .rax) = v) :
    Leads (program base abort) ok (base + 77, c)
      (Ends base abort
        (if negative then some v else if fits 64 (-v) then some (-v) else none)) := by
  refine .next (P := program base abort) (k := 77) (.test 8 .rcx .rcx) rfl rfl ?_
  have hzero : (Alu.xor.flags 8 negative.toNat 0).zero = !negative := by
    cases negative <;> decide +kernel
  refine .jcc (P := program base abort) (k := 79) 5 (base + 94) rfl
    (target_inside hplaced (by omega) (by decide +kernel)) (fun hyes => .here ?_) (fun hno => ?_)
  · have : negative = true := by simpa [holds, hsign, hzero] using hyes
    rw [if_pos this]
    exact ⟨rfl, hv⟩
  have : negative = false := by simpa [holds, hsign, hzero] using hno
  rw [this, if_neg Bool.false_ne_true]
  refine .next (P := program base abort) (k := 85) (.neg .rax) rfl rfl ?_
  have hexact : Alu.sub.exact 64 0 (c.get 64 .rax) = -v := by
    rw [Alu.exact, hv, reading, if_pos (by decide)]
    omega
  refine .jcc (P := program base abort) (k := 88) 0 abort rfl
    (target_abort hplaced (by omega) (by omega)) (fun hyes => .here ?_) (fun hno => .here ?_)
  · have hfits : fits 64 (-v) = false := by simpa [holds, Alu.flags, hexact] using hyes
    rw [hfits]
    rfl
  · have hfits : fits 64 (-v) = true := by simpa [holds, Alu.flags, hexact] using hno
    rw [if_pos hfits]
    refine ⟨rfl, ?_⟩
    rw [Cpu.get_mk, Cpu.get_set _ (by decide), Nat.mod_eq_of_lt (wrap_lt 64 _), Cpu.get_mk, hv]
    exact reading_wrap hfits

include hplaced in
/-- A sign alone and the empty text lead to the abort, what is not empty to the loop. -/
lemma leads_digits {bs : List UInt8} (hbs : 0 ∉ bs) (htext : Text ok c bs)
    (hacc : reading 64 (c.get 64 .rax) = 0) {negative : Bool}
    (hsign : c.get 8 .rcx = negative.toNat) :
    Leads (program base abort) ok (base + 18, c)
      (Ends base abort (if bs = [] then none else if negative then accumulate 0 bs else
        ((accumulate 0 bs).filter (fun v => fits 64 (-v)) |>.map fun v => -v))) := by
  have hok := htext.access 0 (Nat.zero_le _)
  refine .next (P := program base abort) (k := 18) (.cmpMem .rdi 0) rfl (if_pos hok) ?_
  have hhead : c.mem (c.get 64 .rdi) = 0 ↔ bs = [] := by
    cases bs with
    | nil => exact iff_of_true (holds_cons.mp htext.bytes).1 rfl
    | cons b bs =>
        rw [(holds_cons.mp htext.bytes).1]
        exact iff_of_false (fun h => hbs (h ▸ List.mem_cons_self)) (List.cons_ne_nil _ _)
  refine .jcc (P := program base abort) (k := 21) 4 abort rfl
    (target_abort hplaced (by omega) (by omega)) (fun hyes => .here ?_) (fun hno => ?_)
  · have hzero : c.mem (c.get 64 .rdi) = 0 := by simpa [holds, cmp_zero_nul] using hyes
    rw [if_pos (hhead.mp hzero)]
    rfl
  have hne : c.mem (c.get 64 .rdi) ≠ 0 := by simpa [holds, cmp_zero_nul] using hno
  rw [if_neg (fun h => hne (hhead.mpr h))]
  refine Leads.trans (leads_top (c := { c with flags := _ }) hplaced hbs 0
    (htext.congr rfl rfl) hacc) fun t ht => ?_
  obtain ⟨pc, c'⟩ := t
  rcases hr : accumulate 0 bs with _ | v
  · rw [hr] at ht
    refine .here ?_
    split <;> exact ht
  · rw [hr] at ht
    obtain ⟨rfl, hv, hrcx⟩ := ht
    refine (leads_done hplaced (hrcx.trans hsign) hv).mono fun t ht => ?_
    cases negative <;> simpa [Option.filter] using ht

include hplaced in
/-- A sign is noted, and skipped. -/
lemma leads_sign {ds : List UInt8} (hds : 0 ∉ ds) (htext : Text ok c (0x2D :: ds))
    (hrax : c.get 64 .rax = 0) :
    Leads (program base abort) ok (base + 13, c)
      (Ends base abort (if ds = [] then none else accumulate 0 ds)) := by
  have hlength : (0x2D :: ds).length = ds.length + 1 := rfl
  have hroom := htext.room
  refine .next (P := program base abort) (k := 13) (.movImm 8 .rcx 1) rfl rfl ?_
  refine .next (P := program base abort) (k := 15) (.inc .rdi) rfl rfl ?_
  generalize hc₁ : Cpu.mk (Cpu.regs (Cpu.alu _ .add 64 .rdi 1)) _ _ _ = c₁
  have hmem₁ : c₁.mem = c.mem := by simp [← hc₁]
  have hrdi₁ : c₁.get 64 .rdi = c.get 64 .rdi + 1 := by
    rw [← hc₁, Cpu.get_mk, Cpu.get_alu _ (by decide) (by decide), Cpu.get_set_of_ne _ (by decide),
      inc_word (by omega), Nat.mod_eq_of_lt (by omega)]
  have hrax₁ : reading 64 (c₁.get 64 .rax) = 0 := by
    rw [← hc₁, Cpu.get_mk, Cpu.get_alu_of_ne _ (by decide), Cpu.get_set_of_ne _ (by decide), hrax]
    rfl
  have hrcx₁ : c₁.get 8 .rcx = true.toNat := by
    rw [← hc₁, Cpu.get_mk, Cpu.get_alu_of_ne _ (by decide)]
    exact Cpu.get_set_low _ (by decide)
  have htext₁ : Text ok c₁ ds := by
    refine ⟨?_, fun i hi => ?_, by omega⟩
    · rw [hmem₁, hrdi₁]
      exact (holds_cons.mp htext.bytes).2
    · rw [hrdi₁, Nat.add_assoc, Nat.add_comm 1 i]
      exact htext.access (i + 1) (by omega)
  exact leads_digits hplaced hds htext₁ hrax₁ hrcx₁

include hplaced in
/-- **The code** ends with the value of the text, or at the abort. -/
lemma leads_checked {s : List UInt8} (hs : 0 ∉ s) (htext : Text ok c s) :
    Leads (program base abort) ok (base, c) (Ends base abort (checked s)) := by
  have hok := htext.access 0 (Nat.zero_le _)
  refine .next (P := program base abort) (k := 0) (.alu .xor 32 .rax .rax) rfl rfl ?_
  refine .next (P := program base abort) (k := 2) (.alu .xor 32 .rcx .rcx) rfl rfl ?_
  generalize hc₁ : (c.alu .xor 32 .rax (c.get 32 .rax)).alu .xor 32 .rcx _ = c₁
  have hmem₁ : c₁.mem = c.mem := by simp [← hc₁]
  have hrdi₁ : c₁.get 64 .rdi = c.get 64 .rdi := by
    rw [← hc₁, Cpu.get_alu_of_ne _ (by decide), Cpu.get_alu_of_ne _ (by decide)]
  have hrax₁ : c₁.get 64 .rax = 0 := by
    rw [← hc₁, Cpu.get_alu_of_ne _ (by decide), Cpu.get_alu _ (by decide) (by decide),
      xor_self_word, Nat.zero_mod]
  have hrcx₁ : c₁.get 8 .rcx = 0 := by
    rw [← hc₁, Cpu.get_alu _ (by decide) (by decide), xor_self_word, Nat.zero_mod]
  rw [← hrdi₁] at hok
  refine .next (P := program base abort) (k := 4) (.cmpMem .rdi 0x2D) rfl (if_pos hok) ?_
  have hzero : (Alu.cmp.flags 8 (c₁.mem (c₁.get 64 .rdi)).toNat 0x2D).zero =
    decide (c₁.mem (c₁.get 64 .rdi) = 0x2D) := cmp_zero _ 0x2D
  refine .jcc (P := program base abort) (k := 7) 5 (base + 18) rfl
    (target_inside hplaced (by omega) (by decide +kernel)) (fun hyes => ?_) (fun hno => ?_)
  · have hne : c₁.mem (c₁.get 64 .rdi) ≠ 0x2D := by simpa [holds, hzero] using hyes
    have hhead : s.head? ≠ some 0x2D := by
      cases s with
      | nil => simp
      | cons b s =>
          rw [hmem₁, hrdi₁, (holds_cons.mp htext.bytes).1] at hne
          simpa using hne
    rw [checked, if_neg hhead]
    exact leads_digits
      (c := { c₁ with
        flags := Alu.cmp.flags 8 (c₁.mem (c₁.get 64 .rdi)).toNat (0x2D : UInt8).toNat })
      hplaced hs
      (htext.congr hmem₁ hrdi₁) (by rw [Cpu.get_mk, hrax₁]; rfl)
      (show _ = false.toNat by rw [Cpu.get_mk, hrcx₁]; rfl)
  · have heq : c₁.mem (c₁.get 64 .rdi) = 0x2D := by simpa [holds, hzero] using hno
    obtain ⟨ds, rfl⟩ : ∃ ds, s = 0x2D :: ds := by
      cases s with
      | nil =>
          rw [hmem₁, hrdi₁, (holds_cons.mp htext.bytes).1] at heq
          exact absurd heq (by decide)
      | cons b s =>
          rw [hmem₁, hrdi₁, (holds_cons.mp htext.bytes).1] at heq
          exact ⟨s, by rw [heq]⟩
    rw [checked, List.head?_cons, if_pos rfl, List.tail_cons]
    exact leads_sign
      (c := { c₁ with
        flags := Alu.cmp.flags 8 (c₁.mem (c₁.get 64 .rdi)).toNat (0x2D : UInt8).toNat })
      hplaced (fun h => hs (List.mem_cons_of_mem _ h)) (htext.congr hmem₁ hrdi₁) hrax₁

end loop

/-! ## Exactness -/

/-- A decimal number: an optional sign, and at least one digit. -/
inductive Numeral : List UInt8 → Int → Prop
  | plain {ds} (hne : ds ≠ []) (hds : ∀ b ∈ ds, isDigit b = true) : Numeral ds (decimal ds)
  | minus {ds} (hne : ds ≠ []) (hds : ∀ b ∈ ds, isDigit b = true) :
      Numeral (0x2D :: ds) (-decimal ds)

/-- The number of digits behind a number. -/
def decimalFrom (n : Nat) (ds : List UInt8) : Nat :=
  ds.foldl (fun n b => 10 * n + (b.toNat - 0x30)) n

lemma le_decimalFrom (ds : List UInt8) (n : Nat) : n ≤ decimalFrom n ds := by
  induction ds generalizing n with
  | nil => exact Nat.le_refl n
  | cons b ds ih =>
      have hle := ih (10 * n + (b.toNat - 0x30))
      show n ≤ decimalFrom (10 * n + (b.toNat - 0x30)) ds
      omega

lemma fits_iff (z : Int) : fits 64 z = true ↔ -2 ^ 63 ≤ z ∧ z < 2 ^ 63 :=
  decide_eq_true_iff

/-- **The tests of the loop** refuse what is no digit, and the numbers below the least one: the
accumulator only descends. -/
lemma accumulate_eq_some {ds : List UInt8} {n : Nat} (hn : fits 64 (-n) = true) {v : Int} :
    accumulate (-n) ds = some v ↔
      (∀ b ∈ ds, isDigit b = true) ∧ fits 64 (-decimalFrom n ds) = true ∧
        v = -decimalFrom n ds := by
  induction ds generalizing n with
  | nil =>
      constructor
      · intro h
        cases h
        exact ⟨fun b hb => (List.not_mem_nil hb).elim, hn, rfl⟩
      · rintro ⟨-, -, rfl⟩
        rfl
  | cons b ds ih =>
      have hnext : -(n : Int) * 10 - (b.toNat - 0x30 : Nat) =
          -((10 * n + (b.toNat - 0x30) : Nat) : Int) := by
        push_cast
        ring
      have hstep : decimalFrom n (b :: ds) = decimalFrom (10 * n + (b.toNat - 0x30)) ds := rfl
      have hle := le_decimalFrom ds (10 * n + (b.toNat - 0x30))
      rw [accumulate, hnext, hstep]
      split
      · rename_i h
        rw [ih h.2.2]
        simp [h.1]
      · rename_i h
        refine iff_of_false (by simp) ?_
        rintro ⟨hdigits, hfits, -⟩
        refine h ⟨hdigits b List.mem_cons_self, ?_, ?_⟩ <;> rw [fits_iff] at hfits ⊢ <;> omega

/-- The code finds exactly the decimal numbers that are words. -/
lemma checked_eq_some {s : List UInt8} {v : Int} :
    checked s = some v ↔ Numeral s v ∧ fits 64 v = true := by
  have hzero : fits 64 (-((0 : Nat) : Int)) = true := by decide
  have haccumulate : ∀ {ds : List UInt8} {v : Int}, accumulate 0 ds = some v ↔
      (∀ b ∈ ds, isDigit b = true) ∧ fits 64 (-decimal ds) = true ∧ v = -decimal ds :=
    accumulate_eq_some hzero
  have hneg : ∀ n : Nat, fits 64 (-(-(n : Int))) = true → fits 64 (-(n : Int)) = true := by
    intro n h
    rw [fits_iff] at h ⊢
    omega
  rw [checked]
  split
  · rename_i hhead
    obtain ⟨ds, rfl⟩ : ∃ ds, s = 0x2D :: ds := by
      cases s with
      | nil => cases hhead
      | cons b ds => exact ⟨ds, by rw [Option.some.inj hhead]⟩
    rw [List.tail_cons]
    constructor
    · intro h
      split at h
      · cases h
      · rename_i hne
        obtain ⟨hds, hfits, rfl⟩ := haccumulate.mp h
        exact ⟨.minus hne hds, hfits⟩
    · rintro ⟨hnumeral, hfits⟩
      cases hnumeral with
      | plain hne hds => exact absurd (hds _ List.mem_cons_self) (by decide)
      | minus hne hds => rw [if_neg hne, haccumulate.mpr ⟨hds, hfits, rfl⟩]
  · rename_i hhead
    constructor
    · intro h
      split at h
      · cases h
      · rename_i hne
        obtain ⟨w, hw, rfl⟩ := Option.map_eq_some_iff.mp h
        obtain ⟨hw, hfits⟩ := Option.filter_eq_some_iff.mp hw
        obtain ⟨hds, -, rfl⟩ := haccumulate.mp hw
        rw [Int.neg_neg] at hfits ⊢
        exact ⟨.plain hne hds, hfits⟩
    · rintro ⟨hnumeral, hfits⟩
      cases hnumeral with
      | plain hne hds =>
          have hfits' : fits 64 (-(-(decimal s : Int))) = true := by rwa [Int.neg_neg]
          rw [if_neg hne, haccumulate.mpr ⟨hds, hneg _ hfits', rfl⟩, Option.filter, if_pos hfits',
            Option.map_some, Int.neg_neg]
      | minus hne hds => exact absurd rfl hhead

/-- **The strict parser accepts exactly the decimal numbers of 64 bits.** The code ends, at its own
end or at the abort; it ends at its own end exactly for the texts that are a decimal number of
64 bits, and `rax` is that number. -/
theorem checkedAtoi_exact {base abort : Nat} (hplaced : Placed base abort) {ok : Nat → Bool}
    {c : Cpu} {s : List UInt8} (hs : 0 ∉ s) (htext : Text ok c s) :
    ∃ t, Steps (program base abort) ok (base, c) t ∧ (program base abort).step ok t = none ∧
      (t.1 = abort ∨ t.1 = base + 94) ∧
      (t.1 = base + 94 ↔ ∃ v, Numeral s v ∧ -2 ^ 63 ≤ v ∧ v < 2 ^ 63) ∧
      (t.1 = base + 94 → Numeral s (reading 64 (t.2.get 64 .rax))) := by
  obtain ⟨⟨pc, c'⟩, hreaches, hends⟩ := leads_checked hplaced hs htext
  have hstop : (program base abort).stop = base + 94 := rfl
  have hbase : (program base abort).base = base := rfl
  have houtside := hplaced.outside
  refine ⟨(pc, c'), hreaches, ?_⟩
  rcases hr : checked s with _ | v
  · rw [hr] at hends
    obtain rfl : pc = abort := hends
    refine ⟨Image.step_outside (by omega), .inl rfl, iff_of_false ?_ ?_, fun h => ?_⟩
    · show pc ≠ base + 94
      omega
    · rintro ⟨v, hnumeral, hrange⟩
      rw [checked_eq_some.mpr ⟨hnumeral, (fits_iff v).mpr hrange⟩] at hr
      cases hr
    · have h : pc = base + 94 := h
      omega
  · rw [hr] at hends
    obtain ⟨rfl, hv⟩ := hends
    obtain ⟨hnumeral, hfits⟩ := checked_eq_some.mp hr
    refine ⟨Image.step_outside (by omega), .inr rfl,
      iff_of_true rfl ⟨v, hnumeral, (fits_iff v).mp hfits⟩, fun _ => ?_⟩
    rw [hv]
    exact hnumeral

/-- The least number, as an argument. -/
def leastNumber : List UInt8 := 0x2D :: "9223372036854775808".toUTF8.toList

/-- The argument at address 4096. -/
def leastCpu : Cpu where
  regs r := if r = .rdi then 4096 else 0
  mem x := if x < 4096 then 0 else leastNumber.getD (x - 4096) 0
  flags := ⟨false, false, false, false⟩
  down := false

theorem checkedAtoi_exact_least :
    ∃ t, Steps (program 0x401000 0x402000) (fun _ => true) (0x401000, leastCpu) t ∧
      t.1 = 0x401000 + 94 := by
  have hplaced : Placed 0x401000 0x402000 :=
    ⟨by decide, by decide, by decide, .inr (by decide)⟩
  have htext : Text (fun _ => true) leastCpu leastNumber := by
    refine ⟨?_, fun _ _ => rfl, by decide +kernel⟩
    unfold Holds
    decide +kernel
  obtain ⟨t, ht, -, -, hiff, -⟩ := checkedAtoi_exact hplaced (by decide +kernel) htext
  have hdigits : ∀ b ∈ leastNumber.tail, isDigit b = true := by decide +kernel
  exact ⟨t, ht, hiff.mpr ⟨_, .minus (by decide +kernel) hdigits, by decide +kernel,
    by decide +kernel⟩⟩

end Verbosec.Native.CheckedAtoi
