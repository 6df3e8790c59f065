import Verbosec.Native.Decode
import Mathlib.Tactic.Common

/-!
# The lengths that the decoder gets right

* `Instruction.Fits` - the encodings whose length the decoder returns.
* `oneByteRow_eq`, `twoByteRow_eq` - the rows of the decoder, next to the forms of the opcodes.
* `modrmLength_operand`, `skipLegacy_append` - operands and prefixes.
* `decode_iff` - the decoder returns the length of an encoding exactly where it fits.
-/

namespace Verbosec.Native.Decode

/-! ## The condition -/

/-- The immediate of a one-byte opcode is of the size that the decoder takes. -/
def Instruction.OneFits (x : Instruction) (op : Nat) : Prop :=
  if op = 0xF6 then x.group < 2
  else if op = 0xF7 then 2 ≤ x.group
  else if 0xB8 ≤ op ∧ op ≤ 0xBF then x.Wide ∨ (x.rex = none ∧ ¬ x.Short)
  else if op = 0x81 ∨ op = 0xC7 then ¬ (x.Short ∧ x.Wide)
  else if op = 0x05 ∨ op = 0x3D ∨ op = 0xA9 then x.Wide ∨ ¬ x.Short
  else True

/-- There is no address-size prefix, and the immediate is of the size that the decoder takes. -/
def Instruction.Fits (x : Instruction) : Prop :=
  (0x67 : UInt8) ∉ x.legacy ∧
    match x.opcode with
    | .one op => x.OneFits op.toNat
    | .two _ => True
    | .three38 _ => True
    | .three3A _ => False

/-! ## Rows and forms -/

/-- The size that the decoder takes for an immediate. -/
def rowSize (op : Nat) (has66 hasRex : Bool) : Immediate → Nat
  | .none => 0
  | .byte => 1
  | .branch => 4
  | .word => if has66 ∧ (op = 0x81 ∨ op = 0xC7) then 2 else 4
  | .wide => if hasRex then 8 else 4
  | .testByte => 1
  | .testWord => 0

/-- An immediate whose size depends on nothing else. -/
def Immediate.fixed : Immediate → Bool
  | .none | .byte | .branch => true
  | _ => false

/-- The one-byte opcodes that an immediate belongs to; those whose immediate depends on nothing else
are left together. -/
def Immediate.hasCode (op : Nat) : Immediate → Bool
  | .none | .byte | .branch =>
      op ≠ 0xF6 && op ≠ 0xF7 && (op < 0xB8 || 0xBF < op) && op ≠ 0x81 && op ≠ 0xC7 && op ≠ 0x05 &&
        op ≠ 0x3D && op ≠ 0xA9
  | .word => op = 0x81 || op = 0xC7 || op = 0x05 || op = 0x3D || op = 0xA9
  | .wide => 0xB8 ≤ op && op ≤ 0xBF
  | .testByte => op = 0xF6
  | .testWord => op = 0xF7

/-- What the tables say of each opcode, checked in one pass over them. -/
lemma opcodes : ∀ op < 256,
    (∀ has66 hasRex : Bool, oneByteRow has66 hasRex op =
      (oneByteForm op).map fun form => ⟨form.modrm, rowSize op has66 hasRex form.immediate⟩) ∧
    (∀ has66 hasRex : Bool, twoByteRow op =
      (twoByteForm op).map fun form => ⟨form.modrm, rowSize op has66 hasRex form.immediate⟩) ∧
    ((oneByteForm op).isSome →
      isLegacy (UInt8.ofNat op) = false ∧ ¬ (0x40 ≤ op ∧ op ≤ 0x4F) ∧ op ≠ 0x0F) ∧
    ((twoByteForm op).isSome → op ≠ 0x38 ∧ op ≠ 0x3A) ∧
    ((twoByteForm op).all fun form => form.immediate.fixed) ∧
    ((oneByteForm op).all fun form => form.immediate.hasCode op) := by
  decide +kernel

/-- The decoder has a row for each form, and no other one-byte row. -/
lemma oneByteRow_eq : ∀ op < 256, ∀ has66 hasRex : Bool,
    oneByteRow has66 hasRex op =
      (oneByteForm op).map fun form => ⟨form.modrm, rowSize op has66 hasRex form.immediate⟩ :=
  fun op hop => (opcodes op hop).1

lemma twoByteRow_eq : ∀ op < 256, ∀ has66 hasRex : Bool,
    twoByteRow op =
      (twoByteForm op).map fun form => ⟨form.modrm, rowSize op has66 hasRex form.immediate⟩ :=
  fun op hop => (opcodes op hop).2.1

/-- No opcode of the table is a prefix or an escape byte. -/
lemma plain_of_oneByteForm : ∀ op < 256, (oneByteForm op).isSome →
    isLegacy (UInt8.ofNat op) = false ∧ ¬ (0x40 ≤ op ∧ op ≤ 0x4F) ∧ op ≠ 0x0F :=
  fun op hop => (opcodes op hop).2.2.1

/-- No two-byte opcode of the table is an escape byte. -/
lemma plain_of_twoByteForm : ∀ op < 256, (twoByteForm op).isSome → op ≠ 0x38 ∧ op ≠ 0x3A :=
  fun op hop => (opcodes op hop).2.2.2.1

lemma fixed_of_twoByteForm : ∀ op < 256,
    (twoByteForm op).all fun form => form.immediate.fixed :=
  fun op hop => (opcodes op hop).2.2.2.2.1

lemma hasCode_of_oneByteForm : ∀ op < 256,
    (oneByteForm op).all fun form => form.immediate.hasCode op :=
  fun op hop => (opcodes op hop).2.2.2.2.2

/-- The decoder takes the size of an immediate whose size depends on nothing else. -/
lemma rowSize_of_fixed {x : Instruction} {op : Nat} {imm : Immediate} {has66 hasRex : Bool}
    (h : imm.fixed) : rowSize op has66 hasRex imm = x.immediateSize imm := by
  cases imm with
  | none | byte | branch => rfl
  | word | wide | testByte | testWord => cases h

/-- The decoder takes the size of an immediate exactly where a one-byte opcode fits. -/
lemma rowSize_eq_iff {x : Instruction} {op : Nat} {imm : Immediate} (hcode : imm.hasCode op) :
    rowSize op (decide x.Short) x.rex.isSome imm = x.immediateSize imm ↔ x.OneFits op := by
  cases imm with
  | none | byte | branch =>
      simp only [Immediate.hasCode, Bool.and_eq_true, Bool.or_eq_true, decide_eq_true_eq] at hcode
      have hfits : x.OneFits op := by
        unfold Instruction.OneFits
        rw [if_neg (by omega), if_neg (by omega), if_neg (by omega), if_neg (by omega),
          if_neg (by omega)]
        trivial
      exact ⟨fun _ => hfits, fun _ => rfl⟩
  | word =>
      simp only [Immediate.hasCode, Bool.or_eq_true, decide_eq_true_eq] at hcode
      simp only [rowSize, Instruction.immediateSize, Instruction.wordSize, Instruction.OneFits,
        decide_eq_true_eq]
      rw [if_neg (show ¬ op = 0xF6 by omega), if_neg (show ¬ op = 0xF7 by omega),
        if_neg (show ¬ (0xB8 ≤ op ∧ op ≤ 0xBF) by omega)]
      by_cases hgroup : op = 0x81 ∨ op = 0xC7
      · by_cases hs : x.Short <;> by_cases hw : x.Wide <;> simp [hgroup, hs, hw]
      · rw [if_neg hgroup, if_pos (show op = 0x05 ∨ op = 0x3D ∨ op = 0xA9 by omega)]
        by_cases hs : x.Short <;> by_cases hw : x.Wide <;> simp [hgroup, hs, hw]
  | wide =>
      simp only [Immediate.hasCode, Bool.and_eq_true, decide_eq_true_eq] at hcode
      simp only [rowSize, Instruction.immediateSize, Instruction.wordSize, Instruction.OneFits]
      rw [if_neg (show ¬ op = 0xF6 by omega), if_neg (show ¬ op = 0xF7 by omega), if_pos hcode]
      by_cases hw : x.Wide
      · obtain ⟨r, hr, -⟩ := id hw
        rw [Option.mem_def.mp hr]
        simp [hw]
      · cases hrex : x.rex with
        | none => by_cases hs : x.Short <;> simp [hs, hw]
        | some r => by_cases hs : x.Short <;> simp [hs, hw]
  | testByte =>
      simp only [Immediate.hasCode, decide_eq_true_eq] at hcode
      simp only [rowSize, Instruction.immediateSize, Instruction.OneFits, if_pos hcode]
      by_cases hg : x.group < 2 <;> simp [hg]
  | testWord =>
      simp only [Immediate.hasCode, decide_eq_true_eq] at hcode
      simp only [rowSize, Instruction.immediateSize, Instruction.wordSize, Instruction.OneFits]
      rw [if_neg (show ¬ op = 0xF6 by omega), if_pos hcode]
      by_cases hg : x.group < 2
      · rw [if_pos hg]
        by_cases hs : x.Short ∧ ¬ x.Wide <;> simp [hs] <;> omega
      · simp [hg]
        omega

/-! ## Operands -/

/-- The length of an operand. -/
lemma modrmLength_operand {modrm : UInt8} {rest : List UInt8} (h : IsOperand modrm rest)
    (more : List UInt8) : modrmLength (modrm :: rest ++ more) = some (1 + rest.length) := by
  obtain ⟨sib, disp, rfl, hsib, hdisp⟩ := h
  have hlt : modeBits modrm < 4 := by
    have := modrm.toNat_lt
    unfold modeBits
    omega
  have hmode : modrm.toNat / 64 % 4 = modeBits modrm := Nat.mod_eq_of_lt hlt
  have hbase : modrm.toNat % 8 = baseBits modrm := rfl
  have hmodes :
      modeBits modrm = 0 ∨ modeBits modrm = 1 ∨ modeBits modrm = 2 ∨ modeBits modrm = 3 := by
    omega
  unfold modrmLength
  simp only [List.cons_append, hmode, hbase, List.length_append, hdisp, dispSize]
  cases sib with
  | none =>
      have hplain : modeBits modrm ≠ 3 → baseBits modrm ≠ 4 := fun hm hb => by
        simpa using hsib.mpr ⟨hm, hb⟩
      rcases hmodes with hm | hm | hm | hm <;> simp only [hm] at hplain ⊢
      · have hb := hplain (by decide)
        by_cases hfive : baseBits modrm = 5 <;> simp [hb, hfive]
      · simp [hplain (by decide)]
      · simp [hplain (by decide)]
      · simp
  | some s =>
      obtain ⟨hthree, hb⟩ := hsib.mp rfl
      rcases hmodes with hm | hm | hm | hm
      · have hbits : s.toNat % 8 = baseBits s := rfl
        by_cases hfive : baseBits s = 5 <;> simp [hm, hb, hbits, hfive]
      · simp [hm, hb]
      · simp [hm, hb]
      · exact absurd hm hthree

/-- The length of what follows an opcode is right where the size of the immediate is. -/
lemma rowLength_eq_iff {x : Instruction} {row : Row}
    (hoperand : if row.modrm then ∃ modrm rest, x.operand = modrm :: rest ∧ IsOperand modrm rest
      else x.operand = []) (rest : List UInt8) :
    row.length (x.operand ++ x.immediate ++ rest) =
        some (x.operand.length + x.immediate.length) ↔
      row.immediate = x.immediate.length := by
  have hn : (if row.modrm then modrmLength (x.operand ++ x.immediate ++ rest) else some 0) =
      some x.operand.length := by
    split at hoperand
    · rename_i hmodrm
      obtain ⟨modrm, more, hx, hmore⟩ := hoperand
      rw [if_pos hmodrm, hx, List.append_assoc, modrmLength_operand hmore, List.length_cons,
        Nat.add_comm]
    · rename_i hmodrm
      rw [if_neg hmodrm, hoperand]
      rfl
  unfold Row.length
  rw [hn]
  simp only [Option.bind_some, List.length_append]
  constructor
  · intro h
    split at h
    · cases h
    · have := Option.some.inj h
      omega
  · intro h
    rw [if_neg (by omega), h]

/-! ## Prefixes -/

/-- Prefixes that the decoder knows are skipped. -/
lemma skipLegacy_append {legacy : List UInt8} (h : ∀ b ∈ legacy, isLegacy b = true) {b : UInt8}
    (hb : isLegacy b = false) (rest : List UInt8) :
    skipLegacy (legacy ++ b :: rest) =
      (b :: rest, legacy.length, decide ((0x66 : UInt8) ∈ legacy)) := by
  induction legacy with
  | nil => simp [skipLegacy, hb]
  | cons p legacy ih =>
      rw [List.cons_append, skipLegacy, if_pos (h p List.mem_cons_self),
        ih fun q hq => h q (List.mem_cons_of_mem _ hq)]
      simp only [List.length_cons, List.mem_cons, Prod.mk.injEq, true_and]
      by_cases hp : p = 0x66
      · simp [hp]
      · simp [hp, Ne.symm hp]

/-- The decoder knows every legacy prefix but one. -/
lemma isLegacy_of_mem {b : UInt8} (h : b ∈ legacyPrefixes) (hb : b ≠ 0x67) :
    isLegacy b = true := by
  simp only [legacyPrefixes, List.mem_cons, List.not_mem_nil, or_false] at h
  rcases h with rfl | rfl | rfl | rfl | rfl | rfl | rfl | rfl | rfl | rfl | rfl <;>
    first | rfl | exact absurd rfl hb

/-- Nothing is decoded behind the prefix that the decoder does not know. -/
lemma firstLength_of_addressSize {legacy : List UInt8} (h : ∀ b ∈ legacy, b ∈ legacyPrefixes)
    (hmem : (0x67 : UInt8) ∈ legacy) (rest : List UInt8) : firstLength (legacy ++ rest) = none := by
  obtain ⟨before, after, rfl, hnot⟩ := List.eq_append_cons_of_mem hmem
  have hbefore : ∀ b ∈ before, isLegacy b = true := fun b hb =>
    isLegacy_of_mem (h b (List.mem_append_left _ hb)) fun heq => hnot (heq ▸ hb)
  rw [List.append_assoc, List.cons_append]
  unfold firstLength
  rw [skipLegacy_append hbefore rfl]
  rfl

/-! ## The length of an encoding -/

/-- An equation of lengths behind the same number of bytes. -/
lemma map_add_eq_some {o : Option Nat} {k n : Nat} :
    o.map (k + ·) = some (k + n) ↔ o = some n := by
  cases o with
  | none => simp
  | some m => simp

/-- The length of an opcode and of what follows it is right exactly where the encoding fits. -/
lemma opcodeLength_eq_iff {x : Instruction} (hx : x.Encodes) (rest : List UInt8) :
    opcodeLength (decide x.Short) x.rex.isSome
        (x.opcode.bytes ++ (x.operand ++ x.immediate ++ rest)) =
      some (x.opcode.bytes.length + (x.operand.length + x.immediate.length)) ↔
      match x.opcode with
      | .one op => x.OneFits op.toNat
      | .two _ => True
      | .three38 _ => True
      | .three3A _ => False := by
  obtain ⟨form, hform, hoperand, himm⟩ := hx.form
  cases hop : x.opcode with
  | one op =>
      rw [hop, Opcode.form] at hform
      have hlt : op.toNat < 256 := op.toNat_lt
      obtain ⟨-, -, hescape⟩ := plain_of_oneByteForm op.toNat hlt (by rw [hform]; rfl)
      have hne : op ≠ 0x0F := fun h => hescape (by rw [h]; rfl)
      have hcode : form.immediate.hasCode op.toNat := by
        have h := hasCode_of_oneByteForm op.toNat hlt
        rw [hform] at h
        exact h
      show opcodeLength _ _ (op :: (x.operand ++ x.immediate ++ rest)) =
        some (1 + (x.operand.length + x.immediate.length)) ↔ _
      rw [opcodeLength, if_neg hne, oneByteRow_eq _ hlt, hform, Option.map_some, Option.bind_some,
        map_add_eq_some, @rowLength_eq_iff x ⟨form.modrm, _⟩ hoperand, himm]
      exact rowSize_eq_iff hcode
  | two op =>
      rw [hop, Opcode.form] at hform
      have hlt : op.toNat < 256 := op.toNat_lt
      obtain ⟨h38, h3A⟩ := plain_of_twoByteForm op.toNat hlt (by rw [hform]; rfl)
      have hne : ¬ (op = 0x38 ∨ op = 0x3A) := by
        rintro (h | h)
        · exact h38 (by rw [h]; rfl)
        · exact h3A (by rw [h]; rfl)
      have hsize : rowSize op.toNat false false form.immediate = x.immediateSize form.immediate := by
        have h := fixed_of_twoByteForm op.toNat hlt
        rw [hform] at h
        exact rowSize_of_fixed h
      show opcodeLength _ _ (0x0F :: op :: (x.operand ++ x.immediate ++ rest)) =
        some (2 + (x.operand.length + x.immediate.length)) ↔ True
      rw [opcodeLength, if_pos rfl, escapedLength.eq_def]
      simp only []
      rw [if_neg hne, twoByteRow_eq _ hlt false false, hform]
      have hlength := (@rowLength_eq_iff x
        ⟨form.modrm, rowSize op.toNat false false form.immediate⟩ hoperand rest).mpr
        (hsize.trans himm.symm)
      simp only [Option.map_some, hlength, iff_true, Option.some.injEq]
      omega
  | three38 op =>
      rw [hop, Opcode.form] at hform
      obtain rfl := Option.some.inj hform
      obtain ⟨modrm, more, hx', hmore⟩ := hoperand
      have himm : x.immediate.length = 0 := himm
      show opcodeLength _ _ (0x0F :: 0x38 :: op :: (x.operand ++ x.immediate ++ rest)) =
        some (3 + (x.operand.length + x.immediate.length)) ↔ True
      rw [opcodeLength, if_pos rfl, escapedLength, if_pos (Or.inl rfl), hx', List.append_assoc,
        modrmLength_operand hmore]
      simp only [Option.map_some, List.length_cons, iff_true, Option.some.injEq]
      omega
  | three3A op =>
      rw [hop, Opcode.form] at hform
      obtain rfl := Option.some.inj hform
      obtain ⟨modrm, more, hx', hmore⟩ := hoperand
      have himm : x.immediate.length = 1 := himm
      show opcodeLength _ _ (0x0F :: 0x3A :: op :: (x.operand ++ x.immediate ++ rest)) =
        some (3 + (x.operand.length + x.immediate.length)) ↔ False
      rw [opcodeLength, if_pos rfl, escapedLength, if_pos (Or.inr rfl), hx', List.append_assoc,
        modrmLength_operand hmore]
      simp only [Option.map_some, List.length_cons, iff_false, Option.some.injEq]
      omega

/-- The first byte of an opcode is no prefix. -/
lemma opcode_bytes_cons {x : Instruction} (hx : x.Encodes) : ∃ b after, x.opcode.bytes = b :: after ∧
    isLegacy b = false ∧ ¬ (0x40 ≤ b.toNat ∧ b.toNat ≤ 0x4F) := by
  obtain ⟨form, hform, -⟩ := hx.form
  cases hop : x.opcode with
  | one op =>
      rw [hop, Opcode.form] at hform
      obtain ⟨hlegacy, hrex, -⟩ := plain_of_oneByteForm op.toNat op.toNat_lt (by rw [hform]; rfl)
      rw [UInt8.ofNat_toNat] at hlegacy
      exact ⟨op, [], rfl, hlegacy, hrex⟩
  | two op => exact ⟨0x0F, [op], rfl, rfl, by decide⟩
  | three38 op => exact ⟨0x0F, [0x38, op], rfl, rfl, by decide⟩
  | three3A op => exact ⟨0x0F, [0x3A, op], rfl, rfl, by decide⟩

/-- A REX prefix is no legacy prefix. -/
lemma isLegacy_of_rex {b : UInt8} (h : 0x40 ≤ b.toNat ∧ b.toNat ≤ 0x4F) : isLegacy b = false := by
  have hrex : ∀ n < 256, 0x40 ≤ n ∧ n ≤ 0x4F → isLegacy (UInt8.ofNat n) = false := by
    decide +kernel
  have hb := hrex b.toNat b.toNat_lt h
  rwa [UInt8.ofNat_toNat] at hb

/-- The length of an encoding at the start of some bytes. -/
lemma firstLength_eq_iff {x : Instruction} (hx : x.Encodes) (rest : List UInt8) :
    firstLength (x.bytes ++ rest) = some x.bytes.length ↔ x.Fits := by
  by_cases h67 : (0x67 : UInt8) ∈ x.legacy
  · have hnone : firstLength (x.bytes ++ rest) = none := by
      unfold Instruction.bytes
      simp only [List.append_assoc]
      exact firstLength_of_addressSize hx.legacy h67 _
    rw [hnone]
    exact ⟨fun h => (Option.some_ne_none _ h.symm).elim, fun h => absurd h67 h.1⟩
  · have hknown : ∀ b ∈ x.legacy, isLegacy b = true := fun b hb =>
      isLegacy_of_mem (hx.legacy b hb) fun heq => h67 (heq ▸ hb)
    have hfits := opcodeLength_eq_iff hx rest
    have hiff : x.Fits ↔ _ := ⟨fun h => h.2, fun h => ⟨h67, h⟩⟩
    rw [hiff, ← hfits]
    obtain ⟨b, after, hbytes, hlegacy, hrex⟩ := opcode_bytes_cons hx
    cases hr : x.rex with
    | none =>
        have hx' : x.bytes ++ rest =
            x.legacy ++ b :: (after ++ (x.operand ++ x.immediate ++ rest)) := by
          simp [Instruction.bytes, hr, hbytes]
        unfold firstLength
        rw [hx', skipLegacy_append hknown hlegacy]
        simp only [if_neg hrex]
        have hlen : x.bytes.length = x.legacy.length +
            (x.opcode.bytes.length + (x.operand.length + x.immediate.length)) := by
          simp only [Instruction.bytes, hr, List.length_append, Option.toList_none, List.length_nil]
          omega
        rw [hlen, map_add_eq_some, hbytes]
        rfl
    | some r =>
        have hrange := hx.rex r (by rw [hr]; rfl)
        have hx' : x.bytes ++ rest =
            x.legacy ++ r :: (x.opcode.bytes ++ (x.operand ++ x.immediate ++ rest)) := by
          simp [Instruction.bytes, hr]
        unfold firstLength
        rw [hx', skipLegacy_append hknown (isLegacy_of_rex hrange)]
        simp only [if_pos hrange]
        have hlen : x.bytes.length = x.legacy.length + 1 +
            (x.opcode.bytes.length + (x.operand.length + x.immediate.length)) := by
          simp only [Instruction.bytes, hr, List.length_append, Option.toList_some,
            List.length_cons, List.length_nil]
          omega
        rw [hlen, map_add_eq_some]
        rfl

/-! ## The result -/

/-- The decoder returns the length of an encoding, wherever it stands in the code, exactly where the
encoding fits. -/
theorem decode_iff {x : Instruction} (hx : x.Encodes) (before rest : List UInt8) :
    decodeInstructionLength (before ++ x.bytes ++ rest) before.length = some x.bytes.length ↔
      x.Fits := by
  obtain ⟨b, after, hbytes, -⟩ := opcode_bytes_cons hx
  have hpos : 0 < x.bytes.length := by
    simp only [Instruction.bytes, List.length_append, hbytes, List.length_cons]
    omega
  unfold decodeInstructionLength
  rw [if_neg (by simp only [List.length_append]; omega), List.append_assoc, List.drop_left]
  exact firstLength_eq_iff hx rest

/-- `add rax, [rsp + 8]` behind a byte of other code. -/
theorem decode_iff_add :
    decodeInstructionLength ([0x90] ++ [0x48, 0x03, 0x44, 0x24, 0x08] ++ [0xC3]) 1 = some 5 :=
  (decode_iff (x := ⟨[], some 0x48, .one 0x03, [0x44, 0x24, 0x08], []⟩)
    ⟨by simp, by simp, ⟨true, .none⟩, rfl,
      ⟨0x44, [0x24, 0x08], rfl, some 0x24, [0x08], rfl, by decide, by decide⟩, rfl⟩
    [0x90] [0xC3]).mpr ⟨by decide, by
      show Instruction.OneFits _ 3
      simp [Instruction.OneFits]⟩

/-- `test eax, 1` is six bytes long; the decoder leaves its immediate out. -/
theorem test_immediate_left_out :
    ¬ ∀ (x : Instruction), x.Encodes → ∀ before rest : List UInt8,
      decodeInstructionLength (before ++ x.bytes ++ rest) before.length =
        some x.bytes.length := by
  intro h
  have htest := h ⟨[], none, .one 0xF7, [0xC0], [1, 0, 0, 0]⟩
    ⟨by simp, by simp, ⟨true, .testWord⟩, rfl,
      ⟨0xC0, [], rfl, none, [], rfl, by decide, by decide⟩, by decide⟩ [] []
  exact absurd htest (by decide)

end Verbosec.Native.Decode
