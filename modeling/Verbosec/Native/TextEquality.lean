import Verbosec.Interpreter.Eval
import Verbosec.Lib.Amd64
import Verbosec.Lib.Utf8Text

/-!
# Text equality

* `Comparison`, `textComparison` - which comparisons of texts have code of their own.
* `literalEquality`, `readEquality` - the bytes of the code.
* `leads_literal` - a literal of at most 126 bytes is compared with the bytes at the field, its
  terminator included.
* `leads_read` - the content of a resource is compared with a text of the same length.
* `textEquality_exact` - when the code is the comparison of the interpreter.

Source: `native.rs`, `emit_eval_expr`, the comparisons of texts, and `emit_strlen`.
-/

namespace Verbosec.Native.TextEquality

open Verbosec.Lib.Amd64 Verbosec.Lib.Bytes Verbosec.Lib.Utf8 Interpreter

/-! ## The code -/

/-- A comparison with code of its own: the slot of the field, and the literal or the slots of the
bytes that were read. -/
inductive Comparison where
  | literal (field : Int) (lit : String)
  | read (field pointer length : Int)
  deriving DecidableEq, Repr

/-- The field of the input on one side. -/
def inputField (inputName : String) : Expr → Option String
  | .field (.ident n) name => if n = inputName then some name else none
  | _ => none

/-- The comparison that the code is for; none where it falls through to the general case, an error
where the resource is not bound. Source: `native.rs`, `emit_eval_expr`, the comparisons of texts -/
def textComparison (inputName : String) (offsets : String → Option Int)
    (bindings : String → Option (Int × Int)) (left right : Expr) :
    Except String (Option Comparison) :=
  let field : Expr → Option Int := fun e => (inputField inputName e).bind offsets
  let bound (slot : Option Int) (name : String) : Except String (Option Comparison) :=
    match slot with
    | none => .ok none
    | some slot =>
        match bindings name with
        | some (pointer, length) => .ok (some (.read slot pointer length))
        | none =>
            .error (s!"text equality with read({name}) expected the resource to be bound at " ++
              "this point — reached emit_eval_expr with no slot in text_bindings")
  match left, right with
  | left, .text lit => .ok ((field left).map (.literal · lit))
  | .text lit, right => .ok ((field right).map (.literal · lit))
  | left, .read name => bound (field left) name
  | .read name, right => bound (field right) name
  | _, _ => .ok none

/-- A load of a slot: with its displacement in one byte or in four. -/
def loadSlot (short long : UInt8) (slot : Int) : List UInt8 :=
  if -128 ≤ slot then [0x48, 0x8B, short, byteOf slot] else [0x48, 0x8B, long] ++ le32 slot

/-- The comparison with the `n` bytes that stand in front of it. -/
def compareLiteral (n : Nat) (negated : Bool) : List UInt8 :=
  List.flatten [
    [0x48, 0x8D, 0x3D], -- lea rdi, [rip + rel32]
    le32 (-(n + 7 : Int)),
    [0x48, 0xC7, 0xC1], -- mov rcx, n
    le32 n,
    [0xFC, 0xF3, 0xA6], -- cld ; repe cmpsb
    if negated then [0x0F, 0x95, 0xC0] else [0x0F, 0x94, 0xC0],
    [0x48, 0x0F, 0xB6, 0xC0]] -- movzx rax, al

/-- A field is compared with a literal. Source: `native.rs`, `emit_eval_expr` -/
def literalEquality (field : Int) (lit : List UInt8) (negated : Bool) : List UInt8 :=
  loadSlot 0x75 0xB5 field ++ -- mov rsi, [rbp + foff]
    ([0xEB, byteOf (lit.length + 1)] ++ -- jmp over literal + NUL
      ((lit ++ [0]) ++ compareLiteral (lit.length + 1) negated))

/-- The length of the text at `rsi`, in `rdx`. Source: `native.rs`, `emit_strlen` -/
def strlen : List UInt8 :=
  List.flatten [
    [0x48, 0x89, 0xF7], -- mov rdi, rsi
    [0x31, 0xC0], -- xor eax, eax
    [0x48, 0xC7, 0xC1, 0xFF, 0xFF, 0xFF, 0xFF], -- mov rcx, -1
    [0xFC, 0xF2, 0xAE], -- cld ; repne scasb
    [0x48, 0x89, 0xCA], -- mov rdx, rcx
    [0x48, 0xF7, 0xD2], -- not rdx
    [0x48, 0xFF, 0xCA]] -- dec rdx

/-- The end of a comparison with a resource. -/
def collect (negated : Bool) : List UInt8 :=
  [0x48, 0x0F, 0xB6, 0xC0] ++ if negated then [0x48, 0x83, 0xF0, 0x01] else []

/-- A field is compared with the bytes that were read. Source: `native.rs`, `emit_eval_expr` -/
def readEquality (field pointer length : Int) (negated : Bool) : List UInt8 :=
  let same := loadSlot 0x75 0xB5 field ++ (loadSlot 0x7D 0xBD pointer ++
    -- cld ; repe cmpsb ; sete al ; jmp .collect
    [0xFC, 0xF3, 0xA6, 0x0F, 0x94, 0xC0, 0xEB, 2])
  loadSlot 0x75 0xB5 field ++ (strlen ++ (loadSlot 0x4D 0x8D length ++
    -- cmp rdx, rcx ; jne .lengths_differ
    ([0x48, 0x39, 0xCA, 0x75, byteOf same.length] ++ (same ++
      -- .lengths_differ: xor al, al ; .collect:
      ([0x30, 0xC0] ++ collect negated)))))

/-- The code of a comparison. -/
def Comparison.code (negated : Bool) : Comparison → List UInt8
  | .literal field lit => literalEquality field (bytesOf lit.toList) negated
  | .read field pointer length => readEquality field pointer length negated

/-! ## Slots -/

/-- A slot of the frame that holds a word. -/
structure Slot (ok : Nat → Bool) (c : Cpu) (slot : Int) (v : Nat) : Prop where
  range : -2 ^ 31 ≤ slot ∧ slot < 0
  access : accessible ok (displaced (c.get 64 .rbp) slot) 8 = true
  value : loadBytes c.mem (displaced (c.get 64 .rbp) slot) 8 = v
  word : v < 2 ^ 64

section slots

variable {ok : Nat → Bool} {c : Cpu} {slot : Int} {v : Nat}

lemma Slot.congr {c' : Cpu} (h : Slot ok c slot v) (hmem : c'.mem = c.mem)
    (hrbp : c'.get 64 .rbp = c.get 64 .rbp) : Slot ok c' slot v := by
  obtain ⟨hrange, hacc, hvalue, hword⟩ := h
  exact ⟨hrange, by rwa [hrbp], by rwa [hrbp, hmem], hword⟩

/-- A slot is loaded. -/
lemma leads_load {base : Nat} {rest : List UInt8} {short long : UInt8} (dst : Reg)
    {Q : Nat × Cpu → Prop}
    (hshort : ∀ d rest, decode (0x48 :: 0x8B :: short :: d :: rest) =
      some (.load dst .rbp (int8 d), 4))
    (hlong : ∀ b₀ b₁ b₂ b₃ rest, decode (0x48 :: 0x8B :: long :: b₀ :: b₁ :: b₂ :: b₃ :: rest) =
      some (.load dst .rbp (int32 b₀ b₁ b₂ b₃), 7))
    (hslot : Slot ok c slot v)
    (h : Leads ⟨base + (loadSlot short long slot).length, rest⟩ ok
      (base + (loadSlot short long slot).length, c.set 64 dst v) Q) :
    Leads ⟨base, loadSlot short long slot ++ rest⟩ ok (base, c) Q := by
  obtain ⟨hrange, hacc, hvalue, -⟩ := hslot
  have hexec : ∀ next, exec ok next c (.load dst .rbp slot) = some (next, c.set 64 dst v) := by
    intro next
    rw [exec, if_pos hacc, hvalue]
  refine .next (P := ⟨base, _⟩) (k := 0) (n := (loadSlot short long slot).length)
    (.load dst .rbp slot) ?_ (hexec _) (.suffix (k := (loadSlot short long slot).length)
      List.drop_left ?_)
  · rw [List.drop_zero, loadSlot]
    split
    · have hint : int8 (byteOf slot) = slot := by
        have := byteOf_toNat slot
        rw [int8, reading]
        split <;> omega
      refine (hshort (byteOf slot) rest).trans ?_
      rw [hint]
      rfl
    · refine (hlong _ _ _ _ rest).trans ?_
      rw [int32_le32 (by omega)]
      rfl
  · rw [Nat.zero_add]
    exact h

end slots

/-! ## Literals -/

section literals

variable {ok : Nat → Bool} {c : Cpu} {base : Nat} {negated : Bool}

/-- The code ends behind itself, and `rax` says whether. -/
def Answers (P : Image) (r : Bool) (t : Nat × Cpu) : Prop :=
  t.1 = P.stop ∧ t.2.get 64 .rax = r.toNat

/-- The comparison with the bytes in front of it: it ends behind itself with the result, or it stops
at a byte that is not accessible. -/
lemma leads_compareLiteral {data : List UInt8} {n p : Nat} (hn : data.length = n)
    (hbase : base + 24 < 2 ^ 64) (hdata : n ≤ base) (hlength : n + 7 < 2 ^ 31) (hpos : 0 < n)
    (hholds : Holds c.mem (base - n) data) (hok : ∀ i < n, ok (base - n + i) = true)
    (hrsi : c.get 64 .rsi = p) (hroom : p + n < 2 ^ 64) :
    Leads ⟨base, compareLiteral n negated⟩ ok (base, c) fun t =>
      match compareBytes ok c.mem p data with
      | some r => Answers ⟨base, compareLiteral n negated⟩ (r != negated) t
      | none => t.1 = base + 15 ∧ Image.step ⟨base, compareLiteral n negated⟩ ok t = none := by
  have hlea : displaced (base + 7) (int32 (byteOf (-(n + 7 : Int)))
      (byteOf (-(n + 7 : Int) / 2 ^ 8)) (byteOf (-(n + 7 : Int) / 2 ^ 16))
      (byteOf (-(n + 7 : Int) / 2 ^ 24))) = base - n := by
    rw [int32_le32 (by omega), displaced]
    omega
  have hmov : wrap 64 (int32 (byteOf (n : Int)) (byteOf ((n : Int) / 2 ^ 8))
      (byteOf ((n : Int) / 2 ^ 16)) (byteOf ((n : Int) / 2 ^ 24))) = n := by
    rw [int32_le32 (by omega), wrap]
    omega
  refine .next (P := ⟨base, compareLiteral n negated⟩) (k := 0)
    (.leaRip .rdi (int32 _ _ _ _)) rfl rfl ?_
  refine .next (P := ⟨base, compareLiteral n negated⟩) (k := 7)
    (.movImm 64 .rcx (int32 _ _ _ _)) rfl rfl ?_
  refine .next (P := ⟨base, compareLiteral n negated⟩) (k := 14) .cld rfl rfl ?_
  generalize hc₁ : Cpu.mk (Cpu.regs (Cpu.set _ 64 .rcx _)) _ _ false = c₁
  have hmem₁ : c₁.mem = c.mem := by rw [← hc₁]; rfl
  have hrsi₁ : c₁.get 64 .rsi = p := by
    rw [← hc₁, Cpu.get_mk, Cpu.get_set_of_ne _ (by decide), Cpu.get_set_of_ne _ (by decide), hrsi]
  have hrdi₁ : c₁.get 64 .rdi = base - n := by
    rw [← hc₁, Cpu.get_mk, Cpu.get_set_of_ne _ (by decide), Cpu.get_set _ (by decide)]
    exact (congrArg (· % 2 ^ 64) hlea).trans (Nat.mod_eq_of_lt (by omega))
  have hrcx₁ : c₁.get 64 .rcx = n := by
    rw [← hc₁, Cpu.get_mk, Cpu.get_set _ (by decide), hmov, Nat.mod_eq_of_lt (by omega)]
  have hcompare := repeCmpsb_eq ok data (c := c₁) (by rw [← hc₁])
    (fun h => by rw [h] at hn; simp at hn; omega) (by rw [hmem₁, hrdi₁]; exact hholds)
    (by rw [hn, hrdi₁]; exact hok) (by omega) (by omega)
  rw [hn, hmem₁, hrsi₁] at hcompare
  rcases hr : compareBytes ok c.mem p data with _ | r
  · rw [hr, Option.map_none, Option.map_eq_none_iff] at hcompare
    refine .here ⟨rfl, ?_⟩
    show Image.step ⟨base, compareLiteral n negated⟩ ok (base + 15, c₁) = none
    rw [Image.step, Image.fetch_at ⟨base, compareLiteral n negated⟩ 15]
    show (repeCmpsb ok (c₁.get 64 .rcx) c₁).map _ = none
    rw [hrcx₁, hcompare]
    rfl
  · rw [hr, Option.map_some, Option.map_eq_some_iff] at hcompare
    obtain ⟨c₂, hc₂, heq⟩ := hcompare
    obtain ⟨hzero, -⟩ := Prod.mk.inj heq
    refine .next (P := ⟨base, compareLiteral n negated⟩) (k := 15) .repeCmpsb rfl
      (by rw [exec, hrcx₁, hc₂]; rfl) ?_
    have hset : ∀ cond : Nat, holds c₂.flags cond = (r != negated) →
        ((c₂.set 8 .rax (holds c₂.flags cond).toNat).set 64 .rax
          ((c₂.set 8 .rax (holds c₂.flags cond).toNat).get 8 .rax)).get 64 .rax =
            (r != negated).toNat := by
      intro cond hcond
      have hlt := Bool.toNat_lt (r != negated)
      rw [Cpu.get_set _ (by decide), hcond, Cpu.get_set_low _ (by omega),
        Nat.mod_eq_of_lt (by omega)]
    cases negated with
    | true =>
        refine .next (P := ⟨base, compareLiteral n true⟩) (k := 17) (.set 5 .rax) rfl rfl ?_
        refine .next (P := ⟨base, compareLiteral n true⟩) (k := 20) (.movzx 64 .rax .rax) rfl rfl
          (.here ⟨rfl, hset 5 ?_⟩)
        simp [holds, hzero]
    | false =>
        refine .next (P := ⟨base, compareLiteral n false⟩) (k := 17) (.set 4 .rax) rfl rfl ?_
        refine .next (P := ⟨base, compareLiteral n false⟩) (k := 20) (.movzx 64 .rax .rax) rfl rfl
          (.here ⟨rfl, hset 4 ?_⟩)
        simp [holds, hzero]

/-- A text in the accessible memory, up to its terminator. -/
structure Text (ok : Nat → Bool) (c : Cpu) (p : Nat) (s : List UInt8) : Prop where
  bytes : Holds c.mem p (s ++ [0])
  access : ∀ i ≤ s.length, ok (p + i) = true
  noNul : 0 ∉ s
  room : p + s.length + 1 < 2 ^ 64

/-- The code is in the memory, and readable. -/
structure Mapped (ok : Nat → Bool) (c : Cpu) (P : Image) : Prop where
  bytes : Holds c.mem P.base P.bytes
  access : ∀ i < P.bytes.length, ok (P.base + i) = true
  room : P.stop < 2 ^ 64

lemma length_loadSlot (short long : UInt8) (slot : Int) :
    (loadSlot short long slot).length = 4 ∨ (loadSlot short long slot).length = 7 := by
  rw [loadSlot]
  split
  · exact .inl rfl
  · exact .inr rfl

/-- **The comparison with a short literal** ends behind itself with the result of the comparison of
the bytes, or it stops at a byte that is not accessible. -/
lemma leads_literal {field : Int} {lit : List UInt8} {p : Nat} (hlit : lit.length ≤ 126)
    (hslot : Slot ok c field p) (hmapped : Mapped ok c ⟨base, literalEquality field lit negated⟩)
    (hroom : p + 128 < 2 ^ 64) :
    Leads ⟨base, literalEquality field lit negated⟩ ok (base, c) fun t =>
      match compareBytes ok c.mem p (lit ++ [0]) with
      | some r => Answers ⟨base, literalEquality field lit negated⟩ (r != negated) t
      | none => t.1 < Image.stop ⟨base, literalEquality field lit negated⟩ ∧
          Image.step ⟨base, literalEquality field lit negated⟩ ok t = none := by
  generalize hload : (loadSlot 0x75 0xB5 field).length = l
  have hl := length_loadSlot 0x75 0xB5 field
  have hn : (lit ++ [0]).length = lit.length + 1 := by simp
  have hend : (compareLiteral (lit.length + 1) negated).length = 24 := by cases negated <;> rfl
  have hlength : (literalEquality field lit negated).length = l + 2 + (lit.length + 1) + 24 := by
    simp only [literalEquality, List.length_append, hload, hend, List.length_cons, List.length_nil]
    omega
  obtain ⟨hbytes, hok, hstop⟩ := hmapped
  have hstop' : base + (l + 2 + (lit.length + 1) + 24) < 2 ^ 64 := by
    rw [← hlength]
    exact hstop
  -- the literal, as the code has it
  have hdata : Holds c.mem (base + l + 2) (lit ++ [0]) := by
    have h := (holds_append.mp (holds_append.mp (holds_append.mp hbytes).2).2).1
    rwa [hload] at h
  have hsuffix : (literalEquality field lit negated).drop (l + 2 + (lit.length + 1)) =
      compareLiteral (lit.length + 1) negated := by
    have hsplit : literalEquality field lit negated =
        (loadSlot 0x75 0xB5 field ++ [0xEB, byteOf (lit.length + 1)] ++ (lit ++ [0])) ++
          compareLiteral (lit.length + 1) negated := by
      simp [literalEquality]
    rw [hsplit]
    refine List.drop_left' ?_
    simp only [List.length_append, hload, List.length_cons, List.length_nil]
  have hlift : ∀ t, (match compareBytes ok c.mem p (lit ++ [0]) with
      | some r => Answers ⟨base + (l + 2 + (lit.length + 1)),
          compareLiteral (lit.length + 1) negated⟩ (r != negated) t
      | none => t.1 = base + (l + 2 + (lit.length + 1)) + 15 ∧
          Image.step ⟨base + (l + 2 + (lit.length + 1)), compareLiteral (lit.length + 1) negated⟩
            ok t = none) →
      match compareBytes ok c.mem p (lit ++ [0]) with
      | some r => Answers ⟨base, literalEquality field lit negated⟩ (r != negated) t
      | none => t.1 < Image.stop ⟨base, literalEquality field lit negated⟩ ∧
          Image.step ⟨base, literalEquality field lit negated⟩ ok t = none := by
    intro t ht
    have hstops : Image.stop ⟨base + (l + 2 + (lit.length + 1)),
        compareLiteral (lit.length + 1) negated⟩ =
          Image.stop ⟨base, literalEquality field lit negated⟩ := by
      simp only [Image.stop, hlength, hend]
      omega
    rcases hr : compareBytes ok c.mem p (lit ++ [0]) with _ | r
    · rw [hr] at ht
      obtain ⟨hpc, hnone⟩ := ht
      refine ⟨?_, ?_⟩
      · simp only [Image.stop, hlength]
        omega
      · rwa [← Image.step_suffix (P := ⟨base, literalEquality field lit negated⟩) hsuffix
          (by simp only; omega)]
    · rw [hr] at ht
      exact ⟨ht.1.trans hstops, ht.2⟩
  refine leads_load .rsi (fun _ _ => rfl) (fun _ _ _ _ _ => rfl) hslot ?_
  rw [hload]
  have hsuffix' : ([0xEB, byteOf (lit.length + 1)] ++ ((lit ++ [0]) ++
      compareLiteral (lit.length + 1) negated)).drop (2 + (lit.length + 1)) =
        compareLiteral (lit.length + 1) negated := by
    rw [← List.append_assoc]
    refine List.drop_left' ?_
    simp only [List.length_append, List.length_cons, List.length_nil]
  have hdest : displaced (base + l + (0 + 2)) (int8 (byteOf (lit.length + 1))) =
      base + l + (2 + (lit.length + 1)) := by
    have := byteOf_toNat (lit.length + 1)
    rw [int8, reading, if_pos (by omega), displaced]
    omega
  refine .jmp (P := ⟨base + l, _⟩) (k := 0) _ rfl hdest (.suffix hsuffix' ?_)
  have hposition : base + l + (2 + (lit.length + 1)) = base + (l + 2 + (lit.length + 1)) := by omega
  show Leads ⟨base + l + (2 + (lit.length + 1)), _⟩ _ (base + l + (2 + (lit.length + 1)), _) _
  rw [hposition]
  have hstart : base + (l + 2 + (lit.length + 1)) - (lit.length + 1) = base + l + 2 := by omega
  refine (leads_compareLiteral (c := c.set 64 .rsi p) hn (by omega) (by omega)
    (by omega) (by omega) ?_ (fun i hi => ?_) ?_ (by omega)).mono hlift
  · rw [hstart]
    exact hdata
  · rw [hstart, Nat.add_assoc, Nat.add_assoc]
    refine hok (l + (2 + i)) ?_
    show _ < (literalEquality field lit negated).length
    omega
  · rw [Cpu.get_set _ (by decide), Nat.mod_eq_of_lt hslot.word]

/-- The bytes of a text are compared with as many bytes, or fewer. -/
lemma compareBytes_take {m : Nat → UInt8} {a : Nat} {s bs : List UInt8} (hs : Holds m a s)
    (hok : ∀ i < s.length, ok (a + i) = true) (hle : bs.length ≤ s.length) :
    compareBytes ok m a bs = some (decide (s.take bs.length = bs)) := by
  induction bs generalizing a s with
  | nil => simp [compareBytes]
  | cons b bs ih =>
      obtain ⟨x, s, rfl⟩ : ∃ x s', s = x :: s' := List.exists_cons_of_length_pos (by
        simp only [List.length_cons] at hle
        omega)
      obtain ⟨hbyte, htail⟩ := holds_cons.mp hs
      have hrest := ih htail (fun i hi => by
        rw [Nat.add_assoc, Nat.add_comm 1 i]
        exact hok (i + 1) (Nat.succ_lt_succ hi)) (Nat.le_of_succ_le_succ hle)
      have hacc : ok a = true := hok 0 (Nat.zero_lt_succ _)
      rw [compareBytes, if_pos hacc, hbyte, List.length_cons, List.take_succ_cons, hrest]
      by_cases heq : x = b
      · simp [heq]
      · simp [heq]

/-- A literal without a terminator inside is compared as a text. -/
lemma compareBytes_literal {m : Nat → UInt8} {p : Nat} {s lit : List UInt8}
    (hbytes : Holds m p (s ++ [0])) (hok : ∀ i ≤ s.length, ok (p + i) = true) (hs : 0 ∉ s)
    (hlit : 0 ∉ lit) : compareBytes ok m p (lit ++ [0]) = some (decide (s = lit)) := by
  induction lit generalizing p s with
  | nil =>
      cases s with
      | nil =>
          have hbyte : m p = 0 := (holds_cons.mp hbytes).1
          have hacc : ok p = true := hok 0 (Nat.le_refl _)
          simp [compareBytes, hbyte, hacc]
      | cons x s =>
          have hbyte : m p = x := (holds_cons.mp hbytes).1
          have hacc : ok p = true := hok 0 (Nat.zero_le _)
          have hne : x ≠ 0 := fun h => hs (h ▸ List.mem_cons_self)
          simp [compareBytes, hbyte, hacc, hne]
  | cons b lit ih =>
      have hne : b ≠ 0 := fun h => hlit (h ▸ List.mem_cons_self)
      cases s with
      | nil =>
          have hbyte : m p = 0 := (holds_cons.mp hbytes).1
          have hacc : ok p = true := hok 0 (Nat.le_refl _)
          simp [compareBytes, hbyte, hacc, hne.symm]
      | cons x s =>
          obtain ⟨hbyte, htail⟩ := holds_cons.mp hbytes
          have hacc : ok p = true := hok 0 (Nat.zero_le _)
          have hrest := ih htail (fun i hi => by
            rw [Nat.add_assoc, Nat.add_comm 1 i]
            exact hok (i + 1) (Nat.succ_le_succ hi))
            (fun h => hs (List.mem_cons_of_mem _ h)) (fun h => hlit (List.mem_cons_of_mem _ h))
          rw [List.cons_append, compareBytes, if_pos hacc, hbyte, hrest]
          by_cases heq : x = b
          · simp [heq]
          · simp [heq]

end literals

/-! ## Resources -/

section resources

variable {ok : Nat → Bool} {c : Cpu} {base : Nat} {negated : Bool}

/-- The low byte is the result, inverted for `!=`. -/
lemma leads_collect {r : Bool} (hr : c.get 8 .rax = r.toNat) :
    Leads ⟨base, collect negated⟩ ok (base, c)
      (Answers ⟨base, collect negated⟩ (r != negated)) := by
  have hlt := Bool.toNat_lt r
  have hword : (c.set 64 .rax (c.get 8 .rax)).get 64 .rax = r.toNat := by
    rw [Cpu.get_set _ (by decide), hr, Nat.mod_eq_of_lt (by omega)]
  cases negated with
  | false =>
      refine .next (P := ⟨base, collect false⟩) (k := 0) (.movzx 64 .rax .rax) rfl rfl
        (.here ⟨rfl, ?_⟩)
      rw [hword, Bool.bne_false]
  | true =>
      refine .next (P := ⟨base, collect true⟩) (k := 0) (.movzx 64 .rax .rax) rfl rfl ?_
      refine .next (P := ⟨base, collect true⟩) (k := 4) (.aluImm .xor 64 .rax 1) rfl rfl
        (.here ⟨rfl, ?_⟩)
      rw [Cpu.get_alu _ (by decide) (by decide), hword]
      cases r <;> decide +kernel

/-- The length of the text at `rsi`. -/
lemma leads_strlen {rest : List UInt8} {s : List UInt8} {p : Nat} {Q : Nat × Cpu → Prop}
    (hrsi : c.get 64 .rsi = p) (htext : Text ok c p s)
    (h : ∀ c' : Cpu, c'.mem = c.mem → c'.get 64 .rbp = c.get 64 .rbp → c'.down = false →
      c'.get 64 .rdx = s.length → Leads ⟨base + 24, rest⟩ ok (base + 24, c') Q) :
    Leads ⟨base, strlen ++ rest⟩ ok (base, c) Q := by
  obtain ⟨hbytes, hok, hs, hroom⟩ := htext
  have hmov : wrap 64 (int32 0xFF 0xFF 0xFF 0xFF) = 2 ^ 64 - 1 := by decide +kernel
  refine .next (P := ⟨base, strlen ++ rest⟩) (k := 0) (.mov .rdi .rsi) rfl rfl ?_
  refine .next (P := ⟨base, strlen ++ rest⟩) (k := 3) (.alu .xor 32 .rax .rax) rfl rfl ?_
  refine .next (P := ⟨base, strlen ++ rest⟩) (k := 5) (.movImm 64 .rcx (int32 _ _ _ _)) rfl rfl ?_
  refine .next (P := ⟨base, strlen ++ rest⟩) (k := 12) .cld rfl rfl ?_
  generalize hc₁ : Cpu.mk (Cpu.regs (Cpu.set _ 64 .rcx _)) _ _ false = c₁
  have hmem₁ : c₁.mem = c.mem := by simp [← hc₁]
  have hdown₁ : c₁.down = false := by rw [← hc₁]
  have hrax₁ : c₁.get 8 .rax = 0 := by
    rw [← hc₁, Cpu.get_mk, Cpu.get_set_of_ne _ (by decide), Cpu.get_alu _ (by decide) (by decide),
      xor_self_word, Nat.zero_mod]
  have hrdi₁ : c₁.get 64 .rdi = p := by
    rw [← hc₁, Cpu.get_mk, Cpu.get_set_of_ne _ (by decide), Cpu.get_alu_of_ne _ (by decide),
      Cpu.get_set _ (by decide), hrsi, Nat.mod_eq_of_lt (by omega)]
  have hrbp₁ : c₁.get 64 .rbp = c.get 64 .rbp := by
    rw [← hc₁, Cpu.get_mk, Cpu.get_set_of_ne _ (by decide), Cpu.get_alu_of_ne _ (by decide),
      Cpu.get_set_of_ne _ (by decide)]
  have hrcx₁ : c₁.get 64 .rcx = 2 ^ 64 - 1 := by
    rw [← hc₁, Cpu.get_mk, Cpu.get_set _ (by decide), hmov, Nat.mod_eq_of_lt (by decide)]
  obtain ⟨c₂, hrun, hrcx₂, hmem₂, hdown₂, hrbp₂⟩ := repneScasb_eq ok (n := 2 ^ 64 - 1) hdown₁
    hrax₁ hs (by rw [hmem₁, hrdi₁]; exact hbytes) (by rw [hrdi₁]; exact hok) (by omega) (by omega)
    (by omega)
  refine .next (P := ⟨base, strlen ++ rest⟩) (k := 13) (n := 2) .repneScasb rfl
    (by rw [exec, hrcx₁, hrun]; rfl) ?_
  refine .next (P := ⟨base, strlen ++ rest⟩) (k := 15) (.mov .rdx .rcx) rfl rfl ?_
  refine .next (P := ⟨base, strlen ++ rest⟩) (k := 18) (.not .rdx) rfl rfl ?_
  refine .next (P := ⟨base, strlen ++ rest⟩) (k := 21) (.dec .rdx) rfl rfl ?_
  refine .suffix (k := 24) rfl (h _ ?_ ?_ ?_ ?_)
  · simp [hmem₂, hmem₁]
  · rw [Cpu.get_mk, Cpu.get_alu_of_ne _ (by decide), Cpu.get_set_of_ne _ (by decide),
      Cpu.get_set_of_ne _ (by decide), hrbp₂, hrbp₁]
  · simp [hdown₂]
  · rw [Cpu.get_mk, Cpu.get_alu _ (by decide) (by decide), Cpu.get_set _ (by decide),
      Cpu.get_set _ (by decide), hrcx₂,
      Nat.mod_eq_of_lt (show 2 ^ 64 - 1 - (s.length + 1) < 2 ^ 64 by omega),
      show 2 ^ 64 - 1 - (2 ^ 64 - 1 - (s.length + 1)) = s.length + 1 by omega,
      Nat.mod_eq_of_lt (show s.length + 1 < 2 ^ 64 by omega), dec_word (by omega) (by omega),
      Nat.mod_eq_of_lt (by omega), Nat.add_sub_cancel]

/-- The comparison of as many bytes of two texts. -/
lemma leads_same {rest : List UInt8} {field pointer : Int} {p q : Nat} {s : List UInt8}
    (content : List UInt8) {Q : Nat × Cpu → Prop} (hfield : Slot ok c field p)
    (hpointer : Slot ok c pointer q)
    (hs : Holds c.mem p s) (hsok : ∀ i < s.length, ok (p + i) = true)
    (hcontent : Holds c.mem q content) (hcok : ∀ i < content.length, ok (q + i) = true)
    (hlength : s.length = content.length) (hproom : p + s.length < 2 ^ 64)
    (hqroom : q + content.length < 2 ^ 64) (hrcx : c.get 64 .rcx = content.length)
    (hzero : c.flags.zero = true)
    (hstop : base + 40 < 2 ^ 64)
    (h : ∀ b c',
      b = base + (loadSlot 0x75 0xB5 field).length + (loadSlot 0x7D 0xBD pointer).length →
        c'.get 8 .rax = (decide (s = content)).toNat → Leads ⟨b + 10, rest⟩ ok (b + 10, c') Q) :
    Leads ⟨base, loadSlot 0x75 0xB5 field ++ (loadSlot 0x7D 0xBD pointer ++
      ([0xFC, 0xF3, 0xA6, 0x0F, 0x94, 0xC0, 0xEB, 2] ++ ([0x30, 0xC0] ++ rest)))⟩ ok (base, c)
      Q := by
  have hl := length_loadSlot 0x75 0xB5 field
  have hl' := length_loadSlot 0x7D 0xBD pointer
  refine leads_load .rsi (fun _ _ => rfl) (fun _ _ _ _ _ => rfl) hfield ?_
  refine leads_load .rdi (fun _ _ => rfl) (fun _ _ _ _ _ => rfl)
    (hpointer.congr rfl (Cpu.get_set_of_ne _ (by decide))) ?_
  generalize hb : base + (loadSlot 0x75 0xB5 field).length + (loadSlot 0x7D 0xBD pointer).length = b
  refine .next (P := ⟨b, _⟩) (k := 0) .cld rfl rfl ?_
  generalize hc₁ : Cpu.mk (Cpu.regs (Cpu.set _ 64 .rdi _)) _ _ false = c₁
  have hmem₁ : c₁.mem = c.mem := by rw [← hc₁]; rfl
  have hrsi₁ : c₁.get 64 .rsi = p := by
    rw [← hc₁, Cpu.get_mk, Cpu.get_set_of_ne _ (by decide), Cpu.get_set _ (by decide),
      Nat.mod_eq_of_lt hfield.word]
  have hrdi₁ : c₁.get 64 .rdi = q := by
    rw [← hc₁, Cpu.get_mk, Cpu.get_set _ (by decide), Nat.mod_eq_of_lt hpointer.word]
  have hrcx₁ : c₁.get 64 .rcx = content.length := by
    rw [← hc₁, Cpu.get_mk, Cpu.get_set_of_ne _ (by decide), Cpu.get_set_of_ne _ (by decide), hrcx]
  have hcompare := repeCmpsb_eq ok content (c := c₁) (by rw [← hc₁])
    (fun _ => by rw [← hc₁]; exact hzero) (by rw [hmem₁, hrdi₁]; exact hcontent)
    (by rw [hrdi₁]; exact hcok) (by omega) (by omega)
  rw [hmem₁, hrsi₁, compareBytes_take hs hsok hlength.ge, ← hlength, List.take_length,
    Option.map_some, Option.map_eq_some_iff] at hcompare
  obtain ⟨c₂, hc₂, heq⟩ := hcompare
  obtain ⟨hzero₂, -⟩ := Prod.mk.inj heq
  refine .next (P := ⟨b, _⟩) (k := 1) (n := 2) .repeCmpsb rfl
    (by rw [exec, hrcx₁, ← hlength, hc₂]; rfl) ?_
  refine .next (P := ⟨b, _⟩) (k := 3) (.set 4 .rax) rfl rfl ?_
  refine .jmp (P := ⟨b, _⟩) (k := 6) (b + 10) rfl ?_ (.suffix (k := 10) rfl (h b _ hb.symm ?_))
  · show displaced (b + 8) 2 = b + 10
    rw [displaced]
    omega
  · rw [Cpu.get_set_low _ (by have := Bool.toNat_lt (holds c₂.flags 4); omega)]
    simp [holds, hzero₂]

/-- **The comparison with a resource** ends behind itself with the equality of the texts. -/
lemma leads_read (negated : Bool) {field pointer length : Int} {p q : Nat} {s content : List UInt8}
    (hfield : Slot ok c field p) (hpointer : Slot ok c pointer q)
    (hlen : Slot ok c length content.length) (htext : Text ok c p s)
    (hcontent : Holds c.mem q content) (hcok : ∀ i < content.length, ok (q + i) = true)
    (hqroom : q + content.length < 2 ^ 64) (hstop : base + 128 < 2 ^ 64) :
    Leads ⟨base, readEquality field pointer length negated⟩ ok (base, c)
      (Answers ⟨base, readEquality field pointer length negated⟩
        (decide (s = content) != negated)) := by
  have hl := length_loadSlot 0x75 0xB5 field
  have hl' := length_loadSlot 0x7D 0xBD pointer
  have hl'' := length_loadSlot 0x4D 0x8D length
  obtain ⟨same, hsame⟩ : ∃ same, same = loadSlot 0x75 0xB5 field ++ (loadSlot 0x7D 0xBD pointer ++
    [0xFC, 0xF3, 0xA6, 0x0F, 0x94, 0xC0, 0xEB, 2]) := ⟨_, rfl⟩
  have hlength : same.length = (loadSlot 0x75 0xB5 field).length +
      (loadSlot 0x7D 0xBD pointer).length + 8 := by
    simp only [hsame, List.length_append, List.length_cons, List.length_nil]
    omega
  have hcode : readEquality field pointer length negated = loadSlot 0x75 0xB5 field ++ (strlen ++
      (loadSlot 0x4D 0x8D length ++ ([0x48, 0x39, 0xCA, 0x75, byteOf same.length] ++ (same ++
        ([0x30, 0xC0] ++ collect negated))))) := by rw [readEquality, hsame]
  have hend : Image.stop ⟨base, readEquality field pointer length negated⟩ =
      base + (loadSlot 0x75 0xB5 field).length + 24 + (loadSlot 0x4D 0x8D length).length + 5 +
        same.length + 2 + (collect negated).length := by
    have hstrlen : strlen.length = 24 := rfl
    simp only [Image.stop, hcode, List.length_append, List.length_cons, List.length_nil, hstrlen]
    omega
  have hfinish : ∀ b c' r, b = base + (loadSlot 0x75 0xB5 field).length + 24 +
      (loadSlot 0x4D 0x8D length).length + 5 + same.length + 2 → c'.get 8 .rax = Bool.toNat r →
      Leads ⟨b, collect negated⟩ ok (b, c')
        (Answers ⟨base, readEquality field pointer length negated⟩ (r != negated)) := by
    intro b c' r hb hr
    refine (leads_collect hr).mono fun t ht => ⟨?_, ht.2⟩
    rw [hend, ← hb]
    exact ht.1
  have hsame_le : same.length ≤ 22 := by omega
  clear hend
  generalize Answers ⟨base, readEquality field pointer length negated⟩ = Q at hfinish ⊢
  rw [hcode]
  refine leads_load .rsi (fun _ _ => rfl) (fun _ _ _ _ _ => rfl) hfield ?_
  have hrsi : (c.set 64 .rsi p).get 64 .rsi = p := by
    rw [Cpu.get_set _ (by decide), Nat.mod_eq_of_lt hfield.word]
  have hrbp : (c.set 64 .rsi p).get 64 .rbp = c.get 64 .rbp := Cpu.get_set_of_ne _ (by decide)
  refine leads_strlen hrsi ⟨htext.bytes, htext.access, htext.noNul, htext.room⟩
    fun c₁ hmem₁ hrbp₁ hdown₁ hrdx₁ => ?_
  rw [hrbp] at hrbp₁
  refine leads_load .rcx (fun _ _ => rfl) (fun _ _ _ _ _ => rfl)
    (hlen.congr hmem₁ hrbp₁) ?_
  generalize hb : base + (loadSlot 0x75 0xB5 field).length + 24 +
    (loadSlot 0x4D 0x8D length).length = b at hfinish ⊢
  have hrdx₂ : (c₁.set 64 .rcx content.length).get 64 .rdx = s.length := by
    rw [Cpu.get_set_of_ne _ (by decide), hrdx₁]
  have hrcx₂ : (c₁.set 64 .rcx content.length).get 64 .rcx = content.length := by
    rw [Cpu.get_set _ (by decide), Nat.mod_eq_of_lt hlen.word]
  have hrbp₂ : (c₁.set 64 .rcx content.length).get 64 .rbp = c.get 64 .rbp := by
    rw [Cpu.get_set_of_ne _ (by decide), hrbp₁]
  generalize hc₂ : c₁.set 64 .rcx content.length = c₂ at hrdx₂ hrcx₂ hrbp₂ ⊢
  have hmem₂ : c₂.mem = c.mem := by rw [← hc₂]; exact hmem₁
  refine .next (P := ⟨b, _⟩) (k := 0) (.alu .cmp 64 .rdx .rcx) rfl rfl ?_
  have hroom := htext.room
  have hzero : (Alu.cmp.flags 64 (c₂.get 64 .rdx) (c₂.get 64 .rcx)).zero =
      decide (s.length = content.length) := by
    rw [hrdx₂, hrcx₂]
    exact cmp_zero_word (by omega) (by omega)
  have hdest : displaced (b + 5) (int8 (byteOf same.length)) = b + (5 + same.length) := by
    have := byteOf_toNat same.length
    rw [int8, reading, if_pos (by omega), displaced]
    omega
  refine .jcc (P := ⟨b, _⟩) (k := 3) 5 (b + (5 + same.length)) rfl hdest (fun hyes => ?_)
    (fun hno => ?_)
  · have hne : s.length ≠ content.length := by simpa [holds, hzero] using hyes
    have hdiffer : decide (s = content) = false := decide_eq_false fun h => hne (by rw [h])
    rw [hdiffer]
    have htail : ([0x48, 0x39, 0xCA, 0x75, byteOf same.length] ++ (same ++ ([0x30, 0xC0] ++
        collect negated))).drop (5 + same.length) = [0x30, 0xC0] ++ collect negated := by
      rw [← List.append_assoc]
      refine List.drop_left' ?_
      simp only [List.length_append, List.length_cons, List.length_nil]
    refine .suffix htail ?_
    refine .next (P := ⟨b + (5 + same.length), _⟩) (k := 0) (.alu .xor 8 .rax .rax) rfl rfl ?_
    refine .suffix (k := 2) rfl (hfinish (b + (5 + same.length) + 2) _ false (by omega) ?_)
    rw [Cpu.get_alu_low _ (by decide), xor_self_word]
    rfl
  · have heq : s.length = content.length := by simpa [holds, hzero] using hno
    have htail : ([0x48, 0x39, 0xCA, 0x75, byteOf same.length] ++ (same ++ ([0x30, 0xC0] ++
        collect negated))).drop 5 = loadSlot 0x75 0xB5 field ++ (loadSlot 0x7D 0xBD pointer ++
          ([0xFC, 0xF3, 0xA6, 0x0F, 0x94, 0xC0, 0xEB, 2] ++ ([0x30, 0xC0] ++
            collect negated))) := by
      simp [hsame]
    refine .suffix htail ?_
    show Leads ⟨b + 5, _⟩ ok (b + 5, _) _
    refine leads_same content (p := p) (q := q) (s := s)
      (hfield.congr (by simp [hmem₂]) (by rw [Cpu.get_cmp, hrbp₂]))
      (hpointer.congr (by simp [hmem₂]) (by rw [Cpu.get_cmp, hrbp₂])) ?_
      (fun i hi => htext.access i hi.le) ?_ hcok heq (by omega) hqroom (by rw [Cpu.get_cmp, hrcx₂])
      ?_ (by omega) fun b' c' hb' hr => hfinish (b' + 10) _ _ (by omega) hr
    · rw [Cpu.mem_alu, hmem₂]
      exact (holds_append.mp htext.bytes).1
    · rw [Cpu.mem_alu, hmem₂]
      exact hcontent
    · rw [Cpu.flags_alu, hzero]
      exact decide_eq_true heq

end resources

/-! ## Exactness -/

section exactness

variable {ok : Nat → Bool} {c : Cpu} {base : Nat}

/-- The value of an operand, for the text of the field and the content of the resource. -/
def operandValue (s content : String) : Expr → Value
  | .text lit => .text lit
  | .read _ => .text content
  | _ => .text s

/-- What a comparison reads: the text of the field at `p`, and the content of the resource. -/
inductive Loaded (ok : Nat → Bool) (c : Cpu) (p : Nat) (s content : String) : Comparison → Prop
  | literal {field lit} (hfield : Slot ok c field p) (htext : Text ok c p (bytesOf s.toList))
      (hroom : p + 128 < 2 ^ 64) : Loaded ok c p s content (.literal field lit)
  | read {field pointer length q} (hfield : Slot ok c field p)
      (htext : Text ok c p (bytesOf s.toList)) (hpointer : Slot ok c pointer q)
      (hlength : Slot ok c length (bytesOf content.toList).length)
      (hbytes : Holds c.mem q (bytesOf content.toList))
      (hok : ∀ i < (bytesOf content.toList).length, ok (q + i) = true)
      (hroom : q + (bytesOf content.toList).length < 2 ^ 64) :
      Loaded ok c p s content (.read field pointer length)

/-- The other side of a comparison. -/
def Comparison.other (content : String) : Comparison → String
  | .literal _ lit => lit
  | .read _ _ _ => content

/-- The texts are equal where their bytes are. -/
lemma bytesOf_inj {s t : String} : bytesOf s.toList = bytesOf t.toList ↔ s = t := by
  constructor
  · intro h
    have htext := textOf_bytesOf s.toList
    rw [h, textOf_bytesOf] at htext
    exact (String.toList_injective (Option.some.inj htext)).symm
  · rintro rfl
    rfl

lemma operandValue_field {inputName : String} {offsets : String → Option Int} {e : Expr}
    {slot : Int} (h : (inputField inputName e).bind offsets = some slot) (s content : String) :
    operandValue s content e = .text s := by
  obtain ⟨name, hname, -⟩ := Option.bind_eq_some_iff.mp h
  unfold inputField at hname
  split at hname
  · rfl
  · cases hname

lemma applyBinary_text {op : BinOp} (hop : op = .eq ∨ op = .notEq) {a b : String} {r : Bool}
    (h : applyBinary op (.text a) (.text b) = .ok (.bool r)) :
    r = (decide (a = b) != decide (op = .notEq)) := by
  rcases hop with rfl | rfl
  · cases h
    simp
  · cases h
    simp

/-- The interpreter compares the field with the other side. -/
lemma applyBinary_textComparison {inputName : String} {offsets : String → Option Int}
    {bindings : String → Option (Int × Int)} {left right : Expr} {cmp : Comparison}
    (hcmp : textComparison inputName offsets bindings left right = .ok (some cmp)) {op : BinOp}
    (hop : op = .eq ∨ op = .notEq) {s content : String} {r : Bool}
    (hr : applyBinary op (operandValue s content left) (operandValue s content right) =
      .ok (.bool r)) :
    r = (decide (s = cmp.other content) != decide (op = .notEq)) := by
  have hbound : ∀ {e : Expr} {name : String}, (match (inputField inputName e).bind offsets with
      | none => .ok none
      | some slot =>
          match bindings name with
          | some (pointer, length) => .ok (some (.read slot pointer length))
          | none =>
              .error (s!"text equality with read({name}) expected the resource to be bound at " ++
                "this point — reached emit_eval_expr with no slot in text_bindings") :
        Except String (Option Comparison)) = .ok (some cmp) →
      operandValue s content e = .text s ∧ cmp.other content = content := by
    intro e name h
    split at h
    · cases h
    · rename_i slot hslot
      split at h
      · cases h
        exact ⟨operandValue_field hslot s content, rfl⟩
      · cases h
  have hcomm : ∀ a b : String, decide (a = b) = decide (b = a) := fun a b =>
    decide_eq_decide.mpr eq_comm
  unfold textComparison at hcmp
  simp only at hcmp
  split at hcmp
  · obtain ⟨slot, hslot, rfl⟩ := Option.map_eq_some_iff.mp (Except.ok.inj hcmp)
    rw [operandValue_field hslot] at hr
    exact applyBinary_text hop hr
  · obtain ⟨slot, hslot, rfl⟩ := Option.map_eq_some_iff.mp (Except.ok.inj hcmp)
    rw [operandValue_field hslot] at hr
    rw [applyBinary_text hop hr, Comparison.other, hcomm]
  · obtain ⟨hfield, hother⟩ := hbound hcmp
    rw [hfield] at hr
    rw [hother]
    exact applyBinary_text hop hr
  · obtain ⟨hfield, hother⟩ := hbound hcmp
    rw [hfield] at hr
    rw [hother, hcomm]
    exact applyBinary_text hop hr
  · cases hcmp

/-- A literal without a NUL inside is the text, or differs from it in a byte that is accessible. -/
lemma eq_or_differs {p : Nat} {s lit : List UInt8} (htext : Text ok c p s) (hlit : 0 ∉ lit) :
    s = lit ∨ Differs ok c.mem p (lit ++ [0]) := by
  rw [← compareBytes_eq_false, compareBytes_literal htext.bytes htext.access htext.noNul hlit]
  by_cases h : s = lit
  · exact .inl h
  · exact .inr (by rw [decide_eq_false h])

/-- A literal of 127 bytes or some more is in the way: the jump over it goes back, in front of the
code. -/
lemma leads_long {field : Int} {lit : List UInt8} {negated : Bool} {p : Nat}
    (hlow : 127 ≤ lit.length) (hhigh : lit.length ≤ 245) (hslot : Slot ok c field p)
    (hbase : 256 ≤ base) (hstop : base + 16 < 2 ^ 64) :
    Leads ⟨base, literalEquality field lit negated⟩ ok (base, c) fun t => t.1 < base := by
  have hl := length_loadSlot 0x75 0xB5 field
  refine leads_load .rsi (fun _ _ => rfl) (fun _ _ _ _ _ => rfl) hslot ?_
  generalize (loadSlot 0x75 0xB5 field).length = l at hl ⊢
  have hdest : displaced (base + l + (0 + 2)) (int8 (byteOf (lit.length + 1))) =
      base + l + 2 + (lit.length + 1) - 256 := by
    have := byteOf_toNat (lit.length + 1)
    rw [int8, reading, if_neg (by omega), displaced]
    omega
  refine .jmp (P := ⟨base + l, _⟩) (k := 0) _ rfl hdest (.here ?_)
  show base + l + 2 + (lit.length + 1) - 256 < base
  omega

/-- **When the code is the comparison of the interpreter.** The comparison with a resource always
ends behind the code with the result of the interpreter. The comparison with a literal of at most
126 bytes does where the literal is the text, or differs, with its terminator, from the bytes at the
field; one with 127 to 245 bytes leaves the code at its front. -/
theorem textEquality_exact {inputName : String} {offsets : String → Option Int}
    {bindings : String → Option (Int × Int)} {left right : Expr} {cmp : Comparison}
    (hcmp : textComparison inputName offsets bindings left right = .ok (some cmp)) {op : BinOp}
    (hop : op = .eq ∨ op = .notEq) {s content : String} {r : Bool}
    (hr : applyBinary op (operandValue s content left) (operandValue s content right) =
      .ok (.bool r))
    {p : Nat} (hloaded : Loaded ok c p s content cmp)
    (hmapped : Mapped ok c ⟨base, cmp.code (op = .notEq)⟩) (hbase : 256 ≤ base)
    (hroom : base + 256 < 2 ^ 64) :
    match cmp with
    | .literal _ lit =>
        ((bytesOf lit.toList).length ≤ 126 →
          (Leads ⟨base, cmp.code (op = .notEq)⟩ ok (base, c)
              (Answers ⟨base, cmp.code (op = .notEq)⟩ r) ↔
            s = lit ∨ Differs ok c.mem p (bytesOf lit.toList ++ [0]))) ∧
        (127 ≤ (bytesOf lit.toList).length → (bytesOf lit.toList).length ≤ 245 →
          Leads ⟨base, cmp.code (op = .notEq)⟩ ok (base, c) fun t => t.1 < base)
    | .read _ _ _ =>
        Leads ⟨base, cmp.code (op = .notEq)⟩ ok (base, c)
          (Answers ⟨base, cmp.code (op = .notEq)⟩ r) := by
  have hvalue := applyBinary_textComparison hcmp hop hr
  cases hloaded with
  | literal hfield htext hproom =>
      rename_i field lit
      refine ⟨fun hlit => ?_, fun hlow hhigh => leads_long hlow hhigh hfield hbase (by omega)⟩
      have hequal : s = lit → compareBytes ok c.mem p (bytesOf lit.toList ++ [0]) = some true := by
        rintro rfl
        refine compareBytes_eq_true.mpr ⟨htext.bytes, fun i hi => htext.access i ?_⟩
        simp only [List.length_append, List.length_cons, List.length_nil] at hi
        omega
      have hstep : ∀ t : Nat × Cpu, t.1 = Image.stop ⟨base, (Comparison.literal field lit).code
          (decide (op = .notEq))⟩ → Image.step ⟨base, (Comparison.literal field lit).code
            (decide (op = .notEq))⟩ ok t = none := fun t ht =>
        Image.step_outside (.inr ht.ge)
      obtain ⟨t, hst, ht⟩ := leads_literal hlit hfield hmapped hproom
      constructor
      · rintro ⟨u, hsu, hu⟩
        rcases hc : compareBytes ok c.mem p (bytesOf lit.toList ++ [0]) with _ | r'
        · rw [hc] at ht
          obtain rfl := Steps.unique hst ht.2 hsu (hstep u hu.1)
          exact absurd hu.1 ht.1.ne
        · rw [hc] at ht
          obtain rfl := Steps.unique hst (hstep t ht.1) hsu (hstep u hu.1)
          cases r' with
          | true =>
              left
              have hrax := ht.2.symm.trans hu.2
              rw [hvalue] at hrax
              by_contra hne
              rw [show (Comparison.literal field lit).other content = lit from rfl,
                decide_eq_false hne] at hrax
              revert hrax
              cases decide (op = .notEq) <;> decide
          | false => exact .inr (compareBytes_eq_false.mp hc)
      · intro h
        have hc : compareBytes ok c.mem p (bytesOf lit.toList ++ [0]) =
            some (decide (s = lit)) := by
          by_cases heq : s = lit
          · rw [hequal heq, decide_eq_true heq]
          · rw [decide_eq_false heq]
            exact compareBytes_eq_false.mpr (h.resolve_left heq)
        rw [hc] at ht
        rw [hvalue]
        exact ⟨t, hst, ht⟩
  | read hfield htext hpointer hlength hbytes hok hqroom =>
      have h := leads_read (decide (op = .notEq)) hfield hpointer hlength htext hbytes hok hqroom
        (show base + 128 < 2 ^ 64 by omega)
      have hsame : decide (bytesOf s.toList = bytesOf content.toList) = decide (s = content) :=
        decide_eq_decide.mpr bytesOf_inj
      rw [hsame] at h
      rw [hvalue]
      exact h

/-- Code at address 2^22, and a frame at 4096 whose first slot points to the text `x` at address
16. -/
def exampleCpu (code : List UInt8) : Cpu where
  regs r := if r = .rbp then 4096 else 0
  mem x := if x < 4194304 then if x = 4088 then 16 else if x = 16 then 0x78 else 0
    else code.getD (x - 4194304) 0
  flags := ⟨false, false, false, false⟩
  down := false

lemma exampleCpu_mapped {code : List UInt8} (h : code.length < 2 ^ 32) :
    Mapped (fun _ => true) (exampleCpu code) ⟨4194304, code⟩ := by
  refine ⟨fun i hi => ?_, fun _ _ => rfl, ?_⟩
  · have hge : ¬ 4194304 + i < 4194304 := by omega
    show (if 4194304 + i < 4194304 then _ else _) = _
    rw [if_neg hge, Nat.add_sub_cancel_left]
    exact (List.getElem_eq_getD 0).symm
  · show 4194304 + code.length < 2 ^ 64
    omega

lemma exampleCpu_slot (code : List UInt8) : Slot (fun _ => true) (exampleCpu code) (-8) 16 := by
  have haddress : displaced ((exampleCpu code).get 64 .rbp) (-8) = 4088 := by
    rw [show (exampleCpu code).get 64 .rbp = 4096 from rfl]
    decide +kernel
  refine ⟨by decide, by simp [accessible], ?_, by decide⟩
  rw [haddress]
  simp [loadBytes, exampleCpu]

lemma exampleCpu_text (code : List UInt8) : Text (fun _ => true) (exampleCpu code) 16 [0x78] := by
  refine ⟨?_, fun _ _ => rfl, by decide, by decide⟩
  exact holds_cons.mpr ⟨rfl, holds_cons.mpr ⟨rfl, holds_nil _ _⟩⟩

lemma exampleCpu_loaded (code : List UInt8) (lit : String) :
    Loaded (fun _ => true) (exampleCpu code) 16 "x" "" (.literal (-8) lit) :=
  .literal (exampleCpu_slot code) (exampleCpu_text code) (by decide)

/-- The text `x` is equal to the literal `x`. -/
theorem textEquality_exact_same :
    Leads ⟨4194304, (Comparison.literal (-8) "x").code false⟩ (fun _ => true)
      (4194304, exampleCpu ((Comparison.literal (-8) "x").code false))
      (Answers ⟨4194304, (Comparison.literal (-8) "x").code false⟩ true) := by
  have hcmp : textComparison "i" (fun _ => some (-8)) (fun _ => none) (.field (.ident "i") "f")
      (.text "x") = .ok (some (.literal (-8) "x")) := by simp [textComparison, inputField]
  have hr : applyBinary .eq (operandValue "x" "" (.field (.ident "i") "f"))
      (operandValue "x" "" (.text "x")) = .ok (.bool true) := by simp [applyBinary, operandValue]
  have h := textEquality_exact hcmp (.inl rfl) hr (exampleCpu_loaded _ "x")
    (exampleCpu_mapped (by decide)) (by decide) (by decide)
  exact (h.1 (by decide +kernel)).mpr (.inl rfl)

/-- A number of sevens. -/
def sevens (n : Nat) : String := String.ofList (List.replicate n '7')

lemma bytesOf_sevens (n : Nat) : bytesOf (sevens n).toList = List.replicate n 0x37 := by
  rw [sevens, String.toList_ofList]
  induction n with
  | zero => rfl
  | succ n ih =>
      rw [List.replicate_succ, bytesOf_cons, ih, List.replicate_succ]
      rfl

/-- Where the distance of the jump over a literal is zero, and its first byte is no instruction, the
code stops inside of the literal. -/
lemma leads_stuck (rest : List UInt8) (hslot : Slot ok c (-8) 16) (hstop : base + 6 < 2 ^ 64) :
    Leads ⟨base, [0x48, 0x8B, 0x75, 0xF8, 0xEB, 0, 0x37] ++ rest⟩ ok (base, c) fun t =>
      t.1 = base + 6 ∧
        Image.step ⟨base, [0x48, 0x8B, 0x75, 0xF8, 0xEB, 0, 0x37] ++ rest⟩ ok t = none := by
  show Leads ⟨base, loadSlot 0x75 0xB5 (-8) ++ ([0xEB, 0, 0x37] ++ rest)⟩ ok (base, c) _
  refine leads_load .rsi (fun _ _ => rfl) (fun _ _ _ _ _ => rfl) hslot ?_
  refine .jmp (P := ⟨base + 4, [0xEB, 0, 0x37] ++ rest⟩) (k := 0) (n := 2) (d := 0) (base + 6) rfl
    ?_ (.here ⟨rfl, ?_⟩)
  · show displaced (base + 6) 0 = base + 6
    rw [displaced]
    omega
  · rw [Image.step]
    show Option.bind (Image.fetch ⟨base, _⟩ (base + 6)) _ = none
    have hdecode : decode (0x37 :: rest) = none := by
      cases rest <;> rfl
    rw [Image.fetch_at ⟨base, _⟩ 6]
    exact congrArg (Option.bind · _) hdecode

/-- A literal of 255 bytes: the distance of the jump over it and its terminator is zero, and its
first byte is no instruction. -/
theorem literal_entered :
    textComparison "i" (fun _ => some (-8)) (fun _ => none) (.field (.ident "i") "f")
        (.text (sevens 255)) = .ok (some (.literal (-8) (sevens 255))) ∧
      applyBinary .eq (.text "x") (.text (sevens 255)) = .ok (.bool false) ∧
      Loaded (fun _ => true) (exampleCpu ((Comparison.literal (-8) (sevens 255)).code false)) 16 "x"
        "" (.literal (-8) (sevens 255)) ∧
      Mapped (fun _ => true) (exampleCpu ((Comparison.literal (-8) (sevens 255)).code false))
        ⟨4194304, (Comparison.literal (-8) (sevens 255)).code false⟩ ∧
      ¬ Leads ⟨4194304, (Comparison.literal (-8) (sevens 255)).code false⟩ (fun _ => true)
        (4194304, exampleCpu ((Comparison.literal (-8) (sevens 255)).code false)) fun t =>
          t.1 = Image.stop ⟨4194304, (Comparison.literal (-8) (sevens 255)).code false⟩ := by
  have hbytes := bytesOf_sevens 255
  have hne : "x" ≠ sevens 255 := by
    intro h
    have := congrArg (fun s => (bytesOf (String.toList s)).length) h
    simp only [hbytes, List.length_replicate] at this
    revert this
    decide +kernel
  generalize sevens 255 = lit at hbytes hne ⊢
  generalize hcode : (Comparison.literal (-8) lit).code false = code
  obtain ⟨rest, hrest⟩ : ∃ rest, code = [0x48, 0x8B, 0x75, 0xF8, 0xEB, 0, 0x37] ++ rest := by
    refine ⟨List.replicate 254 0x37 ++ ([0] ++ compareLiteral 256 false), ?_⟩
    rw [← hcode, Comparison.code, literalEquality, hbytes, List.length_replicate,
      List.replicate_succ]
    have hload : loadSlot 0x75 0xB5 (-8) = [0x48, 0x8B, 0x75, 0xF8] := by decide +kernel
    rw [hload, List.cons_append, List.append_assoc]
    rfl
  have hlength : code.length < 2 ^ 32 := by
    have hload : (loadSlot 0x75 0xB5 (-8)).length = 4 := by decide +kernel
    have hend : (compareLiteral 256 false).length = 24 := by decide +kernel
    rw [← hcode, Comparison.code, literalEquality, hbytes, List.length_replicate]
    simp only [List.length_append, List.length_replicate, hload, hend, List.length_cons,
      List.length_nil]
    omega
  have hstop : 4194304 + 6 < Image.stop ⟨4194304, code⟩ := by
    rw [Image.stop, hrest]
    simp only [List.length_append, List.length_cons, List.length_nil]
    omega
  refine ⟨by simp [textComparison, inputField], by simp [applyBinary, hne],
    exampleCpu_loaded code lit, exampleCpu_mapped hlength, ?_⟩
  rintro ⟨u, hsu, hu⟩
  obtain ⟨t, hst, hpc, hnone⟩ := leads_stuck rest (exampleCpu_slot code)
    (show 4194304 + 6 < 2 ^ 64 by decide)
  rw [← hrest] at hst hnone
  have hunone : Image.step ⟨4194304, code⟩ (fun _ => true) u = none :=
    Image.step_outside (.inr hu.ge)
  obtain rfl := Steps.unique hst hnone hsu hunone
  omega

end exactness

end Verbosec.Native.TextEquality
