import Mathlib.Data.Nat.Bitwise
import Verbosec.Lib.Bytes
import Verbosec.Native.JsonFill

/-!
# What the JSON escape loop of the native backend writes

* `lawByte`, `lawBytes` - two bytes for each of the five bytes that have an escape, and each other
  byte itself.
* `fill_round` - one byte of the source.
* `fillLoop_writes` - the loop writes the law of the source at the destination, and nothing else.
-/

namespace Verbosec.Native.JsonFill

open Lib Lib.X86 Lib.Bytes

/-! ## The law -/

/-- The documented escape of a byte. -/
def lawByte (b : UInt8) : List UInt8 :=
  if b = 0x22 then [0x5C, 0x22]
  else if b = 0x5C then [0x5C, 0x5C]
  else if b = 0x0A then [0x5C, 0x6E]
  else if b = 0x0D then [0x5C, 0x72]
  else if b = 0x09 then [0x5C, 0x74]
  else [b]

/-- The documented escape of bytes. -/
def lawBytes (bytes : List UInt8) : List UInt8 := bytes.flatMap lawByte

lemma lawBytes_cons (b : UInt8) (bs : List UInt8) :
    lawBytes (b :: bs) = lawByte b ++ lawBytes bs := List.flatMap_cons

lemma lawByte_length (b : UInt8) : (lawByte b).length = 1 ∨ (lawByte b).length = 2 := by
  unfold lawByte
  split_ifs <;> simp

/-! ## One byte -/

section round

variable {ok : Nat → Bool} {g : Regs} {m : Nat → UInt8} {zero less : Bool}
  {P : Nat × Core → Prop}

/-- The registers before a round with `rcx` bytes left. -/
structure Ready (g : Regs) (a n q : Nat) : Prop where
  source : g.rsi = a
  left : g.rcx = n
  destination : g.rbx = q

/-- The step to the next byte. -/
lemma advance {a n q : Nat} (hg : Ready g a (n + 1) q) (ha : a + 1 < 2 ^ 64) (hn : n + 1 < 2 ^ 64)
    (k : ∀ g' zero less, Ready g' (a + 1) n q → Leads ok fillLoop (0, ⟨g', m, zero, less⟩) P) :
    Leads ok fillLoop (87, ⟨g, m, zero, less⟩) P := by
  obtain ⟨rfl, hleft, rfl⟩ := hg
  have hsource := word_inc ha
  have hcount : ((signed g.rcx - 1) % 2 ^ 64).toNat = n := by
    rw [hleft]
    exact word_dec (Nat.succ_pos n) hn
  refine Leads.ops [.inc .rsi, .dec .rcx] (by rfl) (by rfl) (by rfl) ?_
  exact Leads.jmp8 (by rfl) (by rfl) (k _ _ _ ⟨hsource, hcount, rfl⟩)

/-- An escape is written, and the code goes on behind it. -/
lemma escape_runs {a n q pc pc' : Nat} {x : UInt8} {rest : List Instr} (hg : Ready g a n q)
    (hcode : codeAt fillLoop pc = some (ops (JsonFill.writeEscape x) ++ rest))
    (hpc : pc + size (ops (JsonFill.writeEscape x)) = pc') (hq : q + 2 < 2 ^ 64)
    (hok : ok q = true ∧ ok (q + 1) = true)
    (k : ∀ g' zero less, Ready g' a n (q + 2) →
      Leads ok fillLoop (pc', ⟨g', writeAll m q [0x5C, x], zero, less⟩) P) :
    Leads ok fillLoop (pc, ⟨g, m, zero, less⟩) P := by
  obtain ⟨rfl, rfl, rfl⟩ := hg
  have hboth : accessible ok g.rbx 2 = true := by simp [accessible, List.range_succ, hok]
  have htwo : ((signed g.rbx + reading 8 (2 : UInt8).toNat) % 2 ^ 64).toNat = g.rbx + 2 :=
    word_add hq
  have hstore : Op.exec ok (.store16Imm .rbx 0x5C x) ⟨g, m, zero, less⟩ =
      some ⟨g, writeAll m g.rbx [0x5C, x], zero, less⟩ := if_pos hboth
  have hexec : execAll ok (JsonFill.writeEscape x) ⟨g, m, zero, less⟩ =
      some ((⟨g, writeAll m g.rbx [0x5C, x], zero, less⟩ : Core).result .rbx
        (signed g.rbx + reading 8 (2 : UInt8).toNat)) := by
    rw [JsonFill.writeEscape, execAll, hstore]
    rfl
  exact Leads.ops _ hcode hexec hpc (k _ _ _ ⟨rfl, rfl, htwo⟩)

/-- The byte itself is written. -/
lemma plain_runs {a n q : Nat} {x : UInt8} (hg : Ready g a n q) (hrax : lowByte g.rax = x)
    (hq : q + 1 < 2 ^ 64) (hok : ok q = true)
    (k : ∀ g' zero less, Ready g' a n (q + 1) →
      Leads ok fillLoop (87, ⟨g', writeAll m q [x], zero, less⟩) P) :
    Leads ok fillLoop (27, ⟨g, m, zero, less⟩) P := by
  obtain ⟨rfl, rfl, rfl⟩ := hg
  have hone : accessible ok g.rbx 1 = true := by rw [accessible_one, hok]
  have hstore : Op.exec ok (.store8 .rbx .rax) ⟨g, m, zero, less⟩ =
      some ⟨g, writeAll m g.rbx [x], zero, less⟩ := by
    rw [← hrax]
    exact if_pos hone
  have hexec : execAll ok [.store8 .rbx .rax, .inc .rbx] ⟨g, m, zero, less⟩ =
      some ((⟨g, writeAll m g.rbx [x], zero, less⟩ : Core).result .rbx (signed g.rbx + 1)) := by
    rw [execAll, hstore]
    rfl
  exact Leads.ops _ (by rfl) hexec (by rfl)
    (Leads.jmp8 (by rfl) (by rfl) (k _ _ _ ⟨rfl, rfl, word_inc hq⟩))

/-- One comparison of the chain. -/
lemma compare_runs {pc pc' : Nat} {x y : UInt8} {d : Int} {rest : List Instr}
    (hcode : codeAt fillLoop pc = some (ops [.cmpReg8 .rax y] ++ .jcc8 .z d :: rest))
    (hsize : pc + size (ops [.cmpReg8 .rax y]) = pc + 2) (hpc : ((pc + 2 + 2 : Nat) + d).toNat = pc')
    (hrax : lowByte g.rax = x)
    (hyes : x = y → ∀ zero less, Leads ok fillLoop (pc', ⟨g, m, zero, less⟩) P)
    (hno : x ≠ y → ∀ zero less, Leads ok fillLoop (pc + 4, ⟨g, m, zero, less⟩) P) :
    Leads ok fillLoop (pc, ⟨g, m, zero, less⟩) P := by
  have hnext : codeAt fillLoop (pc + 2) = some (.jcc8 .z d :: rest) := by
    have := codeAt_next hcode
    exact hsize ▸ this
  refine Leads.ops _ hcode (by rfl) hsize (Leads.jcc8 hnext hpc (fun h => ?_) (fun h => ?_))
  · refine hyes ?_ _ _
    have := of_decide_eq_true h
    rw [← hrax]
    exact UInt8.toNat_inj.mp this
  · refine hno ?_ _ _
    have := of_decide_eq_false h
    rw [← hrax]
    exact fun heq => this (congrArg UInt8.toNat heq)

/-- An escape is written, and the next byte is looked at. -/
lemma escape_advances {a n q pc pc' : Nat} {x : UInt8} {d : Int} {rest : List Instr}
    (hg : Ready g a (n + 1) q)
    (hcode : codeAt fillLoop pc = some (ops (JsonFill.writeEscape x) ++ .jmp8 d :: rest))
    (hpc : pc + size (ops (JsonFill.writeEscape x)) = pc') (hjump : ((pc' + 2 : Nat) + d).toNat = 87)
    (ha : a + 1 < 2 ^ 64) (hn : n + 1 < 2 ^ 64) (hq : q + 2 < 2 ^ 64)
    (hok : ok q = true ∧ ok (q + 1) = true)
    (k : ∀ g' zero less, Ready g' (a + 1) n (q + 2) →
      Leads ok fillLoop (0, ⟨g', writeAll m q [0x5C, x], zero, less⟩) P) :
    Leads ok fillLoop (pc, ⟨g, m, zero, less⟩) P := by
  refine escape_runs hg hcode hpc hq hok fun g' zero less hg' => ?_
  have hjmp : codeAt fillLoop pc' = some (.jmp8 d :: rest) := by
    rw [← hpc]
    exact codeAt_ops hcode
  exact Leads.jmp8 hjmp hjump (advance hg' ha hn fun g'' _ _ hg'' => k g'' _ _ hg'')

/-- One byte of the source is read, and its escape is written. -/
lemma fill_round {a n q : Nat} {b : UInt8} (hg : Ready g a (n + 1) q) (hb : m a = b)
    (ha : a + 1 < 2 ^ 64) (hn : n + 1 < 2 ^ 64) (hq : q + (lawByte b).length < 2 ^ 64)
    (hread : ok a = true) (hwrite : ∀ i < (lawByte b).length, ok (q + i) = true)
    (k : ∀ g' zero less, Ready g' (a + 1) n (q + (lawByte b).length) →
      Leads ok fillLoop (0, ⟨g', writeAll m q (lawByte b), zero, less⟩) P) :
    Leads ok fillLoop (0, ⟨g, m, zero, less⟩) P := by
  refine Leads.ops [.test .rcx] (by rfl) (by rfl) (by rfl) (Leads.jcc8 (by rfl) (by rfl)
    (fun h => ?_) fun _ => ?_)
  · have hzero : g.rcx = 0 := of_decide_eq_true h
    exact absurd (hg.left.symm.trans hzero) (Nat.succ_ne_zero n)
  have hsource : ok (g.get .rsi) = true := by
    rw [← hread, ← hg.source]
    rfl
  refine Leads.ops [.load8 .rax .rsi] (by rfl) (execAll_one (exec_load8 hsource)) (by rfl) ?_
  have hg' : Ready (g.set .rax (withLowByte g.rax (m (g.get .rsi)))) a (n + 1) q :=
    ⟨hg.source, hg.left, hg.destination⟩
  have hrax : lowByte (g.set .rax (withLowByte g.rax (m (g.get .rsi)))).rax = b := by
    rw [← hb, ← hg.source]
    exact lowByte_withLowByte _ _
  change Leads ok fillLoop (7, ⟨g.set .rax (withLowByte g.rax (m (g.get .rsi))), m, _, _⟩) P
  generalize g.set .rax (withLowByte g.rax (m (g.get .rsi))) = g' at hg' hrax ⊢
  -- the chain of comparisons, each with its escape
  refine compare_runs (by rfl) (by rfl) (by rfl) hrax (fun h _ _ => ?_) fun h₁ _ _ => ?_
  · have hlaw : lawByte b = [0x5C, 0x22] := by rw [lawByte, if_pos h]
    rw [hlaw] at hq hwrite k
    exact escape_advances hg' (by rfl) (by rfl) (by rfl) ha hn hq
      ⟨hwrite 0 (by decide), hwrite 1 (by decide)⟩ k
  refine compare_runs (by rfl) (by rfl) (by rfl) hrax (fun h _ _ => ?_) fun h₂ _ _ => ?_
  · have hlaw : lawByte b = [0x5C, 0x5C] := by rw [lawByte, if_neg h₁, if_pos h]
    rw [hlaw] at hq hwrite k
    exact escape_advances hg' (by rfl) (by rfl) (by rfl) ha hn hq
      ⟨hwrite 0 (by decide), hwrite 1 (by decide)⟩ k
  refine compare_runs (by rfl) (by rfl) (by rfl) hrax (fun h _ _ => ?_) fun h₃ _ _ => ?_
  · have hlaw : lawByte b = [0x5C, 0x6E] := by rw [lawByte, if_neg h₁, if_neg h₂, if_pos h]
    rw [hlaw] at hq hwrite k
    exact escape_advances hg' (by rfl) (by rfl) (by rfl) ha hn hq
      ⟨hwrite 0 (by decide), hwrite 1 (by decide)⟩ k
  refine compare_runs (by rfl) (by rfl) (by rfl) hrax (fun h _ _ => ?_) fun h₄ _ _ => ?_
  · have hlaw : lawByte b = [0x5C, 0x72] := by rw [lawByte, if_neg h₁, if_neg h₂, if_neg h₃, if_pos h]
    rw [hlaw] at hq hwrite k
    exact escape_advances hg' (by rfl) (by rfl) (by rfl) ha hn hq
      ⟨hwrite 0 (by decide), hwrite 1 (by decide)⟩ k
  refine compare_runs (by rfl) (by rfl) (by rfl) hrax (fun h _ _ => ?_) fun h₅ _ _ => ?_
  · have hlaw : lawByte b = [0x5C, 0x74] := by
      rw [lawByte, if_neg h₁, if_neg h₂, if_neg h₃, if_neg h₄, if_pos h]
    rw [hlaw] at hq hwrite k
    exact escape_runs hg' (by rfl) (by rfl) hq ⟨hwrite 0 (by decide), hwrite 1 (by decide)⟩
      fun g'' _ _ hg'' => advance hg'' ha hn k
  have hlaw : lawByte b = [b] := by
    rw [lawByte, if_neg h₁, if_neg h₂, if_neg h₃, if_neg h₄, if_neg h₅]
  rw [hlaw] at hq hwrite k
  exact plain_runs hg' hrax hq (hwrite 0 Nat.one_pos) fun g'' _ _ hg'' => advance hg'' ha hn k

end round

/-! ## The loop -/

/-- The loop writes the law of the source at the destination, and stops behind both. -/
theorem fillLoop_writes {ok : Nat → Bool} {bytes : List UInt8} {g : Regs} {m : Nat → UInt8}
    {zero less : Bool} {a q : Nat} (hg : Ready g a bytes.length q) (hholds : Holds m a bytes)
    (hsource : a + bytes.length < 2 ^ 64) (hdestination : q + (lawBytes bytes).length < 2 ^ 64)
    (hsep : Separate a bytes.length q (lawBytes bytes).length)
    (hread : ∀ i < bytes.length, ok (a + i) = true)
    (hwrite : ∀ i < (lawBytes bytes).length, ok (q + i) = true) :
    Leads ok fillLoop (0, ⟨g, m, zero, less⟩) fun t =>
      t.1 = 95 ∧ t.2.memory = writeAll m q (lawBytes bytes) ∧
        Ready t.2.regs (a + bytes.length) 0 (q + (lawBytes bytes).length) := by
  induction bytes generalizing g m zero less a q with
  | nil =>
      have hzero : g.rcx = 0 := hg.left
      refine Leads.ops [.test .rcx] (by rfl) (by rfl) (by rfl) (Leads.jcc8 (by rfl) (by rfl)
        (fun _ => Leads.here ⟨rfl, rfl, hg⟩) fun h => ?_)
      exact absurd hzero (of_decide_eq_false h)
  | cons b bs ih =>
      obtain ⟨hb, hbs⟩ := holds_cons.mp hholds
      rw [lawBytes_cons, List.length_append, List.length_cons] at *
      have hrest : Holds (writeAll m q (lawByte b)) (a + 1) bs := by
        refine hbs.congr fun x hx hx' => sameOutside_writeAll _ _ _ x ?_
        rcases hsep with h | h <;> omega
      refine fill_round hg hb (by omega) (by omega) (by omega) (hread 0 (Nat.succ_pos _))
        (fun i hi => hwrite i (by omega)) fun g' _ _ hg' => ?_
      refine (ih hg' hrest (by omega) (by omega) ?_ (fun i hi => ?_) fun i hi => ?_).mono ?_
      · rcases hsep with h | h
        · exact .inl (by omega)
        · exact .inr (by omega)
      · rw [show a + 1 + i = a + (i + 1) by omega]
        exact hread (i + 1) (by omega)
      · rw [Nat.add_assoc]
        exact hwrite _ (by omega)
      · rintro t ⟨hend, hmemory, hready⟩
        rw [writeAll_append, Nat.add_comm bs.length 1, ← Nat.add_assoc, ← Nat.add_assoc]
        exact ⟨hend, hmemory, hready⟩

end Verbosec.Native.JsonFill
