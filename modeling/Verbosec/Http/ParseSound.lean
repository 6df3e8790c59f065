import Verbosec.Http.Parse

/-!
# What the request parser accepts

* `scanMethod_runs`, `scanPath_runs`, `guard_runs` - the scans for a delimiter and the checks of the
  lengths.
* `scanBody_runs` - the scan for the empty line.
-/

namespace Verbosec.Http.Parse

open Lib Lib.X86 Lib.Bytes

/-! ## Splitting -/

lemma splitFirst_append {p : UInt8 → Bool} {bytes pre tail : List UInt8}
    (h : splitFirst p bytes = some (pre, tail)) : bytes = pre ++ tail := by
  induction bytes generalizing pre with
  | nil => cases h
  | cons b bs ih =>
      rw [splitFirst] at h
      split at h
      · cases h
        rfl
      · cases hbs : splitFirst p bs with
        | none =>
            rw [hbs] at h
            cases h
        | some x =>
            rw [hbs] at h
            cases h
            rw [List.cons_append, ← ih hbs]

/-- The bytes from the delimiter on. -/
lemma splitFirst_tail {p : UInt8 → Bool} {bytes pre tail : List UInt8}
    (h : splitFirst p bytes = some (pre, tail)) : ∃ b bs, tail = b :: bs ∧ p b = true := by
  induction bytes generalizing pre with
  | nil => cases h
  | cons b bs ih =>
      rw [splitFirst] at h
      split at h
      · rename_i hb
        cases h
        exact ⟨b, bs, rfl, hb⟩
      · cases hbs : splitFirst p bs with
        | none =>
            rw [hbs] at h
            cases h
        | some x =>
            rw [hbs] at h
            cases h
            exact ih hbs

/-! ## Scans -/

section scans

variable {f : Frame} {ok : Nat → Bool} {g : Regs} {m : Nat → UInt8} {zero less : Bool}
  {B x : Nat} {P : Nat × Core → Prop}

/-- The registers of the scans: the frame, the cursor, and the number of bytes from it on. -/
structure At (g : Regs) (B x k : Nat) : Prop where
  frame : g.rbp = B
  cursor : g.rbx = x
  left : g.rax = k

/-- The registers one byte further. -/
def passed (g : Regs) : Regs :=
  { g with rbx := ((signed g.rbx + 1) % 2 ^ 64).toNat, rax := ((signed g.rax - 1) % 2 ^ 64).toNat }

lemma At.passed {k : Nat} (hg : At g B x (k + 1)) (hx : x + 1 < 2 ^ 64) (hk : k + 1 < 2 ^ 64) :
    At (passed g) B (x + 1) k := by
  obtain ⟨rfl, rfl, hleft⟩ := hg
  refine ⟨rfl, word_inc hx, ?_⟩
  change ((signed g.rax - 1) % 2 ^ 64).toNat = k
  rw [hleft]
  exact word_dec (Nat.succ_pos k) hk

/-- A jump of the code to the close label. -/
lemma toNat_fail (n fail : Nat) : ((n : Int) + (fail - n)).toNat = fail := by omega

/-- The scan for the space behind the method. -/
lemma scanMethod_runs {rest : List UInt8} (hg : At g B x rest.length)
    (hx : x + rest.length < 2 ^ 63) (hholds : Holds m x rest)
    (hok : ∀ i < rest.length, ok (x + i) = true)
    (kfail : splitFirst isSpace rest = none → ∀ c, P (f.fail, c))
    (k : ∀ pre tail, splitFirst isSpace rest = some (pre, tail) → ∀ g' zero less,
      At g' B (x + pre.length) tail.length → Leads ok f.code (33, ⟨g', m, zero, less⟩) P) :
    Leads ok f.code (11, ⟨g, m, zero, less⟩) P := by
  induction rest generalizing x g zero less with
  | nil =>
      refine Leads.ops [.test .rax] (by rfl) (by rfl) (by rfl) (Leads.jcc32 (by rfl)
        (toNat_fail _ _) (fun _ => Leads.here (kfail rfl _)) fun h => ?_)
      exact absurd hg.left (of_decide_eq_false h)
  | cons b bs ih =>
      obtain ⟨hb, hbs⟩ := holds_cons.mp hholds
      rw [List.length_cons] at hg hx hok
      refine Leads.ops [.test .rax] (by rfl) (by rfl) (by rfl) (Leads.jcc32 (by rfl)
        (toNat_fail _ _) (fun h => ?_) fun _ => ?_)
      · have hzero : g.rax = 0 := of_decide_eq_true h
        exact absurd (hg.left.symm.trans hzero) (Nat.succ_ne_zero _)
      have hread : ok (g.get .rbx) = true := by
        have := hok 0 (Nat.succ_pos _)
        rwa [Nat.add_zero, ← hg.cursor] at this
      have hbyte : m (g.get .rbx) = b := by
        rw [← hb, ← hg.cursor]
        rfl
      refine Leads.ops [.cmpMem8 .rbx 0x20] (by rfl) (execAll_one (exec_cmpMem8 hread)) (by rfl)
        (Leads.jcc8 (by rfl) (by rfl) (fun h => ?_) fun h => ?_)
      · have hspace : isSpace b = true :=
          decide_eq_true (UInt8.toNat_inj.mp (hbyte ▸ of_decide_eq_true h))
        refine k [] (b :: bs) (by rw [splitFirst, if_pos hspace]) _ _ _ ?_
        exact ⟨hg.frame, hg.cursor, hg.left⟩
      · have hother : isSpace b = false :=
          decide_eq_false fun hb' => of_decide_eq_false h (congrArg UInt8.toNat (hbyte.trans hb'))
        have hsplit : splitFirst isSpace (b :: bs) =
            (splitFirst isSpace bs).map fun x => (b :: x.1, x.2) := by
          rw [splitFirst, if_neg (by rw [hother]; exact Bool.false_ne_true)]
        refine Leads.ops [.inc .rbx, .dec .rax] (by rfl) (by rfl) (by rfl)
          (Leads.jmp8 (by rfl) (by rfl) ?_)
        refine ih (hg.passed (by omega) (by omega)) (by omega) hbs (fun i hi => ?_)
          (fun hnone => kfail (by rw [hsplit, hnone]; rfl)) fun pre tail hsome g' _ _ hg' => ?_
        · rw [Nat.add_assoc, Nat.add_comm 1 i]
          exact hok (i + 1) (by omega)
        · refine k (b :: pre) tail (by rw [hsplit, hsome]; rfl) g' _ _ ?_
          rw [List.length_cons, Nat.add_comm pre.length 1, ← Nat.add_assoc]
          exact hg'

/-- A comparison of the scan for the delimiter. -/
lemma compare_r8 {y b : UInt8} (hb : lowByte g.r8 = b)
    (h : Cond.holds ((⟨g, m, zero, less⟩ : Core).compare 8 (lowByte (g.get .r8)).toNat y.toNat) .z =
      true) : b = y := by
  rw [← hb]
  exact UInt8.toNat_inj.mp (of_decide_eq_true h)

lemma compare_r8_not {y b : UInt8} (hb : lowByte g.r8 = b)
    (h : Cond.holds ((⟨g, m, zero, less⟩ : Core).compare 8 (lowByte (g.get .r8)).toNat y.toNat) .z =
      false) : b ≠ y := by
  rw [← hb]
  exact fun heq => of_decide_eq_false h (congrArg UInt8.toNat heq)

lemma isDelimiter_iff {b : UInt8} : isDelimiter b = true ↔ b = 0x20 ∨ b = 0x0D ∨ b = 0x0A := by
  simp [isDelimiter, or_assoc]

/-- The scan for the delimiter behind the path. -/
lemma scanPath_runs {rest : List UInt8} (hg : At g B x rest.length)
    (hx : x + rest.length < 2 ^ 63) (hholds : Holds m x rest)
    (hok : ∀ i < rest.length, ok (x + i) = true)
    (kfail : splitFirst isDelimiter rest = none → ∀ c, P (f.fail, c))
    (k : ∀ pre tail, splitFirst isDelimiter rest = some (pre, tail) → ∀ g' zero less,
      At g' B (x + pre.length) tail.length → Leads ok f.code (104, ⟨g', m, zero, less⟩) P) :
    Leads ok f.code (66, ⟨g, m, zero, less⟩) P := by
  induction rest generalizing x g zero less with
  | nil =>
      refine Leads.ops [.test .rax] (by rfl) (by rfl) (by rfl) (Leads.jcc32 (by rfl)
        (toNat_fail _ _) (fun _ => Leads.here (kfail rfl _)) fun h => ?_)
      exact absurd hg.left (of_decide_eq_false h)
  | cons b bs ih =>
      obtain ⟨hb, hbs⟩ := holds_cons.mp hholds
      rw [List.length_cons] at hg hx hok
      refine Leads.ops [.test .rax] (by rfl) (by rfl) (by rfl) (Leads.jcc32 (by rfl)
        (toNat_fail _ _) (fun h => ?_) fun _ => ?_)
      · have hzero : g.rax = 0 := of_decide_eq_true h
        exact absurd (hg.left.symm.trans hzero) (Nat.succ_ne_zero _)
      have hread : ok (g.get .rbx) = true := by
        have := hok 0 (Nat.succ_pos _)
        rwa [Nat.add_zero, ← hg.cursor] at this
      refine Leads.ops [.load8 .r8 .rbx] (by rfl) (execAll_one (exec_load8 hread)) (by rfl) ?_
      have hg' : At (g.set .r8 (withLowByte g.r8 (m (g.get .rbx)))) B x (bs.length + 1) :=
        ⟨hg.frame, hg.cursor, hg.left⟩
      have hbyte : lowByte (g.set .r8 (withLowByte g.r8 (m (g.get .rbx)))).r8 = b := by
        rw [← hb, ← hg.cursor]
        exact lowByte_withLowByte _ _
      change Leads ok f.code (78, ⟨g.set .r8 (withLowByte g.r8 (m (g.get .rbx))), m, _, _⟩) P
      generalize g.set .r8 (withLowByte g.r8 (m (g.get .rbx))) = g₁ at hg' hbyte ⊢
      have hfound : b = 0x20 ∨ b = 0x0D ∨ b = 0x0A → ∀ zero less,
          Leads ok f.code (104, ⟨g₁, m, zero, less⟩) P := fun hdel zero less =>
        k [] (b :: bs) (by rw [splitFirst, if_pos (isDelimiter_iff.mpr hdel)]) _ _ _ hg'
      refine Leads.ops [.cmpReg8 .r8 0x20] (by rfl) (by rfl) (by rfl) (Leads.jcc8 (by rfl) (by rfl)
        (fun h => hfound (.inl (compare_r8 hbyte h)) _ _) fun h₁ => ?_)
      refine Leads.ops [.cmpReg8 .r8 0x0D] (by rfl) (by rfl) (by rfl) (Leads.jcc8 (by rfl) (by rfl)
        (fun h => hfound (.inr (.inl (compare_r8 hbyte h))) _ _) fun h₂ => ?_)
      refine Leads.ops [.cmpReg8 .r8 0x0A] (by rfl) (by rfl) (by rfl) (Leads.jcc8 (by rfl) (by rfl)
        (fun h => hfound (.inr (.inr (compare_r8 hbyte h))) _ _) fun h₃ => ?_)
      have hspace : b ≠ 0x20 := compare_r8_not hbyte h₁
      have hreturn : b ≠ 0x0D := compare_r8_not hbyte h₂
      have hline : b ≠ 0x0A := compare_r8_not hbyte h₃
      have hother : isDelimiter b = false := by
        rw [← Bool.not_eq_true, isDelimiter_iff]
        simp [hspace, hreturn, hline]
      have hsplit : splitFirst isDelimiter (b :: bs) =
          (splitFirst isDelimiter bs).map fun x => (b :: x.1, x.2) := by
        rw [splitFirst, if_neg (by rw [hother]; exact Bool.false_ne_true)]
      refine Leads.ops [.inc .rbx, .dec .rax] (by rfl) (by rfl) (by rfl)
        (Leads.jmp8 (by rfl) (by rfl) ?_)
      refine ih (hg'.passed (by omega) (by omega)) (by omega) hbs (fun i hi => ?_)
        (fun hnone => kfail (by rw [hsplit, hnone]; rfl)) fun pre tail hsome g'' _ _ hg'' => ?_
      · rw [Nat.add_assoc, Nat.add_comm 1 i]
        exact hok (i + 1) (by omega)
      · refine k (b :: pre) tail (by rw [hsplit, hsome]; rfl) g'' _ _ ?_
        rw [List.length_cons, Nat.add_comm pre.length 1, ← Nat.add_assoc]
        exact hg''

/-- A number below `2 ^ 63` is its own signed reading. -/
lemma reading_of_lt {n : Nat} (h : n < 2 ^ 63) : reading 64 n = n := if_pos h

/-- The check of the length of a token that starts at the address in a slot. -/
lemma guard_runs (pc' start max d : Nat) {pc len k : Nat} {dist : Int} {rest : List Instr}
    (hcode : codeAt f.code pc = some (ops [.mov .r8 .rbx, .subMem .r8 .rbp (-d),
      .cmpImm32 .r8 max] ++ .jcc32 .g dist :: rest))
    (hpc : pc + size (ops [.mov .r8 .rbx, .subMem .r8 .rbp (-d), .cmpImm32 .r8 max]) = pc')
    (hfail : (((pc' + 6 : Nat) : Int) + dist).toNat = f.fail) (hg : At g B (start + len) k)
    (hd : d ≤ B) (hB : B < 2 ^ 63) (hx : start + len < 2 ^ 63) (hmax : max < 2 ^ 31)
    (hok : ∀ i < 8, ok (B - d + i) = true) (hslot : Holds m (B - d) (leBytes start 8))
    (kfail : max < len → ∀ c, P (f.fail, c))
    (k : len ≤ max → ∀ g' zero less, At g' B (start + len) k →
      Leads ok f.code (pc' + 6, ⟨g', m, zero, less⟩) P) :
    Leads ok f.code (pc, ⟨g, m, zero, less⟩) P := by
  have hnext : codeAt f.code pc' = some (.jcc32 .g dist :: rest) := by
    rw [← hpc]
    exact codeAt_ops hcode
  obtain ⟨hframe, hcursor, hleft⟩ := hg
  have haddress : displaced ((g.set .r8 (g.get .rbx)).get .rbp) (-d) = B - d := by
    have hbase : (g.set .r8 (g.get .rbx)).get .rbp = B := hframe
    rw [hbase]
    exact displaced_neg hd (by omega)
  have hlength : ((signed ((g.set .r8 (g.get .rbx)).get .r8) - signed start) % 2 ^ 64).toNat = len := by
    change ((signed g.rbx - signed start) % 2 ^ 64).toNat = len
    rw [hcursor, word_sub (by omega) (by omega), Nat.add_sub_cancel_left]
  have hbound : displaced 0 (max : Int) = max := by rw [displaced_nonneg (by omega), Nat.zero_add]
  have hexec : execAll ok [.mov .r8 .rbx, .subMem .r8 .rbp (-d), .cmpImm32 .r8 max]
      ⟨g, m, zero, less⟩ = some ⟨(g.set .r8 (g.get .rbx)).set .r8 len, m, decide (len = max),
        decide (reading 64 len < reading 64 max)⟩ := by
    have hsub := exec_subMem (r := .r8) (c := ⟨g.set .r8 (g.get .rbx), m, zero, less⟩) haddress hok
      (by omega) hslot
    rw [execAll, Op.exec]
    simp only [Option.bind_some]
    rw [execAll, hsub]
    simp only [Option.bind_some, execAll, Op.exec, Core.result, hlength, Core.compare, hbound]
    rfl
  refine Leads.ops _ hcode hexec hpc (Leads.jcc32 hnext hfail (fun h => ?_) fun h => ?_)
  · refine Leads.here (kfail ?_ _)
    simp only [Cond.holds, Bool.and_eq_true, Bool.not_eq_true', decide_eq_false_iff_not,
      reading_of_lt (show len < 2 ^ 63 by omega), reading_of_lt (show max < 2 ^ 63 by omega)] at h
    omega
  · refine k ?_ _ _ _ ⟨hframe, hcursor, hleft⟩
    simp only [Cond.holds, Bool.and_eq_false_iff, Bool.not_eq_false', decide_eq_true_eq,
      reading_of_lt (show len < 2 ^ 63 by omega), reading_of_lt (show max < 2 ^ 63 by omega)] at h
    omega

/-! ## The body -/

lemma bodyAfter_short {bytes : List UInt8} (h : bytes.length < 4) : bodyAfter bytes = none := by
  induction bytes with
  | nil => rfl
  | cons b bs ih =>
      rw [bodyAfter, if_neg, ih (by rw [List.length_cons] at h; omega)]
      intro hprefix
      have hlength : blankLine.length ≤ (b :: bs).length := hprefix.length_le
      exact absurd (Nat.lt_of_le_of_lt hlength h) (by decide)

lemma loadBytes_four {b₀ b₁ b₂ b₃ : UInt8} {bs : List UInt8}
    (h : Holds m x (b₀ :: b₁ :: b₂ :: b₃ :: bs)) : loadBytes m x 4 =
      b₀.toNat + 256 * (b₁.toNat + 256 * (b₂.toNat + 256 * b₃.toNat)) := by
  obtain ⟨h₀, h⟩ := holds_cons.mp h
  obtain ⟨h₁, h⟩ := holds_cons.mp h
  obtain ⟨h₂, h⟩ := holds_cons.mp h
  obtain ⟨h₃, -⟩ := holds_cons.mp h
  simp only [loadBytes, h₀, h₁, h₂, h₃, Nat.mul_zero, Nat.add_zero]

/-- The word that is compared stands for the empty line. -/
lemma blankLine_iff {b₀ b₁ b₂ b₃ : UInt8} {bs : List UInt8}
    (h : Holds m x (b₀ :: b₁ :: b₂ :: b₃ :: bs)) :
    loadBytes m x 4 = 0x0A0D0A0D ↔ blankLine <+: b₀ :: b₁ :: b₂ :: b₃ :: bs := by
  have hb₀ := b₀.toNat_lt
  have hb₁ := b₁.toNat_lt
  have hb₂ := b₂.toNat_lt
  have hb₃ := b₃.toNat_lt
  have hr : ∀ b : UInt8, b = 0x0D ↔ b.toNat = 13 := fun b => (UInt8.toNat_inj (b := 0x0D)).symm
  have hn : ∀ b : UInt8, b = 0x0A ↔ b.toNat = 10 := fun b => (UInt8.toNat_inj (b := 0x0A)).symm
  rw [loadBytes_four h, blankLine]
  simp only [List.cons_prefix_cons, List.nil_prefix, and_true, eq_comm (a := (0x0D : UInt8)),
    eq_comm (a := (0x0A : UInt8)), hr, hn]
  omega

/-- The parser of a service whose handler reads the body. -/
def bodyParser (f : Frame) : List Instr :=
  methodPathCode f.bufOffset f.fail ++ bodyCode f.bodyPtrSlot f.bodyLenSlot f.fail

/-- The check that four bytes are left. -/
lemma count_runs {n : Nat} (hg : At g B x n) (hn : n < 2 ^ 63)
    (kfail : n < 4 → ∀ c, P (f.fail, c))
    (k : 4 ≤ n → ∀ zero less, Leads ok (bodyParser f) (137, ⟨g, m, zero, less⟩) P) :
    Leads ok (bodyParser f) (127, ⟨g, m, zero, less⟩) P := by
  have hfour : reading 64 (displaced 0 (reading 8 (4 : UInt8).toNat)) = 4 := rfl
  have hleft : reading 64 (g.get .rax) = n := by
    have : g.get .rax = n := hg.left
    rw [this, reading_of_lt hn]
  refine Leads.ops [.cmpImm8 .rax 4] (by rfl) (by rfl) (by rfl) (Leads.jcc32 (by rfl)
    (toNat_fail _ _) (fun h => Leads.here (kfail ?_ _)) fun h => k ?_ _ _)
  · have hlt : reading 64 (g.get .rax) < reading 64 (displaced 0 (reading 8 (4 : UInt8).toNat)) :=
      of_decide_eq_true h
    rw [hleft, hfour] at hlt
    omega
  · have hge : ¬ reading 64 (g.get .rax) < reading 64 (displaced 0 (reading 8 (4 : UInt8).toNat)) :=
      of_decide_eq_false h
    rw [hleft, hfour] at hge
    omega

/-- The scan for the empty line. -/
lemma scanBody_runs {rest : List UInt8} (hg : At g B x rest.length)
    (hx : x + rest.length < 2 ^ 63) (hholds : Holds m x rest)
    (hok : ∀ i < rest.length, ok (x + i) = true)
    (kfail : bodyAfter rest = none → ∀ c, P (f.fail, c))
    (k : ∀ body y, bodyAfter rest = some body → x ≤ y → y + 4 + body.length = x + rest.length →
      ∀ g' zero less, At g' B y (body.length + 4) → Holds m (y + 4) body →
        Leads ok (bodyParser f) (153, ⟨g', m, zero, less⟩) P) :
    Leads ok (bodyParser f) (127, ⟨g, m, zero, less⟩) P := by
  induction rest generalizing x g zero less with
  | nil => exact count_runs hg (by decide) (fun _ => kfail rfl) fun h => absurd h (by decide)
  | cons b₀ bs ih =>
      refine count_runs hg (by omega) (fun h => kfail (bodyAfter_short h)) fun hlong _ _ => ?_
      obtain ⟨b₁, b₂, b₃, bs', rfl⟩ : ∃ b₁ b₂ b₃ bs', bs = b₁ :: b₂ :: b₃ :: bs' := by
        rcases bs with _ | ⟨b₁, _ | ⟨b₂, _ | ⟨b₃, bs'⟩⟩⟩
        · exact absurd hlong (by simp)
        · exact absurd hlong (by simp)
        · exact absurd hlong (by simp)
        · exact ⟨b₁, b₂, b₃, bs', rfl⟩
      have hcursor : g.get .rbx = x := hg.cursor
      have hread : accessible ok (g.get .rbx) 4 = true := by
        rw [hcursor]
        exact accessible_of fun i hi => hok i (Nat.lt_of_lt_of_le hi hlong)
      have hcompare : ∀ zero less, Op.exec ok (.cmpMem32 .rbx 0x0A0D0A0D) ⟨g, m, zero, less⟩ =
          some ((⟨g, m, zero, less⟩ : Core).compare 32 (loadBytes m (g.get .rbx) 4) 0x0A0D0A0D) :=
        fun _ _ => if_pos hread
      refine Leads.ops [.cmpMem32 .rbx 0x0A0D0A0D] (by rfl) (execAll_one (hcompare _ _)) (by rfl)
        (Leads.jcc8 (by rfl) (by rfl) (fun h => ?_) fun h => ?_)
      · have hword : loadBytes m x 4 = 0x0A0D0A0D := hcursor ▸ of_decide_eq_true h
        have hfound := (blankLine_iff hholds).mp hword
        have hbody : bodyAfter (b₀ :: b₁ :: b₂ :: b₃ :: bs') = some bs' := by
          rw [bodyAfter, if_pos hfound]
          rfl
        simp only [List.length_cons] at hx
        refine k bs' x hbody (Nat.le_refl x) (by simp only [List.length_cons]; omega) _ _ _
          ⟨hg.frame, hg.cursor, hg.left⟩ ?_
        have hparts : Holds m x ([b₀, b₁, b₂, b₃] ++ bs') := hholds
        exact (holds_append.mp hparts).2
      · have hword : ¬ loadBytes m x 4 = 0x0A0D0A0D := hcursor ▸ of_decide_eq_false h
        have hother := fun hp => hword ((blankLine_iff hholds).mpr hp)
        have hnext : bodyAfter (b₀ :: b₁ :: b₂ :: b₃ :: bs') = bodyAfter (b₁ :: b₂ :: b₃ :: bs') := by
          rw [bodyAfter, if_neg hother]
        rw [hnext] at kfail k
        rw [List.length_cons] at hg hx hok
        refine Leads.ops [.inc .rbx, .dec .rax] (by rfl) (by rfl) (by rfl)
          (Leads.jmp8 (by rfl) (by rfl) ?_)
        refine ih (hg.passed (by omega) (by omega)) (by omega) (holds_cons.mp hholds).2
          (fun i hi => ?_) kfail fun body y hsome hy hlen => k body y hsome (by omega) ?_
        · rw [Nat.add_assoc, Nat.add_comm 1 i]
          exact hok (i + 1) (by omega)
        · rw [hlen, List.length_cons (a := b₀)]
          omega

end scans

/-! ## The parser -/

/-- A word in a slot. -/
def Slot (m : Nat → UInt8) (a v : Nat) : Prop := Holds m a (leBytes v 8)

/-- The address of the buffer. -/
def buffer (f : Frame) (B : Nat) : Nat := B - (f.frameBase + f.maxRequest)

/-- The bytes that the scans may touch: the slots, and the first `n` bytes of the buffer. -/
def touchable (f : Frame) (B n x : Nat) : Bool :=
  decide (B - 16 ≤ x ∧ x < B) ||
    (f.usesBody && decide (B - (f.bodyPreOffset + 16) ≤ x ∧ x < B - f.bodyPreOffset)) ||
    decide (buffer f B ≤ x ∧ x < buffer f B + n)

/-- Where the parts of a request stand when the parser is done: bytes before a zero byte whose
addresses are in the slots, and the body with its length. -/
structure Delimited (f : Frame) (B : Nat) (m : Nat → UInt8) (req : Request) : Prop where
  method : Holds m (loadBytes m (B - 8) 8) (req.method ++ [0])
  path : Holds m (loadBytes m (B - 16) 8) (req.path ++ [0])
  body : ∀ body, req.body = some body →
    loadBytes m (B - (f.bodyPreOffset + 16)) 8 = body.length ∧
      Holds m (loadBytes m (B - (f.bodyPreOffset + 8)) 8) body

/-- The handler reads the parts of a request: a method and a path end at their first zero byte. -/
structure Placed (f : Frame) (B : Nat) (m : Nat → UInt8) (req : Request) : Prop
    extends Delimited f B m req where
  plain : 0 ∉ req.method ∧ 0 ∉ req.path

/-- The start of the parser after a read with the result `r`, which put `bytes` into the buffer. -/
structure Entry (f : Frame) (c : Core) (r : Int) (bytes : List UInt8) : Prop where
  wf : f.Wf
  room : f.frameBase + f.maxRequest ≤ c.regs.rbp
  frame : c.regs.rbp < 2 ^ 63
  result : c.regs.rax = (r % 2 ^ 64).toNat
  low : -2 ^ 63 ≤ r
  high : r ≤ f.maxRequest
  count : bytes.length = r.toNat
  received : Holds c.memory (buffer f c.regs.rbp) bytes

/-- The memory after the method is delimited. -/
def methodMemory (B buf n : Nat) (m : Nat → UInt8) : Nat → UInt8 :=
  writeAll (writeAll (writeAll m (B - 8) (leBytes buf 8)) (buf + n) [0]) (B - 16)
    (leBytes (buf + n + 1) 8)

section memory

variable {B buf : Nat} {m : Nat → UInt8} {method path rest : List UInt8} {s d : UInt8}

/-- The memory with a delimited method. -/
lemma methodMemory_holds (hbytes : Holds m buf (method ++ s :: rest))
    (hfit : buf + (method ++ s :: rest).length ≤ B - 16) (hB : 16 ≤ B) :
    Slot (methodMemory B buf method.length m) (B - 8) buf ∧
      Slot (methodMemory B buf method.length m) (B - 16) (buf + method.length + 1) ∧
      Holds (methodMemory B buf method.length m) buf (method ++ [0]) ∧
      Holds (methodMemory B buf method.length m) (buf + method.length + 1) rest := by
  obtain ⟨hmethod, hrest⟩ := holds_append.mp hbytes
  have hrest' := (holds_cons.mp hrest).2
  rw [List.length_append, List.length_cons] at hfit
  have hsep : ∀ {a k b : Nat}, a + k ≤ b → ∀ {xs : List UInt8}, Separate a k b xs.length :=
    fun h _ => .inl h
  refine ⟨?_, holds_writeAll _ _ _, holds_append.mpr ⟨?_, ?_⟩, ?_⟩
  · refine ((holds_writeAll _ m (B - 8)).writeAll (.inr ?_)).writeAll (.inr ?_)
    · rw [List.length_singleton]
      omega
    · rw [length_leBytes]
      omega
  · exact ((hmethod.writeAll (hsep (by omega))).writeAll (hsep (by omega))).writeAll
      (hsep (by omega))
  · refine (holds_writeAll [0] _ (buf + method.length)).writeAll (hsep ?_)
    rw [List.length_singleton]
    omega
  · exact ((hrest'.writeAll (hsep (by omega))).writeAll (.inr (Nat.le_refl _))).writeAll
      (hsep (by omega))

/-- The memory with a delimited path too. -/
lemma pathMemory_holds (hbytes : Holds m buf (method ++ s :: (path ++ d :: rest)))
    (hfit : buf + (method ++ s :: (path ++ d :: rest)).length ≤ B - 16) (hB : 16 ≤ B) :
    Slot (writeAll (methodMemory B buf method.length m) (buf + method.length + 1 + path.length) [0])
        (B - 8) buf ∧
      Slot (writeAll (methodMemory B buf method.length m)
        (buf + method.length + 1 + path.length) [0]) (B - 16) (buf + method.length + 1) ∧
      Holds (writeAll (methodMemory B buf method.length m)
        (buf + method.length + 1 + path.length) [0]) buf (method ++ [0]) ∧
      Holds (writeAll (methodMemory B buf method.length m)
        (buf + method.length + 1 + path.length) [0]) (buf + method.length + 1) (path ++ 0 :: rest) := by
  obtain ⟨hslot, hslot', hmethod, hpath⟩ := methodMemory_holds hbytes hfit hB
  obtain ⟨hpath, hrest⟩ := holds_append.mp hpath
  have hrest' := (holds_cons.mp hrest).2
  simp only [List.length_append, List.length_cons] at hfit
  refine ⟨hslot.writeAll (.inr ?_), hslot'.writeAll (.inr ?_), hmethod.writeAll (.inl ?_),
    holds_append.mpr ⟨hpath.writeAll (.inl (Nat.le_refl _)), holds_cons.mpr ⟨?_, ?_⟩⟩⟩
  · rw [List.length_singleton]
    omega
  · rw [List.length_singleton]
    omega
  · rw [List.length_append, List.length_singleton]
    omega
  · exact (holds_cons.mp (holds_writeAll [0] _ _)).1
  · exact hrest'.writeAll (.inr (Nat.le_refl _))

end memory

section parser

variable {f : Frame} {c : Core} {r : Int} {bytes : List UInt8} {P : Nat × Core → Prop}

lemma Entry.slots (e : Entry f c r bytes) : 48 ≤ f.frameBase := by
  have h := e.wf.slots
  rw [Frame.bodyPreOffset] at h
  split_ifs at h <;> omega

/-- The buffer ends below the fixed slots. -/
lemma Entry.fits (e : Entry f c r bytes) :
    buffer f c.regs.rbp + bytes.length ≤ c.regs.rbp - f.frameBase := by
  have hroom := e.room
  have hcount := e.count
  have hhigh := e.high
  rw [buffer]
  omega

lemma touchable_slot {B n d i : Nat} (hd : d = 8 ∨ d = 16) (hB : 16 ≤ B) (hi : i < 8) :
    touchable f B n (B - d + i) = true := by
  rw [touchable, Bool.or_eq_true, Bool.or_eq_true]
  exact .inl (.inl (decide_eq_true (by omega)))

lemma touchable_buffer {B n i : Nat} (hi : i < n) : touchable f B n (buffer f B + i) = true := by
  rw [touchable, Bool.or_eq_true, Bool.or_eq_true]
  exact .inr (decide_eq_true (by omega))

/-- The address of the buffer goes to the slot of the method. -/
lemma start_runs (e : Entry f c r bytes) (k : ∀ zero less, Leads (touchable f c.regs.rbp bytes.length)
      f.code (11, ⟨c.regs.set .rbx (buffer f c.regs.rbp), writeAll c.memory (c.regs.rbp - 8)
        (leBytes (buffer f c.regs.rbp) 8), zero, less⟩) P) :
    Leads (touchable f c.regs.rbp bytes.length) f.code (0, c) P := by
  have hslots := e.slots
  have hroom := e.room
  have hframe := e.frame
  have hbuffer : displaced (c.regs.get .rbp) f.bufOffset = buffer f c.regs.rbp :=
    displaced_neg hroom (show c.regs.rbp < 2 ^ 64 by omega)
  have hslot : displaced ((c.regs.set .rbx (buffer f c.regs.rbp)).get .rbp) (-8) = c.regs.rbp - 8 :=
    displaced_neg (k := 8) (v := c.regs.rbp) (by omega) (by omega)
  have hexec : execAll (touchable f c.regs.rbp bytes.length)
      [.lea .rbx .rbp f.bufOffset, .store64 .rbp (-8) .rbx] c =
      some ⟨c.regs.set .rbx (buffer f c.regs.rbp), writeAll c.memory (c.regs.rbp - 8)
        (leBytes (buffer f c.regs.rbp) 8), c.zero, c.less⟩ := by
    rw [execAll, Op.exec, hbuffer]
    exact execAll_one (exec_store64 (c := ⟨c.regs.set .rbx (buffer f c.regs.rbp), c.memory, c.zero,
      c.less⟩) hslot fun i hi => touchable_slot (.inl rfl) (by omega) hi)
  exact Leads.ops _ (by rfl) hexec (by rfl) (k _ _)

/-- A terminator is written over a delimiter. -/
lemma exec_terminator {ok : Nat → Bool} {g : Regs} {m : Nat → UInt8} {zero less : Bool}
    {B x k : Nat} (hg : At g B x k) (hbyte : ok x = true) :
    Op.exec ok (.store8Imm .rbx 0) ⟨g, m, zero, less⟩ = some ⟨g, writeAll m x [0], zero, less⟩ := by
  have hcursor : g.get .rbx = x := hg.cursor
  rw [exec_store8Imm (hcursor.symm ▸ hbyte)]
  exact congrArg (fun a => some (⟨g, Function.update m a 0, zero, less⟩ : Core)) hcursor

/-- The method is delimited, and the address of the path goes to its slot. -/
lemma delimit_runs {ok : Nat → Bool} {g : Regs} {m : Nat → UInt8} {zero less : Bool}
    {B x n : Nat} (hg : At g B x (n + 1)) (hB : 16 ≤ B) (hB' : B < 2 ^ 63) (hx : x + (n + 1) < 2 ^ 63)
    (hbyte : ok x = true) (hslot : ∀ i < 8, ok (B - 16 + i) = true)
    (k : ∀ g' zero less, At g' B (x + 1) n → Leads ok f.code
      (66, ⟨g', writeAll (writeAll m x [0]) (B - 16) (leBytes (x + 1) 8), zero, less⟩) P) :
    Leads ok f.code (53, ⟨g, m, zero, less⟩) P := by
  have hg' := hg.passed (by omega) (by omega)
  have haddress : displaced ((passed g).get .rbp) (-16) = B - 16 := by
    have hframe : (passed g).get .rbp = B := hg'.frame
    rw [hframe]
    exact displaced_neg (k := 16) hB (by omega)
  have hnext : (passed g).get .rbx = x + 1 := hg'.cursor
  have hexec : execAll ok [.store8Imm .rbx 0, .inc .rbx, .dec .rax, .store64 .rbp (-16) .rbx]
      ⟨g, m, zero, less⟩ =
        some ⟨passed g, writeAll (writeAll m x [0]) (B - 16) (leBytes (x + 1) 8),
          decide ((signed g.rax - 1) % 2 ^ 64 = 0), decide (signed g.rax - 1 < 0)⟩ := by
    have hstore : ∀ zero less, Op.exec ok (.store64 .rbp (-16) .rbx)
        ⟨passed g, writeAll m x [0], zero, less⟩ = some ⟨passed g,
          writeAll (writeAll m x [0]) (B - 16) (leBytes (x + 1) 8), zero, less⟩ := by
      intro zero less
      rw [exec_store64 haddress hslot, hnext]
    rw [execAll, exec_terminator hg hbyte]
    exact execAll_one (hstore _ _)
  exact Leads.ops _ (by rfl) hexec (by rfl) (k _ _ _ hg')

/-- The path is delimited. -/
lemma terminate_runs {ok : Nat → Bool} {g : Regs} {m : Nat → UInt8} {zero less : Bool}
    {B x n : Nat} (hg : At g B x n) (hbyte : ok x = true)
    (k : Leads ok f.code (127, ⟨g, writeAll m x [0], zero, less⟩) P) :
    Leads ok f.code (124, ⟨g, m, zero, less⟩) P :=
  Leads.ops [.store8Imm .rbx 0] (by rfl) (execAll_one (exec_terminator hg hbyte)) (by rfl) k

/-- The start of the parser when the result of the read is a count. -/
lemma Entry.start (e : Entry f c r bytes) (hr : 0 ≤ r) :
    At (c.regs.set .rbx (buffer f c.regs.rbp)) c.regs.rbp (buffer f c.regs.rbp) bytes.length := by
  have hcount := e.count
  have hhigh := e.high
  have hroom := e.room
  have hframe := e.frame
  refine ⟨rfl, rfl, ?_⟩
  change c.regs.rax = bytes.length
  rw [e.result, hcount]
  omega

lemma tokens_none_of_method (h : splitFirst isSpace bytes = none) : tokens bytes = none := by
  rw [tokens, h]
  rfl

lemma tokens_of_method {method rest : List UInt8} (h : splitFirst isSpace bytes = some (method, rest)) :
    tokens bytes = if (method.length : Int) ≤ methodMax then
      (splitFirst isDelimiter (rest.drop 1)).bind fun x =>
        if (x.1.length : Int) ≤ pathMax then some (method, x.1, x.2) else none
      else none := by
  rw [tokens, h]
  rfl

/-- The scans for the method and the path. -/
lemma head_runs (e : Entry f c r bytes) (hr : 0 ≤ r)
    (kfail : tokens bytes = none → ∀ c, P (f.fail, c))
    (k : ∀ method path d rest, tokens bytes = some (method, path, d :: rest) →
      method.length + 1 + path.length + 1 + rest.length = bytes.length → ∀ g m zero less,
      At g c.regs.rbp (buffer f c.regs.rbp + method.length + 1 + path.length) (rest.length + 1) →
      Slot m (c.regs.rbp - 8) (buffer f c.regs.rbp) →
      Slot m (c.regs.rbp - 16) (buffer f c.regs.rbp + method.length + 1) →
      Holds m (buffer f c.regs.rbp) (method ++ [0]) →
      Holds m (buffer f c.regs.rbp + method.length + 1) (path ++ 0 :: rest) →
      Leads (touchable f c.regs.rbp bytes.length) f.code (127, ⟨g, m, zero, less⟩) P) :
    Leads (touchable f c.regs.rbp bytes.length) f.code (0, c) P := by
  have hstart := e.start hr
  have hslots := e.slots
  have hroom := e.room
  have hframe := e.frame
  have hfits := e.fits
  have hreceived := e.received
  refine start_runs e fun _ _ => ?_
  generalize c.regs.set .rbx (buffer f c.regs.rbp) = g at hstart
  generalize c.regs.rbp = B at *
  generalize c.memory = m at *
  have hslot : ∀ d, d = 8 ∨ d = 16 → ∀ i < 8, touchable f B bytes.length (B - d + i) = true :=
    fun d hd i hi => touchable_slot hd (by omega) hi
  have hbuffer : ∀ x i, buffer f B + i = x → i < bytes.length →
      touchable f B bytes.length x = true := fun x i hx hi => hx ▸ touchable_buffer hi
  generalize hbuf : buffer f B = buf at *
  have hholds : Holds (writeAll m (B - 8) (leBytes buf 8)) buf bytes :=
    hreceived.writeAll (.inl (by omega))
  refine scanMethod_runs hstart (by omega) hholds (fun i hi => hbuffer _ i rfl hi)
    (fun hnone => kfail (tokens_none_of_method hnone)) fun method rest hsplit g₁ _ _ hg₁ => ?_
  have htokens := tokens_of_method hsplit
  obtain ⟨s, rest, rfl, -⟩ := splitFirst_tail hsplit
  have hbytes := splitFirst_append hsplit
  have hlength := congrArg List.length hbytes
  rw [List.length_append, List.length_cons] at hlength
  refine guard_runs 47 buf 8 8 (by rfl) (by rfl)
    (toNat_fail 53 _) hg₁ (by omega) hframe (by omega) (by decide) (hslot 8 (.inl rfl))
    (holds_writeAll _ _ _) (fun hlong => kfail ?_) fun hmethod g₂ _ _ hg₂ => ?_
  · rw [htokens, if_neg (by rw [methodMax]; omega)]
  rw [if_pos (by rw [methodMax]; omega), List.drop_one, List.tail_cons] at htokens
  refine delimit_runs hg₂ (by omega) hframe (by omega) (hbuffer _ method.length rfl (by omega))
    (hslot 16 (.inr rfl)) fun g₃ _ _ hg₃ => ?_
  obtain ⟨-, hslot₃, -, hpath₃⟩ :=
    methodMemory_holds (B := B) (hbytes ▸ hreceived) (by rw [← hbytes]; omega) (by omega)
  change Leads _ f.code (66, ⟨g₃, methodMemory B buf method.length m, _, _⟩) P
  refine scanPath_runs hg₃ (by omega) hpath₃
    (fun i hi => hbuffer _ (method.length + 1 + i) (by omega) (by omega)) (fun hnone => kfail ?_)
    fun path tail hsplit' g₄ _ _ hg₄ => ?_
  · rw [htokens, hnone]
    rfl
  rw [hsplit', Option.bind_some] at htokens
  change tokens bytes = if (path.length : Int) ≤ pathMax then _ else none at htokens
  obtain ⟨d, rest, rfl, -⟩ := splitFirst_tail hsplit'
  have hrest := splitFirst_append hsplit'
  have hlength' := congrArg List.length hrest
  rw [List.length_append, List.length_cons] at hlength'
  refine guard_runs 118 (buf + method.length + 1) 256 16 (by rfl) (by rfl)
    (toNat_fail 124 _) hg₄ (by omega) hframe (by omega) (by decide) (hslot 16 (.inr rfl))
    hslot₃ (fun hlong => kfail ?_) fun hpath g₅ _ _ hg₅ => ?_
  · rw [htokens, if_neg (by rw [pathMax]; omega)]
  rw [if_pos (by rw [pathMax]; omega)] at htokens
  rw [hrest] at hbytes
  obtain ⟨hm₁, hm₂, hm₃, hm₄⟩ :=
    pathMemory_holds (B := B) (hbytes ▸ hreceived) (by rw [← hbytes]; omega) (by omega)
  refine terminate_runs hg₅ (hbuffer _ (method.length + 1 + path.length) (by omega) (by omega)) ?_
  exact k method path d rest htokens (by omega) _ _ _ _ hg₅ hm₁ hm₂ hm₃ hm₄

end parser

end Verbosec.Http.Parse
