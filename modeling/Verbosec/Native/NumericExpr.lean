import Verbosec.Native.NumericRun
import Verbosec.NumericBounds.NativeOptSound

/-!
# The code of a numeric expression

* `Shaped` - the expressions that the verifier admits, with the names that they may read.
* `Holds` - a machine has the values of the names that an expression reads.
* `Emits` - an emission keeps the slots that are held, and its code gives the value of the
  evaluator.
* `expr_emits` - the code of an expression, by induction on it.
-/

namespace Verbosec.Native.NumericSlots

open Verbosec.Lib Interpreter
open NumericBounds.Fold (IsScalar isScalar_applyBinary)

/-! ## Words -/

/-- The word of a scalar. -/
def encode : Value → Int64
  | .number n => n
  | .bool b => bit b
  | _ => 0

lemma bit_inj {a b : Bool} : bit a = bit b ↔ a = b := by
  cases a <;> cases b <;> decide

lemma bit_eq_zero {b : Bool} : bit b = 0 ↔ b = false := by
  cases b <;> decide

/-- A word that is in range is its own remainder. -/
lemma eq_of_toInt {c d : Int64} {n : Int} (hc : c.toInt = n) (hd : d.toInt = n.bmod (2 ^ 64)) :
    d = c := by
  have hle := c.le_toInt
  have hlt := c.toInt_lt
  refine Int64.toInt_inj.mp ?_
  rw [hd, ← hc, Int.bmod_eq_of_le (by omega) (by omega)]

/-- Where the evaluator has a result, the instruction has it too. -/
lemma binary_apply {op : BinOp} {a b v : Value} (ha : IsScalar a) (hb : IsScalar b)
    (h : applyBinary op a b = .ok v) :
    IsScalar v ∧ (Binary.op op).apply (encode a) (encode b) = some (encode v) := by
  refine ⟨isScalar_applyBinary h, ?_⟩
  match a, b, ha, hb, h with
  | .bool x, .bool y, _, _, h =>
      cases op <;> simp only [applyBinary, fail, reduceCtorEq, Except.ok.injEq] at h
      all_goals
        subst h
        simp [Binary.apply, encode, bit_inj]
  | .number x, .number y, _, _, h =>
      cases op <;> simp only [applyBinary, compareNumbers, arithNumbers, Option.getD_some] at h
      case add =>
        cases hc : checkedAdd x y with
        | none => rw [hc] at h; cases h
        | some c =>
            rw [hc] at h
            cases h
            simp only [Binary.apply, encode, Option.some.injEq]
            exact eq_of_toInt (checkedAdd_eq_some.mp hc) (Int64.toInt_add x y)
      case sub =>
        cases hc : checkedSub x y with
        | none => rw [hc] at h; cases h
        | some c =>
            rw [hc] at h
            cases h
            simp only [Binary.apply, encode, Option.some.injEq]
            exact eq_of_toInt (checkedSub_eq_some.mp hc) (Int64.toInt_sub x y)
      case mul =>
        cases hc : checkedMul x y with
        | none => rw [hc] at h; cases h
        | some c =>
            rw [hc] at h
            cases h
            simp only [Binary.apply, encode, Option.some.injEq]
            exact eq_of_toInt (checkedMul_eq_some.mp hc) (Int64.toInt_mul x y)
      case div =>
        split at h
        · cases h
        cases hc : checkedDiv x y with
        | none => rw [hc] at h; cases h
        | some c =>
            rw [hc] at h
            cases h
            exact hc
      case mod =>
        split at h
        · cases h
        cases hc : checkedRem x y with
        | none => rw [hc] at h; cases h
        | some c =>
            rw [hc] at h
            cases h
            exact hc
      case and | or => cases h
      all_goals
        cases h
        rfl

lemma min_apply {a b v : Value} (h : numbersOp "min" min a b = .ok v) :
    IsScalar v ∧ Binary.min.apply (encode a) (encode b) = some (encode v) := by
  match a, b, h with
  | .number x, .number y, h =>
      cases h
      have hif : (if x < y then x else y) = if x ≤ y then x else y := by
        simp only [Int64.lt_iff_toInt_lt, Int64.le_iff_toInt_le]
        split_ifs with hlt hle hle
        · rfl
        · omega
        · exact Int64.toInt_inj.mp (by omega)
        · rfl
      exact ⟨trivial, congrArg some hif⟩

lemma max_apply {a b v : Value} (h : numbersOp "max" max a b = .ok v) :
    IsScalar v ∧ Binary.max.apply (encode a) (encode b) = some (encode v) := by
  match a, b, h with
  | .number x, .number y, h =>
      cases h
      have hif : (if y < x then x else y) = if x ≤ y then y else x := by
        simp only [Int64.lt_iff_toInt_lt, Int64.le_iff_toInt_le]
        split_ifs with hlt hle hle
        · omega
        · rfl
        · rfl
        · exact Int64.toInt_inj.mp (by omega)
      exact ⟨trivial, congrArg some hif⟩

lemma not_apply {a v : Value} (h : applyNot a = .ok v) :
    IsScalar v ∧ Unary.not.apply (encode a) = encode v := by
  match a, h with
  | .bool b, h =>
      cases h
      refine ⟨trivial, ?_⟩
      cases b <;> decide

lemma neg_apply {a v : Value} (h : applyNeg a = .ok v) :
    IsScalar v ∧ Unary.neg.apply (encode a) = encode v := by
  match a, h with
  | .number n, h =>
      simp only [applyNeg] at h
      cases hc : checkedNeg n with
      | none => rw [hc] at h; cases h
      | some c =>
          rw [hc] at h
          cases h
          exact ⟨trivial, eq_of_toInt (checkedNeg_eq_some.mp hc) (Int64.toInt_neg n)⟩

lemma abs_apply {a v : Value} (h : applyAbs a = .ok v) :
    IsScalar v ∧ Unary.abs.apply (encode a) = encode v := by
  match a, h with
  | .number n, h =>
      cases h
      exact ⟨trivial, rfl⟩

/-! ## The admitted expressions -/

/-- The operands that the scalar operators of an expression have. -/
def operandsOf : Expr → List Nat :=
  Expr.collect fun
    | .not _ | .neg _ | .abs _ => [0]
    | .min _ _ | .max _ _ => [0, 1]
    | .binary op _ _ => if op = .and ∨ op = .or then [] else [0, 1]
    | _ => []

/-- The expressions that the verifier admits, where the names `bound` hide the input. -/
def Shaped (bound : List String) (input : String) (numeric : List String)
    (callable : String → Prop) : Expr → Prop
  | .number _ => True
  | .ident n => n ∈ bound
  | .field base n => (base = .ident input ∧ input ∉ bound) ∧ n ∈ numeric
  | .call n args => (args = [.ident input] ∧ input ∉ bound) ∧ callable n
  | .ite c a b =>
      Shaped bound input numeric callable c ∧ Shaped bound input numeric callable a ∧
        Shaped bound input numeric callable b
  | .not a | .neg a | .abs a => Shaped bound input numeric callable a
  | .min a b | .max a b | .binary _ a b =>
      Shaped bound input numeric callable a ∧ Shaped bound input numeric callable b
  | _ => False

/-- The numeric fields of a record are in the frame. -/
def FieldsOf (numeric : List String) (fields : Dict String Value) (m : Machine) : Prop :=
  ∀ n ∈ numeric, ∃ k, fields.lookup n = some (.number k) ∧ m.fields n = k

/-- The machine has the values of the names that an expression reads. -/
structure Holds (bound : List String) (input : String) (numeric : List String)
    (env : Dict String Nat) (values : Env) (fields : Dict String Value) (e : Expr) (m : Machine) :
    Prop where
  locals : ∀ n ∈ identsOf e, n ∈ bound → ∃ i v, env.lookup n = some i ∧
    values.lookup n = some v ∧ IsScalar v ∧ m.slots i = encode v
  record : input ∉ bound → values.lookup input = some (.record fields)
  fields : FieldsOf numeric fields m

/-- The names that an expression reads are in slots that are held. -/
def Resolved (bound : List String) (env : Dict String Nat) (held : List Nat) (e : Expr) : Prop :=
  ∀ n ∈ identsOf e, n ∈ bound → ∃ i ∈ held, env.lookup n = some i

/-- An emission keeps the slots that are held; its code gives the value that is meant, and is
refused only for want of slots. -/
def Emits (emitted : Emit → Except Stop Emit) (s : Emit) (means : Machine → Value → Prop) : Prop :=
  emitted s = .error exhausted ∨
  ∃ s' code, emitted s = .ok s' ∧ s'.code = s.code ++ code ∧ Same s s' ∧
    ∀ m v, means m v → IsScalar v ∧ Yields code s.held m (encode v)

/-- The value of a rule on a record that is in the frame. -/
def RuleMeans (C : Interpreter.Context) (numeric : List String) (r : Rule) (m : Machine)
    (v : Value) : Prop :=
  ∃ fields fuel, FieldsOf numeric fields m ∧ evalRule C fuel r (.record fields) = .ok v

section expressions

variable (C : Interpreter.Context) (bound : List String) (input : String) (numeric : List String)
  (env : Dict String Nat)

/-- The value of an expression whose names are in the frame. -/
def ExprMeans (e : Expr) (m : Machine) (v : Value) : Prop :=
  ∃ values fields fuel, Holds bound input numeric env values fields e m ∧
    evalExpr C (evalRule C fuel) values e = .ok v

variable {C bound input numeric env}

lemma Holds.mono {values : Env} {fields : Dict String Value} {e c : Expr} {m : Machine}
    (h : Holds bound input numeric env values fields e m) (hc : ∀ n ∈ identsOf c, n ∈ identsOf e) :
    Holds bound input numeric env values fields c m :=
  ⟨fun n hn => h.locals n (hc n hn), h.record, h.fields⟩

/-- A machine that agrees on the held slots has the values too. -/
lemma Holds.agrees {values : Env} {fields : Dict String Value} {e : Expr} {held : List Nat}
    {m m' : Machine} (h : Holds bound input numeric env values fields e m)
    (hres : Resolved bound env held e) (hm : m.Agrees held m') :
    Holds bound input numeric env values fields e m' := by
  refine ⟨fun n hn hb => ?_, h.record, fun n hn => ?_⟩
  · obtain ⟨i, v, hi, hv, hs, hslot⟩ := h.locals n hn hb
    obtain ⟨j, hj, henv⟩ := hres n hn hb
    rw [hi] at henv
    cases henv
    exact ⟨i, v, hi, hv, hs, (hm.2 i hj).trans hslot⟩
  · obtain ⟨k, hk, hmk⟩ := h.fields n hn
    exact ⟨k, hk, by rw [hm.1, hmk]⟩

lemma Resolved.mono {held held' : List Nat} {e c : Expr} (h : Resolved bound env held e)
    (hc : ∀ n ∈ identsOf c, n ∈ identsOf e) (hheld : ∀ i ∈ held, i ∈ held') :
    Resolved bound env held' c := fun n hn hb => by
  obtain ⟨i, hi, henv⟩ := h n (hc n hn) hb
  exact ⟨i, hheld i hi, henv⟩

/-- An instruction that gives the value. -/
lemma emits_emit {s : Emit} (h : s.Inv) {i : Instr} (hreads : ∀ j ∈ i.reads, j ∈ s.held)
    (hwrites : ∀ j ∈ i.writes, j ∉ s.held) {means : Machine → Value → Prop}
    (hmeans : ∀ m v, means m v → IsScalar v ∧ run [i] m = some { m with rax := encode v }) :
    Emits (fun s => .ok (s.emit i)) s means := by
  refine Or.inr ⟨_, [i], rfl, rfl, .emit h hreads hwrites, fun m v hmv => ?_⟩
  obtain ⟨hs, hrun⟩ := hmeans m v hmv
  exact ⟨hs, _, hrun, rfl, rfl, fun _ _ => rfl⟩

/-- What an operand leaves: its word at a place that stays as it is. -/
def OperandAt (emitted : Emit → Except Stop (Place × Emit)) (s : Emit)
    (means : Machine → Value → Prop) : Prop :=
  emitted s = .error exhausted ∨
  ∃ p s' code extra, emitted s = .ok (p, s') ∧ s'.code = s.code ++ code ∧ Grown s s' extra ∧
    (∀ i, p = .slot i → i ∈ s'.held) ∧
    ∀ m v, means m v → IsScalar v ∧ ∃ m', run code m = some m' ∧ m.Agrees s.held m' ∧
      ∀ m'', m'.Agrees s'.held m'' → m''.read p = encode v

/-- **An operand**: borrowed, or evaluated into a slot of its own. -/
lemma operand_at {s : Emit} (h : s.Inv) {limit : Nat} {names : List String} {e : Expr}
    {callable : String → Prop} (hshape : Shaped bound input numeric callable e)
    (hres : Resolved bound env s.held e) (hnames : ∀ n ∈ numeric, n ∈ names)
    {emitted : Emit → Except Stop Emit}
    (hemits : Emits emitted s (ExprMeans C bound input numeric env e)) :
    OperandAt (operand limit (borrow names env e) emitted) s
      (ExprMeans C bound input numeric env e) := by
  have hborrowed : ∀ p, borrow names env e = some p → (∀ i, p = .slot i → i ∈ s.held) →
      (∀ m v, ExprMeans C bound input numeric env e m v → IsScalar v ∧
        ∀ m'', m.Agrees s.held m'' → m''.read p = encode v) →
      OperandAt (operand limit (borrow names env e) emitted) s
        (ExprMeans C bound input numeric env e) := by
    intro p hp hheld hmeans
    refine Or.inr ⟨p, s, [], [], by rw [hp]; rfl, (List.append_nil _).symm, (Same.refl h).grown,
      hheld, fun m v hmv => ?_⟩
    obtain ⟨hs, hread⟩ := hmeans m v hmv
    exact ⟨hs, m, by rw [run], ⟨rfl, fun _ _ => rfl⟩, hread⟩
  have hsaved : borrow names env e = none → OperandAt (operand limit (borrow names env e) emitted) s
      (ExprMeans C bound input numeric env e) := by
    intro hnone
    unfold OperandAt
    rw [hnone]
    rcases hemits with hex | ⟨s₁, code, hok, hcode, hsame, hmeans⟩
    · left
      unfold operand
      rw [hex]
      rfl
    rcases numericLocal_spec hsame.inv limit with
      hex | ⟨i, s₂, hok₂, hi, hcode₂, htemps, hlocals, hsound, hinv⟩
    · left
      unfold operand save
      simp only [hok, bind, Except.bind, hex]
    right
    refine ⟨.slot i, { s₂ with temporaries := s₂.temporaries ++ [i] }, code ++ [Instr.store i], [i],
      ?_, ?_, ⟨?_, ?_, ?_, ?_⟩, ?_, ?_⟩
    · unfold operand save
      simp only [hok, bind, Except.bind, hok₂]
    · simp only [hcode₂, hcode, List.append_assoc]
    · simp only [htemps, hsame.temporaries]
    · simp only [hlocals, hsame.locals]
    · refine hinv _ rfl ?_
      unfold Emit.held
      simp only [htemps, hlocals]
      rw [← List.append_assoc]
      exact List.perm_append_singleton _ _
    · exact hsound ∘ hsame.sound
    · rintro j ⟨⟩
      unfold Emit.held
      simp
    · intro m v hmv
      obtain ⟨hs, m', hrun, hrax, hf, hslots⟩ := hmeans m v hmv
      refine ⟨hs, { m' with slots := Function.update m'.slots i m'.rax }, ?_,
        ⟨hf, fun j hj => ?_⟩, ?_⟩
      · rw [run_append _ _ _ hrun, run, run]
      · have hne : j ≠ i := fun hji => hi (by rw [hsame.held]; exact hji ▸ hj)
        simp only [Function.update_of_ne hne]
        exact hslots j hj
      · intro m'' hm''
        have hi' : i ∈ Emit.held { s₂ with temporaries := s₂.temporaries ++ [i] } := by
          unfold Emit.held
          simp
        have := hm''.2 i hi'
        simp only [Function.update_self] at this
        exact this.trans hrax
  cases e
  case ident n =>
    obtain ⟨i, hi, henv⟩ := hres n (by simp [identsOf, Expr.collect]) hshape
    refine hborrowed (.slot i) (by simp [borrow, henv]) (fun j hj => by cases hj; exact hi) ?_
    rintro m v ⟨values, fields, fuel, hholds, heval⟩
    obtain ⟨j, w, hj, hw, hs, hslot⟩ := hholds.locals n (by simp [identsOf, Expr.collect]) hshape
    rw [henv] at hj
    cases hj
    rw [evalExpr, hw] at heval
    cases heval
    exact ⟨hs, fun m'' hm'' => (hm''.2 i hi).trans hslot⟩
  case field base n =>
    obtain ⟨⟨rfl, hinput⟩, hn⟩ := hshape
    refine hborrowed (.field n) (by simp [borrow, hnames n hn]) (fun j hj => by cases hj) ?_
    rintro m v ⟨values, fields, fuel, hholds, heval⟩
    obtain ⟨k, hk, hmk⟩ := hholds.fields n hn
    simp only [evalExpr, hholds.record hinput, bind, Except.bind, hk, Except.ok.injEq] at heval
    subst heval
    refine ⟨trivial, fun m'' hm'' => ?_⟩
    change m''.fields n = k
    rw [hm''.1, hmk]
  all_goals exact hsaved rfl

/-- **A scalar operator on one operand.** -/
lemma emits_unary {s : Emit} (op : Unary) {emitted : Emit → Except Stop (Place × Emit)}
    {place : Place → Place} (hplace : ∀ p, place p = p) {means means' : Machine → Value → Prop}
    (hoperand : OperandAt emitted s means')
    (hmeans : ∀ m v, means m v → ∃ a, means' m a ∧
      (IsScalar v ∧ op.apply (encode a) = encode v)) :
    Emits (fun s => do
      let (p, s') ← emitted s
      drain s.temporaries.length (s'.emit (.unary op (place p)))) s means := by
  rcases hoperand with hex | ⟨p, s₁, code, extra, hok, hcode, hgrown, hheld, hword⟩
  · left
    simp only [hex, bind, Except.bind]
  have hsame : Same s₁ (s₁.emit (.unary op p)) := by
    refine .emit hgrown.inv (fun j hj => ?_) (by simp [Instr.writes])
    cases p with
    | slot i =>
        simp only [Instr.reads, List.mem_singleton] at hj
        exact hj ▸ hheld i rfl
    | field n => simp [Instr.reads] at hj
  obtain ⟨s₂, hdrain, hcode₂, hsame₂⟩ := drain_grown (hgrown.trans hsame.grown)
  refine Or.inr ⟨s₂, code ++ [Instr.unary op p], ?_, ?_, hsame₂, fun m v hmv => ?_⟩
  · simp only [hok, bind, Except.bind, hplace, hdrain]
  · rw [hcode₂, Emit.emit_code, hcode, List.append_assoc]
  · obtain ⟨a, ha, hs, happly⟩ := hmeans m v hmv
    obtain ⟨-, m', hrun, hagree, hread⟩ := hword m a ha
    refine ⟨hs, .after hrun hagree ⟨{ m' with rax := encode v }, ?_, rfl, rfl, fun _ _ => rfl⟩⟩
    rw [run, run, hread m' ⟨rfl, fun _ _ => rfl⟩, happly]

/-- **A scalar operator on two operands.** The second one keeps the word of the first. -/
lemma emits_binary {s : Emit} (op : Binary) {first second : Emit → Except Stop (Place × Emit)}
    {place place' : Place → Place} (hplace : ∀ p, place p = p) (hplace' : ∀ p, place' p = p)
    {means meansA meansB : Machine → Value → Prop} (hfirst : OperandAt first s meansA)
    (hsecond : ∀ s', s'.Inv → (∀ i ∈ s.held, i ∈ s'.held) → OperandAt second s' meansB)
    (hmeans : ∀ m v, means m v → ∃ a b, meansA m a ∧ (∀ m', m.Agrees s.held m' → meansB m' b) ∧
      (IsScalar a → IsScalar b →
        IsScalar v ∧ op.apply (encode a) (encode b) = some (encode v))) :
    Emits (fun s => do
      let (p, s₁) ← first s
      let (q, s₂) ← second s₁
      drain s.temporaries.length (s₂.emit (.binary op (place p) (place' q)))) s means := by
  rcases hfirst with hex | ⟨p, s₁, code, extra, hok, hcode, hgrown, hheld, hword⟩
  · left
    simp only [hex, bind, Except.bind]
  have hsub : ∀ i ∈ s.held, i ∈ s₁.held := fun i hi => by
    rw [hgrown.held]
    exact List.mem_append_left _ hi
  rcases hsecond s₁ hgrown.inv hsub with
    hex | ⟨q, s₂, code', extra', hok', hcode', hgrown', hheld', hword'⟩
  · left
    simp only [hok, hex, bind, Except.bind]
  have hsub' : ∀ i ∈ s₁.held, i ∈ s₂.held := fun i hi => by
    rw [hgrown'.held]
    exact List.mem_append_left _ hi
  have hsame : Same s₂ (s₂.emit (.binary op p q)) := by
    refine .emit hgrown'.inv (fun j hj => ?_) (by simp [Instr.writes])
    simp only [Instr.reads, List.mem_filterMap, List.mem_cons, List.not_mem_nil, or_false] at hj
    obtain ⟨place, hpq, hj⟩ := hj
    cases place with
    | slot i =>
        cases hj
        rcases hpq with hp | hq
        · exact hsub' _ (hheld _ hp.symm)
        · exact hheld' _ hq.symm
    | field n => cases hj
  obtain ⟨s₃, hdrain, hcode₃, hsame₃⟩ := drain_grown ((hgrown.trans hgrown').trans hsame.grown)
  refine Or.inr ⟨s₃, code ++ (code' ++ [Instr.binary op p q]), ?_, ?_, hsame₃, fun m v hmv => ?_⟩
  · simp only [hok, hok', bind, Except.bind, hplace, hplace', hdrain]
  · rw [hcode₃, Emit.emit_code, hcode', hcode]
    simp only [List.append_assoc]
  · obtain ⟨a, b, ha, hb, happly⟩ := hmeans m v hmv
    obtain ⟨hsa, m', hrun, hagree, hread⟩ := hword m a ha
    obtain ⟨hsb, m'', hrun', hagree', hread'⟩ := hword' m' b (hb m' hagree)
    obtain ⟨hs, happly⟩ := happly hsa hsb
    have hagree'' : m'.Agrees s.held m'' := ⟨hagree'.1, fun i hi => hagree'.2 i (hsub i hi)⟩
    refine ⟨hs, .after hrun hagree (.after hrun' hagree''
      ⟨{ m'' with rax := encode v }, ?_, rfl, rfl, fun _ _ => rfl⟩)⟩
    rw [run, hread m'' hagree', hread' m'' ⟨rfl, fun _ _ => rfl⟩, happly]
    simp only
    rw [run]

/-- The code behind a jump over it. -/
lemma patched_emits {s : Emit} (h : s.Inv) {jump : Nat → Instr}
    (hjump : ∀ n, (jump n).reads = [] ∧ (jump n).writes = [])
    {emitted : Emit → Except Stop Emit} {means : Machine → Value → Prop}
    (hemits : ∀ s', s'.Inv → s'.held = s.held → Emits emitted s' means) :
    patched jump emitted s = .error exhausted ∨
    ∃ s' code, patched jump emitted s = .ok s' ∧ s'.code = s.code ++ jump code.length :: code ∧
      Same s s' ∧ ∀ m v, means m v → IsScalar v ∧ Yields code s.held m (encode v) := by
  have hsame : Same s (s.emit (jump 0)) :=
    .emit h (by simp [(hjump 0).1]) (by simp [(hjump 0).2])
  rcases hemits (s.emit (jump 0)) hsame.inv hsame.held with
    hex | ⟨s', code, hok, hcode, hsame', hmeans⟩
  · left
    simp only [patched, hex, bind, Except.bind]
  · right
    rw [Emit.emit_code, List.append_assoc] at hcode
    refine ⟨_, code, by simp only [patched, hok, bind, Except.bind]; rfl, ?_,
      (hsame.trans hsame').code _, hmeans⟩
    simp only [hcode, List.length_append, List.length_cons, List.singleton_append,
      List.set_append_right _ _ le_rfl, Nat.sub_self, List.set_cons_zero]
    exact congrArg (fun n => s.code ++ jump n :: code) (by omega)

lemma set_length (l r : List Instr) (x y : Instr) :
    (l ++ x :: r).set l.length y = l ++ y :: r := by
  rw [List.set_append_right _ _ le_rfl, Nat.sub_self, List.set_cons_zero]

/-- The code of a conditional. -/
lemma yields_ite {first yes no : List Instr} {held : List Nat} {m m' : Machine} {b : Bool}
    {v : Int64}
    (hrun : run first m = some m') (hagree : m.Agrees held m') (hrax : m'.rax = bit b)
    (hyes : b = true → Yields yes held m' v) (hno : b = false → Yields no held m' v) :
    Yields (first ++ Instr.jumpZero (yes.length + 1) :: (yes ++ Instr.jump no.length :: no)) held m v := by
  refine .after hrun hagree ?_
  cases b with
  | true =>
      obtain ⟨m'', hrun', hv, hf, hs⟩ := hyes rfl
      refine ⟨m'', ?_, hv, hf, hs⟩
      rw [run, if_neg (by rw [hrax]; decide), run_append _ _ _ hrun']
      have hjump := run_jump no [] m''
      rw [List.append_nil] at hjump
      rw [hjump, run]
  | false =>
      obtain ⟨m'', hrun', hv, hf, hs⟩ := hno rfl
      refine ⟨m'', ?_, hv, hf, hs⟩
      have hskip : yes.length + 1 ≤ (yes ++ Instr.jump no.length :: no).length := by
        simp only [List.length_append, List.length_cons]
        omega
      rw [run, if_pos (by rw [hrax]; rfl), if_pos hskip]
      rw [← hrun', List.drop_append, List.drop_eq_nil_of_le (by omega), List.nil_append,
        Nat.add_sub_cancel_left, List.drop_one, List.tail_cons]

/-- The code of a logical operator: the second operand is behind a jump that is taken where the
first one decides. -/
lemma yields_logical {first second : List Instr} {held : List Nat} {m m' : Machine}
    {jump : Nat → Instr} {decides b : Bool} {v : Int64}
    (hjump : ∀ n code m, run (jump n :: code) m =
      if (m.rax = 0) = (decides = false) then if n ≤ code.length then run (code.drop n) m else none
      else run code m)
    (hrun : run first m = some m') (hagree : m.Agrees held m') (hrax : m'.rax = bit b)
    (hfirst : b = decides → v = bit b) (hsecond : b ≠ decides → Yields second held m' v) :
    Yields (first ++ jump second.length :: second) held m v := by
  refine .after hrun hagree ?_
  by_cases hb : b = decides
  · refine ⟨m', ?_, hrax.trans (hfirst hb).symm, rfl, fun _ _ => rfl⟩
    rw [hjump, if_pos (by rw [hrax, bit_eq_zero, hb]), if_pos le_rfl, List.drop_length, run]
  · obtain ⟨m'', hrun', hv, hf, hs⟩ := hsecond hb
    refine ⟨m'', ?_, hv, hf, hs⟩
    rw [hjump, if_neg ?_, hrun']
    rw [hrax, bit_eq_zero]
    cases b <;> cases decides <;> simp_all

/-- **A conditional**: both jumps are patched to where they lead. -/
lemma emits_ite {s : Emit} {first yes no : Emit → Except Stop Emit}
    {means meansC meansA meansB : Machine → Value → Prop} (hfirst : Emits first s meansC)
    (hyes : ∀ s', s'.Inv → s'.held = s.held → Emits yes s' meansA)
    (hno : ∀ s', s'.Inv → s'.held = s.held → Emits no s' meansB)
    (hmeans : ∀ m v, means m v → ∃ b, meansC m (.bool b) ∧ ∀ m', m.Agrees s.held m' →
      (b = true → meansA m' v) ∧ (b = false → meansB m' v)) :
    Emits (fun s => do
      let s₁ ← first s
      let s₂ ← patched .jumpZero (fun s => do
        let s ← yes s
        .ok (s.emit (.jump 0))) s₁
      let s₃ ← no s₂
      .ok { s₃ with
        code := s₃.code.set (s₂.code.length - 1) (.jump (s₃.code.length - s₂.code.length)) }) s
      means := by
  rcases hfirst with hex | ⟨s₁, codeC, hok₁, hcode₁, hsame₁, hmeans₁⟩
  · left
    simp only [hex, bind, Except.bind]
  have hsame₂ : Same s₁ (s₁.emit (.jumpZero 0)) :=
    .emit hsame₁.inv (by simp [Instr.reads]) (by simp [Instr.writes])
  rcases hyes _ hsame₂.inv (hsame₂.held.trans hsame₁.held) with
    hex | ⟨s₂, codeA, hok₂, hcode₂, hsame₃, hmeans₂⟩
  · left
    simp only [hok₁, patched, hex, bind, Except.bind]
  have hsame₄ : Same s₂ (s₂.emit (.jump 0)) :=
    .emit hsame₃.inv (by simp [Instr.reads]) (by simp [Instr.writes])
  -- The jump over the first arm is patched to the start of the second one.
  have hcodeA : (s₂.emit (.jump 0)).code = s₁.code ++ Instr.jumpZero 0 :: (codeA ++ [Instr.jump 0]) := by
    rw [Emit.emit_code, hcode₂, Emit.emit_code]
    simp only [List.append_assoc, List.cons_append, List.nil_append]
  have hskip : (s₂.emit (.jump 0)).code.length - (s₁.code.length + 1) = codeA.length + 1 := by
    rw [hcodeA]
    simp only [List.length_append, List.length_cons, List.length_nil]
    omega
  have hpatch : (s₂.emit (.jump 0)).code.set s₁.code.length (.jumpZero (codeA.length + 1)) =
      s₁.code ++ Instr.jumpZero (codeA.length + 1) :: (codeA ++ [Instr.jump 0]) := by
    rw [hcodeA, set_length]
  have hsame₅ := ((hsame₂.trans hsame₃).trans hsame₄).code
    (s₁.code ++ Instr.jumpZero (codeA.length + 1) :: (codeA ++ [Instr.jump 0]))
  rcases hno _ hsame₅.inv (hsame₅.held.trans hsame₁.held) with
    hex | ⟨s₃, codeB, hok₃, hcode₃, hsame₆, hmeans₃⟩
  · left
    simp only [hok₁, patched, hok₂, bind, Except.bind, hskip, hpatch, hex]
  -- So is the jump over the second arm, to the end.
  have hcodeB : s₃.code = (s₁.code ++ Instr.jumpZero (codeA.length + 1) :: codeA) ++
      Instr.jump 0 :: codeB := by
    rw [hcode₃]
    simp only [List.append_assoc, List.cons_append, List.nil_append]
  have hat :
      (s₁.code ++ Instr.jumpZero (codeA.length + 1) :: (codeA ++ [Instr.jump 0])).length - 1 =
      (s₁.code ++ Instr.jumpZero (codeA.length + 1) :: codeA).length := by
    simp only [List.length_append, List.length_cons, List.length_nil]
    omega
  have hskip' : s₃.code.length -
      (s₁.code ++ Instr.jumpZero (codeA.length + 1) :: (codeA ++ [Instr.jump 0])).length =
      codeB.length := by
    rw [hcode₃]
    simp only [List.length_append]
    omega
  refine Or.inr ⟨{ s₃ with
    code := (s₁.code ++ Instr.jumpZero (codeA.length + 1) :: codeA) ++ Instr.jump codeB.length :: codeB },
    codeC ++ Instr.jumpZero (codeA.length + 1) :: (codeA ++ Instr.jump codeB.length :: codeB), ?_, ?_,
    ((hsame₁.trans hsame₅).trans hsame₆).code _, fun m v hmv => ?_⟩
  · simp only [hok₁, patched, hok₂, bind, Except.bind, hskip, hpatch, hok₃, hat, hskip']
    rw [hcodeB, set_length]
  · simp only [hcode₁, List.append_assoc, List.cons_append]
  obtain ⟨b, hb, harms⟩ := hmeans m v hmv
  obtain ⟨-, m₁, hrun, hrax, hf, hslots⟩ := hmeans₁ m (.bool b) hb
  have hagree : m.Agrees s.held m₁ := ⟨hf, hslots⟩
  have ha := fun hb => hmeans₂ m₁ v ((harms m₁ hagree).1 hb)
  have hb := fun hb => hmeans₃ m₁ v ((harms m₁ hagree).2 hb)
  rw [hsame₂.held, hsame₁.held] at ha
  rw [hsame₅.held, hsame₁.held] at hb
  refine ⟨?_, yields_ite hrun hagree hrax (fun h => (ha h).2) fun h => (hb h).2⟩
  cases b with
  | true => exact (ha rfl).1
  | false => exact (hb rfl).1

/-- **A logical operator**: the second operand is behind a jump. -/
lemma emits_logical {s : Emit} {jump : Nat → Instr} {decides : Bool}
    (hjump : ∀ n, (jump n).reads = [] ∧ (jump n).writes = [])
    (hrunjump : ∀ n code m, run (jump n :: code) m =
      if (m.rax = 0) = (decides = false) then if n ≤ code.length then run (code.drop n) m else none
      else run code m)
    {first second : Emit → Except Stop Emit} {means meansA meansB : Machine → Value → Prop}
    (hfirst : Emits first s meansA)
    (hsecond : ∀ s', s'.Inv → s'.held = s.held → Emits second s' meansB)
    (hmeans : ∀ m v, means m v → ∃ b, meansA m (.bool b) ∧ (b = decides → v = .bool b) ∧
      ∀ m', m.Agrees s.held m' → b ≠ decides → meansB m' v) :
    Emits (fun s => do patched jump second (← first s)) s means := by
  rcases hfirst with hex | ⟨s₁, codeA, hok₁, hcode₁, hsame₁, hmeans₁⟩
  · left
    simp only [hex, bind, Except.bind]
  rcases patched_emits hsame₁.inv hjump
    (fun s' h' hheld => hsecond s' h' (hheld.trans hsame₁.held)) with
    hex | ⟨s₂, codeB, hok₂, hcode₂, hsame₂, hmeans₂⟩
  · left
    simp only [hok₁, hex, bind, Except.bind]
  refine Or.inr ⟨s₂, codeA ++ jump codeB.length :: codeB, ?_, ?_, hsame₁.trans hsame₂,
    fun m v hmv => ?_⟩
  · simp only [hok₁, hok₂, bind, Except.bind]
  · rw [hcode₂, hcode₁, List.append_assoc]
  obtain ⟨b, hb, hdecides, hrest⟩ := hmeans m v hmv
  obtain ⟨-, m₁, hrun, hrax, hf, hslots⟩ := hmeans₁ m (.bool b) hb
  have hagree : m.Agrees s.held m₁ := ⟨hf, hslots⟩
  have hb' := fun hd => hmeans₂ m₁ v (hrest m₁ hagree hd)
  rw [hsame₁.held] at hb'
  refine ⟨?_, yields_logical hrunjump hrun hagree hrax (fun hd => by rw [hdecides hd]; rfl)
    fun hd => (hb' hd).2⟩
  by_cases hd : b = decides
  · rw [hdecides hd]
    trivial
  · exact (hb' hd).1

omit C bound input numeric env in
/-- The value of a logical operator comes from the operand that decides it. -/
lemma evalExpr_decides {op : BinOp} (hop : op = .and ∨ op = .or) {C : Interpreter.Context}
    {call : Rule → Value → Outcome Value} {values : Env} {a b : Expr} {v : Value}
    (h : evalExpr C call values (.binary op a b) = .ok v) :
    ∃ x, evalExpr C call values a = .ok (.bool x) ∧ (x = decide (op = .or) → v = .bool x) ∧
      (x ≠ decide (op = .or) → evalExpr C call values b = .ok v) := by
  simp only [evalExpr] at h
  obtain ⟨x, hx, h⟩ := Except.bind_eq_ok.mp h
  rw [if_pos hop] at h
  cases x <;> try cases h
  rename_i x
  refine ⟨x, hx, ?_, fun hd => ?_⟩
  · rintro rfl
    rcases hop with rfl | rfl <;> cases h <;> rfl
  · have hcase : shortCircuits op x = false := by
      rcases hop with rfl | rfl <;> cases x <;> simp_all [shortCircuits]
    simp only [hcase, Bool.false_eq_true, if_false] at h
    obtain ⟨y, hy, h⟩ := Except.bind_eq_ok.mp h
    cases y <;> cases h
    exact hy

/-- Two literals are compared in the compiler. -/
lemma expr_literals (ctx : Context) (rule : Rule → Emit → Except Stop Emit) (x y : Int64)
    (s : Emit) :
    expr ctx rule input env (.binary .eq (.number x) (.number y)) s =
      .ok (s.emit (.mov (bit (x = y)))) := rfl

/-- A strict operator evaluates both operands. -/
lemma expr_binary (ctx : Context) (rule : Rule → Emit → Except Stop Emit) {op : BinOp} {a b : Expr}
    (hand : op ≠ .and) (hor : op ≠ .or)
    (hliterals : ∀ x y, ¬ (op = .eq ∧ a = .number x ∧ b = .number y)) (s : Emit) :
    expr ctx rule input env (.binary op a b) s = (do
      let (p, s₁) ← operand ctx.limit (borrow ctx.fields env a) (expr ctx rule input env a) s
      let (q, s₂) ← operand ctx.limit (borrow ctx.fields env b) (expr ctx rule input env b) s₁
      drain s.temporaries.length (s₂.emit (.binary (.op op) (operandPlace ctx.fields 0 p)
        (operandPlace ctx.fields 1 q)))) := by
  unfold expr
  split
  · exact absurd ⟨rfl, rfl, rfl⟩ (hliterals _ _)
  · exact absurd rfl hand
  · exact absurd rfl hor
  · rfl

variable {ctx : Context} {rule : Rule → Emit → Except Stop Emit} {callable : String → Prop}
  (hnames : ∀ n ∈ numeric, n ∈ ctx.fields)
  (hcall : ∀ n, callable n → ∃ callee, ctx.rules.lookup n = some callee ∧
    C.findRule n = some callee ∧ ∀ s, s.Inv → Emits (rule callee) s (RuleMeans C numeric callee))

/-- No field of the input has the key of an operand. -/
def Uncaptured (fields : List String) (operands : List Nat) : Prop :=
  ∀ i ∈ operands, bindKey ("__bounds_" ++ toString i) ∉ fields

lemma operandPlace_eq {fields : List String} {operands : List Nat} (h : Uncaptured fields operands)
    {i : Nat} (hi : i ∈ operands) (p : Place) : operandPlace fields i p = p := if_neg (h i hi)

include hnames hcall

/-- **The code of an expression** keeps the slots that are held and gives its value, by induction on
the expression. -/
theorem expr_emits (e : Expr) : ∀ s, s.Inv → Shaped bound input numeric callable e →
    Resolved bound env s.held e → Uncaptured ctx.fields (operandsOf e) →
    Emits (expr ctx rule input env e) s (ExprMeans C bound input numeric env e) := by
  induction e using Expr.induction_children with
  | step e ih =>
      intro s h hshape hres hfree
      -- An operand in its own emission, and after that of another one.
      have hoperand : ∀ c ∈ e.children, Shaped bound input numeric callable c →
          (∀ n ∈ identsOf c, n ∈ identsOf e) → (∀ i ∈ operandsOf c, i ∈ operandsOf e) →
          ∀ s', s'.Inv → (∀ i ∈ s.held, i ∈ s'.held) →
          OperandAt (operand ctx.limit (borrow ctx.fields env c) (expr ctx rule input env c)) s'
            (ExprMeans C bound input numeric env c) :=
        fun c hc hshape' hidents hoperands s' h' hsub =>
          operand_at h' hshape' (hres.mono hidents hsub) hnames
            (ih c hc s' h' hshape' (hres.mono hidents hsub) fun i hi => hfree i (hoperands i hi))
      have hunary : ∀ (op : Unary) (f : Value → Outcome Value) (c : Expr), c ∈ e.children →
          Shaped bound input numeric callable c → (∀ n ∈ identsOf c, n ∈ identsOf e) →
          (∀ i ∈ operandsOf c, i ∈ operandsOf e) → 0 ∈ operandsOf e →
          (∀ values fuel, evalExpr C (evalRule C fuel) values e =
            (evalExpr C (evalRule C fuel) values c >>= f)) →
          (∀ a v, f a = .ok v → IsScalar v ∧ op.apply (encode a) = encode v) →
          Emits (fun s => do
            let (p, s') ← operand ctx.limit (borrow ctx.fields env c) (expr ctx rule input env c) s
            drain s.temporaries.length (s'.emit (.unary op (operandPlace ctx.fields 0 p)))) s
            (ExprMeans C bound input numeric env e) := by
        intro op f c hc hshape' hidents hoperands hzero heq happly
        refine emits_unary op (operandPlace_eq hfree hzero)
          (hoperand c hc hshape' hidents hoperands s h fun _ hi => hi) fun m v hmv => ?_
        obtain ⟨values, fields, fuel, hholds, heval⟩ := hmv
        rw [heq] at heval
        obtain ⟨a, ha, hv⟩ := Except.bind_eq_ok.mp heval
        exact ⟨a, ⟨values, fields, fuel, hholds.mono hidents, ha⟩, happly a v hv⟩
      have hbinary : ∀ (op : Binary) (f : Value → Value → Outcome Value) (a b : Expr),
          a ∈ e.children → b ∈ e.children → Shaped bound input numeric callable a →
          Shaped bound input numeric callable b → (∀ n ∈ identsOf a, n ∈ identsOf e) →
          (∀ n ∈ identsOf b, n ∈ identsOf e) → (∀ i ∈ operandsOf a, i ∈ operandsOf e) →
          (∀ i ∈ operandsOf b, i ∈ operandsOf e) → 0 ∈ operandsOf e → 1 ∈ operandsOf e →
          (∀ values fuel, evalExpr C (evalRule C fuel) values e = (do
            f (← evalExpr C (evalRule C fuel) values a)
              (← evalExpr C (evalRule C fuel) values b))) →
          (∀ x y v, IsScalar x → IsScalar y → f x y = .ok v →
            IsScalar v ∧ op.apply (encode x) (encode y) = some (encode v)) →
          Emits (fun s => do
            let (p, s₁) ← operand ctx.limit (borrow ctx.fields env a) (expr ctx rule input env a) s
            let (q, s₂) ← operand ctx.limit (borrow ctx.fields env b) (expr ctx rule input env b) s₁
            drain s.temporaries.length (s₂.emit (.binary op (operandPlace ctx.fields 0 p)
              (operandPlace ctx.fields 1 q)))) s (ExprMeans C bound input numeric env e) := by
        intro op f a b ha hb hshapea hshapeb hidentsa hidentsb hopsa hopsb hzero hone heq happly
        have hfirst := hoperand a ha hshapea hidentsa hopsa s h fun _ hi => hi
        have hsecond := hoperand b hb hshapeb hidentsb hopsb
        refine emits_binary op (operandPlace_eq hfree hzero) (operandPlace_eq hfree hone) hfirst
          hsecond fun m v hmv => ?_
        obtain ⟨values, fields, fuel, hholds, heval⟩ := hmv
        rw [heq] at heval
        obtain ⟨x, hx, heval⟩ := Except.bind_eq_ok.mp heval
        obtain ⟨y, hy, hv⟩ := Except.bind_eq_ok.mp heval
        exact ⟨x, y, ⟨values, fields, fuel, hholds.mono hidentsa, hx⟩,
          fun m' hm' => ⟨values, fields, fuel, (hholds.agrees hres hm').mono hidentsb, hy⟩,
          fun hsx hsy => happly x y v hsx hsy hv⟩
      cases e <;> try exact hshape.elim
      case number n =>
        refine emits_emit h (by simp [Instr.reads]) (by simp [Instr.writes]) ?_
        rintro m v ⟨values, fields, fuel, hholds, heval⟩
        cases heval
        exact ⟨trivial, by rw [run, run]; rfl⟩
      case ident n =>
        have hmem : n ∈ identsOf (.ident n) := by simp [identsOf, Expr.collect]
        obtain ⟨i, hi, henv⟩ := hres n hmem hshape
        have hcode : expr ctx rule input env (.ident n) =
            fun s => .ok (s.emit (.load (.slot i))) := by
          funext s'
          simp only [expr, henv]
        rw [hcode]
        refine emits_emit h (fun j hj => ?_) (by simp [Instr.writes]) ?_
        · simp only [Instr.reads, List.mem_singleton] at hj
          exact hj ▸ hi
        · rintro m v ⟨values, fields, fuel, hholds, heval⟩
          obtain ⟨j, w, hj, hw, hs, hslot⟩ := hholds.locals n hmem hshape
          rw [henv] at hj
          cases hj
          rw [evalExpr, hw] at heval
          cases heval
          refine ⟨hs, ?_⟩
          rw [run, run]
          simp only [Machine.read, hslot]
      case field base n =>
        obtain ⟨⟨rfl, hinput⟩, hn⟩ := hshape
        have hcode : expr ctx rule input env (.field (.ident input) n) =
            fun s => .ok (s.emit (.load (.field n))) := by
          funext s'
          simp only [expr, if_pos (hnames n hn)]
        rw [hcode]
        refine emits_emit h (by simp [Instr.reads]) (by simp [Instr.writes]) ?_
        rintro m v ⟨values, fields, fuel, hholds, heval⟩
        obtain ⟨k, hk, hmk⟩ := hholds.fields n hn
        simp only [evalExpr, hholds.record hinput, bind, Except.bind, hk, Except.ok.injEq] at heval
        subst heval
        refine ⟨trivial, ?_⟩
        rw [run, run]
        simp only [Machine.read, hmk, encode]
      case call n args =>
        obtain ⟨⟨rfl, hinput⟩, hn⟩ := hshape
        obtain ⟨callee, hlookup, hfind, hemits⟩ := hcall n hn
        have hcode : expr ctx rule input env (.call n [.ident input]) = rule callee := by
          funext s'
          simp only [expr, hlookup]
        rw [hcode]
        rcases hemits s h with hex | ⟨s', code, hok, hcode, hsame, hmeans⟩
        · exact Or.inl hex
        refine Or.inr ⟨s', code, hok, hcode, hsame, ?_⟩
        rintro m v ⟨values, fields, fuel, hholds, heval⟩
        simp only [evalExpr, hfind, hholds.record hinput, bind, Except.bind] at heval
        exact hmeans m v ⟨fields, fuel, hholds.fields, heval⟩
      case not c =>
        exact hunary .not applyNot c (by simp [Expr.children]) hshape
          (by simp [identsOf, Expr.collect]) (by simp +contextual [operandsOf, Expr.collect])
          (by simp [operandsOf, Expr.collect]) (fun _ _ => by rw [evalExpr]) fun _ _ => not_apply
      case neg c =>
        exact hunary .neg applyNeg c (by simp [Expr.children]) hshape
          (by simp [identsOf, Expr.collect]) (by simp +contextual [operandsOf, Expr.collect])
          (by simp [operandsOf, Expr.collect]) (fun _ _ => by rw [evalExpr]) fun _ _ => neg_apply
      case abs c =>
        exact hunary .abs applyAbs c (by simp [Expr.children]) hshape
          (by simp [identsOf, Expr.collect]) (by simp +contextual [operandsOf, Expr.collect])
          (by simp [operandsOf, Expr.collect]) (fun _ _ => by rw [evalExpr]) fun _ _ => abs_apply
      case min a b =>
        exact hbinary .min (numbersOp "min" min) a b (by simp [Expr.children])
          (by simp [Expr.children]) hshape.1 hshape.2 (by simp +contextual [identsOf, Expr.collect])
          (by simp +contextual [identsOf, Expr.collect])
          (by simp +contextual [operandsOf, Expr.collect])
          (by simp +contextual [operandsOf, Expr.collect]) (by simp [operandsOf, Expr.collect])
          (by simp [operandsOf, Expr.collect]) (fun _ _ => by rw [evalExpr])
          fun _ _ _ _ _ => min_apply
      case max a b =>
        exact hbinary .max (numbersOp "max" max) a b (by simp [Expr.children])
          (by simp [Expr.children]) hshape.1 hshape.2 (by simp +contextual [identsOf, Expr.collect])
          (by simp +contextual [identsOf, Expr.collect])
          (by simp +contextual [operandsOf, Expr.collect])
          (by simp +contextual [operandsOf, Expr.collect]) (by simp [operandsOf, Expr.collect])
          (by simp [operandsOf, Expr.collect]) (fun _ _ => by rw [evalExpr])
          fun _ _ _ _ _ => max_apply
      case ite c a b =>
        obtain ⟨hshapec, hshapea, hshapeb⟩ := hshape
        have hidents : ∀ x, x = c ∨ x = a ∨ x = b →
            ∀ n ∈ identsOf x, n ∈ identsOf (.ite c a b) := by
          rintro x (rfl | rfl | rfl) <;> simp +contextual [identsOf, Expr.collect]
        have hops : ∀ x, x = c ∨ x = a ∨ x = b →
            ∀ i ∈ operandsOf x, i ∈ operandsOf (.ite c a b) := by
          rintro x (rfl | rfl | rfl) <;> simp +contextual [operandsOf, Expr.collect]
        have hsub : ∀ x, x = c ∨ x = a ∨ x = b → Shaped bound input numeric callable x →
            ∀ s', s'.Inv → s'.held = s.held →
            Emits (expr ctx rule input env x) s' (ExprMeans C bound input numeric env x) :=
          fun x hx hshape' s' h' hheld => ih x (by
            rcases hx with rfl | rfl | rfl <;> simp [Expr.children]) s' h' hshape'
            (hres.mono (hidents x hx) fun i hi => hheld ▸ hi) fun i hi => hfree i (hops x hx i hi)
        refine emits_ite (hsub c (by simp) hshapec s h rfl) (hsub a (by simp) hshapea)
          (hsub b (by simp) hshapeb) fun m v hmv => ?_
        obtain ⟨values, fields, fuel, hholds, heval⟩ := hmv
        rw [evalExpr] at heval
        obtain ⟨w, hw, heval⟩ := Except.bind_eq_ok.mp heval
        cases w <;> try cases heval
        rename_i w
        refine ⟨w, ⟨values, fields, fuel, hholds.mono (hidents c (by simp)), hw⟩, fun m' hm' => ?_⟩
        have hholds' := hholds.agrees hres hm'
        constructor
        · rintro rfl
          exact ⟨values, fields, fuel, hholds'.mono (hidents a (by simp)), heval⟩
        · rintro rfl
          exact ⟨values, fields, fuel, hholds'.mono (hidents b (by simp)), heval⟩
      case binary op a b =>
        have hidentsa : ∀ n ∈ identsOf a, n ∈ identsOf (.binary op a b) := by
          simp +contextual [identsOf, Expr.collect]
        have hidentsb : ∀ n ∈ identsOf b, n ∈ identsOf (.binary op a b) := by
          simp +contextual [identsOf, Expr.collect]
        have hopsa : ∀ i ∈ operandsOf a, i ∈ operandsOf (.binary op a b) := by
          simp +contextual [operandsOf, Expr.collect]
        have hopsb : ∀ i ∈ operandsOf b, i ∈ operandsOf (.binary op a b) := by
          simp +contextual [operandsOf, Expr.collect]
        have hfirst := ih a (by simp [Expr.children]) s h hshape.1
          (hres.mono hidentsa fun _ hi => hi) fun i hi => hfree i (hopsa i hi)
        have hsecond : ∀ s', s'.Inv → s'.held = s.held →
            Emits (expr ctx rule input env b) s' (ExprMeans C bound input numeric env b) :=
          fun s' h' hheld => ih b (by simp [Expr.children]) s' h' hshape.2
            (hres.mono hidentsb fun i hi => hheld ▸ hi) fun i hi => hfree i (hopsb i hi)
        have hdecides : (op = .and ∨ op = .or) → ∀ m v,
            ExprMeans C bound input numeric env (.binary op a b) m v →
            ∃ x, ExprMeans C bound input numeric env a m (.bool x) ∧
              (x = decide (op = .or) → v = .bool x) ∧
              ∀ m', m.Agrees s.held m' → x ≠ decide (op = .or) →
                ExprMeans C bound input numeric env b m' v := by
          rintro hop m v ⟨values, fields, fuel, hholds, heval⟩
          obtain ⟨x, hx, hfirst, hsecond⟩ := evalExpr_decides hop heval
          exact ⟨x, ⟨values, fields, fuel, hholds.mono hidentsa, hx⟩, hfirst, fun m' hm' hd =>
            ⟨values, fields, fuel, (hholds.agrees hres hm').mono hidentsb, hsecond hd⟩⟩
        by_cases hand : op = .and
        · subst hand
          refine emits_logical (by simp [Instr.reads, Instr.writes]) (fun n code m => ?_) hfirst
            hsecond (hdecides (Or.inl rfl))
          rw [run]
          simp
        by_cases hor : op = .or
        · subst hor
          refine emits_logical (by simp [Instr.reads, Instr.writes]) (fun n code m => ?_) hfirst
            hsecond (hdecides (Or.inr rfl))
          rw [run]
          by_cases hz : m.rax = 0 <;> simp [hz]
        by_cases hliterals : ∃ x y, op = .eq ∧ a = .number x ∧ b = .number y
        · obtain ⟨x, y, rfl, rfl, rfl⟩ := hliterals
          refine emits_emit h (by simp [Instr.reads]) (by simp [Instr.writes]) ?_
          rintro m v ⟨values, fields, fuel, hholds, heval⟩
          cases heval
          exact ⟨trivial, by rw [run, run]; rfl⟩
        · rw [funext (expr_binary ctx rule hand hor fun x y hxy => hliterals ⟨x, y, hxy⟩)]
          refine hbinary (.op op) (applyBinary op) a b (by simp [Expr.children])
            (by simp [Expr.children]) hshape.1 hshape.2 hidentsa hidentsb hopsa hopsb
            (by simp [operandsOf, Expr.collect, hand, hor])
            (by simp [operandsOf, Expr.collect, hand, hor]) (fun values fuel => ?_)
            fun _ _ _ => binary_apply
          rw [evalExpr]
          simp only [hand, hor, or_self, if_false]

end expressions

end Verbosec.Native.NumericSlots
