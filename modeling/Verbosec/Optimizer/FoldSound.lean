import Verbosec.Optimizer.Fold
import Verbosec.Lib.Except

/-!
# Arithmetic of the interpreter and of the folder

* `Arith.exact` - the value of an expression in unbounded arithmetic, `none` where a field is
  missing or a divisor is zero.
* `Safe` - no operator that is reached leaves the 64-bit numbers.
* `evalExpr_spec` - a safe expression is evaluated to its exact value or to a reported error, and
  any other one ends in a panic.
* `optimizeExpr_spec` - the folder gives the exact value of a safe expression.
* `settles_iff` - the interpreter returns a value or a reported error, and agrees with the folder,
  exactly on the safe expressions.
-/

namespace Verbosec.Optimizer

open Verbosec.Lib Verbosec.Interpreter

/-! ## Exact values -/

/-- The exact value of an operator. -/
def ArithOp.exact (op : ArithOp) (x y : Int) : Option Int :=
  match op with
  | add => some (x + y)
  | sub => some (x - y)
  | mul => some (x * y)
  | div => if y = 0 then none else some (x.tdiv y)
  | mod => if y = 0 then none else some (x.tmod y)

/-- The numbers that an operator forms are 64-bit numbers: its value, and for a remainder the
quotient. -/
def ArithOp.Fits (op : ArithOp) (x y : Int) : Prop :=
  match op with
  | add => InI64 (x + y)
  | sub => InI64 (x - y)
  | mul => InI64 (x * y)
  | div | mod => y = 0 ∨ InI64 (x.tdiv y)

/-- The exact value of an expression. -/
def Arith.exact (values : Fields) : Arith → Option Int
  | number n => some n.toInt
  | field base name => (values.get base name).map (·.toInt)
  | binary op left right => do
      let x ← left.exact values
      let y ← right.exact values
      op.exact x y
  | neg inner => (inner.exact values).map (- ·)

/-- Every operator that is reached forms 64-bit numbers. Operands are evaluated from the left, and
nothing is after an operand without a value. -/
def Safe (values : Fields) : Arith → Prop
  | .number _ => True
  | .field _ _ => True
  | .binary op left right =>
      Safe values left ∧ ∀ x, left.exact values = some x →
        Safe values right ∧ ∀ y, right.exact values = some y → op.Fits x y
  | .neg inner => Safe values inner ∧ ∀ x, inner.exact values = some x → InI64 (-x)

/-! ## Evaluation -/

/-- The outcome is the value, or a reported error where there is none. -/
def Follows (o : Outcome Value) : Option Int → Prop
  | none => ∃ err, o = .error (.runtime err)
  | some z => ∃ n : Int64, o = .ok (.number n) ∧ n.toInt = z

/-- The outcome is the panic of an arithmetic operation. -/
def Panics (o : Outcome Value) : Prop := ∃ op, o = .error (.overflow op)

/-- A checked operation has the exact value, or panics. -/
lemma arith_spec {name : String} {o : Option Int64} {z : Int}
    (ho : ∀ n, o = some n ↔ n.toInt = z) :
    (InI64 z → Follows (arith name o) (some z)) ∧ (¬ InI64 z → Panics (arith name o)) := by
  constructor
  · intro hz
    obtain ⟨n, -, hn⟩ := exists_toI64? hz
    rw [(ho n).mpr hn]
    exact ⟨n, rfl, hn⟩
  · intro hz
    cases o with
    | none => exact ⟨name, rfl⟩
    | some n =>
        refine absurd ?_ hz
        rw [← (ho n).mp rfl]
        exact inI64_toInt n

/-- What an operator does to two numbers. -/
lemma applyBinary_spec (op : ArithOp) (a b : Int64) :
    (op.Fits a.toInt b.toInt → Follows (applyBinary op.toBinOp (.number a) (.number b))
      (op.exact a.toInt b.toInt)) ∧
    (¬ op.Fits a.toInt b.toInt → Panics (applyBinary op.toBinOp (.number a) (.number b))) := by
  cases op with
  | add => exact arith_spec fun n => checkedAdd_eq_some
  | sub => exact arith_spec fun n => checkedSub_eq_some
  | mul => exact arith_spec fun n => checkedMul_eq_some
  | div =>
      show (b.toInt = 0 ∨ InI64 (a.toInt.tdiv b.toInt) → Follows (if b = 0 then fail .divisionByZero
          else arith "divide" (checkedDiv a b)) (if b.toInt = 0 then none else _)) ∧
        (¬ (b.toInt = 0 ∨ InI64 (a.toInt.tdiv b.toInt)) → Panics (if b = 0 then _ else _))
      by_cases hb : b = 0
      · subst hb
        exact ⟨fun _ => ⟨_, rfl⟩, fun h => absurd (.inl rfl) h⟩
      · have hb' : b.toInt ≠ 0 := fun h => hb (Int64.toInt_inj.mp h)
        have hspec := @arith_spec "divide" (checkedDiv a b)
          (a.toInt.tdiv b.toInt) fun n => checkedDiv_eq_some.trans (and_iff_right hb')
        rw [if_neg hb, if_neg hb']
        exact ⟨fun h => hspec.1 (h.resolve_left hb'), fun h => hspec.2 fun h' => h (.inr h')⟩
  | mod =>
      show (b.toInt = 0 ∨ InI64 (a.toInt.tdiv b.toInt) → Follows (if b = 0 then fail .moduloByZero
          else arith "calculate the remainder" (checkedRem a b)) (if b.toInt = 0 then none else _)) ∧
        (¬ (b.toInt = 0 ∨ InI64 (a.toInt.tdiv b.toInt)) → Panics (if b = 0 then _ else _))
      by_cases hb : b = 0
      · subst hb
        exact ⟨fun _ => ⟨_, rfl⟩, fun h => absurd (.inl rfl) h⟩
      · have hb' : b.toInt ≠ 0 := fun h => hb (Int64.toInt_inj.mp h)
        rw [if_neg hb, if_neg hb']
        -- the one remainder that panics is that of the least number by -1
        by_cases hmin : a.toInt = minI64 ∧ b.toInt = -1
        · have hrem : checkedRem a b = none := if_pos (.inr hmin)
          have hbig : ¬ InI64 (a.toInt.tdiv b.toInt) := by
            rw [hmin.1, hmin.2]
            decide
          rw [hrem]
          exact ⟨fun h => absurd (h.resolve_left hb') hbig, fun _ => ⟨_, rfl⟩⟩
        · have hspec := @arith_spec "calculate the remainder" (checkedRem a b)
            (a.toInt.tmod b.toInt) fun n =>
              checkedRem_eq_some.trans ((and_iff_right hb').trans (and_iff_right hmin))
          exact ⟨fun _ => hspec.1 (inI64_tmod a b), fun h => absurd (.inr (inI64_tdiv hmin)) h⟩

section evaluation

variable (ctx : Context) (call : Rule → Value → Outcome Value) {values : Fields}

/-- A field is the number in its record. -/
lemma evalExpr_field (base name : String) :
    Follows (evalExpr ctx call values.toEnv (Arith.field base name).toExpr)
      ((Arith.field base name).exact values) := by
  have hbase : values.toEnv.lookup base = (values.lookup base).map recordValue :=
    Dict.lookup_map_entries Function.injective_id recordValue values base
  simp only [Arith.toExpr, Arith.exact, evalExpr, Fields.get, hbase]
  cases values.lookup base with
  | none => exact ⟨_, rfl⟩
  | some fields =>
      have hname : List.lookup name (fields.map fun f => (f.1, Value.number f.2)) =
          (fields.lookup name).map .number :=
        Dict.lookup_map_entries Function.injective_id Value.number fields name
      simp only [Option.map_some, recordValue, bind, Except.bind, Option.bind, hname]
      cases fields.lookup name with
      | none => exact ⟨_, rfl⟩
      | some n => exact ⟨n, rfl, rfl⟩

/-- An operator evaluates both operands from the left. -/
lemma evalExpr_binary (env : Env) (op : ArithOp) (left right : Arith) :
    evalExpr ctx call env (Arith.binary op left right).toExpr = (do
      let l ← evalExpr ctx call env left.toExpr
      let r ← evalExpr ctx call env right.toExpr
      applyBinary op.toBinOp l r) := by
  cases op <;> rfl

/-- A safe expression is evaluated to its exact value, or to a reported error where it has none.
Any other one ends in a panic. -/
lemma evalExpr_spec (e : Arith) :
    (Safe values e → Follows (evalExpr ctx call values.toEnv e.toExpr) (e.exact values)) ∧
      (¬ Safe values e → Panics (evalExpr ctx call values.toEnv e.toExpr)) := by
  induction e with
  | number n => exact ⟨fun _ => ⟨n, rfl, rfl⟩, fun h => absurd trivial h⟩
  | field base name => exact ⟨fun _ => evalExpr_field ctx call base name, fun h => absurd trivial h⟩
  | neg inner ih =>
      simp only [Arith.toExpr, evalExpr, Safe, Arith.exact]
      by_cases hinner : Safe values inner
      · have hfollows := ih.1 hinner
        cases hx : inner.exact values with
        | none =>
            rw [hx] at hfollows
            obtain ⟨err, herr⟩ := hfollows
            rw [herr]
            exact ⟨fun _ => ⟨err, rfl⟩, fun h => absurd ⟨hinner, nofun⟩ h⟩
        | some x =>
            rw [hx] at hfollows
            obtain ⟨n, hn, rfl⟩ := hfollows
            rw [hn]
            have hspec := @arith_spec "negate" (checkedNeg n) (-n.toInt)
              fun _ => checkedNeg_eq_some
            refine ⟨fun h => hspec.1 (h.2 _ rfl), fun h => hspec.2 fun hfit => h ⟨hinner, ?_⟩⟩
            rintro _ ⟨⟩
            exact hfit
      · obtain ⟨op, hop⟩ := ih.2 hinner
        rw [hop]
        exact ⟨fun h => absurd h.1 hinner, fun _ => ⟨op, rfl⟩⟩
  | binary op left right ihl ihr =>
      rw [evalExpr_binary]
      simp only [Safe, Arith.exact]
      by_cases hleft : Safe values left
      · have hl := ihl.1 hleft
        cases hx : left.exact values with
        | none =>
            rw [hx] at hl
            obtain ⟨err, herr⟩ := hl
            rw [herr]
            exact ⟨fun _ => ⟨err, rfl⟩, fun h => absurd ⟨hleft, nofun⟩ h⟩
        | some x =>
            rw [hx] at hl
            obtain ⟨a, ha, rfl⟩ := hl
            rw [ha]
            by_cases hright : Safe values right
            · have hr := ihr.1 hright
              cases hy : right.exact values with
              | none =>
                  rw [hy] at hr
                  obtain ⟨err, herr⟩ := hr
                  rw [herr]
                  refine ⟨fun _ => ⟨err, rfl⟩, fun h => absurd ⟨hleft, ?_⟩ h⟩
                  rintro _ -
                  exact ⟨hright, nofun⟩
              | some y =>
                  rw [hy] at hr
                  obtain ⟨b, hb, rfl⟩ := hr
                  rw [hb]
                  have hspec := applyBinary_spec op a b
                  refine ⟨fun h => hspec.1 ((h.2 _ rfl).2 _ rfl),
                    fun h => hspec.2 fun hfit => h ⟨hleft, ?_⟩⟩
                  rintro _ ⟨⟩
                  refine ⟨hright, ?_⟩
                  rintro _ ⟨⟩
                  exact hfit
            · obtain ⟨name, hname⟩ := ihr.2 hright
              rw [hname]
              exact ⟨fun h => absurd (h.2 _ rfl).1 hright, fun _ => ⟨name, rfl⟩⟩
      · obtain ⟨name, hname⟩ := ihl.2 hleft
        rw [hname]
        exact ⟨fun h => absurd h.1 hleft, fun _ => ⟨name, rfl⟩⟩

end evaluation

/-! ## The folder -/

/-- A number in range is its own residue. -/
lemma bmod_of_inI64 {z : Int} (h : InI64 z) : z.bmod (2 ^ 64) = z := by
  unfold InI64 minI64 maxI64 at h
  refine Int.bmod_eq_of_le ?_ ?_ <;> omega

/-- The folder gives the exact value of an operator. -/
lemma foldNumbers_spec {op : ArithOp} {a b : Int64} {z : Int}
    (hz : op.exact a.toInt b.toInt = some z) (hfit : op.Fits a.toInt b.toInt) :
    ∃ n, foldNumbers op a b = some n ∧ n.toInt = z := by
  cases op with
  | add =>
      cases hz
      exact ⟨a + b, rfl, (Int64.toInt_add a b).trans (bmod_of_inI64 hfit)⟩
  | sub =>
      cases hz
      exact ⟨a - b, rfl, (Int64.toInt_sub a b).trans (bmod_of_inI64 hfit)⟩
  | mul =>
      cases hz
      exact ⟨a * b, rfl, (Int64.toInt_mul a b).trans (bmod_of_inI64 hfit)⟩
  | div =>
      simp only [ArithOp.exact] at hz
      split at hz
      · cases hz
      case isFalse hb =>
        cases hz
        obtain ⟨n, -, hn⟩ := exists_toI64? (hfit.resolve_left hb)
        exact ⟨n, checkedDiv_eq_some.mpr ⟨hb, hn⟩, hn⟩
  | mod =>
      simp only [ArithOp.exact] at hz
      split at hz
      · cases hz
      case isFalse hb =>
        cases hz
        obtain ⟨n, -, hn⟩ := exists_toI64? (inI64_tmod a b)
        refine ⟨n, checkedRem_eq_some.mpr ⟨hb, fun hmin => ?_, hn⟩, hn⟩
        have hbig := hfit.resolve_left hb
        rw [hmin.1, hmin.2] at hbig
        exact absurd hbig (by decide)

/-- The folder gives the exact value of a safe expression, at the values of its fields. -/
lemma optimizeExpr_spec (inputName : String) (ranges : FieldRanges) {values : Fields} {e : Arith}
    (hsafe : Safe values e) {z : Int} (hz : e.exact values = some z) :
    ∃ n, optimizeExpr inputName ranges (e.constants values) = .number n ∧ n.toInt = z := by
  induction e generalizing z with
  | number n =>
      cases hz
      exact ⟨n, rfl, rfl⟩
  | field base name =>
      obtain ⟨n, hn, rfl⟩ := Option.map_eq_some_iff.mp hz
      refine ⟨n, ?_, rfl⟩
      rw [Arith.constants, hn]
      rfl
  | neg inner ih =>
      obtain ⟨x, hx, rfl⟩ := Option.map_eq_some_iff.mp hz
      obtain ⟨n, hn, rfl⟩ := ih hsafe.1 hx
      refine ⟨-n, ?_, (Int64.toInt_neg n).trans (bmod_of_inI64 (hsafe.2 _ hx))⟩
      rw [Arith.constants, optimizeExpr, hn, optimizeNeg]
  | binary op left right ihl ihr =>
      obtain ⟨x, hx, hz⟩ := Option.bind_eq_some_iff.mp hz
      obtain ⟨y, hy, hz⟩ := Option.bind_eq_some_iff.mp hz
      obtain ⟨hright, hfit⟩ := hsafe.2 x hx
      obtain ⟨a, ha, rfl⟩ := ihl hsafe.1 hx
      obtain ⟨b, hb, rfl⟩ := ihr hright hy
      obtain ⟨n, hn, hval⟩ := foldNumbers_spec hz (hfit _ hy)
      refine ⟨n, ?_, hval⟩
      rw [Arith.constants, optimizeExpr, ha, hb, optimizeBinary, hn]

/-! ## Agreement -/

/-- The interpreter returns a value or a reported error, and a value is the one of the folder for
the same constants. -/
def Settles (ctx : Context) (call : Rule → Value → Outcome Value) (inputName : String)
    (ranges : FieldRanges) (values : Fields) (e : Arith) : Prop :=
  ((∃ v, evalExpr ctx call values.toEnv e.toExpr = .ok v) ∨
    ∃ err, evalExpr ctx call values.toEnv e.toExpr = .error (.runtime err)) ∧
  ∀ v, evalExpr ctx call values.toEnv e.toExpr = .ok v →
    ∃ n, v = .number n ∧ optimizeExpr inputName ranges (e.constants values) = .number n

/-- The interpreter returns a value or a reported error, and agrees with the folder, exactly when no
operator that is reached leaves the 64-bit numbers. -/
theorem settles_iff (ctx : Context) (call : Rule → Value → Outcome Value) (inputName : String)
    (ranges : FieldRanges) (values : Fields) (e : Arith) :
    Settles ctx call inputName ranges values e ↔ Safe values e := by
  obtain ⟨hfollows, hpanics⟩ := @evalExpr_spec ctx call values e
  constructor
  · rintro ⟨hends, -⟩
    by_contra hsafe
    obtain ⟨op, hop⟩ := hpanics hsafe
    rcases hends with ⟨v, hv⟩ | ⟨err, herr⟩
    · cases hop.symm.trans hv
    · cases hop.symm.trans herr
  · intro hsafe
    have h := hfollows hsafe
    cases hz : e.exact values with
    | none =>
        rw [hz] at h
        obtain ⟨err, herr⟩ := h
        refine ⟨.inr ⟨err, herr⟩, fun v hv => ?_⟩
        cases herr.symm.trans hv
    | some z =>
        rw [hz] at h
        obtain ⟨n, hn, hval⟩ := h
        refine ⟨.inl ⟨_, hn⟩, fun v hv => ?_⟩
        cases hn.symm.trans hv
        obtain ⟨m, hm, hval'⟩ := optimizeExpr_spec inputName ranges hsafe hz
        obtain rfl : n = m := Int64.toInt_inj.mp (hval.trans hval'.symm)
        exact ⟨n, rfl, hm⟩

/-- The least number divided by -1 is no value and no reported error. -/
theorem least_by_minus_one :
    ¬ Settles ⟨[], [], [], [], [], {}⟩ (fun _ v => .ok v) "i" (fun _ => none)
      [("i", [("a", -9223372036854775808), ("b", -1)])]
      (.binary .div (.field "i" "a") (.field "i" "b")) := by
  rintro ⟨h | h, -⟩
  · obtain ⟨v, hv⟩ := h
    cases hv
  · obtain ⟨err, herr⟩ := h
    cases herr

end Verbosec.Optimizer
