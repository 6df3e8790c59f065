import Verbosec.Lib.Except
import Verbosec.Lib.Interval
import Verbosec.Optimizer.Fold

/-!
# The range of an expression

* `computeRange` - the bounds of an expression, from those of the fields of the input.
* `InRanges` - a record is within the bounds of the fields.
* `FailsInCondition` - the evaluation of an expression ends inside the condition of an `if`.
* `binaryRange_sound` - an operator on numbers within bounds neither overflows nor divides by zero.
* `computeRange_sound` - the value is within the bounds, unless a condition fails.

Source: `verifier.rs`, `compute_range`.
-/

namespace Verbosec.Verifier

open Verbosec.Lib Interpreter
open Optimizer (ArithOp FieldRanges corners modRange binaryRange)

/-! ## The analysis -/

/-- The arithmetic operator of a binary operator. -/
def arithOp : BinOp → Option ArithOp
  | .add => some .add
  | .sub => some .sub
  | .mul => some .mul
  | .div => some .div
  | .mod => some .mod
  | _ => none

/-- Source: `verifier.rs`, `compute_range` -/
def computeRange (inputName : String) (ranges : FieldRanges) : Expr → Option (Int64 × Int64)
  | .number n => some (n, n)
  | .field base name =>
      match base with
      | .ident n => if n = inputName then ranges name else none
      | _ => none
  | .binary op left right => do
      let l ← computeRange inputName ranges left
      let r ← computeRange inputName ranges right
      let op ← arithOp op
      binaryRange op l r
  | .neg inner => do
      let (lo, hi) ← computeRange inputName ranges inner
      some (← checkedNeg hi, ← checkedNeg lo)
  | .ite _ yes no => do
      let t ← computeRange inputName ranges yes
      let e ← computeRange inputName ranges no
      some (min t.1 e.1, max t.2 e.2)
  | _ => none

/-- Every bounded field of a record is a number within its bounds. -/
def InRanges (ranges : FieldRanges) (fields : Dict String Value) : Prop :=
  ∀ name r, ranges name = some r → ∃ n, fields.lookup name = some (.number n) ∧ r.1 ≤ n ∧ n ≤ r.2

/-! ## Operators -/

/-- The numbers between two bounds. -/
def InBounds (r : Int64 × Int64) (n : Int64) : Prop := r.1 ≤ n ∧ n ≤ r.2

lemma within_iff {r : Int64 × Int64} {n : Int64} :
    InBounds r n ↔ n.toInt ∈ Set.Icc r.1.toInt r.2.toInt := by
  unfold InBounds
  rw [Int64.le_iff_toInt_le, Int64.le_iff_toInt_le, Set.mem_Icc]

/-- A number with bounds is a word. -/
lemma exists_within {z : Int} {r : Int64 × Int64} (hlo : r.1.toInt ≤ z) (hhi : z ≤ r.2.toInt) :
    ∃ n : Int64, n.toInt = z ∧ InBounds r n := by
  obtain ⟨n, -, hn⟩ := exists_toI64? (.of_between (inI64_toInt r.1) (inI64_toInt r.2) hlo hhi)
  exact ⟨n, hn, within_iff.mpr ⟨by omega, by omega⟩⟩

lemma toInt_min (a b : Int64) : (min a b).toInt = min a.toInt b.toInt := by
  show (if a ≤ b then a else b).toInt = _
  split <;> rename_i h <;> rw [Int64.le_iff_toInt_le] at h <;> omega

lemma toInt_max (a b : Int64) : (max a b).toInt = max a.toInt b.toInt := by
  show (if a ≤ b then b else a).toInt = _
  split <;> rename_i h <;> rw [Int64.le_iff_toInt_le] at h <;> omega

/-- The four corners, as numbers. -/
lemma corners_eq {f : Int64 → Int64 → Option Int64} {g : Int → Int → Int}
    (hf : ∀ x y z, f x y = some z → z.toInt = g x.toInt y.toInt) {l r s : Int64 × Int64}
    (h : corners f l r = some s) :
    s.1.toInt = cornerMin g l.1.toInt l.2.toInt r.1.toInt r.2.toInt ∧
      s.2.toInt = cornerMax g l.1.toInt l.2.toInt r.1.toInt r.2.toInt := by
  obtain ⟨a, ha, h⟩ := Option.bind_eq_some_iff.mp h
  obtain ⟨b, hb, h⟩ := Option.bind_eq_some_iff.mp h
  obtain ⟨c, hc, h⟩ := Option.bind_eq_some_iff.mp h
  obtain ⟨d, hd, h⟩ := Option.bind_eq_some_iff.mp h
  cases h
  unfold cornerMin cornerMax
  simp only [toInt_min, toInt_max, hf _ _ _ ha, hf _ _ _ hb, hf _ _ _ hc, hf _ _ _ hd]
  exact ⟨trivial, trivial⟩

/-- The operator on a binary operator's numbers. -/
lemma applyBinary_of_word {op : BinOp} {a b n : Int64} {name : String} {o : Option Int64}
    (hop : applyBinary op (.number a) (.number b) = arith name o) (ho : o = some n) :
    applyBinary op (.number a) (.number b) = .ok (.number n) := by
  rw [hop, ho]
  rfl

/-- The remainder of a number within bounds. -/
lemma modRange_sound {l r s : Int64 × Int64} (h : modRange l r = some s) {x y : Int64}
    (hx : InBounds l x) (hy : InBounds r y) :
    y.toInt ≠ 0 ∧ ¬ (x.toInt = minI64 ∧ y.toInt = -1) ∧ s.1.toInt ≤ x.toInt.tmod y.toInt ∧
      x.toInt.tmod y.toInt ≤ s.2.toInt := by
  have hx' := within_iff.mp hx
  have hy' := within_iff.mp hy
  rw [Set.mem_Icc] at hx' hy'
  unfold modRange at h
  split at h
  · cases h
  rename_i hsafe
  cases h
  simp only [Int64.le_iff_toInt_le, Int64.toInt_zero] at hsafe
  have hone : (-1 : Int64).toInt = -1 := rfl
  rw [hone] at hsafe
  have hminx := minI64_le_toInt x
  have hminl := minI64_le_toInt l.1
  have hy0 : y.toInt ≠ 0 := by omega
  have hlow := inI64_toInt r.1
  have hhigh := inI64_toInt r.2
  unfold InI64 minI64 maxI64 at hlow hhigh
  generalize hm : max r.1.toInt.natAbs r.2.toInt.natAbs = m
  have hlimit : (Int64.ofInt ((m : Nat) - 1)).toInt = (m : Int) - 1 :=
    toInt_ofInt (by unfold InI64 minI64 maxI64; omega)
  have hneg : (-(Int64.ofInt ((m : Nat) - 1))).toInt = -((m : Int) - 1) := by
    rw [Int64.toInt_neg, hlimit, Int.bmod_eq_of_le (by omega) (by omega)]
  have hbound : (y.toInt.natAbs : Int) ≤ (m : Int) - 1 + 1 := by omega
  have hrem := tmod_mem_limit (x := x.toInt) hy0 hbound
  have hzero : (0 : Int64).toInt = 0 := rfl
  simp only [toInt_min, toInt_max, hneg, hlimit, hzero]
  refine ⟨hy0, by omega, by omega, by omega⟩

/-- **An operator on numbers within bounds** has a value, within the bounds of the result. -/
lemma binaryRange_sound {op : BinOp} {aop : ArithOp} (hop : arithOp op = some aop)
    {l r s : Int64 × Int64} (h : binaryRange aop l r = some s) {x y : Int64} (hx : InBounds l x)
    (hy : InBounds r y) :
    ∃ n, applyBinary op (.number x) (.number y) = .ok (.number n) ∧ InBounds s n := by
  have hx' := within_iff.mp hx
  have hy' := within_iff.mp hy
  cases op <;> cases hop
  case add =>
    obtain ⟨lo, hlo, h⟩ := Option.bind_eq_some_iff.mp h
    obtain ⟨hi, hhi, h⟩ := Option.bind_eq_some_iff.mp h
    cases h
    rw [checkedAdd_eq_some] at hlo hhi
    rw [Set.mem_Icc] at hx' hy'
    obtain ⟨n, hn, hs⟩ := exists_within (z := x.toInt + y.toInt) (r := (lo, hi))
      (by dsimp only; omega) (by dsimp only; omega)
    exact ⟨n, applyBinary_of_word rfl (checkedAdd_eq_some.mpr hn), hs⟩
  case sub =>
    obtain ⟨lo, hlo, h⟩ := Option.bind_eq_some_iff.mp h
    obtain ⟨hi, hhi, h⟩ := Option.bind_eq_some_iff.mp h
    cases h
    rw [checkedSub_eq_some] at hlo hhi
    rw [Set.mem_Icc] at hx' hy'
    obtain ⟨n, hn, hs⟩ := exists_within (z := x.toInt - y.toInt) (r := (lo, hi))
      (by dsimp only; omega) (by dsimp only; omega)
    exact ⟨n, applyBinary_of_word rfl (checkedSub_eq_some.mpr hn), hs⟩
  case mul =>
    obtain ⟨hlo, hhi⟩ := corners_eq (fun _ _ _ => checkedMul_eq_some.mp) h
    obtain ⟨hmin, hmax⟩ := mul_mem_corners hx' hy'
    obtain ⟨n, hn, hs⟩ := exists_within (hlo.trans_le hmin) (hmax.trans_eq hhi.symm)
    exact ⟨n, applyBinary_of_word rfl (checkedMul_eq_some.mpr hn), hs⟩
  case div =>
    unfold binaryRange at h
    simp only at h
    split at h
    · cases h
    rename_i hsafe
    simp only [Int64.le_iff_toInt_le, Int64.toInt_zero] at hsafe
    obtain ⟨hlo, hhi⟩ := corners_eq (fun _ _ _ hz => (checkedDiv_eq_some.mp hz).2) h
    obtain ⟨hmin, hmax⟩ := tdiv_mem_corners (by omega) hx' hy'
    obtain ⟨n, hn, hs⟩ := exists_within (hlo.trans_le hmin) (hmax.trans_eq hhi.symm)
    rw [Set.mem_Icc] at hy'
    have hy0 : y.toInt ≠ 0 := by omega
    have hne : y ≠ 0 := fun hy => hy0 (by rw [hy]; rfl)
    refine ⟨n, ?_, hs⟩
    show (if y = 0 then fail .divisionByZero else arith "divide" (checkedDiv x y)) = _
    rw [if_neg hne, checkedDiv_eq_some.mpr ⟨hy0, hn⟩]
    rfl
  case mod =>
    obtain ⟨hy0, hmin, hlo, hhi⟩ := modRange_sound h hx hy
    obtain ⟨n, hn, hs⟩ := exists_within hlo hhi
    have hne : y ≠ 0 := fun hy => hy0 (by rw [hy]; rfl)
    refine ⟨n, ?_, hs⟩
    show (if y = 0 then fail .moduloByZero
      else arith "calculate the remainder" (checkedRem x y)) = _
    rw [if_neg hne, checkedRem_eq_some.mpr ⟨hy0, hmin, hn⟩]
    rfl

/-! ## Expressions -/

section expressions

variable (ctx : Context) (call : Rule → Value → Outcome Value) (env : Env)

/-- The evaluation of an expression ends, with a failure, inside the condition of an `if`, or at one
that is no truth value. -/
inductive FailsInCondition : Expr → Failure → Prop
  | condition {c a b f} (h : evalExpr ctx call env c = .error f) : FailsInCondition (.ite c a b) f
  | kind {c a b v f} (h : evalExpr ctx call env c = .ok v) (hv : ∀ b, v ≠ .bool b)
      (hf : evalExpr ctx call env (.ite c a b) = .error f) : FailsInCondition (.ite c a b) f
  | yes {c a b f} (hc : evalExpr ctx call env c = .ok (.bool true)) (h : FailsInCondition a f) :
      FailsInCondition (.ite c a b) f
  | no {c a b f} (hc : evalExpr ctx call env c = .ok (.bool false)) (h : FailsInCondition b f) :
      FailsInCondition (.ite c a b) f
  | left {op l r f} (h : FailsInCondition l f) : FailsInCondition (.binary op l r) f
  | right {op l r v f} (hl : evalExpr ctx call env l = .ok v) (h : FailsInCondition r f) :
      FailsInCondition (.binary op l r) f
  | neg {a f} (h : FailsInCondition a f) : FailsInCondition (.neg a) f

/-- The value of an expression is a number within bounds, unless a condition fails. -/
def Computes (e : Expr) (r : Int64 × Int64) : Prop :=
  (∃ n, evalExpr ctx call env e = .ok (.number n) ∧ InBounds r n) ∨
    ∃ f, evalExpr ctx call env e = .error f ∧ FailsInCondition ctx call env e f

variable {ctx call env}

lemma Computes.binary {op : BinOp} {aop : ArithOp} (hop : arithOp op = some aop) {l r : Expr}
    {a b s : Int64 × Int64} (h : binaryRange aop a b = some s) (hl : Computes ctx call env l a)
    (hr : Computes ctx call env r b) : Computes ctx call env (.binary op l r) s := by
  have hstrict : ¬ (op = .and ∨ op = .or) := by
    rintro (rfl | rfl) <;> cases hop
  rcases hl with ⟨x, hx, hxr⟩ | ⟨f, hf, hfail⟩
  · rcases hr with ⟨y, hy, hyr⟩ | ⟨f, hf, hfail⟩
    · obtain ⟨n, hn, hs⟩ := binaryRange_sound hop h hxr hyr
      refine Or.inl ⟨n, ?_, hs⟩
      simp only [evalExpr, hx, hy, bind, Except.bind, if_neg hstrict, hn]
    · refine Or.inr ⟨f, ?_, .right hx hfail⟩
      simp only [evalExpr, hx, hf, bind, Except.bind, if_neg hstrict]
  · refine Or.inr ⟨f, ?_, .left hfail⟩
    simp only [evalExpr, hf, bind, Except.bind]

lemma Computes.neg {a : Expr} {r : Int64 × Int64} (ha : Computes ctx call env a r) {lo hi : Int64}
    (hlo : checkedNeg r.2 = some lo) (hhi : checkedNeg r.1 = some hi) :
    Computes ctx call env (.neg a) (lo, hi) := by
  rw [checkedNeg_eq_some] at hlo hhi
  rcases ha with ⟨x, hx, hxr⟩ | ⟨f, hf, hfail⟩
  · rw [within_iff, Set.mem_Icc] at hxr
    obtain ⟨n, hn, hs⟩ := exists_within (z := -x.toInt) (r := (lo, hi)) (by dsimp only; omega)
      (by dsimp only; omega)
    refine Or.inl ⟨n, ?_, hs⟩
    simp only [evalExpr, hx, bind, Except.bind]
    show arith _ (checkedNeg x) = _
    rw [checkedNeg_eq_some.mpr hn]
    rfl
  · refine Or.inr ⟨f, ?_, .neg hfail⟩
    simp only [evalExpr, hf, bind, Except.bind]

lemma Computes.mono {e : Expr} {r s : Int64 × Int64} (h : Computes ctx call env e r)
    (hlo : s.1 ≤ r.1) (hhi : r.2 ≤ s.2) : Computes ctx call env e s := by
  refine h.imp_left ?_
  rintro ⟨n, hn, hr⟩
  exact ⟨n, hn, Int64.le_trans hlo hr.1, Int64.le_trans hr.2 hhi⟩

lemma Computes.ite (c : Expr) {a b : Expr} {r : Int64 × Int64} (ha : Computes ctx call env a r)
    (hb : Computes ctx call env b r) : Computes ctx call env (.ite c a b) r := by
  cases hc : evalExpr ctx call env c with
  | error f =>
      refine Or.inr ⟨f, ?_, .condition hc⟩
      simp only [evalExpr, hc, bind, Except.bind]
  | ok v =>
      by_cases hv : ∃ b, v = .bool b
      · obtain ⟨t, rfl⟩ := hv
        cases t with
        | true =>
            have heval : evalExpr ctx call env (.ite c a b) = evalExpr ctx call env a := by
              simp only [evalExpr, hc, bind, Except.bind]
            rcases ha with ⟨n, hn, hr⟩ | ⟨f, hf, hfail⟩
            · exact Or.inl ⟨n, heval.trans hn, hr⟩
            · exact Or.inr ⟨f, heval.trans hf, .yes hc hfail⟩
        | false =>
            have heval : evalExpr ctx call env (.ite c a b) = evalExpr ctx call env b := by
              simp only [evalExpr, hc, bind, Except.bind]
            rcases hb with ⟨n, hn, hr⟩ | ⟨f, hf, hfail⟩
            · exact Or.inl ⟨n, heval.trans hn, hr⟩
            · exact Or.inr ⟨f, heval.trans hf, .no hc hfail⟩
      · have hne : ∀ b, v ≠ .bool b := fun b h => hv ⟨b, h⟩
        have heval : evalExpr ctx call env (.ite c a b) =
            fail (.operand "'if' condition must be bool" v) := by
          simp only [evalExpr, hc, bind, Except.bind]
          split
          · exact absurd rfl (hne true)
          · exact absurd rfl (hne false)
          · rfl
        exact Or.inr ⟨_, heval, .kind hc hne heval⟩

variable {inputName : String} {ranges : FieldRanges} {fields : Dict String Value}

/-- **The range of an expression is sound**: outside of the conditions of its `if`s no operation
overflows or divides by zero, and the value is within the range. -/
theorem computeRange_sound (ctx : Context) (call : Rule → Value → Outcome Value) {env : Env}
    {inputName : String} {ranges : FieldRanges} {fields : Dict String Value}
    (hinput : env.lookup inputName = some (.record fields)) (hfields : InRanges ranges fields)
    {e : Expr} {r : Int64 × Int64} (h : computeRange inputName ranges e = some r) :
    Computes ctx call env e r := by
  induction e using Expr.induction_children generalizing r with
  | step e ih =>
      cases e <;> simp only [computeRange, reduceCtorEq] at h
      case number n =>
        cases h
        exact Or.inl ⟨n, rfl, Int64.le_refl n, Int64.le_refl n⟩
      case field base name =>
        split at h
        · split at h
          · rename_i n hn
            subst hn
            obtain ⟨k, hk, hr⟩ := hfields name r h
            refine Or.inl ⟨k, ?_, hr⟩
            simp only [evalExpr, hinput, hk, bind, Except.bind]
          · cases h
        · cases h
      case binary op left right =>
        obtain ⟨a, ha, h⟩ := Option.bind_eq_some_iff.mp h
        obtain ⟨b, hb, h⟩ := Option.bind_eq_some_iff.mp h
        obtain ⟨aop, hop, h⟩ := Option.bind_eq_some_iff.mp h
        exact .binary hop h (ih left (by simp [Expr.children]) ha)
          (ih right (by simp [Expr.children]) hb)
      case ite c yes no =>
        obtain ⟨a, ha, h⟩ := Option.bind_eq_some_iff.mp h
        obtain ⟨b, hb, h⟩ := Option.bind_eq_some_iff.mp h
        cases h
        refine .ite c ((ih yes (by simp [Expr.children]) ha).mono ?_ ?_)
          ((ih no (by simp [Expr.children]) hb).mono ?_ ?_) <;>
          simp only [Int64.le_iff_toInt_le, toInt_min, toInt_max] <;> omega
      case neg inner =>
        obtain ⟨⟨lo, hi⟩, ha, h⟩ := Option.bind_eq_some_iff.mp h
        obtain ⟨lo', hlo, h⟩ := Option.bind_eq_some_iff.mp h
        obtain ⟨hi', hhi, h⟩ := Option.bind_eq_some_iff.mp h
        cases h
        exact .neg (ih inner (by simp [Expr.children]) ha) hlo hhi

/-- The bounds of a reading and of a signed count. -/
def readingRanges : FieldRanges := fun name =>
  if name = "a" then some (-20, 20) else if name = "b" then some (-10, -2) else none

theorem computeRange_sound_remainder :
    Computes ⟨[], [], [], [], [], {}⟩ (fun _ _ => .error .outOfFuel)
      [("i", .record [("a", .number (-20)), ("b", .number (-7))])]
      (.binary .mod (.field (.ident "i") "a") (.field (.ident "i") "b")) (-9, 9) := by
  have hfields : InRanges readingRanges [("a", .number (-20)), ("b", .number (-7))] := by
    intro name r h
    unfold readingRanges at h
    split_ifs at h with ha hb
    · cases h
      exact ⟨-20, by rw [ha]; rfl, by decide, by decide⟩
    · cases h
      exact ⟨-7, by rw [hb]; rfl, by decide, by decide⟩
  have hrange : computeRange "i" readingRanges
      (.binary .mod (.field (.ident "i") "a") (.field (.ident "i") "b")) = some (-9, 9) := by
    decide +kernel
  exact computeRange_sound _ _ rfl hfields hrange

end expressions

end Verbosec.Verifier
