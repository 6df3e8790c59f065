import Verbosec.Interpreter.Scopes
import Verbosec.Lib.Except
import Mathlib.Data.Set.List

/-!
# Aggregates

* `Aggregate`, `Aggregate.desugar` - `sum`, `count`, `min` and `max`, and the native backend's `all`
  and `any`, as the folds they are rewritten to.
* `Aggregate.Steps`, `Aggregate.Runs` - what one element, and a collection, does to the accumulator.
* `Aggregate.Means`, `Aggregate.Fits` - what an aggregate says about the values of its body.
* `runs_iff` - the running accumulator arrives at the meaning.
* `aggregate_exact` - the fold evaluates to the meaning, when its accumulator captures no name.

Source: `parser.rs`, the sugar of `sum`, `count`, `min` and `max`; `native.rs`, `desugared_fold`.
-/

namespace Verbosec.Interpreter

open Verbosec.Lib

/-! ## The rewriting -/

/-- The aggregates that are rewritten to folds. -/
inductive Aggregate where
  | sum | count | min | max | all | any
  deriving DecidableEq, Repr

namespace Aggregate

/-- The accumulator of the folds. Source: `parser.rs` and `native.rs`, `acc` -/
def acc : String := "__acc"

/-- The body of the fold. Source: `parser.rs`, `fold_body`; `native.rs`, `desugared_fold` -/
def foldBody (body : Expr) : Aggregate → Expr
  | sum => .binary .add (.ident acc) body
  | count => .binary .add (.ident acc) (.ite body (.number 1) (.number 0))
  | min => .ite (.binary .lt body (.ident acc)) body (.ident acc)
  | max => .ite (.binary .gt body (.ident acc)) body (.ident acc)
  | all => .ite body (.ident acc) (.number 0)
  | any => .ite body (.number 1) (.ident acc)

/-- The number the fold starts from. Source: `parser.rs`, `initial`; `native.rs`,
`desugared_fold` -/
def initial : Aggregate → Int64
  | sum | count | any => 0
  | min => Int64.maxValue
  | max => Int64.minValue
  | all => 1

/-- The fold of an aggregate. Source: `parser.rs`, the sugar of `sum`, `count`, `min` and `max`;
`native.rs`, `desugared_fold` -/
def desugar (kind : Aggregate) (collection : Expr) (var : String) (body : Expr) : Expr :=
  .fold collection (.number kind.initial) acc var (kind.foldBody body)

/-- An aggregate takes the accumulator's name from its collection only, so that aggregates nest. -/
lemma free_acc_desugar {kind : Aggregate} {collection : Expr} {var : String} {body : Expr} :
    Expr.Free acc (kind.desugar collection var body) ↔ Expr.Free acc collection := by
  constructor
  · intro h
    rcases h.cases_scopes with h | ⟨s, hs, hbound, hfree⟩
    · simp [desugar] at h
    · simp only [desugar, Expr.scopes, List.mem_cons, List.not_mem_nil, or_false] at hs
      rcases hs with rfl | rfl | rfl
      · exact hfree
      · rcases hfree.cases_scopes with h | ⟨s, hs, -, -⟩
        · simp at h
        · simp [Expr.scopes, Expr.children] at hs
      · simp at hbound
  · intro h
    exact .child (s := ([], collection)) (by simp [desugar, Expr.scopes]) (by simp) h

/-! ## The meaning -/

/-- What a value of the body adds to a running total. -/
def contribution : Aggregate → Value → Int
  | sum, .number n => n.toInt
  | count, .bool true => 1
  | _, _ => 0

/-- The total of the values of the body. -/
def total (kind : Aggregate) (vs : List Value) : Int := (vs.map kind.contribution).sum

/-- No running total leaves the machine words. -/
def Fits (kind : Aggregate) (vs : List Value) : Prop := ∀ ws, ws <+: vs → InI64 (kind.total ws)

/-- What an aggregate says about the values of its body, in order. The least and the greatest of no
numbers are the ends of the machine words, and the truth values of `all` and `any` are the numbers
one and zero. -/
inductive Means : Aggregate → List Value → Value → Prop
  | sum {ns : List Int64} {s : Int64} (h : s.toInt = (ns.map Int64.toInt).sum) :
      Means sum (ns.map .number) (.number s)
  | count {bs : List Bool} {c : Int64} (h : c.toInt = bs.count true) :
      Means count (bs.map .bool) (.number c)
  | min {ns : List Int64} {m : Int64} (hle : ∀ n ∈ ns, m ≤ n)
      (hmem : m ∈ ns ∨ ns = [] ∧ m = Int64.maxValue) : Means min (ns.map .number) (.number m)
  | max {ns : List Int64} {m : Int64} (hle : ∀ n ∈ ns, n ≤ m)
      (hmem : m ∈ ns ∨ ns = [] ∧ m = Int64.minValue) : Means max (ns.map .number) (.number m)
  | all (bs : List Bool) : Means all (bs.map .bool) (.number (if ∀ b ∈ bs, b = true then 1 else 0))
  | any (bs : List Bool) : Means any (bs.map .bool) (.number (if ∃ b ∈ bs, b = true then 1 else 0))

/-! ## The accumulator -/

/-- What one value of the body does to the accumulator. -/
inductive Steps : Aggregate → Int64 → Value → Int64 → Prop
  | sum {a n c : Int64} (h : c.toInt = a.toInt + n.toInt) : Steps sum a (.number n) c
  | count {a c : Int64} {b : Bool} (h : c.toInt = a.toInt + if b then 1 else 0) :
      Steps count a (.bool b) c
  | min (a n : Int64) : Steps min a (.number n) (if n < a then n else a)
  | max (a n : Int64) : Steps max a (.number n) (if a < n then n else a)
  | all (a : Int64) (b : Bool) : Steps all a (.bool b) (if b then a else 0)
  | any (a : Int64) (b : Bool) : Steps any a (.bool b) (if b then 1 else a)

/-- What the values of the body do to the accumulator. -/
inductive Runs (kind : Aggregate) : Int64 → List Value → Int64 → Prop
  | nil (a : Int64) : Runs kind a [] a
  | cons {a b c : Int64} {v : Value} {vs : List Value} (h : kind.Steps a v b)
      (hs : Runs kind b vs c) : Runs kind a (v :: vs) c

end Aggregate

/-! ## One element -/

section evaluation

variable {ctx : Context} {call : Rule → Value → Outcome Value}

lemma arith_eq_ok {op : String} {n : Option Int64} {v : Value} :
    arith op n = .ok v ↔ ∃ c, n = some c ∧ v = .number c := by
  cases n <;> simp [arith, eq_comm]

/-- An addition to a number is that of another number, within the machine words, and an ordering is
between two numbers. -/
lemma applyBinary_eq_ok {a : Int64} {v r : Value} :
    (applyBinary .add (.number a) v = .ok r ↔
        ∃ n c : Int64, v = .number n ∧ c.toInt = a.toInt + n.toInt ∧ r = .number c) ∧
      (applyBinary .lt v (.number a) = .ok r ↔ ∃ n, v = .number n ∧ r = .bool (n < a)) ∧
      (applyBinary .gt v (.number a) = .ok r ↔ ∃ n, v = .number n ∧ r = .bool (a < n)) := by
  refine ⟨?_, ?_, ?_⟩
  · cases v <;>
      simp [applyBinary, compareNumbers, arithNumbers, fail, arith_eq_ok, checkedAdd_eq_some]
  · cases v <;> simp [applyBinary, compareNumbers, fail, eq_comm]
  · cases v <;> simp [applyBinary, compareNumbers, fail, eq_comm]

variable {env : Env} {e : Expr} {a : Int64}

/-- A strict operator evaluates both operands, a conditional evaluates one branch, a literal is its
number and the accumulator its value. -/
lemma evalExpr_eq_ok {v : Value} :
    (∀ op l r, op ≠ .and ∧ op ≠ .or → (evalExpr ctx call env (.binary op l r) = .ok v ↔ ∃ x y,
        evalExpr ctx call env l = .ok x ∧ evalExpr ctx call env r = .ok y ∧
          applyBinary op x y = .ok v)) ∧
      (∀ c x y, evalExpr ctx call env (.ite c x y) = .ok v ↔ ∃ b : Bool,
        evalExpr ctx call env c = .ok (.bool b) ∧
          evalExpr ctx call env (if b then x else y) = .ok v) ∧
      (∀ n, evalExpr ctx call env (.number n) = .ok v ↔ v = .number n) ∧
      (env.lookup Aggregate.acc = some (.number a) →
        (evalExpr ctx call env (.ident Aggregate.acc) = .ok v ↔ v = .number a)) := by
  refine ⟨fun op l r hop => ?_, fun c x y => ?_, fun n => ?_, fun hacc => ?_⟩
  · rw [evalExpr]
    simp only [hop.1, hop.2, or_self, if_false, Except.bind_eq_ok]
    constructor
    · rintro ⟨x, hx, y, hy, hv⟩
      exact ⟨x, y, hx, hy, hv⟩
    · rintro ⟨x, y, hx, hy, hv⟩
      exact ⟨x, hx, y, hy, hv⟩
  · rw [evalExpr]
    constructor
    · intro h
      obtain ⟨w, hw, hv⟩ := Except.bind_eq_ok.mp h
      cases w with
      | bool b => exact ⟨b, hw, by cases b <;> simpa using hv⟩
      | _ => simp [fail] at hv
    · rintro ⟨b, hb, hv⟩
      refine Except.bind_eq_ok.mpr ⟨.bool b, hb, ?_⟩
      cases b <;> simpa using hv
  · rw [evalExpr, Except.ok.injEq, eq_comm]
  · rw [evalExpr, hacc, Except.ok.injEq, eq_comm]

lemma evalExpr_binary_eq_ok {op : BinOp} (hop : op ≠ .and ∧ op ≠ .or) {l r : Expr} {v : Value} :
    evalExpr ctx call env (.binary op l r) = .ok v ↔ ∃ x y,
      evalExpr ctx call env l = .ok x ∧ evalExpr ctx call env r = .ok y ∧
        applyBinary op x y = .ok v :=
  (evalExpr_eq_ok (a := 0)).1 op l r hop

lemma evalExpr_ite_eq_ok {c x y : Expr} {v : Value} :
    evalExpr ctx call env (.ite c x y) = .ok v ↔ ∃ b : Bool,
      evalExpr ctx call env c = .ok (.bool b) ∧
        evalExpr ctx call env (if b then x else y) = .ok v :=
  (evalExpr_eq_ok (a := 0)).2.1 c x y

lemma evalExpr_number {n : Int64} {v : Value} :
    evalExpr ctx call env (.number n) = .ok v ↔ v = .number n :=
  (evalExpr_eq_ok (a := 0)).2.2.1 n

lemma evalExpr_acc (hacc : env.lookup Aggregate.acc = some (.number a)) {v : Value} :
    evalExpr ctx call env (.ident Aggregate.acc) = .ok v ↔ v = .number a :=
  evalExpr_eq_ok.2.2.2 hacc

/-- **One element**: the body of the fold takes the accumulator one step by the body's value. -/
theorem foldBody_eq_ok {kind : Aggregate} {body : Expr} {r : Value}
    (hacc : env.lookup Aggregate.acc = some (.number a)) :
    evalExpr ctx call env (kind.foldBody body) = .ok r ↔ ∃ v c,
      evalExpr ctx call env body = .ok v ∧ kind.Steps a v c ∧ r = .number c := by
  cases kind with
  | sum =>
      rw [Aggregate.foldBody, evalExpr_binary_eq_ok (by decide)]
      simp only [evalExpr_acc hacc]
      constructor
      · rintro ⟨_, v, rfl, hv, h⟩
        obtain ⟨n, c, rfl, hc, rfl⟩ := applyBinary_eq_ok.1.mp h
        exact ⟨_, c, hv, .sum hc, rfl⟩
      · rintro ⟨_, c, hv, ⟨hc⟩, rfl⟩
        exact ⟨_, _, rfl, hv, applyBinary_eq_ok.1.mpr ⟨_, c, rfl, hc, rfl⟩⟩
  | count =>
      rw [Aggregate.foldBody, evalExpr_binary_eq_ok (by decide)]
      simp only [evalExpr_acc hacc, evalExpr_ite_eq_ok]
      constructor
      · rintro ⟨_, v, rfl, ⟨b, hb, hv⟩, h⟩
        obtain ⟨n, c, rfl, hc, rfl⟩ := applyBinary_eq_ok.1.mp h
        refine ⟨.bool b, c, hb, .count ?_, rfl⟩
        cases b <;> simp only [if_true, if_false, Bool.false_eq_true, evalExpr_number,
          Value.number.injEq] at hv <;> subst hv <;> exact hc
      · rintro ⟨_, c, hb, hs, rfl⟩
        cases hs with
        | @count _ _ b hc =>
            refine ⟨_, .number (if b then 1 else 0), rfl, ⟨b, hb, ?_⟩,
              applyBinary_eq_ok.1.mpr ⟨_, c, rfl, ?_, rfl⟩⟩
            · cases b <;> simp [evalExpr_number]
            · cases b <;> exact hc
  | min =>
      rw [Aggregate.foldBody, evalExpr_ite_eq_ok]
      simp only [evalExpr_binary_eq_ok (by decide : BinOp.lt ≠ .and ∧ BinOp.lt ≠ .or),
        evalExpr_acc hacc]
      constructor
      · rintro ⟨b, ⟨v, _, hv, rfl, h⟩, hr⟩
        obtain ⟨n, rfl, hb⟩ := applyBinary_eq_ok.2.1.mp h
        rw [Value.bool.injEq] at hb
        refine ⟨_, _, hv, .min a n, ?_⟩
        by_cases hlt : n < a <;>
          simp only [hb, hlt, decide_true, decide_false, if_true, if_false, Bool.false_eq_true, hv,
            evalExpr_acc hacc, Except.ok.injEq] at hr ⊢
        · exact hr.symm
        · exact hr
      · rintro ⟨_, _, hv, hs, rfl⟩
        cases hs with
        | min _ n =>
            refine ⟨n < a, ⟨_, _, hv, rfl, applyBinary_eq_ok.2.1.mpr ⟨n, rfl, rfl⟩⟩, ?_⟩
            by_cases hlt : n < a <;> simp [hlt, hv, evalExpr_acc hacc]
  | max =>
      rw [Aggregate.foldBody, evalExpr_ite_eq_ok]
      simp only [evalExpr_binary_eq_ok (by decide : BinOp.gt ≠ .and ∧ BinOp.gt ≠ .or),
        evalExpr_acc hacc]
      constructor
      · rintro ⟨b, ⟨v, _, hv, rfl, h⟩, hr⟩
        obtain ⟨n, rfl, hb⟩ := applyBinary_eq_ok.2.2.mp h
        rw [Value.bool.injEq] at hb
        refine ⟨_, _, hv, .max a n, ?_⟩
        by_cases hlt : a < n <;>
          simp only [hb, hlt, decide_true, decide_false, if_true, if_false, Bool.false_eq_true, hv,
            evalExpr_acc hacc, Except.ok.injEq] at hr ⊢
        · exact hr.symm
        · exact hr
      · rintro ⟨_, _, hv, hs, rfl⟩
        cases hs with
        | max _ n =>
            refine ⟨a < n, ⟨_, _, hv, rfl, applyBinary_eq_ok.2.2.mpr ⟨n, rfl, rfl⟩⟩, ?_⟩
            by_cases hlt : a < n <;> simp [hlt, hv, evalExpr_acc hacc]
  | all =>
      rw [Aggregate.foldBody, evalExpr_ite_eq_ok]
      constructor
      · rintro ⟨b, hb, hr⟩
        refine ⟨_, _, hb, .all a b, ?_⟩
        cases b <;> simpa [evalExpr_acc hacc, evalExpr_number] using hr
      · rintro ⟨_, _, hb, hs, rfl⟩
        cases hs with
        | all _ b =>
            refine ⟨b, hb, ?_⟩
            cases b <;> simp [evalExpr_acc hacc, evalExpr_number]
  | any =>
      rw [Aggregate.foldBody, evalExpr_ite_eq_ok]
      constructor
      · rintro ⟨b, hb, hr⟩
        refine ⟨_, _, hb, .any a b, ?_⟩
        cases b <;> simpa [evalExpr_acc hacc, evalExpr_number] using hr
      · rintro ⟨_, _, hb, hs, rfl⟩
        cases hs with
        | any _ b =>
            refine ⟨b, hb, ?_⟩
            cases b <;> simp [evalExpr_acc hacc, evalExpr_number]

end evaluation

/-! ## A collection -/

namespace Aggregate

variable {kind : Aggregate} {a c : Int64} {vs : List Value}

/-- An accumulator that adds arrives at the total, and passes by the running totals. -/
lemma runs_total {T : Value → Prop}
    (hstep : ∀ a v c, kind.Steps a v c ↔ T v ∧ c.toInt = a.toInt + kind.contribution v) :
    kind.Runs a vs c ↔ (∀ v ∈ vs, T v) ∧ c.toInt = a.toInt + kind.total vs ∧
      ∀ ws, ws <+: vs → InI64 (a.toInt + kind.total ws) := by
  induction vs generalizing a with
  | nil =>
      constructor
      · rintro ⟨⟩
        refine ⟨by simp, by simp [total], fun ws hws => ?_⟩
        rw [List.prefix_nil.mp hws]
        simpa [total] using inI64_toInt c
      · rintro ⟨-, hc, -⟩
        rw [Int64.toInt_inj.mp (by simpa [total] using hc : c.toInt = a.toInt)]
        exact .nil a
  | cons v vs ih =>
      have htotal : ∀ ws, kind.total (v :: ws) = kind.contribution v + kind.total ws := by
        simp [total]
      constructor
      · rintro (_ | ⟨hs, hrun⟩)
        rename_i b
        obtain ⟨hv, hb⟩ := (hstep _ _ _).mp hs
        obtain ⟨hvs, hc, hfit⟩ := ih.mp hrun
        refine ⟨List.forall_mem_cons.mpr ⟨hv, hvs⟩, by rw [htotal]; omega, fun ws hws => ?_⟩
        rcases List.prefix_cons_iff.mp hws with rfl | ⟨ws, rfl, hws⟩
        · simpa [total] using inI64_toInt a
        · rw [htotal, ← Int.add_assoc, ← hb]
          exact hfit ws ‹_›
      · rintro ⟨hvs, hc, hfit⟩
        obtain ⟨hv, hvs⟩ := List.forall_mem_cons.mp hvs
        have hfit' : ∀ ws, ws <+: vs →
            InI64 (a.toInt + kind.contribution v + kind.total ws) := fun ws hws => by
          have := hfit (v :: ws) (List.cons_prefix_cons.mpr ⟨rfl, hws⟩)
          rwa [htotal, ← Int.add_assoc] at this
        obtain ⟨b, -, hb⟩ := exists_toI64? (by simpa [total] using hfit' [] List.nil_prefix)
        refine .cons ((hstep _ _ _).mpr ⟨hv, hb⟩) (ih.mpr ⟨hvs, ?_, fun ws hws => ?_⟩)
        · rw [hc, hb, htotal]
          omega
        · rw [hb]
          exact hfit' ws hws

/-- An accumulator that takes a function of each value is a fold of the values. -/
lemma runs_foldl {τ : Type} {mk : τ → Value} {f : Int64 → τ → Int64}
    (hstep : ∀ a v c, kind.Steps a v c ↔ ∃ t, v = mk t ∧ c = f a t) :
    kind.Runs a vs c ↔ ∃ ts : List τ, vs = ts.map mk ∧ c = ts.foldl f a := by
  induction vs generalizing a with
  | nil =>
      constructor
      · rintro ⟨⟩
        exact ⟨[], rfl, rfl⟩
      · rintro ⟨ts, hts, rfl⟩
        rw [List.map_eq_nil_iff.mp hts.symm]
        exact .nil a
  | cons v vs ih =>
      constructor
      · rintro (_ | ⟨hs, hrun⟩)
        obtain ⟨t, rfl, rfl⟩ := (hstep _ _ _).mp hs
        obtain ⟨ts, rfl, rfl⟩ := ih.mp hrun
        exact ⟨t :: ts, rfl, rfl⟩
      · rintro ⟨ts, hts, rfl⟩
        obtain ⟨t, ts, rfl, rfl, rfl⟩ := List.map_eq_cons_iff.mp hts.symm
        exact .cons ((hstep _ _ _).mpr ⟨t, rfl, rfl⟩) (ih.mpr ⟨ts, rfl, rfl⟩)

lemma steps_sum {v : Value} :
    Steps sum a v c ↔ v ∈ Set.range Value.number ∧ c.toInt = a.toInt + contribution sum v := by
  constructor
  · rintro ⟨h⟩
    exact ⟨⟨_, rfl⟩, h⟩
  · rintro ⟨⟨n, rfl⟩, h⟩
    exact .sum h

lemma steps_count {v : Value} :
    Steps count a v c ↔ v ∈ Set.range Value.bool ∧ c.toInt = a.toInt + contribution count v := by
  constructor
  · intro h
    cases h with
    | @count _ _ b h => exact ⟨⟨b, rfl⟩, by cases b <;> exact h⟩
  · rintro ⟨⟨b, rfl⟩, h⟩
    exact .count (by cases b <;> exact h)

lemma steps_min {v : Value} :
    Steps min a v c ↔ ∃ n, v = .number n ∧ c = if n < a then n else a := by
  constructor
  · rintro ⟨_, n⟩
    exact ⟨_, rfl, rfl⟩
  · rintro ⟨n, rfl, rfl⟩
    exact .min a n

lemma steps_max {v : Value} :
    Steps max a v c ↔ ∃ n, v = .number n ∧ c = if a < n then n else a := by
  constructor
  · rintro ⟨_, n⟩
    exact ⟨_, rfl, rfl⟩
  · rintro ⟨n, rfl, rfl⟩
    exact .max a n

lemma steps_all {v : Value} :
    Steps all a v c ↔ ∃ b : Bool, v = .bool b ∧ c = if b then a else 0 := by
  constructor
  · rintro ⟨_, b⟩
    exact ⟨_, rfl, rfl⟩
  · rintro ⟨b, rfl, rfl⟩
    exact .all a b

lemma steps_any {v : Value} :
    Steps any a v c ↔ ∃ b : Bool, v = .bool b ∧ c = if b then 1 else a := by
  constructor
  · rintro ⟨_, b⟩
    exact ⟨_, rfl, rfl⟩
  · rintro ⟨b, rfl, rfl⟩
    exact .any a b

lemma total_sum (ns : List Int64) : total sum (ns.map .number) = (ns.map Int64.toInt).sum := by
  simp [total, contribution, Function.comp_def]

lemma total_count (bs : List Bool) : total count (bs.map .bool) = bs.count true := by
  induction bs with
  | nil => rfl
  | cons b bs ih =>
      cases b <;> simp_all [total, contribution, Int.add_comm]

lemma fits_of_contribution (h : ∀ v, kind.contribution v = 0) : kind.Fits vs := by
  intro ws _
  rw [total, List.map_congr_left fun v _ => h v]
  simpa using inI64_toInt 0

/-- The least number so far. -/
lemma foldl_min {ns : List Int64} {m : Int64} :
    m = ns.foldl (fun a n => if n < a then n else a) a ↔
      m ≤ a ∧ (∀ n ∈ ns, m ≤ n) ∧ (m ∈ ns ∨ m = a) := by
  induction ns generalizing a with
  | nil => simp +contextual
  | cons n ns ih =>
      rw [List.foldl_cons, ih]
      split <;> grind

/-- The greatest number so far. -/
lemma foldl_max {ns : List Int64} {m : Int64} :
    m = ns.foldl (fun a n => if a < n then n else a) a ↔
      a ≤ m ∧ (∀ n ∈ ns, n ≤ m) ∧ (m ∈ ns ∨ m = a) := by
  induction ns generalizing a with
  | nil => simp +contextual
  | cons n ns ih =>
      rw [List.foldl_cons, ih]
      split <;> grind

lemma foldl_all (bs : List Bool) :
    bs.foldl (fun (a : Int64) b => if b then a else 0) a = if ∀ b ∈ bs, b = true then a else 0 := by
  induction bs generalizing a with
  | nil => simp
  | cons b bs ih => cases b <;> simp [ih]

lemma foldl_any (bs : List Bool) :
    bs.foldl (fun (a : Int64) b => if b then 1 else a) a = if ∃ b ∈ bs, b = true then 1 else a := by
  induction bs generalizing a with
  | nil => simp
  | cons b bs ih => cases b <;> simp [ih]

/-- **A collection**: from its initial value the accumulator arrives at the meaning of the values,
if the running totals fit. -/
theorem runs_iff : kind.Runs kind.initial vs c ↔ kind.Means vs (.number c) ∧ kind.Fits vs := by
  cases kind with
  | sum =>
      have hrange : (∀ v ∈ vs, v ∈ Set.range Value.number) ↔ ∃ ns, List.map .number ns = vs :=
        (Set.ext_iff.mp (Set.range_list_map Value.number) vs).symm
      rw [runs_total fun _ _ _ => steps_sum, hrange]
      simp only [initial, Int64.toInt_zero, Int.zero_add]
      constructor
      · rintro ⟨⟨ns, rfl⟩, hc, hfit⟩
        exact ⟨.sum (by rwa [total_sum] at hc), hfit⟩
      · rintro ⟨⟨hc⟩, hfit⟩
        exact ⟨⟨_, rfl⟩, by rwa [total_sum], hfit⟩
  | count =>
      have hrange : (∀ v ∈ vs, v ∈ Set.range Value.bool) ↔ ∃ bs, List.map .bool bs = vs :=
        (Set.ext_iff.mp (Set.range_list_map Value.bool) vs).symm
      rw [runs_total fun _ _ _ => steps_count, hrange]
      simp only [initial, Int64.toInt_zero, Int.zero_add]
      constructor
      · rintro ⟨⟨bs, rfl⟩, hc, hfit⟩
        exact ⟨.count (by rwa [total_count] at hc), hfit⟩
      · rintro ⟨⟨hc⟩, hfit⟩
        exact ⟨⟨_, rfl⟩, by rwa [total_count], hfit⟩
  | min =>
      rw [runs_foldl fun _ _ _ => steps_min]
      simp only [initial]
      constructor
      · rintro ⟨ns, rfl, hc⟩
        obtain ⟨-, hle, hmem⟩ := foldl_min.mp hc
        refine ⟨.min hle ?_, fits_of_contribution fun _ => rfl⟩
        cases ns with
        | nil => exact .inr ⟨rfl, by simpa using hc⟩
        | cons n ns =>
            -- an element that is not below the greatest word is that word
            refine .inl (hmem.elim id fun h => ?_)
            have hn := hle n List.mem_cons_self
            rw [h] at hn ⊢
            rw [Int64.le_antisymm hn (Int64.le_maxValue n)]
            exact List.mem_cons_self
      · rintro ⟨hmeans, -⟩
        cases hmeans with
        | min hle hmem =>
            exact ⟨_, rfl, foldl_min.mpr ⟨Int64.le_maxValue c, hle, hmem.imp id (·.2)⟩⟩
  | max =>
      rw [runs_foldl fun _ _ _ => steps_max]
      simp only [initial]
      constructor
      · rintro ⟨ns, rfl, hc⟩
        obtain ⟨-, hle, hmem⟩ := foldl_max.mp hc
        refine ⟨.max hle ?_, fits_of_contribution fun _ => rfl⟩
        cases ns with
        | nil => exact .inr ⟨rfl, by simpa using hc⟩
        | cons n ns =>
            refine .inl (hmem.elim id fun h => ?_)
            have hn := hle n List.mem_cons_self
            rw [h] at hn ⊢
            rw [Int64.le_antisymm (Int64.minValue_le n) hn]
            exact List.mem_cons_self
      · rintro ⟨hmeans, -⟩
        cases hmeans with
        | max hle hmem =>
            exact ⟨_, rfl, foldl_max.mpr ⟨Int64.minValue_le c, hle, hmem.imp id (·.2)⟩⟩
  | all =>
      rw [runs_foldl fun _ _ _ => steps_all]
      constructor
      · rintro ⟨bs, rfl, rfl⟩
        refine ⟨?_, fits_of_contribution fun _ => rfl⟩
        rw [foldl_all]
        exact .all bs
      · rintro ⟨hmeans, -⟩
        cases hmeans with
        | all bs => exact ⟨bs, rfl, (foldl_all bs).symm⟩
  | any =>
      rw [runs_foldl fun _ _ _ => steps_any]
      constructor
      · rintro ⟨bs, rfl, rfl⟩
        refine ⟨?_, fits_of_contribution fun _ => rfl⟩
        rw [foldl_any]
        exact .any bs
      · rintro ⟨hmeans, -⟩
        cases hmeans with
        | any bs => exact ⟨bs, rfl, (foldl_any bs).symm⟩

end Aggregate

/-! ## The fold -/

section fold

variable {ctx : Context} {call : Rule → Value → Outcome Value} {env : Env}

/-- A fold whose body takes the accumulator one step by a value of its element runs over the values
of the collection. -/
lemma foldlM_eq_ok {kind : Aggregate} {f : Value → Value → Outcome Value}
    {g : Value → Outcome Value}
    (hstep : ∀ a x r, f (.number a) x = .ok r ↔
      ∃ v c, g x = .ok v ∧ kind.Steps a v c ∧ r = .number c)
    {items : List Value} {a : Int64} {r : Value} :
    items.foldlM f (.number a) = .ok r ↔ ∃ vs c, List.Forall₂ (fun x v => g x = .ok v) items vs ∧
      kind.Runs a vs c ∧ r = .number c := by
  induction items generalizing a with
  | nil =>
      constructor
      · intro h
        exact ⟨[], a, .nil, .nil a, (Except.ok.inj h).symm⟩
      · rintro ⟨_, _, ⟨⟩, ⟨⟩, rfl⟩
        rfl
  | cons x items ih =>
      rw [List.foldlM_cons, Except.bind_eq_ok]
      constructor
      · rintro ⟨_, hx, hrest⟩
        obtain ⟨v, b, hv, hs, rfl⟩ := (hstep _ _ _).mp hx
        obtain ⟨vs, c, hvs, hrun, rfl⟩ := ih.mp hrest
        exact ⟨v :: vs, c, .cons hv hvs, .cons hs hrun, rfl⟩
      · rintro ⟨_, c, _ | ⟨hv, hvs⟩, hrun, rfl⟩
        cases hrun with
        | cons hs hrun =>
            exact ⟨_, (hstep _ _ _).mpr ⟨_, _, hv, hs, rfl⟩, ih.mpr ⟨_, _, hvs, hrun, rfl⟩⟩

/-- **Aggregates mean what they say**: where the binder is not the accumulator's name and the body
does not take that name from outside, the fold evaluates exactly to what the aggregate says about
the values of the body in the environment of the aggregate. -/
theorem aggregate_exact (kind : Aggregate) (collection : Expr) (var : String) (body : Expr)
    (hvar : var ≠ Aggregate.acc) (hbody : ¬ Expr.Free Aggregate.acc body) (r : Value) :
    evalExpr ctx call env (kind.desugar collection var body) = .ok r ↔ ∃ items vs,
      evalExpr ctx call env collection = .ok (.list items) ∧
        List.Forall₂ (fun item v => evalExpr ctx call (Dict.insert env var item) body = .ok v)
          items vs ∧
        kind.Means vs r ∧ kind.Fits vs := by
  have hstep : ∀ a item r,
      evalExpr ctx call (Dict.insert (Dict.insert env Aggregate.acc (.number a)) var item)
        (kind.foldBody body) = .ok r ↔ ∃ v c,
          evalExpr ctx call (Dict.insert env var item) body = .ok v ∧ kind.Steps a v c ∧
            r = .number c := by
    intro a item r
    -- the body does not see the accumulator
    have hsame : evalExpr ctx call
        (Dict.insert (Dict.insert env Aggregate.acc (.number a)) var item) body =
          evalExpr ctx call (Dict.insert env var item) body := by
      refine evalExpr_congr_free body fun y hy => ?_
      have hne : y ≠ Aggregate.acc := fun h => hbody (h ▸ hy)
      rw [Dict.lookup_insert, Dict.lookup_insert, Dict.lookup_insert, if_neg hne]
    rw [← hsame]
    refine foldBody_eq_ok ?_
    rw [Dict.lookup_insert_of_ne _ _ hvar.symm, Dict.lookup_insert_self]
  rw [Aggregate.desugar, evalExpr]
  constructor
  · intro h
    obtain ⟨v, hv, h⟩ := Except.bind_eq_ok.mp h
    obtain ⟨items, hitems, h⟩ := Except.bind_eq_ok.mp h
    obtain ⟨_, hinit, h⟩ := Except.bind_eq_ok.mp h
    rw [evalExpr_number.mp hinit] at h
    obtain ⟨vs, c, hvs, hrun, rfl⟩ := (foldlM_eq_ok hstep).mp h
    obtain ⟨hmeans, hfits⟩ := Aggregate.runs_iff.mp hrun
    cases v with
    | list l =>
        cases hitems
        exact ⟨items, vs, hv, hvs, hmeans, hfits⟩
    | _ => simp [expectList, fail] at hitems
  · rintro ⟨items, vs, hv, hvs, hmeans, hfits⟩
    refine Except.bind_eq_ok.mpr ⟨_, hv, Except.bind_eq_ok.mpr ⟨items, rfl,
      Except.bind_eq_ok.mpr ⟨_, evalExpr_number.mpr rfl, (foldlM_eq_ok hstep).mpr ?_⟩⟩⟩
    obtain ⟨c, rfl⟩ : ∃ c, r = .number c := by cases hmeans <;> exact ⟨_, rfl⟩
    exact ⟨vs, c, hvs, Aggregate.runs_iff.mpr ⟨hmeans, hfits⟩, rfl⟩

/-- Aggregates nest: the sum of the least numbers of two collections. -/
theorem aggregate_exact_nested :
    evalExpr { rules := [], concepts := [] } (fun _ _ => .error .outOfFuel)
      [("xss", .list [.list [.number 3, .number 1], .list [.number 2]])]
      (Aggregate.sum.desugar (.ident "xss") "xs"
        (Aggregate.min.desugar (.ident "xs") "x" (.ident "x"))) = .ok (.number 3) := by
  refine (aggregate_exact .sum _ "xs" _ (by decide) ?_ _).mpr
    ⟨_, [.number 1, .number 2], rfl, .cons rfl (.cons rfl .nil),
      @Aggregate.Means.sum [1, 2] 3 rfl, ?_⟩
  · rw [Aggregate.free_acc_desugar]
    intro h
    rcases h.cases_scopes with h | ⟨s, hs, -, -⟩
    · simp [Aggregate.acc] at h
    · simp [Expr.scopes, Expr.children] at hs
  · intro ws hws
    rcases List.prefix_cons_iff.mp hws with rfl | ⟨us, rfl, hus⟩
    · decide
    · rcases List.prefix_cons_iff.mp hus with rfl | ⟨ts, rfl, hts⟩
      · decide
      · rw [List.prefix_nil.mp hts]
        decide

/-- The rule `let __acc = 5`, `out = sum(b.xs, x => x + __acc)`. -/
def offsetTotal : Rule where
  name := "offset_total"
  inputName := "b"
  inputTy := .named "Box"
  outputName := "out"
  outputTy := .number
  logic :=
    { bindings := [("__acc", .number 5)]
      value := Aggregate.sum.desugar (.field (.ident "b") "xs") "x"
        (.binary .add (.ident "x") (.ident "__acc")) }

/-- The accumulator captures a name of the body: the sum of `1 + 5` and `2 + 5` evaluates to `4`. -/
theorem accumulator_captures :
    let ctx : Context := { rules := [], concepts := [] }
    let call := evalRule ctx 0
    let box := Value.record [("xs", .list [.number 1, .number 2])]
    let env : Env := [("__acc", .number 5), ("b", box)]
    evalBindings ctx call [("b", box)] offsetTotal.logic.bindings = .ok env ∧
      List.Forall₂ (fun item v => evalExpr ctx call (Dict.insert env "x" item)
        (.binary .add (.ident "x") (.ident "__acc")) = .ok v) [.number 1, .number 2]
        [.number 6, .number 7] ∧
      Aggregate.Means .sum [.number 6, .number 7] (.number 13) ∧
      evalRule ctx 1 offsetTotal box = .ok (.number 4) :=
  ⟨rfl, .cons rfl (.cons rfl .nil), @Aggregate.Means.sum [6, 7] 13 rfl, rfl⟩

end fold

end Verbosec.Interpreter
