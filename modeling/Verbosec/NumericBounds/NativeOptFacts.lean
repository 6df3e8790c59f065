import Verbosec.NumericBounds.NativeOpt

/-!
# What facts say about values

* `Fact.Wf` - the interval sets of a fact are well formed.
* `Fact.Mem` - the runtime values a fact allows.
* `constant_sound` - the constant of a fact evaluates to the one value that the fact allows.
* `compare_exact` - a comparison of sets is decided exactly where all pairs of members have one
  outcome.
* `operatorFact_mem` and its companions - the fact about an operation allows the runtime result,
  whenever there is one.
-/

namespace Verbosec.NumericBounds

open Verbosec.Lib Ranges

namespace Fact

/-- The interval sets of a fact are well formed. -/
def Wf : Fact → Prop
  | number r => r.Wf
  | _ => True

/-- The runtime values a fact allows. -/
def Mem : Fact → Interpreter.Value → Prop
  | number r, .number n => n.toInt ∈ r
  | bool v, .bool b => ∀ b' ∈ v, b' = b
  | unknown, _ => True
  | _, _ => False

lemma Mem.exists_number {r : Ranges} {w : Interpreter.Value} (h : (number r).Mem w) :
    ∃ n : Int64, w = .number n ∧ n.toInt ∈ r := by
  cases w <;> first | exact ⟨_, rfl, h⟩ | exact h.elim

lemma Mem.exists_bool {v : Option Bool} {w : Interpreter.Value} (h : (bool v).Mem w) :
    ∃ b, w = .bool b ∧ ∀ b' ∈ v, b' = b := by
  cases w <;> first | exact ⟨_, rfl, h⟩ | exact h.elim

lemma ofValue_wf {v : Value} (h : v.Wf) : (ofValue v).Wf := by
  cases v <;> exact h

lemma ofValue_mem {v : Value} {w : Interpreter.Value} (h : v.Mem w) : (ofValue v).Mem w := by
  cases v with
  | number r =>
      obtain ⟨n, rfl, hn⟩ := h.exists_number
      exact hn
  | bool =>
      obtain ⟨b, rfl⟩ := h.exists_bool
      simp [ofValue, Mem]

lemma ofRanges_wf {x : Except String Ranges} (h : ∀ r, x = .ok r → r.Wf) : (ofRanges x).Wf := by
  cases x with
  | ok r => exact h r rfl
  | error e => trivial

lemma ofRanges_mem {x : Except String Ranges} {n : Int64} (h : ∀ r, x = .ok r → n.toInt ∈ r) :
    (ofRanges x).Mem (.number n) := by
  cases x with
  | ok r => exact h r rfl
  | error e => trivial

/-- The constant of a fact evaluates to the one value that the fact allows. -/
lemma constant_sound {f : Fact} (hwf : f.Wf) {w : Interpreter.Value} (hw : f.Mem w) {c : Expr}
    (hc : f.constant = some c) (ctx : Interpreter.Context)
    (call : Rule → Interpreter.Value → Interpreter.Outcome Interpreter.Value)
    (env : Interpreter.Env) : Interpreter.evalExpr ctx call env c = .ok w := by
  match f, hc with
  | number r, hc =>
      obtain ⟨n, rfl, hn⟩ := hw.exists_number
      simp only [constant] at hc
      split at hc
      · rename_i heq
        cases hc
        have := Ranges.Wf.mem_hull hwf hn
        have hval : r.hull.1 = n.toInt := by omega
        simp [Interpreter.evalExpr, hval, Int64.ofInt_toInt]
      · cases hc
  | bool (some v), hc =>
      obtain ⟨b, rfl, hb⟩ := hw.exists_bool
      obtain rfl := hb v rfl
      cases hc
      cases v <;> rfl

/-- A constant reads no name. -/
lemma collect_constant {f : Fact} {c : Expr} (hc : f.constant = some c) {α : Type}
    (g : Expr → List α) (hnum : ∀ n, g (.number n) = []) (hbin : ∀ op a b, g (.binary op a b) = []) :
    c.collect g = [] := by
  match f, hc with
  | number r, hc =>
      simp only [constant] at hc
      split at hc
      · cases hc
        simp [Expr.collect, hnum]
      · cases hc
  | bool (some v), hc =>
      cases hc
      simp [Expr.collect, hnum, hbin]

lemma join_wf {a b : Fact} (ha : a.Wf) (hb : b.Wf) : (a.join b).Wf := by
  cases a <;> cases b <;> try trivial
  exact ofRanges_wf fun r hr => (join_spec ha hb hr).1

/-- The joined fact allows the values of both. -/
lemma join_mem {a b : Fact} (ha : a.Wf) (hb : b.Wf) {w : Interpreter.Value}
    (h : a.Mem w ∨ b.Mem w) : (a.join b).Mem w := by
  cases a <;> cases b <;> try trivial
  case number.number ra rb =>
    have hnum : ∃ n : Int64, w = .number n ∧ (n.toInt ∈ ra ∨ n.toInt ∈ rb) := by
      rcases h with h | h
      · obtain ⟨n, rfl, hn⟩ := h.exists_number
        exact ⟨n, rfl, Or.inl hn⟩
      · obtain ⟨n, rfl, hn⟩ := h.exists_number
        exact ⟨n, rfl, Or.inr hn⟩
    obtain ⟨n, rfl, hn⟩ := hnum
    exact ofRanges_mem fun r hr => (join_spec ha hb hr).2 _ hn
  case bool.bool va vb =>
    have hbool : ∃ b, w = .bool b := by
      rcases h with h | h
      · obtain ⟨b, rfl, -⟩ := h.exists_bool
        exact ⟨b, rfl⟩
      · obtain ⟨b, rfl, -⟩ := h.exists_bool
        exact ⟨b, rfl⟩
    obtain ⟨b, rfl⟩ := hbool
    show (bool (if va = vb then va else none)).Mem _
    by_cases heq : va = vb
    · rw [if_pos heq]
      subst heq
      exact h.elim id id
    · rw [if_neg heq]
      simp [Mem]

end Fact

/-! ## Comparisons -/

/-- A decided comparison of intervals holds of every pair of members. -/
lemma compareInterval_sound {op : BinOp} {p q : Interval} {d : Bool}
    (h : compareInterval op p q = some d) {x y : Int64} (hx : p.1 ≤ x.toInt ∧ x.toInt ≤ p.2)
    (hy : q.1 ≤ y.toInt ∧ y.toInt ≤ q.2) : Interpreter.compareNumbers op x y = some d := by
  have hlt := @Int64.lt_iff_toInt_lt
  have hle := @Int64.le_iff_toInt_le
  have heq := @Int64.toInt_inj
  cases op <;>
    simp only [compareInterval, compareOrder, reduceCtorEq, Option.map_eq_some_iff] at h <;>
    simp only [Interpreter.compareNumbers, Option.some.injEq]
  case eq =>
    split at h
    · cases h
      rw [decide_eq_false_iff_not, ← heq]
      omega
    · split at h
      · cases h
        rw [decide_eq_decide, ← heq]
        omega
      · cases h
  case notEq =>
    obtain ⟨d', h, rfl⟩ := h
    split at h
    · cases h
      rw [Bool.not_false, decide_eq_true_eq, ne_eq, ← heq]
      omega
    · split at h
      · cases h
        rw [← decide_not, decide_eq_decide, ne_eq, ← heq]
        omega
      · cases h
  all_goals
    split at h
    · cases h
      simp only [hlt, hle, decide_eq_true_eq]
      omega
    · split at h
      · cases h
        simp only [hlt, hle, decide_eq_false_iff_not]
        omega
      · cases h

/-- A decided run over pairs of pieces decides every pair. -/
lemma compareAll_eq_some {op : BinOp} {d : Bool} (pairs : List (Interval × Interval)) :
    ∀ result, compareAll op result pairs = some d →
      (∀ d' ∈ result, d' = d) ∧ ∀ p ∈ pairs, compareInterval op p.1 p.2 = some d := by
  induction pairs with
  | nil =>
      rintro result rfl
      simp
  | cons p pairs ih =>
      intro result h
      obtain ⟨p, q⟩ := p
      unfold compareAll at h
      split at h
      · cases h
      · rename_i decision hdecision
        split at h
        · cases h
        · rename_i hprev
          obtain ⟨hd, hall⟩ := ih _ h
          obtain rfl := hd decision rfl
          refine ⟨fun d' hd' => ?_, fun s hs => ?_⟩
          · rw [Option.mem_def] at hd'
            simpa [hd'] using hprev
          · rcases List.mem_cons.mp hs with rfl | hs
            · exact hdecision
            · exact hall s hs

/-- A decided comparison of sets holds of every pair of members. -/
lemma compare_sound {op : BinOp} {a b : Ranges} {d : Bool} (h : compare op a b = some d)
    {x y : Int64} (hx : x.toInt ∈ a) (hy : y.toInt ∈ b) :
    Interpreter.compareNumbers op x y = some d := by
  obtain ⟨p, hp, hxp⟩ := hx
  obtain ⟨q, hq, hyq⟩ := hy
  exact compareInterval_sound ((compareAll_eq_some _ _ h).2 (p, q) (List.mem_product.mpr ⟨hp, hq⟩))
    hxp hyq

/-- The outcome of a comparison of integers. -/
def compareInts (op : BinOp) (x y : Int) : Option Bool :=
  match op with
  | .eq => some (x = y)
  | .notEq => some (x ≠ y)
  | .gt => some (y < x)
  | .lt => some (x < y)
  | .gtEq => some (y ≤ x)
  | .ltEq => some (x ≤ y)
  | _ => none

/-- Words compare like their values. -/
lemma compareNumbers_eq (op : BinOp) (x y : Int64) :
    Interpreter.compareNumbers op x y = compareInts op x.toInt y.toInt := by
  cases op <;> simp only [Interpreter.compareNumbers, compareInts, Int64.lt_iff_toInt_lt,
    Int64.le_iff_toInt_le, ← Int64.toInt_inj, ne_eq]

/-- A comparison that has one outcome on every pair of members of two intervals is decided. -/
lemma compareInterval_complete {op : BinOp} {p q : Interval} {d : Bool} (hp : p.1 ≤ p.2)
    (hq : q.1 ≤ q.2) (h : ∀ x y, p.1 ≤ x ∧ x ≤ p.2 → q.1 ≤ y ∧ y ≤ q.2 →
      compareInts op x y = some d) : compareInterval op p q = some d := by
  -- the extreme members decide an order, a common member decides an equality
  have hlow := h p.1 q.2 ⟨le_refl _, hp⟩ ⟨hq, le_refl _⟩
  have hhigh := h p.2 q.1 ⟨hp, le_refl _⟩ ⟨le_refl _, hq⟩
  have hcommon : ¬ (p.2 < q.1 ∨ q.2 < p.1) →
      compareInts op (max p.1 q.1) (max p.1 q.1) = some d := by
    intro hoverlap
    exact h _ _ (by omega) (by omega)
  cases op <;> cases d <;>
    simp only [compareInts, reduceCtorEq, Option.some.injEq, decide_eq_true_eq,
      decide_eq_false_iff_not, ne_eq, not_true, not_false_iff, not_not, imp_false]
      at hlow hhigh hcommon <;>
    simp only [compareInterval, compareOrder]
  case eq.false => rw [if_pos hcommon]
  case eq.true =>
    rw [if_neg (by omega), if_pos (by omega), hlow]
    simp only [Option.some.injEq, decide_eq_true_eq]
    omega
  case notEq.false =>
    rw [if_neg (by omega), if_pos (by omega)]
    simp only [Option.map_some, Option.some.injEq, Bool.not_eq_false', decide_eq_true_eq]
    omega
  case notEq.true => rw [if_pos hcommon, Option.map_some, Bool.not_false]
  all_goals first
    | rw [if_pos (by omega)]
    | rw [if_neg (by omega), if_pos (by omega)]

/-- A run over pairs of pieces with one outcome is decided, unless there is no pair. -/
lemma compareAll_of_decided {op : BinOp} {d : Bool} {pairs : List (Interval × Interval)}
    (h : ∀ p ∈ pairs, compareInterval op p.1 p.2 = some d) :
    ∀ result, (∀ d' ∈ result, d' = d) → (pairs = [] → result = some d) →
      compareAll op result pairs = some d := by
  induction pairs with
  | nil => exact fun result _ hresult => hresult rfl
  | cons p pairs ih =>
      intro result hprev _
      obtain ⟨p, q⟩ := p
      have hdecision : compareInterval op p q = some d := h (p, q) List.mem_cons_self
      have hsame : ¬ result.any (· ≠ d) = true := by
        cases result with
        | none => simp
        | some d' => simpa using hprev d' rfl
      simp only [compareAll, hdecision, if_neg hsame]
      exact ih (fun s hs => h s (List.mem_cons_of_mem _ hs)) (some d) (by simp) fun _ => rfl

/-- **Decided comparisons are exact**: a comparison of sets is decided exactly where all pairs of
members have one outcome. -/
theorem compare_exact {a b : Ranges} (ha : a.Wf) (hb : b.Wf) (op : BinOp) (d : Bool) :
    compare op a b = some d ↔ ∀ x y : Int64, x.toInt ∈ a → y.toInt ∈ b →
      Interpreter.compareNumbers op x y = some d := by
  refine ⟨fun h x y hx hy => compare_sound h hx hy, fun h => ?_⟩
  have hpairs : pieces a ×ˢ pieces b ≠ [] :=
    List.ne_nil_of_mem (List.mem_product.mpr ⟨List.mem_cons_self, List.mem_cons_self⟩)
  refine compareAll_of_decided (fun s hs => ?_) none (by simp) fun hnil => (hpairs hnil).elim
  obtain ⟨p, q⟩ := s
  obtain ⟨hp, hq⟩ := List.mem_product.mp hs
  obtain ⟨hple, hp₁, hp₂⟩ := ha.piece p hp
  obtain ⟨hqle, hq₁, hq₂⟩ := hb.piece q hq
  refine compareInterval_complete hple hqle fun x y hx hy => ?_
  have hxw := toInt_ofInt (hp₁.of_between hp₂ hx.1 hx.2)
  have hyw := toInt_ofInt (hq₁.of_between hq₂ hy.1 hy.2)
  have hdecided := h (Int64.ofInt x) (Int64.ofInt y) ⟨p, hp, by rwa [hxw]⟩ ⟨q, hq, by rwa [hyw]⟩
  rwa [compareNumbers_eq, hxw, hyw] at hdecided

/-- The two extreme words differ from every word between them: the comparison of the sets is
decided, since no piece of the one meets the other. -/
theorem compare_exact_extremes :
    compare .eq ⟨(minI64, minI64), some (maxI64, maxI64)⟩ ⟨(minI64 + 1, maxI64 - 1), none⟩ =
        some false ↔
      ∀ x y : Int64, x.toInt ∈ (⟨(minI64, minI64), some (maxI64, maxI64)⟩ : Ranges) →
        y.toInt ∈ (⟨(minI64 + 1, maxI64 - 1), none⟩ : Ranges) →
        Interpreter.compareNumbers .eq x y = some false :=
  compare_exact ⟨by decide, by decide⟩ ⟨by decide, by decide⟩ .eq false

/-! ## Operators -/

/-- An arithmetic operator that succeeds has the exact result. -/
lemma applyBinary_exact {op : BinOp} (hop : isArith op = true) {x y : Int64}
    {w : Interpreter.Value} (h : Interpreter.applyBinary op (.number x) (.number y) = .ok w) :
    ∃ z : Int64, w = .number z ∧ z.toInt = exact op x.toInt y.toInt := by
  have hcompare : Interpreter.compareNumbers op x y = none := by
    cases op <;> simp only [isArith, reduceCtorEq] at hop <;> rfl
  have key : ∀ (what : String) (r : Option Int64),
      Interpreter.arith what r = .ok w → ∃ z, w = .number z ∧ r = some z := by
    intro what r hr
    cases r with
    | none => cases hr
    | some z =>
        cases hr
        exact ⟨z, rfl, rfl⟩
  simp only [Interpreter.applyBinary, hcompare] at h
  cases op <;> simp only [isArith, reduceCtorEq] at hop <;>
    simp only [Interpreter.arithNumbers, Option.getD_some] at h
  case add | sub | mul =>
    obtain ⟨z, rfl, hz⟩ := key _ _ h
    refine ⟨z, rfl, ?_⟩
    first
      | exact checkedAdd_eq_some.mp hz
      | exact checkedSub_eq_some.mp hz
      | exact checkedMul_eq_some.mp hz
  case div | mod =>
    split at h
    · cases h
    · obtain ⟨z, rfl, hz⟩ := key _ _ h
      refine ⟨z, rfl, ?_⟩
      first
        | exact (checkedDiv_eq_some.mp hz).2
        | exact (checkedRem_eq_some.mp hz).2.2

/-- A comparison of numbers that succeeds has the compared truth value. -/
lemma applyBinary_compare {op : BinOp} {x y : Int64} {w : Interpreter.Value}
    (hop : op = .eq ∨ op = .notEq ∨ op = .lt ∨ op = .ltEq ∨ op = .gt ∨ op = .gtEq)
    (h : Interpreter.applyBinary op (.number x) (.number y) = .ok w) :
    ∃ d, w = .bool d ∧ Interpreter.compareNumbers op x y = some d := by
  rcases hop with rfl | rfl | rfl | rfl | rfl | rfl <;>
  · cases h
    exact ⟨_, rfl, rfl⟩

lemma remainderFact_wf {a c : Int} (ha : InI64 a) : (remainderFact a c).Wf := by
  unfold remainderFact
  split
  · trivial
  · have h := tmod_between a c
    have hfit : InI64 (a.tmod c) := by
      unfold InI64 minI64 maxI64 at *
      omega
    exact Wf.interval (le_refl _) hfit hfit

lemma binaryFact_wf {op : BinOp} {a b : Fact} (ha : a.Wf) (hb : b.Wf) : (binaryFact op a b).Wf := by
  cases a <;> cases b <;> try trivial
  simp only [binaryFact]
  split <;> try trivial
  split
  · exact remainderFact_wf (Ranges.Wf.hull ha).2.1
  · exact Fact.ofRanges_wf fun r hr => Ranges.arithmetic_wf ha hb hr

lemma repeatedFact_wf {op : BinOp} {a : Ranges} (ha : a.Wf) : (repeatedFact op a).Wf := by
  unfold repeatedFact
  split <;> try trivial
  exact Fact.ofRanges_wf fun r hr => repeatedArithmetic_wf ha hr

lemma operatorFact_wf {op : BinOp} {repeated : Bool} {a b : Fact} (ha : a.Wf) (hb : b.Wf) :
    (operatorFact op repeated a b).Wf := by
  unfold operatorFact
  split
  · exact repeatedFact_wf ha
  · exact binaryFact_wf ha hb

/-- An operation of two known truth values. -/
lemma known_bind {f : Bool → Bool → Bool} {v w : Bool} {va vb : Option Bool}
    (hva : ∀ v' ∈ va, v' = v) (hvb : ∀ v' ∈ vb, v' = w) :
    ∀ r ∈ va.bind fun a => vb.map fun b => f a b, r = f v w := by
  intro r hr
  obtain ⟨a, ha, hr⟩ := Option.bind_eq_some_iff.mp hr
  obtain ⟨b, hb, rfl⟩ := Option.map_eq_some_iff.mp hr
  rw [hva a ha, hvb b hb]

/-- A known operation of two truth values is the second one, where the first is neutral. -/
lemma knownOr_right {f : Bool → Bool → Bool} {v w : Bool} {va vb : Option Bool} (hf : ∀ b, f v b = b)
    (hva : ∀ v' ∈ va, v' = v) (hvb : ∀ v' ∈ vb, v' = w) :
    ∀ r ∈ (if va = some (!v) ∨ vb = some (!v) then some (!v)
      else va.bind fun a => vb.map fun b => f a b), r = w := by
  intro r hr
  split at hr
  · rename_i hknown
    obtain rfl := Option.some.inj hr
    rcases hknown with hknown | hknown
    · exact absurd (hva _ hknown) (by cases v <;> decide)
    · exact hvb _ hknown
  · rw [known_bind hva hvb r hr, hf]

/-- The fact about a strict operator allows its result. -/
lemma binaryFact_mem {op : BinOp} (hlogic : ¬ (op = .and ∨ op = .or)) {a b : Fact} (ha : a.Wf)
    (hb : b.Wf) {l r w : Interpreter.Value} (hl : a.Mem l) (hr : b.Mem r)
    (h : Interpreter.applyBinary op l r = .ok w) : (binaryFact op a b).Mem w := by
  cases a <;> cases b <;> try trivial
  case number.number ra rb =>
    obtain ⟨x, rfl, hx⟩ := hl.exists_number
    obtain ⟨y, rfl, hy⟩ := hr.exists_number
    by_cases harith : isArith op = true
    · obtain ⟨z, rfl, hz⟩ := applyBinary_exact harith h
      have hset : (Fact.ofRanges (ra.arithmetic op rb)).Mem (.number z) :=
        Fact.ofRanges_mem fun s hs => hz ▸ (Ranges.arithmetic_sound ha hb hs hx hy).2.2
      cases op <;> simp only [isArith, reduceCtorEq] at harith <;>
        simp only [binaryFact, reduceCtorEq, false_and, if_false, true_and]
      case add | sub | mul | div => exact hset
      case mod =>
        split
        · rename_i hconst
          have h₁ := Ranges.Wf.mem_hull ha hx
          have h₂ := Ranges.Wf.mem_hull hb hy
          have hx' : ra.hull.1 = x.toInt := by omega
          have hy' : rb.hull.1 = y.toInt := by omega
          rw [hx', hy']
          unfold remainderFact
          split
          · trivial
          · show z.toInt ∈ Ranges.interval _ _
            rw [hz]
            exact Ranges.mem_interval.mpr ⟨le_refl _, le_refl _⟩
        · exact hset
    · have hop : op = .eq ∨ op = .notEq ∨ op = .lt ∨ op = .ltEq ∨ op = .gt ∨ op = .gtEq := by
        cases op <;> simp [isArith] at harith hlogic ⊢
      obtain ⟨d, rfl, hd⟩ := applyBinary_compare hop h
      have hmem : (Fact.bool (compare op ra rb)).Mem (.bool d) := by
        intro d' hd'
        rw [compare_sound (Option.mem_def.mp hd') hx hy] at hd
        exact Option.some.inj hd
      rcases hop with rfl | rfl | rfl | rfl | rfl | rfl <;> exact hmem
  case bool.bool va vb =>
    obtain ⟨x, rfl, hx⟩ := hl.exists_bool
    obtain ⟨y, rfl, hy⟩ := hr.exists_bool
    cases op <;> simp only [Interpreter.applyBinary, Interpreter.fail, reduceCtorEq] at h
    case eq =>
      cases h
      exact known_bind hx hy
    case notEq =>
      cases h
      have hne : decide (x ≠ y) = (x != y) := by cases x <;> cases y <;> rfl
      rw [hne]
      exact known_bind hx hy

/-- The fact about an operator on one number read twice allows its result. -/
lemma repeatedFact_mem {op : BinOp} {a : Ranges} (ha : a.Wf) {x : Int64} (hx : x.toInt ∈ a)
    {w : Interpreter.Value} (h : Interpreter.applyBinary op (.number x) (.number x) = .ok w) :
    (repeatedFact op a).Mem w := by
  by_cases harith : isArith op = true
  · obtain ⟨z, rfl, hz⟩ := applyBinary_exact harith h
    have hset : (Fact.ofRanges (a.repeatedArithmetic op)).Mem (.number z) :=
      Fact.ofRanges_mem fun s hs => hz ▸ (repeatedArithmetic_sound ha hs hx).2.2
    cases op <;> simp only [isArith, reduceCtorEq] at harith <;> exact hset
  · cases op <;> simp only [isArith, not_true_eq_false] at harith <;>
      simp only [Interpreter.applyBinary, Interpreter.compareNumbers, Interpreter.arithNumbers,
        Option.getD_none, Interpreter.fail, reduceCtorEq] at h
    all_goals
      cases h
      simp [repeatedFact, Fact.Mem]

/-- The fact about a strict operator allows its result; `repeated` operands have one value. -/
lemma operatorFact_mem {op : BinOp} (hlogic : ¬ (op = .and ∨ op = .or)) {repeated : Bool}
    {a b : Fact} (ha : a.Wf) (hb : b.Wf) {l r w : Interpreter.Value} (hl : a.Mem l) (hr : b.Mem r)
    (hrep : repeated = true → l = r) (h : Interpreter.applyBinary op l r = .ok w) :
    (operatorFact op repeated a b).Mem w := by
  unfold operatorFact
  split
  · obtain ⟨x, rfl, hx⟩ := hl.exists_number
    obtain rfl := hrep rfl
    exact repeatedFact_mem ha hx h
  · exact binaryFact_mem hlogic ha hb hl hr h

/-- The fact about a logical operator whose left operand decides it. -/
lemma operatorFact_short {op : BinOp} {repeated : Bool} {a b : Fact} {v : Bool}
    (hshort : Interpreter.shortCircuits op v = true) (hl : a.Mem (.bool v)) :
    (operatorFact op repeated a b).Mem (.bool v) := by
  have hop : op = .and ∧ v = false ∨ op = .or ∧ v = true := by
    cases op <;> cases v <;> simp_all [Interpreter.shortCircuits]
  cases a with
  | number ra => exact hl.elim
  | unknown =>
      unfold operatorFact
      cases b <;> cases repeated <;> trivial
  | bool va =>
      cases b with
      | number rb => cases repeated <;> trivial
      | unknown => cases repeated <;> trivial
      | bool vb =>
          have hva : ∀ v' ∈ va, v' = v := hl
          rcases hop with ⟨rfl, rfl⟩ | ⟨rfl, rfl⟩ <;>
            cases va <;> cases vb <;> cases repeated <;>
            simp_all [operatorFact, binaryFact, Fact.Mem]

/-- The fact about a logical operator whose right operand decides it. -/
lemma operatorFact_right {op : BinOp} (hlogic : op = .and ∨ op = .or) {repeated : Bool} {a b : Fact}
    {v w : Bool} (hshort : Interpreter.shortCircuits op v = false) (hl : a.Mem (.bool v))
    (hr : b.Mem (.bool w)) : (operatorFact op repeated a b).Mem (.bool w) := by
  have hop : op = .and ∧ v = true ∨ op = .or ∧ v = false := by
    rcases hlogic with rfl | rfl <;> cases v <;> simp_all [Interpreter.shortCircuits]
  cases a with
  | number ra => exact hl.elim
  | unknown =>
      unfold operatorFact
      cases b <;> cases repeated <;> trivial
  | bool va =>
      cases b with
      | number rb => exact hr.elim
      | unknown => cases repeated <;> trivial
      | bool vb =>
          have hva : ∀ v' ∈ va, v' = v := hl
          have hvb : ∀ v' ∈ vb, v' = w := hr
          have hfact : operatorFact op repeated (.bool va) (.bool vb) =
              binaryFact op (.bool va) (.bool vb) := by
            cases repeated <;> rfl
          rw [hfact]
          rcases hop with ⟨rfl, rfl⟩ | ⟨rfl, rfl⟩
          · exact knownOr_right Bool.true_and hva hvb
          · exact knownOr_right Bool.false_or hva hvb

/-! ## Unary operations and minima -/

/-- A piecewise operation that succeeds where another does, with the same result. -/
lemma map_of_imp {a r : Ranges} {f g : Interval → Except String Interval}
    (hfg : ∀ p s, f p = .ok s → g p = .ok s) (h : a.map f = .ok r) : a.map g = .ok r := by
  obtain ⟨pieces, hpieces, hr⟩ := Except.bind_eq_ok.mp h
  refine Except.bind_eq_ok.mpr ⟨pieces, ?_, hr⟩
  rw [Except.mapM_eq_ok] at hpieces ⊢
  exact hpieces.imp fun (p : Interval × Interval) s => hfg p.1 s

lemma negInterval_of_negPiece {p s : Interval} (h : negPiece p = .ok s) : negInterval p = .ok s := by
  unfold negPiece at h
  split at h
  · cases h
  · rename_i hmin
    unfold negInterval
    rw [if_neg fun h' => hmin (Or.inl h')]
    exact h

lemma absInterval_of_absPiece {p s : Interval} (h : absPiece p = .ok s) : absInterval p = .ok s := by
  unfold absPiece at h
  split at h
  · cases h
  · rename_i hmin
    unfold absInterval
    rw [if_neg fun h' => hmin (Or.inl h')]
    exact h

lemma notFact_mem {f : Fact} {w w' : Interpreter.Value} (hw : f.Mem w)
    (h : Interpreter.applyNot w = .ok w') : (notFact f).Mem w' := by
  cases f <;> try trivial
  obtain ⟨b, rfl, hb⟩ := hw.exists_bool
  cases h
  intro b' hb'
  obtain ⟨c, hc, rfl⟩ := Option.map_eq_some_iff.mp hb'
  rw [hb c hc]

lemma mapFact_wf {f : Interval → Except String Interval} {a : Fact}
    (hf : ∀ ra r, a = .number ra → ra.map f = .ok r → r.Wf) : (mapFact f a).Wf := by
  cases a with
  | number ra => exact Fact.ofRanges_wf fun r hr => hf ra r rfl hr
  | _ => trivial

lemma negFact_wf {a : Fact} (ha : a.Wf) : (mapFact negPiece a).Wf := by
  refine mapFact_wf fun ra r hra hr => ?_
  subst hra
  exact (negInterval_sound ha (map_of_imp (fun _ _ => negInterval_of_negPiece) hr)).1

lemma absFact_wf {a : Fact} (ha : a.Wf) : (mapFact absPiece a).Wf := by
  refine mapFact_wf fun ra r hra hr => ?_
  subst hra
  exact (absInterval_sound ha (map_of_imp (fun _ _ => absInterval_of_absPiece) hr)).1

lemma negFact_mem {a : Fact} (ha : a.Wf) {w w' : Interpreter.Value} (hw : a.Mem w)
    (h : Interpreter.applyNeg w = .ok w') : (mapFact negPiece a).Mem w' := by
  cases a <;> try trivial
  rename_i ra
  obtain ⟨x, rfl, hx⟩ := hw.exists_number
  simp only [Interpreter.applyNeg, Interpreter.arith] at h
  cases hy : checkedNeg x with
  | none => simp [hy] at h
  | some y =>
      simp only [hy, Except.ok.injEq] at h
      subst h
      refine Fact.ofRanges_mem fun r hr => ?_
      obtain ⟨y', hy', hmem⟩ :=
        (negInterval_sound ha (map_of_imp (fun _ _ => negInterval_of_negPiece) hr)).2 x hx
      rw [hy] at hy'
      cases hy'
      exact hmem

lemma absFact_mem {a : Fact} (ha : a.Wf) {w w' : Interpreter.Value} (hw : a.Mem w)
    (h : Interpreter.applyAbs w = .ok w') : (mapFact absPiece a).Mem w' := by
  cases a <;> try trivial
  obtain ⟨x, rfl, hx⟩ := hw.exists_number
  cases h
  exact Fact.ofRanges_mem fun r hr =>
    (absInterval_sound ha (map_of_imp (fun _ _ => absInterval_of_absPiece) hr)).2 x hx

lemma minFact_wf {a b : Fact} (ha : a.Wf) (hb : b.Wf) : (pairwiseFact minInterval a b).Wf := by
  cases a <;> cases b <;> try trivial
  exact Fact.ofRanges_wf fun r hr => (minInterval_sound ha hb hr).1

lemma maxFact_wf {a b : Fact} (ha : a.Wf) (hb : b.Wf) : (pairwiseFact maxInterval a b).Wf := by
  cases a <;> cases b <;> try trivial
  exact Fact.ofRanges_wf fun r hr => (maxInterval_sound ha hb hr).1

lemma minFact_mem {a b : Fact} (ha : a.Wf) (hb : b.Wf) {name : String} {l r w : Interpreter.Value}
    (hl : a.Mem l) (hr : b.Mem r) (h : Interpreter.numbersOp name min l r = .ok w) :
    (pairwiseFact minInterval a b).Mem w := by
  cases a <;> cases b <;> try trivial
  obtain ⟨x, rfl, hx⟩ := hl.exists_number
  obtain ⟨y, rfl, hy⟩ := hr.exists_number
  cases h
  refine Fact.ofRanges_mem fun s hs => ?_
  rw [toInt_min]
  exact (minInterval_sound ha hb hs).2 _ hx _ hy

lemma maxFact_mem {a b : Fact} (ha : a.Wf) (hb : b.Wf) {name : String} {l r w : Interpreter.Value}
    (hl : a.Mem l) (hr : b.Mem r) (h : Interpreter.numbersOp name max l r = .ok w) :
    (pairwiseFact maxInterval a b).Mem w := by
  cases a <;> cases b <;> try trivial
  obtain ⟨x, rfl, hx⟩ := hl.exists_number
  obtain ⟨y, rfl, hy⟩ := hr.exists_number
  cases h
  refine Fact.ofRanges_mem fun s hs => ?_
  rw [toInt_max]
  exact (maxInterval_sound ha hb hs).2 _ hx _ hy

end Verbosec.NumericBounds
