import Verbosec.NumericBounds.Check

/-!
# The abstract operations stand for the runtime operations

* `negInterval_sound`, `absInterval_sound`, `minInterval_sound`, `maxInterval_sound` - unary
  operations and minima on interval sets.
* `joinValues_spec` - the abstract value of a conditional covers both arms.
* `binaryValue_sound` - on operands that the abstract operands stand for, a strict operator
  succeeds, with a value that the abstract result stands for.
-/

namespace Verbosec.NumericBounds

open Verbosec.Lib Ranges

/-! ## Unary operations and minima -/

lemma negInterval_wf {p s : Interval} (hp : WfPiece p) (h : negInterval p = .ok s) : WfPiece s := by
  obtain ⟨hle, hlo, hhi⟩ := hp
  unfold negInterval at h
  split at h
  · cases h
  · rename_i hmin
    cases h
    unfold WfPiece InI64 minI64 maxI64 at *
    omega

/-- Negation does not overflow on an accepted set. -/
lemma negInterval_sound {a r : Ranges} (ha : a.Wf) (h : a.map negInterval = .ok r) :
    r.Wf ∧ ∀ x : Int64, x.toInt ∈ a → ∃ y, checkedNeg x = some y ∧ y.toInt ∈ r := by
  obtain ⟨hr, hcover⟩ := map_spec (fun p hp s => negInterval_wf (ha.piece p hp)) h
  refine ⟨hr, fun x hx => ?_⟩
  obtain ⟨p, hp, h₁, h₂⟩ := hx
  obtain ⟨s, hs, hmem⟩ := hcover p hp
  obtain ⟨-, hlo, hhi⟩ := ha.piece p hp
  unfold negInterval at hs
  split at hs
  · cases hs
  · rename_i hmin
    cases hs
    have hfit : InI64 (-x.toInt) := by
      unfold InI64 minI64 maxI64 at *
      omega
    obtain ⟨y, hy, hval⟩ := exists_toI64? hfit
    exact ⟨y, hy, hval ▸ hmem _ (by simp only; omega) (by simp only; omega)⟩

lemma absInterval_wf {p s : Interval} (hp : WfPiece p) (h : absInterval p = .ok s) : WfPiece s := by
  obtain ⟨hle, hlo, hhi⟩ := hp
  unfold absInterval at h
  split at h
  · cases h
  · rename_i hmin
    cases h
    unfold WfPiece InI64 minI64 maxI64 at *
    split <;> omega

/-- The absolute value stays in the accepted set. -/
lemma absInterval_sound {a r : Ranges} (ha : a.Wf) (h : a.map absInterval = .ok r) :
    r.Wf ∧ ∀ x : Int64, x.toInt ∈ a → x.abs.toInt ∈ r := by
  obtain ⟨hr, hcover⟩ := map_spec (fun p hp s => absInterval_wf (ha.piece p hp)) h
  refine ⟨hr, fun x hx => ?_⟩
  obtain ⟨p, hp, h₁, h₂⟩ := hx
  obtain ⟨s, hs, hmem⟩ := hcover p hp
  obtain ⟨-, hlo, -⟩ := ha.piece p hp
  unfold absInterval at hs
  split at hs
  · cases hs
  · rename_i hmin
    cases hs
    have hmin' : x.toInt ≠ minI64 := by
      have := hlo.1
      omega
    rw [toInt_abs hmin']
    refine hmem _ ?_ (by simp only; omega)
    simp only
    split <;> omega

/-- A total operation on members of two sets, by its effect on intervals. -/
lemma pairwise_total {a b r : Ranges} {f : Int → Int → Int}
    {g : Interval → Interval → Except String Interval} (ha : a.Wf) (hb : b.Wf)
    (hwf : ∀ p q s, WfPiece p → WfPiece q → g p q = .ok s → WfPiece s)
    (hfg : ∀ p q s x y, g p q = .ok s → p.1 ≤ x ∧ x ≤ p.2 → q.1 ≤ y ∧ y ≤ q.2 →
      s.1 ≤ f x y ∧ f x y ≤ s.2)
    (h : a.pairwise b g = .ok r) : r.Wf ∧ ∀ x ∈ a, ∀ y ∈ b, f x y ∈ r := by
  obtain ⟨hr, hcover⟩ :=
    pairwise_spec (fun p hp q hq s => hwf p q s (ha.piece p hp) (hb.piece q hq)) h
  refine ⟨hr, ?_⟩
  rintro x ⟨p, hp, hxp⟩ y ⟨q, hq, hyq⟩
  obtain ⟨s, hs, hmem⟩ := hcover p hp q hq
  obtain ⟨h₁, h₂⟩ := hfg p q s x y hs hxp hyq
  exact hmem _ h₁ h₂

/-- The minimum stays in the computed set. -/
lemma minInterval_sound {a b r : Ranges} (ha : a.Wf) (hb : b.Wf)
    (h : a.pairwise b minInterval = .ok r) :
    r.Wf ∧ ∀ x ∈ a, ∀ y ∈ b, min x y ∈ r := by
  refine pairwise_total (f := min) ha hb (fun p q s hp hq hs => ?_)
    (fun p q s x y hs hx hy => ?_) h
  · cases hs
    unfold WfPiece InI64 at *
    simp only
    omega
  · cases hs
    simp only
    omega

/-- The maximum stays in the computed set. -/
lemma maxInterval_sound {a b r : Ranges} (ha : a.Wf) (hb : b.Wf)
    (h : a.pairwise b maxInterval = .ok r) :
    r.Wf ∧ ∀ x ∈ a, ∀ y ∈ b, max x y ∈ r := by
  refine pairwise_total (f := max) ha hb (fun p q s hp hq hs => ?_)
    (fun p q s x y hs hx hy => ?_) h
  · cases hs
    unfold WfPiece InI64 at *
    simp only
    omega
  · cases hs
    simp only
    omega

/-! ## Conditionals -/

/-- The abstract value of a conditional is well formed and covers both arms. -/
lemma joinValues_spec {a b v : Value} (ha : a.Wf) (hb : b.Wf) (h : joinValues a b = .ok v) :
    v.Wf ∧ ∀ w, a.Mem w ∨ b.Mem w → v.Mem w := by
  cases a <;> cases b <;> simp only [joinValues, reduceCtorEq] at h
  case number.number ra rb =>
    obtain ⟨r, hr, hv⟩ := Except.map_eq_ok.mp h
    subst hv
    obtain ⟨hwf, hmem⟩ := join_spec ha hb hr
    refine ⟨hwf, fun w hw => ?_⟩
    rcases hw with hw | hw
    · obtain ⟨n, rfl, hn⟩ := hw.exists_number
      exact hmem _ (Or.inl hn)
    · obtain ⟨n, rfl, hn⟩ := hw.exists_number
      exact hmem _ (Or.inr hn)
  case bool.bool =>
    cases h
    exact ⟨trivial, fun w hw => by tauto⟩

/-! ## Strict binary operators -/

/-- The runtime result of an arithmetic operator whose exact result is representable. -/
lemma arithNumbers_of_inI64 {op : BinOp} (hop : isArith op = true) {x y : Int64}
    (hdiv : op = .div ∨ op = .mod → y.toInt ≠ 0 ∧ ¬ (x.toInt = minI64 ∧ y.toInt = -1))
    (hfit : InI64 (exact op x.toInt y.toInt)) :
    ∃ z : Int64, Interpreter.arithNumbers op x y = some (.ok (.number z)) ∧
      z.toInt = exact op x.toInt y.toInt := by
  obtain ⟨z, hz, hval⟩ := exists_toI64? hfit
  refine ⟨z, ?_, hval⟩
  have hy0 : op = .div ∨ op = .mod → y ≠ 0 := by
    rintro h rfl
    exact (hdiv h).1 rfl
  cases op <;> simp only [isArith, reduceCtorEq] at hop <;>
    simp only [Interpreter.arithNumbers, Interpreter.arith]
  case add => rw [checkedAdd_eq_some.mpr hval]
  case sub => rw [checkedSub_eq_some.mpr hval]
  case mul => rw [checkedMul_eq_some.mpr hval]
  case div =>
    rw [if_neg (hy0 (Or.inl rfl)), checkedDiv_eq_some.mpr ⟨(hdiv (Or.inl rfl)).1, hval⟩]
  case mod =>
    rw [if_neg (hy0 (Or.inr rfl)),
      checkedRem_eq_some.mpr ⟨(hdiv (Or.inr rfl)).1, (hdiv (Or.inr rfl)).2, hval⟩]

/-- An arithmetic operator applied to two numbers is their arithmetic. -/
lemma applyBinary_arith {op : BinOp} (hop : isArith op = true) {x y : Int64}
    {o : Interpreter.Outcome Interpreter.Value} (h : Interpreter.arithNumbers op x y = some o) :
    Interpreter.applyBinary op (.number x) (.number y) = o := by
  have hc : Interpreter.compareNumbers op x y = none := by
    cases op <;> simp [isArith] at hop <;> rfl
  simp [Interpreter.applyBinary, hc, h]

/-- What an accepted arithmetic operator computes. -/
lemma binaryValue_arith {op : BinOp} (hop : isArith op = true) {repeated : Bool} {a b v : Value}
    (h : binaryValue op repeated a b = .ok v) :
    ∃ ra rb r, a = .number ra ∧ b = .number rb ∧ v = .number r ∧
      operandArithmetic op repeated ra rb = .ok r := by
  have h' : (do
      let a ← a.asNumber
      let b ← b.asNumber
      let ranges ← operandArithmetic op repeated a b
      .ok (.number ranges) : Except String Value) = .ok v := by
    cases op <;> simp only [isArith, reduceCtorEq] at hop <;>
      simpa only [binaryValue, reduceCtorEq, or_self, false_and, if_false] using h
  obtain ⟨ra, ha, h'⟩ := Except.bind_eq_ok.mp h'
  obtain ⟨rb, hb, h'⟩ := Except.bind_eq_ok.mp h'
  obtain ⟨r, hr, h'⟩ := Except.bind_eq_ok.mp h'
  cases h'
  exact ⟨ra, rb, r, Value.asNumber_eq_ok.mp ha, Value.asNumber_eq_ok.mp hb, rfl, hr⟩

/-- An accepted comparison has abstract operands of one type, and a truth value as result. -/
lemma binaryValue_comparison {op : BinOp} (harith : isArith op = false)
    (hlogic : ¬ (op = .and ∨ op = .or)) {repeated : Bool} {a b v : Value}
    (h : binaryValue op repeated a b = .ok v) :
    v = .bool ∧ a.ty = b.ty ∧ (a.ty = .bool → op = .eq ∨ op = .notEq) := by
  cases op <;> simp only [isArith, reduceCtorEq] at harith <;>
    simp only [reduceCtorEq, or_false, or_true, or_self, not_true_eq_false] at hlogic
  case gt | gtEq | lt | ltEq =>
    obtain ⟨ra, ha, h⟩ := Except.bind_eq_ok.mp h
    obtain ⟨rb, hb, h⟩ := Except.bind_eq_ok.mp h
    rw [Value.asNumber_eq_ok] at ha hb
    subst ha hb
    cases h
    simp [Value.ty]
  case eq | notEq =>
    simp only [binaryValue] at h
    split at h
    · rename_i hty
      cases h
      exact ⟨rfl, hty.2, by simp⟩
    · rename_i hty
      obtain ⟨ra, ha, h⟩ := Except.bind_eq_ok.mp h
      obtain ⟨rb, hb, h⟩ := Except.bind_eq_ok.mp h
      rw [Value.asNumber_eq_ok] at ha hb
      subst ha hb
      simp [Value.ty] at hty

/-- The abstract result of an operator is well formed. -/
lemma binaryValue_wf {op : BinOp} {repeated : Bool} {a b v : Value} (ha : a.Wf) (hb : b.Wf)
    (h : binaryValue op repeated a b = .ok v) : v.Wf := by
  by_cases harith : isArith op = true
  · obtain ⟨ra, rb, r, rfl, rfl, rfl, hr⟩ := binaryValue_arith harith h
    cases repeated
    · exact Ranges.arithmetic_wf ha hb hr
    · exact repeatedArithmetic_wf ha hr
  · by_cases hlogic : op = .and ∨ op = .or
    · rcases hlogic with rfl | rfl <;>
      · obtain ⟨-, -, h⟩ := Except.bind_eq_ok.mp h
        obtain ⟨-, -, h⟩ := Except.bind_eq_ok.mp h
        cases h
        trivial
    · obtain ⟨rfl, -⟩ := binaryValue_comparison (by simpa using harith) hlogic h
      trivial

/-- **A strict operator succeeds on accepted operands**, with a value that the abstract result
stands for. `repeated` operands are one scalar read twice. -/
theorem binaryValue_sound {op : BinOp} (hlogic : ¬ (op = .and ∨ op = .or)) {repeated : Bool}
    {a b v : Value} (ha : a.Wf) (hb : b.Wf) (h : binaryValue op repeated a b = .ok v)
    {l r : Interpreter.Value} (hl : a.Mem l) (hr : b.Mem r) (hrep : repeated = true → l = r) :
    ∃ w, Interpreter.applyBinary op l r = .ok w ∧ v.Mem w := by
  by_cases harith : isArith op = true
  · obtain ⟨ra, rb, rv, rfl, rfl, rfl, hrv⟩ := binaryValue_arith harith h
    obtain ⟨x, rfl, hx⟩ := hl.exists_number
    obtain ⟨y, rfl, hy⟩ := hr.exists_number
    have key : (op = .div ∨ op = .mod → y.toInt ≠ 0 ∧ ¬ (x.toInt = minI64 ∧ y.toInt = -1)) ∧
        InI64 (exact op x.toInt y.toInt) ∧ exact op x.toInt y.toInt ∈ rv := by
      cases repeated
      · exact Ranges.arithmetic_sound ha hb hrv hx hy
      · have hxy : x = y := by simpa using hrep rfl
        subst hxy
        obtain ⟨hdiv, hfit, hmem⟩ := repeatedArithmetic_sound ha hrv hx
        refine ⟨fun hop => ⟨hdiv hop, ?_⟩, hfit, hmem⟩
        rintro ⟨h₁, h₂⟩
        rw [h₁] at h₂
        exact absurd h₂ (by decide)
    obtain ⟨hdiv, hfit, hmem⟩ := key
    obtain ⟨z, hz, hval⟩ := arithNumbers_of_inI64 harith hdiv hfit
    exact ⟨.number z, applyBinary_arith harith hz, by show z.toInt ∈ rv; rwa [hval]⟩
  · have harith' : isArith op = false := by simpa using harith
    obtain ⟨rfl, hty, hbool⟩ := binaryValue_comparison harith' hlogic h
    cases a with
    | number ra =>
        cases b with
        | bool => cases hty
        | number rb =>
            obtain ⟨x, rfl, -⟩ := hl.exists_number
            obtain ⟨y, rfl, -⟩ := hr.exists_number
            cases op <;> simp only [isArith, reduceCtorEq] at harith' <;>
              simp only [reduceCtorEq, or_false, or_true, or_self, not_true_eq_false] at hlogic <;>
              exact ⟨_, rfl, trivial⟩
    | bool =>
        cases b with
        | number rb => cases hty
        | bool =>
            obtain ⟨x, rfl⟩ := hl.exists_bool
            obtain ⟨y, rfl⟩ := hr.exists_bool
            rcases hbool rfl with rfl | rfl <;> exact ⟨_, rfl, trivial⟩

end Verbosec.NumericBounds
