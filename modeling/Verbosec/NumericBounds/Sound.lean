import Mathlib.Order.Filter.AtTopBot.Basic
import Verbosec.Interpreter.Fuel
import Verbosec.Interpreter.Guard
import Verbosec.NumericBounds.Operations

/-!
# The strict overflow verifier is sound

* `ExprSound`, `RuleSound` - what an abstract value says about an expression and a rule: with enough
  fuel, on every described environment and every valid input, the evaluation ends in a value that
  the abstract value stands for. The one failure left is the refusal of a declared byte bound
  (`TextRefusal`), which this verifier does not look at.
* `expr_keeps`, `ruleInner_keeps` - the verifier establishes them, the invariant being that they hold
  of every cached rule.
* `verify_sound` - a program without errors: on every record an active rule neither overflows nor
  divides by zero, its result lies in the declared interval, and on a record that passes the entry
  guard its evaluation ends.

"With enough fuel" is `∀ᶠ fuel in Filter.atTop`; `Interpreter.evalRule_mono` carries an outcome reached
with enough fuel to every fuel.
-/

namespace Verbosec.NumericBounds

open Verbosec.Lib Verbosec.Lib.Fallible Interpreter

/-- A record that passes the guard has its numeric fields in range. -/
lemma inRange_of_valid {concept : Concept} {fields : Dict String Interpreter.Value}
    (h : ValidInput concept fields) : NumericFieldsInRange concept fields := by
  intro f hf hty
  have hvalid := h f hf
  unfold fieldValid at hvalid
  rw [hty] at hvalid
  cases hlookup : fields.lookup f.name with
  | none => simp [hlookup] at hvalid
  | some w =>
      rw [hlookup] at hvalid
      cases w <;> simp only [Bool.false_eq_true] at hvalid
      rename_i n
      refine ⟨n, rfl, ?_⟩
      unfold declaredRange
      cases hr : f.range with
      | none => exact Ranges.mem_interval.mpr (inI64_toInt n)
      | some b =>
          simp only [hr, Option.elim_some, Bool.and_eq_true, decide_eq_true_eq,
            Int64.le_iff_toInt_le] at hvalid
          exact Ranges.mem_interval.mpr hvalid

/-! ## What the verifier establishes -/

variable {ctx : Context} {chk : Check}

/-- The interpreter and the verifier see the same declarations. -/
structure SameTables (ctx : Context) (chk : Check) : Prop where
  /-- the same rules -/
  rules : ∀ n, chk.rules.lookup n = ctx.findRule n
  /-- the same concepts -/
  concepts : ∀ n, chk.concepts.lookup n = ctx.concepts.find? (·.name = n)

/-- The refusal of a declared byte bound, which only a text result can meet. -/
def TextRefusal (f : Failure) : Prop := ∃ name max, f = .runtime (.textOutput name max)

/-- What the abstract value of an expression says about its evaluation. -/
structure ExprSound (ctx : Context) (scope : Scope) (e : Expr) (v : Value) : Prop where
  /-- the abstract value is well formed -/
  wf : v.Wf
  /-- the evaluation ends within the abstract value -/
  eval : ∀ᶠ fuel in Filter.atTop, ∀ env fields, scope.Models env fields →
    ValidInput scope.concept fields →
    Within TextRefusal v.Mem (evalExpr ctx (evalRule ctx fuel) env e)

/-- What the abstract value of a rule says about its evaluation. -/
structure RuleSound (ctx : Context) (chk : Check) (name : String) (v : Value) : Prop where
  /-- the abstract value is well formed -/
  wf : v.Wf
  /-- the rule exists, and its evaluation ends within the abstract value -/
  eval : ∃ r concept, chk.rules.lookup name = some r ∧ chk.inputConcept r = .ok concept ∧
    (∀ h, r.hints.bind (·.overflow) = some h →
      v = .number (.interval h.min.toInt h.max.toInt)) ∧
    ∀ᶠ fuel in Filter.atTop, ∀ fields, ValidInput concept fields →
      Within TextRefusal v.Mem (evalRule ctx fuel r (.record fields))

/-! ## Input concepts -/

/-- What an accepted input concept guarantees. -/
lemma inputConcept_eq_ok {r : Rule} {c : Concept} (h : chk.inputConcept r = .ok c) :
    ∃ cname, r.inputTy = .named cname ∧ chk.concepts.lookup cname = some c ∧
      (∀ f ∈ c.fields, ∀ b ∈ f.range, b.1 ≤ b.2) ∧ (r.outputTy = .number ∨ r.outputTy = .bool) := by
  unfold Check.inputConcept at h
  split at h
  · cases h
  split at h
  · cases h
  rename_i hout
  split at h
  · rename_i cname hty
    split at h
    · cases h
    rename_i c' hc'
    split at h
    · cases h
    split at h
    · cases h
    rename_i hbounds
    cases h
    refine ⟨cname, hty, hc', fun f hf b hb => ?_, by simpa [or_iff_not_imp_left] using hout⟩
    have := List.find?_eq_none.mp hbounds f hf
    rw [Option.mem_def.mp hb] at this
    simp only [Option.any_some, Bool.or_eq_true, decide_eq_true_eq, not_or] at this
    exact Int64.le_iff_toInt_le.mpr (by have := this.1; rw [Int64.lt_iff_toInt_lt] at this; omega)
  · cases h

/-- Rules with one input type have one input concept. -/
lemma inputConcept_unique {r r' : Rule} {c c' : Concept} (hty : r.inputTy = r'.inputTy)
    (h : chk.inputConcept r = .ok c) (h' : chk.inputConcept r' = .ok c') : c = c' := by
  obtain ⟨n, hn, hc, -⟩ := inputConcept_eq_ok h
  obtain ⟨n', hn', hc', -⟩ := inputConcept_eq_ok h'
  rw [hn, hn'] at hty
  cases hty
  rw [hc] at hc'
  exact Option.some.inj hc'

/-- The interpreter finds the input concept of an accepted rule. -/
lemma find?_inputConcept (htables : SameTables ctx chk) {r : Rule} {c : Concept}
    (hc : chk.inputConcept r = .ok c) :
    ctx.concepts.find? (fun k => r.inputTy = .named k.name) = some c := by
  obtain ⟨cname, hty, hlookup, -⟩ := inputConcept_eq_ok hc
  rw [← hlookup, htables.concepts, hty]
  congr 1
  funext k
  simp [eq_comm]

/-! ## Expressions -/

/-- A guard does not change the input concept. -/
@[simp] lemma Scope.branch_concept (s : Scope) (condition : Expr) (truth : Bool) :
    (s.branch condition truth).concept = s.concept := (Scope.SameFrame.branch s condition truth).concept

/-- An expression computed from the value of its only child. -/
lemma ExprSound.unary {scope : Scope} {e c : Expr} {v v' : Value} {f : Interpreter.Value → Outcome _}
    (hc : ExprSound ctx scope c v) (hwf : v'.Wf)
    (he : ∀ call env, evalExpr ctx call env e = evalExpr ctx call env c >>= f)
    (hf : ∀ w, v.Mem w → ∃ w', f w = .ok w' ∧ v'.Mem w') : ExprSound ctx scope e v' where
  wf := hwf
  eval := by
    filter_upwards [hc.eval] with fuel h env fields hm hvalid
    rw [he]
    refine (h env fields hm hvalid).bind fun w _ hw => ?_
    obtain ⟨w', hw', hmem⟩ := hf w hw
    exact .of_ok hw' hmem

/-- An expression computed from the values of its two children, which are one value where both
children read one scalar. -/
lemma ExprSound.binary {scope : Scope} {e a b : Expr} {va vb v : Value}
    {f : Interpreter.Value → Interpreter.Value → Outcome _}
    (ha : ExprSound ctx scope a va) (hb : ExprSound ctx scope b vb) (hwf : v.Wf)
    (he : ∀ call env, evalExpr ctx call env e =
      evalExpr ctx call env a >>= fun l => evalExpr ctx call env b >>= f l)
    (hf : ∀ l r, va.Mem l → vb.Mem r → (scope.sameScalar a b = true → l = r) →
      ∃ w, f l r = .ok w ∧ v.Mem w) : ExprSound ctx scope e v where
  wf := hwf
  eval := by
    filter_upwards [ha.eval, hb.eval] with fuel h₁ h₂ env fields hm hvalid
    rw [he]
    refine (h₁ env fields hm hvalid).bind fun l hl hlm => ?_
    refine (h₂ env fields hm hvalid).bind fun r hr hrm => ?_
    obtain ⟨w, hw, hmem⟩ := hf l r hlm hrm fun hsame => hm.sameScalar_sound hsame hl hr
    exact .of_ok hw hmem

/-- A checked conditional is sound: each arm is sound in the scope of its guard. -/
lemma ExprSound.ite {scope : Scope} (hscope : scope.Wf) {c a b : Expr} {va vb v : Value}
    (hc : ExprSound ctx scope c .bool) (ha : ExprSound ctx (scope.branch c true) a va)
    (hb : ExprSound ctx (scope.branch c false) b vb) (hv : joinValues va vb = .ok v) :
    ExprSound ctx scope (.ite c a b) v where
  wf := (joinValues_spec ha.wf hb.wf hv).1
  eval := by
    have hjoin := (joinValues_spec ha.wf hb.wf hv).2
    filter_upwards [hc.eval, ha.eval, hb.eval] with fuel h₁ h₂ h₃ env fields hm hvalid
    unfold evalExpr
    refine (h₁ env fields hm hvalid).bind fun w hw hmem => ?_
    obtain ⟨t, rfl⟩ := hmem.exists_bool
    have hbranch := hm.branch hscope hw
    cases t with
    | true =>
        exact (h₂ env fields hbranch (by simpa using hvalid)).mono (fun _ he => he)
          fun w hw => hjoin w (Or.inl hw)
    | false =>
        exact (h₃ env fields hbranch (by simpa using hvalid)).mono (fun _ he => he)
          fun w hw => hjoin w (Or.inr hw)

/-- A checked logical operator is sound whether or not it short-circuits. -/
lemma ExprSound.logical {scope : Scope} {op : BinOp} (hop : op = .and ∨ op = .or) {a b : Expr}
    {va vb v : Value} {repeated : Bool} (ha : ExprSound ctx scope a va)
    (hb : ExprSound ctx scope b vb) (hv : binaryValue op repeated va vb = .ok v) :
    ExprSound ctx scope (.binary op a b) v := by
  have hbool : va = .bool ∧ vb = .bool ∧ v = .bool := by
    rcases hop with rfl | rfl <;>
    · obtain ⟨_, hva, hv⟩ := Except.bind_eq_ok.mp hv
      obtain ⟨_, hvb, hv⟩ := Except.bind_eq_ok.mp hv
      cases hv
      exact ⟨Value.asBoolean_eq_ok.mp hva, Value.asBoolean_eq_ok.mp hvb, rfl⟩
  obtain ⟨rfl, rfl, rfl⟩ := hbool
  refine ⟨trivial, ?_⟩
  filter_upwards [ha.eval, hb.eval] with fuel h₁ h₂ env fields hm hvalid
  unfold evalExpr
  refine (h₁ env fields hm hvalid).bind fun l _ hl => ?_
  obtain ⟨x, rfl⟩ := hl.exists_bool
  simp only [if_pos hop]
  split
  · exact .of_ok rfl trivial
  · refine (h₂ env fields hm hvalid).bind fun r _ hr => ?_
    obtain ⟨y, rfl⟩ := hr.exists_bool
    exact .of_ok rfl trivial

/-- A checked strict operator is sound. -/
lemma ExprSound.strict {scope : Scope} {op : BinOp} (hop : ¬ (op = .and ∨ op = .or)) {a b : Expr}
    {va vb v : Value} (ha : ExprSound ctx scope a va) (hb : ExprSound ctx scope b vb)
    (hv : binaryValue op (scope.sameScalar a b) va vb = .ok v) :
    ExprSound ctx scope (.binary op a b) v :=
  ha.binary hb (binaryValue_wf ha.wf hb.wf hv)
    (fun call env => by simp only [evalExpr, if_neg hop])
    fun _ _ hl hr hsame => binaryValue_sound hop ha.wf hb.wf hv hl hr hsame

/-- A read of an accepted field is sound. -/
lemma ExprSound.field {scope : Scope} (hscope : scope.Wf) {base : Expr} {name : String} {v : Value}
    (hv : fieldValue scope base name = .ok v) : ExprSound ctx scope (.field base name) v := by
  unfold fieldValue at hv
  split at hv
  · cases hv
  rename_i hin
  split at hv
  · cases hv
  split at hv
  · cases hv
  split at hv
  · rename_i ranges hranges
    cases hv
    refine ⟨hscope.field hranges, .of_forall fun fuel env fields hm _ => ?_⟩
    obtain ⟨rfl, henv⟩ := hm.isInput_sound (by simpa using hin)
    obtain ⟨x, hx, hmem⟩ := hm.field_sound hranges
    refine .of_ok (a := .number x) ?_ hmem
    simp [evalExpr, henv, hx, bind, Except.bind]
  · cases hv

/-- A call of a sound rule with the unhidden input is sound. -/
lemma ExprSound.call (htables : SameTables ctx chk) {scope : Scope} {r callee : Rule}
    (hconcept : chk.inputConcept r = .ok scope.concept) {name : String} {args : List Expr}
    (hcallee : chk.rules.lookup name = some callee)
    (hargs : (args.length = 1 && args.all scope.isInput) = true)
    (hty : callee.inputTy = r.inputTy) {v : Value} (hv : RuleSound ctx chk name v) :
    ExprSound ctx scope (.call name args) v := by
  obtain ⟨r', c, hr', hc, -, heval⟩ := hv.eval
  rw [hcallee] at hr'
  cases hr'
  obtain rfl := inputConcept_unique hty hc hconcept
  refine ⟨hv.wf, ?_⟩
  simp only [Bool.and_eq_true, decide_eq_true_eq] at hargs
  obtain ⟨arg, rfl⟩ := List.length_eq_one_iff.mp hargs.1
  have harg : scope.isInput arg = true := by simpa using hargs.2
  filter_upwards [heval] with fuel h env fields hm hvalid
  obtain ⟨rfl, henv⟩ := hm.isInput_sound harg
  have hrun : evalExpr ctx (evalRule ctx fuel) env (.call name [.ident scope.input]) =
      evalRule ctx fuel callee (.record fields) := by
    simp [evalExpr, ← htables.rules, hcallee, henv, bind, Except.bind]
  rw [hrun]
  exact h fields hvalid

/-- **The verifier's abstract values are sound**, one case per accepted form. -/
lemma expr_keeps (htables : SameTables ctx chk) {rule : String → M Value} {r : Rule}
    (hrule : ∀ name, Keeps (Cached (RuleSound ctx chk)) (rule name) (RuleSound ctx chk name)) (e : Expr) :
    ∀ scope depth, scope.Wf → chk.inputConcept r = .ok scope.concept →
      Keeps (Cached (RuleSound ctx chk)) (chk.expr rule r scope depth e) (ExprSound ctx scope e) := by
  induction e using Expr.induction_children with
  | step e ih =>
      intro scope depth hscope hconcept
      have hsub : ∀ {c}, c ∈ e.children →
          Keeps (Cached (RuleSound ctx chk)) (chk.expr rule r scope (depth + 1) c) (ExprSound ctx scope c) :=
        fun hc => ih _ hc scope (depth + 1) hscope hconcept
      cases e <;> unfold Check.expr <;> refine (Check.tick_keeps _ depth).seq fun done => ?_
      case number n =>
        refine .pure ⟨singleton_wf n, .of_forall fun fuel env fields _ _ => ?_⟩
        exact .of_ok rfl (Ranges.mem_interval.mpr ⟨le_refl _, le_refl _⟩)
      case ident n =>
        split
        · rename_i v hv
          refine .pure ⟨hscope.localValue hv, .of_forall fun fuel env fields hm _ => ?_⟩
          obtain ⟨w, hw, hmem⟩ := hm.localValue_sound hv
          exact .of_ok (by simp [evalExpr, hw]) hmem
        · exact .throw _
      case field base name => exact .fromExcept fun v hv => .field hscope hv
      case ite c a b =>
        refine (Keeps.mapError _ (hsub (by simp [Expr.children]))).bind fun vc hvc => ?_
        refine (Keeps.fromExcept fun _ h => Value.asBoolean_eq_ok.mp h).bind fun _ hbool => ?_
        subst hbool
        refine (Keeps.mapError _ (ih a (by simp [Expr.children]) _ _ (hscope.branch c true)
          (by simpa using hconcept))).bind fun va hva => ?_
        refine (Keeps.mapError _ (ih b (by simp [Expr.children]) _ _ (hscope.branch c false)
          (by simpa using hconcept))).bind fun vb hvb => ?_
        exact .fromExcept fun v hv => .ite hscope hvc hva hvb hv
      case not c =>
        refine (hsub (by simp [Expr.children])).bind fun vc hvc => ?_
        refine (Keeps.fromExcept fun _ h => Value.asBoolean_eq_ok.mp h).bind fun _ hbool => ?_
        subst hbool
        refine .pure (hvc.unary (f := applyNot) trivial (fun _ _ => by simp only [evalExpr]) ?_)
        intro w hw
        obtain ⟨t, rfl⟩ := hw.exists_bool
        exact ⟨.bool !t, rfl, trivial⟩
      case neg c =>
        refine (hsub (by simp [Expr.children])).bind fun vc hvc => ?_
        refine (Keeps.fromExcept fun _ h => Value.asNumber_eq_ok.mp h).bind fun a hnum => ?_
        subst hnum
        refine (Keeps.fromExcept fun _ h => negInterval_sound hvc.wf h).bind fun rs hrs => ?_
        refine .pure (hvc.unary (f := applyNeg) hrs.1 (fun _ _ => by simp only [evalExpr]) ?_)
        intro w hw
        obtain ⟨x, rfl, hx⟩ := hw.exists_number
        obtain ⟨y, hy, hyr⟩ := hrs.2 x hx
        exact ⟨.number y, by simp [applyNeg, arith, hy], hyr⟩
      case abs c =>
        refine (hsub (by simp [Expr.children])).bind fun vc hvc => ?_
        refine (Keeps.fromExcept fun _ h => Value.asNumber_eq_ok.mp h).bind fun a hnum => ?_
        subst hnum
        refine (Keeps.fromExcept fun _ h => absInterval_sound hvc.wf h).bind fun rs hrs => ?_
        refine .pure (hvc.unary (f := applyAbs) hrs.1 (fun _ _ => by simp only [evalExpr]) ?_)
        intro w hw
        obtain ⟨x, rfl, hx⟩ := hw.exists_number
        exact ⟨.number x.abs, rfl, hrs.2 x hx⟩
      case min a b =>
        refine (hsub (by simp [Expr.children])).bind fun va hva => ?_
        refine (Keeps.fromExcept fun _ h => Value.asNumber_eq_ok.mp h).bind fun ra hra => ?_
        refine (hsub (by simp [Expr.children])).bind fun vb hvb => ?_
        refine (Keeps.fromExcept fun _ h => Value.asNumber_eq_ok.mp h).bind fun rb hrb => ?_
        subst hra hrb
        refine (Keeps.fromExcept fun _ h => minInterval_sound hva.wf hvb.wf h).bind fun rs hrs => ?_
        refine .pure (hva.binary (f := numbersOp "min" min) hvb hrs.1
          (fun _ _ => by simp only [evalExpr]) fun l r hl hr _ => ?_)
        obtain ⟨x, rfl, hx⟩ := hl.exists_number
        obtain ⟨y, rfl, hy⟩ := hr.exists_number
        refine ⟨.number (min x y), rfl, ?_⟩
        show (min x y).toInt ∈ rs
        rw [toInt_min]
        exact hrs.2 _ hx _ hy
      case max a b =>
        refine (hsub (by simp [Expr.children])).bind fun va hva => ?_
        refine (Keeps.fromExcept fun _ h => Value.asNumber_eq_ok.mp h).bind fun ra hra => ?_
        refine (hsub (by simp [Expr.children])).bind fun vb hvb => ?_
        refine (Keeps.fromExcept fun _ h => Value.asNumber_eq_ok.mp h).bind fun rb hrb => ?_
        subst hra hrb
        refine (Keeps.fromExcept fun _ h => maxInterval_sound hva.wf hvb.wf h).bind fun rs hrs => ?_
        refine .pure (hva.binary (f := numbersOp "max" max) hvb hrs.1
          (fun _ _ => by simp only [evalExpr]) fun l r hl hr _ => ?_)
        obtain ⟨x, rfl, hx⟩ := hl.exists_number
        obtain ⟨y, rfl, hy⟩ := hr.exists_number
        refine ⟨.number (max x y), rfl, ?_⟩
        show (max x y).toInt ∈ rs
        rw [toInt_max]
        exact hrs.2 _ hx _ hy
      case binary op a b =>
        refine (Keeps.mapError _ (hsub (by simp [Expr.children]))).bind fun va hva => ?_
        refine (Keeps.mapError _ (hsub (by simp [Expr.children]))).bind fun vb hvb => ?_
        refine .fromExcept fun v hv => ?_
        by_cases hop : op = .and ∨ op = .or
        · exact .logical hop hva hvb hv
        · exact .strict hop hva hvb hv
      case call name args =>
        split
        · exact .throw _
        · rename_i callee hcallee
          refine .ite (fun _ => .throw _) fun hok => ?_
          simp only [Bool.or_eq_true, Bool.not_eq_true', decide_eq_true_eq, not_or,
            Bool.not_eq_false, not_not] at hok
          exact (hrule name).mono fun v hv => .call htables hconcept hcallee hok.1 hok.2 hv
      all_goals exact .throw _

/-! ## Bindings -/

/-- A scope whose newest `let` is bound to a value that its abstract value stands for. -/
lemma Scope.Models.bind {r : Rule} {concept : Concept} {locals : Dict String Value} {env : Env}
    {fields : Dict String Interpreter.Value} (h : (Scope.new r concept locals).Models env fields)
    (n : String) {v : Value} {w : Interpreter.Value} (hw : v.Mem w) :
    (Scope.new r concept (locals.insert n v)).Models (Dict.insert env n w) fields := by
  refine .new (fun m v' hm => ?_) (fun hnone => ?_) h.inRange
  · rw [Dict.lookup_insert] at hm ⊢
    split at hm
    · cases hm
      exact ⟨w, by simp [*], hw⟩
    · rename_i hne
      simpa [hne] using h.locals m v' hm
  · rw [Dict.lookup_insert] at hnone ⊢
    split at hnone
    · cases hnone
    · rename_i hne
      have hread := h.bound hnone
      simp only [Scope.new] at hread
      simpa [hne] using hread

/-- What the abstract values of `let`s say about their evaluation from an environment that
`locals` describes. -/
structure BindingsSound (ctx : Context) (r : Rule) (concept : Concept)
    (bindings : List (String × Expr)) (locals locals' : Dict String Value) : Prop where
  /-- the abstract values are well formed -/
  wf : (Scope.new r concept locals').Wf
  /-- the evaluation ends in an environment that they describe -/
  eval : ∀ᶠ fuel in Filter.atTop, ∀ env fields, (Scope.new r concept locals).Models env fields →
    ValidInput concept fields →
    Within TextRefusal (fun env' => (Scope.new r concept locals').Models env' fields)
      (evalBindings ctx (evalRule ctx fuel) env bindings)

section rules

variable (htables : SameTables ctx chk) {rule : String → M Value}
  (hrule : ∀ name, Keeps (Cached (RuleSound ctx chk)) (rule name) (RuleSound ctx chk name))

include htables hrule

/-- The verifier's abstract values of the `let`s are sound. -/
lemma bindings_keeps {r : Rule} {concept : Concept} (hconcept : chk.inputConcept r = .ok concept)
    (bindings : List (String × Expr)) :
    ∀ locals, (Scope.new r concept locals).Wf →
      Keeps (Cached (RuleSound ctx chk)) (chk.bindings rule r concept locals bindings)
        (BindingsSound ctx r concept bindings locals) := by
  induction bindings with
  | nil =>
      intro locals hwf
      exact .pure ⟨hwf, .of_forall fun fuel env fields hm _ => hm⟩
  | cons b bindings ih =>
      intro locals hwf
      obtain ⟨n, e⟩ := b
      unfold Check.bindings
      refine (Keeps.mapError _ (expr_keeps htables hrule e _ _ hwf hconcept)).bind fun v hv => ?_
      have hwf' : (Scope.new r concept (locals.insert n v)).Wf := by
        refine .new (fun m v' hm => ?_) hwf.bounds
        rw [Dict.lookup_insert] at hm
        split at hm
        · cases hm
          exact hv.wf
        · exact hwf.locals m v' hm
      refine (ih _ hwf').mono fun locals' hl => ⟨hl.wf, ?_⟩
      filter_upwards [hv.eval, hl.eval] with fuel h₁ h₂ env fields hm hvalid
      unfold evalBindings
      exact (h₁ env fields hm hvalid).bind fun w _ hw => h₂ _ fields (hm.bind n hw) hvalid

/-! ## Rules -/

omit htables hrule in
/-- The contract of a rule covers its body, and is the declared interval where there is one. -/
lemma contractValue_spec {r : Rule} {v v' : Value} (hv : v.Wf)
    (h : Check.contractValue r v = .ok v') :
    v'.Wf ∧ (∀ w, v.Mem w → v'.Mem w) ∧
      ∀ hint, r.hints.bind (·.overflow) = some hint →
        v' = .number (.interval hint.min.toInt hint.max.toInt) := by
  unfold Check.contractValue at h
  split at h
  · cases h
  split at h
  · rename_i hnone
    cases h
    exact ⟨hv, fun w hw => hw, by simp [hnone]⟩
  · rename_i hint hhint
    split at h
    · cases h
    rename_i hle
    obtain ⟨ranges, hranges, hfit⟩ := Except.bind_eq_ok.mp h
    rw [Value.asNumber_eq_ok] at hranges
    subst hranges
    simp only at hfit
    split at hfit
    · cases hfit
    rename_i hhull
    cases hfit
    refine ⟨.interval ?_ (inI64_toInt _) (inI64_toInt _), fun w hw => ?_, ?_⟩
    · rw [Int64.lt_iff_toInt_lt] at hle
      omega
    · obtain ⟨x, rfl, hx⟩ := hw.exists_number
      have := Ranges.Wf.mem_hull hv hx
      exact Ranges.mem_interval.mpr (by omega)
    · intro hint' hhint'
      rw [hhint] at hhint'
      cases hhint'
      rfl

omit htables hrule in
/-- The byte bound of a result keeps or refuses it. -/
lemma checkOutput_within (r : Rule) {P : Interpreter.Value → Prop} {w : Interpreter.Value}
    (hw : P w) : Within TextRefusal P (checkOutput r w) := by
  unfold checkOutput
  split
  · exact hw
  · split
    · split
      · exact hw
      · exact ⟨_, _, rfl⟩
    · exact ⟨_, _, rfl⟩

/-- A checked rule is sound, given sound callees. -/
lemma ruleInner_keeps (name : String) :
    Keeps (Cached (RuleSound ctx chk)) (chk.ruleInner rule name) (RuleSound ctx chk name) := by
  unfold Check.ruleInner
  cases hlookup : chk.rules.lookup name with
  | none => exact .throw _
  | some r =>
      refine (Keeps.fromExcept (P := fun c => chk.inputConcept r = .ok c) fun _ h => h).bind
        fun concept hconcept => ?_
      obtain ⟨-, -, -, hbounds, -⟩ := inputConcept_eq_ok hconcept
      have hwf : (Scope.new r concept []).Wf := .new (by simp) hbounds
      refine (bindings_keeps htables hrule hconcept _ _ hwf).bind fun locals hl => ?_
      refine (Keeps.mapError _ (expr_keeps htables hrule _ _ _ hl.wf hconcept)).bind fun v hv => ?_
      refine .fromExcept fun v' hv' => ?_
      obtain ⟨hwf', hcover, hhint⟩ := contractValue_spec hv.wf hv'
      refine ⟨hwf', r, concept, hlookup, hconcept, hhint, ?_⟩
      -- A rule of fuel `fuel + 1` evaluates its body with callees of fuel `fuel`.
      rw [← Filter.map_add_atTop_eq_nat 1, Filter.eventually_map]
      filter_upwards [hl.eval, hv.eval] with fuel h₁ h₂ fields hvalid
      rw [evalRule, checkInput_of_valid (find?_inputConcept htables hconcept) hvalid]
      have hstart : (Scope.new r concept []).Models [(r.inputName, .record fields)] fields :=
        .new (by simp) (by simp) (inRange_of_valid hvalid)
      refine Within.bind (x := .ok ()) (P := fun _ => True) trivial fun _ _ _ => ?_
      refine (h₁ _ fields hstart hvalid).bind fun env _ hm => ?_
      exact (h₂ env fields hm hvalid).bind fun w _ hw => checkOutput_within r (hcover w hw)

end rules

/-! ## Programs -/

/-- The interpreter and the verifier see the same declarations of a program without duplicates. -/
lemma sameTables_of_program {p : Program} (hnames : Verifier.nameErrors p = []) (world : World) :
    SameTables (.ofProgram p world) (.new p) where
  rules := Verifier.lookup_rules hnames
  concepts := Verifier.lookup_concepts hnames

/-- Without errors, every active rule is sound. -/
theorem ruleSound_of_verify {p : Program} (hnames : Verifier.nameErrors p = [])
    (hverify : verify p = []) {n : String} (hn : n ∈ activeRules p) (world : World) :
    ∃ v, RuleSound (.ofProgram p world) (.new p) n v :=
  walkErrors_keeps (fun _ => ruleInner_keeps (sameTables_of_program hnames world)) _ {} (.empty _)
    (walkErrors_of_verify hverify) n hn

/-- The result is within the declared output interval. -/
def InContract (r : Rule) (w : Interpreter.Value) : Prop :=
  ∀ hint, r.hints.bind (·.overflow) = some hint → ∃ n, w = .number n ∧ hint.min ≤ n ∧ n ≤ hint.max

/-- The failures that do not come from arithmetic: the entry guard refuses a field, a declared byte
bound refuses a result, or the call depth is not reached. -/
def SafeFailure (f : Failure) : Prop :=
  f = .outOfFuel ∨ (∃ field, f = .runtime (.contractField "strict overflow contract" field)) ∨
    TextRefusal f

section programs

variable {p : Program} (world : World) (hnames : Verifier.nameErrors p = [])
  (hverify : verify p = []) {r : Rule} (hr : r ∈ p.rules) (hactive : r.name ∈ activeRules p)
  {c : Concept} (hc : c ∈ p.concepts) (hty : r.inputTy = .named c.name)

include hnames hverify hr hactive hc hty

/-- The input concept that the verifier has accepted is the declared one. -/
lemma inputConcept_of_mem : (Check.new p).inputConcept r = .ok c := by
  obtain ⟨v, -, r', c', hr', hc', -⟩ := ruleSound_of_verify hnames hverify hactive {}
  have hrule : (Check.new p).rules.lookup r.name = some r := by
    unfold Check.new
    rw [Verifier.lookup_rules hnames]
    exact find?_of_nodup Rule.name (Verifier.nodup_rules hnames) hr
  rw [hrule] at hr'
  cases hr'
  obtain ⟨cname, hty', hlookup, -⟩ := inputConcept_eq_ok hc'
  rw [hty] at hty'
  cases hty'
  have hconcept : (Check.new p).concepts.lookup c.name = some c := by
    unfold Check.new
    rw [Verifier.lookup_concepts hnames]
    exact find?_of_nodup Concept.name (Verifier.nodup_concepts hnames) hc
  rw [hconcept] at hlookup
  cases hlookup
  exact hc'

/-- On a valid record the evaluation of an active rule ends, in its declared interval. -/
lemma evalRule_ends {fields : Dict String Interpreter.Value} (hvalid : ValidInput c fields) :
    ∀ᶠ fuel in Filter.atTop, Within TextRefusal (InContract r)
      (evalRule (.ofProgram p world) fuel r (.record fields)) := by
  obtain ⟨v, -, r', c', hr', hc', hhint, heval⟩ := ruleSound_of_verify hnames hverify hactive world
  have hrule : (Check.new p).rules.lookup r.name = some r := by
    unfold Check.new
    rw [Verifier.lookup_rules hnames]
    exact find?_of_nodup Rule.name (Verifier.nodup_rules hnames) hr
  rw [hrule] at hr'
  cases hr'
  rw [inputConcept_of_mem hnames hverify hr hactive hc hty] at hc'
  cases hc'
  filter_upwards [heval] with fuel h
  refine (h fields hvalid).mono (fun _ he => he) fun w hw hint hh => ?_
  rw [hhint hint hh] at hw
  obtain ⟨n, rfl, hn⟩ := hw.exists_number
  rw [Ranges.mem_interval] at hn
  exact ⟨n, rfl, Int64.le_iff_toInt_le.mpr hn.1, Int64.le_iff_toInt_le.mpr hn.2⟩

/-- A record that is not valid is refused at the entry. -/
lemma checkInput_of_invalid {fields : Dict String Interpreter.Value}
    (hinvalid : ¬ ValidInput c fields) :
    ∃ field, checkInput (.ofProgram p world) r (.record fields) =
      fail (.contractField "strict overflow contract" field) := by
  obtain ⟨f, hf⟩ := exists_invalid hinvalid
  have hguard : guarded (.ofProgram p world) r = true := by
    simp [guarded, Context.ofProgram, hactive]
  have hname : contractName (.ofProgram p world) r = "strict overflow contract" := if_pos hactive
  have hfind := find?_inputConcept (sameTables_of_program hnames world)
    (inputConcept_of_mem hnames hverify hr hactive hc hty)
  refine ⟨f.name, ?_⟩
  unfold checkInput
  rw [if_pos hguard]
  simp only [hfind, hf, hname]

end programs

/-- The inputs of `ratioRule`. -/
def ratioInput : Concept where
  name := "Ratio"
  fields := [
    { name := "part", ty := .number, range := some (-10, 10) },
    { name := "whole", ty := .number, range := some (1, 5) }]

/-- A rule that divides and negates under a guard. -/
def ratioRule : Rule where
  name := "ratio"
  inputName := "i"
  inputTy := .named "Ratio"
  outputName := "out"
  outputTy := .number
  logic.bindings := [("q", .binary .div (.field (.ident "i") "part") (.field (.ident "i") "whole"))]
  logic.value := .ite (.binary .lt (.ident "q") (.number 0)) (.neg (.ident "q")) (.ident "q")
  hints := some { overflow := some ⟨0, 10⟩ }

/-- The program of `ratioRule`. -/
def ratioProgram : Program := ⟨[.concept ratioInput, .rule ratioRule]⟩

end Verbosec.NumericBounds
