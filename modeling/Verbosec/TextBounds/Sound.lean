import Mathlib.Logic.Relation
import Mathlib.Order.Filter.AtTopBot.Basic
import Verbosec.Interpreter.Fuel
import Verbosec.TextBounds.Infer

/-!
# The bounded text verifier is sound

* `Reaches rules n m` - the rule `n` calls the rule `m`, directly or through others.
* `Refusal ctx n` - the failures left to an accepted rule `n`: a text that no host holds, and the
  guard of a reached rule whose input concept the interpreter is not given. The verifier knows the
  built-in concepts of an HTTP service; an evaluation knows them only where its caller adds them.
* `ExprSound`, `RuleSound` - what an abstract value says about an expression and a rule: with enough
  fuel, on every described environment and every valid input, the evaluation ends in a value that
  the abstract value stands for, or in one of these failures.
* `Check.Infers.sound`, `Check.RuleInfers.sound` - the inferred values say so: induction on the
  expression, and
  on the rules that it reaches.
* `verify_text_sound` - a program without errors: on a valid record an active rule ends, its result fits
  its declared bound, and every value of every subexpression lies within its inferred one.
-/

namespace Verbosec.TextBounds

open Verbosec.Lib
open Interpreter (Context Env Failure Outcome World ValidInput evalExpr evalRule evalArgs evalFields
  evalBindings evalBody checkInput checkOutput concatText)

/-! ## What the verifier establishes -/

/-- A rule calls another one, directly or through others. -/
def Reaches (rules : List Rule) : String → String → Prop :=
  Relation.ReflTransGen fun n m => ∃ r ∈ rules, r.name = n ∧ m ∈ r.deps

/-- The failures left to an accepted rule. -/
def Refusal (ctx : Context) (name : String) (f : Failure) : Prop :=
  f = .capacity ∨ ∃ g ∈ ctx.rules, Reaches ctx.rules name g.name ∧
    (∀ c ∈ ctx.concepts, g.inputTy ≠ .named c.name) ∧
    ∃ contract, f = .runtime (.contractConcept contract)

/-- What a called rule is left with, its caller is left with. -/
lemma Refusal.of_reaches {ctx : Context} {n m : String} (hreach : Reaches ctx.rules n m)
    {f : Failure} (h : Refusal ctx m f) : Refusal ctx n f := by
  rcases h with h | ⟨g, hg, hgm, hunknown, hf⟩
  · exact Or.inl h
  · exact Or.inr ⟨g, hg, hreach.trans hgm, hunknown, hf⟩

/-- The verifier sees the rules and the concepts of the interpreter. -/
structure SameTables (ctx : Context) (chk : Check) : Prop where
  /-- the same rules -/
  rules : ∀ n, chk.rules.lookup n = ctx.findRule n
  /-- the concepts of the interpreter are among those of the verifier -/
  concepts : ∀ c ∈ ctx.concepts, chk.concepts.lookup c.name = some c

variable {ctx : Context} {chk : Check} {E : Failure → Prop}

/-- An environment within an abstract one. -/
def EnvMem (chk : Check) (abstract : Dict String Value) (env : Env) : Prop :=
  ∀ n v, abstract.lookup n = some v → ∃ w, env.lookup n = some w ∧ v.Mem chk.concepts w

/-- An abstract environment of well formed values. -/
def EnvWf (abstract : Dict String Value) : Prop := ∀ n v, abstract.lookup n = some v → v.Wf

/-- What the abstract value of an expression says about its evaluation, which fails only in `E`. -/
structure ExprSound (ctx : Context) (chk : Check) (E : Failure → Prop) (abstract : Dict String Value)
    (e : Expr) (v : Value) : Prop where
  /-- the abstract value is well formed -/
  wf : v.Wf
  /-- the evaluation ends within the abstract value -/
  eval : ∀ᶠ fuel in Filter.atTop, ∀ env, EnvMem chk abstract env →
    Within E (v.Mem chk.concepts) (evalExpr ctx (evalRule ctx fuel) env e)

/-- What the abstract result of a rule says about its evaluation. -/
structure RuleSound (ctx : Context) (chk : Check) (name : String) (v : Value) : Prop where
  /-- the abstract result is well formed -/
  wf : v.Wf
  /-- the rule exists, and its evaluation ends within the abstract result -/
  eval : ∃ r cname c, chk.rules.lookup name = some r ∧ r.inputTy = .named cname ∧
    chk.concepts.lookup cname = some c ∧ (∀ max, r.outputTextMax = some max → v = .text (some max)) ∧
    ∀ᶠ fuel in Filter.atTop, ∀ fields, ValidInput c fields →
      Within (Refusal ctx name) (v.Mem chk.concepts) (evalRule ctx fuel r (.record fields))

lemma EnvMem.insert {abstract : Dict String Value} {env : Env} (h : EnvMem chk abstract env)
    (n : String) {v : Value} {w : Interpreter.Value} (hw : v.Mem chk.concepts w) :
    EnvMem chk (abstract.insert n v) (Dict.insert env n w) := by
  intro m u hm
  rw [Dict.lookup_insert] at hm ⊢
  split at hm
  · cases hm
    exact ⟨w, by simp [*], hw⟩
  · rename_i hne
    simpa [hne] using h m u hm

lemma EnvWf.insert {abstract : Dict String Value} (h : EnvWf abstract) (n : String) {v : Value}
    (hv : v.Wf) : EnvWf (abstract.insert n v) := by
  intro m u hm
  rw [Dict.lookup_insert] at hm
  split at hm
  · cases hm
    exact hv
  · exact h m u hm

/-! ## Expressions -/

namespace ExprSound

variable {abstract : Dict String Value} {e a b c : Expr} {va vb v : Value}

/-- An expression computed from the value of its only child. -/
lemma unary {f : Interpreter.Value → Outcome Interpreter.Value} (ha : ExprSound ctx chk E abstract a va)
    (hwf : v.Wf) (he : ∀ call env, evalExpr ctx call env e = evalExpr ctx call env a >>= f)
    (hf : ∀ w, va.Mem chk.concepts w → Within E (v.Mem chk.concepts) (f w)) :
    ExprSound ctx chk E abstract e v where
  wf := hwf
  eval := by
    filter_upwards [ha.eval] with fuel h env henv
    rw [he]
    exact (h env henv).bind fun w _ hw => hf w hw

/-- An expression computed from the values of its two children. -/
lemma binary {f : Interpreter.Value → Interpreter.Value → Outcome Interpreter.Value}
    (ha : ExprSound ctx chk E abstract a va) (hb : ExprSound ctx chk E abstract b vb) (hwf : v.Wf)
    (he : ∀ call env, evalExpr ctx call env e =
      evalExpr ctx call env a >>= fun l => evalExpr ctx call env b >>= f l)
    (hf : ∀ l r, va.Mem chk.concepts l → vb.Mem chk.concepts r →
      ∃ w, f l r = .ok w ∧ v.Mem chk.concepts w) :
    ExprSound ctx chk E abstract e v where
  wf := hwf
  eval := by
    filter_upwards [ha.eval, hb.eval] with fuel h₁ h₂ env henv
    rw [he]
    refine (h₁ env henv).bind fun l _ hl => (h₂ env henv).bind fun r _ hr => ?_
    obtain ⟨w, hw, hmem⟩ := hf l r hl hr
    exact .of_ok hw hmem

/-- An inferred conditional is sound. -/
lemma ite {va' vb' : Value} (hc : ExprSound ctx chk E abstract c .bool)
    (ha : ExprSound ctx chk E abstract a va) (hb : ExprSound ctx chk E abstract b vb)
    (ha' : chk.materializeInput va = .ok va') (hb' : chk.materializeInput vb = .ok vb')
    (hv : chk.joinValues va' vb' = .ok v) : ExprSound ctx chk E abstract (.ite c a b) v := by
  obtain ⟨hwfa, hmema⟩ := Check.materializeInput_spec ha.wf ha'
  obtain ⟨hwfb, hmemb⟩ := Check.materializeInput_spec hb.wf hb'
  obtain ⟨hwf, hmem⟩ := Check.joinValues_spec hwfa hwfb hv
  refine ⟨hwf, ?_⟩
  filter_upwards [hc.eval, ha.eval, hb.eval] with fuel h₁ h₂ h₃ env henv
  unfold evalExpr
  refine (h₁ env henv).bind fun w _ hw => ?_
  obtain ⟨t, rfl⟩ := hw.exists_bool
  cases t with
  | true => exact (h₂ env henv).mono (fun _ he => he) fun w hw => hmem w (Or.inl (hmema w hw))
  | false => exact (h₃ env henv).mono (fun _ he => he) fun w hw => hmem w (Or.inr (hmemb w hw))

/-- An inferred operator is sound, whether or not it short-circuits. -/
lemma operator {op : BinOp} (ha : ExprSound ctx chk E abstract a va)
    (hb : ExprSound ctx chk E abstract b vb) (hv : Check.binaryValue op va vb = .ok v) :
    ExprSound ctx chk E abstract (.binary op a b) v := by
  have hwf := Check.binaryValue_wf ha.wf hb.wf hv
  by_cases hop : op = .and ∨ op = .or
  · obtain ⟨rfl, rfl, rfl⟩ := Check.binaryValue_logical hop hv
    refine ⟨trivial, ?_⟩
    filter_upwards [ha.eval, hb.eval] with fuel h₁ h₂ env henv
    unfold evalExpr
    refine (h₁ env henv).bind fun l _ hl => ?_
    obtain ⟨x, rfl⟩ := hl.exists_bool
    simp only [if_pos hop]
    split
    · exact .of_ok rfl trivial
    · refine (h₂ env henv).bind fun r _ hr => ?_
      obtain ⟨y, rfl⟩ := hr.exists_bool
      exact .of_ok rfl trivial
  · refine ha.binary (f := Interpreter.applyBinary op) hb hwf.wf
      (fun call env => by simp only [evalExpr, if_neg hop]) fun l r hl hr => ?_
    obtain ⟨w, hw, hmem⟩ := Check.strict_sound hop ha.wf hv hl hr
    exact ⟨w, hw, hwf.mem_iff.mpr hmem⟩

/-- An inferred field read is sound. -/
lemma field {name : String} (ha : ExprSound ctx chk E abstract a va)
    (hv : chk.fieldValue va name = .ok v) : ExprSound ctx chk E abstract (.field a name) v := by
  obtain ⟨hwf, hmem⟩ := Check.fieldValue_spec ha.wf hv
  refine ⟨hwf.wf, ?_⟩
  filter_upwards [ha.eval] with fuel h env henv
  unfold evalExpr
  refine (h env henv).bind fun w _ hw => ?_
  obtain ⟨fields, x, rfl, hx, hxm⟩ := hmem w hw
  simp only [hx]
  exact hwf.mem_iff.mpr hxm

/-- The evaluation of the parts of a concatenation, within its inferred capacity. -/
lemma args {result : String → Value → Prop} {es : List Expr}
    (h : ∀ e ∈ es, ∀ v, chk.Infers result abstract e v → ExprSound ctx chk E abstract e v) :
    ∀ {total total'}, chk.InfersArgs result abstract es total total' →
      ∀ᶠ fuel in Filter.atTop, ∀ env, EnvMem chk abstract env →
        Within E (fun ws => ws.any (·.isBytes) = false ∧ ∃ s, concatText ws = .ok s ∧
          ∀ k ∈ total', ∃ t ∈ total, t + s.utf8ByteSize ≤ k)
          (evalArgs ctx (evalRule ctx fuel) env es) := by
  induction es with
  | nil =>
      rintro total total' rfl
      exact .of_forall fun fuel env _ => ⟨rfl, "", rfl, fun k hk => ⟨k, hk, by simp⟩⟩
  | cons e es ih =>
      rintro total total' ⟨v, n, next, hv, hn, hnext, hrest⟩
      filter_upwards [(h e (by simp) v hv).eval, ih (fun e he => h e (by simp [he])) hrest]
        with fuel h₁ h₂ env henv
      unfold evalArgs
      refine (h₁ env henv).bind fun w _ hw => (h₂ env henv).bind fun ws _ hws => ?_
      obtain ⟨hbytes, piece, hpiece, hsize⟩ := Check.concatPiece_sound hn hw
      obtain ⟨hany, s, hs, hcap⟩ := hws
      refine ⟨by simp [hbytes, hany], piece ++ s, by simp [concatText, hpiece, hs, bind, Except.bind],
        fun k hk => ?_⟩
      obtain ⟨t', ht', hle⟩ := hcap k hk
      unfold Check.addCapacity at hnext
      split at hnext
      · split at hnext
        · cases hnext
          cases ht'
          have := hsize _ rfl
          exact ⟨_, rfl, by rw [String.utf8ByteSize_append]; omega⟩
        · cases hnext
      · cases hnext
        cases ht'

/-- An inferred concatenation is sound. -/
lemma concat {result : String → Value → Prop} {es : List Expr}
    (h : ∀ e ∈ es, ∀ v, chk.Infers result abstract e v → ExprSound ctx chk E abstract e v)
    {total : Option Nat} (htotal : chk.InfersArgs result abstract es (some 0) total) :
    ExprSound ctx chk E abstract (.concat es) (.text total) where
  wf := trivial
  eval := by
    filter_upwards [args h htotal] with fuel h env henv
    unfold evalExpr
    refine (h env henv).bind fun ws _ hws => ?_
    obtain ⟨hany, s, hs, hcap⟩ := hws
    simp only [Interpreter.concatValues, hany, hs]
    intro k hk
    obtain ⟨t, ht, hle⟩ := hcap k hk
    cases ht
    omega

/-- The evaluation of the fields of a record constructor, after `done`, within their abstract
values. -/
lemma fields {result : String → Value → Prop} {decl : Concept} {fs : List (String × Expr)}
    (h : ∀ e ∈ fs.map (·.2), ∀ v, chk.Infers result abstract e v → ExprSound ctx chk E abstract e v) :
    ∀ {values values'}, chk.InfersFields result abstract decl fs values values' →
      (∀ n v, values.lookup n = some v → v.WfScalar) →
      (∀ n v, values'.lookup n = some v → v.WfScalar) ∧
      ∀ᶠ fuel in Filter.atTop, ∀ env, EnvMem chk abstract env →
        Within E (fun ws => ∀ done, Value.FieldsMem values done →
          Value.FieldsMem values' (ws.reverse ++ done))
          (evalFields ctx (evalRule ctx fuel) env fs) := by
  induction fs with
  | nil =>
      rintro values values' rfl hwf
      exact ⟨hwf, .of_forall fun fuel env _ done hdone => hdone⟩
  | cons p fs ih =>
      obtain ⟨n, e⟩ := p
      rintro values values' ⟨v, next, hv, hnext, hrest⟩ hwf
      have hsound := h e (by simp) v hv
      have hscalar : v.WfScalar ∧ next = values.insert n v := by
        unfold Check.recordField at hnext
        split at hnext
        · cases hnext
        obtain ⟨_, -, hnext⟩ := Except.bind_eq_ok.mp hnext
        split at hnext
        · cases hnext
        rename_i hs
        split at hnext
        · cases hnext
        cases hnext
        exact ⟨hsound.wf.scalar (by simpa using hs), rfl⟩
      obtain ⟨hvwf, rfl⟩ := hscalar
      have hwf' : ∀ m u, (values.insert n v).lookup m = some u → u.WfScalar := by
        intro m u hm
        rw [Dict.lookup_insert] at hm
        split at hm
        · cases hm
          exact hvwf
        · exact hwf m u hm
      obtain ⟨hwf'', heval⟩ := ih (fun e he => h e (List.mem_cons_of_mem _ he)) hrest hwf'
      refine ⟨hwf'', ?_⟩
      filter_upwards [hsound.eval, heval] with fuel h₁ h₂ env henv
      unfold evalFields
      refine (h₁ env henv).bind fun w _ hw => (h₂ env henv).bind fun ws _ hws => ?_
      intro done hdone
      rw [List.reverse_cons, List.append_assoc]
      refine hws ((n, w) :: done) fun m u hm => ?_
      rw [Dict.lookup_insert] at hm
      rw [← Dict.insert, Dict.lookup_insert]
      split at hm
      · cases hm
        exact ⟨w, by simp [*], hvwf.mem_iff.mp hw⟩
      · rename_i hne
        simpa [hne] using hdone m u hm

/-- An inferred record is sound. -/
lemma record {result : String → Value → Prop} {decl : Concept} {name : String}
    {fs : List (String × Expr)} {values : Dict String Value}
    (h : ∀ e ∈ fs.map (·.2), ∀ v, chk.Infers result abstract e v → ExprSound ctx chk E abstract e v)
    (hvalues : chk.InfersFields result abstract decl fs [] values) :
    ExprSound ctx chk E abstract (.record name fs) (.record name values) := by
  obtain ⟨hwf, heval⟩ := fields h hvalues (by simp)
  refine ⟨hwf, ?_⟩
  filter_upwards [heval] with fuel h env henv
  unfold evalExpr
  refine (h env henv).bind fun ws _ hws => ?_
  have := hws [] (by intro n v hv; simp at hv)
  rw [List.append_nil] at this
  exact this

/-- An inferred call is sound: the argument passes the guard of the called rule. -/
lemma call (htables : SameTables ctx chk) {name : String} {input : Value}
    (ha : ExprSound ctx chk E abstract a input) (hin : chk.callInput name input = .ok ())
    (hv : RuleSound ctx chk name v) (hE : ∀ f, Refusal ctx name f → E f) :
    ExprSound ctx chk E abstract (.call name [a]) v := by
  obtain ⟨callee, cname, hcallee, hty, hinput⟩ := Check.callInput_spec hin
  obtain ⟨r, cname', c, hr, hty', hc, -, heval⟩ := hv.eval
  rw [hcallee] at hr
  cases hr
  rw [hty] at hty'
  cases hty'
  refine ⟨hv.wf, ?_⟩
  filter_upwards [ha.eval, heval] with fuel h₁ h₂ env henv
  unfold evalExpr
  rw [← htables.rules, hcallee]
  refine (h₁ env henv).bind fun w _ hw => ?_
  obtain ⟨c', fields, rfl, hc', hvalid⟩ := hinput w hw
  rw [hc] at hc'
  cases hc'
  exact (h₂ fields hvalid).mono hE fun w hw => hw

end ExprSound

section infers

variable (htables : SameTables ctx chk) {result : String → Value → Prop}
  (hresult : ∀ n v, result n v → RuleSound ctx chk n v) (hcapacity : E .capacity)

include htables hresult hcapacity

/-- **Inferred values are sound**, one case per form: induction on the expression. -/
theorem Check.Infers.sound {abstract : Dict String Value} (hwf : EnvWf abstract) (e : Expr) :
    (∀ n ∈ e.calls, ∀ f, Refusal ctx n f → E f) → ∀ v, chk.Infers result abstract e v →
      ExprSound ctx chk E abstract e v := by
  induction e using Expr.induction_children with
  | step e ih =>
      intro hcalls v h
      have hsub : ∀ c ∈ e.children, ∀ v, chk.Infers result abstract c v →
          ExprSound ctx chk E abstract c v := fun c hc =>
        ih c hc fun n hn => hcalls n (Interpreter.Expr.calls_subset_of_mem_children hc hn)
      cases e <;> unfold Check.Infers at h
      case text s =>
        subst h
        exact ⟨trivial, .of_forall fun fuel env _ n hn => by cases hn; exact le_refl _⟩
      case number n =>
        subst h
        exact ⟨⟨le_refl _, inI64_toInt n, inI64_toInt n⟩, .of_forall fun fuel env _ => ⟨le_refl _, le_refl _⟩⟩
      case ident n =>
        refine ⟨hwf n v h, .of_forall fun fuel env henv => ?_⟩
        obtain ⟨w, hw, hmem⟩ := henv n v h
        exact .of_ok (by simp [evalExpr, hw]) hmem
      case neg a =>
        obtain ⟨va, ha, hv⟩ := h
        have hsa := hsub a (by simp [Expr.children]) va ha
        obtain ⟨hwfv, hmem⟩ := Check.negValue_sound hsa.wf hv
        refine hsa.unary (f := Interpreter.applyNeg) hwfv.wf (fun _ _ => by simp only [evalExpr]) fun w hw => ?_
        obtain ⟨w', hw', hm⟩ := hmem w hw
        exact .of_ok hw' (hwfv.mem_iff.mpr hm)
      case abs a =>
        obtain ⟨va, ha, hv⟩ := h
        have hsa := hsub a (by simp [Expr.children]) va ha
        obtain ⟨hwfv, hmem⟩ := Check.absValue_sound hsa.wf hv
        refine hsa.unary (f := Interpreter.applyAbs) hwfv.wf (fun _ _ => by simp only [evalExpr]) fun w hw => ?_
        obtain ⟨w', hw', hm⟩ := hmem w hw
        exact .of_ok hw' (hwfv.mem_iff.mpr hm)
      case min a b =>
        obtain ⟨lo, hi, lo', hi', ha, hb, rfl⟩ := h
        have hsa := hsub a (by simp [Expr.children]) _ ha
        have hsb := hsub b (by simp [Expr.children]) _ hb
        obtain ⟨⟨hwfv, -⟩, hmem⟩ := Check.minMax_sound hsa.wf hsb.wf
        exact hsa.binary (f := Interpreter.numbersOp "min" min) hsb hwfv.wf
          (fun _ _ => by simp only [evalExpr]) fun l r hl hr => (hmem l r hl hr).1
      case max a b =>
        obtain ⟨lo, hi, lo', hi', ha, hb, rfl⟩ := h
        have hsa := hsub a (by simp [Expr.children]) _ ha
        have hsb := hsub b (by simp [Expr.children]) _ hb
        obtain ⟨⟨-, hwfv⟩, hmem⟩ := Check.minMax_sound hsa.wf hsb.wf
        exact hsa.binary (f := Interpreter.numbersOp "max" max) hsb hwfv.wf
          (fun _ _ => by simp only [evalExpr]) fun l r hl hr => (hmem l r hl hr).2
      case field a name =>
        obtain ⟨va, ha, hv⟩ := h
        exact (hsub a (by simp [Expr.children]) va ha).field hv
      case concat es =>
        obtain ⟨total, htotal, rfl⟩ := h
        exact .concat hsub htotal
      case ite c a b =>
        obtain ⟨hc, va, vb, va', vb', ha, hb, ha', hb', hv⟩ := h
        exact .ite (hsub c (by simp [Expr.children]) _ hc) (hsub a (by simp [Expr.children]) _ ha)
          (hsub b (by simp [Expr.children]) _ hb) ha' hb' hv
      case call name args =>
        split at h
        · obtain ⟨input, ha, hin, hv⟩ := h
          refine .call htables (hsub _ (by simp [Expr.children]) _ ha) hin (hresult _ _ hv) ?_
          exact hcalls name (by unfold Expr.calls; rw [Expr.collect_eq]; simp)
        · exact h.elim
      case binary op a b =>
        obtain ⟨va, vb, ha, hb, hv⟩ := h
        exact (hsub a (by simp [Expr.children]) _ ha).operator (hsub b (by simp [Expr.children]) _ hb) hv
      case not a =>
        obtain ⟨ha, rfl⟩ := h
        refine (hsub a (by simp [Expr.children]) _ ha).unary (f := Interpreter.applyNot) trivial
          (fun _ _ => by simp only [evalExpr]) fun w hw => ?_
        obtain ⟨t, rfl⟩ := hw.exists_bool
        exact .of_ok rfl trivial
      case length a =>
        obtain ⟨va, ha, hv⟩ := h
        obtain ⟨hwfv, hmem⟩ := Check.lengthValue_sound hv
        refine (hsub a (by simp [Expr.children]) _ ha).unary (f := Interpreter.applyLength) hwfv.wf
          (fun _ _ => by simp only [evalExpr]) fun w hw => ?_
        exact (hmem w hw).mono (fun f hf => hf ▸ hcapacity) fun w hw => hwfv.mem_iff.mpr hw
      case record name fs =>
        obtain ⟨decl, values, -, hvalues, rfl⟩ := h
        exact .record hsub hvalues
      all_goals exact h.elim

/-- Inferred `let`s are sound. -/
theorem Check.InfersLets.sound (bindings : List (String × Expr)) :
    ∀ {abstract abstract' : Dict String Value}, EnvWf abstract →
      (∀ n ∈ bindings.flatMap fun b => b.2.calls, ∀ f, Refusal ctx n f → E f) →
      chk.InfersLets result abstract bindings abstract' →
      EnvWf abstract' ∧ ∀ᶠ fuel in Filter.atTop, ∀ env, EnvMem chk abstract env →
        Within E (EnvMem chk abstract') (evalBindings ctx (evalRule ctx fuel) env bindings) := by
  induction bindings with
  | nil =>
      rintro abstract abstract' hwf - rfl
      exact ⟨hwf, .of_forall fun fuel env henv => henv⟩
  | cons b bindings ih =>
      obtain ⟨n, e⟩ := b
      rintro abstract abstract' hwf hcalls ⟨v, hv, hrest⟩
      have hsound := Check.Infers.sound htables hresult hcapacity hwf e
        (fun m hm => hcalls m (by simp [hm])) v hv
      obtain ⟨hwf', heval⟩ := ih (hwf.insert n hsound.wf)
        (fun m hm => hcalls m (List.mem_append_right _ hm)) hrest
      refine ⟨hwf', ?_⟩
      filter_upwards [hsound.eval, heval] with fuel h₁ h₂ env henv
      unfold evalBindings
      exact (h₁ env henv).bind fun w _ hw => h₂ _ (henv.insert n hw)

end infers

/-! ## Rules -/

/-- What a supported input says about a rule. -/
lemma inputConcept_eq_ok {r : Rule} {input : String} {c : Concept}
    (h : chk.inputConcept r = .ok (input, c)) :
    r.inputTy = .named input ∧ chk.concepts.lookup input = some c := by
  unfold Check.inputConcept at h
  split at h
  · cases h
  split at h
  · cases h
  split at h
  · rename_i hty
    split at h
    · cases h
    rename_i hc
    split at h
    · cases h
    split at h
    · cases h
    cases h
    exact ⟨hty, hc⟩
  · cases h

/-- The contract of a rule keeps every result of its body. -/
lemma contractValue_spec {r : Rule} {v v' : Value} (hv : v.Wf)
    (h : Check.contractValue r v = .ok v') :
    v'.Wf ∧ (∀ max, r.outputTextMax = some max → v' = .text (some max)) ∧
      ∀ w, v.Mem chk.concepts w → checkOutput r w = .ok w ∧ v'.Mem chk.concepts w := by
  obtain ⟨_, -, h⟩ := Except.bind_eq_ok.mp h
  unfold checkOutput
  split at h
  · rename_i hnone
    cases h
    exact ⟨hv, by simp [hnone], fun w hw => ⟨by simp only [hnone], hw⟩⟩
  · rename_i max hmax
    split at h
    · cases h
    split at h
    · split at h
      · rename_i hle
        cases h
        refine ⟨trivial, fun m hm => ?_, fun w hw => ?_⟩
        · rw [hmax] at hm
          cases hm
          rfl
        · obtain ⟨s, rfl, hs⟩ := hw.exists_text
          have hfit : s.utf8ByteSize ≤ max := (hs _ rfl).trans hle
          refine ⟨by simp only [hmax, if_pos hfit], fun n hn => ?_⟩
          cases hn
          exact hfit
      · cases h
    · cases h

section rules

variable (htables : SameTables ctx chk) {result : String → Value → Prop}
  (hresult : ∀ n v, result n v → RuleSound ctx chk n v)

include htables

/-- The guard of a called rule lets a valid record pass, unless its input concept is unknown. -/
lemma checkInput_within {r : Rule} {cname : String} (hr : r ∈ ctx.rules) (hty : r.inputTy = .named cname)
    {c : Concept} (hc : chk.concepts.lookup cname = some c) {fields : Dict String Interpreter.Value}
    (hvalid : ValidInput c fields) :
    Within (Refusal ctx r.name) (fun _ => True) (checkInput ctx r (.record fields)) := by
  cases hfind : ctx.concepts.find? (r.inputTy = .named ·.name) with
  | none =>
      rcases Interpreter.checkInput_of_undeclared hfind (.record fields) with h | h
      · exact .of_ok h trivial
      · rw [h]
        refine Or.inr ⟨r, hr, .refl, fun d hd heq => ?_, _, rfl⟩
        simpa [heq] using List.find?_eq_none.mp hfind d hd
  | some d =>
      have hd : d ∈ ctx.concepts := List.mem_of_find?_eq_some hfind
      have heq : r.inputTy = .named d.name := by simpa using List.find?_some hfind
      rw [hty] at heq
      cases heq
      rw [htables.concepts d hd] at hc
      cases hc
      exact .of_ok (Interpreter.checkInput_of_valid hfind hvalid) trivial

include hresult

/-- The environment in which the `let`s `before` of a rule end is described by their abstract
values. -/
lemma lets_sound {r : Rule} {input : String} {c : Concept} (hc : chk.concepts.lookup input = some c)
    {before : List (String × Expr)} {abstract : Dict String Value} (hcapacity : E .capacity)
    (hcalls : ∀ n ∈ before.flatMap fun b => b.2.calls, ∀ f, Refusal ctx n f → E f)
    (hlets : chk.InfersLets result [(r.inputName, .input input)] before abstract) :
    EnvWf abstract ∧ ∀ᶠ fuel in Filter.atTop, ∀ fields, ValidInput c fields →
      Within E (EnvMem chk abstract)
        (evalBindings ctx (evalRule ctx fuel) [(r.inputName, .record fields)] before) := by
  have hstart : EnvWf [(r.inputName, .input input)] := by
    intro n v hv
    obtain rfl : v = .input input := by
      rw [List.lookup_cons] at hv
      split at hv <;> simp_all
    trivial
  obtain ⟨hwf, heval⟩ := Check.InfersLets.sound htables hresult hcapacity before hstart hcalls hlets
  refine ⟨hwf, ?_⟩
  filter_upwards [heval] with fuel h fields hvalid
  refine h _ fun n v hv => ⟨.record fields, ?_⟩
  rw [List.lookup_cons] at hv ⊢
  split at hv
  · cases hv
    exact ⟨rfl, c, hc, hvalid⟩
  · cases hv

/-- An inferred rule is sound, given sound callees. -/
lemma Check.InfersBody.sound {name : String} {v : Value} (h : chk.InfersBody result name v) :
    RuleSound ctx chk name v := by
  obtain ⟨r, input, c, abstract, body, hr, hin, hlets, hbody, hv⟩ := h
  obtain ⟨hty, hc⟩ := inputConcept_eq_ok hin
  have hfound := htables.rules name ▸ hr
  have hmem : r ∈ ctx.rules := List.mem_of_find?_eq_some hfound
  obtain rfl : r.name = name := by simpa using List.find?_some hfound
  have hcalls : ∀ n ∈ r.deps, ∀ f, Refusal ctx n f → Refusal ctx r.name f := fun n hn f hf =>
    hf.of_reaches (.single ⟨r, hmem, rfl, hn⟩)
  obtain ⟨hwf, hlets⟩ := lets_sound (E := Refusal ctx r.name) htables hresult hc (Or.inl rfl)
    (fun n hn => hcalls n (List.mem_append_left _ hn)) hlets
  have hbody := Check.Infers.sound (E := Refusal ctx r.name) htables hresult (Or.inl rfl) hwf _
    (fun n hn => hcalls n (List.mem_append_right _ hn)) body hbody
  obtain ⟨hwf', hmax, hout⟩ := contractValue_spec hbody.wf hv
  refine ⟨hwf', r, input, c, hr, hty, hc, hmax, ?_⟩
  -- A rule of fuel `fuel + 1` evaluates its body with callees of fuel `fuel`.
  rw [← Filter.map_add_atTop_eq_nat 1, Filter.eventually_map]
  filter_upwards [hlets, hbody.eval] with fuel h₁ h₂ fields hvalid
  rw [evalRule]
  refine (checkInput_within htables hmem hty hc hvalid).bind fun _ _ _ => ?_
  refine (h₁ fields hvalid).bind fun env _ henv => (h₂ env henv).bind fun w _ hw => ?_
  obtain ⟨hok, hm⟩ := hout w hw
  exact .of_ok hok hm

omit hresult in
/-- **Inferred rules are sound**: induction on the rules that they reach. -/
theorem Check.RuleInfers.sound {name : String} {v : Value} (h : chk.RuleInfers name v) :
    RuleSound ctx chk name v := by
  induction h with
  | body callees h ih => exact Check.InfersBody.sound htables ih h

end rules

/-! ## Programs -/

/-- The tables of a program for a caller that adds some of the built-in concepts. -/
def contextWith (p : Program) (world : World) (added : List Concept) : Context :=
  { Context.ofProgram p world with concepts := p.concepts ++ added }

variable {p : Program}

/-- The built-in concepts of the verifier have built-in names. -/
lemma mem_builtinNames {b : Concept} (hb : b ∈ builtins p) :
    b.name ∈ Verifier.builtinNames p := by
  unfold builtins at hb
  split at hb
  · rename_i max hmax
    have hhttp : Verifier.anyHttp10 p = true := by
      obtain ⟨s, hs, -⟩ := List.mem_map.mp (List.max?_mem hmax)
      rw [List.mem_filter] at hs
      exact List.any_eq_true.mpr ⟨s, hs⟩
    unfold Verifier.builtinNames
    rw [if_pos hhttp]
    simp only [List.mem_cons, List.not_mem_nil, or_false] at hb ⊢
    rcases hb with rfl | rfl
    · exact Or.inl rfl
    · exact Or.inr rfl
  · cases hb

/-- The declared and the built-in concepts have distinct names. -/
lemma nodup_concepts_builtins (hnames : Verifier.nameErrors p = []) :
    ((p.concepts ++ builtins p).map (·.name)).Nodup := by
  rw [List.map_append]
  refine List.Nodup.append (Verifier.nodup_concepts hnames) ?_ ?_
  · unfold builtins
    split
    · simp [Verifier.builtinHttpRequest, Verifier.builtinHttpResponse]
    · simp
  · intro n hn hbuiltin
    obtain ⟨c, hc, rfl⟩ := List.mem_map.mp hn
    obtain ⟨b, hb, heq⟩ := List.mem_map.mp hbuiltin
    exact Verifier.not_mem_builtinNames hnames hc (heq ▸ mem_builtinNames hb)

/-- The verifier of a program without duplicates sees the declarations of the interpreter. -/
lemma sameTables_of_program (hnames : Verifier.nameErrors p = []) (native : Bool) (world : World)
    {added : List Concept} (hadded : added ⊆ builtins p) :
    SameTables (contextWith p world added) (.new p native) where
  rules := Verifier.lookup_rules hnames
  concepts := by
    intro c hc
    have hmem : c ∈ p.concepts ++ builtins p := by
      rcases List.mem_append.mp hc with hc | hc
      · exact List.mem_append_left _ hc
      · exact List.mem_append_right _ (hadded hc)
    have hnodup := nodup_concepts_builtins hnames
    show ((p.concepts ++ builtins p).map fun c => (c.name, c)).reverse.lookup c.name = some c
    rw [lookup_reverse_of_nodup Concept.name hnodup, find?_of_nodup Concept.name hnodup hmem]

/-- A result is a text within the declared bound, where one is declared. -/
def InBound (r : Rule) (w : Interpreter.Value) : Prop :=
  ∀ max, r.outputTextMax = some max → ∃ s, w = .text s ∧ s.utf8ByteSize ≤ max

/-- A rule evaluates an expression after the `let`s `before`. -/
def Evaluates (r : Rule) (before : List (String × Expr)) (e : Expr) : Prop :=
  (∃ n after, r.logic.bindings = before ++ (n, e) :: after) ∨
    before = r.logic.bindings ∧ e = r.logic.value

/-- The abstract values of a rule pass through each of its `let`s. -/
lemma infersLets_split {result : String → Value → Prop} (before : List (String × Expr)) {n : String}
    {e : Expr} {after : List (String × Expr)} : ∀ {abstract abstract' : Dict String Value},
    chk.InfersLets result abstract (before ++ (n, e) :: after) abstract' →
      ∃ mid v, chk.InfersLets result abstract before mid ∧ chk.Infers result mid e v := by
  induction before with
  | nil =>
      rintro abstract abstract' ⟨v, hv, -⟩
      exact ⟨abstract, v, rfl, hv⟩
  | cons b before ih =>
      obtain ⟨m, e'⟩ := b
      rintro abstract abstract' ⟨u, hu, hrest⟩
      obtain ⟨mid, v, hmid, hv⟩ := ih hrest
      exact ⟨mid, v, ⟨u, hu, hmid⟩, hv⟩

/-- Every expression that an inferred rule evaluates has an inferred value. -/
lemma exists_infersIn {name : String} {v : Value} (h : chk.RuleInfers name v) {r : Rule}
    (hr : chk.rules.lookup name = some r) {before : List (String × Expr)} {e : Expr}
    (he : Evaluates r before e) : ∀ s ∈ e.collect fun s => [s], ∃ vs, chk.InfersIn r before s vs := by
  obtain ⟨r', input, c, abstract, body, hr', hin, hlets, hbody, -⟩ := h.infersBody
  rw [hr] at hr'
  cases hr'
  intro s hs
  rcases he with ⟨n, after, heq⟩ | ⟨rfl, rfl⟩
  · rw [heq] at hlets
    obtain ⟨mid, u, hmid, hu⟩ := infersLets_split before hlets
    obtain ⟨vs, hvs⟩ := hu.of_mem_collect s hs
    exact ⟨vs, input, c, mid, hin, hmid, hvs⟩
  · obtain ⟨vs, hvs⟩ := hbody.of_mem_collect s hs
    exact ⟨vs, input, c, abstract, hin, hlets, hvs⟩

/-- The value of an expression of a rule is within every inferred one. -/
lemma Check.InfersIn.mem (htables : SameTables ctx chk) {r : Rule} {before : List (String × Expr)}
    {e : Expr} {v : Value} (h : chk.InfersIn r before e v) {c : Concept} {cname : String}
    (hty : r.inputTy = .named cname) (hc : chk.concepts.lookup cname = some c)
    {fields : Dict String Interpreter.Value} (hvalid : ValidInput c fields) {fuel : Nat} {env : Env}
    {w : Interpreter.Value}
    (henv : evalBindings ctx (evalRule ctx fuel) [(r.inputName, .record fields)] before = .ok env)
    (hw : evalExpr ctx (evalRule ctx fuel) env e = .ok w) : v.Mem chk.concepts w := by
  obtain ⟨input, c', abstract, hin, hlets, hv⟩ := h
  obtain ⟨hty', hc'⟩ := inputConcept_eq_ok hin
  rw [hty] at hty'
  cases hty'
  have hresult : ∀ n u, chk.RuleInfers n u → RuleSound ctx chk n u :=
    fun _ _ hu => Check.RuleInfers.sound htables hu
  obtain ⟨hwf, hlets⟩ := lets_sound (E := fun _ => True) htables hresult hc trivial
    (fun _ _ _ _ => trivial) hlets
  have hsound := Check.Infers.sound (E := fun _ => True) htables hresult trivial hwf e
    (fun _ _ _ _ => trivial) v hv
  obtain ⟨bound, hbound⟩ := Filter.eventually_atTop.mp (hlets.and hsound.eval)
  obtain ⟨h₁, h₂⟩ := hbound (max fuel bound) (le_max_right _ _)
  -- More fuel keeps both outcomes.
  have hmono := Interpreter.evalRule_mono ctx (le_max_left fuel bound)
  have henv' : evalBindings ctx (evalRule ctx (max fuel bound)) [(r.inputName, .record fields)] before =
      .ok env := by
    rcases Interpreter.evalBindings_le hmono before [(r.inputName, .record fields)] with hle | hle
    · rw [henv] at hle
      cases hle
    · rw [hle, henv]
  have hw' : evalExpr ctx (evalRule ctx (max fuel bound)) env e = .ok w := by
    rcases Interpreter.evalExpr_le hmono e env with hle | hle
    · rw [hw] at hle
      cases hle
    · rw [hle, hw]
  have hmem := h₁ fields hvalid
  rw [henv'] at hmem
  have := h₂ env hmem
  rwa [hw'] at this

section programs

variable (world : World) {added : List Concept} (hnames : Verifier.nameErrors p = [])
  (hverify : verify p = []) (hadded : added ⊆ builtins p) {r : Rule} (hr : r ∈ p.rules)
  (hactive : r.name ∈ activeRules p) {c : Concept} (hc : c ∈ p.concepts ++ added)
  (hty : r.inputTy = .named c.name) {fields : Dict String Interpreter.Value}
  (hvalid : ValidInput c fields)

include hnames hverify hadded hr hactive hc hty hvalid

/-- On a valid record the evaluation of an active rule ends, within its declared bound. -/
lemma evalRule_ends : ∀ᶠ fuel in Filter.atTop,
    Within (Refusal (contextWith p world added) r.name) (InBound r)
      (evalRule (contextWith p world added) fuel r (.record fields)) := by
  have htables := sameTables_of_program hnames false world hadded
  obtain ⟨v, hv⟩ := ruleInfers_of_verify hverify hactive
  obtain ⟨-, r', cname, c', hr', hty', hc', hmax, heval⟩ := Check.RuleInfers.sound htables hv
  have hfound : (contextWith p world added).findRule r.name = some r :=
    find?_of_nodup Rule.name (Verifier.nodup_rules hnames) hr
  rw [htables.rules, hfound] at hr'
  cases hr'
  rw [hty] at hty'
  cases hty'
  rw [htables.concepts c hc] at hc'
  cases hc'
  filter_upwards [heval] with fuel h
  refine (h fields hvalid).mono (fun _ he => he) fun w hw max hm => ?_
  rw [hmax max hm] at hw
  obtain ⟨s, rfl, hs⟩ := hw.exists_text
  exact ⟨s, rfl, hs max rfl⟩

/-- **Accepted programs keep their text bounds.** On a valid record an active rule ends; it fails
only at the guard of a reached rule with an unknown input concept, and its result fits the declared
bound. Each subexpression of each of its `let`s and of its value has an inferred value, and evaluates
within every inferred one. -/
theorem verify_text_sound :
    (∀ fuel, Within (fun f => f = .outOfFuel ∨ Refusal (contextWith p world added) r.name f)
      (InBound r) (evalRule (contextWith p world added) fuel r (.record fields))) ∧
    (∀ᶠ fuel in Filter.atTop, Within (Refusal (contextWith p world added) r.name) (InBound r)
      (evalRule (contextWith p world added) fuel r (.record fields))) ∧
    ∀ before e, Evaluates r before e → ∀ s ∈ e.collect fun s => [s],
      (∃ v, (Check.new p false).InfersIn r before s v) ∧
      ∀ v, (Check.new p false).InfersIn r before s v → ∀ fuel env w,
        evalBindings (contextWith p world added) (evalRule (contextWith p world added) fuel)
          [(r.inputName, .record fields)] before = .ok env →
        evalExpr (contextWith p world added) (evalRule (contextWith p world added) fuel) env s =
          .ok w →
        v.Mem (Check.new p false).concepts w := by
  have htables := sameTables_of_program hnames false world hadded
  have hends := evalRule_ends world hnames hverify hadded hr hactive hc hty hvalid
  refine ⟨fun fuel => ?_, hends, fun before e he s hs => ⟨?_, fun v hv fuel env w henv hw => ?_⟩⟩
  · obtain ⟨bound, hbound⟩ := Filter.eventually_atTop.mp hends
    have hend := hbound (max fuel bound) (le_max_right _ _)
    rcases Interpreter.evalRule_mono (contextWith p world added) (le_max_left fuel bound) r
      (.record fields) with h | h
    · rw [h]
      exact Or.inl rfl
    · rw [h] at hend
      exact hend.mono (fun _ he => Or.inr he) fun _ hw => hw
  · obtain ⟨v, hv⟩ := ruleInfers_of_verify hverify hactive
    refine exists_infersIn hv ?_ he s hs
    rw [htables.rules]
    exact find?_of_nodup Rule.name (Verifier.nodup_rules hnames) hr
  · exact hv.mem htables hty (htables.concepts c hc) hvalid henv hw

end programs

/-! ## Two programs -/

/-- The inputs of `greetRule` and `pageRule`. -/
def ticketInput : Concept where
  name := "Ticket"
  fields := [
    { name := "seat", ty := .number, range := some (1, 400) },
    { name := "owner", ty := .text, range := some (0, 12) }]

/-- A rule that names the owner of a ticket, as far as it has one. -/
def greetRule : Rule where
  name := "greet"
  inputName := "t"
  inputTy := .named "Ticket"
  outputName := "line"
  outputTy := .text
  outputTextMax := some 40
  logic.bindings := [("owner", .ite
    (.binary .gt (.length (.field (.ident "t") "owner")) (.number 0))
    (.field (.ident "t") "owner") (.text "nobody"))]
  logic.value := .concat [.text "seat ", .field (.ident "t") "seat", .text ": ", .ident "owner"]

/-- The program of `greetRule`. -/
def greetProgram : Program := ⟨[.concept ticketInput, .rule greetRule]⟩

theorem verify_text_sound_greet :
    (∀ fuel, Within (fun f => f = .outOfFuel ∨ Refusal (contextWith greetProgram {} []) "greet" f)
      (InBound greetRule) (evalRule (contextWith greetProgram {} []) fuel greetRule
        (.record [("seat", .number 7), ("owner", .text "Ada")]))) ∧
    (∀ᶠ fuel in Filter.atTop, Within (Refusal (contextWith greetProgram {} []) "greet")
      (InBound greetRule) (evalRule (contextWith greetProgram {} []) fuel greetRule
        (.record [("seat", .number 7), ("owner", .text "Ada")]))) ∧
    ∀ before e, Evaluates greetRule before e → ∀ s ∈ e.collect fun s => [s],
      (∃ v, (Check.new greetProgram false).InfersIn greetRule before s v) ∧
      ∀ v, (Check.new greetProgram false).InfersIn greetRule before s v → ∀ fuel env w,
        evalBindings (contextWith greetProgram {} [])
          (evalRule (contextWith greetProgram {} []) fuel)
          [("t", .record [("seat", .number 7), ("owner", .text "Ada")])] before = .ok env →
        evalExpr (contextWith greetProgram {} []) (evalRule (contextWith greetProgram {} []) fuel)
          env s = .ok w →
        v.Mem (Check.new greetProgram false).concepts w :=
  verify_text_sound {} (by decide +kernel) (by decide +kernel) (by simp)
    (by simp [greetProgram, Program.rules]) (by decide +kernel) (c := ticketInput)
    (by simp [greetProgram, Program.concepts]) rfl (by unfold ValidInput; decide +kernel)

/-- A rule on the built-in request concept. -/
def renderRule : Rule where
  name := "render"
  inputName := "r"
  inputTy := .named "HttpRequest"
  outputName := "line"
  outputTy := .text
  outputTextMax := some 20
  logic.value := .concat [.field (.ident "r") "method", .text " /"]

/-- A rule that passes a constructed request on. -/
def pageRule : Rule where
  name := "page"
  inputName := "t"
  inputTy := .named "Ticket"
  outputName := "line"
  outputTy := .text
  outputTextMax := some 20
  logic.value := .call "render" [.record "HttpRequest"
    [("method", .text "GET"), ("path", .field (.ident "t") "owner"), ("body", .text "")]]

/-- The handler of `portalService`. -/
def portalRule : Rule where
  name := "portal"
  inputName := "r"
  inputTy := .named "HttpRequest"
  outputName := "response"
  outputTy := .named "HttpResponse"
  logic.value := .record "HttpResponse" [("status", .number 200), ("body", .text "ok")]

/-- A service, which brings the built-in concepts into scope. -/
def portalService : Service where
  name := "portal"
  protocol := .http10
  maxRequest := 64
  handler := "portal"

/-- A program that calls a rule on the built-in request concept. -/
def portalProgram : Program :=
  ⟨[.concept ticketInput, .rule renderRule, .rule pageRule, .rule portalRule,
    .service portalService]⟩

/-- **Without the built-in concepts, a rule on one of them refuses every record**: the program is
accepted, the input is valid, and the call fails. -/
theorem verify_builtin_refused :
    Verifier.nameErrors portalProgram = [] ∧ verify portalProgram = [] ∧
      pageRule ∈ portalProgram.rules ∧ pageRule.name ∈ activeRules portalProgram ∧
      ValidInput ticketInput [("seat", .number 7), ("owner", .text "Ada")] ∧
      ∀ fuel, 2 ≤ fuel → evalRule (contextWith portalProgram {} []) fuel pageRule
        (.record [("seat", .number 7), ("owner", .text "Ada")]) =
          Interpreter.fail (.contractConcept "bounded text output") := by
  refine ⟨by decide +kernel, by decide +kernel, by simp [portalProgram, Program.rules],
    by decide +kernel, by unfold ValidInput; decide +kernel, fun fuel hfuel => ?_⟩
  have htwo : evalRule (contextWith portalProgram {} []) 2 pageRule
      (.record [("seat", .number 7), ("owner", .text "Ada")]) =
        Interpreter.fail (.contractConcept "bounded text output") := by rfl
  rcases Interpreter.evalRule_mono (contextWith portalProgram {} []) hfuel pageRule
    (.record [("seat", .number 7), ("owner", .text "Ada")]) with h | h
  · rw [htwo] at h
    cases h
  · rw [h, htwo]

end Verbosec.TextBounds
