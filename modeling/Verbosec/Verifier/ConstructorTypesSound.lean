import Mathlib.Logic.Relation
import Verbosec.TextBounds.Sound
import Verbosec.Verifier.ConstructorFacts

/-!
# The types of constructed values, soundness

* `Enters`, `Reaches` - the expressions that the evaluation of an expression, or of a rule, reaches.
* `Accepted`, `Accepted.enters`, `Accepted.reaches` - what is reached from an expression without
  errors has none in a scope that its facts describe, in one step and in a run.
* `constructors_typed` - in an accepted rule whose called rules deliver their declared types, every
  constructor that the evaluation reaches is given its declared fields.
* `constructor_of_other_type` - a rule that does not deliver its declared type breaks this for a
  rule that calls it, and so does a concept that is named like a scalar type.

Source: `constructor_types.rs`, `check_rule`; `interpreter.rs`, `eval_expr`.
-/

namespace Verbosec.ConstructorTypes

open Verbosec.Lib Verbosec.Interpreter

variable {chk : Checker} {ctx : Context} {call : Rule → Value → Outcome Value}

/-! ## What an evaluation reaches -/

/-- The subexpressions in the scope of the whole. -/
def operands : Expr → List Expr
  | .quantifier _ a _ _ | .map a _ _ | .filter a _ _ | .matchResult a _ _ _ _
  | .matchVariant a _ => [a]
  | .fold a b _ _ _ | .foldBytes a b _ _ _ _ => [a, b]
  | e => e.children

/-- The evaluation of an expression evaluates a direct subexpression in a scope. Operands count also
where a branch is not taken or an operand before has failed. -/
inductive Enters (ctx : Context) (call : Rule → Value → Outcome Value) :
    Env × Expr → Env × Expr → Prop
  | operand {env : Env} {e c : Expr} (h : c ∈ operands e) : Enters ctx call (env, e) (env, c)
  | quantifier {env : Env} {kind : QuantifierKind} {coll pred : Expr} {var : String}
      {items : List Value} {item : Value}
      (hcoll : evalExpr ctx call env coll = .ok (.list items)) (hitem : item ∈ items) :
      Enters ctx call (env, .quantifier kind coll var pred) (Dict.insert env var item, pred)
  | map {env : Env} {coll body : Expr} {var : String} {items : List Value} {item : Value}
      (hcoll : evalExpr ctx call env coll = .ok (.list items)) (hitem : item ∈ items) :
      Enters ctx call (env, .map coll var body) (Dict.insert env var item, body)
  | filter {env : Env} {coll pred : Expr} {var : String} {items : List Value} {item : Value}
      (hcoll : evalExpr ctx call env coll = .ok (.list items)) (hitem : item ∈ items) :
      Enters ctx call (env, .filter coll var pred) (Dict.insert env var item, pred)
  | fold {env : Env} {coll initial body : Expr} {acc item : String} {before after : List Value}
      {a b x : Value} (hcoll : evalExpr ctx call env coll = .ok (.list (before ++ x :: after)))
      (hinitial : evalExpr ctx call env initial = .ok a)
      (hbefore : before.foldlM (fun a x =>
        evalExpr ctx call (Dict.insert (Dict.insert env acc a) item x) body) a = .ok b) :
      Enters ctx call (env, .fold coll initial acc item body)
        (Dict.insert (Dict.insert env acc b) item x, body)
  | foldBytes {env : Env} {text initial body : Expr} {acc byte idx : String} {s : String}
      {n : Int64} {before after : List UInt8} {a : Value} {x : UInt8}
      (htext : evalExpr ctx call env text = .ok (.text s))
      (hbytes : utf8Bytes s = before ++ x :: after)
      (hinitial : evalExpr ctx call env initial = .ok (.number n))
      (hbefore : foldByteItems (fun a b i => evalExpr ctx call
        (Dict.insert (Dict.insert (Dict.insert env acc a) byte (.number (Int64.ofNat b.toNat)))
          idx (.number (Int64.ofNat i))) body) (.number n) before 0 = .ok a) :
      Enters ctx call (env, .foldBytes text initial acc byte idx body)
        (Dict.insert (Dict.insert (Dict.insert env acc a) byte (.number (Int64.ofNat x.toNat)))
          idx (.number (Int64.ofNat before.length)), body)
  | matchOk {env : Env} {target yes no : Expr} {ok err : String} {v : Value}
      (htarget : evalExpr ctx call env target = .ok (.ok v)) :
      Enters ctx call (env, .matchResult target ok yes err no) (Dict.insert env ok v, yes)
  | matchErr {env : Env} {target yes no : Expr} {ok err : String} {v : Value}
      (htarget : evalExpr ctx call env target = .ok (.err v)) :
      Enters ctx call (env, .matchResult target ok yes err no) (Dict.insert env err v, no)
  | arm {env env' : Env} {target : Expr} {arms : List MatchArm} {arm : MatchArm} {n v : String}
      {fields : List (String × Value)}
      (htarget : evalExpr ctx call env target = .ok (.variant n v fields))
      (harm : arms.find? (·.variantName = v) = some arm)
      (henv : bindArm ctx n v fields arm.binders env = .ok env') :
      Enters ctx call (env, .matchVariant target arms) (env', arm.body)

/-- The evaluation of a rule in a scope evaluates an expression in a scope. -/
inductive Reaches (ctx : Context) (call : Rule → Value → Outcome Value) (r : Rule) (env₀ : Env) :
    Env × Expr → Prop
  | binding {before after : List (String × Expr)} {name : String} {rhs : Expr} {env : Env}
      {s : Env × Expr} (hbindings : r.logic.bindings = before ++ (name, rhs) :: after)
      (henv : evalBindings ctx call env₀ before = .ok env)
      (h : Relation.ReflTransGen (Enters ctx call) (env, rhs) s) : Reaches ctx call r env₀ s
  | value {env : Env} {s : Env × Expr}
      (henv : evalBindings ctx call env₀ r.logic.bindings = .ok env)
      (h : Relation.ReflTransGen (Enters ctx call) (env, r.logic.value) s) :
      Reaches ctx call r env₀ s

/-- A constructor whose assignments are evaluated is given the declared fields. -/
def WellBuilt (concepts : Dict String Concept) (ctx : Context)
    (call : Rule → Value → Outcome Value) : Env × Expr → Prop
  | (env, .record n fields) => ∀ vals, evalFields ctx call env fields = .ok vals →
      ∃ decl, Checker.recordDecl concepts n = some decl ∧ Fills concepts decl vals
  | (env, .variantConstruct n v fields) => ∀ vals, evalFields ctx call env fields = .ok vals →
      ∃ decl, Checker.variantDecl concepts n v = some decl ∧ Fills concepts decl vals
  | _ => True

/-! ## Expressions without constructors -/

/-- The constructors of an expression. -/
def constructorSites : Expr → List Unit :=
  Expr.collect fun
    | .record _ _ | .variantConstruct _ _ _ => [()]
    | _ => []

lemma Enters.mem_children {s s' : Env × Expr} (h : Enters ctx call s s') : s'.2 ∈ s.2.children := by
  cases h with
  | @operand env e c h => cases e <;> grind [operands, Expr.children]
  | arm htarget harm henv =>
      simp only [Expr.children]
      exact List.mem_cons_of_mem _ (List.mem_map_of_mem (List.mem_of_find?_eq_some harm))
  | _ => simp [Expr.children]

lemma constructorSites_of_mem_children {c e : Expr} (hc : c ∈ e.children)
    (h : constructorSites e = []) : constructorSites c = [] := by
  rw [constructorSites, Expr.collect_eq, List.append_eq_nil_iff] at h
  exact List.flatMap_eq_nil_iff.mp h.2 c hc

/-- The forms whose subexpressions are all walked in the scope of the whole, constructors apart. -/
def plain : Expr → Bool
  | .record _ _ | .variantConstruct _ _ _ | .quantifier _ _ _ _ | .map _ _ _ | .filter _ _ _
  | .fold _ _ _ _ _ | .foldBytes _ _ _ _ _ _ | .matchResult _ _ _ _ _ | .matchVariant _ _ => false
  | _ => true

/-- They only add up what their subexpressions yield. -/
lemma walk_plain (chk : Checker) {e : Expr} (h : plain e = true) (facts : Facts) :
    ∃ fact, walk chk facts e = .strict (walkArgs chk facts e.children) fact := by
  cases e <;> simp only [plain, Bool.false_eq_true] at h <;>
    simp only [walk, walkArgs, Expr.children] <;> exact ⟨_, rfl⟩

/-- What the walks of expressions yield. -/
lemma walkArgs_eq (facts : Facts) (args : List Expr) :
    walkArgs chk facts args = args.map (walk chk facts) := by
  induction args with
  | nil => rfl
  | cons e args ih => rw [walkArgs, ih, List.map_cons]

/-- The walk of an expression counts its constructors. -/
def Counts (chk : Checker) (e : Expr) : Prop :=
  ∀ facts, (walk chk facts e).constructors = (constructorSites e).length

lemma counts_args {args : List Expr} (h : ∀ c ∈ args, Counts chk c) (facts : Facts) :
    ((walkArgs chk facts args).map (·.constructors)).sum =
      (args.flatMap constructorSites).length := by
  induction args with
  | nil => rfl
  | cons a args ih =>
      rw [walkArgs, List.map_cons, List.sum_cons, List.flatMap_cons, List.length_append,
        h a List.mem_cons_self, ih fun c hc => h c (List.mem_cons_of_mem _ hc)]

lemma counts_fields {fields : List (String × Expr)} (h : ∀ c ∈ fields.map (·.2), Counts chk c)
    (facts : Facts) (label : String) (decl : Option (List Field)) : ∀ seen,
    (walkFields chk facts label decl seen fields).constructors =
      ((fields.map (·.2)).flatMap constructorSites).length := by
  induction fields with
  | nil => exact fun _ => rfl
  | cons p fields ih =>
      intro seen
      obtain ⟨name, e⟩ := p
      simp only [walkFields, List.map_cons, List.flatMap_cons, List.length_append,
        h e List.mem_cons_self facts,
        ih (fun c hc => h c (List.mem_cons_of_mem _ hc)) (name :: seen)]

lemma counts_arms {arms : List MatchArm} (h : ∀ c ∈ arms.map (·.body), Counts chk c)
    (facts : Facts) (concept : Option Concept) : ∀ seen result,
    (walkArms chk facts concept seen result arms).constructors =
      ((arms.map (·.body)).flatMap constructorSites).length := by
  induction arms with
  | nil => exact fun _ _ => rfl
  | cons arm arms ih =>
      intro seen result
      cases arm with
      | mk name binders body =>
          simp only [walkArms, List.map_cons, List.flatMap_cons, List.length_append,
            h body List.mem_cons_self _, ih (fun c hc => h c (List.mem_cons_of_mem _ hc)) _ _,
            MatchArm.body]

/-- The walk counts the constructors. -/
lemma walk_constructors (e : Expr) : Counts chk e := by
  induction e using Expr.induction_children with
  | step e ih =>
      intro facts
      rw [constructorSites, Expr.collect_eq, List.length_append]
      change _ = _ + (e.children.flatMap constructorSites).length
      by_cases hplain : plain e = true
      · obtain ⟨fact, hwalk⟩ := walk_plain chk hplain facts
        rw [hwalk, Walked.strict, counts_args ih]
        cases e <;> simp only [plain, Bool.false_eq_true] at hplain <;> simp
      · cases e <;> simp only [plain, Bool.false_eq_true, not_true, not_false_iff] at hplain <;>
          simp only [Expr.children] at ih ⊢
        case record n fields =>
          rw [walk, Checker.construct, counts_fields ih]
          simp [Nat.add_comm]
        case variantConstruct n v fields =>
          rw [walk, Checker.construct, counts_fields ih]
          simp [Nat.add_comm]
        case matchVariant target arms =>
          rw [walk, counts_arms fun c hc => ih c (List.mem_cons_of_mem _ hc),
            ih target List.mem_cons_self]
          simp
        case quantifier kind a var b =>
          rw [walk, Walked.strict]
          simp [ih a (by simp) _, ih b (by simp) _]
        case map a var b =>
          rw [walk, Walked.strict]
          simp [ih a (by simp) _, ih b (by simp) _]
        case filter a var b =>
          rw [walk, Walked.strict]
          simp [ih a (by simp) _, ih b (by simp) _]
        case matchResult a x b y c =>
          rw [walk, Walked.strict]
          simp [ih a (by simp) _, ih b (by simp) _, ih c (by simp) _]
        case fold a b x y c =>
          rw [walk]
          simp [ih a (by simp) _, ih b (by simp) _, ih c (by simp) _, Nat.add_assoc]
        case foldBytes a b x y z c =>
          rw [walk, Walked.strict]
          simp [ih a (by simp) _, ih b (by simp) _, ih c (by simp) _]

/-- What is known of a number is known of every number. -/
lemma Fact.describes_number {concepts : Dict String Concept} {f : Fact} {n : Int64}
    (h : f.Describes concepts (.number n)) (m : Int64) : f.Describes concepts (.number m) := by
  cases f with
  | known t =>
      cases h
      exact .number m
  | unknown => exact describes_unknown
  | _ => exact h.elim

/-! ## Accepted scopes -/

/-- The rules that an expression calls deliver their declared types. -/
def Delivering (concepts : Dict String Concept) (ctx : Context)
    (call : Rule → Value → Outcome Value) (e : Expr) : Prop :=
  ∀ name ∈ e.calls, ∀ callee, ctx.findRule name = some callee → Delivers concepts call callee

lemma Delivering.child {concepts : Dict String Concept} {e c : Expr}
    (h : Delivering concepts ctx call e) (hc : c ∈ e.children) : Delivering concepts ctx call c :=
  fun name hname => h name (Interpreter.Expr.calls_subset_of_mem_children hc hname)

/-- An expression without constructors, or one without errors in a scope that its facts describe. -/
def Accepted (chk : Checker) : Env × Expr → Prop
  | (env, e) => constructorSites e = [] ∨
      ∃ facts, Scoped chk.concepts facts env ∧ (walk chk facts e).errors = []

lemma errors_strict {ws : List Walked} {fact : Fact} (h : (Walked.strict ws fact).errors = []) :
    ∀ w ∈ ws, w.errors = [] :=
  List.flatMap_eq_nil_iff.mp h

lemma errors_args {facts : Facts} {args : List Expr}
    (h : (walkArgs chk facts args).flatMap (·.errors) = []) {c : Expr} (hc : c ∈ args) :
    (walk chk facts c).errors = [] := by
  rw [walkArgs_eq, List.flatMap_eq_nil_iff] at h
  exact h _ (List.mem_map_of_mem hc)

lemma errors_fields {facts : Facts} {label : String} {decl : Option (List Field)}
    {fields : List (String × Expr)} : ∀ {seen},
    (walkFields chk facts label decl seen fields).errors = [] →
    ∀ c ∈ fields.map (·.2), (walk chk facts c).errors = [] := by
  induction fields with
  | nil => exact fun _ _ hc => by cases hc
  | cons p fields ih =>
      intro seen h c hc
      obtain ⟨name, e⟩ := p
      simp only [walkFields, List.append_eq_nil_iff] at h
      rcases List.mem_cons.mp hc with rfl | hc
      · exact h.1.1
      · exact ih h.2 c hc

/-- The operands of an expression without errors have none. -/
lemma errors_operand {facts : Facts} {e c : Expr} (hc : c ∈ operands e)
    (h : (walk chk facts e).errors = []) : (walk chk facts c).errors = [] := by
  by_cases hplain : plain e = true
  · obtain ⟨fact, hwalk⟩ := walk_plain chk hplain facts
    have hoperands : operands e = e.children := by
      cases e <;> simp only [plain, Bool.false_eq_true] at hplain <;> rfl
    rw [hwalk, Walked.strict] at h
    exact errors_args h (hoperands ▸ hc)
  · cases e <;> simp only [plain, not_true] at hplain <;>
      simp only [operands, Expr.children, List.mem_cons, List.not_mem_nil, or_false] at hc
    case record n fields =>
      rw [walk, Checker.construct] at h
      exact errors_fields (List.append_eq_nil_iff.mp (List.append_eq_nil_iff.mp h).1).2 c hc
    case variantConstruct n v fields =>
      rw [walk, Checker.construct] at h
      exact errors_fields (List.append_eq_nil_iff.mp (List.append_eq_nil_iff.mp h).1).2 c hc
    case matchVariant target arms =>
      subst hc
      rw [walk] at h
      exact (List.append_eq_nil_iff.mp h).1
    case fold coll init acc item body =>
      rw [walk] at h
      simp only [List.append_eq_nil_iff] at h
      rcases hc with rfl | rfl
      · exact h.1.1.1
      · exact h.1.1.2
    case foldBytes text init acc byte idx body =>
      rw [walk] at h
      rcases hc with rfl | rfl <;> exact errors_strict h _ (by simp)
    all_goals
      subst hc
      rw [walk] at h
      exact errors_strict h _ (by simp)

/-- The selected arm of a match without errors has none. -/
lemma errors_arm {facts : Facts} {concept : Option Concept} {v : String} {arm : MatchArm}
    {arms : List MatchArm} (harm : arms.find? (·.variantName = v) = some arm) : ∀ {seen result},
    (walkArms chk facts concept seen result arms).errors = [] →
    (walk chk (bindFacts arm.binders (((concept.bind fun c =>
      c.variants.find? (·.name = v)).map (·.fields)).getD []) facts) arm.body).errors = [] := by
  induction arms with
  | nil => cases harm
  | cons a arms ih =>
      intro seen result h
      cases a with
      | mk name binders body =>
          simp only [walkArms, List.append_eq_nil_iff] at h
          rw [List.find?_cons] at harm
          split at harm
          · rename_i hname
            cases harm
            have hname : name = v := of_decide_eq_true hname
            subst hname
            exact h.1
          · exact ih harm h.2

/-- The body of a collection form is accepted on each item. -/
lemma accepted_item {facts : Facts} {env : Env} {coll body : Expr} {var : String}
    {items : List Value} {item : Value} (hsound : WalkSound chk ctx call coll)
    (hscope : Scoped chk.concepts facts env)
    (hcoll : evalExpr ctx call env coll = .ok (.list items)) (hitem : item ∈ items)
    (herrors : (walk chk (Dict.insert facts var (walk chk facts coll).fact.element) body).errors =
      []) : Accepted chk (Dict.insert env var item, body) :=
  .inr ⟨_, hscope.insert (Fact.describes_element (hsound facts env _ hscope hcoll) _ hitem) var,
    herrors⟩

/-- **One step**: what an accepted expression evaluates is accepted. -/
theorem Accepted.enters (hagrees : Agrees chk ctx) (hreport : chk.reportObligations)
    {s s' : Env × Expr}
    (hdelivering : Delivering chk.concepts ctx call s.2) (h : Enters ctx call s s')
    (hs : Accepted chk s) : Accepted chk s' := by
  rcases hs with hnone | ⟨facts, hscope, herrors⟩
  · exact .inl (constructorSites_of_mem_children h.mem_children hnone)
  have hsound : ∀ c ∈ s.2.children, WalkSound chk ctx call c := fun c hc =>
    walk_sound hagrees c (hdelivering.child hc)
  cases h with
  | operand hc => exact .inr ⟨facts, hscope, errors_operand hc herrors⟩
  | quantifier hcoll hitem =>
      rw [walk] at herrors
      exact accepted_item (hsound _ (by simp [Expr.children])) hscope hcoll hitem
        (errors_strict herrors _ (by simp))
  | map hcoll hitem =>
      rw [walk] at herrors
      exact accepted_item (hsound _ (by simp [Expr.children])) hscope hcoll hitem
        (errors_strict herrors _ (by simp))
  | filter hcoll hitem =>
      rw [walk] at herrors
      exact accepted_item (hsound _ (by simp [Expr.children])) hscope hcoll hitem
        (errors_strict herrors _ (by simp))
  | matchOk htarget =>
      rw [walk] at herrors
      have hdescribes := hsound _ (by simp [Expr.children]) facts _ _ hscope htarget
      exact .inr ⟨_, hscope.insert (Fact.describes_payload_ok hdescribes) _,
        errors_strict herrors _ (by simp)⟩
  | matchErr htarget =>
      rw [walk] at herrors
      have hdescribes := hsound _ (by simp [Expr.children]) facts _ _ hscope htarget
      exact .inr ⟨_, hscope.insert (Fact.describes_payload_err hdescribes) _,
        errors_strict herrors _ (by simp)⟩
  | arm htarget harm henv =>
      rw [walk] at herrors
      have hdescribes := hsound _ (by simp [Expr.children]) facts _ _ hscope htarget
      exact .inr ⟨_, bindArm_scoped hagrees hdescribes hscope henv,
        errors_arm harm (List.append_eq_nil_iff.mp herrors).2⟩
  | @fold env coll initial body acc item before after a b x hcoll hinitial hbefore =>
      rw [walk] at herrors
      simp only [List.append_eq_nil_iff] at herrors
      obtain ⟨⟨-, hbody⟩, hloop⟩ := herrors
      have hitems := hsound coll (by simp [Expr.children]) facts env _ hscope hcoll
      have hstart := hsound initial (by simp [Expr.children]) facts env _ hscope hinitial
      have hitem : ∀ y ∈ before ++ x :: after,
          (walk chk facts coll).fact.element.Describes chk.concepts y :=
        Fact.describes_element hitems
      split at hloop
      · simp [Checker.error, hreport] at hloop
      · rename_i hkeeps
        rw [not_and_or, not_not, not_not] at hkeeps
        rcases hkeeps with hkeeps | hcount
        · refine .inr ⟨_, (hscope.insert (f := (walk chk facts initial).fact) ?_ acc).insert
            (hitem x (by simp)) item, hbody⟩
          -- the body keeps the fact of the accumulator, so it describes the one reached here
          refine foldlM_keeps (fun y hy c d hc hd => ?_) hstart hbefore
          rw [← hkeeps]
          exact hsound body (by simp [Expr.children]) _ _ d ((hscope.insert hc acc).insert
            (hitem y (List.mem_append_left _ hy)) item) hd
        · rw [walk_constructors body] at hcount
          exact .inl (List.eq_nil_of_length_eq_zero hcount)
  | @foldBytes env text initial body acc byte idx t n before after a x htext hbytes hinitial
      hbefore =>
      rw [walk] at herrors
      have hstart := hsound initial (by simp [Expr.children]) facts env _ hscope hinitial
      have hacc : (walk chk facts initial).fact.Describes chk.concepts a := by
        have hnumber : HasType chk.concepts a .number := hasType_foldByteItems _ _ _ hbefore
        cases hnumber with
        | number m => exact Fact.describes_number hstart m
      exact .inr ⟨_, ((hscope.insert hacc acc).insert (f := .known .number) (.number _) byte).insert
        (f := .known .number) (.number _) idx, errors_strict herrors _ (by simp)⟩

/-- **A run**: what the evaluation of an accepted expression reaches is accepted. -/
theorem Accepted.reaches (hagrees : Agrees chk ctx) (hreport : chk.reportObligations)
    {s s' : Env × Expr} (hdelivering : Delivering chk.concepts ctx call s.2)
    (h : Relation.ReflTransGen (Enters ctx call) s s') (hs : Accepted chk s) :
    Accepted chk s' ∧ Delivering chk.concepts ctx call s'.2 := by
  induction h with
  | refl => exact ⟨hs, hdelivering⟩
  | tail _ hstep ih => exact ⟨ih.1.enters hagrees hreport ih.2 hstep, ih.2.child hstep.mem_children⟩

/-- An accepted constructor is given the declared fields. -/
lemma Accepted.wellBuilt (hagrees : Agrees chk ctx) (hreport : chk.reportObligations)
    {s : Env × Expr} (hdelivering : Delivering chk.concepts ctx call s.2) (hs : Accepted chk s) :
    WellBuilt chk.concepts ctx call s := by
  obtain ⟨env, e⟩ := s
  have hfields : ∀ fields : List (String × Expr), (∀ c ∈ fields.map (·.2), c ∈ e.children) →
      ∀ p ∈ fields, WalkSound chk ctx call p.2 := fun fields hmem p hp =>
    walk_sound hagrees p.2 (hdelivering.child (hmem p.2 (List.mem_map_of_mem hp)))
  cases e with
  | record n fields =>
      intro vals hvals
      rcases hs with hnone | ⟨facts, hscope, herrors⟩
      · simp [constructorSites, Expr.collect] at hnone
      · rw [walk] at herrors
        exact construct_errors hreport hscope (hfields fields fun _ h => h) herrors hvals
  | variantConstruct n v fields =>
      intro vals hvals
      rcases hs with hnone | ⟨facts, hscope, herrors⟩
      · simp [constructorSites, Expr.collect] at hnone
      · rw [walk] at herrors
        exact construct_errors hreport hscope (hfields fields fun _ h => h) herrors hvals
  | _ => trivial

/-! ## Rules -/

/-- Without errors, the bindings and the value of a rule are evaluated in accepted scopes. -/
lemma walkBindings_scoped (hagrees : Agrees chk ctx) {value : Expr}
    {bindings : List (String × Expr)} : ∀ {facts env},
    Scoped chk.concepts facts env → walkBindings chk value facts bindings = [] →
    (∀ b ∈ bindings, Delivering chk.concepts ctx call b.2) →
    (∀ before name rhs after, bindings = before ++ (name, rhs) :: after → ∀ env',
      evalBindings ctx call env before = .ok env' → Accepted chk (env', rhs)) ∧
    ∀ env', evalBindings ctx call env bindings = .ok env' → Accepted chk (env', value) := by
  induction bindings with
  | nil =>
      intro facts env hscope herrors _
      refine ⟨fun before name rhs after h => by simp at h, fun env' henv => ?_⟩
      cases henv
      exact .inr ⟨facts, hscope, herrors⟩
  | cons b bindings ih =>
      intro facts env hscope herrors hdelivering
      obtain ⟨name, rhs⟩ := b
      simp only [walkBindings, List.append_eq_nil_iff] at herrors
      have hnext : ∀ v, evalExpr ctx call env rhs = .ok v → _ := fun v hv =>
        ih (hscope.insert (walk_sound hagrees rhs (hdelivering _ List.mem_cons_self) facts env v
          hscope hv) name) herrors.2 fun b hb => hdelivering b (List.mem_cons_of_mem _ hb)
      refine ⟨fun before n e after h env' henv => ?_, fun env' henv => ?_⟩
      · cases before with
        | nil =>
            cases h
            cases henv
            exact .inr ⟨facts, hscope, herrors.1⟩
        | cons b before =>
            cases h
            obtain ⟨v, hv, henv⟩ := Except.bind_eq_ok.mp henv
            exact (hnext v hv).1 before n e after rfl env' henv
      · obtain ⟨v, hv, henv⟩ := Except.bind_eq_ok.mp henv
        exact (hnext v hv).2 env' henv

/-- The facts a rule starts with describe values of the declared types. -/
lemma scoped_roots {concepts : Dict String Concept} {roots : Dict String Ty} {env : Env}
    (henv : ∀ name t v, roots.lookup name = some t → env.lookup name = some v →
      HasType concepts v t) :
    Scoped concepts (roots.map fun root => (root.1, Fact.fromType root.2)) env := by
  intro name v hv
  rw [show (roots.map fun root => (root.1, Fact.fromType root.2)).lookup name =
    (roots.lookup name).map Fact.fromType from
      Dict.lookup_map_entries Function.injective_id Fact.fromType roots name]
  cases hroot : roots.lookup name with
  | none => exact Fact.describes_unknown
  | some t => exact Fact.describes_fromType (henv name t v hroot hv)

/-- **Constructors of an accepted rule**: every one that the evaluation of the rule reaches is given
the declared fields, where the tables agree and the called rules deliver. -/
theorem wellBuilt_of_reaches (hagrees : Agrees chk ctx) (hreport : chk.reportObligations) {r : Rule}
    {facts : Facts} {env₀ : Env} (hscope : Scoped chk.concepts facts env₀)
    (herrors : walkBindings chk r.logic.value facts r.logic.bindings = [])
    (hdelivering : ∀ name ∈ r.deps, ∀ callee, ctx.findRule name = some callee →
      Delivers chk.concepts call callee) {s : Env × Expr} (h : Reaches ctx call r env₀ s) :
    WellBuilt chk.concepts ctx call s := by
  have hbindings : ∀ b ∈ r.logic.bindings, Delivering chk.concepts ctx call b.2 :=
    fun b hb name hn => hdelivering name (List.mem_append_left _ (List.mem_flatMap.mpr ⟨b, hb, hn⟩))
  have hvalue : Delivering chk.concepts ctx call r.logic.value := fun name hn =>
    hdelivering name (List.mem_append_right _ hn)
  obtain ⟨hbefore, hlast⟩ := walkBindings_scoped hagrees hscope herrors hbindings
  cases h with
  | @binding before after name rhs env _ hsplit henv hrun =>
      have hrhs := hbindings (name, rhs) (by simp [hsplit])
      obtain ⟨hs, hd⟩ := (hbefore before name rhs after hsplit env henv).reaches hagrees hreport
        hrhs hrun
      exact hs.wellBuilt hagrees hreport hd
  | @value env _ henv hrun =>
      obtain ⟨hs, hd⟩ := (hlast env henv).reaches hagrees hreport hvalue hrun
      exact hs.wellBuilt hagrees hreport hd

/-! ## Programs -/

/-- The names of a program as its parser and its name passes leave them, with no concept under the
name of a scalar type. -/
structure WellNamed (p : Program) : Prop where
  names : Verifier.nameErrors p = []
  payload : ∀ c ∈ p.concepts, ∀ v ∈ c.variants, (v.fields.map (·.name)).Nodup
  scalar : ∀ c ∈ p.concepts, itemTy c.name = .named c.name

/-- The names of the scalar types have at most six characters. -/
lemma itemTy_of_length {name : String} (h : 6 < name.length) : itemTy name = .named name := by
  unfold itemTy
  split
  · exact absurd h (by decide +kernel)
  · exact absurd h (by decide +kernel)
  · exact absurd h (by decide +kernel)
  · exact absurd h (by decide +kernel)
  · rfl

lemma length_le_append (a b c : String) : a.length ≤ (a ++ b ++ c).length := by
  rw [String.length_append, String.length_append]
  omega

/-- The name of a state is no name of a scalar type. -/
lemma itemTy_serviceState (s : Service) :
    itemTy (serviceStateConcept s).name = .named (serviceStateConcept s).name :=
  have hprefix : 6 < "<state of service '".length := by decide +kernel
  itemTy_of_length (lt_of_lt_of_le hprefix (length_le_append _ _ _))

/-- A concept in scope is the state or a concept of the program. -/
lemma mem_scopeConcepts {p : Program} {service : Option Service} {n : String} {c : Concept}
    (h : (scopeConcepts p (service.map serviceStateConcept)).lookup n = some c) :
    (∃ s, service = some s ∧ n = (serviceStateConcept s).name ∧ c = serviceStateConcept s) ∨
      (c ∈ p.concepts ++ TextBounds.builtins p ∧ n = c.name) := by
  rcases List.mem_append.mp (Dict.mem_of_lookup h) with hmem | hmem
  · cases service with
    | none => cases hmem
    | some s =>
        obtain ⟨rfl, rfl⟩ := Prod.mk.inj (List.mem_singleton.mp hmem)
        exact .inl ⟨s, rfl, rfl, rfl⟩
  · obtain ⟨d, hd, heq⟩ := List.mem_map.mp (List.mem_reverse.mp hmem)
    obtain ⟨rfl, rfl⟩ := Prod.mk.inj heq
    exact .inr ⟨hd, rfl⟩

/-- The built-in concepts are records, with names of their own. -/
lemma builtin_eq {p : Program} {c : Concept} (hc : c ∈ TextBounds.builtins p) :
    itemTy c.name = .named c.name ∧ c.variants = [] := by
  unfold TextBounds.builtins at hc
  split at hc
  · rcases List.mem_pair.mp hc with rfl | rfl
    · exact ⟨itemTy_of_length (show 6 < "HttpRequest".length by decide +kernel), rfl⟩
    · exact ⟨itemTy_of_length (show 6 < "HttpResponse".length by decide +kernel), rfl⟩
  · cases hc

/-- The tables of the pass and of the interpreter agree. -/
lemma agrees_ofProgram {p : Program} (hp : WellNamed p) (world : World) (r : Rule)
    (service : Option Service) (explain : Facts → Expr → Ty → List VerifyError)
    (hstate : ∀ s ∈ service, (serviceStateConcept s).name ∉ p.concepts.map (·.name)) :
    Agrees (.ofRule p r (service.map serviceStateConcept) true explain)
      (Context.ofProgram p world) where
  rules := rfl
  concepts := by
    intro n c hc
    have hmem : c ∈ p.concepts := List.mem_of_find?_eq_some hc
    obtain rfl : c.name = n := by simpa using List.find?_some hc
    have htable : (Verifier.conceptTable p).lookup c.name = some c :=
      (TextBounds.sameTables_of_program hp.names false world (List.nil_subset _)).concepts c
        (List.mem_append_left _ hmem)
    cases service with
    | none => exact htable
    | some s =>
        have hne : c.name ≠ (serviceStateConcept s).name := fun heq =>
          hstate s rfl (heq ▸ List.mem_map_of_mem hmem)
        show List.lookup c.name (((serviceStateConcept s).name, serviceStateConcept s) ::
          Verifier.conceptTable p) = some c
        rw [List.lookup_cons, beq_false_of_ne hne]
        exact htable
  scalar := by
    intro n c hc
    rcases mem_scopeConcepts hc with ⟨s, -, rfl, rfl⟩ | ⟨hmem, rfl⟩
    · exact itemTy_serviceState s
    · rcases List.mem_append.mp hmem with hmem | hmem
      · exact hp.scalar c hmem
      · exact (builtin_eq hmem).1
  payload := by
    intro n c hc v hv
    rcases mem_scopeConcepts hc with ⟨s, -, rfl, rfl⟩ | ⟨hmem, rfl⟩
    · cases hv
    · rcases List.mem_append.mp hmem with hmem | hmem
      · exact hp.payload c hmem v hv
      · rw [(builtin_eq hmem).2] at hv
        cases hv

/-- **Constructor typing.** In a rule that the pass accepts, with the state of a service in scope or
without, and whose called rules yield values of their declared output types, every constructor that
an evaluation on values of the declared types reaches is given each declared field once, no other
field, and values of the declared types. -/
theorem constructors_typed {p : Program} (hp : WellNamed p) (world : World) {r : Rule}
    (service : Option Service) (explain : Facts → Expr → Ty → List VerifyError)
    (hstate : ∀ s ∈ service, (serviceStateConcept s).name ∉ p.concepts.map (·.name))
    (haccepted : checkRule p r (service.map serviceStateConcept) true explain = [])
    (fuel : Nat)
    (hdelivering : ∀ name ∈ r.deps, ∀ callee,
      (Context.ofProgram p world).findRule name = some callee →
      Delivers (scopeConcepts p (service.map serviceStateConcept))
        (evalRule (Context.ofProgram p world) fuel) callee)
    (env₀ : Env)
    (henv : ∀ name t v, (roots r (service.map serviceStateConcept)).lookup name = some t →
      env₀.lookup name = some v → HasType (scopeConcepts p (service.map serviceStateConcept)) v t)
    {s : Env × Expr}
    (h : Reaches (Context.ofProgram p world) (evalRule (Context.ofProgram p world) fuel) r env₀ s) :
    WellBuilt (scopeConcepts p (service.map serviceStateConcept)) (Context.ofProgram p world)
      (evalRule (Context.ofProgram p world) fuel) s :=
  wellBuilt_of_reaches (agrees_ofProgram hp world r service explain hstate) rfl (scoped_roots henv)
    haccepted hdelivering h

/-! ## Values of other types -/

/-- The pass accepts a rule, and a constructor that its evaluation reaches on a value of its input type
is not given its declared fields. -/
def Misbuilds (p : Program) (r : Rule) (input : Value) : Prop :=
  checkRule p r none true (fun _ _ _ => []) = [] ∧
    HasType (scopeConcepts p none) input r.inputTy ∧
    ∃ s, Reaches (Context.ofProgram p {}) (evalRule (Context.ofProgram p {}) 2) r
        [(r.inputName, input)] s ∧
      ¬ WellBuilt (scopeConcepts p none) (Context.ofProgram p {})
        (evalRule (Context.ofProgram p {}) 2) s

/-- A rule that declares a text and has the value `value`. -/
def nameOf (value : Expr) : Rule where
  name := "name_of"
  inputName := "part"
  inputTy := .named "Part"
  outputName := "name"
  outputTy := .text
  logic := { value := value }

/-- A rule that constructs a record from that text. -/
def label : Rule where
  name := "label"
  inputName := "part"
  inputTy := .named "Part"
  outputName := "label"
  outputTy := .named "Label"
  logic := { value := .record "Label" [("of", .call "name_of" [.ident "part"])] }

/-- The program of the two rules. -/
def labelProgram (value : Expr) : Program where
  items :=
    [.concept { name := "Part", fields := [⟨"size", .number, none⟩] },
      .concept { name := "Label", fields := [⟨"of", .text, none⟩] },
      .rule (nameOf value), .rule label]

/-- A part of size five. -/
def partFive : Value := .record [("size", .number 5)]

lemma wellNamed_labelProgram (value : Expr) : WellNamed (labelProgram value) where
  names := rfl
  payload := by
    intro c hc v hv
    rcases List.mem_pair.mp hc with rfl | rfl <;> cases hv
  scalar := by
    intro c hc
    rcases List.mem_pair.mp hc with rfl | rfl
    · rfl
    · rfl

lemma hasType_partFive (value : Expr) :
    HasType (scopeConcepts (labelProgram value) none) partFive (.named "Part") := by
  have hdecl : Checker.recordDecl (scopeConcepts (labelProgram value) none) "Part" =
      some [⟨"size", .number, none⟩] := rfl
  refine .record hdecl (by simp) (by simp) fun f hf d hd => ?_
  obtain rfl := List.mem_singleton.mp hf
  cases hd
  exact .number 5

/-- A rule whose value is a number, where it declares a text, is accepted, and so is the rule that
constructs from its result. -/
lemma misbuilds_label :
    checkRule (labelProgram (.field (.ident "part") "size"))
        (nameOf (.field (.ident "part") "size")) none true (fun _ _ _ => []) = [] ∧
      Misbuilds (labelProgram (.field (.ident "part") "size")) label partFive := by
  refine ⟨rfl, rfl, hasType_partFive _, _, .value rfl .refl, fun h => ?_⟩
  obtain ⟨decl, hdecl, hfills⟩ := h [("of", .number 5)] rfl
  cases hdecl
  cases hfills.typed ("of", .number 5) List.mem_cons_self ⟨"of", .text, none⟩ rfl

/-- A rule over a collection of records of a concept that is named like a scalar type. -/
def wrap : Rule where
  name := "wrap"
  inputName := "box"
  inputTy := .named "Box"
  outputName := "wraps"
  outputTy := .collection "Wrap"
  logic :=
    { value := .map
        (.map (.field (.ident "box") "items") "item" (.record "number" [("of", .ident "item")]))
        "n" (.record "Wrap" [("n", .ident "n")]) }

/-- The program of that rule. -/
def wrapProgram : Program where
  items :=
    [.concept { name := "number", fields := [⟨"of", .text, none⟩] },
      .concept { name := "Wrap", fields := [⟨"n", .number, none⟩] },
      .concept { name := "Box", fields := [⟨"items", .collection "text", none⟩] }, .rule wrap]

/-- A box with one text. -/
def oneBox : Value := .record [("items", .list [.text "bolt"])]

/-- The items of a collection of such records pass for numbers. -/
lemma misbuilds_wrap : Misbuilds wrapProgram wrap oneBox := by
  have hdecl : Checker.recordDecl (scopeConcepts wrapProgram none) "Box" =
      some [⟨"items", .collection "text", none⟩] := rfl
  have hcoll : evalExpr (Context.ofProgram wrapProgram {})
      (evalRule (Context.ofProgram wrapProgram {}) 2) [("box", oneBox)]
      (.map (.field (.ident "box") "items") "item" (.record "number" [("of", .ident "item")])) =
        .ok (.list [.record [("of", .text "bolt")]]) := rfl
  refine ⟨rfl, .record hdecl (by simp) (by simp) fun f hf d hd => ?_, _,
    .value rfl (.single (.map hcoll List.mem_cons_self)), fun h => ?_⟩
  · obtain rfl := List.mem_singleton.mp hf
    cases hd
    refine .collection fun v hv => ?_
    obtain rfl := List.mem_singleton.mp hv
    exact .text "bolt"
  · obtain ⟨decl, hdecl, hfills⟩ := h [("n", .record [("of", .text "bolt")])] rfl
    cases hdecl
    cases hfills.typed _ List.mem_cons_self ⟨"n", .number, none⟩ rfl

/-- **Constructors that are given other types**: the declared type of a callee is trusted, and a
concept may be named like a scalar type. -/
theorem constructor_of_other_type :
    Misbuilds (labelProgram (.field (.ident "part") "size")) label partFive ∧
      Misbuilds wrapProgram wrap oneBox :=
  ⟨misbuilds_label.2, misbuilds_wrap⟩

/-- Where the callee has a text for its value, the constructor is given its fields. -/
theorem constructors_typed_label :
    WellBuilt (scopeConcepts (labelProgram (.text "bolt")) none)
      (Context.ofProgram (labelProgram (.text "bolt")) {})
      (evalRule (Context.ofProgram (labelProgram (.text "bolt")) {}) 2)
      ([("part", partFive)], label.logic.value) := by
  refine constructors_typed (wellNamed_labelProgram _) {} (r := label) none (fun _ _ _ => [])
    (fun _ hs => by cases hs) rfl 2 ?_ [("part", partFive)] ?_ (.value rfl .refl)
  · intro name hname callee hcallee v w _ hw
    obtain rfl : name = "name_of" := by simpa [Rule.deps, label, Expr.calls, Expr.collect,
      Expr.collectFields, Expr.collectList] using hname
    obtain rfl : nameOf (.text "bolt") = callee := Option.some.inj hcallee
    cases hw
    exact .text "bolt"
  · intro name t v hroot hv
    have hname : name = "part" := by
      by_contra hne
      simp [roots, label, List.lookup_cons, beq_false_of_ne hne] at hroot
    subst hname
    cases hroot
    cases hv
    exact hasType_partFive _

end Verbosec.ConstructorTypes
