import Verbosec.TextBounds.Operations

/-!
# The inferred abstract values

* `Check.Infers result env e v` - `v` is the abstract value of `e`, the names of `env` having the
  abstract values given there and the called rules those given by `result`. This is the verifier
  without its budget, its cache and its order.
* `Check.RuleInfers name v` - `v` is the abstract result of a rule, and likewise of every rule it
  calls.
* `Check.InfersLets`, `Check.InfersIn` - the same for the `let`s of a rule and for an expression that
  follows some of them.
* `Check.Infers.of_mem_collect` - every subexpression of an expression with an abstract value has
  one.
* `expr_infers`, `ruleInfers_of_verify` - whatever the verifier computes is inferred.
-/

namespace Verbosec.TextBounds

open Verbosec.Lib Verbosec.Lib.Fallible

namespace Check

variable (chk : Check)

mutual

/-- The abstract value of an expression, `result` relating the called rules to theirs. -/
def Infers (result : String → Value → Prop) (env : Dict String Value) : Expr → Value → Prop
  | .text s, v => v = .text (some s.utf8ByteSize)
  | .number n, v => v = .number n.toInt n.toInt
  | .neg a, v => ∃ va, Infers result env a va ∧ negValue va = .ok v
  | .abs a, v => ∃ va, Infers result env a va ∧ absValue va = .ok v
  | .min a b, v => ∃ lo hi lo' hi', Infers result env a (.number lo hi) ∧
      Infers result env b (.number lo' hi') ∧ v = .number (min lo lo') (min hi hi')
  | .max a b, v => ∃ lo hi lo' hi', Infers result env a (.number lo hi) ∧
      Infers result env b (.number lo' hi') ∧ v = .number (max lo lo') (max hi hi')
  | .ident n, v => env.lookup n = some v
  | .field base name, v => ∃ vb, Infers result env base vb ∧ chk.fieldValue vb name = .ok v
  | .concat args, v => ∃ total, InfersArgs result env args (some 0) total ∧ v = .text total
  | .ite cond yes no, v => Infers result env cond .bool ∧ ∃ va vb va' vb',
      Infers result env yes va ∧ Infers result env no vb ∧ chk.materializeInput va = .ok va' ∧
        chk.materializeInput vb = .ok vb' ∧ chk.joinValues va' vb' = .ok v
  | .call name args, v =>
      match args with
      | [arg] => ∃ input, Infers result env arg input ∧ chk.callInput name input = .ok () ∧
          result name v
      | _ => False
  | .binary op left right, v => ∃ va vb, Infers result env left va ∧ Infers result env right vb ∧
      binaryValue op va vb = .ok v
  | .not a, v => Infers result env a .bool ∧ v = .bool
  | .length a, v => ∃ va, Infers result env a va ∧ lengthValue va = .ok v
  | .record name fields, v => ∃ c values, chk.concepts.lookup name = some c ∧
      InfersFields result env c fields [] values ∧ v = .record name values
  | _, _ => False

/-- The capacity of a concatenation whose arguments so far need `total` bytes. -/
def InfersArgs (result : String → Value → Prop) (env : Dict String Value) :
    List Expr → Option Nat → Option Nat → Prop
  | [], total, total' => total' = total
  | e :: es, total, total' => ∃ v n next, Infers result env e v ∧ v.asCapacity = .ok n ∧
      addCapacity total n = .ok next ∧ InfersArgs result env es next total'

/-- The fields of a constructed record of the concept `c` whose fields so far are `values`. -/
def InfersFields (result : String → Value → Prop) (env : Dict String Value) (c : Concept) :
    List (String × Expr) → Dict String Value → Dict String Value → Prop
  | [], values, values' => values' = values
  | (n, e) :: fs, values, values' => ∃ v next, Infers result env e v ∧
      recordField c values n v = .ok next ∧ InfersFields result env c fs next values'

end

/-- The abstract values of `let`s, in order, added to `env`. -/
def InfersLets (result : String → Value → Prop) :
    Dict String Value → List (String × Expr) → Dict String Value → Prop
  | env, [], env' => env' = env
  | env, (n, e) :: rest, env' =>
      ∃ v, chk.Infers result env e v ∧ InfersLets result (env.insert n v) rest env'

/-- The abstract result of a rule, given those of the rules it calls. -/
def InfersBody (result : String → Value → Prop) (name : String) (v : Value) : Prop :=
  ∃ r input c env body, chk.rules.lookup name = some r ∧ chk.inputConcept r = .ok (input, c) ∧
    chk.InfersLets result [(r.inputName, .input input)] r.logic.bindings env ∧
    chk.Infers result env r.logic.value body ∧ contractValue r body = .ok v

/-- The abstract result of a rule and, below it, of the rules it calls. -/
inductive RuleInfers : String → Value → Prop
  | body {result : String → Value → Prop} {name : String} {v : Value}
      (callees : ∀ n u, result n u → RuleInfers n u) (h : chk.InfersBody result name v) :
      RuleInfers name v

/-- An expression of a rule has an abstract value after the `let`s `before`. -/
def InfersIn (r : Rule) (before : List (String × Expr)) (e : Expr) (v : Value) : Prop :=
  ∃ input c env, chk.inputConcept r = .ok (input, c) ∧
    chk.InfersLets chk.RuleInfers [(r.inputName, .input input)] before env ∧
    chk.Infers chk.RuleInfers env e v

variable {chk}

/-! ## More callees, subexpressions -/

section mono

variable {result result' : String → Value → Prop} (hresult : ∀ n v, result n v → result' n v)

include hresult

omit hresult in
lemma InfersArgs.mono {env : Dict String Value} {es : List Expr}
    (h : ∀ e ∈ es, ∀ v, chk.Infers result env e v → chk.Infers result' env e v) :
    ∀ {total total'}, chk.InfersArgs result env es total total' →
      chk.InfersArgs result' env es total total' := by
  induction es with
  | nil => exact fun h => h
  | cons e es ih =>
      rintro total total' ⟨v, n, next, hv, hn, hnext, hrest⟩
      exact ⟨v, n, next, h e (by simp) v hv, hn, hnext, ih (fun e he => h e (by simp [he])) hrest⟩

omit hresult in
lemma InfersFields.mono {env : Dict String Value} {c : Concept} {fs : List (String × Expr)}
    (h : ∀ e ∈ fs.map (·.2), ∀ v, chk.Infers result env e v → chk.Infers result' env e v) :
    ∀ {values values'}, chk.InfersFields result env c fs values values' →
      chk.InfersFields result' env c fs values values' := by
  induction fs with
  | nil => exact fun h => h
  | cons p fs ih =>
      obtain ⟨n, e⟩ := p
      rintro values values' ⟨v, next, hv, hnext, hrest⟩
      exact ⟨v, next, h e (by simp) v hv, hnext,
        ih (fun e he => h e (List.mem_cons_of_mem _ he)) hrest⟩

/-- More results of called rules infer no less. -/
lemma Infers.mono (e : Expr) : ∀ {env v}, chk.Infers result env e v → chk.Infers result' env e v := by
  induction e using Expr.induction_children with
  | step e ih =>
      intro env v h
      cases e <;> unfold Infers at h ⊢
      case text | number | ident => exact h
      case neg a | abs a | field a n | length a =>
        obtain ⟨va, ha, hv⟩ := h
        exact ⟨va, ih _ (by simp [Expr.children]) ha, hv⟩
      case min a b | max a b =>
        obtain ⟨lo, hi, lo', hi', ha, hb, hv⟩ := h
        exact ⟨lo, hi, lo', hi', ih _ (by simp [Expr.children]) ha,
          ih _ (by simp [Expr.children]) hb, hv⟩
      case concat args =>
        obtain ⟨total, ha, hv⟩ := h
        exact ⟨total, ha.mono fun e he _ => ih e he, hv⟩
      case ite c a b =>
        obtain ⟨hc, va, vb, va', vb', ha, hb, hv⟩ := h
        exact ⟨ih _ (by simp [Expr.children]) hc, va, vb, va', vb',
          ih _ (by simp [Expr.children]) ha, ih _ (by simp [Expr.children]) hb, hv⟩
      case call name args =>
        split at h
        · obtain ⟨input, ha, hin, hv⟩ := h
          exact ⟨input, ih _ (by simp [Expr.children]) ha, hin, hresult _ _ hv⟩
        · exact h.elim
      case binary op a b =>
        obtain ⟨va, vb, ha, hb, hv⟩ := h
        exact ⟨va, vb, ih _ (by simp [Expr.children]) ha, ih _ (by simp [Expr.children]) hb, hv⟩
      case not a => exact ⟨ih _ (by simp [Expr.children]) h.1, h.2⟩
      case record n fs =>
        obtain ⟨c, values, hc, hf, hv⟩ := h
        exact ⟨c, values, hc, hf.mono fun e he _ => ih e he, hv⟩
      all_goals exact h.elim

lemma InfersLets.mono (bindings : List (String × Expr)) : ∀ {env env'},
    chk.InfersLets result env bindings env' → chk.InfersLets result' env bindings env' := by
  induction bindings with
  | nil => exact fun h => h
  | cons b bindings ih =>
      obtain ⟨n, e⟩ := b
      rintro env env' ⟨v, hv, hrest⟩
      exact ⟨v, Infers.mono hresult _ hv, ih hrest⟩

end mono

/-- The body of an inferred rule, its callees inferred likewise. -/
lemma RuleInfers.infersBody {name : String} {v : Value} (h : chk.RuleInfers name v) :
    chk.InfersBody chk.RuleInfers name v := by
  obtain ⟨callees, r, input, c, env, body, hr, hin, hlets, hbody, hv⟩ := h
  exact ⟨r, input, c, env, body, hr, hin, hlets.mono callees, hbody.mono callees, hv⟩

/-- Every argument of a concatenation with a capacity has an abstract value. -/
lemma InfersArgs.of_mem {result : String → Value → Prop} {env : Dict String Value}
    {es : List Expr} {e : Expr} (he : e ∈ es) : ∀ {total total'},
    chk.InfersArgs result env es total total' → ∃ v, chk.Infers result env e v := by
  induction es with
  | nil => cases he
  | cons e' es ih =>
      rintro total total' ⟨v, n, next, hv, -, -, hrest⟩
      rcases List.mem_cons.mp he with rfl | he
      · exact ⟨v, hv⟩
      · exact ih he hrest

/-- Every field of a constructed record has an abstract value. -/
lemma InfersFields.of_mem {result : String → Value → Prop} {env : Dict String Value} {c : Concept}
    {fs : List (String × Expr)} {e : Expr} (he : e ∈ fs.map (·.2)) : ∀ {values values'},
    chk.InfersFields result env c fs values values' → ∃ v, chk.Infers result env e v := by
  induction fs with
  | nil => cases he
  | cons p fs ih =>
      obtain ⟨n, e'⟩ := p
      rintro values values' ⟨v, next, hv, -, hrest⟩
      rcases List.mem_cons.mp he with rfl | he
      · exact ⟨v, hv⟩
      · exact ih he hrest

/-- A direct subexpression of an expression with an abstract value has one. -/
lemma Infers.of_mem_children {result : String → Value → Prop} {env : Dict String Value} {e c : Expr}
    {v : Value} (h : chk.Infers result env e v) (hc : c ∈ e.children) :
    ∃ vc, chk.Infers result env c vc := by
  cases e <;> simp only [Expr.children, List.mem_cons, List.not_mem_nil, or_false] at hc <;>
    unfold Infers at h
  case neg a | abs a | field a n | length a =>
    obtain ⟨va, ha, -⟩ := h
    exact ⟨va, hc ▸ ha⟩
  case not a => exact ⟨_, hc ▸ h.1⟩
  case min a b | max a b =>
    obtain ⟨lo, hi, lo', hi', ha, hb, -⟩ := h
    rcases hc with rfl | rfl
    · exact ⟨_, ha⟩
    · exact ⟨_, hb⟩
  case binary op a b =>
    obtain ⟨va, vb, ha, hb, -⟩ := h
    rcases hc with rfl | rfl
    · exact ⟨_, ha⟩
    · exact ⟨_, hb⟩
  case concat args =>
    obtain ⟨total, ha, -⟩ := h
    exact ha.of_mem hc
  case ite cond a b =>
    obtain ⟨hcond, va, vb, va', vb', ha, hb, -⟩ := h
    rcases hc with rfl | rfl | rfl
    · exact ⟨_, hcond⟩
    · exact ⟨_, ha⟩
    · exact ⟨_, hb⟩
  case call name args =>
    split at h
    · obtain ⟨input, ha, -⟩ := h
      rw [List.mem_singleton] at hc
      exact ⟨input, hc ▸ ha⟩
    · exact h.elim
  case record n fs =>
    obtain ⟨decl, values, -, hf, -⟩ := h
    exact hf.of_mem hc
  all_goals exact h.elim

/-- Every subexpression of an expression with an abstract value has one. -/
theorem Infers.of_mem_collect {result : String → Value → Prop} {env : Dict String Value}
    {e : Expr} : ∀ {v}, chk.Infers result env e v → ∀ s ∈ e.collect fun s => [s],
      ∃ vs, chk.Infers result env s vs := by
  induction e using Expr.induction_children with
  | step e ih =>
      intro v h s hs
      rw [Expr.collect_eq, List.mem_append, List.mem_singleton, List.mem_flatMap] at hs
      rcases hs with rfl | ⟨c, hc, hs⟩
      · exact ⟨v, h⟩
      · obtain ⟨vc, hvc⟩ := h.of_mem_children hc
        exact ih c hc hvc s hs

/-! ## The verifier infers -/

lemma tick_keeps (P : String → Value → Prop) (depth : Nat) :
    Keeps (Cached P) (tick depth) fun _ => True :=
  (steps_keeps P (· + 1)).seq fun _ => Keeps.get_bind fun _ _ =>
    .ite (fun _ => .throw _) fun _ => .pure trivial

/-- A visited expression has the abstract value that its body finds. -/
lemma visit_keeps {P : String → Value → Prop} {Q : Value → Prop} (depth : Nat) {body : M Value}
    (h : Keeps (Cached P) body Q) : Keeps (Cached P) (chk.visit depth body) Q :=
  (tick_keeps P depth).seq fun _ => h.bind fun _ hv => .ite (fun _ => .pure hv) fun _ => .throw _

lemma joinTick_keeps (P : String → Value → Prop) (v : Value) :
    Keeps (Cached P) (joinTick v) fun _ => True := by
  unfold joinTick
  split
  · rename_i name fields
    refine (steps_keeps P (· + (fields.map (·.1)).dedup.length)).seq fun _ => ?_
    refine Keeps.get_bind fun s _ => ?_
    exact .ite (fun _ => .throw _) fun _ => .pure trivial
  · exact .pure trivial

/-- A join is one of the values with inputs as records. -/
lemma join_keeps (P : String → Value → Prop) (a b : Value) :
    Keeps (Cached P) (chk.join a b) fun v => ∃ a' b', chk.materializeInput a = .ok a' ∧
      chk.materializeInput b = .ok b' ∧ chk.joinValues a' b' = .ok v :=
  (Keeps.fromExcept (P := fun _ => True) fun _ _ => trivial).bind fun _ _ =>
    (Keeps.fromExcept (P := fun a' => chk.materializeInput a = .ok a') fun _ h => h).bind
      fun a' ha => (Keeps.fromExcept (P := fun b' => chk.materializeInput b = .ok b')
        fun _ h => h).bind fun b' hb => (joinTick_keeps P a').bind fun _ _ =>
          .fromExcept fun _ hv => ⟨a', b', ha, hb, hv⟩

section keeps

variable {rule : String → M Value}
  (hrule : ∀ name, Keeps (Cached chk.RuleInfers) (rule name) (chk.RuleInfers name))

/-- What the verifier finds for the arguments of a concatenation is inferred. -/
lemma exprArgs_infers {env : Dict String Value} {depth : Nat} (es : List Expr)
    (h : ∀ e ∈ es, Keeps (Cached chk.RuleInfers) (chk.expr rule env depth e)
      (chk.Infers chk.RuleInfers env e)) : ∀ total,
    Keeps (Cached chk.RuleInfers) (chk.exprArgs rule env depth es total)
      (chk.InfersArgs chk.RuleInfers env es total) := by
  induction es with
  | nil => exact fun total => .pure rfl
  | cons e es ih =>
      intro total
      unfold exprArgs
      refine (h e (by simp)).bind fun v hv => ?_
      refine (Keeps.fromExcept (P := fun n => v.asCapacity = .ok n) fun _ h => h).bind fun n hn => ?_
      refine (Keeps.fromExcept (P := fun t => addCapacity total n = .ok t) fun _ h => h).bind
        fun next hnext => ?_
      exact (ih (fun e he => h e (by simp [he])) next).mono
        fun total' htotal => ⟨v, n, next, hv, hn, hnext, htotal⟩

/-- What the verifier finds for the fields of a record constructor is inferred. -/
lemma exprFields_infers {env : Dict String Value} {depth : Nat} {c : Concept}
    (fs : List (String × Expr))
    (h : ∀ e ∈ fs.map (·.2), Keeps (Cached chk.RuleInfers) (chk.expr rule env depth e)
      (chk.Infers chk.RuleInfers env e)) : ∀ values,
    Keeps (Cached chk.RuleInfers) (chk.exprFields rule env depth c fs values)
      (chk.InfersFields chk.RuleInfers env c fs values) := by
  induction fs with
  | nil => exact fun values => .pure rfl
  | cons p fs ih =>
      intro values
      obtain ⟨n, e⟩ := p
      unfold exprFields
      refine .ite (fun _ => .throw _) fun _ => ?_
      refine (h e (by simp)).bind fun v hv => ?_
      refine (Keeps.fromExcept (P := fun t => recordField c values n v = .ok t) fun _ h => h).bind
        fun next hnext => ?_
      exact (ih (fun e he => h e (List.mem_cons_of_mem _ he)) next).mono
        fun values' hvalues => ⟨v, next, hv, hnext, hvalues⟩

include hrule

/-- **What the verifier finds for an expression is inferred.** -/
lemma expr_infers (e : Expr) : ∀ env depth,
    Keeps (Cached chk.RuleInfers) (chk.expr rule env depth e) (chk.Infers chk.RuleInfers env e) := by
  induction e using Expr.induction_children with
  | step e ih =>
      intro env depth
      have hsub : ∀ {c}, c ∈ e.children → Keeps (Cached chk.RuleInfers)
          (chk.expr rule env (depth + 1) c) (chk.Infers chk.RuleInfers env c) :=
        fun hc => ih _ hc env (depth + 1)
      have hnumber : ∀ {v : Value}, Keeps (Cached chk.RuleInfers) (fromExcept v.asNumber : M _)
          fun p => v = .number p.1 p.2 := .fromExcept fun _ h => Value.asNumber_eq_ok.mp h
      have hbool : ∀ {v : Value}, Keeps (Cached chk.RuleInfers) (fromExcept (v.require .bool) : M _)
          fun _ => v = .bool :=
        .fromExcept fun _ h => Value.ty_eq_bool (Value.require_eq_ok.mp h)
      cases e <;> unfold expr <;> refine visit_keeps depth ?_
      case text s => exact .pure rfl
      case number n => exact .pure rfl
      case neg a | abs a =>
        refine (hsub (by simp [Expr.children])).bind fun va ha => ?_
        exact .fromExcept fun v hv => ⟨va, ha, hv⟩
      case length a =>
        refine (hsub (by simp [Expr.children])).bind fun va ha => ?_
        exact .fromExcept fun v hv => ⟨va, ha, hv⟩
      case min a b | max a b =>
        refine (hsub (by simp [Expr.children])).bind fun va ha => hnumber.bind fun p hp => ?_
        refine (hsub (by simp [Expr.children])).bind fun vb hb => hnumber.bind fun q hq => ?_
        subst hp hq
        exact .pure ⟨_, _, _, _, ha, hb, rfl⟩
      case ident n =>
        split
        · exact .pure ‹_›
        · exact .throw _
      case field base n =>
        refine (hsub (by simp [Expr.children])).bind fun va ha => ?_
        exact .fromExcept fun v hv => ⟨va, ha, hv⟩
      case concat args =>
        refine (exprArgs_infers args (fun e he => ih e he env (depth + 1)) _).bind
          fun total htotal => ?_
        exact .pure ⟨total, htotal, rfl⟩
      case ite c a b =>
        refine (hsub (by simp [Expr.children])).bind fun vc hc => hbool.bind fun _ hvc => ?_
        subst hvc
        refine (hsub (by simp [Expr.children])).bind fun va ha => ?_
        refine (hsub (by simp [Expr.children])).bind fun vb hb => ?_
        refine (join_keeps _ va vb).mono fun v hjoin => ?_
        obtain ⟨va', vb', ha', hb', hv⟩ := hjoin
        exact ⟨hc, va, vb, va', vb', ha, hb, ha', hb', hv⟩
      case call name args =>
        split
        · refine (hsub (by simp [Expr.children])).bind fun input hinput => ?_
          refine (Keeps.fromExcept (P := fun _ => chk.callInput name input = .ok ())
            fun _ h => h).bind fun _ hcall => ?_
          exact (hrule name).mono fun v hv => ⟨input, hinput, hcall, hv⟩
        · exact .throw _
      case binary op a b =>
        refine (hsub (by simp [Expr.children])).bind fun va ha => ?_
        refine (hsub (by simp [Expr.children])).bind fun vb hb => ?_
        exact .fromExcept fun v hv => ⟨va, vb, ha, hb, hv⟩
      case not a =>
        refine (hsub (by simp [Expr.children])).bind fun va ha => hbool.bind fun _ hva => ?_
        subst hva
        exact .pure ⟨ha, rfl⟩
      case record n fs =>
        split
        · exact .throw _
        · rename_i c hc
          refine .ite (fun _ => .throw _) fun _ => ?_
          refine (exprFields_infers fs (fun e he => ih e he env (depth + 1)) []).bind
            fun values hvalues => ?_
          exact .pure ⟨c, values, hc, hvalues, rfl⟩
      all_goals exact .throw _

lemma bindings_infers (bindings : List (String × Expr)) : ∀ env,
    Keeps (Cached chk.RuleInfers) (chk.bindings rule env bindings)
      (chk.InfersLets chk.RuleInfers env bindings) := by
  induction bindings with
  | nil => exact fun env => .pure rfl
  | cons b bindings ih =>
      intro env
      obtain ⟨n, e⟩ := b
      exact (expr_infers hrule e env 0).bind fun v hv =>
        (ih _).mono fun env' henv => ⟨v, hv, henv⟩

lemma ruleInner_infers (name : String) :
    Keeps (Cached chk.RuleInfers) (chk.ruleInner rule name) (chk.RuleInfers name) := by
  unfold ruleInner
  cases hlookup : chk.rules.lookup name with
  | none => exact .throw _
  | some r =>
      refine (Keeps.fromExcept (P := fun i => chk.inputConcept r = .ok i) fun _ h => h).bind
        fun i hi => ?_
      obtain ⟨input, c⟩ := i
      refine (bindings_infers hrule _ _).bind fun env henv => ?_
      refine (expr_infers hrule _ _ _).bind fun body hbody => ?_
      exact .fromExcept fun v hv =>
        .body (fun _ _ h => h) ⟨r, input, c, env, body, hlookup, hi, henv, hbody, hv⟩

end keeps

end Check

/-- Without errors, every active rule has an inferred result. -/
theorem ruleInfers_of_verify {p : Program} {native : Bool} (hverify : verifyMode p native = [])
    {n : String} (hn : n ∈ activeRules p) : ∃ v, (Check.new p native).RuleInfers n v := by
  have hne : activeRules p ≠ [] := List.ne_nil_of_mem hn
  unfold verifyMode at hverify
  simp only [if_neg hne, List.append_eq_nil_iff] at hverify
  exact walkErrors_keeps (fun _ hrule => Check.ruleInner_infers hrule) _ {} (.empty _) hverify.1 n hn

end Verbosec.TextBounds
