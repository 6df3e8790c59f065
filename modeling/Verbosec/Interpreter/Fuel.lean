import Verbosec.Interpreter.Eval

/-!
# Fuel only bounds the call depth

* `Outcome.Le x y` - `y` is `x`, or `x` ran out of fuel.
* `Outcome.UpTo E x y` - `y` is `x`, or `x` is one of the failures `E`.
* `evalExpr_upTo`, `evalBody_upTo` - what an expression or a rule gives depends on the rules it
  calls alone, up to failures of theirs.
* `evalExpr_le` - an expression's outcome is monotone in the outcomes of the rules it calls.
* `evalRule_le`, `evalRule_mono` - more fuel never changes an outcome other than `outOfFuel`.
-/

namespace Verbosec.Interpreter

open Verbosec.Lib

/-- `y` is the outcome `x`, unless `x` ran out of fuel. -/
def Outcome.Le {α : Type} (x y : Outcome α) : Prop := x = .error .outOfFuel ∨ y = x

/-- `y` is the outcome `x`, unless `x` is one of the failures `E`. -/
def Outcome.UpTo (E : Failure → Prop) {α : Type} (x y : Outcome α) : Prop :=
  (∃ f, E f ∧ x = .error f) ∨ y = x

namespace Outcome.UpTo

variable {E : Failure → Prop} {α β : Type} {x y : Outcome α} {f g : α → Outcome β}

theorem refl (x : Outcome α) : Outcome.UpTo E x x := Or.inr rfl

theorem bind (h : Outcome.UpTo E x y) (hf : ∀ a, Outcome.UpTo E (f a) (g a)) :
    Outcome.UpTo E (x >>= f) (y >>= g) := by
  rcases h with ⟨e, he, rfl⟩ | rfl
  · exact Or.inl ⟨e, he, rfl⟩
  · cases y with
    | error e => exact Or.inr rfl
    | ok a => exact hf a

theorem le (h : Outcome.UpTo (· = .outOfFuel) x y) : Outcome.Le x y := by
  rcases h with ⟨_, rfl, rfl⟩ | rfl
  · exact Or.inl rfl
  · exact Or.inr rfl

end Outcome.UpTo

namespace Outcome.Le

variable {α β : Type} {x y : Outcome α} {f g : α → Outcome β}

theorem upTo (h : Outcome.Le x y) : Outcome.UpTo (· = .outOfFuel) x y := by
  rcases h with rfl | rfl
  · exact Or.inl ⟨_, rfl, rfl⟩
  · exact Or.inr rfl

theorem refl (x : Outcome α) : Outcome.Le x x := Or.inr rfl

theorem bind (h : Outcome.Le x y) (hf : ∀ a, Outcome.Le (f a) (g a)) :
    Outcome.Le (x >>= f) (y >>= g) := (h.upTo.bind fun a => (hf a).upTo).le

theorem trans {z : Outcome α} (h₁ : Outcome.Le x y) (h₂ : Outcome.Le y z) : Outcome.Le x z := by
  rcases h₁ with rfl | rfl
  · exact Or.inl rfl
  · exact h₂

end Outcome.Le

/-! ## Evaluations with other calls -/

/-- Other tables of rules and contracts over the same declarations. -/
def Context.SameBut (ctx ctx' : Context) : Prop :=
  ∃ rules numeric textual,
    ctx' = { ctx with rules := rules, numeric := numeric, textual := textual }

lemma Context.SameBut.refl (ctx : Context) : ctx.SameBut ctx := ⟨_, _, _, rfl⟩

section calls

variable {ctx ctx' : Context} {E : Failure → Prop} {call call' : Rule → Value → Outcome Value}

/-- `call'` over other tables gives what `call` gives on `e` up to the failures in `E`, in every
environment. -/
def ExprUpTo (E : Failure → Prop) (ctx ctx' : Context) (call call' : Rule → Value → Outcome Value)
    (e : Expr) : Prop :=
  ∀ env, Outcome.UpTo E (evalExpr ctx call env e) (evalExpr ctx' call' env e)

lemma evalArgs_upTo {es : List Expr} (h : ∀ e ∈ es, ExprUpTo E ctx ctx' call call' e) (env : Env) :
    Outcome.UpTo E (evalArgs ctx call env es) (evalArgs ctx' call' env es) := by
  induction es with
  | nil => exact .refl _
  | cons e es ih =>
      unfold evalArgs
      exact (h e (by simp) env).bind fun v =>
        (ih fun e' he' => h e' (by simp [he'])).bind fun vs => .refl _

lemma evalFields_upTo {fs : List (String × Expr)}
    (h : ∀ e ∈ fs.map (·.2), ExprUpTo E ctx ctx' call call' e) (env : Env) :
    Outcome.UpTo E (evalFields ctx call env fs) (evalFields ctx' call' env fs) := by
  induction fs with
  | nil => exact .refl _
  | cons p fs ih =>
      obtain ⟨name, e⟩ := p
      unfold evalFields
      exact (h e (by simp) env).bind fun v =>
        (ih fun e' he' => h e' (List.mem_cons_of_mem _ he')).bind fun vs => .refl _

lemma evalArms_upTo (hsame : ctx.SameBut ctx') {arms : List MatchArm}
    (h : ∀ e ∈ arms.map (·.body), ExprUpTo E ctx ctx' call call' e) (env : Env)
    (concept variant : String) (fields : List (String × Value)) :
    Outcome.UpTo E (evalArms ctx call env concept variant fields arms)
      (evalArms ctx' call' env concept variant fields arms) := by
  obtain ⟨_, _, _, rfl⟩ := hsame
  induction arms with
  | nil => exact .refl _
  | cons a arms ih =>
      obtain ⟨name, binders, body⟩ := a
      unfold evalArms
      split
      · exact (Outcome.UpTo.refl _).bind fun armEnv => h body (by simp [MatchArm.body]) armEnv
      · exact ih fun e' he' => h e' (List.mem_cons_of_mem _ he')

lemma quantify_upTo (stop : Bool) {p q : Value → Outcome Value}
    (h : ∀ v, Outcome.UpTo E (p v) (q v)) (items : List Value) :
    Outcome.UpTo E (quantify stop p items) (quantify stop q items) := by
  induction items with
  | nil => exact .refl _
  | cons item items ih =>
      unfold quantify
      refine (h item).bind fun v => ?_
      cases v with
      | bool b =>
          dsimp only
          split
          · exact .refl _
          · exact ih
      | _ => exact .refl _

lemma filterItems_upTo {p q : Value → Outcome Value} (h : ∀ v, Outcome.UpTo E (p v) (q v))
    (items : List Value) : Outcome.UpTo E (filterItems p items) (filterItems q items) := by
  induction items with
  | nil => exact .refl _
  | cons item items ih =>
      unfold filterItems
      refine (h item).bind fun v => ?_
      cases v with
      | bool b => exact ih.bind fun rest => .refl _
      | _ => exact .refl _

lemma foldByteItems_upTo {p q : Value → UInt8 → Nat → Outcome Value}
    (h : ∀ v b i, Outcome.UpTo E (p v b i) (q v b i)) (bs : List UInt8) :
    ∀ acc i, Outcome.UpTo E (foldByteItems p acc bs i) (foldByteItems q acc bs i) := by
  induction bs with
  | nil => exact fun acc i => .refl _
  | cons b bs ih =>
      intro acc i
      unfold foldByteItems
      refine (h acc b i).bind fun v => ?_
      cases v with
      | number n => exact ih _ _
      | _ => exact .refl _

lemma foldlM_upTo {p q : Value → Value → Outcome Value} (h : ∀ a v, Outcome.UpTo E (p a v) (q a v))
    (items : List Value) : ∀ acc, Outcome.UpTo E (items.foldlM p acc) (items.foldlM q acc) := by
  induction items with
  | nil => exact fun acc => .refl _
  | cons item items ih =>
      intro acc
      rw [List.foldlM_cons, List.foldlM_cons]
      exact (h acc item).bind fun a => ih a

lemma mapM_upTo {p q : Value → Outcome Value} (h : ∀ v, Outcome.UpTo E (p v) (q v))
    (items : List Value) : Outcome.UpTo E (items.mapM p) (items.mapM q) := by
  induction items with
  | nil => exact .refl _
  | cons item items ih =>
      rw [List.mapM_cons, List.mapM_cons]
      exact (h item).bind fun a => ih.bind fun as => .refl _

/-- The rules of some names are in both tables, and their calls agree up to failures. -/
def SameCalled (E : Failure → Prop) (ctx ctx' : Context)
    (call call' : Rule → Value → Outcome Value) (names : List String) : Prop :=
  ∀ n ∈ names, ctx'.findRule n = ctx.findRule n ∧
    ∀ r, ctx.findRule n = some r → ∀ v, Outcome.UpTo E (call r v) (call' r v)

/-- The rules that a subexpression calls are called by the whole. -/
lemma Expr.calls_subset_of_mem_children {c e : Expr} (hc : c ∈ e.children) : c.calls ⊆ e.calls := by
  intro n hn
  unfold Expr.calls at hn ⊢
  rw [Expr.collect_eq]
  exact List.mem_append_right _ (List.mem_flatMap.mpr ⟨c, hc, hn⟩)

/-- The outcome of an expression depends on the outcomes of the rules it calls, up to failures. -/
theorem evalExpr_upTo (hsame : ctx.SameBut ctx') (e : Expr)
    (h : SameCalled E ctx ctx' call call' e.calls) : ExprUpTo E ctx ctx' call call' e := by
  induction e using Expr.induction_children with
  | step e ih =>
      intro env
      replace ih : ∀ c ∈ e.children, ExprUpTo E ctx ctx' call call' c := fun c hc =>
        ih c hc fun n hn => h n (Expr.calls_subset_of_mem_children hc hn)
      have ih₁ : ∀ {c}, c ∈ e.children → ∀ env,
          Outcome.UpTo E (evalExpr ctx call env c) (evalExpr ctx' call' env c) := fun hc => ih _ hc
      cases e <;> unfold evalExpr
      case binary op l r =>
        refine (ih₁ (by simp [Expr.children]) env).bind fun l => ?_
        split
        · cases l with
          | bool value =>
              dsimp only
              split
              · exact .refl _
              · refine (ih₁ (by simp [Expr.children]) env).bind fun r => ?_
                cases r <;> exact .refl _
          | _ => exact .refl _
        · exact (ih₁ (by simp [Expr.children]) env).bind fun r => .refl _
      case field base name =>
        refine (ih₁ (by simp [Expr.children]) env).bind fun v => ?_
        cases v <;> exact .refl _
      case ite c a b =>
        refine (ih₁ (by simp [Expr.children]) env).bind fun v => ?_
        cases v with
        | bool v => cases v <;> exact ih₁ (by simp [Expr.children]) env
        | _ => exact .refl _
      case quantifier kind c x p =>
        exact (ih₁ (by simp [Expr.children]) env).bind fun v => (Outcome.UpTo.refl _).bind
          fun items => (quantify_upTo _ (fun item => ih₁ (by simp [Expr.children]) _) items).bind
            fun b => .refl _
      case fold c i x y b =>
        exact (ih₁ (by simp [Expr.children]) env).bind fun v => (Outcome.UpTo.refl _).bind
          fun items => (ih₁ (by simp [Expr.children]) env).bind
            fun init => foldlM_upTo (fun a v => ih₁ (by simp [Expr.children]) _) items init
      case foldBytes t i x y z b =>
        refine (ih₁ (by simp [Expr.children]) env).bind fun v => ?_
        cases v with
        | text s =>
            refine (ih₁ (by simp [Expr.children]) env).bind fun v => ?_
            cases v with
            | number n =>
                exact foldByteItems_upTo (fun a b i => ih₁ (by simp [Expr.children]) _) _ _ _
            | _ => exact .refl _
        | _ => exact .refl _
      case map c x b =>
        exact (ih₁ (by simp [Expr.children]) env).bind fun v => (Outcome.UpTo.refl _).bind
          fun items => (mapM_upTo (fun item => ih₁ (by simp [Expr.children]) _) items).bind
            fun out => .refl _
      case filter c x b =>
        exact (ih₁ (by simp [Expr.children]) env).bind fun v => (Outcome.UpTo.refl _).bind
          fun items => (filterItems_upTo (fun item => ih₁ (by simp [Expr.children]) _) items).bind
            fun out => .refl _
      case matchResult t x a y b =>
        refine (ih₁ (by simp [Expr.children]) env).bind fun v => ?_
        cases v with
        | ok w => exact ih₁ (by simp [Expr.children]) _
        | err w => exact ih₁ (by simp [Expr.children]) _
        | _ => exact .refl _
      case matchVariant s arms =>
        refine (ih₁ (by simp [Expr.children]) env).bind fun v => ?_
        cases v with
        | variant c v fs =>
            exact evalArms_upTo hsame (fun e he => ih e (List.mem_cons_of_mem _ he)) env c v fs
        | _ => exact .refl _
      case record n fs =>
        exact (evalFields_upTo ih env).bind fun vs => .refl _
      case variantConstruct n v fs =>
        exact (evalFields_upTo ih env).bind fun vs => .refl _
      case concat args =>
        exact (evalArgs_upTo ih env).bind fun vs => .refl _
      case call n args =>
        obtain ⟨hfind, hcall⟩ := h n (by unfold Expr.calls; rw [Expr.collect_eq]; simp)
        rw [hfind]
        split
        · exact .refl _
        · rename_i r hr
          split
          · exact (ih₁ (by simp [Expr.children]) env).bind fun v => hcall r hr v
          · exact .refl _
      case tryByteAt t i =>
        split
        · exact (ih₁ (by simp [Expr.children]) env).bind fun v => .refl _
        · exact (ih₁ (by simp [Expr.children]) env).bind fun v => .refl _
        · exact .refl _
      case substring t a b =>
        exact (ih₁ (by simp [Expr.children]) env).bind fun v =>
          (ih₁ (by simp [Expr.children]) env).bind fun v =>
            (ih₁ (by simp [Expr.children]) env).bind fun v => .refl _
      case arenaScope a => exact ih₁ (by simp [Expr.children]) env
      case bitNot a =>
        refine (ih₁ (by simp [Expr.children]) env).bind fun v => ?_
        cases v <;> exact .refl _
      case random | nowUnix =>
        obtain ⟨_, _, _, rfl⟩ := hsame
        exact .refl _
      case number | text | bytes | read | ident | fetch => exact .refl _
      case not | neg | abs | le32 | le64 | abortIf | jsonEscape | parseInt | length | ok | err =>
        exact (ih₁ (by simp [Expr.children]) env).bind fun v => .refl _
      all_goals
        exact (ih₁ (by simp [Expr.children]) env).bind fun v =>
          (ih₁ (by simp [Expr.children]) env).bind fun v => .refl _

lemma evalBindings_upTo (hsame : ctx.SameBut ctx') (bindings : List (String × Expr))
    (h : SameCalled E ctx ctx' call call' (bindings.flatMap fun b => b.2.calls)) :
    ∀ env, Outcome.UpTo E (evalBindings ctx call env bindings)
      (evalBindings ctx' call' env bindings) := by
  induction bindings with
  | nil => exact fun env => .refl _
  | cons b bindings ih =>
      intro env
      obtain ⟨name, e⟩ := b
      rw [List.flatMap_cons] at h
      unfold evalBindings
      exact (evalExpr_upTo hsame e (fun n hn => h n (List.mem_append_left _ hn)) env).bind
        fun v => ih (fun n hn => h n (List.mem_append_right _ hn)) _

/-- The body of a rule depends on the outcomes of the rules it calls, up to failures. -/
theorem evalBody_upTo (hsame : ctx.SameBut ctx') (r : Rule)
    (h : SameCalled E ctx ctx' call call' r.deps) (input : Value) :
    Outcome.UpTo E (evalBody ctx call r input) (evalBody ctx' call' r input) :=
  (evalBindings_upTo hsame _ (fun n hn => h n (List.mem_append_left _ hn)) _).bind fun env =>
    (evalExpr_upTo hsame _ (fun n hn => h n (List.mem_append_right _ hn)) env).bind
      fun _ => .refl _

end calls

/-! ## Fuel -/

section mono

variable {ctx : Context} {call call' : Rule → Value → Outcome Value}

/-- The outcomes of `call'` extend those of `call` on `e`, in every environment. -/
def ExprLe (ctx : Context) (call call' : Rule → Value → Outcome Value) (e : Expr) : Prop :=
  ∀ env, Outcome.Le (evalExpr ctx call env e) (evalExpr ctx call' env e)

/-- Calls that extend others do so on all names. -/
lemma sameCalled_of_le (h : ∀ r v, Outcome.Le (call r v) (call' r v)) (names : List String) :
    SameCalled (· = .outOfFuel) ctx ctx call call' names :=
  fun _ _ => ⟨rfl, fun r _ v => (h r v).upTo⟩

/-- The outcome of an expression is monotone in the outcomes of the rules it calls. -/
theorem evalExpr_le (h : ∀ r v, Outcome.Le (call r v) (call' r v)) (e : Expr) :
    ExprLe ctx call call' e :=
  fun env => (evalExpr_upTo (.refl ctx) e (sameCalled_of_le h _) env).le

lemma evalBindings_le (h : ∀ r v, Outcome.Le (call r v) (call' r v))
    (bindings : List (String × Expr)) (env : Env) :
    Outcome.Le (evalBindings ctx call env bindings) (evalBindings ctx call' env bindings) :=
  (evalBindings_upTo (.refl ctx) bindings (sameCalled_of_le h _) env).le

lemma evalBody_le (h : ∀ r v, Outcome.Le (call r v) (call' r v)) (r : Rule) (input : Value) :
    Outcome.Le (evalBody ctx call r input) (evalBody ctx call' r input) :=
  (evalBody_upTo (.refl ctx) r (sameCalled_of_le h _) input).le

end mono

/-- One more unit of fuel keeps every outcome other than `outOfFuel`. -/
theorem evalRule_le (ctx : Context) (fuel : Nat) (r : Rule) (input : Value) :
    Outcome.Le (evalRule ctx fuel r input) (evalRule ctx (fuel + 1) r input) := by
  induction fuel generalizing r input with
  | zero => exact Or.inl rfl
  | succ fuel ih =>
      rw [evalRule, evalRule]
      exact (Outcome.Le.refl _).bind fun _ => evalBody_le ih r input

/-- More fuel keeps every outcome other than `outOfFuel`. -/
theorem evalRule_mono (ctx : Context) {fuel fuel' : Nat} (hle : fuel ≤ fuel') (r : Rule)
    (input : Value) : Outcome.Le (evalRule ctx fuel r input) (evalRule ctx fuel' r input) := by
  induction hle with
  | refl => exact .refl _
  | step _ ih => exact ih.trans (evalRule_le ctx _ r input)

end Verbosec.Interpreter
