import Verbosec.Interpreter.Calls
import Verbosec.Verifier.Facts

/-!
# Declared reads and calls

* `readPath` - what reading a path yields in an environment.
* `Expr.worldReads`, `Expr.shadowedReads` - the names under which an expression observes the clock
  and the entropy sources, and those of them that a binder around the observation has as well.
* `PurityChecked` - the purity pass reports nothing.
* `Exposed` - no read of a rule stands under a binding of the same name.
* `evalExpr_agrees` - an expression evaluates alike where its reads and the rules it calls do.
* `reads_complete` - two evaluations of an exposed rule agree when they agree on the declared reads
  of the rule and of those it reaches, and the rules it calls are declared.
* `reads_incomplete` - a binding named like the clock hides it.

Source: `verifier.rs`, `collect_logic_facts`, `check_purity`.
-/

namespace Verbosec

open Verbosec.Lib Verbosec.Interpreter

/-! ## Reads of the world -/

/-- The names under which an expression observes the clock and the entropy sources. -/
def Expr.worldReads : Expr → List String :=
  Expr.collect fun
    | .nowUnix => ["now"]
    | .random name => [name]
    | _ => []

/-- The observations in a body that a binder of the body shares its name with. -/
def Expr.shadowedBy (names : List String) (body : Expr) : List String :=
  body.worldReads.filter (· ∈ names)

/-- The observations that stand under a binder of the same name. -/
def Expr.shadowedReads : Expr → List String :=
  Expr.collect fun
    | .quantifier _ _ x b | .map _ x b | .filter _ x b => b.shadowedBy [x]
    | .fold _ _ x y b => b.shadowedBy [x, y]
    | .foldBytes _ _ x y z b => b.shadowedBy [x, y, z]
    | .matchResult _ x a y b => a.shadowedBy [x] ++ b.shadowedBy [y]
    | .matchVariant _ arms => arms.flatMap fun a => a.body.shadowedBy (a.binders.filterMap id)
    | _ => []

lemma Expr.worldReads_children {e c : Expr} (hc : c ∈ e.children) {name : String}
    (h : name ∈ c.worldReads) : name ∈ e.worldReads := by
  unfold Expr.worldReads at h ⊢
  rw [Expr.collect_eq]
  exact List.mem_append_right _ (List.mem_flatMap.mpr ⟨c, hc, h⟩)

lemma Expr.shadowedReads_children {e : Expr} (h : e.shadowedReads = []) {c : Expr}
    (hc : c ∈ e.children) : c.shadowedReads = [] := by
  unfold Expr.shadowedReads at h ⊢
  rw [Expr.collect_eq, List.append_eq_nil_iff, List.flatMap_eq_nil_iff] at h
  exact h.2 c hc

lemma Expr.not_mem_of_shadowedBy {names : List String} {body : Expr}
    (h : body.shadowedBy names = []) {name : String} (hname : name ∈ body.worldReads) :
    name ∉ names := by
  have := List.filter_eq_nil_iff.mp h name hname
  simpa using this

namespace Verifier

/-! ## Reads -/

lemma reads_collectListFacts (es : List Expr) :
    (collectListFacts es).reads = es.flatMap fun e => (collectExprFacts e).reads := by
  induction es with
  | nil => rfl
  | cons e es ih => rw [collectListFacts, ExprFacts.reads_union, ih, List.flatMap_cons]

lemma reads_collectFieldsFacts (fields : List (String × Expr)) :
    (collectFieldsFacts fields).reads = fields.flatMap fun f => (collectExprFacts f.2).reads := by
  induction fields with
  | nil => rfl
  | cons f fields ih =>
      obtain ⟨name, e⟩ := f
      rw [collectFieldsFacts, ExprFacts.reads_union, ih, List.flatMap_cons]

lemma reads_collectArmsFacts (arms : List MatchArm) :
    (collectArmsFacts arms).reads = arms.flatMap fun a =>
      ((collectExprFacts a.body).outside (a.binders.filterMap id)).reads := by
  induction arms with
  | nil => rfl
  | cons a arms ih =>
      obtain ⟨name, binders, body⟩ := a
      rw [collectArmsFacts, ExprFacts.reads_union, ih, List.flatMap_cons]
      rfl

/-- A path observes nothing. -/
lemma worldReads_of_path {e : Expr} {path : List String} (h : exprToPath e = some path) :
    e.worldReads = [] := by
  induction e using Expr.induction_children generalizing path with
  | step e ih =>
      cases e <;> simp only [exprToPath, reduceCtorEq, Option.map_eq_some_iff] at h
      · rfl
      · rename_i base field
        obtain ⟨base', hbase, -⟩ := h
        have hbase' := ih base (by simp [Expr.children]) hbase
        unfold Expr.worldReads at hbase' ⊢
        rw [Expr.collect_eq]
        simp [Expr.children, hbase']

/-- What an expression observes is among its reads, unless a binder has the same name. -/
lemma mem_reads_of_worldReads {e : Expr} (hspelled : e.Spelled) (hshadow : e.shadowedReads = [])
    {name : String} (h : name ∈ e.worldReads) : [name] ∈ (collectExprFacts e).reads := by
  induction e using Expr.induction_children with
  | step e ih =>
      have hchild : ∀ c ∈ e.children, name ∈ c.worldReads → [name] ∈ (collectExprFacts c).reads :=
        fun c hc => ih c hc (hspelled.children hc) (Expr.shadowedReads_children hshadow hc)
      have hmem : e = .nowUnix ∧ name = "now" ∨ e = .random name ∨
          ∃ c ∈ e.children, name ∈ c.worldReads := by
        unfold Expr.worldReads at h
        rw [Expr.collect_eq, List.mem_append, List.mem_flatMap] at h
        rcases h with hself | h
        · split at hself
          · exact .inl ⟨rfl, List.mem_singleton.mp hself⟩
          · rw [List.mem_singleton] at hself
            exact .inr (.inl (by rw [hself]))
          · exact absurd hself List.not_mem_nil
        · exact .inr (.inr h)
      rcases hmem with ⟨rfl, rfl⟩ | rfl | ⟨c, hc, hname⟩
      · simp [collectExprFacts]
      · simp [collectExprFacts]
      · have hin := hchild c hc hname
        have hself : ∀ {f : Expr → List String}, e.collect f = [] → f e = [] := by
          intro f hf
          rw [Expr.collect_eq, List.append_eq_nil_iff] at hf
          exact hf.1
        have hnot := hself hshadow
        clear ih hchild h hself hshadow
        cases e <;> simp only [Expr.children, List.mem_cons, List.not_mem_nil, or_false] at hc
        case field base field =>
          subst hc
          obtain ⟨path, hpath⟩ := hspelled.field
          rw [worldReads_of_path hpath] at hname
          exact absurd hname List.not_mem_nil
        case call n args =>
          rw [collectExprFacts, ExprFacts.reads_union, reads_collectListFacts]
          exact List.mem_append_right _ (List.mem_flatMap.mpr ⟨c, hc, hin⟩)
        case concat args =>
          rw [collectExprFacts, reads_collectListFacts]
          exact List.mem_flatMap.mpr ⟨c, hc, hin⟩
        case record n fields =>
          obtain ⟨f, hf, rfl⟩ := List.mem_map.mp hc
          rw [collectExprFacts, reads_collectFieldsFacts]
          exact List.mem_flatMap.mpr ⟨f, hf, hin⟩
        case variantConstruct n v fields =>
          obtain ⟨f, hf, rfl⟩ := List.mem_map.mp hc
          rw [collectExprFacts, reads_collectFieldsFacts]
          exact List.mem_flatMap.mpr ⟨f, hf, hin⟩
        case matchVariant s arms =>
          rw [collectExprFacts, ExprFacts.reads_union, reads_collectArmsFacts]
          rcases hc with rfl | hc
          · exact List.mem_append_left _ hin
          · obtain ⟨a, ha, rfl⟩ := List.mem_map.mp hc
            have hout := Expr.not_mem_of_shadowedBy (List.flatMap_eq_nil_iff.mp hnot a ha) hname
            refine List.mem_append_right _ (List.mem_flatMap.mpr ⟨a, ha, ?_⟩)
            rw [ExprFacts.mem_reads_outside]
            exact ⟨hin, by simpa using hout⟩
        case quantifier k a x b | map a x b | filter a x b =>
          simp only [collectExprFacts, ExprFacts.reads_union, List.mem_append,
            ExprFacts.mem_reads_outside]
          rcases hc with rfl | rfl
          · exact .inl hin
          · exact .inr ⟨hin, by simpa using Expr.not_mem_of_shadowedBy hnot hname⟩
        case fold a b x y c' | foldBytes a b x y z c' =>
          simp only [collectExprFacts, ExprFacts.reads_union, List.mem_append,
            ExprFacts.mem_reads_outside]
          rcases hc with rfl | rfl | rfl
          · exact .inl (.inl hin)
          · exact .inl (.inr hin)
          · exact .inr ⟨hin, by simpa using Expr.not_mem_of_shadowedBy hnot hname⟩
        case matchResult a x b y c' =>
          obtain ⟨hx, hy⟩ := List.append_eq_nil_iff.mp hnot
          simp only [collectExprFacts, ExprFacts.reads_union, List.mem_append,
            ExprFacts.mem_reads_outside]
          rcases hc with rfl | rfl | rfl
          · exact .inl (.inl hin)
          · exact .inl (.inr ⟨hin, by simpa using Expr.not_mem_of_shadowedBy hx hname⟩)
          · exact .inr ⟨hin, by simpa using Expr.not_mem_of_shadowedBy hy hname⟩
        all_goals
          simp only [collectExprFacts, ExprFacts.reads_union, List.mem_append]
          rcases hc with rfl | rfl | rfl <;> simp only [hin, true_or, or_true]

end Verifier

/-! ## Reading a path -/

namespace Interpreter

/-- A field of a value. Source: `interpreter.rs`, the `Field` arm of `eval_expr` -/
def readField (v : Value) (field : String) : Outcome Value :=
  match v with
  | .record fields =>
      match fields.lookup field with
      | some w => .ok w
      | none => fail (.noField field)
  | other => fail (.notARecord field other)

/-- What reading a path yields. -/
def readPath (env : Env) : List String → Outcome Value
  | [] => .ok (.record [])
  | name :: fields =>
      match env.lookup name with
      | some v => fields.foldlM readField v
      | none => fail (.undefinedBinding name)

lemma readPath_snoc (env : Env) {path : List String} (hpath : path ≠ []) (field : String) :
    readPath env (path ++ [field]) = readPath env path >>= fun v => readField v field := by
  obtain ⟨name, fields, rfl⟩ := List.exists_cons_of_ne_nil hpath
  rw [List.cons_append, readPath, readPath]
  cases env.lookup name with
  | none => rfl
  | some v =>
      dsimp only
      rw [List.foldlM_append]
      refine bind_congr fun w => ?_
      cases h : readField w field <;> simp [List.foldlM, h]

/-- An expression that spells a path reads it. -/
lemma evalExpr_path (ctx : Context) (call : Calls) (env : Env) {e : Expr} {path : List String}
    (h : exprToPath e = some path) : evalExpr ctx call env e = readPath env path := by
  induction e using Expr.induction_children generalizing path with
  | step e ih =>
      cases e <;> simp only [exprToPath, reduceCtorEq, Option.some.injEq, Option.map_eq_some_iff] at h
      case ident name =>
        subst h
        unfold evalExpr
        rw [readPath]
        cases env.lookup name <;> rfl
      case field base field =>
        obtain ⟨path, hbase, rfl⟩ := h
        unfold evalExpr
        rw [ih base (by simp [Expr.children]) hbase, readPath_snoc env (exprToPath_ne_nil hbase)]
        refine bind_congr fun v => ?_
        cases v <;> rfl

lemma readPath_insert_self (env env' : Env) (name : String) (v : Value) (fields : List String) :
    readPath (Dict.insert env name v) (name :: fields) =
      readPath (Dict.insert env' name v) (name :: fields) := by
  rw [readPath, readPath, Dict.lookup_insert_self, Dict.lookup_insert_self]

lemma readPath_congr {env env' : Env} {path : List String}
    (h : ∀ x ∈ path.head?, env.lookup x = env'.lookup x) : readPath env path = readPath env' path := by
  cases path with
  | nil => rfl
  | cons x fields =>
      rw [readPath, readPath, h x rfl]

/-! ## Agreement -/

/-- Two environments yield the same on every path of a list. -/
def Agree (reads : List (List String)) (env env' : Env) : Prop :=
  ∀ path ∈ reads, readPath env path = readPath env' path

/-- The environments of a body agree on its reads when the others do outside of its binder. -/
lemma Agree.insert {facts : Verifier.ExprFacts} {names : List String} {env env' : Env} {x : String}
    (h : Agree (facts.outside (x :: names)).reads env env') (v : Value) :
    Agree (facts.outside names).reads (Dict.insert env x v) (Dict.insert env' x v) := by
  intro path hpath
  rw [Verifier.ExprFacts.mem_reads_outside] at hpath
  cases path with
  | nil => rfl
  | cons y fields =>
      by_cases hy : y = x
      · subst hy
        exact readPath_insert_self env env' y v fields
      · have hmem : y :: fields ∈ (facts.outside (x :: names)).reads := by
          rw [Verifier.ExprFacts.mem_reads_outside]
          refine ⟨hpath.1, fun z hz => ?_⟩
          obtain rfl : y = z := by simpa using hz
          exact List.not_mem_cons_of_ne_of_not_mem hy (hpath.2 y rfl)
        have hagree := h _ hmem
        have hsame : ∀ e : Env, readPath (Dict.insert e x v) (y :: fields) =
            readPath e (y :: fields) := fun e => readPath_congr fun z hz => by
          obtain rfl : y = z := by simpa using hz
          rw [Dict.lookup_insert, if_neg hy]
        rw [hsame, hsame, hagree]

lemma outside_nil (facts : Verifier.ExprFacts) : (facts.outside []).reads = facts.reads := by
  simp [Verifier.ExprFacts.outside]

lemma agree_append {reads reads' : List (List String)} {env env' : Env} :
    Agree (reads ++ reads') env env' ↔ Agree reads env env' ∧ Agree reads' env env' := by
  simp only [Agree, List.mem_append, or_imp, forall_and]

/-- The payload of a variant, bound in two environments. -/
lemma bindPayload_agrees {facts : Verifier.ExprFacts} {concept variant : String}
    {fields : List (String × Value)} (binders : List (Option String)) :
    ∀ {decl : List Field} {env env' : Env}, binders.length = decl.length →
      Agree (facts.outside (binders.filterMap id)).reads env env' →
        (∃ f, bindPayload concept variant fields binders decl env = .error f ∧
          bindPayload concept variant fields binders decl env' = .error f) ∨
        ∃ e e', bindPayload concept variant fields binders decl env = .ok e ∧
          bindPayload concept variant fields binders decl env' = .ok e' ∧ Agree facts.reads e e' := by
  induction binders with
  | nil =>
      intro decl env env' hlength hagree
      obtain rfl : decl = [] := List.length_eq_zero_iff.mp hlength.symm
      rw [List.filterMap_nil, outside_nil] at hagree
      exact .inr ⟨env, env', rfl, rfl, hagree⟩
  | cons b binders ih =>
      intro decl env env' hlength hagree
      cases decl with
      | nil => simp at hlength
      | cons f decl =>
          have hlength' : binders.length = decl.length := by simpa using hlength
          cases b with
          | none => exact ih hlength' hagree
          | some name =>
              unfold bindPayload
              cases fields.lookup f.name with
              | none => exact .inl ⟨_, rfl, rfl⟩
              | some v => exact ih hlength' (hagree.insert v)

/-- Two outcomes of calls agree on the rules whose names are in a list. -/
def SameCalls (rules : List Rule) (call call' : Calls) (calls : List (List String)) : Prop :=
  ∀ q ∈ rules, [q.name] ∈ calls → ∀ w, call q w = call' q w

lemma sameCalls_append {rules : List Rule} {call call' : Calls} {calls calls' : List (List String)} :
    SameCalls rules call call' (calls ++ calls') ↔
      SameCalls rules call call' calls ∧ SameCalls rules call call' calls' := by
  simp only [SameCalls, List.mem_append, or_imp, forall_and]

/-- Two worlds look the same under some names. -/
def SameWorld (entropies : List Entropy) (world world' : World) (names : List String) : Prop :=
  ∀ name ∈ names, (name = "now" → world.now = world'.now) ∧
    ∀ e ∈ entropies, e.name = name → world.draw e = world'.draw e

section agrees

variable {ctx : Context} {world : World} {call call' : Calls}

/-- An expression evaluates alike in two worlds and two environments that agree on its reads. -/
def ExprAgrees (ctx : Context) (world : World) (call call' : Calls) (e : Expr) : Prop :=
  SameCalls ctx.rules call call' (Verifier.collectExprFacts e).calls →
    ∀ {env env' : Env}, Agree (Verifier.collectExprFacts e).reads env env' →
      evalExpr ctx call env e = evalExpr { ctx with world := world } call' env' e

lemma evalArgs_agrees {es : List Expr} (h : ∀ e ∈ es, ExprAgrees ctx world call call' e)
    (hcalls : SameCalls ctx.rules call call' (Verifier.collectListFacts es).calls) {env env' : Env}
    (hreads : Agree (Verifier.collectListFacts es).reads env env') :
    evalArgs ctx call env es = evalArgs { ctx with world := world } call' env' es := by
  induction es with
  | nil => rfl
  | cons e es ih =>
      simp only [Verifier.collectListFacts, Verifier.ExprFacts.calls_union,
        Verifier.ExprFacts.reads_union, sameCalls_append, agree_append] at hcalls hreads
      unfold evalArgs
      rw [h e (by simp) hcalls.1 hreads.1, ih (fun c hc => h c (by simp [hc])) hcalls.2 hreads.2]

lemma evalFields_agrees {fs : List (String × Expr)}
    (h : ∀ e ∈ fs.map (·.2), ExprAgrees ctx world call call' e)
    (hcalls : SameCalls ctx.rules call call' (Verifier.collectFieldsFacts fs).calls) {env env' : Env}
    (hreads : Agree (Verifier.collectFieldsFacts fs).reads env env') :
    evalFields ctx call env fs = evalFields { ctx with world := world } call' env' fs := by
  induction fs with
  | nil => rfl
  | cons f fs ih =>
      obtain ⟨name, e⟩ := f
      simp only [Verifier.collectFieldsFacts, Verifier.ExprFacts.calls_union,
        Verifier.ExprFacts.reads_union, sameCalls_append, agree_append] at hcalls hreads
      unfold evalFields
      rw [h e (by simp) hcalls.1 hreads.1,
        ih (fun c hc => h c (List.mem_cons_of_mem _ hc)) hcalls.2 hreads.2]

lemma evalArms_agrees {arms : List MatchArm}
    (h : ∀ e ∈ arms.map (·.body), ExprAgrees ctx world call call' e)
    (hcalls : SameCalls ctx.rules call call' (Verifier.collectArmsFacts arms).calls) {env env' : Env}
    (hreads : Agree (Verifier.collectArmsFacts arms).reads env env') (concept variant : String)
    (fields : List (String × Value)) :
    evalArms ctx call env concept variant fields arms =
      evalArms { ctx with world := world } call' env' concept variant fields arms := by
  induction arms with
  | nil => rfl
  | cons a arms ih =>
      obtain ⟨name, binders, body⟩ := a
      simp only [Verifier.collectArmsFacts, Verifier.ExprFacts.calls_union,
        Verifier.ExprFacts.calls_outside, Verifier.ExprFacts.reads_union, sameCalls_append,
        agree_append] at hcalls hreads
      unfold evalArms
      rw [ih (fun c hc => h c (List.mem_cons_of_mem _ hc)) hcalls.2 hreads.2]
      split
      · unfold bindArm
        cases ctx.concepts.find? (·.name = concept) with
        | none => rfl
        | some decl =>
            dsimp only
            cases decl.variants.find? (·.name = variant) with
            | none => rfl
            | some v =>
                dsimp only
                by_cases hlength : binders.length = v.fields.length
                · rw [if_neg (not_not.mpr hlength), if_neg (not_not.mpr hlength)]
                  rcases bindPayload_agrees binders hlength hreads.1 with
                    ⟨f, hf, hf'⟩ | ⟨e, e', he, he', hagree⟩
                  · rw [hf, hf']
                    rfl
                  · rw [he, he']
                    exact h body (by simp [MatchArm.body]) hcalls.1 hagree
                · rw [if_pos hlength, if_pos hlength]
                  rfl
      · rfl

/-- **An expression depends on its reads** and on the rules it calls. -/
theorem evalExpr_agrees (e : Expr) (hspelled : e.Spelled)
    (hworld : SameWorld ctx.entropies ctx.world world e.worldReads) :
    ExprAgrees ctx world call call' e := by
  induction e using Expr.induction_children with
  | step e ih =>
      intro hcalls env env' hreads
      have ih' : ∀ c ∈ e.children, ExprAgrees ctx world call call' c := fun c hc =>
        ih c hc (hspelled.children hc) fun name hname =>
          hworld name (Expr.worldReads_children hc hname)
      cases e <;> simp only [Verifier.collectExprFacts, Verifier.ExprFacts.calls_union,
        Verifier.ExprFacts.calls_outside, Verifier.ExprFacts.reads_union, sameCalls_append,
        agree_append] at hcalls hreads
      case field base name =>
        obtain ⟨path, hpath⟩ := hspelled.field
        have hfield : exprToPath (.field base name) = some (path ++ [name]) := by
          rw [exprToPath, hpath]
          rfl
        rw [evalExpr_path _ _ _ hfield, evalExpr_path _ _ _ hfield]
        exact hreads _ (by simp [hpath])
      case ident name =>
        have hname : exprToPath (.ident name) = some [name] := rfl
        rw [evalExpr_path _ _ _ hname, evalExpr_path _ _ _ hname]
        exact hreads _ (by simp)
      all_goals unfold evalExpr
      case random name =>
        have hdraw := (hworld name (by simp [Expr.worldReads, Expr.collect])).2
        unfold drawEntropy
        cases hfind : ctx.entropies.find? (·.name = name) with
        | none => rfl
        | some item =>
            have hitem : item.name = name := by simpa using List.find?_some hfind
            dsimp only
            rw [hdraw item (List.mem_of_find?_eq_some hfind) hitem]
      case nowUnix =>
        rw [(hworld "now" (by simp [Expr.worldReads, Expr.collect])).1 rfl]
      case number | text | bytes | read | fetch => rfl
      case call n args =>
        rw [show Context.findRule { ctx with world := world } n = ctx.findRule n from rfl]
        cases hfind : ctx.findRule n with
        | none => rfl
        | some r =>
            have hname : r.name = n := by
              unfold Context.findRule at hfind
              simpa using List.find?_some hfind
            dsimp only
            split
            · rename_i arg
              simp only [Verifier.collectListFacts, Verifier.ExprFacts.calls_union,
                Verifier.ExprFacts.reads_union, sameCalls_append, agree_append] at hcalls hreads
              rw [ih' arg (by simp [Expr.children]) hcalls.2.1 hreads.2.1]
              exact bind_congr fun v => hcalls.1 r (List.mem_of_find?_eq_some hfind) (by simp [hname]) v
            · rfl
      case concat args =>
        have hargs : evalArgs ctx call env args =
            evalArgs { ctx with world := world } call' env' args := evalArgs_agrees ih' hcalls hreads
        rw [hargs]
      case record n fs => rw [evalFields_agrees ih' hcalls hreads]
      case variantConstruct n v fs => rw [evalFields_agrees ih' hcalls hreads]
      case matchVariant scrutinee arms =>
        rw [ih' scrutinee (by simp [Expr.children]) hcalls.1 hreads.1]
        refine bind_congr fun v => ?_
        cases v with
        | variant c v fs =>
            exact evalArms_agrees (fun e he => ih' e (List.mem_cons_of_mem _ he)) hcalls.2 hreads.2
              c v fs
        | _ => rfl
      case quantifier kind c x b =>
        have hbody : ∀ item, evalExpr ctx call (Dict.insert env x item) b =
            evalExpr { ctx with world := world } call' (Dict.insert env' x item) b := fun item =>
          ih' b (by simp [Expr.children]) hcalls.2 (outside_nil _ ▸ hreads.2.insert item)
        rw [ih' c (by simp [Expr.children]) hcalls.1 hreads.1, funext hbody]
      case map c x b =>
        have hbody : ∀ item, evalExpr ctx call (Dict.insert env x item) b =
            evalExpr { ctx with world := world } call' (Dict.insert env' x item) b := fun item =>
          ih' b (by simp [Expr.children]) hcalls.2 (outside_nil _ ▸ hreads.2.insert item)
        rw [ih' c (by simp [Expr.children]) hcalls.1 hreads.1, funext hbody]
      case filter c x b =>
        have hbody : ∀ item, evalExpr ctx call (Dict.insert env x item) b =
            evalExpr { ctx with world := world } call' (Dict.insert env' x item) b := fun item =>
          ih' b (by simp [Expr.children]) hcalls.2 (outside_nil _ ▸ hreads.2.insert item)
        rw [ih' c (by simp [Expr.children]) hcalls.1 hreads.1, funext hbody]
      case fold c i x y b =>
        have hbody : ∀ a item, evalExpr ctx call (Dict.insert (Dict.insert env x a) y item) b =
            evalExpr { ctx with world := world } call'
              (Dict.insert (Dict.insert env' x a) y item) b := fun a item =>
          ih' b (by simp [Expr.children]) hcalls.2
            (outside_nil _ ▸ (hreads.2.insert a).insert item)
        rw [ih' c (by simp [Expr.children]) hcalls.1.1 hreads.1.1,
          ih' i (by simp [Expr.children]) hcalls.1.2 hreads.1.2,
          funext fun a => funext (hbody a)]
      case foldBytes c i x y z b =>
        have hbody : ∀ a (byte : UInt8) (k : Nat), evalExpr ctx call
            (Dict.insert (Dict.insert (Dict.insert env x a) y (.number (Int64.ofNat byte.toNat))) z
              (.number (Int64.ofNat k))) b =
            evalExpr { ctx with world := world } call'
              (Dict.insert (Dict.insert (Dict.insert env' x a) y (.number (Int64.ofNat byte.toNat)))
                z (.number (Int64.ofNat k))) b := fun a byte k =>
          ih' b (by simp [Expr.children]) hcalls.2
            (outside_nil _ ▸ ((hreads.2.insert a).insert _).insert _)
        rw [ih' c (by simp [Expr.children]) hcalls.1.1 hreads.1.1,
          ih' i (by simp [Expr.children]) hcalls.1.2 hreads.1.2,
          funext fun a => funext fun byte => funext (hbody a byte)]
      case matchResult c x a y b =>
        have hok : ∀ w, evalExpr ctx call (Dict.insert env x w) a =
            evalExpr { ctx with world := world } call' (Dict.insert env' x w) a := fun w =>
          ih' a (by simp [Expr.children]) hcalls.1.2 (outside_nil _ ▸ hreads.1.2.insert w)
        have herr : ∀ w, evalExpr ctx call (Dict.insert env y w) b =
            evalExpr { ctx with world := world } call' (Dict.insert env' y w) b := fun w =>
          ih' b (by simp [Expr.children]) hcalls.2 (outside_nil _ ▸ hreads.2.insert w)
        rw [ih' c (by simp [Expr.children]) hcalls.1.1 hreads.1.1]
        refine bind_congr fun v => ?_
        cases v with
        | ok w => exact hok w
        | err w => exact herr w
        | _ => rfl
      case tryByteAt table i => rw [ih' i (by simp [Expr.children]) hcalls.2 hreads.2]
      case not a | neg a | abs a | le32 a | le64 a | abortIf a | jsonEscape a | parseInt a | length a
          | ok a | err a | arenaScope a | bitNot a =>
        rw [ih' a (by simp [Expr.children]) hcalls hreads]
      case ite a b c | substring a b c =>
        rw [ih' a (by simp [Expr.children]) hcalls.1.1 hreads.1.1,
          ih' b (by simp [Expr.children]) hcalls.1.2 hreads.1.2,
          ih' c (by simp [Expr.children]) hcalls.2 hreads.2]
      case binary op a b =>
        rw [ih' a (by simp [Expr.children]) hcalls.1 hreads.1,
          ih' b (by simp [Expr.children]) hcalls.2 hreads.2]
      case startsWith a b | endsWith a b | contains a b | min a b | max a b | bitAnd a b | bitOr a b
          | bitXor a b | shl a b | shr a b | byteAt a b =>
        rw [ih' a (by simp [Expr.children]) hcalls.1 hreads.1,
          ih' b (by simp [Expr.children]) hcalls.2 hreads.2]

end agrees

end Interpreter

/-! ## Rules -/

namespace Verifier

/-- Does an expression read a path of a name? -/
def readsName (name : String) (e : Expr) : Bool :=
  (collectExprFacts e).reads.any (·.head? = some name)

/-- Does a `let` read the input, where it or a later one binds the input's name? -/
def letHidesInput (input : String) : List (String × Expr) → Bool
  | [] => false
  | (name, e) :: bindings =>
      if input ∈ name :: bindings.map (·.1) then
        readsName input e || (name ≠ input && letHidesInput input bindings)
      else false

/-- No read of a rule stands under a binding of the same name: the `let`s that read the input come
after those that bind its name, and what is observed of the world has the name of no `let` and of
no binder around it. -/
def Exposed (r : Rule) : Bool :=
  !letHidesInput r.inputName r.logic.bindings &&
    (r.logic.value :: r.logic.bindings.map (·.2)).all fun e =>
      e.shadowedReads = [] && e.worldReads.all (· ∉ r.logic.bindings.map (·.1))

/-- The facts of a rule with the reads that a match on the result of a call inherits.
Source: `verifier.rs`, `augment_facts_with_transitive_match_result_reads` -/
def LogicFacts.augment (f : LogicFacts) (inherited : List (List String)) : LogicFacts :=
  { f with reads := f.reads ++ inherited }

/-- The purity pass reports nothing on a rule, whatever reads it inherits.
Source: `verifier.rs`, `verify_rule` -/
def PurityChecked (r : Rule) : Prop :=
  ∃ inherited, checkPurity r ((collectLogicFacts r.logic).augment inherited) = []

/-- The rules that a rule reaches through declared calls. -/
inductive Reaches (p : Program) (r : Rule) : Rule → Prop
  | refl : Reaches p r r
  | step {q q' : Rule} (h : Reaches p r q) (hq' : q' ∈ p.rules)
      (hcall : [q'.name] ∈ pathSegments q.proofs.purity.calls) : Reaches p r q'

end Verifier

namespace Interpreter

open Verifier

/-- Two environments after some `let`s: they agree but for the input, as long as no `let` has its
name. -/
structure Known (input : String) (v v' : Value) (seen : List String) (env env' : Env) : Prop where
  same : ∀ n, n ≠ input ∨ n ∈ seen → env.lookup n = env'.lookup n
  input : input ∉ seen → env.lookup input = some v ∧ env'.lookup input = some v'

section rule

variable {ctx : Context} {world : World} {call call' : Calls} {input : String} {v v' : Value}
  {seen : List String} {env env' : Env}

lemma Known.insert (h : Known input v v' seen env env') (name : String) (w : Value) :
    Known input v v' (name :: seen) (Dict.insert env name w) (Dict.insert env' name w) := by
  constructor
  · intro n hn
    rw [Dict.lookup_insert, Dict.lookup_insert]
    by_cases heq : n = name
    · rw [if_pos heq, if_pos heq]
    · rw [if_neg heq, if_neg heq]
      refine h.same n (hn.imp_right fun hmem => ?_)
      exact (List.mem_cons.mp hmem).resolve_left heq
  · intro hnot
    obtain ⟨hne, hnot⟩ := not_or.mp (mt List.mem_cons.mpr hnot)
    rw [Dict.lookup_insert, Dict.lookup_insert, if_neg hne, if_neg hne]
    exact h.input hnot

/-- The environments agree on reads that agree on the input. -/
lemma Known.agree (h : Known input v v' seen env env') {reads : List (List String)}
    (hinput : input ∉ seen → ∀ path ∈ reads, path.head? = some input →
      readPath [(input, v)] path = readPath [(input, v')] path) : Agree reads env env' := by
  intro path hpath
  cases path with
  | nil => rfl
  | cons n fields =>
      by_cases hn : n ≠ input ∨ n ∈ seen
      · exact readPath_congr fun x hx => by
          obtain rfl : n = x := by simpa using hx
          exact h.same n hn
      · obtain ⟨hne, hseen⟩ := not_or.mp hn
        obtain rfl := not_not.mp hne
        obtain ⟨hv, hv'⟩ := h.input hseen
        have hagree := hinput hseen _ hpath rfl
        simp only [readPath, List.lookup_cons_self, hv, hv'] at hagree ⊢
        exact hagree

lemma evalBindings_agrees (bindings : List (String × Expr)) : ∀ {seen : List String}
    {env env' : Env}, Known input v v' seen env env' →
      (∀ b ∈ bindings, b.2.Spelled ∧ SameWorld ctx.entropies ctx.world world b.2.worldReads ∧
        SameCalls ctx.rules call call' (collectExprFacts b.2).calls) →
      (input ∉ seen → letHidesInput input bindings = false) →
      (input ∉ seen → input ∉ bindings.map (·.1) → ∀ b ∈ bindings,
        ∀ path ∈ (collectExprFacts b.2).reads, path.head? = some input →
          readPath [(input, v)] path = readPath [(input, v')] path) →
      (∃ f, evalBindings ctx call env bindings = .error f ∧
        evalBindings { ctx with world := world } call' env' bindings = .error f) ∨
      ∃ e e', evalBindings ctx call env bindings = .ok e ∧
        evalBindings { ctx with world := world } call' env' bindings = .ok e' ∧
        Known input v v' ((bindings.map (·.1)).reverse ++ seen) e e' := by
  induction bindings with
  | nil => exact fun h _ _ _ => .inr ⟨_, _, rfl, rfl, h⟩
  | cons b bindings ih =>
      intro seen env env' h hall hhides hinput
      obtain ⟨name, e⟩ := b
      obtain ⟨hspelled, hworld, hcalls⟩ := hall (name, e) (by simp)
      have hagree : Agree (collectExprFacts e).reads env env' := by
        refine h.agree fun hseen path hpath hhead => ?_
        by_cases hbound : input ∈ name :: bindings.map (·.1)
        · have hfalse := hhides hseen
          rw [letHidesInput, if_pos hbound, Bool.or_eq_false_iff] at hfalse
          have hreads := hfalse.1
          rw [readsName, List.any_eq_false] at hreads
          exact absurd (by simpa using hhead) (hreads path hpath)
        · exact hinput hseen hbound (name, e) (by simp) path hpath hhead
      have heval := evalExpr_agrees e hspelled hworld hcalls hagree
      unfold evalBindings
      rw [← heval]
      cases hw : evalExpr ctx call env e with
      | error f => exact .inl ⟨f, rfl, rfl⟩
      | ok w =>
          have hnext := ih (h.insert name w) (fun b hb => hall b (by simp [hb])) ?_ ?_
          · rw [List.map_cons, List.reverse_cons, List.append_assoc]
            exact hnext
          · intro hseen
            obtain ⟨hne, hseen⟩ := not_or.mp (mt List.mem_cons.mpr hseen)
            have hfalse := hhides hseen
            by_cases hbound : input ∈ name :: bindings.map (·.1)
            · rw [letHidesInput, if_pos hbound, Bool.or_eq_false_iff] at hfalse
              simpa [Ne.symm hne] using hfalse.2
            · cases bindings with
              | nil => rfl
              | cons b' bindings =>
                  rw [letHidesInput]
                  exact if_neg fun hmem => hbound (List.mem_cons_of_mem _ hmem)
          · intro hseen hbound b hb
            obtain ⟨hne, hseen⟩ := not_or.mp (mt List.mem_cons.mpr hseen)
            exact hinput hseen (by simpa using ⟨hne, by simpa using hbound⟩) b (by simp [hb])

lemma checkInput_world (r : Rule) (w : Value) :
    checkInput { ctx with world := world } r w = checkInput ctx r w := rfl

end rule

section program

variable {p : Program} {world world' : World} (hspelled : ∀ r ∈ p.rules, r.Spelled)
  (hpurity : ∀ r ∈ p.rules, PurityChecked r)

include hspelled hpurity

/-- The rules that a rule calls are declared. -/
lemma declared_of_deps {r : Rule} (hr : r ∈ p.rules) {name : String} (hname : name ∈ r.deps) :
    [name] ∈ pathSegments r.proofs.purity.calls := by
  obtain ⟨inherited, hcheck⟩ := hpurity r hr
  exact (declared_of_checkPurity hcheck).2 (calls_collectLogicFacts (hspelled r hr) hname)

omit hspelled in
/-- A read of the facts is declared, unless a `let` has its name. -/
lemma declared_of_read {r : Rule} (hr : r ∈ p.rules) {path : List String}
    (hpath : path ∈ (bodyFacts r.logic).reads)
    (hlocal : ∀ x ∈ path.head?, x ∉ r.logic.bindings.map (·.1)) :
    path ∈ pathSegments r.proofs.purity.reads := by
  obtain ⟨inherited, hcheck⟩ := hpurity r hr
  refine (declared_of_checkPurity hcheck).1 (List.mem_append_left _ ?_)
  rw [collectLogicFacts, ExprFacts.mem_reads_outside]
  exact ⟨hpath, hlocal⟩

omit hpurity in
/-- A part of a rule is spelled and reads and calls what the rule does. -/
lemma part_of_rule {r : Rule} (hr : r ∈ p.rules) {e : Expr}
    (he : e ∈ r.logic.value :: r.logic.bindings.map (·.2)) :
    e.Spelled ∧ (collectExprFacts e).reads ⊆ (bodyFacts r.logic).reads ∧
      (collectExprFacts e).calls ⊆ (bodyFacts r.logic).calls := by
  unfold bodyFacts
  rw [ExprFacts.reads_union, ExprFacts.calls_union, reads_collectFieldsFacts,
    calls_collectFieldsFacts]
  rcases List.mem_cons.mp he with rfl | he
  · exact ⟨(hspelled r hr).2, List.subset_append_right _ _, List.subset_append_right _ _⟩
  · obtain ⟨b, hb, rfl⟩ := List.mem_map.mp he
    exact ⟨(hspelled r hr).1 b hb,
      fun x hx => List.mem_append_left _ (List.mem_flatMap.mpr ⟨b, hb, hx⟩),
      fun x hx => List.mem_append_left _ (List.mem_flatMap.mpr ⟨b, hb, hx⟩)⟩

/-- What a part of an exposed rule observes is declared. -/
lemma declared_of_worldReads {r : Rule} (hr : r ∈ p.rules) (hexposed : Exposed r) {e : Expr}
    (he : e ∈ r.logic.value :: r.logic.bindings.map (·.2)) {name : String}
    (hname : name ∈ e.worldReads) : [name] ∈ pathSegments r.proofs.purity.reads := by
  simp only [Exposed, Bool.and_eq_true, List.all_eq_true, decide_eq_true_eq] at hexposed
  obtain ⟨hshadow, hlets⟩ := hexposed.2 e he
  obtain ⟨hspell, hreads, -⟩ := part_of_rule hspelled hr he
  refine declared_of_read hpurity hr (hreads (mem_reads_of_worldReads hspell hshadow hname)) ?_
  rintro x hx
  obtain rfl : name = x := by simpa using hx
  exact hlets name hname

/-- The body of an exposed rule depends on its declared reads and on the rules it calls. -/
lemma evalBody_agrees {r : Rule} (hr : r ∈ p.rules) (hexposed : Exposed r)
    (hworld : SameWorld p.entropies world world'
      ((pathSegments r.proofs.purity.reads).filterMap fun
        | [name] => some name
        | _ => none))
    {call call' : Calls} (hcalls : SameCalls p.rules call call' (pathSegments r.proofs.purity.calls))
    {v v' : Value} (hinput : ∀ path ∈ pathSegments r.proofs.purity.reads,
      readPath [(r.inputName, v)] path = readPath [(r.inputName, v')] path) :
    evalBody (.ofProgram p world) call r v = evalBody (.ofProgram p world') call' r v' := by
  have hpart : ∀ e ∈ r.logic.value :: r.logic.bindings.map (·.2), e.Spelled ∧
      SameWorld (Context.ofProgram p world).entropies (Context.ofProgram p world).world world'
        e.worldReads ∧
      SameCalls (Context.ofProgram p world).rules call call' (collectExprFacts e).calls := by
    intro e he
    obtain ⟨hspell, -, hsub⟩ := part_of_rule hspelled hr he
    refine ⟨hspell, fun name hname => ?_, fun q hq hcall w => ?_⟩
    · have hdeclared := declared_of_worldReads hspelled hpurity hr hexposed he hname
      exact hworld name (List.mem_filterMap.mpr ⟨_, hdeclared, rfl⟩)
    · obtain ⟨inherited, hcheck⟩ := hpurity r hr
      exact hcalls q hq ((declared_of_checkPurity hcheck).2 (hsub hcall)) w
  have hread : r.inputName ∉ r.logic.bindings.map (·.1) →
      ∀ e ∈ r.logic.value :: r.logic.bindings.map (·.2), ∀ path ∈ (collectExprFacts e).reads,
        path.head? = some r.inputName →
          readPath [(r.inputName, v)] path = readPath [(r.inputName, v')] path := by
    intro hnot e he path hpath hhead
    refine hinput path (declared_of_read hpurity hr ((part_of_rule hspelled hr he).2.1 hpath) ?_)
    intro x hx
    rw [hhead, Option.mem_some_iff] at hx
    exact hx ▸ hnot
  have hknown : Known r.inputName v v' [] [(r.inputName, v)] [(r.inputName, v')] := by
    refine ⟨fun n hn => ?_, fun _ => ⟨by simp, by simp⟩⟩
    have hne : n ≠ r.inputName := hn.resolve_right List.not_mem_nil
    simp [List.lookup_cons, beq_false_of_ne hne]
  have hhides : letHidesInput r.inputName r.logic.bindings = false := by
    simp only [Exposed, Bool.and_eq_true, Bool.not_eq_true'] at hexposed
    exact hexposed.1
  have hlets : (∃ f, evalBindings (.ofProgram p world) call [(r.inputName, v)] r.logic.bindings =
        .error f ∧
      evalBindings (.ofProgram p world') call' [(r.inputName, v')] r.logic.bindings = .error f) ∨
      ∃ e e', evalBindings (.ofProgram p world) call [(r.inputName, v)] r.logic.bindings = .ok e ∧
        evalBindings (.ofProgram p world') call' [(r.inputName, v')] r.logic.bindings = .ok e' ∧
        Known r.inputName v v' ((r.logic.bindings.map (·.1)).reverse ++ []) e e' :=
    evalBindings_agrees r.logic.bindings hknown
      (fun b hb => hpart b.2 (List.mem_cons_of_mem _ (List.mem_map.mpr ⟨b, hb, rfl⟩)))
      (fun _ => hhides)
      (fun _ hnot b hb => hread hnot b.2 (List.mem_cons_of_mem _ (List.mem_map.mpr ⟨b, hb, rfl⟩)))
  unfold evalBody
  rcases hlets with ⟨f, hf, hf'⟩ | ⟨e, e', he, he', hknown'⟩
  · rw [hf, hf']
    rfl
  · obtain ⟨hspell, hsame, hcalls'⟩ := hpart r.logic.value List.mem_cons_self
    have hvalue : evalExpr (.ofProgram p world) call e r.logic.value =
        evalExpr (.ofProgram p world') call' e' r.logic.value :=
      evalExpr_agrees r.logic.value hspell hsame hcalls' (hknown'.agree fun hnot =>
        hread (by simpa using hnot) r.logic.value List.mem_cons_self)
    rw [he, he']
    show (evalExpr (.ofProgram p world) call e r.logic.value >>= _) =
      (evalExpr (.ofProgram p world') call' e' r.logic.value >>= _)
    rw [hvalue]

/-- **Declared reads and calls are complete.** Where no read of a rule, nor of one that it reaches,
stands under a binding of the same name, its evaluations in two worlds on two inputs that agree on
the declared reads are the same; and the rules that it calls are declared. -/
theorem reads_complete {r : Rule} (hr : r ∈ p.rules)
    (hexposed : ∀ q, Reaches p r q → Exposed q) :
    (∀ (world world' : World) (v v' : Value),
      (∀ q, Reaches p r q → SameWorld p.entropies world world'
        ((pathSegments q.proofs.purity.reads).filterMap fun
          | [name] => some name
          | _ => none)) →
      (∀ path ∈ pathSegments r.proofs.purity.reads,
        readPath [(r.inputName, v)] path = readPath [(r.inputName, v')] path) →
      checkInput (.ofProgram p world) r v = .ok () →
      checkInput (.ofProgram p world') r v' = .ok () →
        ∀ fuel, evalRule (.ofProgram p world) fuel r v = evalRule (.ofProgram p world') fuel r v') ∧
    (∀ (world : World) (call : Calls) (v : Value) (q : Rule) (w : Value),
      Consults call (applyRule (.ofProgram p world) r v) q w →
        [q.name] ∈ pathSegments r.proofs.purity.calls) := by
  constructor
  · intro world world' v v' hworld hinput hguard hguard' fuel
    -- a callee has the same input in both runs: the inputs differ at the start only
    have hrun : ∀ (fuel : Nat) (q : Rule), q ∈ p.rules → Reaches p r q → ∀ w w' : Value,
        (∀ path ∈ pathSegments q.proofs.purity.reads,
          readPath [(q.inputName, w)] path = readPath [(q.inputName, w')] path) →
        checkInput (.ofProgram p world) q w = checkInput (.ofProgram p world') q w' →
          evalRule (.ofProgram p world) fuel q w = evalRule (.ofProgram p world') fuel q w' := by
      intro fuel
      induction fuel with
      | zero => exact fun _ _ _ _ _ _ _ => rfl
      | succ fuel ih =>
          intro q hq hreach w w' hinput hguard
          have hcalls : SameCalls p.rules (evalRule (.ofProgram p world) fuel)
              (evalRule (.ofProgram p world') fuel) (pathSegments q.proofs.purity.calls) :=
            fun q' hq' hcall u => ih q' hq' (hreach.step hq' hcall) u u (fun _ _ => rfl) rfl
          rw [evalRule, evalRule, hguard, evalBody_agrees hspelled hpurity hq (hexposed q hreach)
            (hworld q hreach) hcalls hinput]
    exact hrun fuel r hr .refl v v' hinput (hguard.trans hguard'.symm)
  · intro world call v q w h
    exact declared_of_deps hspelled hpurity hr (applyRule_consults h).1

end program

end Interpreter

/-! ## Examples -/

namespace Purity

/-- A rule that observes the clock under a `let` of the given name. -/
def ticksRule (name : String) (reads : List Path) : Rule where
  name := "ticks"
  inputName := "n"
  inputTy := .number
  outputName := "out"
  outputTy := .number
  logic := ⟨[(name, .number 5)], .binary .add (.ident name) .nowUnix⟩
  proofs := { purity := { reads := reads, calls := [] }, termination := { bound := some 10 } }

/-- The program of the rule. -/
def ticksProgram (name : String) (reads : List Path) : Program := ⟨[.rule (ticksRule name reads)]⟩

lemma ticks_spelled {name : String} {reads : List Path} :
    ∀ r ∈ (ticksProgram name reads).rules, r.Spelled := by
  have hrules : (ticksProgram name reads).rules = [ticksRule name reads] := rfl
  intro r hr
  rw [hrules, List.mem_singleton] at hr
  subst hr
  exact ⟨by simp [ticksRule]; rfl, rfl⟩

end Purity

namespace Interpreter

open Purity Verifier

theorem reads_complete_ticks :
    evalRule (.ofProgram (ticksProgram "base" [⟨["now"]⟩]) { now := 7 }) 1
        (ticksRule "base" [⟨["now"]⟩]) (.number 1) =
      evalRule (.ofProgram (ticksProgram "base" [⟨["now"]⟩]) { now := 7 }) 1
        (ticksRule "base" [⟨["now"]⟩]) (.number 2) := by
  have hrules : (ticksProgram "base" [⟨["now"]⟩]).rules = [ticksRule "base" [⟨["now"]⟩]] := rfl
  have hpurity : ∀ r ∈ (ticksProgram "base" [⟨["now"]⟩]).rules, PurityChecked r := by
    intro r hr
    rw [hrules, List.mem_singleton] at hr
    subst hr
    exact ⟨[], by decide +kernel⟩
  have hmem : ticksRule "base" [⟨["now"]⟩] ∈ (ticksProgram "base" [⟨["now"]⟩]).rules := by
    rw [hrules]
    exact List.mem_singleton.mpr rfl
  have hreach : ∀ q, Reaches (ticksProgram "base" [⟨["now"]⟩]) (ticksRule "base" [⟨["now"]⟩]) q →
      Exposed q := by
    intro q hq
    cases hq with
    | refl => decide +kernel
    | step _ hq' =>
        rw [hrules, List.mem_singleton] at hq'
        subst hq'
        decide +kernel
  refine (reads_complete ticks_spelled hpurity hmem hreach).1 _ _ _ _
    (fun q _ name _ => ⟨fun _ => rfl, fun _ _ _ => rfl⟩) (fun path hpath => ?_) rfl rfl 1
  obtain rfl : path = ["now"] := List.mem_singleton.mp hpath
  rfl

/-- **A binding named like the clock hides it**: the purity pass accepts a rule that declares no
reads, and its result depends on the clock. -/
theorem reads_incomplete :
    nameErrors (ticksProgram "now" []) = [] ∧
    (∀ r ∈ (ticksProgram "now" []).rules, PurityChecked r) ∧
    ticksRule "now" [] ∈ (ticksProgram "now" []).rules ∧
    pathSegments (ticksRule "now" []).proofs.purity.reads = [] ∧
    evalRule (.ofProgram (ticksProgram "now" []) { now := 1 }) 1 (ticksRule "now" []) (.number 0) =
      .ok (.number 6) ∧
    evalRule (.ofProgram (ticksProgram "now" []) { now := 2 }) 1 (ticksRule "now" []) (.number 0) =
      .ok (.number 7) := by
  have hrules : (ticksProgram "now" []).rules = [ticksRule "now" []] := rfl
  refine ⟨by decide +kernel, fun r hr => ?_, ?_, rfl, rfl, rfl⟩
  · rw [hrules, List.mem_singleton] at hr
    subst hr
    exact ⟨[], by decide +kernel⟩
  · rw [hrules]
    exact List.mem_singleton.mpr rfl

end Interpreter

end Verbosec
