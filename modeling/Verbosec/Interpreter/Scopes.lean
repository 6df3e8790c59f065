import Verbosec.Interpreter.Eval

/-!
# The scopes of an expression

* `Expr.scopes` - the direct subexpressions, each with the names that the expression binds around it.
* `Expr.mapScopes` - an expression with its direct subexpressions replaced.
* `Expr.Free` - the names an expression takes from its environment.
* `evalExpr_mapScopes` - an expression evaluates alike when its subexpressions do, whatever the names
  around them are bound to. It is the only place where the arms of the evaluator are visited.
* `evalExpr_congr_free` - the value of an expression depends on its free names only.
-/

namespace Verbosec

open Verbosec.Lib Verbosec.Interpreter

namespace Expr

/-! ## Scopes -/

/-- The direct subexpressions, each with the names bound around it, in order. -/
def scopes : Expr → List (List String × Expr)
  | quantifier _ a x b | map a x b | filter a x b => [([], a), ([x], b)]
  | fold a i acc item b => [([], a), ([], i), ([acc, item], b)]
  | foldBytes a i acc byte idx b => [([], a), ([], i), ([acc, byte, idx], b)]
  | matchResult a x b y c => [([], a), ([x], b), ([y], c)]
  | matchVariant a arms => ([], a) :: arms.map fun arm => (arm.binders.filterMap id, arm.body)
  | e => e.children.map fun c => ([], c)

lemma scopes_mem_children {e : Expr} {s : List String × Expr} (h : s ∈ e.scopes) :
    s.2 ∈ e.children := by
  cases e <;> simp only [scopes, children, List.map_cons, List.map_nil, List.mem_cons, List.mem_map,
    List.not_mem_nil, or_false] at h ⊢
  case matchVariant a arms =>
    rcases h with rfl | ⟨arm, harm, rfl⟩
    · exact .inl rfl
    · exact .inr ⟨arm, harm, rfl⟩
  case call | concat =>
    obtain ⟨c, hc, rfl⟩ := h
    exact hc
  case record | variantConstruct =>
    obtain ⟨c, hc, rfl⟩ := h
    exact hc
  all_goals
    first
    | exact h.elim
    | (subst h; rfl)
    | (rcases h with rfl | rfl <;> simp)
    | (rcases h with rfl | rfl | rfl <;> simp)

lemma children_eq_scopes (e : Expr) : e.children = e.scopes.map (·.2) := by
  cases e <;> simp [scopes, children, Function.comp_def]

/-- An expression with its direct subexpressions replaced, given the names bound around them. -/
def mapScopes (g : List String → Expr → Expr) : Expr → Expr
  | number n => number n
  | text s => text s
  | bytes b => bytes b
  | ident n => ident n
  | read n => read n
  | random n => random n
  | nowUnix => nowUnix
  | field a n => field (g [] a) n
  | not a => not (g [] a)
  | neg a => neg (g [] a)
  | ok a => ok (g [] a)
  | err a => err (g [] a)
  | jsonEscape a => jsonEscape (g [] a)
  | parseInt a => parseInt (g [] a)
  | length a => length (g [] a)
  | abs a => abs (g [] a)
  | le32 a => le32 (g [] a)
  | le64 a => le64 (g [] a)
  | arenaScope a => arenaScope (g [] a)
  | abortIf a => abortIf (g [] a)
  | bitNot a => bitNot (g [] a)
  | fetch n a => fetch n (g [] a)
  | binary o a b => binary o (g [] a) (g [] b)
  | startsWith a b => startsWith (g [] a) (g [] b)
  | endsWith a b => endsWith (g [] a) (g [] b)
  | contains a b => contains (g [] a) (g [] b)
  | min a b => min (g [] a) (g [] b)
  | max a b => max (g [] a) (g [] b)
  | bitAnd a b => bitAnd (g [] a) (g [] b)
  | bitOr a b => bitOr (g [] a) (g [] b)
  | bitXor a b => bitXor (g [] a) (g [] b)
  | shl a b => shl (g [] a) (g [] b)
  | shr a b => shr (g [] a) (g [] b)
  | byteAt a b => byteAt (g [] a) (g [] b)
  | tryByteAt a b => tryByteAt (g [] a) (g [] b)
  | quantifier k a x b => quantifier k (g [] a) x (g [x] b)
  | map a x b => map (g [] a) x (g [x] b)
  | filter a x b => filter (g [] a) x (g [x] b)
  | ite a b c => ite (g [] a) (g [] b) (g [] c)
  | substring a b c => substring (g [] a) (g [] b) (g [] c)
  | fold a i acc item b => fold (g [] a) (g [] i) acc item (g [acc, item] b)
  | foldBytes a i acc byte idx b => foldBytes (g [] a) (g [] i) acc byte idx (g [acc, byte, idx] b)
  | matchResult a x b y c => matchResult (g [] a) x (g [x] b) y (g [y] c)
  | call n args => call n (args.map (g []))
  | concat args => concat (args.map (g []))
  | record n fields => record n (fields.map fun f => (f.1, g [] f.2))
  | variantConstruct n v fields => variantConstruct n v (fields.map fun f => (f.1, g [] f.2))
  | matchVariant a arms =>
      matchVariant (g [] a) (arms.map fun arm =>
        .mk arm.variantName arm.binders (g (arm.binders.filterMap id) arm.body))

lemma mapScopes_id (e : Expr) : e.mapScopes (fun _ c => c) = e := by
  cases e <;> simp only [mapScopes, List.map_id']
  case matchVariant a arms =>
    congr 1
    refine (List.map_congr_left fun arm _ => ?_).trans (List.map_id _)
    cases arm
    rfl

lemma scopes_mapScopes (g : List String → Expr → Expr) (e : Expr) :
    (e.mapScopes g).scopes = e.scopes.map fun s => (s.1, g s.1 s.2) := by
  cases e <;> simp [mapScopes, scopes, children, MatchArm.binders, MatchArm.body, Function.comp_def]

/-- The names an expression takes from its environment. -/
inductive Free (y : String) : Expr → Prop
  | ident : Free y (.ident y)
  | child {e : Expr} {s : List String × Expr} (hs : s ∈ e.scopes) (hbound : y ∉ s.1)
      (h : Free y s.2) : Free y e

/-- A free name is an identifier, or free in a scope that does not bind it. -/
lemma Free.cases_scopes {y : String} {e : Expr} (h : Free y e) :
    e = .ident y ∨ ∃ s ∈ e.scopes, y ∉ s.1 ∧ Free y s.2 := by
  cases h with
  | ident => exact .inl rfl
  | child hs hbound h => exact .inr ⟨_, hs, hbound, h⟩

lemma eq_ident_of_mapScopes {g : List String → Expr → Expr} {e : Expr} {n : String}
    (h : e.mapScopes g = .ident n) : e = .ident n := by
  cases e <;> simp [mapScopes] at h
  rw [h]

/-- A table that is not a literal. Source: `bounds.rs`, the `TryByteAt` arm of `check_expr` -/
def tableLiteral (e : Expr) : List Unit :=
  match e with
  | .tryByteAt (.text _) _ | .tryByteAt (.bytes _) _ => []
  | .tryByteAt _ _ => [()]
  | _ => []

/-- Every table of a checked byte access is a literal, as the verifier demands. -/
def LiteralTables (e : Expr) : Prop := e.collect tableLiteral = []

lemma LiteralTables.children {e c : Expr} (h : e.LiteralTables) (hc : c ∈ e.children) :
    c.LiteralTables := by
  unfold LiteralTables at h ⊢
  rw [collect_eq, List.append_eq_nil_iff, List.flatMap_eq_nil_iff] at h
  exact h.2 c hc

lemma LiteralTables.of_children {e : Expr} (hself : tableLiteral e = [])
    (h : ∀ c ∈ e.children, c.LiteralTables) : e.LiteralTables := by
  unfold LiteralTables
  rw [collect_eq, hself, List.nil_append, List.flatMap_eq_nil_iff]
  exact h

lemma LiteralTables.table {t i : Expr} (h : (tryByteAt t i).LiteralTables) :
    (∃ s, t = .text s) ∨ ∃ b, t = .bytes b := by
  unfold LiteralTables at h
  rw [collect_eq, List.append_eq_nil_iff] at h
  have hself := h.1
  unfold tableLiteral at hself
  split at hself
  · rename_i heq
    cases heq
    exact .inl ⟨_, rfl⟩
  · rename_i heq
    cases heq
    exact .inr ⟨_, rfl⟩
  · cases hself
  · rename_i hne
    exact absurd rfl (hne t i)

end Expr

namespace Interpreter

/-! ## Bound names -/

/-- Names bound one after another. -/
def bindAll : Env → List String → List Value → Env
  | env, x :: xs, v :: vs => bindAll (Dict.insert env x v) xs vs
  | env, _, _ => env

lemma lookup_bindAll_congr {y : String} {names : List String} :
    ∀ {vs : List Value} {env env' : Env}, vs.length = names.length →
      (y ∉ names → env.lookup y = env'.lookup y) →
      (bindAll env names vs).lookup y = (bindAll env' names vs).lookup y := by
  induction names with
  | nil =>
      intro vs env env' _ h
      simpa [bindAll] using h List.not_mem_nil
  | cons x names ih =>
      intro vs env env' hlength h
      cases vs with
      | nil => simp at hlength
      | cons v vs =>
          refine ih (by simpa using hlength) fun hy => ?_
          rw [Dict.lookup_insert, Dict.lookup_insert]
          split
          · rfl
          · rename_i hyx
            exact h (List.not_mem_cons_of_ne_of_not_mem hyx hy)

lemma lookup_bindAll_of_not_mem {y : String} {names : List String} (hy : y ∉ names) :
    ∀ {vs : List Value} {env : Env}, (bindAll env names vs).lookup y = env.lookup y := by
  induction names with
  | nil =>
      intro vs env
      simp [bindAll]
  | cons x names ih =>
      intro vs env
      rw [List.mem_cons, not_or] at hy
      cases vs with
      | nil => rfl
      | cons v vs => exact (ih hy.2).trans (Dict.lookup_insert_of_ne _ _ hy.1)

/-- The payload of a variant is bound, or fails, whatever the environment. -/
lemma bindPayload_bindAll {concept variant : String} {fields : List (String × Value)}
    (binders : List (Option String)) :
    ∀ {decl : List Field}, binders.length = decl.length →
      (∃ f, ∀ env, bindPayload concept variant fields binders decl env = .error f) ∨
      ∃ vs, vs.length = (binders.filterMap id).length ∧ ∀ env,
        bindPayload concept variant fields binders decl env =
          .ok (bindAll env (binders.filterMap id) vs) := by
  induction binders with
  | nil =>
      intro decl hlength
      obtain rfl : decl = [] := List.length_eq_zero_iff.mp hlength.symm
      exact .inr ⟨[], rfl, fun env => rfl⟩
  | cons b binders ih =>
      intro decl hlength
      cases decl with
      | nil => simp at hlength
      | cons f decl =>
          have hlength' : binders.length = decl.length := by simpa using hlength
          cases b with
          | none => exact ih hlength'
          | some name =>
              cases hv : fields.lookup f.name with
              | none => exact .inl ⟨_, fun env => by simp only [bindPayload, hv]; rfl⟩
              | some v =>
                  rcases ih hlength' with ⟨e, he⟩ | ⟨vs, hlen, hvs⟩
                  · exact .inl ⟨e, fun env => by simp only [bindPayload, hv, he]⟩
                  · exact .inr ⟨v :: vs, by simp [hlen], fun env => by
                      simp only [bindPayload, hv, hvs]
                      rfl⟩

/-- The arm of a variant binds its payload, or fails, whatever the environment. -/
lemma bindArm_bindAll (ctx : Context) (concept variant : String) (fields : List (String × Value))
    (binders : List (Option String)) :
    (∃ f, ∀ env, bindArm ctx concept variant fields binders env = .error f) ∨
    ∃ vs, vs.length = (binders.filterMap id).length ∧ ∀ env,
      bindArm ctx concept variant fields binders env =
        .ok (bindAll env (binders.filterMap id) vs) := by
  unfold bindArm
  cases ctx.concepts.find? (·.name = concept) with
  | none => exact .inl ⟨_, fun _ => rfl⟩
  | some decl =>
      dsimp only
      cases decl.variants.find? (·.name = variant) with
      | none => exact .inl ⟨_, fun _ => rfl⟩
      | some v =>
          dsimp only
          by_cases hlength : binders.length = v.fields.length
          · simp only [hlength, ne_eq, not_true_eq_false, if_false]
            exact bindPayload_bindAll binders hlength
          · simp only [hlength, ne_eq, not_false_eq_true, if_true]
            exact .inl ⟨_, fun _ => rfl⟩

/-! ## Evaluation -/

section evaluation

variable {ctx : Context} {call : Rule → Value → Outcome Value} {g : List String → Expr → Expr}
  {env env' : Env}

/-- Two expressions evaluate alike under any values of the names around them. -/
def SameUnder (ctx : Context) (call : Rule → Value → Outcome Value) (env env' : Env)
    (names : List String) (c c' : Expr) : Prop :=
  ∀ vs, vs.length = names.length →
    evalExpr ctx call (bindAll env names vs) c = evalExpr ctx call (bindAll env' names vs) c'

lemma evalArgs_map {es : List Expr} (h : ∀ c ∈ es, SameUnder ctx call env env' [] (g [] c) c) :
    evalArgs ctx call env (es.map (g [])) = evalArgs ctx call env' es := by
  induction es with
  | nil => rfl
  | cons e es ih =>
      have he : evalExpr ctx call env (g [] e) = evalExpr ctx call env' e := h e (by simp) [] rfl
      rw [List.map_cons, evalArgs, evalArgs, he, ih fun c hc => h c (List.mem_cons_of_mem _ hc)]

lemma evalFields_map {fs : List (String × Expr)}
    (h : ∀ c ∈ fs.map (·.2), SameUnder ctx call env env' [] (g [] c) c) :
    evalFields ctx call env (fs.map fun f => (f.1, g [] f.2)) = evalFields ctx call env' fs := by
  induction fs with
  | nil => rfl
  | cons f fs ih =>
      obtain ⟨name, e⟩ := f
      have he : evalExpr ctx call env (g [] e) = evalExpr ctx call env' e := h e (by simp) [] rfl
      rw [List.map_cons, evalFields, evalFields, he,
        ih fun c hc => h c (List.mem_cons_of_mem _ hc)]

lemma evalArms_map {arms : List MatchArm}
    (h : ∀ arm ∈ arms, SameUnder ctx call env env' (arm.binders.filterMap id)
      (g (arm.binders.filterMap id) arm.body) arm.body)
    (concept variant : String) (fields : List (String × Value)) :
    evalArms ctx call env concept variant fields (arms.map fun arm =>
        .mk arm.variantName arm.binders (g (arm.binders.filterMap id) arm.body)) =
      evalArms ctx call env' concept variant fields arms := by
  induction arms with
  | nil => rfl
  | cons arm arms ih =>
      have harm := h arm (by simp)
      obtain ⟨name, binders, body⟩ := arm
      rw [List.map_cons, evalArms, evalArms, ih fun c hc => h c (List.mem_cons_of_mem _ hc)]
      change (if name = variant then bindArm ctx concept variant fields binders env >>=
          fun armEnv => evalExpr ctx call armEnv (g (binders.filterMap id) body) else _) =
        if name = variant then bindArm ctx concept variant fields binders env' >>=
          fun armEnv => evalExpr ctx call armEnv body else _
      by_cases hname : name = variant
      · rw [if_pos hname, if_pos hname]
        rcases bindArm_bindAll ctx concept variant fields binders with ⟨f, hf⟩ | ⟨vs, hlen, hvs⟩
        · rw [hf, hf]
          rfl
        · rw [hvs, hvs]
          exact harm vs hlen
      · rw [if_neg hname, if_neg hname]

/-- **An expression evaluates alike when its subexpressions do**, under any values of the names that
it binds around them. -/
theorem evalExpr_mapScopes {e : Expr} (hident : ∀ n, e ≠ .ident n)
    (htable : ∀ t i, e = .tryByteAt t i → g [] t = t)
    (h : ∀ s ∈ e.scopes, SameUnder ctx call env env' s.1 (g s.1 s.2) s.2) :
    evalExpr ctx call env (e.mapScopes g) = evalExpr ctx call env' e := by
  have hplain : ∀ c, ([], c) ∈ e.scopes →
      evalExpr ctx call env (g [] c) = evalExpr ctx call env' c := fun c hc => h _ hc [] rfl
  cases e
  case ident n => exact absurd rfl (hident n)
  all_goals unfold Expr.mapScopes evalExpr
  case number | text | bytes | read | fetch | random | nowUnix => rfl
  case field a n => rw [hplain a (by simp [Expr.scopes, Expr.children])]
  case call n args =>
    cases ctx.findRule n with
    | none => rfl
    | some r =>
        rcases args with _ | ⟨arg, _ | ⟨arg', args⟩⟩
        · rfl
        · simp only [List.map_cons, List.map_nil]
          rw [hplain arg (by simp [Expr.scopes, Expr.children])]
        · simp
  case concat args =>
    rw [evalArgs_map fun c hc => h ([], c) (by simpa [Expr.scopes, Expr.children] using hc)]
  case record n fs =>
    rw [evalFields_map fun c hc => h ([], c) (by simpa [Expr.scopes, Expr.children] using hc)]
  case variantConstruct n v fs =>
    rw [evalFields_map fun c hc => h ([], c) (by simpa [Expr.scopes, Expr.children] using hc)]
  case matchVariant a arms =>
    rw [hplain a (by simp [Expr.scopes])]
    refine bind_congr fun v => ?_
    cases v with
    | variant c v fs =>
        exact evalArms_map (fun arm harm => h (_, _) (by
          rw [Expr.scopes]
          exact List.mem_cons_of_mem _ (List.mem_map_of_mem harm))) c v fs
    | _ => rfl
  case quantifier k c x b | map c x b | filter c x b =>
    have hbody : ∀ item, evalExpr ctx call (Dict.insert env x item) (g [x] b) =
        evalExpr ctx call (Dict.insert env' x item) b := fun item =>
      h ([x], b) (by simp [Expr.scopes]) [item] rfl
    rw [hplain c (by simp [Expr.scopes]), funext hbody]
  case fold c i x y b =>
    have hbody : ∀ a item, evalExpr ctx call (Dict.insert (Dict.insert env x a) y item) (g [x, y] b) =
        evalExpr ctx call (Dict.insert (Dict.insert env' x a) y item) b := fun a item =>
      h ([x, y], b) (by simp [Expr.scopes]) [a, item] rfl
    rw [hplain c (by simp [Expr.scopes]), hplain i (by simp [Expr.scopes]),
      funext fun a => funext (hbody a)]
  case foldBytes c i x y z b =>
    have hbody : ∀ a (byte : UInt8) (k : Nat), evalExpr ctx call
        (Dict.insert (Dict.insert (Dict.insert env x a) y (.number (Int64.ofNat byte.toNat))) z
          (.number (Int64.ofNat k))) (g [x, y, z] b) =
        evalExpr ctx call
          (Dict.insert (Dict.insert (Dict.insert env' x a) y (.number (Int64.ofNat byte.toNat))) z
            (.number (Int64.ofNat k))) b := fun a byte k =>
      h ([x, y, z], b) (by simp [Expr.scopes]) [a, _, _] rfl
    rw [hplain c (by simp [Expr.scopes]), hplain i (by simp [Expr.scopes]),
      funext fun a => funext fun byte => funext (hbody a byte)]
  case matchResult c x a y b =>
    have hok : ∀ w, evalExpr ctx call (Dict.insert env x w) (g [x] a) =
        evalExpr ctx call (Dict.insert env' x w) a := fun w =>
      h ([x], a) (by simp [Expr.scopes]) [w] rfl
    have herr : ∀ w, evalExpr ctx call (Dict.insert env y w) (g [y] b) =
        evalExpr ctx call (Dict.insert env' y w) b := fun w =>
      h ([y], b) (by simp [Expr.scopes]) [w] rfl
    rw [hplain c (by simp [Expr.scopes])]
    refine bind_congr fun v => ?_
    cases v with
    | ok w => exact hok w
    | err w => exact herr w
    | _ => rfl
  case tryByteAt table i =>
    rw [htable table i rfl, hplain i (by simp [Expr.scopes, Expr.children])]
  case not a | neg a | abs a | le32 a | le64 a | abortIf a | jsonEscape a | parseInt a | length a
      | ok a | err a | arenaScope a | bitNot a =>
    rw [hplain a (by simp [Expr.scopes, Expr.children])]
  case ite a b c | substring a b c =>
    rw [hplain a (by simp [Expr.scopes, Expr.children]),
      hplain b (by simp [Expr.scopes, Expr.children]),
      hplain c (by simp [Expr.scopes, Expr.children])]
  case binary op a b =>
    rw [hplain a (by simp [Expr.scopes, Expr.children]),
      hplain b (by simp [Expr.scopes, Expr.children])]
  case startsWith a b | endsWith a b | contains a b | min a b | max a b | bitAnd a b | bitOr a b
      | bitXor a b | shl a b | shr a b | byteAt a b =>
    rw [hplain a (by simp [Expr.scopes, Expr.children]),
      hplain b (by simp [Expr.scopes, Expr.children])]

/-- The value of an expression depends on its free names only. -/
theorem evalExpr_congr_free (e : Expr) :
    ∀ {env env' : Env}, (∀ y, Expr.Free y e → env.lookup y = env'.lookup y) →
      evalExpr ctx call env e = evalExpr ctx call env' e := by
  induction e using Expr.induction_children with
  | step e ih =>
      intro env env' h
      by_cases hident : ∃ n, e = .ident n
      · obtain ⟨n, rfl⟩ := hident
        unfold evalExpr
        rw [h n .ident]
      · have hmap : evalExpr ctx call env (e.mapScopes fun _ c => c) = evalExpr ctx call env' e :=
          evalExpr_mapScopes (fun n hn => hident ⟨n, hn⟩) (fun _ _ _ => rfl) fun s hs vs hlen =>
            ih s.2 (Expr.scopes_mem_children hs) fun y hy =>
              lookup_bindAll_congr hlen fun hbound => h y (.child hs hbound hy)
        rwa [Expr.mapScopes_id] at hmap

end evaluation

end Interpreter

end Verbosec
