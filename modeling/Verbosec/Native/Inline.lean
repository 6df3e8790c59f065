import Verbosec.Interpreter.Fuel
import Verbosec.Lib.Except
import Verbosec.Native.Substitute

/-!
# Matched calls, inlined

* `redirectResultLeaves`, `redirectVariantLeaves` - the body of a callee with every leaf replaced by
  the arm it selects; the callee's input is renamed to the caller's, the arm's binders become the
  payload expressions.
* `inlineMatch` - what the native backend compiles for a `match_result` or a `match` on a call.
* `MatchClear` - no name changes its meaning on the way, and payloads stand in declaration order.
* `inline_sound` - under this condition the inlined expression has the value of the match.
* `inline_captures` - a callee's `let` read from the caller's.

Source: `native.rs`, `emit_redirect_result_leaves_to_value`, `emit_redirect_variant_leaves` and the
`MatchResult` and `MatchVariant` arms of `emit_eval_expr`. The emitted branches are written as `if`
expressions; source texts render the refused expression with `Debug`, here that rendering is left
out.
-/

namespace Verbosec.Native

open Verbosec.Lib Verbosec.Interpreter

/-! ## The inlined expression -/

/-- An expression of the callee over the caller's input. -/
def renameInput (callee : Rule) (input : String) (e : Expr) : Expr :=
  substituteIdent callee.inputName (.ident input) e

/-- The body of a callee with an arm in place of each `Ok` and `Err`.
Source: `native.rs`, `emit_redirect_result_leaves_to_value` -/
def redirectResultLeaves (callee : Rule) (okVar : String) (okBody : Expr) (errVar : String)
    (errBody : Expr) (input : String) : Expr → Except String Expr
  | .ok inner => .ok (substituteIdent okVar (renameInput callee input inner) okBody)
  | .err inner => .ok (substituteIdent errVar (renameInput callee input inner) errBody)
  | .ite cond yes no => do
      let yes' ← redirectResultLeaves callee okVar okBody errVar errBody input yes
      let no' ← redirectResultLeaves callee okVar okBody errVar errBody input no
      .ok (.ite (renameInput callee input cond) yes' no')
  | _ => .error ("match_result callee body has an expression not supported for number-context " ++
      "inlining (expected a tree of if / Ok / Err)")

/-- The body of an arm with its binders replaced one after another by the payload in the order in
which the constructor writes it. Source: `native.rs`, `emit_redirect_variant_leaves` -/
def substituteBinders (callee : Rule) (input : String) :
    List (Option String) → List (String × Expr) → Expr → Expr
  | some binder :: binders, (_, e) :: fields, body =>
      substituteBinders callee input binders fields
        (substituteIdent binder (renameInput callee input e) body)
  | none :: binders, _ :: fields, body => substituteBinders callee input binders fields body
  | _, _, body => body

/-- The body of a callee with an arm in place of each constructor.
Source: `native.rs`, `emit_redirect_variant_leaves` -/
def redirectVariantLeaves (callee : Rule) (arms : List MatchArm) (input : String) :
    Expr → Except String Expr
  | .variantConstruct _ variant fields =>
      match arms.find? (·.variantName = variant) with
      | none => .error ("MatchVariant: callee produces variant '" ++ variant ++
          "' but no matching arm — verifier should have caught this")
      | some arm =>
          if arm.binders.length ≠ fields.length then
            .error ("MatchVariant: arm for '" ++ variant ++ "' has " ++
              toString arm.binders.length ++ " binders but leaf supplies " ++
              toString fields.length ++ " payload fields")
          else .ok (substituteBinders callee input arm.binders fields arm.body)
  | .ite cond yes no => do
      let yes' ← redirectVariantLeaves callee arms input yes
      let no' ← redirectVariantLeaves callee arms input no
      .ok (.ite (renameInput callee input cond) yes' no')
  | _ => .error ("MatchVariant: callee body has expression not supported for inlining (slice A.4.1 " ++
      "expects chained if/else of VariantConstruct leaves)")

/-- Does a rule return a result? -/
def returnsResult (r : Rule) : Bool :=
  match r.outputTy with
  | .result _ _ => true
  | _ => false

/-- The expression compiled for a match on a call of another rule, `rules` the rules by name.
Source: `native.rs`, the `MatchResult` and `MatchVariant` arms of `emit_eval_expr` -/
def inlineMatch (rules : String → Option Rule) (input : String) : Expr → Except String Expr
  | .matchResult (.call name [arg]) okVar okBody errVar errBody =>
      match arg with
      | .ident n =>
          if n ≠ input then
            .error "match_result target call must pass the outer rule's input identifier"
          else
            match rules name with
            | none => .error ("match_result calls unknown rule '" ++ name ++ "'")
            | some callee =>
                if !returnsResult callee then
                  .error ("match_result callee '" ++ name ++ "' must return Result(T, E)")
                else if !callee.logic.bindings.isEmpty then
                  .error ("match_result callee '" ++ name ++ "' has let bindings — native " ++
                    "number-context inlining requires a binding-free callee (run via --run, or " ++
                    "inline the bindings)")
                else redirectResultLeaves callee okVar okBody errVar errBody input callee.logic.value
      | _ => .error "match_result target call must pass the outer rule's input identifier"
  | .matchResult .. =>
      .error "match_result target must be a rule call `callee(input)` in native number context"
  | .matchVariant (.call name [arg]) arms =>
      match arg with
      | .ident n =>
          if n ≠ input then
            .error ("MatchVariant: scrutinee call argument '" ++ n ++
              "' is not the outer rule's input '" ++ input ++ "' (slice A.4.1 restriction)")
          else
            match rules name with
            | none => .error ("MatchVariant: unknown callee rule '" ++ name ++ "'")
            | some callee => redirectVariantLeaves callee arms input callee.logic.value
      | _ => .error "MatchVariant: scrutinee's call argument must be the input identifier"
  | .matchVariant .. => .error ("MatchVariant: native slice A.4.1 supports scrutinee = Call(callee, " ++
      "[Ident(input)]) only")
  | _ => .error "not a match"

/-! ## Names -/

/-- A condition or a payload of the callee reads its input only, which none of its `let`s hides and
no binder around it captures once it has the caller's name. -/
def LeafClear (callee : Rule) (input : String) (e : Expr) : Prop :=
  (∀ y, Expr.Free y e → y = callee.inputName ∧ y ∉ callee.logic.bindings.map (·.1)) ∧
    NoCapture (· = input) callee.inputName e

/-- Moved into the arm, a payload is not captured there. -/
def PayloadClear (callee : Rule) (input : String) (e : Expr) (x : String) (body : Expr) : Prop :=
  LeafClear callee input e ∧
    NoCapture (fun b => b = input ∧ Expr.Free callee.inputName e) x body

/-- The leaves and the conditions of a callee that returns a result are clear. -/
def ResultClear (callee : Rule) (input : String) (okVar : String) (okBody : Expr) (errVar : String)
    (errBody : Expr) : Expr → Prop
  | .ok inner => PayloadClear callee input inner okVar okBody
  | .err inner => PayloadClear callee input inner errVar errBody
  | .ite cond yes no =>
      LeafClear callee input cond ∧ ResultClear callee input okVar okBody errVar errBody yes ∧
        ResultClear callee input okVar okBody errVar errBody no
  | _ => True

/-- The binders of an arm are distinct and its payloads clear; a payload that reads the input is not
caught by the substitution of a later binder of the input's name. -/
def BindersClear (callee : Rule) (input : String) :
    List (Option String) → List (String × Expr) → Expr → Prop
  | some binder :: binders, (_, e) :: fields, body =>
      PayloadClear callee input e binder body ∧ binder ∉ binders.filterMap id ∧
        (Expr.Free callee.inputName e → input ∉ binders.filterMap id) ∧
        BindersClear callee input binders fields body
  | none :: binders, _ :: fields, body => BindersClear callee input binders fields body
  | _, _, _ => True

/-- The leaves and the conditions of a callee that returns a variant are clear, and every constructor
writes its payload in the order of the declaration. -/
def VariantClear (ctx : Context) (callee : Rule) (input : String) (arms : List MatchArm) :
    Expr → Prop
  | .variantConstruct concept variant fields =>
      (fields.map (·.1)).Nodup ∧
      (∀ decl v, ctx.concepts.find? (·.name = concept) = some decl →
        decl.variants.find? (·.name = variant) = some v →
        v.fields.map (·.name) = fields.map (·.1)) ∧
      ∀ arm, arms.find? (·.variantName = variant) = some arm →
        BindersClear callee input arm.binders fields arm.body
  | .ite cond yes no =>
      LeafClear callee input cond ∧ VariantClear ctx callee input arms yes ∧
        VariantClear ctx callee input arms no
  | _ => True

/-- No name of the callee, of the caller or of an arm changes its meaning in the inlined expression,
and payloads stand in declaration order. -/
def MatchClear (ctx : Context) (input : String) : Expr → Prop
  | .matchResult (.call name _) okVar okBody errVar errBody =>
      ∀ callee, ctx.findRule name = some callee →
        ResultClear callee input okVar okBody errVar errBody callee.logic.value
  | .matchVariant (.call name _) arms =>
      ∀ callee, ctx.findRule name = some callee →
        VariantClear ctx callee input arms callee.logic.value
  | _ => True

/-! ## Leaves -/

section leaves

variable {ctx : Context} {call : Rule → Value → Outcome Value} {callee : Rule} {input : String}
  {u : Value} {inner : Env} (hinner : callee.inputName ∉ callee.logic.bindings.map (·.1) →
    inner.lookup callee.inputName = some u)
include hinner

/-- A clear expression of the callee, renamed, has its value wherever the caller's input has the
value of the callee's. -/
lemma evalExpr_renameInput {e : Expr} (htables : e.LiteralTables) (hclear : LeafClear callee input e)
    {env : Env} (henv : Expr.Free callee.inputName e → env.lookup input = some u) :
    evalExpr ctx call env (renameInput callee input e) = evalExpr ctx call inner e := by
  obtain ⟨hfree, hcapture⟩ := hclear
  refine evalExpr_substitute (u := u) (fun env => env.lookup input = some u) ?_ ?_ e htables hcapture
    (fun h => ⟨henv h, hinner (hfree _ h).2⟩) fun y hy hne => absurd (hfree y hy).1 hne
  · intro env b v hb h
    rwa [Dict.lookup_insert_of_ne _ _ fun h => hb h.symm]
  · intro env h
    unfold evalExpr
    rw [h]

/-- An arm with a payload in place of its binder. -/
lemma evalExpr_payload {e body : Expr} {x : String} {w : Value} (htables : e.LiteralTables)
    (hbody : body.LiteralTables) (hclear : PayloadClear callee input e x body) {env : Env}
    (henv : Expr.Free callee.inputName e → env.lookup input = some u)
    (hw : evalExpr ctx call inner e = .ok w) :
    evalExpr ctx call env (substituteIdent x (renameInput callee input e) body) =
      evalExpr ctx call (Dict.insert env x w) body := by
  obtain ⟨hleaf, hcapture⟩ := hclear
  refine evalExpr_substitute (u := w)
    (fun env => Expr.Free callee.inputName e → env.lookup input = some u) ?_ ?_ body hbody hcapture
    (fun _ => ⟨henv, Dict.lookup_insert_self ..⟩) fun y _ hne =>
      (Dict.lookup_insert_of_ne _ _ hne).symm
  · intro env b v hb h hfree
    rw [Dict.lookup_insert_of_ne _ _ fun h => hb ⟨h.symm, hfree⟩]
    exact h hfree
  · intro env h
    rw [evalExpr_renameInput hinner htables hleaf h, hw]

/-- A callee that returns a result, with the selected arm in place of its leaves. -/
lemma redirectResultLeaves_sound {okVar errVar : String} {okBody errBody : Expr}
    (hokBody : okBody.LiteralTables) (herrBody : errBody.LiteralTables) {env : Env}
    (henv : env.lookup input = some u) (body : Expr) :
    ∀ {built : Expr}, redirectResultLeaves callee okVar okBody errVar errBody input body = .ok built →
      body.LiteralTables → ResultClear callee input okVar okBody errVar errBody body →
      ∀ {w v : Value}, evalExpr ctx call inner body = .ok w →
        (match w with
          | .ok x => evalExpr ctx call (Dict.insert env okVar x) okBody
          | .err x => evalExpr ctx call (Dict.insert env errVar x) errBody
          | other => fail (.operand "match_result requires a Result value" other)) = .ok v →
        evalExpr ctx call env built = .ok v := by
  induction body using redirectResultLeaves.induct with
  | case1 e =>
      intro built hbuilt htables hclear w v hw hv
      cases hbuilt
      unfold evalExpr at hw
      obtain ⟨x, hx, hw⟩ := Except.bind_eq_ok.mp hw
      cases hw
      rw [evalExpr_payload hinner (htables.children (by simp [Expr.children])) hokBody hclear
        (fun _ => henv) hx]
      exact hv
  | case2 e =>
      intro built hbuilt htables hclear w v hw hv
      cases hbuilt
      unfold evalExpr at hw
      obtain ⟨x, hx, hw⟩ := Except.bind_eq_ok.mp hw
      cases hw
      rw [evalExpr_payload hinner (htables.children (by simp [Expr.children])) herrBody hclear
        (fun _ => henv) hx]
      exact hv
  | case3 cond yes no ihyes ihno =>
      intro built hbuilt htables hclear w v hw hv
      obtain ⟨yes', hyes, hbuilt⟩ := Except.bind_eq_ok.mp hbuilt
      obtain ⟨no', hno, hbuilt⟩ := Except.bind_eq_ok.mp hbuilt
      cases hbuilt
      obtain ⟨hcond, hclearYes, hclearNo⟩ := hclear
      unfold evalExpr at hw ⊢
      obtain ⟨c, hc, hw⟩ := Except.bind_eq_ok.mp hw
      rw [evalExpr_renameInput hinner (htables.children (by simp [Expr.children])) hcond
        (fun _ => henv), hc]
      cases c with
      | bool b =>
          cases b with
          | true =>
              exact ihyes hyes (htables.children (by simp [Expr.children])) hclearYes hw hv
          | false =>
              exact ihno hno (htables.children (by simp [Expr.children])) hclearNo hw hv
      | _ => cases hw
  | case4 body hok herr hite =>
      intro built hbuilt
      rw [redirectResultLeaves] at hbuilt
      · cases hbuilt
      all_goals assumption

omit hinner in
/-- What a renamed payload reads of its environment is the caller's input. -/
lemma free_renameInput {e : Expr} (hclear : LeafClear callee input e) {y : String}
    (h : Expr.Free y (renameInput callee input e)) :
    y = input ∧ Expr.Free callee.inputName e := by
  rcases free_substitute h with ⟨hfree, hne⟩ | ⟨hfree, hinput⟩
  · exact absurd (hclear.1 y hfree).1 hne
  · refine ⟨?_, hinput⟩
    rcases hfree.cases_scopes with heq | ⟨s, hs, -, -⟩
    · exact (Expr.ident.inj heq).symm
    · simp [Expr.scopes, Expr.children] at hs

omit hinner in
/-- The later binders of an arm stay clear when an earlier one is replaced. -/
lemma BindersClear.substitute {binder : String} {e : Expr} (hleaf : LeafClear callee input e)
    (binders : List (Option String)) :
    ∀ {fields : List (String × Expr)} {body : Expr},
      (Expr.Free callee.inputName e → input ∉ binders.filterMap id) →
      BindersClear callee input binders fields body →
      BindersClear callee input binders fields
        (substituteIdent binder (renameInput callee input e) body) := by
  induction binders with
  | nil => exact fun _ _ => trivial
  | cons b binders ih =>
      intro fields body hinput h
      cases fields with
      | nil => cases b <;> trivial
      | cons f fields =>
          obtain ⟨n, e'⟩ := f
          cases b with
          | none => exact ih hinput h
          | some b =>
              obtain ⟨⟨hclear, hcapture⟩, hdistinct, hlater, hrest⟩ := h
              refine ⟨⟨hclear, hcapture.substitute fun hfree => ?_⟩, hdistinct, hlater, ih ?_ hrest⟩
              · obtain ⟨rfl, hreads⟩ := free_renameInput hleaf hfree
                exact hinput hreads (by simp)
              · exact fun hreads hmem => hinput hreads (List.mem_cons_of_mem _ hmem)

/-- An arm with its binders replaced, against the arm with its binders bound. -/
lemma substituteBinders_sound {concept variant : String} {vals : List (String × Value)}
    (binders : List (Option String)) :
    ∀ {decl : List Field} {fields : List (String × Expr)} {body : Expr} {env armEnv : Env},
      binders.length = fields.length → decl.map (·.name) = fields.map (·.1) →
      (∀ f ∈ fields, ∃ w, evalExpr ctx call inner f.2 = .ok w ∧ vals.lookup f.1 = some w) →
      (∀ f ∈ fields, f.2.LiteralTables) → body.LiteralTables →
      BindersClear callee input binders fields body → env.lookup input = some u →
      bindPayload concept variant vals binders decl env = .ok armEnv →
      evalExpr ctx call env (substituteBinders callee input binders fields body) =
        evalExpr ctx call armEnv body := by
  induction binders with
  | nil =>
      intro decl fields body env armEnv _ _ _ _ _ _ _ hbind
      cases hbind
      rfl
  | cons b binders ih =>
      intro decl fields body env armEnv hlength hnames hvals htables hbody hclear henv hbind
      obtain ⟨f, fields, rfl⟩ : ∃ f fs, fields = f :: fs := by
        cases fields with
        | nil => simp at hlength
        | cons f fs => exact ⟨f, fs, rfl⟩
      obtain ⟨d, decl, rfl⟩ : ∃ d ds, decl = d :: ds := by
        cases decl with
        | nil => simp at hnames
        | cons d ds => exact ⟨d, ds, rfl⟩
      obtain ⟨n, e⟩ := f
      obtain ⟨hname, hnames⟩ := List.cons.inj hnames
      have hlength' : binders.length = fields.length := by simpa using hlength
      have hdecl : binders.length = decl.length := by
        rw [hlength', ← List.length_map (f := fun f : String × Expr => f.1), ← hnames,
          List.length_map]
      have hvals' := fun f hf => hvals f (List.mem_cons_of_mem _ hf)
      have htables' := fun f hf => htables f (List.mem_cons_of_mem _ hf)
      cases b with
      | none => exact ih hlength' hnames hvals' htables' hbody hclear henv hbind
      | some b =>
          obtain ⟨hpayload, hdistinct, hlater, hrest⟩ := hclear
          obtain ⟨w, hw, hlook⟩ := hvals (n, e) List.mem_cons_self
          have hetables := htables (n, e) List.mem_cons_self
          simp only at hname hw hlook hetables
          -- The other binders, bound without this one.
          have hall : (∃ f, ∀ env, bindPayload concept variant vals binders decl env = .error f) ∨
              ∃ vs, vs.length = (binders.filterMap id).length ∧ ∀ env,
                bindPayload concept variant vals binders decl env =
                  .ok (bindAll env (binders.filterMap id) vs) := bindPayload_bindAll binders hdecl
          rcases hall with ⟨f, hf⟩ | ⟨vs, hlen, hvs⟩
          · simp only [bindPayload, hname, hlook, hf] at hbind
            cases hbind
          · simp only [bindPayload, hname, hlook, hvs, Except.ok.injEq] at hbind
            subst hbind
            have hnext : (substituteIdent b (renameInput callee input e) body).LiteralTables :=
              literalTables_substitute (literalTables_substitute rfl hetables) hbody
            rw [substituteBinders, ih hlength' hnames hvals' htables' hnext
              (hrest.substitute hpayload.1 binders hlater) henv (hvs env),
              evalExpr_payload hinner hetables hbody hpayload
              (fun hreads => by rw [lookup_bindAll_of_not_mem (hlater hreads), henv]) hw]
            -- Distinct binders may be bound in any order.
            refine evalExpr_congr_free _ fun y _ => ?_
            rw [Dict.lookup_insert]
            split
            · rename_i hy
              rw [hy, lookup_bindAll_of_not_mem hdistinct, Dict.lookup_insert_self]
            · rename_i hy
              exact lookup_bindAll_congr hlen fun _ => (Dict.lookup_insert_of_ne _ _ hy).symm

omit hinner in
/-- The payload of a constructor, in the order in which it is written. -/
lemma evalFields_eq_ok {env : Env} {fields : List (String × Expr)} {vals : List (String × Value)}
    (h : evalFields ctx call env fields = .ok vals) :
    vals.map (·.1) = fields.map (·.1) ∧
      ∀ f ∈ fields, ∃ w, evalExpr ctx call env f.2 = .ok w ∧ (f.1, w) ∈ vals := by
  induction fields generalizing vals with
  | nil =>
      cases h
      exact ⟨rfl, fun f hf => absurd hf List.not_mem_nil⟩
  | cons f fields ih =>
      obtain ⟨n, e⟩ := f
      unfold evalFields at h
      obtain ⟨w, hw, h⟩ := Except.bind_eq_ok.mp h
      obtain ⟨ws, hws, h⟩ := Except.bind_eq_ok.mp h
      cases h
      obtain ⟨hnames, hall⟩ := ih hws
      refine ⟨by rw [List.map_cons, hnames, List.map_cons], fun f hf => ?_⟩
      rcases List.mem_cons.mp hf with rfl | hf
      · exact ⟨w, hw, List.mem_cons_self⟩
      · obtain ⟨x, hx, hmem⟩ := hall f hf
        exact ⟨x, hx, List.mem_cons_of_mem _ hmem⟩

omit hinner in
/-- The arm that a variant selects, and what it binds. -/
lemma evalArms_eq_ok {env : Env} {concept variant : String} {vals : List (String × Value)}
    {arms : List MatchArm} {v : Value}
    (h : evalArms ctx call env concept variant vals arms = .ok v) :
    ∃ arm armEnv, arms.find? (·.variantName = variant) = some arm ∧
      bindArm ctx concept variant vals arm.binders env = .ok armEnv ∧
      evalExpr ctx call armEnv arm.body = .ok v := by
  induction arms with
  | nil => cases h
  | cons arm arms ih =>
      obtain ⟨name, binders, body⟩ := arm
      unfold evalArms at h
      split at h
      · rename_i hname
        obtain ⟨armEnv, hbind, h⟩ := Except.bind_eq_ok.mp h
        exact ⟨.mk name binders body, armEnv,
          List.find?_cons_of_pos (decide_eq_true hname), hbind, h⟩
      · rename_i hname
        obtain ⟨arm, armEnv, hfind, hrest⟩ := ih h
        refine ⟨arm, armEnv, ?_, hrest⟩
        rw [List.find?_cons_of_neg (by exact mt of_decide_eq_true hname), hfind]

/-- A callee that returns a variant, with the selected arm in place of its leaves. -/
lemma redirectVariantLeaves_sound {arms : List MatchArm}
    (harms : ∀ arm ∈ arms, arm.body.LiteralTables) {env : Env} (henv : env.lookup input = some u)
    (body : Expr) :
    ∀ {built : Expr}, redirectVariantLeaves callee arms input body = .ok built →
      body.LiteralTables → VariantClear ctx callee input arms body →
      ∀ {concept variant : String} {vals : List (String × Value)} {v : Value},
        evalExpr ctx call inner body = .ok (.variant concept variant vals) →
        evalArms ctx call env concept variant vals arms = .ok v →
        evalExpr ctx call env built = .ok v := by
  induction body using redirectVariantLeaves.induct arms with
  | case1 c n fields hnone =>
      intro built hbuilt
      simp only [redirectVariantLeaves, hnone] at hbuilt
      cases hbuilt
  | case2 c n fields arm hfind hlength =>
      intro built hbuilt
      simp only [redirectVariantLeaves, hfind, if_pos hlength] at hbuilt
      cases hbuilt
  | case3 c n fields arm hfind hlength =>
      intro built hbuilt htables hclear concept variant vals v hw hv
      simp only [redirectVariantLeaves, hfind, if_neg hlength] at hbuilt
      cases hbuilt
      obtain ⟨hnodup, horder, hbinders⟩ := hclear
      unfold evalExpr at hw
      obtain ⟨ws, hws, hw⟩ := Except.bind_eq_ok.mp hw
      cases hw
      obtain ⟨hnames, hvals⟩ := evalFields_eq_ok hws
      obtain ⟨arm', armEnv, hfind', hbind, hv⟩ := evalArms_eq_ok hv
      obtain rfl : arm = arm' := Option.some.inj (hfind.symm.trans hfind')
      -- The declaration that the interpreter binds by.
      unfold bindArm at hbind
      split at hbind
      · cases hbind
      · rename_i decl hdecl
        split at hbind
        · cases hbind
        · rename_i vd hvd
          split at hbind
          · cases hbind
          · rw [substituteBinders_sound hinner arm.binders (not_not.mp hlength)
              (horder decl vd hdecl hvd) (fun f hf => ?_) (fun f hf => ?_)
              (harms arm (List.mem_of_find?_eq_some hfind)) (hbinders arm hfind) henv hbind]
            · exact hv
            · obtain ⟨w, hw, hmem⟩ := hvals f hf
              refine ⟨w, hw, (Dict.lookup_eq_some_of_nodup ?_).mpr (List.mem_reverse.mpr hmem)⟩
              rw [List.map_reverse, List.nodup_reverse, hnames]
              exact hnodup
            · exact htables.children (by
                rw [Expr.children]
                exact List.mem_map_of_mem hf)
  | case4 cond yes no ihyes ihno =>
      intro built hbuilt htables hclear concept variant vals v hw hv
      obtain ⟨yes', hyes, hbuilt⟩ := Except.bind_eq_ok.mp hbuilt
      obtain ⟨no', hno, hbuilt⟩ := Except.bind_eq_ok.mp hbuilt
      cases hbuilt
      obtain ⟨hcond, hclearYes, hclearNo⟩ := hclear
      unfold evalExpr at hw ⊢
      obtain ⟨c, hc, hw⟩ := Except.bind_eq_ok.mp hw
      rw [evalExpr_renameInput hinner (htables.children (by simp [Expr.children])) hcond
        (fun _ => henv), hc]
      cases c with
      | bool b =>
          cases b with
          | true => exact ihyes hyes (htables.children (by simp [Expr.children])) hclearYes hw hv
          | false => exact ihno hno (htables.children (by simp [Expr.children])) hclearNo hw hv
      | _ => cases hw
  | case5 body hconstruct hite =>
      intro built hbuilt
      rw [redirectVariantLeaves] at hbuilt
      · cases hbuilt
      all_goals assumption

end leaves

/-! ## Calls -/

section calls

variable {ctx : Context}

/-- A name that no `let` binds keeps its value. -/
lemma lookup_evalBindings {call : Rule → Value → Outcome Value} {y : String}
    (bindings : List (String × Expr)) :
    ∀ {env env' : Env}, y ∉ bindings.map (·.1) → evalBindings ctx call env bindings = .ok env' →
      env'.lookup y = env.lookup y := by
  induction bindings with
  | nil =>
      intro env env' _ h
      cases h
      rfl
  | cons b bindings ih =>
      intro env env' hy h
      obtain ⟨name, e⟩ := b
      rw [List.map_cons, List.mem_cons, not_or] at hy
      unfold evalBindings at h
      obtain ⟨v, -, h⟩ := Except.bind_eq_ok.mp h
      rw [ih hy.2 h, Dict.lookup_insert_of_ne _ _ hy.1]

/-- What a checked result was before the check. -/
lemma checkOutput_eq_ok {r : Rule} {v w : Value} (h : checkOutput r v = .ok w) : w = v := by
  unfold checkOutput at h
  split at h
  · cases h
    rfl
  · split at h
    · split at h <;> cases h
      rfl
    · cases h

/-- The value of a call is that of the callee's body, in an environment that binds its input. -/
lemma evalRule_eq_ok {fuel : Nat} {callee : Rule} {u w : Value}
    (h : evalRule ctx fuel callee u = .ok w) :
    ∃ inner : Env, (callee.inputName ∉ callee.logic.bindings.map (·.1) →
        inner.lookup callee.inputName = some u) ∧
      evalExpr ctx (evalRule ctx fuel) inner callee.logic.value = .ok w := by
  cases fuel with
  | zero => cases h
  | succ fuel =>
      rw [evalRule] at h
      obtain ⟨-, -, h⟩ := Except.bind_eq_ok.mp h
      unfold evalBody at h
      obtain ⟨inner, hinner, h⟩ := Except.bind_eq_ok.mp h
      obtain ⟨x, hx, h⟩ := Except.bind_eq_ok.mp h
      refine ⟨inner, fun hname => ?_, ?_⟩
      · rw [lookup_evalBindings _ hname hinner]
        simp
      · rw [checkOutput_eq_ok h]
        -- Calls inside the callee have one level less; more levels change nothing.
        rcases evalExpr_le (fun r v => evalRule_le ctx fuel r v) callee.logic.value inner with
          hout | hsame
        · rw [hx] at hout
          cases hout
        · rw [hsame, hx]

/-- A call of a rule on a variable. -/
lemma evalExpr_call_eq_ok {call : Rule → Value → Outcome Value} {env : Env} {name x : String}
    {callee : Rule} (hcallee : ctx.findRule name = some callee) {w : Value}
    (h : evalExpr ctx call env (.call name [.ident x]) = .ok w) :
    ∃ u, env.lookup x = some u ∧ call callee u = .ok w := by
  unfold evalExpr at h
  rw [hcallee] at h
  obtain ⟨u, hu, h⟩ := Except.bind_eq_ok.mp h
  refine ⟨u, ?_, h⟩
  unfold evalExpr at hu
  split at hu
  · rename_i v hv
    cases hu
    exact hv
  · cases hu

/-- **Inlining a matched call preserves its value**, when no name is captured on the way and payloads
stand in declaration order. -/
theorem inline_sound (htables : ∀ r ∈ ctx.rules, r.logic.value.LiteralTables) {input : String}
    {e built : Expr} (he : e.LiteralTables) (hbuilt : inlineMatch ctx.findRule input e = .ok built)
    (hclear : MatchClear ctx input e) {fuel : Nat} {env : Env} {v : Value}
    (hv : evalExpr ctx (evalRule ctx fuel) env e = .ok v) :
    evalExpr ctx (evalRule ctx fuel) env built = .ok v := by
  unfold inlineMatch at hbuilt
  split at hbuilt
  · rename_i name arg okVar okBody errVar errBody
    split at hbuilt
    · rename_i n
      split at hbuilt
      · cases hbuilt
      · rename_i hn
        obtain rfl : n = input := not_not.mp hn
        split at hbuilt
        · cases hbuilt
        · rename_i callee hcallee
          split at hbuilt
          · cases hbuilt
          · split at hbuilt
            · cases hbuilt
            · unfold evalExpr at hv
              obtain ⟨w, hw, hv⟩ := Except.bind_eq_ok.mp hv
              obtain ⟨u, hu, hw⟩ := evalExpr_call_eq_ok hcallee hw
              obtain ⟨inner, hinner, hw⟩ := evalRule_eq_ok hw
              exact redirectResultLeaves_sound hinner (he.children (by simp [Expr.children]))
                (he.children (by simp [Expr.children])) hu _ hbuilt
                (htables callee (List.mem_of_find?_eq_some hcallee)) (hclear callee hcallee) hw hv
    · cases hbuilt
  · cases hbuilt
  · rename_i name arg arms
    split at hbuilt
    · rename_i n
      split at hbuilt
      · cases hbuilt
      · rename_i hn
        obtain rfl : n = input := not_not.mp hn
        split at hbuilt
        · cases hbuilt
        · rename_i callee hcallee
          unfold evalExpr at hv
          obtain ⟨w, hw, hv⟩ := Except.bind_eq_ok.mp hv
          obtain ⟨u, hu, hw⟩ := evalExpr_call_eq_ok hcallee hw
          obtain ⟨inner, hinner, hw⟩ := evalRule_eq_ok hw
          cases w with
          | variant concept variant vals =>
              refine redirectVariantLeaves_sound hinner (fun arm harm => he.children ?_) hu _ hbuilt
                (htables callee (List.mem_of_find?_eq_some hcallee)) (hclear callee hcallee) hw hv
              rw [Expr.children]
              exact List.mem_cons_of_mem _ (List.mem_map_of_mem harm)
          | _ => cases hv
    · cases hbuilt
  · cases hbuilt
  · cases hbuilt

end calls

/-! ## A clear match, and a captured `let` -/

/-- A rule on claims, with its `let`s and its value. -/
def claimRule (name : String) (outputTy : Ty) (lets : List (String × Expr)) (value : Expr) : Rule where
  name := name
  inputName := "x"
  inputTy := .named "Claim"
  outputName := "out"
  outputTy := outputTy
  logic := ⟨lets, value⟩

/-- The amount of a claim. -/
def claimAmount : Expr := .field (.ident "x") "amount"

/-- A rule that passes on a positive amount. -/
def checkClaim : Rule :=
  claimRule "check_claim" (.result .number .text) []
    (.ite (.binary .gt claimAmount (.number 0)) (.ok claimAmount) (.err (.text "none")))

/-- A rule that wraps the amount, by way of a `let`. -/
def sizeClaim : Rule :=
  claimRule "size" (.named "Size") [("n", claimAmount)]
    (.variantConstruct "Size" "Big" [("value", .ident "n")])

/-- The tables of the two rules. -/
def claimContext : Context where
  rules := [checkClaim, sizeClaim]
  concepts := [{ name := "Size", variants := [⟨"Big", [⟨"value", .number, none⟩]⟩] }]

/-- A caller's environment: a claim of three, and a `let` of seven. -/
def claimEnv : Env := [("n", .number 7), ("c", .record [("amount", .number 3)])]

/-- The checked amount and the caller's `let`, or zero. -/
def checkedAmount : Expr :=
  .matchResult (.call "check_claim" [.ident "c"]) "v" (.binary .add (.ident "v") (.ident "n")) "e"
    (.number 0)

/-- Without binders there is no capture. -/
lemma noCapture_of_scopes {kept : String → Prop} {x : String} {e : Expr}
    (h : ∀ s ∈ e.scopes, s.1 = [] ∧ NoCapture kept x s.2) : NoCapture kept x e :=
  ⟨fun s hs _ => (h s hs).2, fun s hs _ _ b hb => by
    rw [(h s hs).1] at hb
    cases hb⟩

/-- The callee's input is clear. -/
lemma leafClear_input {callee : Rule} {input : String}
    (h : callee.inputName ∉ callee.logic.bindings.map (·.1)) :
    LeafClear callee input (.ident callee.inputName) := by
  refine ⟨fun y hy => ?_, noCapture_of_scopes fun s hs => ?_⟩
  · rcases hy.cases_scopes with heq | ⟨s, hs, -, -⟩
    · cases heq
      exact ⟨rfl, h⟩
    · simp [Expr.scopes, Expr.children] at hs
  · simp [Expr.scopes, Expr.children] at hs

/-- An expression without binders is clear when its parts are. -/
lemma LeafClear.of_scopes {callee : Rule} {input : String} {e : Expr} (hident : ∀ n, e ≠ .ident n)
    (h : ∀ s ∈ e.scopes, s.1 = [] ∧ LeafClear callee input s.2) : LeafClear callee input e := by
  refine ⟨fun y hy => ?_, noCapture_of_scopes fun s hs => ⟨(h s hs).1, (h s hs).2.2⟩⟩
  rcases hy.cases_scopes with heq | ⟨s, hs, -, hfree⟩
  · exact absurd heq (hident y)
  · exact (h s hs).2.1 y hfree

lemma leafClear_amount : LeafClear checkClaim "c" claimAmount := by
  refine .of_scopes (fun _ h => by cases h) fun s hs => ?_
  obtain rfl : s = ([], .ident "x") := by simpa [claimAmount, Expr.scopes, Expr.children] using hs
  exact ⟨rfl, show LeafClear checkClaim "c" (.ident checkClaim.inputName) from
    leafClear_input List.not_mem_nil⟩

lemma matchClear_checkedAmount : MatchClear claimContext "c" checkedAmount := by
  rintro callee hcallee
  obtain rfl : checkClaim = callee := Option.some.inj hcallee
  refine ⟨.of_scopes (fun _ h => by cases h) ?_, ⟨leafClear_amount, ?_⟩,
    .of_scopes (fun _ h => by cases h) ?_, ?_⟩
  · simp only [Expr.scopes, Expr.children, List.map_cons, List.map_nil, List.forall_mem_cons]
    exact ⟨⟨trivial, leafClear_amount⟩, ⟨trivial, .of_scopes (fun _ h => by cases h)
      (by simp [Expr.scopes, Expr.children])⟩, by simp⟩
  · refine noCapture_of_scopes ?_
    simp only [Expr.scopes, Expr.children, List.map_cons, List.map_nil, List.forall_mem_cons]
    exact ⟨⟨trivial, noCapture_of_scopes (by simp [Expr.scopes, Expr.children])⟩,
      ⟨trivial, noCapture_of_scopes (by simp [Expr.scopes, Expr.children])⟩, by simp⟩
  · simp [Expr.scopes, Expr.children]
  · exact noCapture_of_scopes (by simp [Expr.scopes, Expr.children])

theorem inline_sound_check : ∃ built,
    inlineMatch claimContext.findRule "c" checkedAmount = .ok built ∧
    evalExpr claimContext (evalRule claimContext 1) claimEnv built = .ok (.number 10) :=
  ⟨_, rfl, inline_sound (e := checkedAmount)
    (show ∀ r ∈ claimContext.rules, r.logic.value.LiteralTables by
      simp [claimContext, checkClaim, sizeClaim, claimRule, claimAmount, Expr.LiteralTables,
        Expr.collect, Expr.collectFields, Expr.tableLiteral])
    rfl rfl matchClear_checkedAmount rfl⟩

/-- **A callee's `let` is read from the caller's**: the claim is of three, the inlined match of
seven. -/
theorem inline_captures :
    inlineMatch claimContext.findRule "c"
      (.matchVariant (.call "size" [.ident "c"]) [.mk "Big" [some "w"] (.ident "w")]) =
        .ok (.ident "n") ∧
    evalExpr claimContext (evalRule claimContext 1) claimEnv
      (.matchVariant (.call "size" [.ident "c"]) [.mk "Big" [some "w"] (.ident "w")]) =
        .ok (.number 3) ∧
    evalExpr claimContext (evalRule claimContext 1) claimEnv (.ident "n") = .ok (.number 7) := by
  refine ⟨by rfl, by rfl, by rfl⟩

end Verbosec.Native
