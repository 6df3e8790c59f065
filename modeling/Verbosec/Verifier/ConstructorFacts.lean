import Verbosec.Interpreter.Fuel
import Verbosec.Verifier.ConstructorValues

/-!
# The types of constructed values, the facts

* `Delivers`, `Agrees` - the rules that yield their declared types, and the tables of the pass and
  of an evaluation.
* `construct_fact`, `construct_errors` - a constructor whose fact is known, or that has no errors,
  is given its declared fields.
* `walkArms_sound`, `describes_concat` - the facts of the arms of a `match` and of a concatenation.
* `walk_sound` - the fact of an expression describes its value.

Source: `constructor_types.rs`, `Checker::walk`.
-/

namespace Verbosec.ConstructorTypes

open Verbosec.Lib Verbosec.Interpreter

/-! ## Calls and tables -/

/-- A rule yields values of its declared output type on values of its declared input type. -/
def Delivers (concepts : Dict String Concept) (call : Rule → Value → Outcome Value) (r : Rule) :
    Prop :=
  ∀ v w, HasType concepts v r.inputTy → call r v = .ok w → HasType concepts w r.outputTy

/-- The tables of the pass and of an evaluation are those of one program, in which the payload
fields of a variant have distinct names and no concept has the name of a scalar type. -/
structure Agrees (chk : Checker) (ctx : Context) : Prop where
  rules : ctx.rules = chk.rules
  concepts : ∀ n c, ctx.concepts.find? (·.name = n) = some c → chk.concepts.lookup n = some c
  scalar : ∀ n c, chk.concepts.lookup n = some c → itemTy n = .named n
  payload : ∀ n c, chk.concepts.lookup n = some c → ∀ v ∈ c.variants, (v.fields.map (·.name)).Nodup

variable {chk : Checker} {ctx : Context} {call : Rule → Value → Outcome Value}

/-- The facts of an expression describe its values. -/
def WalkSound (chk : Checker) (ctx : Context) (call : Rule → Value → Outcome Value) (e : Expr) :
    Prop :=
  ∀ facts env v, Scoped chk.concepts facts env → evalExpr ctx call env e = .ok v →
    (walk chk facts e).fact.Describes chk.concepts v

/-! ## Constructors -/

section constructors

variable {facts : Facts} {env : Env} {label : String} {decl : List Field}

/-- An accepted assignment is new, declared, and fits its type. -/
lemma checkField_valid {seen : List String} {name : String} {value : Expr} {actual : Fact}
    (h : (chk.checkField facts label (some decl) seen name value actual).1 = true) :
    name ∉ seen ∧ ∃ d, decl.find? (·.name = name) = some d ∧ actual.fits d.ty := by
  simp only [Checker.checkField] at h
  split at h
  · rename_i d hd
    split at h
    · rename_i hfits
      exact ⟨by simpa using h, d, hd, hfits⟩
    · cases h
  · cases h

/-- A refused assignment is reported. -/
lemma checkField_errors (hreport : chk.reportObligations) {decl : Option (List Field)}
    {seen : List String} {name : String} {value : Expr} {actual : Fact}
    (h : (chk.checkField facts label decl seen name value actual).2 = []) :
    (chk.checkField facts label decl seen name value actual).1 = true := by
  have hduplicate : ∀ context message,
      (if name ∈ seen then chk.error context message else []) = [] → name ∉ seen := by
    intro context message heq hmem
    simp [hmem, Checker.error, hreport] at heq
  cases decl with
  | none => simpa [Checker.checkField] using hduplicate _ _ h
  | some decl =>
      simp only [Checker.checkField] at h ⊢
      split at h
      · split at h
        · rename_i hfits
          simpa [hfits] using hduplicate _ _ h
        · simp [Checker.error, hreport] at h
      · simp [Checker.error, hreport] at h

/-- The values of the assignments have the names of the assignments. -/
lemma map_fst_evalFields {fields : List (String × Expr)} : ∀ {vals : List (String × Value)},
    evalFields ctx call env fields = .ok vals → vals.map (·.1) = fields.map (·.1) := by
  induction fields with
  | nil =>
      intro vals h
      cases h
      rfl
  | cons p fields ih =>
      intro vals h
      obtain ⟨name, e⟩ := p
      rw [evalFields] at h
      obtain ⟨v, -, h⟩ := Except.bind_eq_ok.mp h
      obtain ⟨vs, hvs, h⟩ := Except.bind_eq_ok.mp h
      cases h
      rw [List.map_cons, List.map_cons, ih hvs]

/-- Accepted assignments are new and have their declared types. -/
lemma walkFields_valid (hscope : Scoped chk.concepts facts env) {fields : List (String × Expr)}
    (ih : ∀ p ∈ fields, WalkSound chk ctx call p.2) : ∀ {seen vals},
    (walkFields chk facts label (some decl) seen fields).valid = true →
    evalFields ctx call env fields = .ok vals →
    (∀ name ∈ vals.map (·.1), name ∉ seen) ∧ (vals.map (·.1)).Nodup ∧
      ∀ f ∈ vals, ∃ d, decl.find? (·.name = f.1) = some d ∧ HasType chk.concepts f.2 d.ty := by
  induction fields with
  | nil =>
      intro seen vals _ h
      cases h
      simp
  | cons p fields ihf =>
      intro seen vals hvalid h
      obtain ⟨name, e⟩ := p
      rw [evalFields] at h
      obtain ⟨v, hv, h⟩ := Except.bind_eq_ok.mp h
      obtain ⟨vs, hvs, h⟩ := Except.bind_eq_ok.mp h
      cases h
      simp only [walkFields, Bool.and_eq_true] at hvalid
      obtain ⟨hnew, d, hd, hfits⟩ := checkField_valid hvalid.1
      obtain ⟨hseen, hnodup, htyped⟩ :=
        ihf (fun p hp => ih p (List.mem_cons_of_mem _ hp)) hvalid.2 hvs
      have hdescribes := ih _ List.mem_cons_self facts env v hscope hv
      refine ⟨?_, ?_, ?_⟩
      · intro n hn
        rcases List.mem_cons.mp hn with rfl | hn
        · exact hnew
        · exact fun hmem => hseen n hn (List.mem_cons_of_mem _ hmem)
      · exact List.nodup_cons.mpr ⟨fun hmem => hseen name hmem List.mem_cons_self, hnodup⟩
      · intro f hf
        rcases List.mem_cons.mp hf with rfl | hf
        · exact ⟨d, hd, Fact.hasType_of_fits hfits hdescribes⟩
        · exact htyped f hf

/-- Without a report every assignment is accepted. -/
lemma walkFields_errors (hreport : chk.reportObligations) {decl : Option (List Field)}
    {fields : List (String × Expr)} : ∀ {seen},
    (walkFields chk facts label decl seen fields).errors = [] →
    (walkFields chk facts label decl seen fields).valid = true := by
  induction fields with
  | nil => exact fun _ => rfl
  | cons p fields ih =>
      intro seen h
      obtain ⟨name, e⟩ := p
      simp only [walkFields, List.append_eq_nil_iff, Bool.and_eq_true] at h ⊢
      exact ⟨checkField_errors hreport h.1.2, ih h.2⟩

/-- The names of an accepted constructor are the declared ones. -/
lemma fills_of_valid (hscope : Scoped chk.concepts facts env) {fields : List (String × Expr)}
    (ih : ∀ p ∈ fields, WalkSound chk ctx call p.2) {vals : List (String × Value)}
    (hvalid : (walkFields chk facts label (some decl) [] fields).valid = true)
    (hmissing : decl.filter (fun d => d.name ∉ fields.map (·.1)) = [])
    (h : evalFields ctx call env fields = .ok vals) : Fills chk.concepts decl vals := by
  obtain ⟨-, hnodup, htyped⟩ := walkFields_valid hscope ih hvalid h
  refine ⟨hnodup, fun name => ⟨fun hmem => ?_, fun hmem => ?_⟩, fun f hf d hd => ?_⟩
  · obtain ⟨f, hf, rfl⟩ := List.mem_map.mp hmem
    obtain ⟨d, hd, -⟩ := htyped f hf
    exact List.mem_map.mpr ⟨d, List.mem_of_find?_eq_some hd, by simpa using List.find?_some hd⟩
  · obtain ⟨d, hd, rfl⟩ := List.mem_map.mp hmem
    rw [map_fst_evalFields h]
    by_contra hnot
    have : d ∈ decl.filter (fun d => d.name ∉ fields.map (·.1)) :=
      List.mem_filter.mpr ⟨hd, by simpa using hnot⟩
    rw [hmissing] at this
    cases this
  · obtain ⟨d', hd', hty⟩ := htyped f hf
    rw [hd] at hd'
    cases hd'
    exact hty

lemma Fills.reverse {concepts : Dict String Concept} {vals : List (String × Value)}
    (h : Fills concepts decl vals) : Fills concepts decl vals.reverse := by
  refine ⟨?_, fun name => ?_, fun f hf => h.typed f (List.mem_reverse.mp hf)⟩
  · rw [List.map_reverse, List.nodup_reverse]
    exact h.once
  · rw [List.map_reverse, List.mem_reverse]
    exact h.names name

/-- Where the fact of a constructor is not unknown, its fields are filled as declared. -/
lemma construct_fact {n : String} {decl : Option (List Field)} {fields : List (String × Expr)}
    (hscope : Scoped chk.concepts facts env) (ih : ∀ p ∈ fields, WalkSound chk ctx call p.2)
    {vals : List (String × Value)} (h : evalFields ctx call env fields = .ok vals) :
    (chk.construct n label decl (fields.map (·.1))
        (walkFields chk facts label decl [] fields)).fact = .unknown ∨
      ((chk.construct n label decl (fields.map (·.1))
        (walkFields chk facts label decl [] fields)).fact = .known (.named n) ∧
      ∃ d, decl = some d ∧ Fills chk.concepts d vals) := by
  simp only [Checker.construct, Fact.produced]
  split
  · rename_i hvalid
    simp only [Bool.and_eq_true, Option.isSome_iff_exists] at hvalid
    obtain ⟨⟨⟨d, rfl⟩, hfields⟩, hmissing⟩ := hvalid
    exact .inr ⟨rfl, d, rfl, fills_of_valid hscope ih hfields (by simpa using hmissing) h⟩
  · exact .inl rfl

/-- A constructor without errors is filled as declared. -/
lemma construct_errors (hreport : chk.reportObligations) {n : String} {decl : Option (List Field)}
    {fields : List (String × Expr)} (hscope : Scoped chk.concepts facts env)
    (ih : ∀ p ∈ fields, WalkSound chk ctx call p.2) {vals : List (String × Value)}
    (herrors : (chk.construct n label decl (fields.map (·.1))
      (walkFields chk facts label decl [] fields)).errors = [])
    (h : evalFields ctx call env fields = .ok vals) :
    ∃ d, decl = some d ∧ Fills chk.concepts d vals := by
  simp only [Checker.construct, List.append_eq_nil_iff] at herrors
  obtain ⟨⟨hdecl, hfields⟩, hmissing⟩ := herrors
  cases decl with
  | none => simp [Checker.error, hreport] at hdecl
  | some d =>
      refine ⟨d, rfl, fills_of_valid hscope ih (walkFields_errors hreport hfields) ?_ h⟩
      simpa [Checker.error, hreport] using hmissing

end constructors

/-! ## Arms -/

section arms

variable {facts : Facts} {env env' : Env}

/-- The binders of an arm hold the payload fields, whatever the pass knows of them. -/
lemma bindPayload_unknown {concepts : Dict String Concept} {n v : String}
    {fields : List (String × Value)} {binders : List (Option String)} : ∀ {decl facts env},
    Scoped concepts facts env → bindPayload n v fields binders decl env = .ok env' →
    Scoped concepts (bindFacts binders [] facts) env' ∨ binders.length ≠ decl.length := by
  induction binders with
  | nil =>
      intro decl facts env hscope h
      cases h
      exact .inl hscope
  | cons b binders ih =>
      intro decl facts env hscope h
      cases decl with
      | nil => exact .inr (by simp)
      | cons f decl =>
          have hlength : binders.length ≠ decl.length →
              (b :: binders).length ≠ (f :: decl).length := by simp
          cases b with
          | none => exact (ih hscope h).imp id hlength
          | some name =>
              simp only [bindPayload] at h
              split at h
              · exact (ih (hscope.insert Fact.describes_unknown name) h).imp id hlength
              · cases h

/-- The binders of an arm hold the payload fields, of their declared types. -/
lemma bindPayload_scoped {concepts : Dict String Concept} {n v : String}
    {fields : List (String × Value)} {binders : List (Option String)} : ∀ {decl facts env},
    (∀ f ∈ decl, ∀ w, fields.lookup f.name = some w → HasType concepts w f.ty) →
    binders.length = decl.length →
    Scoped concepts facts env → bindPayload n v fields binders decl env = .ok env' →
    Scoped concepts (bindFacts binders decl facts) env' := by
  induction binders with
  | nil =>
      intro decl facts env _ _ hscope h
      cases h
      exact hscope
  | cons b binders ih =>
      intro decl facts env hdecl hlength hscope h
      cases decl with
      | nil => cases hlength
      | cons f decl =>
          have hlength' : binders.length = decl.length := Nat.succ.inj hlength
          have hdecl' := fun g hg => hdecl g (List.mem_cons_of_mem f hg)
          cases b with
          | none => exact ih hdecl' hlength' hscope h
          | some name =>
              simp only [bindPayload] at h
              split at h
              · rename_i w hw
                have hw' := Fact.describes_fromType (hdecl f List.mem_cons_self w hw)
                exact ih hdecl' hlength' (hscope.insert hw' name) h
              · cases h

/-- The scope of the selected arm is described by its facts. -/
lemma bindArm_scoped (hagrees : Agrees chk ctx) {fact : Fact} {n v : String}
    {fields : List (String × Value)} (hfact : fact.Describes chk.concepts (.variant n v fields))
    {binders : List (Option String)} (hscope : Scoped chk.concepts facts env)
    (h : bindArm ctx n v fields binders env = .ok env') :
    Scoped chk.concepts (bindFacts binders ((((chk.scrutinee fact).bind fun c =>
      c.variants.find? (·.name = v)).map (·.fields)).getD []) facts) env' := by
  rw [bindArm] at h
  split at h
  · cases h
  · rename_i c hc
    split at h
    · cases h
    · rename_i decl hdecl
      split at h
      · cases h
      · rename_i hlength
        rw [not_not] at hlength
        have hunknown := (bindPayload_unknown hscope h).resolve_right (not_not.mpr hlength)
        cases fact with
        | known t =>
            cases hfact with
            | variant hvariant once names typed =>
                have hlookup := hagrees.concepts n c hc
                have hfields : ∀ f ∈ decl.fields, ∀ w, fields.lookup f.name = some w →
                    HasType chk.concepts w f.ty := by
                  intro f hf w hw
                  have hdistinct :=
                    hagrees.payload n c hlookup decl (List.mem_of_find?_eq_some hdecl)
                  refine typed _ (Dict.mem_of_lookup hw) f ?_
                  simp only [Checker.variantDecl, hlookup, Option.bind_some, hdecl,
                    Option.map_some, Option.some.injEq] at hvariant
                  subst hvariant
                  exact find?_of_nodup Field.name hdistinct hf
                have hscrutinee : chk.scrutinee (.known (.named n)) = some c := hlookup
                rw [hscrutinee, Option.bind_some, hdecl]
                exact bindPayload_scoped hfields hlength hscope h
        | _ => exact hunknown

/-- The joined fact of the arms describes what the arms before describe. -/
lemma walkArms_result {concept : Option Concept} {v : Value} {arms : List MatchArm} :
    ∀ {seen r}, r.Describes chk.concepts v →
    ∃ f, (walkArms chk facts concept seen (some r) arms).fact = some f ∧
      f.Describes chk.concepts v := by
  induction arms with
  | nil => exact fun h => ⟨_, rfl, h⟩
  | cons arm arms ih =>
      intro seen r h
      cases arm with
      | mk name binders body =>
          rw [walkArms]
          exact ih (Fact.describes_join (.inl h))

/-- The joined fact of the arms describes the value of the selected arm. -/
lemma walkArms_sound (hagrees : Agrees chk ctx) {fact : Fact} {n v : String}
    {fields : List (String × Value)} (hfact : fact.Describes chk.concepts (.variant n v fields))
    (hscope : Scoped chk.concepts facts env) {w : Value} {arms : List MatchArm}
    (ih : ∀ arm ∈ arms, WalkSound chk ctx call arm.body) : ∀ {seen result},
    evalArms ctx call env n v fields arms = .ok w →
    ∃ f, (walkArms chk facts (chk.scrutinee fact) seen result arms).fact = some f ∧
      f.Describes chk.concepts w := by
  induction arms with
  | nil =>
      intro seen result h
      cases h
  | cons arm arms iha =>
      intro seen result h
      cases arm with
      | mk name binders body =>
          rw [walkArms]
          rw [evalArms] at h
          split at h
          · rename_i hname
            subst hname
            obtain ⟨armEnv, harm, h⟩ := Except.bind_eq_ok.mp h
            have hbody := ih _ List.mem_cons_self _ _ w (bindArm_scoped hagrees hfact hscope harm) h
            refine walkArms_result ?_
            cases result with
            | none => exact hbody
            | some r => exact Fact.describes_join (.inr hbody)
          · exact iha (fun arm ha => ih arm (List.mem_cons_of_mem _ ha)) h

end arms

/-! ## Facts -/

/-- The values of a traversal are described where each is. -/
lemma describes_mapM {concepts : Dict String Concept} {f : Fact} {g : Value → Outcome Value}
    {items out : List Value} (h : items.mapM g = .ok out)
    (hg : ∀ x ∈ items, ∀ y, g x = .ok y → f.Describes concepts y) :
    ∀ y ∈ out, f.Describes concepts y := by
  intro y hy
  obtain ⟨x, hx, hxy⟩ := Except.mem_of_mapM_eq_ok h hy
  exact hg x hx y hxy

/-- The kept items are among the items. -/
lemma filterItems_subset {p : Value → Outcome Value} {items : List Value} : ∀ {out},
    filterItems p items = .ok out → out ⊆ items := by
  induction items with
  | nil =>
      intro out h
      cases h
      exact List.Subset.refl _
  | cons x items ih =>
      intro out h
      obtain ⟨b, -, h⟩ := Except.bind_eq_ok.mp h
      cases b with
      | bool keep =>
          obtain ⟨rest, hrest, h⟩ := Except.bind_eq_ok.mp h
          cases h
          have hsub := ih hrest
          cases keep with
          | true => exact List.cons_subset_cons _ hsub
          | false => exact fun y hy => List.mem_cons_of_mem _ (hsub hy)
      | _ => cases h

/-- What every step keeps holds of the accumulator at the end. -/
lemma foldlM_keeps {P : Value → Prop} {step : Value → Value → Outcome Value} {items : List Value} :
    ∀ {a b}, (∀ x ∈ items, ∀ a c, P a → step a x = .ok c → P c) → P a →
    items.foldlM step a = .ok b → P b := by
  induction items with
  | nil =>
      intro a b _ ha h
      cases h
      exact ha
  | cons x items ih =>
      intro a b hstep ha h
      rw [List.foldlM_cons] at h
      obtain ⟨c, hc, h⟩ := Except.bind_eq_ok.mp h
      exact ih (fun y hy => hstep y (List.mem_cons_of_mem _ hy))
        (hstep x List.mem_cons_self a c ha hc) h

lemma expectList_eq_ok {need : String} {v : Value} {items : List Value}
    (h : expectList need v = .ok items) : v = .list items := by
  cases v <;> cases h
  rfl

/-- The fact of a field describes its value. -/
lemma fieldFact_sound {base : Fact} {fields : List (String × Value)} {name : String} {v : Value}
    (hbase : base.Describes chk.concepts (.record fields)) (hv : fields.lookup name = some v) :
    (chk.fieldFact base name).Describes chk.concepts v := by
  cases base with
  | known t =>
      cases hbase with
      | @record n decl _ hdecl once names typed =>
          simp only [Checker.fieldFact]
          split
          · rename_i f hf
            obtain ⟨c, hc, hdecl⟩ := Option.bind_eq_some_iff.mp hdecl
            obtain ⟨-, hdecl⟩ := Option.ite_none_right_eq_some.mp hdecl
            cases hdecl
            rw [hc, Option.bind_some] at hf
            exact Fact.describes_fromType (typed _ (Dict.mem_of_lookup hv) f hf)
          · exact Fact.describes_unknown
  | _ => exact Fact.describes_unknown

/-- The fact of a collection describes its parts. -/
lemma describes_sublist {concepts : Dict String Concept} {f : Fact} {items out : List Value}
    (h : f.Describes concepts (.list items)) (hsub : out ⊆ items) :
    f.Describes concepts (.list out) := by
  cases f with
  | known t =>
      cases h with
      | collection hitems => exact .collection fun v hv => hitems v (hsub hv)
  | unknown => exact Fact.describes_unknown
  | _ => exact h.elim

/-- The arguments of a concatenation are described one by one. -/
lemma walkArgs_describes {facts : Facts} {env : Env} (hscope : Scoped chk.concepts facts env)
    {args : List Expr} (ih : ∀ e ∈ args, WalkSound chk ctx call e) : ∀ {vs},
    evalArgs ctx call env args = .ok vs →
    List.Forall₂ (fun w v => w.Describes chk.concepts v)
      ((walkArgs chk facts args).map (·.fact)) vs := by
  induction args with
  | nil =>
      intro vs h
      cases h
      exact .nil
  | cons e args iha =>
      intro vs h
      rw [evalArgs] at h
      obtain ⟨v, hv, h⟩ := Except.bind_eq_ok.mp h
      obtain ⟨vs, hvs, h⟩ := Except.bind_eq_ok.mp h
      cases h
      exact .cons (ih e List.mem_cons_self facts env v hscope hv)
        (iha (fun e he => ih e (List.mem_cons_of_mem _ he)) hvs)

/-- Only bytes have the type of bytes. -/
lemma isBytes_eq {concepts : Dict String Concept} {v : Value} {t : Ty}
    (h : HasType concepts v t) : v.isBytes = decide (t = .bytes) := by
  cases h <;> rfl

/-- Bytes among the facts are bytes among the values. -/
lemma any_isBytes {concepts : Dict String Concept} {args : List Fact} {vs : List Value}
    (h : List.Forall₂ (fun w v => w.Describes concepts v) args vs)
    (hbytes : args.any (·.fits .bytes) = true) : vs.any (·.isBytes) = true := by
  induction h with
  | nil => cases hbytes
  | cons hv _ ih =>
      rw [List.any_cons, Bool.or_eq_true] at hbytes ⊢
      refine hbytes.imp (fun hfits => ?_) ih
      simp [isBytes_eq (Fact.hasType_of_fits hfits hv)]

/-- Where all facts are of scalars that a text renders, no value is bytes. -/
lemma not_any_isBytes {concepts : Dict String Concept} {args : List Fact} {vs : List Value}
    (h : List.Forall₂ (fun w v => w.Describes concepts v) args vs)
    (hall : (args.all fun a => a.fits .number || a.fits .bool || a.fits .text) = true) :
    vs.any (·.isBytes) = false := by
  induction h with
  | nil => rfl
  | cons hv _ ih =>
      simp only [List.all_cons, Bool.and_eq_true, Bool.or_eq_true] at hall
      rw [List.any_cons, ih hall.2, Bool.or_false]
      rcases hall.1 with (hfits | hfits) | hfits <;>
        simp [isBytes_eq (Fact.hasType_of_fits hfits hv)]

/-- The fact of a concatenation describes its value. -/
lemma describes_concat {concepts : Dict String Concept} {args : List Fact} {vs : List Value}
    (h : List.Forall₂ (fun w v => w.Describes concepts v) args vs) {v : Value}
    (hv : concatValues vs = .ok v) : (Fact.concat args).Describes concepts v := by
  have hty : HasType concepts v (if vs.any (·.isBytes) then .bytes else .text) :=
    hasType_concatValues hv
  by_cases hbytes : args.any (·.fits .bytes) = true
  · simp only [Fact.concat, hbytes, if_true]
    exact Fact.describes_produced _ (by simpa [any_isBytes h hbytes] using hty)
  · simp only [Fact.concat, hbytes, if_false, Bool.false_eq_true]
    rw [Fact.produced]
    split
    · rename_i hall
      exact Fact.describes_fromType (by simpa [not_any_isBytes h hall] using hty)
    · exact Fact.describes_unknown

/-! ## The walk -/

/-- **The fact of an expression describes its value**, where the called rules deliver their declared
types. -/
theorem walk_sound (hagrees : Agrees chk ctx) (e : Expr)
    (hcalls : ∀ name ∈ e.calls, ∀ callee, ctx.findRule name = some callee →
      Delivers chk.concepts call callee) : WalkSound chk ctx call e := by
  induction e using Expr.induction_children with
  | step e ih =>
      intro facts env v hscope h
      replace ih : ∀ c ∈ e.children, WalkSound chk ctx call c := fun c hc =>
        ih c hc fun n hn => hcalls n (Interpreter.Expr.calls_subset_of_mem_children hc hn)
      cases hty : resultTy e with
      | some t =>
          rcases walk_of_resultTy chk facts hty with hfact | hfact <;> rw [hfact]
          · exact Fact.describes_fromType (hasType_of_resultTy _ ctx call env hty h)
          · exact Fact.describes_unknown
      | none =>
          cases e <;> simp only [resultTy, reduceCtorEq] at hty <;>
            simp only [evalExpr] at h <;> simp only [Expr.children] at ih
          case ident name =>
            split at h
            · cases h
              exact hscope _ _ ‹_›
            · cases h
          case field base name =>
            obtain ⟨w, hw, h⟩ := Except.bind_eq_ok.mp h
            have hbase := ih base (by simp) facts env w hscope hw
            cases w with
            | record fields =>
                dsimp only at h
                split at h
                · rename_i u hu
                  cases h
                  exact fieldFact_sound hbase hu
                · cases h
            | _ => cases h
          case record n fields =>
            obtain ⟨vals, hvals, h⟩ := Except.bind_eq_ok.mp h
            cases h
            have ih' : ∀ p ∈ fields, WalkSound chk ctx call p.2 := fun p hp =>
              ih p.2 (List.mem_map_of_mem hp)
            rcases construct_fact hscope ih' hvals with hfact | ⟨hfact, d, hd, hfills⟩ <;>
              rw [walk, hfact]
            · exact Fact.describes_unknown
            · have hrev := hfills.reverse
              exact .record hd hrev.once hrev.names hrev.typed
          case variantConstruct n variant fields =>
            obtain ⟨vals, hvals, h⟩ := Except.bind_eq_ok.mp h
            cases h
            have ih' : ∀ p ∈ fields, WalkSound chk ctx call p.2 := fun p hp =>
              ih p.2 (List.mem_map_of_mem hp)
            rcases construct_fact hscope ih' hvals with hfact | ⟨hfact, d, hd, hfills⟩ <;>
              rw [walk, hfact]
            · exact Fact.describes_unknown
            · have hrev := hfills.reverse
              exact .variant hd hrev.once hrev.names hrev.typed
          case call name args =>
            split at h
            · cases h
            · rename_i r hr
              split at h
              · rename_i arg
                obtain ⟨w, hw, h⟩ := Except.bind_eq_ok.mp h
                have harg := ih arg (by simp) facts env w hscope hw
                have hdelivers := hcalls name (by simp [Expr.calls, Expr.collect]) r hr
                have hfind : chk.rules.find? (·.name = name) = some r := hagrees.rules ▸ hr
                simp only [walk, walkArgs, Walked.strict, List.map_cons, List.map_nil,
                  Checker.callFact, hfind, Fact.produced]
                split
                · rename_i hfits
                  exact Fact.describes_fromType
                    (hdelivers w v (Fact.hasType_of_fits hfits harg) h)
                · exact Fact.describes_unknown
              · cases h
          case ite c yes no =>
            obtain ⟨w, -, h⟩ := Except.bind_eq_ok.mp h
            simp only [walk, Walked.strict, Fact.branch]
            split
            · refine Fact.describes_join ?_
              cases w with
              | bool b =>
                  cases b with
                  | true => exact .inl (ih yes (by simp) facts env v hscope h)
                  | false => exact .inr (ih no (by simp) facts env v hscope h)
              | _ => cases h
            · exact Fact.describes_unknown
          case ok inner =>
            obtain ⟨w, hw, h⟩ := Except.bind_eq_ok.mp h
            cases h
            exact ih inner (by simp) facts env w hscope hw
          case err inner =>
            obtain ⟨w, hw, h⟩ := Except.bind_eq_ok.mp h
            cases h
            exact ih inner (by simp) facts env w hscope hw
          case matchResult target ok yes err no =>
            obtain ⟨w, hw, h⟩ := Except.bind_eq_ok.mp h
            have htarget := ih target (by simp) facts env w hscope hw
            simp only [walk, Walked.strict]
            split
            · refine Fact.describes_join ?_
              cases w with
              | ok u =>
                  exact .inl (ih yes (by simp) _ _ v
                    (hscope.insert (Fact.describes_payload_ok htarget) ok) h)
              | err u =>
                  exact .inr (ih no (by simp) _ _ v
                    (hscope.insert (Fact.describes_payload_err htarget) err) h)
              | _ => cases h
            · exact Fact.describes_unknown
          case matchVariant target arms =>
            obtain ⟨w, hw, h⟩ := Except.bind_eq_ok.mp h
            have htarget := ih target (by simp) facts env w hscope hw
            simp only [walk]
            split
            · cases w with
              | variant n variant fields =>
                  have ih' : ∀ arm ∈ arms, WalkSound chk ctx call arm.body := fun arm ha =>
                    ih arm.body (List.mem_cons_of_mem _ (List.mem_map_of_mem ha))
                  obtain ⟨f, hf, hdescribes⟩ : ∃ f, (walkArms chk facts
                      (chk.scrutinee (walk chk facts target).fact) [] none arms).fact = some f ∧
                      f.Describes chk.concepts v :=
                    walkArms_sound hagrees htarget hscope ih' h
                  rw [hf]
                  exact hdescribes
              | _ => cases h
            · exact Fact.describes_unknown
          case map coll var body =>
            obtain ⟨w, hw, h⟩ := Except.bind_eq_ok.mp h
            obtain ⟨items, hitems, h⟩ := Except.bind_eq_ok.mp h
            obtain ⟨out, hout, h⟩ := Except.bind_eq_ok.mp h
            cases h
            obtain rfl := expectList_eq_ok hitems
            have hcoll := ih coll (by simp) facts env _ hscope hw
            simp only [walk, Walked.strict]
            split
            · exact Fact.describes_unknown
            · refine Fact.describes_collection hagrees.scalar
                (describes_mapM hout fun x hx y hy => ?_)
              exact ih body (by simp) _ _ y
                (hscope.insert (Fact.describes_element hcoll x hx) var) hy
          case filter coll var pred =>
            obtain ⟨w, hw, h⟩ := Except.bind_eq_ok.mp h
            obtain ⟨items, hitems, h⟩ := Except.bind_eq_ok.mp h
            obtain ⟨out, hout, h⟩ := Except.bind_eq_ok.mp h
            cases h
            obtain rfl := expectList_eq_ok hitems
            have hcoll := ih coll (by simp) facts env _ hscope hw
            simp only [walk, Walked.strict]
            split
            · exact Fact.describes_unknown
            · split
              · exact describes_sublist hcoll (filterItems_subset hout)
              · exact Fact.describes_unknown
          case fold coll init acc item body =>
            obtain ⟨w, hw, hrest⟩ := Except.bind_eq_ok.mp h
            obtain ⟨items, hitems, hrest⟩ := Except.bind_eq_ok.mp hrest
            obtain ⟨a, ha, hfold⟩ := Except.bind_eq_ok.mp hrest
            obtain rfl := expectList_eq_ok hitems
            have hcoll := ih coll (by simp) facts env _ hscope hw
            have hinit := ih init (by simp) facts env _ hscope ha
            simp only [walk, Fact.folded]
            split
            · exact Fact.describes_unknown
            · rename_i hsame
              rw [not_or, not_not] at hsame
              refine Fact.describes_join
                (.inl (foldlM_keeps (fun x hx b c hb hc => ?_) hinit hfold))
              rw [← hsame.2]
              exact ih body (by simp) _ _ c
                ((hscope.insert hb acc).insert (Fact.describes_element hcoll x hx) item) hc
          case arenaScope inner =>
            simp only [walk, Walked.strict]
            split
            · exact ih inner (by simp) facts env v hscope h
            · exact Fact.describes_unknown
          case concat args =>
            obtain ⟨vs, hvs, h⟩ := Except.bind_eq_ok.mp h
            simp only [walk, Walked.strict]
            exact describes_concat (walkArgs_describes hscope ih hvs) h

end Verbosec.ConstructorTypes
