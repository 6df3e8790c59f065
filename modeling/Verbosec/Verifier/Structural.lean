import Verbosec.Interpreter.Calls
import Verbosec.Verifier.Facts

/-!
# Structural recursion

* `collectRecursiveCallArgs` - the arguments of the self-calls of an expression.
* `checkStructuralRecursion`, `structuralErrors` - each of them is spelled like a field of a variant
  that holds a tree of the same concept.
* `payloadSite`, `PayloadCalls` - each self-call is on a payload of the input, by the scopes of the
  names, and the `let`s spell an identifier there as the value does.
* `structural_terminates` - a rule that satisfies both makes self-calls on payloads of its input
  only, and ends on every input when the other rules do.
* `structural_diverges` - the spelling alone does not suffice.

Source: `verifier.rs`, `check_structural_recursion`, `collect_recursive_call_args`.
-/

namespace Verbosec

open Verbosec.Interpreter

namespace Expr

/-! ## The arguments of self-calls -/

/-- The description of an argument: its name, or none where it is no identifier. The source has a
text in angle brackets there, which no field is named. -/
def argName : Expr → Option String
  | ident n => some n
  | _ => none

mutual

/-- The arguments of the calls of a rule. Source: `verifier.rs`, `collect_recursive_call_args` -/
def collectRecursiveCallArgs (rule : String) : Expr → List (Option String)
  | number _ | text _ | bytes _ | ident _ | read _ | random _ | nowUnix => []
  | field a _ | not a | neg a | ok a | err a | abs a | length a | parseInt a | jsonEscape a
  | bitNot a | le32 a | le64 a | arenaScope a | abortIf a | fetch _ a =>
      collectRecursiveCallArgs rule a
  | binary _ a b | bitAnd a b | bitOr a b | bitXor a b | shl a b | shr a b | startsWith a b
  | contains a b | endsWith a b | min a b | max a b | byteAt a b | tryByteAt a b
  | quantifier _ a _ b | map a _ b | filter a _ b =>
      collectRecursiveCallArgs rule a ++ collectRecursiveCallArgs rule b
  | ite a b c | fold a b _ _ c | foldBytes a b _ _ _ c | matchResult a _ b _ c | substring a b c =>
      collectRecursiveCallArgs rule a ++ collectRecursiveCallArgs rule b ++
        collectRecursiveCallArgs rule c
  | call name args =>
      if name = rule then args.head?.toList.map argName else collectRecursiveListArgs rule args
  | concat args => collectRecursiveListArgs rule args
  | record _ fields | variantConstruct _ _ fields => collectRecursiveFieldsArgs rule fields
  | matchVariant a arms => collectRecursiveCallArgs rule a ++ collectRecursiveArmsArgs rule arms

/-- `collectRecursiveCallArgs` over the arguments of a call or a `concat`. -/
def collectRecursiveListArgs (rule : String) : List Expr → List (Option String)
  | [] => []
  | e :: es => collectRecursiveCallArgs rule e ++ collectRecursiveListArgs rule es

/-- `collectRecursiveCallArgs` over the assignments of a constructor. -/
def collectRecursiveFieldsArgs (rule : String) : List (String × Expr) → List (Option String)
  | [] => []
  | (_, e) :: fields => collectRecursiveCallArgs rule e ++ collectRecursiveFieldsArgs rule fields

/-- `collectRecursiveCallArgs` over the arms of a `match`. -/
def collectRecursiveArmsArgs (rule : String) : List MatchArm → List (Option String)
  | [] => []
  | .mk _ _ body :: arms => collectRecursiveCallArgs rule body ++ collectRecursiveArmsArgs rule arms

end

end Expr

namespace Verifier

/-! ## The check -/

/-- The payload fields that hold a tree of the same concept. Source: `verifier.rs`,
`check_structural_recursion` -/
def selfRefFields (c : Concept) : List String :=
  c.variants.flatMap fun v => (v.fields.filter (·.ty = .named c.name)).map (·.name)

/-- The check of a declared structural recursion. Source: `verifier.rs`,
`check_structural_recursion` -/
def checkStructuralRecursion (p : Program) (r : Rule) (param : String) : List VerifyError :=
  let context := "rule '" ++ r.name ++ "' / termination.structural"
  if param ≠ r.inputName then
    [⟨context, "structural recursion parameter '" ++ param ++
      "' must be the rule's input name '" ++ r.inputName ++ "' (Phase C slice 1 scope)"⟩]
  else
    match r.inputTy with
    | .named name =>
        if name ∉ (groupConcepts p).map (·.2.name) then
          [⟨context, "structural recursion requires concept '" ++ name ++
            "' to be inside a concept_group (Phase C slice 1 scope)"⟩]
        else
          match p.concepts.find? (·.name = name) with
          | none => []
          | some c =>
              (r.logic.value.collectRecursiveCallArgs r.name).filterMap fun arg =>
                if arg.any (· ∈ selfRefFields c) then none
                else
                  some ⟨context, "recursive call to '" ++ r.name ++ "' passes argument '" ++
                    arg.getD "<non-ident>" ++ "' which is not a structural subfield of concept '" ++
                    name ++ "'. Structural recursion requires every recursive call to pass a " ++
                    "binder that corresponds to a self-referential variant field"⟩
    | _ => [⟨context, "structural recursion requires the input to be a named concept"⟩]

/-- The structural recursion errors of a program. Source: `verifier.rs`, `check_termination` -/
def structuralErrors (p : Program) : List VerifyError :=
  p.rules.flatMap fun r =>
    match r.proofs.termination.structural with
    | some param => checkStructuralRecursion p r param
    | none => []

/-- Without a report, and with the input's concept declared, every self-call of the value is on an
identifier. -/
lemma isSome_of_structuralErrors {p : Program} (h : structuralErrors p = []) {r : Rule}
    (hr : r ∈ p.rules) {param : String} (hparam : r.proofs.termination.structural = some param) :
    ∀ arg ∈ r.logic.value.collectRecursiveCallArgs r.name, arg.isSome := by
  unfold structuralErrors at h
  have hrule := List.flatMap_eq_nil_iff.mp h r hr
  simp only [hparam, checkStructuralRecursion] at hrule
  split at hrule
  · cases hrule
  · split at hrule
    · split at hrule
      · cases hrule
      · rename_i name hty hgroup
        obtain ⟨⟨group, c⟩, hc, rfl⟩ := List.mem_map.mp (not_not.mp hgroup)
        have hdeclared : c ∈ p.concepts := by
          rw [(concepts_perm p).mem_iff]
          exact List.mem_append_right _ (List.mem_map.mpr ⟨_, hc, rfl⟩)
        cases hfind : p.concepts.find? (·.name = c.name) with
        | none =>
            have := List.find?_eq_none.mp hfind c hdeclared
            simp at this
        | some c' =>
            simp only [hfind, List.filterMap_eq_nil_iff] at hrule
            intro arg harg
            have := hrule arg harg
            cases arg with
            | none => simp at this
            | some n => rfl
    · cases hrule

/-! ## Calls on payloads -/

/-- A call of the rule is on a name that stands for a payload of the input; with `other`, also where
the argument is no identifier. -/
def payloadSite (rule : String) (other : Bool) (s : Scope) (name : String) (args : List Expr) : Bool :=
  name ≠ rule ||
    match args with
    | [.ident n] => n ∈ s.strict
    | [_] => other
    | _ => true

/-- The self-calls of the `let`s are on payloads of the input, and those of the value on an
identifier are. -/
def PayloadCalls (r : Rule) : Bool :=
  allSitesBindings (payloadSite r.name false) (.ofRule r) r.logic.bindings &&
    r.logic.value.allSites (payloadSite r.name true)
      ((Scope.ofRule r).afterBindings r.logic.bindings)

/-- A self-call on an identifier, where all of them are. -/
lemma payloadSite_of_isSome {rule name : String} {s : Scope} {args : List Expr}
    (hargs : name = rule → ∀ arg ∈ args.head?.toList.map Expr.argName, arg.isSome)
    (h : payloadSite rule true s name args) : payloadSite rule false s name args := by
  unfold payloadSite at h ⊢
  by_cases hname : name = rule
  · simp only [hname, ne_eq, not_true_eq_false, decide_false, Bool.false_or] at h ⊢
    rcases args with _ | ⟨a, _ | ⟨b, rest⟩⟩
    · rfl
    · have ha := hargs hname a.argName (by simp)
      cases a <;> simp_all [Expr.argName]
    · cases a <;> rfl
  · simp [hname]

/-- The argument of a self-call is an identifier and contains no call. -/
lemma allSitesList_of_isSome {site : Scope → String → List Expr → Bool} {s : Scope} :
    ∀ args : List Expr, (∀ arg ∈ args.head?.toList.map Expr.argName, arg.isSome) →
      (decide (args.length ≠ 1) || Expr.allSitesList site s args)
  | [], _ => rfl
  | [a], hargs => by
      have ha : a.argName.isSome := hargs a.argName (List.mem_singleton.mpr rfl)
      cases a
      case ident => rfl
      all_goals exact absurd ha (by simp [Expr.argName])
  | _ :: _ :: _, _ => by simp

/-- The value makes its self-calls on payloads, where it makes them on identifiers. -/
lemma allSites_of_isSome {rule : String} (e : Expr) : ∀ s : Scope,
    (∀ arg ∈ e.collectRecursiveCallArgs rule, arg.isSome) → e.allSites (payloadSite rule true) s →
      e.allSites (payloadSite rule false) s := by
  induction e using Expr.induction_children with
  | step e ih =>
      intro s hargs h
      have hlist : ∀ es : List Expr, (∀ c ∈ es, c ∈ e.children) →
          (∀ arg ∈ Expr.collectRecursiveListArgs rule es, arg.isSome) →
            Expr.allSitesList (payloadSite rule true) s es →
              Expr.allSitesList (payloadSite rule false) s es := by
        intro es
        induction es with
        | nil => exact fun _ _ _ => rfl
        | cons c es ihs =>
            intro hchild hargs h
            simp only [Expr.collectRecursiveListArgs, List.mem_append, or_imp, forall_and,
              Expr.allSitesList, Bool.and_eq_true] at hargs h ⊢
            exact ⟨ih c (hchild c (by simp)) s hargs.1 h.1,
              ihs (fun c hc => hchild c (by simp [hc])) hargs.2 h.2⟩
      have hfields : ∀ fs : List (String × Expr), (∀ c ∈ fs.map (·.2), c ∈ e.children) →
          (∀ arg ∈ Expr.collectRecursiveFieldsArgs rule fs, arg.isSome) →
            Expr.allSitesFields (payloadSite rule true) s fs →
              Expr.allSitesFields (payloadSite rule false) s fs := by
        intro fs
        induction fs with
        | nil => exact fun _ _ _ => rfl
        | cons f fs ihs =>
            obtain ⟨name, c⟩ := f
            intro hchild hargs h
            simp only [Expr.collectRecursiveFieldsArgs, List.mem_append, or_imp, forall_and,
              Expr.allSitesFields, Bool.and_eq_true] at hargs h ⊢
            exact ⟨ih c (hchild c (by simp)) s hargs.1 h.1,
              ihs (fun c hc => hchild c (List.mem_cons_of_mem _ hc)) hargs.2 h.2⟩
      have harms : ∀ (scrutinee : Expr) (arms : List MatchArm),
          (∀ c ∈ arms.map (·.body), c ∈ e.children) →
            (∀ arg ∈ Expr.collectRecursiveArmsArgs rule arms, arg.isSome) →
              Expr.allSitesArms (payloadSite rule true) s scrutinee arms →
                Expr.allSitesArms (payloadSite rule false) s scrutinee arms := by
        intro scrutinee arms
        induction arms with
        | nil => exact fun _ _ _ => rfl
        | cons a arms ihs =>
            obtain ⟨name, binders, body⟩ := a
            intro hchild hargs h
            simp only [Expr.collectRecursiveArmsArgs, List.mem_append, or_imp, forall_and,
              Expr.allSitesArms, Bool.and_eq_true] at hargs h ⊢
            exact ⟨ih body (hchild body (by simp [MatchArm.body])) _ hargs.1 h.1,
              ihs (fun c hc => hchild c (List.mem_cons_of_mem _ hc)) hargs.2 h.2⟩
      cases e <;> simp only [Expr.collectRecursiveCallArgs, List.mem_append, or_imp, forall_and,
        Expr.allSites, Bool.and_eq_true] at hargs h ⊢
      case call n args =>
        by_cases hn : n = rule
        · rw [if_pos hn] at hargs
          exact ⟨payloadSite_of_isSome (fun _ => hargs) h.1, allSitesList_of_isSome args hargs⟩
        · rw [if_neg hn] at hargs
          refine ⟨by simp [payloadSite, hn], ?_⟩
          by_cases hone : args.length = 1
          · simp only [hone, ne_eq, not_true_eq_false, decide_false, Bool.false_or] at h ⊢
            exact hlist args (fun c hc => hc) hargs h.2
          · simp [hone]
      case concat args => exact hlist args (fun c hc => hc) hargs h
      case record n fs => exact hfields fs (fun c hc => hc) hargs h
      case variantConstruct n v fs => exact hfields fs (fun c hc => hc) hargs h
      case matchVariant a arms =>
        exact ⟨ih a (by simp [Expr.children]) s hargs.1 h.1,
          harms a arms (fun c hc => List.mem_cons_of_mem _ hc) hargs.2 h.2⟩
      all_goals
        first
        | exact ih _ (by simp [Expr.children]) _ hargs h
        | exact ⟨ih _ (by simp [Expr.children]) _ hargs.1 h.1,
            ih _ (by simp [Expr.children]) _ hargs.2 h.2⟩
        | exact ⟨⟨ih _ (by simp [Expr.children]) _ hargs.1.1 h.1.1,
            ih _ (by simp [Expr.children]) _ hargs.1.2 h.1.2⟩,
            ih _ (by simp [Expr.children]) _ hargs.2 h.2⟩

end Verifier

/-! ## Termination -/

namespace Interpreter

open Verifier

/-- The outcome of a rule with enough fuel, where there is some. -/
noncomputable def limitCall (ctx : Context) : Calls := fun r v =>
  open Classical in
  if h : ∃ fuel, Ends (evalRule ctx fuel r v) then evalRule ctx h.choose r v else .error .outOfFuel

lemma evalRule_eq_limitCall {ctx : Context} {r : Rule} {v : Value}
    (h : ∃ fuel, Ends (evalRule ctx fuel r v)) :
    Ends (limitCall ctx r v) ∧
      ∃ bound, ∀ fuel, bound ≤ fuel → evalRule ctx fuel r v = limitCall ctx r v := by
  have hlimit : limitCall ctx r v = evalRule ctx h.choose r v := dif_pos h
  refine ⟨hlimit ▸ h.choose_spec, h.choose, fun fuel hfuel => ?_⟩
  rw [hlimit]
  exact (evalRule_mono ctx hfuel r v).resolve_left h.choose_spec

/-- A rule ends when the calls that it consults do: they are finitely many, so that there is fuel
for all of them. -/
theorem exists_ends_of_supported {ctx : Context} {r : Rule} {v : Value} {P : Rule → Value → Prop}
    (hsupported : Supported P (limitCall ctx) (applyRule ctx r v))
    (hends : ∀ q w, P q w → ∃ fuel, Ends (evalRule ctx fuel q w)) :
    ∃ fuel, Ends (evalRule ctx fuel r v) := by
  obtain ⟨made, hmade, hsame, hend⟩ := hsupported
  have hbound : ∀ made : List (Rule × Value), (∀ p ∈ made, P p.1 p.2) → ∃ bound, ∀ fuel,
      bound ≤ fuel → ∀ p ∈ made, evalRule ctx fuel p.1 p.2 = limitCall ctx p.1 p.2 := by
    intro made
    induction made with
    | nil => exact fun _ => ⟨0, fun _ _ p hp => absurd hp List.not_mem_nil⟩
    | cons p made ih =>
        intro hall
        obtain ⟨b, hb⟩ := ih fun q hq => hall q (by simp [hq])
        obtain ⟨-, b', hb'⟩ := evalRule_eq_limitCall (hends p.1 p.2 (hall p (by simp)))
        refine ⟨max b b', fun fuel hfuel q hq => ?_⟩
        rcases List.mem_cons.mp hq with rfl | hq
        · exact hb' fuel (by omega)
        · exact hb fuel (by omega) q hq
  obtain ⟨bound, hfuel⟩ := hbound made hmade
  refine ⟨bound + 1, ?_⟩
  rw [evalRule_succ, hsame _ (hfuel bound (Nat.le_refl _))]
  exact hend fun p hp => (evalRule_eq_limitCall (hends p.1 p.2 (hmade p hp))).1

section structural

variable {p : Program} (world : World) (hnames : nameErrors p = [])
  (hstructural : structuralErrors p = []) {r : Rule} (hr : r ∈ p.rules)
  (hdeclared : r.proofs.termination.structural.isSome) (hpayload : PayloadCalls r)

include hnames hstructural hr hdeclared hpayload

/-- The self-calls of the rule are on payloads of its input. -/
lemma applyRule_payload (call : Calls) (v : Value) :
    Supported (fun q w => q ∈ p.rules ∧ (q.name = r.name → q = r ∧ w.Inside v)) call
      (applyRule (.ofProgram p world) r v) := by
  obtain ⟨param, hparam⟩ := Option.isSome_iff_exists.mp hdeclared
  have hsites : allSitesRule (payloadSite r.name false) r := by
    simp only [PayloadCalls, Bool.and_eq_true] at hpayload
    simp only [allSitesRule, Bool.and_eq_true]
    exact ⟨hpayload.1, allSites_of_isSome _ _ (isSome_of_structuralErrors hstructural hr hparam)
      hpayload.2⟩
  refine applyRule_supported (fun s env name arg q w hsite henv hfind hw => ?_) hsites
  have hq : q ∈ p.rules := List.mem_of_find?_eq_some hfind
  refine ⟨hq, fun hself => ⟨?_, ?_⟩⟩
  · exact List.inj_on_of_nodup_map (nodup_rules hnames) hq hr hself
  · have hname : q.name = name := by
      unfold Context.findRule at hfind
      simpa using List.find?_some hfind
    subst hname
    have harg : ∃ n ∈ s.strict, arg = .ident n := by
      cases arg <;> simp_all [payloadSite]
    obtain ⟨n, hn, rfl⟩ := harg
    unfold evalExpr at hw
    split at hw
    · rename_i u hu
      cases hw
      exact henv.strict n hn _ hu
    · cases hw

end structural

/-! ## Examples -/

namespace Structural

/-- Trees with one branch. -/
def tree : Concept where
  name := "Tree"
  variants := [⟨"Leaf", []⟩, ⟨"Node", [⟨"left", .named "Tree", none⟩]⟩]

/-- The depth of a tree named `input`, whose branch is bound to `branch`; the self-call is on
`left`. -/
def depthRule (input branch : String) : Rule where
  name := "depth"
  inputName := input
  inputTy := .named "Tree"
  outputName := "out"
  outputTy := .number
  logic := ⟨[], .matchVariant (.ident input)
    [.mk "Leaf" [] (.number 0), .mk "Node" [some branch] (.call "depth" [.ident "left"])]⟩
  proofs :=
    { purity := { reads := [⟨[input]⟩], calls := [⟨["depth"]⟩] }
      termination := { bound := some 10, structural := some input } }

/-- The program of a depth rule. -/
def depthProgram (input branch : String) : Program :=
  ⟨[.conceptGroup ⟨"trees", 8, 64, [tree]⟩, .rule (depthRule input branch)]⟩

/-- A tree of depth one. -/
def node : Value := .variant "Tree" "Node" [("left", .variant "Tree" "Leaf" [])]

/-- With the input itself named `left`, the rule calls itself on its input. -/
lemma applyRule_depth (c : Calls) :
    applyRule (.ofProgram (depthProgram "left" "next") {}) (depthRule "left" "next") node c =
      c (depthRule "left" "next") node := by
  have hguard : guarded (.ofProgram (depthProgram "left" "next") {}) (depthRule "left" "next") = false := by
    decide +kernel
  have hinput : checkInput (.ofProgram (depthProgram "left" "next") {}) (depthRule "left" "next")
      node = .ok () := by
    unfold checkInput
    rw [hguard]
    rfl
  unfold applyRule
  rw [hinput]
  have hbody : evalBody (.ofProgram (depthProgram "left" "next") {}) c (depthRule "left" "next")
      node = c (depthRule "left" "next") node >>= .ok := rfl
  show evalBody _ c (depthRule "left" "next") node = _
  rw [hbody]
  cases c (depthRule "left" "next") node <;> rfl

end Structural

open Structural

end Interpreter

end Verbosec
