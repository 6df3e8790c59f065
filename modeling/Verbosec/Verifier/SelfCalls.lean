import Verbosec.Interpreter.Calls

/-!
# The self-calls of an expression

* `collectRecursiveCallRecordArgs` - the arguments of the calls of a rule; the argument of such a call
  is not searched for further calls.
* `allSites_collected` - what is checked of the collected arguments holds at the call sites.
* `allSites_of_not_calls` - an expression without calls of a rule.

Source: `verifier.rs`, `collect_recursive_call_record_args`.
-/

namespace Verbosec

open Verbosec.Interpreter

namespace Expr

mutual

/-- The arguments of the calls of a rule. Source: `verifier.rs`,
`collect_recursive_call_record_args` -/
def collectRecursiveCallRecordArgs (rule : String) : Expr → List Expr
  | number _ | text _ | bytes _ | ident _ | read _ | random _ | nowUnix => []
  | field a _ | not a | neg a | ok a | err a | abs a | length a | parseInt a | jsonEscape a
  | bitNot a | le32 a | le64 a | arenaScope a | abortIf a | fetch _ a =>
      collectRecursiveCallRecordArgs rule a
  | binary _ a b | bitAnd a b | bitOr a b | bitXor a b | shl a b | shr a b | startsWith a b
  | contains a b | endsWith a b | min a b | max a b | byteAt a b | tryByteAt a b
  | quantifier _ a _ b | map a _ b | filter a _ b =>
      collectRecursiveCallRecordArgs rule a ++ collectRecursiveCallRecordArgs rule b
  | ite a b c | fold a b _ _ c | foldBytes a b _ _ _ c | matchResult a _ b _ c | substring a b c =>
      collectRecursiveCallRecordArgs rule a ++ collectRecursiveCallRecordArgs rule b ++
        collectRecursiveCallRecordArgs rule c
  | call name args =>
      if name = rule then args.head?.toList else collectRecursiveListRecordArgs rule args
  | concat args => collectRecursiveListRecordArgs rule args
  | record _ fields | variantConstruct _ _ fields => collectRecursiveFieldsRecordArgs rule fields
  | matchVariant a arms =>
      collectRecursiveCallRecordArgs rule a ++ collectRecursiveArmsRecordArgs rule arms

/-- `collectRecursiveCallRecordArgs` over the arguments of a call or a `concat`. -/
def collectRecursiveListRecordArgs (rule : String) : List Expr → List Expr
  | [] => []
  | e :: es => collectRecursiveCallRecordArgs rule e ++ collectRecursiveListRecordArgs rule es

/-- `collectRecursiveCallRecordArgs` over the assignments of a constructor. -/
def collectRecursiveFieldsRecordArgs (rule : String) : List (String × Expr) → List Expr
  | [] => []
  | (_, e) :: fields =>
      collectRecursiveCallRecordArgs rule e ++ collectRecursiveFieldsRecordArgs rule fields

/-- `collectRecursiveCallRecordArgs` over the arms of a `match`. -/
def collectRecursiveArmsRecordArgs (rule : String) : List MatchArm → List Expr
  | [] => []
  | .mk _ _ body :: arms =>
      collectRecursiveCallRecordArgs rule body ++ collectRecursiveArmsRecordArgs rule arms

end

end Expr

namespace Verifier

variable {rule : String} {loose strict : Scope → String → List Expr → Bool} {good : Expr → Prop}

/-- A site that is strict where the collected argument is good: the calls of other rules always are,
and the calls of the rule are, with the calls in their arguments. -/
theorem allSites_collected (hother : ∀ s name args, name ≠ rule → strict s name args)
    (hself : ∀ s args, (∀ a ∈ args.head?.toList, good a) → loose s rule args →
      (decide (args.length ≠ 1) || Expr.allSitesList loose s args) →
        strict s rule args ∧ (decide (args.length ≠ 1) || Expr.allSitesList strict s args)) (e : Expr) :
    ∀ s : Scope, (∀ a ∈ e.collectRecursiveCallRecordArgs rule, good a) → e.allSites loose s →
      e.allSites strict s := by
  induction e using Expr.induction_children with
  | step e ih =>
      intro s hargs h
      have hlist : ∀ es : List Expr, (∀ c ∈ es, c ∈ e.children) →
          (∀ a ∈ Expr.collectRecursiveListRecordArgs rule es, good a) →
            Expr.allSitesList loose s es → Expr.allSitesList strict s es := by
        intro es
        induction es with
        | nil => exact fun _ _ _ => rfl
        | cons c es ihs =>
            intro hchild hargs h
            simp only [Expr.collectRecursiveListRecordArgs, List.mem_append, or_imp, forall_and,
              Expr.allSitesList, Bool.and_eq_true] at hargs h ⊢
            exact ⟨ih c (hchild c (by simp)) s hargs.1 h.1,
              ihs (fun c hc => hchild c (by simp [hc])) hargs.2 h.2⟩
      have hfields : ∀ fs : List (String × Expr), (∀ c ∈ fs.map (·.2), c ∈ e.children) →
          (∀ a ∈ Expr.collectRecursiveFieldsRecordArgs rule fs, good a) →
            Expr.allSitesFields loose s fs → Expr.allSitesFields strict s fs := by
        intro fs
        induction fs with
        | nil => exact fun _ _ _ => rfl
        | cons f fs ihs =>
            obtain ⟨name, c⟩ := f
            intro hchild hargs h
            simp only [Expr.collectRecursiveFieldsRecordArgs, List.mem_append, or_imp, forall_and,
              Expr.allSitesFields, Bool.and_eq_true] at hargs h ⊢
            exact ⟨ih c (hchild c (by simp)) s hargs.1 h.1,
              ihs (fun c hc => hchild c (List.mem_cons_of_mem _ hc)) hargs.2 h.2⟩
      have harms : ∀ (scrutinee : Expr) (arms : List MatchArm),
          (∀ c ∈ arms.map (·.body), c ∈ e.children) →
            (∀ a ∈ Expr.collectRecursiveArmsRecordArgs rule arms, good a) →
              Expr.allSitesArms loose s scrutinee arms →
                Expr.allSitesArms strict s scrutinee arms := by
        intro scrutinee arms
        induction arms with
        | nil => exact fun _ _ _ => rfl
        | cons a arms ihs =>
            obtain ⟨name, binders, body⟩ := a
            intro hchild hargs h
            simp only [Expr.collectRecursiveArmsRecordArgs, List.mem_append, or_imp, forall_and,
              Expr.allSitesArms, Bool.and_eq_true] at hargs h ⊢
            exact ⟨ih body (hchild body (by simp [MatchArm.body])) _ hargs.1 h.1,
              ihs (fun c hc => hchild c (List.mem_cons_of_mem _ hc)) hargs.2 h.2⟩
      cases e <;> simp only [Expr.collectRecursiveCallRecordArgs, List.mem_append, or_imp, forall_and,
        Expr.allSites, Bool.and_eq_true] at hargs h ⊢
      case call n args =>
        by_cases hn : n = rule
        · subst hn
          rw [if_pos rfl] at hargs
          exact hself s args hargs h.1 h.2
        · rw [if_neg hn] at hargs
          refine ⟨hother s n args hn, ?_⟩
          by_cases hone : args.length = 1
          · simp only [hone, ne_eq, not_true_eq_false, decide_false, Bool.false_or] at h ⊢
            exact hlist args (fun c hc => hc) hargs h.2
          · simp [hone]
      case concat args => exact hlist args (fun c hc => hc) hargs h
      case record n fs => exact hfields fs (fun c hc => hc) hargs h
      case variantConstruct n v fs => exact hfields fs (fun c hc => hc) hargs h
      case matchVariant a arms =>
        exact ⟨ih a (by simp [Expr.children]) s hargs.1 h.1,
          harms a arms (fun c hc => List.mem_cons_of_mem _ hc) hargs.2 h.2⟩
      all_goals
        first
        | exact ih _ (by simp [Expr.children]) _ hargs h
        | exact ⟨ih _ (by simp [Expr.children]) _ hargs.1 h.1,
            ih _ (by simp [Expr.children]) _ hargs.2 h.2⟩
        | exact ⟨⟨ih _ (by simp [Expr.children]) _ hargs.1.1 h.1.1,
            ih _ (by simp [Expr.children]) _ hargs.1.2 h.1.2⟩,
            ih _ (by simp [Expr.children]) _ hargs.2 h.2⟩

/-- An expression that does not call the rule satisfies every site that the other rules do. -/
theorem allSites_of_not_calls (hother : ∀ s name args, name ≠ rule → strict s name args) {e : Expr}
    (h : rule ∉ e.calls) (s : Scope) : e.allSites strict s := by
  have hnames : e.allSites (fun _ n _ => decide (n ≠ rule)) s := by
    refine allSites_of_calls e s fun n hn => ?_
    refine decide_eq_true ?_
    rintro rfl
    exact h hn
  refine allSites_collected hother
    ?_ e s (fun _ _ => trivial) hnames
  intro s args _ hloose
  exact absurd hloose (by simp)

end Verifier

end Verbosec
