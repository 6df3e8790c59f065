import Verbosec.NumericBounds.Sound

/-!
# The shape of accepted rules

* `isInputAfter input bound e` - `e` is the input, not hidden by one of the `let`s `bound`.
* `Check.Accepts` - an expression of the forms that the verifier admits: scalar operators, reads of
  fields off the unhidden input, and calls that pass it on.
* `Check.AcceptsLets`, `Check.AcceptsRule` - the same for the `let`s and value of a rule.
* `acceptsRule_of_verify` - every active rule of an accepted program has this shape.

The verifier's abstract values describe evaluations; the shape is about both arms of a conditional,
also where no evaluation takes one of them.
-/

namespace Verbosec.NumericBounds

open Verbosec.Lib Verbosec.Lib.Fallible

/-- Is an expression the input, not hidden by one of the `let`s `bound`? -/
def isInputAfter (input : String) (bound : List String) : Expr → Bool
  | .ident n => n = input && !decide (n ∈ bound)
  | _ => false

/-- A scope hides the input exactly when a `let` has its name. -/
lemma Scope.isInput_eq (s : Scope) :
    s.isInput = isInputAfter s.input (s.locals.map (·.1)) := by
  funext e
  cases e <;> try rfl
  rename_i n
  simp only [Scope.isInput, isInputAfter]
  congr 1
  rw [Bool.eq_iff_iff]
  simp only [Bool.not_eq_true', Dict.has_eq_false, decide_eq_false_iff_not, List.mem_map,
    List.lookup_eq_none_iff, bne_iff_ne]
  constructor
  · rintro h ⟨p, hp, rfl⟩
    exact h p hp rfl
  · intro h p hp heq
    exact h ⟨p, hp, heq.symm⟩

/-- A guard does not hide the input. -/
lemma Scope.isInput_branch (s : Scope) (condition : Expr) (truth : Bool) :
    (s.branch condition truth).isInput = s.isInput := by
  have hframe := Scope.SameFrame.branch s condition truth
  rw [Scope.isInput_eq, Scope.isInput_eq, hframe.input, hframe.locals]

lemma isInputAfter_eq_true {input : String} {bound : List String} {e : Expr} :
    isInputAfter input bound e = true ↔ e = .ident input ∧ input ∉ bound := by
  cases e <;> simp [isInputAfter]
  intro h
  rw [h]

namespace Check

/-- An expression of the admitted forms, `isInput` recognising the unhidden input. -/
def Accepts (chk : Check) (r : Rule) (c : Concept) (isInput : Expr → Bool) : Expr → Prop
  | .number _ => True
  | .ident n => isInput (.ident n) = false
  | .field base n => isInput base = true ∧ ∃ f ∈ c.fields, f.name = n ∧ f.ty = .number
  | .ite cond a b =>
      chk.Accepts r c isInput cond ∧ chk.Accepts r c isInput a ∧ chk.Accepts r c isInput b
  | .not e | .neg e | .abs e => chk.Accepts r c isInput e
  | .min a b | .max a b | .binary _ a b => chk.Accepts r c isInput a ∧ chk.Accepts r c isInput b
  | .call name args => (args.length = 1 ∧ ∀ arg ∈ args, isInput arg = true) ∧
      ∃ callee, chk.rules.lookup name = some callee ∧ callee.inputTy = r.inputTy
  | _ => False

/-- The `let`s and the value of a rule, after the `let`s `bound`. -/
def AcceptsLets (chk : Check) (r : Rule) (c : Concept) : List String → List (String × Expr) → Prop
  | bound, [] => chk.Accepts r c (isInputAfter r.inputName bound) r.logic.value
  | bound, (n, e) :: rest =>
      chk.Accepts r c (isInputAfter r.inputName bound) e ∧ chk.AcceptsLets r c (n :: bound) rest

/-- The rule of a name exists, has a supported input, and has the admitted shape. -/
def AcceptsRule (chk : Check) (name : String) : Prop :=
  ∃ r c, chk.rules.lookup name = some r ∧ chk.inputConcept r = .ok c ∧
    chk.AcceptsLets r c [] r.logic.bindings

/-- The shape of a rule says nothing about its abstract result. -/
abbrev AcceptsResult (chk : Check) : String → Value → Prop := fun name _ => chk.AcceptsRule name

variable {chk : Check} {rule : String → M Value}
  (hrule : ∀ name, Keeps (Cached chk.AcceptsResult) (rule name)
    fun _ => chk.AcceptsRule name)

include hrule

lemma expr_accepts {r : Rule} (e : Expr) : ∀ scope depth,
    Keeps (Cached chk.AcceptsResult) (chk.expr rule r scope depth e)
      fun _ => chk.Accepts r scope.concept scope.isInput e := by
  induction e using Expr.induction_children with
  | step e ih =>
      intro scope depth
      have hsub : ∀ {c}, c ∈ e.children → Keeps (Cached chk.AcceptsResult)
          (chk.expr rule r scope (depth + 1) c)
          fun _ => chk.Accepts r scope.concept scope.isInput c :=
        fun hc => ih _ hc scope (depth + 1)
      have hpure : ∀ {α : Type} (x : Except String α), Keeps (Cached chk.AcceptsResult)
          (fromExcept x) fun _ => True := fun x => .fromExcept fun _ _ => trivial
      cases e <;> unfold Check.expr <;> refine (tick_keeps _ depth).seq fun done => ?_
      case number n => exact .pure trivial
      case ident n =>
        split
        · rename_i v hv
          refine .pure ?_
          have hbound : scope.locals.has n = true := by
            unfold Scope.localValue at hv
            rw [Dict.has_eq_true]
            split at hv
            · cases hv
            · exact ⟨_, ‹_›⟩
            · exact ⟨_, ‹_›⟩
          simp [Accepts, Scope.isInput, hbound]
        · exact .throw _
      case field base name =>
        refine .fromExcept fun v hv => ?_
        unfold fieldValue at hv
        split at hv
        · cases hv
        rename_i hin
        split at hv
        · cases hv
        rename_i f hf
        split at hv
        · cases hv
        rename_i hty
        have hname : f.name = name := by simpa using List.find?_some hf
        exact ⟨by simpa using hin, f, List.mem_of_find?_eq_some hf, hname, by simpa using hty⟩
      case ite c a b =>
        refine (Keeps.mapError _ (hsub (by simp [Expr.children]))).bind fun vc hc => ?_
        refine (hpure _).bind fun _ _ => ?_
        refine (Keeps.mapError _ (ih a (by simp [Expr.children]) _ _)).bind fun va ha => ?_
        refine (Keeps.mapError _ (ih b (by simp [Expr.children]) _ _)).bind fun vb hb => ?_
        rw [Scope.isInput_branch, Scope.branch_concept] at ha hb
        exact (hpure _).mono fun _ _ => ⟨hc, ha, hb⟩
      case not c =>
        refine (hsub (by simp [Expr.children])).bind fun vc hc => ?_
        exact (hpure _).bind fun _ _ => .pure hc
      case neg c | abs c =>
        refine (hsub (by simp [Expr.children])).bind fun vc hc => ?_
        exact (hpure _).bind fun _ _ => (hpure _).bind fun _ _ => .pure hc
      case min a b | max a b =>
        refine (hsub (by simp [Expr.children])).bind fun va ha => (hpure _).bind fun _ _ => ?_
        refine (hsub (by simp [Expr.children])).bind fun vb hb => (hpure _).bind fun _ _ => ?_
        exact (hpure _).bind fun _ _ => .pure ⟨ha, hb⟩
      case binary op a b =>
        refine (Keeps.mapError _ (hsub (by simp [Expr.children]))).bind fun va ha => ?_
        refine (Keeps.mapError _ (hsub (by simp [Expr.children]))).bind fun vb hb => ?_
        exact (hpure _).mono fun _ _ => ⟨ha, hb⟩
      case call name args =>
        split
        · exact .throw _
        · rename_i callee hcallee
          refine .ite (fun _ => .throw _) fun hok => ?_
          simp only [Bool.or_eq_true, Bool.not_eq_true', decide_eq_true_eq, not_or,
            Bool.not_eq_false, not_not, Bool.and_eq_true, List.all_eq_true] at hok
          exact (hrule name).mono fun _ _ => ⟨hok.1, callee, hcallee, hok.2⟩
      all_goals exact .throw _

lemma bindings_accepts {r : Rule} {c : Concept} (bindings : List (String × Expr)) : ∀ locals,
    Keeps (Cached chk.AcceptsResult) (chk.bindings rule r c locals bindings)
      fun locals' => chk.Accepts r c (Scope.new r c locals').isInput r.logic.value →
        chk.AcceptsLets r c (locals.map (·.1)) bindings := by
  induction bindings with
  | nil =>
      intro locals
      refine .pure fun h => ?_
      rwa [Scope.isInput_eq] at h
  | cons b bindings ih =>
      intro locals
      obtain ⟨n, e⟩ := b
      unfold Check.bindings
      refine (Keeps.mapError _ (expr_accepts hrule e _ _)).bind fun v hv => ?_
      rw [Scope.isInput_eq] at hv
      exact (ih _).mono fun locals' hl h => ⟨hv, hl h⟩

lemma ruleInner_accepts (name : String) :
    Keeps (Cached chk.AcceptsResult) (chk.ruleInner rule name)
      fun _ => chk.AcceptsRule name := by
  unfold Check.ruleInner
  cases hlookup : chk.rules.lookup name with
  | none => exact .throw _
  | some r =>
      refine (Keeps.fromExcept (P := fun c => chk.inputConcept r = .ok c) fun _ h => h).bind
        fun c hc => ?_
      refine (bindings_accepts hrule _ _).bind fun locals hl => ?_
      refine (Keeps.mapError _ (expr_accepts hrule _ _ _)).bind fun v hv => ?_
      exact .fromExcept fun _ _ => ⟨r, c, hlookup, hc, hl hv⟩

end Check

/-- Every active rule of an accepted program has the admitted shape. -/
theorem acceptsRule_of_verify {p : Program} (hverify : verify p = []) {n : String}
    (hn : n ∈ activeRules p) : (Check.new p).AcceptsRule n := by
  obtain ⟨_, h⟩ := walkErrors_keeps (P := (Check.new p).AcceptsResult)
    (fun _ hrule => Check.ruleInner_accepts hrule) _ {} (.empty _) (walkErrors_of_verify hverify)
    n hn
  exact h

end Verbosec.NumericBounds
