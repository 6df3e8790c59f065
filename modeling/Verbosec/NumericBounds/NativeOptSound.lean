import Verbosec.NumericBounds.Accepted
import Verbosec.NumericBounds.NativeOptFacts

/-!
# The native lowering preserves meaning

* `Fold.Drops` - the names whose current `let` is dropped. A scope of the lowering keeps its
  constants under guards (`Scope.Constant.branch`), so every read of such a name is replaced.
* `expr_reads` - a lowered expression reads no dropped name, whichever arm of it is taken.
* `Simulation` - the environments of a rule and of its lowering agree off the dropped names.
* `expr_sound`, `lets_sound`, `lowerRule_sound` - whatever the original evaluates to, the lowering
  does, with the same fuel: expression, `let`s, rule (induction on the fuel).
* `lower_sound` - the lowering of an accepted program exists and has both properties.
-/

namespace Verbosec

/-- The names that an expression reads. -/
def Expr.idents : Expr → List String :=
  collect fun
    | .ident n => [n]
    | _ => []

namespace NumericBounds

open Verbosec.Lib Interpreter

/-! ## Constants of a scope -/

/-- The `let` is known to have one value. -/
def Scope.Constant (s : Scope) (n : String) : Prop :=
  ∃ ranges, s.localValue n = some (.number ranges) ∧ ranges.hull.1 = ranges.hull.2

namespace Scope.Constant

variable {s : Scope} {n : String}

/-- A fact inside the old one keeps a constant. -/
lemma record (h : s.Constant n) {place : Option Place} {r : Ranges} (hr : r.hull.1 ≤ r.hull.2)
    (hplace : ∀ ranges, place = some (.localVar n) → s.localValue n = some (.number ranges) →
      ranges.hull.1 ≤ r.hull.1 ∧ r.hull.2 ≤ ranges.hull.2) : (s.record place r).Constant n := by
  obtain ⟨ranges, hv, hconst⟩ := h
  cases place with
  | none => exact ⟨ranges, hv, hconst⟩
  | some pl =>
      cases pl with
      | field m => exact ⟨ranges, hv, hconst⟩
      | localVar m =>
          by_cases hmn : m = n
          · subst hmn
            obtain ⟨h₁, h₂⟩ := hplace ranges rfl hv
            refine ⟨r, ?_, by omega⟩
            unfold Scope.localValue at hv ⊢
            simp only [Scope.record]
            split at hv
            · cases hv
            · simp
            · cases hv
          · refine ⟨ranges, ?_, hconst⟩
            rw [← hv]
            unfold Scope.localValue
            simp only [Scope.record, Dict.lookup_insert_of_ne _ _ (Ne.symm hmn)]

/-- The interval set at a place is that of the `let`. -/
lemma operand_local {e : Expr} {r : Ranges}
    (he : s.operand e = some (some (.localVar n), r)) : s.localValue n = some (.number r) := by
  unfold Scope.operand at he
  split at he
  · rename_i pl r' hs
    cases he
    unfold Scope.scalar at hs
    split at hs
    · split at hs
      · rename_i hv
        cases hs
        exact hv
      · cases hs
    · split at hs
      · obtain ⟨r', -, hpair⟩ := Option.map_eq_some_iff.mp hs
        cases hpair
      · cases hs
    · cases hs
  · obtain ⟨n', -, hpair⟩ := Option.map_eq_some_iff.mp he
    cases hpair

lemma assumeComparison (h : s.Constant n) (hw : s.Wf) {op : BinOp} {a b : Expr} {s' : Scope}
    (hs : s.assumeComparison op a b = some s') : s'.Constant n := by
  unfold Scope.assumeComparison at hs
  split at hs
  · rename_i aPlace aRanges bPlace bRanges ha hb
    split at hs
    · cases hs
      exact h
    · rename_i hne
      split at hs
      · rename_i ra rb hra hrb
        cases hs
        have haw := hw.operand ha
        have hbw := hw.operand hb
        have hra' := Ranges.constrain_hull haw hra
        have hrb' := Ranges.constrain_hull hbw hrb
        have hfirst : (s.record aPlace ra).Constant n := by
          refine h.record (Ranges.Wf.hull (Ranges.constrain_wf haw hra)).1 fun ranges hp hv => ?_
          subst hp
          rw [operand_local ha] at hv
          cases hv
          exact hra'
        refine hfirst.record (Ranges.Wf.hull (Ranges.constrain_wf hbw hrb)).1 fun ranges hp hv => ?_
        subst hp
        -- The second projection is of the place before the first fact, which is elsewhere.
        have hother : (s.record aPlace ra).localValue n = s.localValue n := by
          cases aPlace with
          | none => rfl
          | some pl =>
              cases pl with
              | field m => rfl
              | localVar m =>
                  have hmn : n ≠ m := by
                    rintro rfl
                    exact hne rfl
                  unfold Scope.localValue
                  simp only [Scope.record, Dict.lookup_insert_of_ne _ _ hmn]
        rw [hother, operand_local hb] at hv
        cases hv
        exact hrb'
      · cases hs
  · cases hs
    exact h

lemma assume (e : Expr) : ∀ {s s' : Scope} {truth : Bool}, s.Constant n → s.Wf →
    s.assume e truth = some s' → s'.Constant n := by
  induction e using Expr.induction_children with
  | step e ih =>
      intro s s' truth h hw hs
      cases e
      case not e => exact ih e (by simp [Expr.children]) h hw hs
      case binary op a b =>
        unfold Scope.assume at hs
        split at hs
        · split at hs
          · cases hs
          · rename_i s₁ hs₁
            exact ih b (by simp [Expr.children]) (ih a (by simp [Expr.children]) h hw hs₁)
              (.assume a hw hs₁) hs
        · split at hs
          · cases hs
            exact h
          · exact h.assumeComparison hw hs
      all_goals
        cases hs
        exact h

/-- A guard keeps the constants of a scope. -/
lemma branch (h : s.Constant n) (hw : s.Wf) (condition : Expr) (truth : Bool) :
    (s.branch condition truth).Constant n := by
  unfold Scope.branch
  cases hs : s.assume condition truth with
  | none => exact h
  | some s' => exact assume condition h hw hs

end Scope.Constant

/-! ## Dropped names -/

namespace Fold

variable {fold : Fold}

/-- The current `let` of the name is dropped. -/
def Drops (fold : Fold) (n : String) : Prop :=
  (∃ v, fold.bools.lookup n = some v) ∨
    ∃ ranges, fold.values.lookup n = some (.number ranges) ∧ ranges.hull.1 = ranges.hull.2

/-- What `bind` does to the abstract values. -/
lemma lookup_bind_values (fold : Fold) (n m : String) (fact : Fact) :
    (fold.bind n fact).values.lookup m =
      if m = n then
        match fact with
        | .number ranges => some (.number ranges)
        | .bool _ => some .bool
        | .unknown => none
      else fold.values.lookup m := by
  unfold bind
  rcases fact with ranges | (_ | v) | _ <;>
    simp only [Dict.lookup_insert, Dict.lookup_erase] <;> split <;> rfl

/-- What `bind` does to the known truth values. -/
lemma lookup_bind_bools (fold : Fold) (n m : String) (fact : Fact) :
    (fold.bind n fact).bools.lookup m =
      if m = n then
        match fact with
        | .bool v => v
        | _ => none
      else fold.bools.lookup m := by
  unfold bind
  rcases fact with ranges | (_ | v) | _ <;> simp only [Dict.lookup_insert, Dict.lookup_erase]
  all_goals
    split <;> rfl

@[simp] lemma bind_calls (fold : Fold) (n : String) (fact : Fact) :
    (fold.bind n fact).calls = fold.calls := by
  unfold bind
  rcases fact with ranges | (_ | v) | _ <;> rfl

/-- A `let` is dropped exactly when its fact is constant. -/
lemma drops_bind (fold : Fold) (n m : String) (fact : Fact) :
    (fold.bind n fact).Drops m ↔ if m = n then fact.constant.isSome = true else fold.Drops m := by
  unfold Drops
  rw [lookup_bind_values, lookup_bind_bools]
  split
  · rcases fact with ranges | (_ | v) | _ <;> simp [Fact.constant]
  · rfl

/-- The scope arises from the facts of the lowering by guards. -/
structure Sees (fold : Fold) (s : Scope) : Prop where
  /-- its interval sets are well formed -/
  wf : s.Wf
  /-- its constants are those of the lowering -/
  constant : ∀ n ranges, fold.values.lookup n = some (.number ranges) →
    ranges.hull.1 = ranges.hull.2 → s.Constant n

lemma Sees.branch {s : Scope} (h : fold.Sees s) (condition : Expr) (truth : Bool) :
    fold.Sees (s.branch condition truth) where
  wf := h.wf.branch condition truth
  constant n ranges hv hconst := (h.constant n ranges hv hconst).branch h.wf condition truth

/-- The scope before any guard. -/
lemma Sees.new {r : Rule} {c : Concept} (h : (Scope.new r c fold.values).Wf) :
    fold.Sees (Scope.new r c fold.values) where
  wf := h
  constant n ranges hv hconst := ⟨ranges, by simp [Scope.localValue, Scope.new, hv], hconst⟩

/-- A dropped name has a constant fact. -/
lemma Drops.constant {n : String} (h : fold.Drops n) {s : Scope} (hs : fold.Sees s) :
    (fold.identFact s n).constant.isSome = true := by
  unfold identFact
  split
  · rfl
  · rename_i hnone
    rcases h with ⟨v, hv⟩ | ⟨ranges, hv, hconst⟩
    · rw [hnone] at hv
      cases hv
    · obtain ⟨ranges', hv', hconst'⟩ := hs.constant n ranges hv hconst
      simp [hv', Fact.ofValue, Fact.constant, hconst']

/-! ## Facts are well formed -/

/-- The facts about the active rules are well formed. -/
def CallsWf (fold : Fold) : Prop := ∀ n fact, fold.calls.lookup n = some fact → fact.Wf

lemma identFact_wf {s : Scope} (hs : s.Wf) (n : String) : (fold.identFact s n).Wf := by
  unfold identFact
  split
  · trivial
  · cases hv : s.localValue n with
    | none => trivial
    | some v => exact Fact.ofValue_wf (hs.localValue hv)

lemma expr_wf (hcalls : fold.CallsWf) (e : Expr) :
    ∀ s : Scope, s.Wf → (fold.expr s e).2.Wf := by
  induction e using Expr.induction_children with
  | step e ih =>
      intro s hs
      have hsub : ∀ {c}, c ∈ e.children → (fold.expr s c).2.Wf := fun hc => ih _ hc s hs
      cases e <;> simp only [expr, substitute]
      case number n => exact singleton_wf n
      case ident n => exact identFact_wf hs n
      case field base n =>
        cases hr : s.field n with
        | none => trivial
        | some r => exact hs.field hr
      case call n args =>
        cases hf : fold.calls.lookup n with
        | none => trivial
        | some f => exact hcalls n f hf
      case ite c a b =>
        have ha := ih a (by simp [Expr.children]) _ (hs.branch c true)
        have hb := ih b (by simp [Expr.children]) _ (hs.branch c false)
        split
        · exact ha
        · exact hb
        · exact Fact.join_wf ha hb
      case binary op a b =>
        exact operatorFact_wf (hsub (by simp [Expr.children])) (hsub (by simp [Expr.children]))
      case not a =>
        cases (fold.expr s a).2 <;> trivial
      case neg a => exact negFact_wf (hsub (by simp [Expr.children]))
      case abs a => exact absFact_wf (hsub (by simp [Expr.children]))
      case min a b =>
        exact minFact_wf (hsub (by simp [Expr.children])) (hsub (by simp [Expr.children]))
      case max a b =>
        exact maxFact_wf (hsub (by simp [Expr.children])) (hsub (by simp [Expr.children]))
      all_goals trivial

/-! ## Lowered expressions read no dropped name -/

/-- A substituted expression reads nothing new. -/
lemma idents_substitute {e : Expr} {fact : Fact} {n : String}
    (hn : n ∈ (substitute e fact).1.idents) : fact.constant = none ∧ n ∈ e.idents := by
  unfold substitute at hn
  cases hc : fact.constant with
  | none => exact ⟨rfl, by simpa [hc] using hn⟩
  | some c =>
      rw [hc, Option.getD_some] at hn
      unfold Expr.idents at hn
      rw [Fact.collect_constant hc _ (fun _ => rfl) fun _ _ _ => rfl] at hn
      cases hn

/-- A lowered expression reads no dropped name: only the unhidden input and names whose value is
not known. -/
lemma expr_reads {chk : Check} {r : Rule} {c : Concept} {bound : List String}
    (hbound : ∀ n, fold.Drops n → n ∈ bound) (e : Expr) : ∀ s : Scope, fold.Sees s →
    chk.Accepts r c (isInputAfter r.inputName bound) e →
    ∀ n ∈ (fold.expr s e).1.idents, ¬ fold.Drops n := by
  have hinput : ∀ {base : Expr}, isInputAfter r.inputName bound base = true →
      ∀ n ∈ base.idents, ¬ fold.Drops n := by
    intro base hbase n hn hdrop
    obtain ⟨rfl, hfree⟩ := isInputAfter_eq_true.mp hbase
    simp only [Expr.idents, Expr.collect, List.mem_singleton] at hn
    exact hfree (hn ▸ hbound n hdrop)
  induction e using Expr.induction_children with
  | step e ih =>
      intro s hs hacc n hn
      cases e <;> simp only [Check.Accepts] at hacc <;> simp only [expr] at hn
      case number m => exact absurd (idents_substitute hn).2 (by simp [Expr.idents, Expr.collect])
      case ident m =>
        obtain ⟨hnone, hn⟩ := idents_substitute hn
        simp only [Expr.idents, Expr.collect, List.mem_singleton] at hn
        subst hn
        intro hdrop
        have := hdrop.constant hs
        simp [hnone] at this
      case field base m =>
        have hn' := (idents_substitute hn).2
        simp only [Expr.idents, Expr.collect, List.nil_append] at hn'
        exact hinput hacc.1 n hn'
      case call m args =>
        have hn' := (idents_substitute hn).2
        simp only [Expr.idents, Expr.collect, List.nil_append, Expr.collectList_eq,
          List.mem_flatMap] at hn'
        obtain ⟨arg, harg, hn'⟩ := hn'
        exact hinput (hacc.1.2 arg harg) n hn'
      case ite c a b =>
        have ha := ih a (by simp [Expr.children]) _ (hs.branch c true) hacc.2.1 n
        have hb := ih b (by simp [Expr.children]) _ (hs.branch c false) hacc.2.2 n
        split at hn
        · exact ha hn
        · exact hb hn
        · have hn' := (idents_substitute hn).2
          simp only [Expr.idents, Expr.collect, List.nil_append, List.mem_append] at hn'
          rcases hn' with (hn' | hn') | hn'
          · exact ih c (by simp [Expr.children]) s hs hacc.1 n hn'
          · exact ha hn'
          · exact hb hn'
      case binary op a b | min a b | max a b =>
        have hn' := (idents_substitute hn).2
        simp only [Expr.idents, Expr.collect, List.nil_append, List.mem_append] at hn'
        rcases hn' with hn' | hn'
        · exact ih a (by simp [Expr.children]) s hs hacc.1 n hn'
        · exact ih b (by simp [Expr.children]) s hs hacc.2 n hn'
      case not a | neg a | abs a =>
        have hn' := (idents_substitute hn).2
        simp only [Expr.idents, Expr.collect, List.nil_append] at hn'
        exact ih a (by simp [Expr.children]) s hs hacc n hn'

/-! ## Expressions -/

section simulation

variable {ctx ctx' : Context} {call call' : Rule → Interpreter.Value → Outcome Interpreter.Value}
  {chk : Check} {r : Rule} {c : Concept} {bound : List String} {env env' : Env}
  {fields : Dict String Interpreter.Value}

/-- Numbers and truth values. -/
def IsScalar : Interpreter.Value → Prop
  | .number _ | .bool _ => True
  | _ => False

/-- The environments of a rule and of its lowering, after the `let`s `bound`. -/
structure Simulation (fold : Fold) (r : Rule) (bound : List String) (env env' : Env)
    (fields : Dict String Interpreter.Value) : Prop where
  /-- known truth values are the values -/
  bools : ∀ n v, fold.bools.lookup n = some v → env.lookup n = some (.bool v)
  /-- the environments agree off the dropped names -/
  kept : ∀ n, ¬ fold.Drops n → env'.lookup n = env.lookup n
  /-- only bound names are dropped -/
  dropped : ∀ n, fold.Drops n → n ∈ bound
  /-- the input is the record, unless a `let` hides it -/
  input : r.inputName ∉ bound → env.lookup r.inputName = some (.record fields)
  /-- everything else is a scalar -/
  scalar : ∀ n w, env.lookup n = some w → (n = r.inputName → n ∈ bound) → IsScalar w

/-- A call of the rule has a lowered counterpart with the same result, which its fact allows. -/
def CallSound (ctx ctx' : Context)
    (call call' : Rule → Interpreter.Value → Outcome Interpreter.Value) (fold : Fold)
    (fields : Dict String Interpreter.Value) (name : String) : Prop :=
  ∀ callee w, ctx.findRule name = some callee → call callee (.record fields) = .ok w →
    IsScalar w ∧ ∃ callee', ctx'.findRule name = some callee' ∧
      call' callee' (.record fields) = .ok w ∧ ((fold.calls.lookup name).getD .unknown).Mem w

/-- The rules called by a part are called by the whole. -/
lemma calls_of_mem_children {e c : Expr} (hc : c ∈ e.children) {n : String} (hn : n ∈ c.calls) :
    n ∈ e.calls := by
  unfold Expr.calls at hn ⊢
  rw [Expr.collect_eq]
  exact List.mem_append_right _ (List.mem_flatMap.mpr ⟨c, hc, hn⟩)

/-- A substituted expression has the value of the expression that it stands for. -/
lemma substitute_sound {lowered : Expr} {fact : Fact} {w : Interpreter.Value} (hwf : fact.Wf)
    (hmem : fact.Mem w) (h : evalExpr ctx' call' env' lowered = .ok w) :
    evalExpr ctx' call' env' (substitute lowered fact).1 = .ok w ∧
      (substitute lowered fact).2.Mem w := by
  refine ⟨?_, hmem⟩
  unfold substitute
  cases hc : fact.constant with
  | none => exact h
  | some c => exact Fact.constant_sound hwf hmem hc _ _ _

/-- The fact about a name allows its value. -/
lemma identFact_mem (hsim : Simulation fold r bound env env' fields) {s : Scope}
    (hm : s.Describes env fields) {n : String} {w : Interpreter.Value}
    (hw : env.lookup n = some w) : (fold.identFact s n).Mem w := by
  unfold identFact
  split
  · rename_i v hv
    rw [hsim.bools n v hv] at hw
    cases hw
    simp [Fact.Mem]
  · cases hv : s.localValue n with
    | none => trivial
    | some v =>
        obtain ⟨w', hw', hmem⟩ := hm.localValue_sound hv
        rw [hw] at hw'
        cases hw'
        exact Fact.ofValue_mem hmem

/-- A strict operator has a scalar result. -/
lemma isScalar_applyBinary {op : BinOp} {l x w : Interpreter.Value}
    (h : applyBinary op l x = .ok w) : IsScalar w := by
  match l, x, h with
  | .number a, .number b, h =>
      by_cases harith : isArith op = true
      · obtain ⟨z, rfl, -⟩ := applyBinary_exact harith h
        trivial
      · cases op <;> simp only [isArith, not_true_eq_false] at harith <;> cases h <;> trivial
  | .text a, .text b, h | .bool a, .bool b, h =>
      cases op <;> cases h <;> trivial

/-- An accepted expression has a scalar value. -/
lemma isScalar_of_eval (hsim : Simulation fold r bound env env' fields)
    (hrange : NumericFieldsInRange c fields) (e : Expr) :
    chk.Accepts r c (isInputAfter r.inputName bound) e →
    (∀ n ∈ e.calls, CallSound ctx ctx' call call' fold fields n) →
    ∀ w, evalExpr ctx call env e = .ok w → IsScalar w := by
  induction e using Expr.induction_children with
  | step e ih =>
      intro hacc hcalls w heval
      have hsub : ∀ {d}, d ∈ e.children → chk.Accepts r c (isInputAfter r.inputName bound) d →
          ∀ w, evalExpr ctx call env d = .ok w → IsScalar w :=
        fun hc hacc => ih _ hc hacc fun n hn => hcalls n (calls_of_mem_children hc hn)
      cases e <;> simp only [Check.Accepts] at hacc
      case number m =>
        cases heval
        trivial
      case ident m =>
        simp only [evalExpr] at heval
        split at heval
        · rename_i v hv
          cases heval
          refine hsim.scalar m w hv fun hm => ?_
          simpa [isInputAfter, hm] using hacc
        · cases heval
      case field base m =>
        obtain ⟨hbase, f, hf, rfl, hty⟩ := hacc
        obtain ⟨rfl, hfree⟩ := isInputAfter_eq_true.mp hbase
        obtain ⟨x, hx, -⟩ := hrange f hf hty
        simp only [evalExpr, hsim.input hfree, Bind.bind, Except.bind, hx, Except.ok.injEq] at heval
        subst heval
        trivial
      case call m args =>
        obtain ⟨⟨hlen, hall⟩, -⟩ := hacc
        obtain ⟨arg, rfl⟩ := List.length_eq_one_iff.mp hlen
        obtain ⟨rfl, hfree⟩ := isInputAfter_eq_true.mp (hall arg (by simp))
        simp only [evalExpr] at heval
        split at heval
        · cases heval
        · rename_i callee hcallee
          simp only [hsim.input hfree, Bind.bind, Except.bind] at heval
          exact (hcalls m (by simp [Expr.calls, Expr.collect]) callee w hcallee heval).1
      case ite cond a b =>
        simp only [evalExpr] at heval
        obtain ⟨vc, -, heval⟩ := Except.bind_eq_ok.mp heval
        split at heval
        · exact hsub (by simp [Expr.children]) hacc.2.1 w heval
        · exact hsub (by simp [Expr.children]) hacc.2.2 w heval
        · cases heval
      case binary op a b =>
        simp only [evalExpr] at heval
        obtain ⟨l, -, heval⟩ := Except.bind_eq_ok.mp heval
        split at heval
        · cases l <;> simp only [fail, reduceCtorEq] at heval
          split at heval
          · cases heval
            trivial
          · obtain ⟨x, -, heval⟩ := Except.bind_eq_ok.mp heval
            cases x <;> simp only [reduceCtorEq] at heval
            cases heval
            trivial
        · obtain ⟨x, -, heval⟩ := Except.bind_eq_ok.mp heval
          exact isScalar_applyBinary heval
      case not a =>
        simp only [evalExpr] at heval
        obtain ⟨v, -, heval⟩ := Except.bind_eq_ok.mp heval
        cases v <;> simp only [applyNot, fail, reduceCtorEq] at heval
        cases heval
        trivial
      case neg a =>
        simp only [evalExpr] at heval
        obtain ⟨v, -, heval⟩ := Except.bind_eq_ok.mp heval
        cases v <;> simp only [applyNeg, fail, reduceCtorEq] at heval
        rename_i x
        cases hx : checkedNeg x <;> simp only [arith, hx, reduceCtorEq] at heval
        cases heval
        trivial
      case abs a =>
        simp only [evalExpr] at heval
        obtain ⟨v, -, heval⟩ := Except.bind_eq_ok.mp heval
        cases v <;> simp only [applyAbs, fail, reduceCtorEq] at heval
        cases heval
        trivial
      case min a b | max a b =>
        simp only [evalExpr] at heval
        obtain ⟨l, -, heval⟩ := Except.bind_eq_ok.mp heval
        obtain ⟨x, -, heval⟩ := Except.bind_eq_ok.mp heval
        unfold numbersOp at heval
        split at heval
        · cases heval
          trivial
        · cases heval

/-- **Whatever an accepted expression evaluates to, its lowering does**, and the fact about it
allows that value. -/
theorem expr_sound (hcallsWf : fold.CallsWf) (hsim : Simulation fold r bound env env' fields)
    (e : Expr) : ∀ s : Scope, fold.Sees s → s.Describes env fields →
    chk.Accepts r c (isInputAfter r.inputName bound) e →
    (∀ n ∈ e.calls, CallSound ctx ctx' call call' fold fields n) →
    ∀ w, evalExpr ctx call env e = .ok w →
      evalExpr ctx' call' env' (fold.expr s e).1 = .ok w ∧ (fold.expr s e).2.Mem w := by
  have hinput : ∀ {base : Expr}, isInputAfter r.inputName bound base = true →
      ∀ (ctx : Context) call, evalExpr ctx call env base = .ok (.record fields) ∧
        evalExpr ctx call env' base = .ok (.record fields) := by
    intro base hbase ctx call
    obtain ⟨rfl, hfree⟩ := isInputAfter_eq_true.mp hbase
    have hread := hsim.input hfree
    have hread' := hsim.kept r.inputName fun hdrop => hfree (hsim.dropped _ hdrop)
    rw [hread] at hread'
    exact ⟨by simp [evalExpr, hread], by simp [evalExpr, hread']⟩
  induction e using Expr.induction_children with
  | step e ih =>
      intro s hs hm hacc hcalls w heval
      have hsub : ∀ {d}, d ∈ e.children → ∀ s : Scope, fold.Sees s → s.Describes env fields →
          chk.Accepts r c (isInputAfter r.inputName bound) d → ∀ w,
          evalExpr ctx call env d = .ok w →
            evalExpr ctx' call' env' (fold.expr s d).1 = .ok w ∧ (fold.expr s d).2.Mem w :=
        fun hc s hs hm hacc => ih _ hc s hs hm hacc fun n hn => hcalls n (calls_of_mem_children hc hn)
      have hwf : ∀ {c}, c ∈ e.children → (fold.expr s c).2.Wf := fun _ => expr_wf hcallsWf _ _ hs.wf
      have hwhole := expr_wf hcallsWf e s hs.wf
      cases e <;> simp only [Check.Accepts] at hacc <;> simp only [expr] at hwhole ⊢
      case number m =>
        cases heval
        exact substitute_sound hwhole (Ranges.mem_interval.mpr ⟨le_refl _, le_refl _⟩) rfl
      case ident m =>
        have hw : env.lookup m = some w := by
          simp only [evalExpr] at heval
          split at heval
          · cases heval
            assumption
          · cases heval
        cases hc : (fold.identFact s m).constant with
        | some c => exact ⟨by
            simp only [substitute, hc, Option.getD_some]
            exact Fact.constant_sound hwhole (identFact_mem hsim hm hw) hc _ _ _,
            identFact_mem hsim hm hw⟩
        | none =>
            refine substitute_sound hwhole (identFact_mem hsim hm hw) ?_
            have hkept := hsim.kept m fun hdrop => by
              have := hdrop.constant hs
              simp [hc] at this
            simp [evalExpr, hkept, hw]
      case field base m =>
        obtain ⟨hbase, -⟩ := hinput hacc.1 ctx call
        obtain ⟨-, hbase'⟩ := hinput hacc.1 ctx' call'
        simp only [evalExpr, hbase] at heval
        have hw : fields.lookup m = some w := by
          obtain ⟨v, hv, hread⟩ := Except.bind_eq_ok.mp heval
          cases hv
          simp only at hread
          split at hread
          · cases hread
            assumption
          · cases hread
        refine substitute_sound hwhole ?_ (by simp [evalExpr, hbase', hw, Bind.bind, Except.bind])
        cases hr : s.field m with
        | none => trivial
        | some ranges =>
            obtain ⟨x, hx, hmem⟩ := hm.field_sound hr
            rw [hw] at hx
            cases hx
            exact hmem
      case call m args =>
        obtain ⟨⟨hlen, hall⟩, -⟩ := hacc
        obtain ⟨arg, rfl⟩ := List.length_eq_one_iff.mp hlen
        obtain ⟨harg, -⟩ := hinput (hall arg (by simp)) ctx call
        obtain ⟨-, harg'⟩ := hinput (hall arg (by simp)) ctx' call'
        simp only [evalExpr] at heval
        split at heval
        · cases heval
        · rename_i callee hcallee
          have hrun : call callee (.record fields) = .ok w := by
            obtain ⟨v, hv, heval⟩ := Except.bind_eq_ok.mp heval
            rw [harg] at hv
            cases hv
            exact heval
          obtain ⟨-, callee', hcallee', hrun', hmem⟩ := hcalls m
            (by simp [Expr.calls, Expr.collect]) callee w hcallee hrun
          refine substitute_sound hwhole hmem ?_
          simp [evalExpr, hcallee', harg', hrun', Bind.bind, Except.bind]
      case ite c a b =>
        simp only [evalExpr] at heval
        obtain ⟨vc, hc, heval⟩ := Except.bind_eq_ok.mp heval
        obtain ⟨hc', hcm⟩ := hsub (by simp [Expr.children]) s hs hm hacc.1 vc hc
        -- The arm that the original takes, in the scope of its guard.
        have htaken : (vc = .bool true ∧
            evalExpr ctx' call' env' (fold.expr (s.branch c true) a).1 = .ok w ∧
              (fold.expr (s.branch c true) a).2.Mem w) ∨
            (vc = .bool false ∧
            evalExpr ctx' call' env' (fold.expr (s.branch c false) b).1 = .ok w ∧
              (fold.expr (s.branch c false) b).2.Mem w) := by
          split at heval
          · exact Or.inl ⟨rfl, hsub (by simp [Expr.children]) _ (hs.branch c true)
              (hm.branch hs.wf hc) hacc.2.1 w heval⟩
          · exact Or.inr ⟨rfl, hsub (by simp [Expr.children]) _ (hs.branch c false)
              (hm.branch hs.wf hc) hacc.2.2 w heval⟩
          · cases heval
        split
        · rename_i hfact
          rw [hfact] at hcm
          rcases htaken with ⟨rfl, h⟩ | ⟨rfl, -⟩
          · exact h
          · exact absurd (hcm true rfl) (by decide)
        · rename_i hfact
          rw [hfact] at hcm
          rcases htaken with ⟨rfl, -⟩ | ⟨rfl, h⟩
          · exact absurd (hcm false rfl) (by decide)
          · exact h
        · have ha := expr_wf hcallsWf a _ (hs.wf.branch c true)
          have hb := expr_wf hcallsWf b _ (hs.wf.branch c false)
          rcases htaken with ⟨rfl, h, hmem⟩ | ⟨rfl, h, hmem⟩
          · exact substitute_sound (Fact.join_wf ha hb) (Fact.join_mem ha hb (Or.inl hmem))
              (by simp [evalExpr, hc', h, Bind.bind, Except.bind])
          · exact substitute_sound (Fact.join_wf ha hb) (Fact.join_mem ha hb (Or.inr hmem))
              (by simp [evalExpr, hc', h, Bind.bind, Except.bind])
      case binary op a b =>
        simp only [evalExpr] at heval
        obtain ⟨l, hl, heval⟩ := Except.bind_eq_ok.mp heval
        obtain ⟨hl', hlm⟩ := hsub (by simp [Expr.children]) s hs hm hacc.1 l hl
        split at heval
        · rename_i hlogic
          cases l <;> simp only [fail, reduceCtorEq] at heval
          rename_i v
          split at heval
          · rename_i hshort
            cases heval
            refine substitute_sound hwhole (operatorFact_short hshort hlm) ?_
            simp [evalExpr, hl', hlogic, hshort, Bind.bind, Except.bind]
          · rename_i hshort
            obtain ⟨x, hx, heval⟩ := Except.bind_eq_ok.mp heval
            obtain ⟨hx', hxm⟩ := hsub (by simp [Expr.children]) s hs hm hacc.2 x hx
            cases x <;> simp only [reduceCtorEq, Except.ok.injEq] at heval
            subst heval
            have hshort' : shortCircuits op v = false := by simpa using hshort
            refine substitute_sound hwhole (operatorFact_right hlogic hshort' hlm hxm) ?_
            simp [evalExpr, hl', hx', hlogic, hshort', Bind.bind, Except.bind]
        · rename_i hlogic
          obtain ⟨x, hx, heval⟩ := Except.bind_eq_ok.mp heval
          obtain ⟨hx', hxm⟩ := hsub (by simp [Expr.children]) s hs hm hacc.2 x hx
          have hmem := operatorFact_mem hlogic (hwf (by simp [Expr.children]))
            (hwf (by simp [Expr.children])) hlm hxm
            (fun hsame => hm.sameScalar_sound hsame hl hx) heval
          refine substitute_sound hwhole hmem ?_
          simp only [evalExpr, hl', hx', if_neg hlogic, Bind.bind, Except.bind, heval]
      case not a =>
        simp only [evalExpr] at heval
        obtain ⟨v, hv, heval⟩ := Except.bind_eq_ok.mp heval
        obtain ⟨hv', hvm⟩ := hsub (by simp [Expr.children]) s hs hm hacc v hv
        exact substitute_sound hwhole (notFact_mem hvm heval)
          (by simp only [evalExpr, hv', Bind.bind, Except.bind, heval])
      case neg a =>
        simp only [evalExpr] at heval
        obtain ⟨v, hv, heval⟩ := Except.bind_eq_ok.mp heval
        obtain ⟨hv', hvm⟩ := hsub (by simp [Expr.children]) s hs hm hacc v hv
        exact substitute_sound hwhole (negFact_mem (hwf (by simp [Expr.children])) hvm heval)
          (by simp only [evalExpr, hv', Bind.bind, Except.bind, heval])
      case abs a =>
        simp only [evalExpr] at heval
        obtain ⟨v, hv, heval⟩ := Except.bind_eq_ok.mp heval
        obtain ⟨hv', hvm⟩ := hsub (by simp [Expr.children]) s hs hm hacc v hv
        exact substitute_sound hwhole (absFact_mem (hwf (by simp [Expr.children])) hvm heval)
          (by simp only [evalExpr, hv', Bind.bind, Except.bind, heval])
      case min a b =>
        simp only [evalExpr] at heval
        obtain ⟨l, hl, heval⟩ := Except.bind_eq_ok.mp heval
        obtain ⟨x, hx, heval⟩ := Except.bind_eq_ok.mp heval
        obtain ⟨hl', hlm⟩ := hsub (by simp [Expr.children]) s hs hm hacc.1 l hl
        obtain ⟨hx', hxm⟩ := hsub (by simp [Expr.children]) s hs hm hacc.2 x hx
        exact substitute_sound hwhole (minFact_mem (hwf (by simp [Expr.children]))
          (hwf (by simp [Expr.children])) hlm hxm heval)
          (by simp only [evalExpr, hl', hx', Bind.bind, Except.bind, heval])
      case max a b =>
        simp only [evalExpr] at heval
        obtain ⟨l, hl, heval⟩ := Except.bind_eq_ok.mp heval
        obtain ⟨x, hx, heval⟩ := Except.bind_eq_ok.mp heval
        obtain ⟨hl', hlm⟩ := hsub (by simp [Expr.children]) s hs hm hacc.1 l hl
        obtain ⟨hx', hxm⟩ := hsub (by simp [Expr.children]) s hs hm hacc.2 x hx
        exact substitute_sound hwhole (maxFact_mem (hwf (by simp [Expr.children]))
          (hwf (by simp [Expr.children])) hlm hxm heval)
          (by simp only [evalExpr, hl', hx', Bind.bind, Except.bind, heval])

/-! ## `let`s -/

/-- A bound fact keeps the scope well formed. -/
lemma bind_wf (h : (Scope.new r c fold.values).Wf) {fact : Fact} (hfact : fact.Wf) (n : String) :
    (Scope.new r c (fold.bind n fact).values).Wf := by
  refine .new (fun m v hv => ?_) h.bounds
  rw [lookup_bind_values] at hv
  split at hv
  · rcases fact with ranges | _ | _ <;> cases hv
    · exact hfact
    · trivial
  · exact h.locals m v hv

/-- A bound fact that allows the value keeps the description. -/
lemma bind_describes (h : (Scope.new r c fold.values).Describes env fields) {fact : Fact}
    {w : Interpreter.Value} (hmem : fact.Mem w) (hscalar : IsScalar w) (n : String) :
    (Scope.new r c (fold.bind n fact).values).Describes (Dict.insert env n w) fields := by
  refine .new (fun m v hv => ?_) (fun hnone fs hfs => ?_) h.inRange
  · rw [lookup_bind_values] at hv
    rw [Dict.lookup_insert]
    split at hv
    · refine ⟨w, if_pos ‹_›, ?_⟩
      rcases fact with ranges | _ | _ <;> cases hv
      · obtain ⟨x, rfl, hx⟩ := hmem.exists_number
        exact hx
      · obtain ⟨b, rfl, -⟩ := hmem.exists_bool
        trivial
    · rw [if_neg ‹_›]
      exact h.locals m v hv
  · rw [Dict.lookup_insert] at hfs
    split at hfs
    · cases hfs
      exact hscalar.elim
    · rename_i hne
      rw [lookup_bind_values, if_neg hne] at hnone
      exact h.input hnone fs hfs

/-- Before the `let`s the environments are equal. -/
lemma Simulation.start (calls : Dict String Fact) (r : Rule)
    (fields : Dict String Interpreter.Value) :
    Simulation { calls } r [] [(r.inputName, .record fields)] [(r.inputName, .record fields)]
      fields where
  bools := by simp
  kept _ _ := rfl
  dropped n hn := by simp [Drops] at hn
  input _ := by simp
  scalar n w hw hin := by
    simp only [List.lookup_cons, List.lookup_nil] at hw
    split at hw
    · rename_i heq
      simpa using hin (by simpa using heq)
    · cases hw

/-- One more `let`, evaluated on both sides unless it is dropped. -/
lemma Simulation.bind (h : Simulation fold r bound env env' fields) {fact : Fact}
    {w : Interpreter.Value} (hmem : fact.Mem w) (hscalar : IsScalar w) (n : String) :
    Simulation (fold.bind n fact) r (n :: bound) (Dict.insert env n w)
      (if fact.constant.isNone then Dict.insert env' n w else env') fields where
  bools m v hv := by
    rw [lookup_bind_bools] at hv
    rw [Dict.lookup_insert]
    split at hv
    · rcases fact with ranges | v' | _ <;> simp only [reduceCtorEq] at hv
      obtain ⟨b, rfl, hb⟩ := hmem.exists_bool
      rw [if_pos ‹_›, hb v hv]
    · rw [if_neg ‹_›]
      exact h.bools m v hv
  kept m hm := by
    rw [drops_bind] at hm
    by_cases hmn : m = n
    · rw [if_pos hmn] at hm
      have hnone : fact.constant.isNone = true := by
        cases hc : fact.constant <;> simp_all
      rw [if_pos hnone, Dict.lookup_insert, Dict.lookup_insert, if_pos hmn, if_pos hmn]
    · rw [if_neg hmn] at hm
      rw [Dict.lookup_insert_of_ne _ _ hmn, ← h.kept m hm]
      split
      · rw [Dict.lookup_insert_of_ne _ _ hmn]
      · rfl
  dropped m hm := by
    rw [drops_bind] at hm
    split at hm
    · simp [*]
    · exact List.mem_cons_of_mem _ (h.dropped m hm)
  input hfree := by
    rw [List.mem_cons, not_or] at hfree
    obtain ⟨hne, hfree⟩ := hfree
    rw [Dict.lookup_insert_of_ne _ _ hne]
    exact h.input hfree
  scalar m v hv hin := by
    rw [Dict.lookup_insert] at hv
    split at hv
    · cases hv
      exact hscalar
    · rename_i hne
      refine h.scalar m v hv fun hm => ?_
      rcases List.mem_cons.mp (hin hm) with heq | hmem
      · exact absurd heq hne
      · exact hmem

/-- **The kept `let`s and the lowered value give whatever the original ones do.** -/
theorem lets_sound (bindings : List (String × Expr)) : ∀ (fold : Fold) (bound : List String)
    (env env' : Env), fold.CallsWf → (Scope.new r c fold.values).Wf →
    (Scope.new r c fold.values).Describes env fields → Simulation fold r bound env env' fields →
    chk.AcceptsLets r c bound bindings →
    (∀ n ∈ bindings.flatMap (·.2.calls) ++ r.logic.value.calls,
      CallSound ctx ctx' call call' fold fields n) →
    ∀ envN w, evalBindings ctx call env bindings = .ok envN →
      evalExpr ctx call envN r.logic.value = .ok w →
      ∃ envN', evalBindings ctx' call' env' (keptLets (lets r c fold bindings).1) = .ok envN' ∧
        evalExpr ctx' call' envN' ((lets r c fold bindings).2.expr
          (Scope.new r c (lets r c fold bindings).2.values) r.logic.value).1 = .ok w := by
  induction bindings with
  | nil =>
      intro fold bound env env' hwf hscope hm hsim hacc hcalls envN w henv hval
      cases henv
      exact ⟨env', rfl, (expr_sound hwf hsim _ _ (.new hscope) hm hacc
        (fun n hn => hcalls n (by simpa using hn)) w hval).1⟩
  | cons b bindings ih =>
      intro fold bound env env' hwf hscope hm hsim hacc hcalls envN w henv hval
      obtain ⟨n, e⟩ := b
      unfold evalBindings at henv
      obtain ⟨v, hv, henv⟩ := Except.bind_eq_ok.mp henv
      have hecalls : ∀ m ∈ e.calls, CallSound ctx ctx' call call' fold fields m :=
        fun m hmem => hcalls m (by simp [hmem])
      obtain ⟨hv', hmem⟩ := expr_sound hwf hsim e _ (.new hscope) hm hacc.1 hecalls v hv
      have hscalar := isScalar_of_eval hsim hm.inRange e hacc.1 hecalls v hv
      have hfact := expr_wf hwf e _ hscope
      simp only [lets]
      generalize hfe : fold.expr (Scope.new r c fold.values) e = lowered at hv' hmem hfact ⊢
      obtain ⟨e', fact⟩ := lowered
      simp only at hv' hmem hfact ⊢
      have hcalls' : ∀ m ∈ bindings.flatMap (·.2.calls) ++ r.logic.value.calls,
          CallSound ctx ctx' call call' (fold.bind n fact) fields m := by
        intro m hm'
        have hsound := hcalls m (by
          rw [List.flatMap_cons, List.append_assoc]
          exact List.mem_append_right _ hm')
        unfold CallSound at hsound ⊢
        rwa [bind_calls]
      have hwf' : (fold.bind n fact).CallsWf := by
        unfold CallsWf
        rwa [bind_calls]
      obtain ⟨envN', henv', hval'⟩ := ih (fold.bind n fact) (n :: bound) _ _ hwf'
        (bind_wf hscope hfact n) (bind_describes hm hmem hscalar n) (hsim.bind hmem hscalar n)
        hacc.2 hcalls' envN w henv hval
      refine ⟨envN', ?_, hval'⟩
      cases hc : fact.constant with
      | some k => simpa [keptLets, hc] using henv'
      | none =>
          simp only [hc, Option.isNone_none, if_true] at henv'
          simp only [keptLets, Option.isNone_none, if_true, List.filterMap_cons, Option.map_some,
            evalBindings, hv', Bind.bind, Except.bind]
          exact henv'

end simulation

end Fold

/-! ## No read of a dropped `let` -/

/-- No kept `let` and not the value reads a name whose current `let` is dropped; `dropped` are those
names before the given `let`s. -/
def ReadsKept : List String → List (String × Option Expr) → Expr → Prop
  | dropped, [], value => ∀ n ∈ value.idents, n ∉ dropped
  | dropped, (n, some e) :: rest, value =>
      (∀ m ∈ e.idents, m ∉ dropped) ∧ ReadsKept (dropped.filter (· ≠ n)) rest value
  | dropped, (n, none) :: rest, value => ReadsKept (n :: dropped) rest value

/-- The `let`s of `r'` are `let`s of `r`, none of whose expressions reads a dropped `let`. -/
def ReadsKeptLets (r r' : Rule) : Prop :=
  ∃ lets : List (String × Option Expr), lets.map (·.1) = r.logic.bindings.map (·.1) ∧
    r'.logic.bindings = keptLets lets ∧ ReadsKept [] lets r'.logic.value

namespace Fold

lemma lets_names (r : Rule) (c : Concept) (bindings : List (String × Expr)) :
    ∀ fold : Fold, (lets r c fold bindings).1.map (·.1) = bindings.map (·.1) := by
  induction bindings with
  | nil => exact fun _ => rfl
  | cons b bindings ih =>
      intro fold
      simp only [lets, List.map_cons, ih]

/-- The lowering of a rule reads no dropped `let`. -/
theorem lets_reads {chk : Check} {r : Rule} {c : Concept} (bindings : List (String × Expr)) :
    ∀ (fold : Fold) (bound dropped : List String), fold.CallsWf →
    (Scope.new r c fold.values).Wf → (∀ n, fold.Drops n → n ∈ bound) →
    (∀ n ∈ dropped, fold.Drops n) → chk.AcceptsLets r c bound bindings →
    ReadsKept dropped (lets r c fold bindings).1 ((lets r c fold bindings).2.expr
      (Scope.new r c (lets r c fold bindings).2.values) r.logic.value).1 := by
  induction bindings with
  | nil =>
      intro fold bound dropped hwf hscope hbound hdropped hacc n hn hmem
      exact expr_reads hbound _ _ (.new hscope) hacc n hn (hdropped n hmem)
  | cons b bindings ih =>
      intro fold bound dropped hwf hscope hbound hdropped hacc
      obtain ⟨n, e⟩ := b
      have hreads := expr_reads hbound e _ (.new hscope) hacc.1
      have hfact := expr_wf hwf e _ hscope
      simp only [lets]
      generalize fold.expr (Scope.new r c fold.values) e = lowered at hreads hfact ⊢
      obtain ⟨e', fact⟩ := lowered
      simp only at hreads hfact ⊢
      have hwf' : (fold.bind n fact).CallsWf := by
        unfold CallsWf
        rwa [bind_calls]
      have hbound' : ∀ m, (fold.bind n fact).Drops m → m ∈ n :: bound := by
        intro m hm
        rw [drops_bind] at hm
        split at hm
        · simp [*]
        · exact List.mem_cons_of_mem _ (hbound m hm)
      have hrest := fun dropped hdropped => ih (fold.bind n fact) (n :: bound) dropped hwf'
        (bind_wf hscope hfact n) hbound' hdropped hacc.2
      cases hc : fact.constant with
      | none =>
          refine ⟨fun m hm hmem => hreads m hm (hdropped m hmem), hrest _ fun m hm => ?_⟩
          obtain ⟨hm, hne⟩ := List.mem_filter.mp hm
          rw [drops_bind, if_neg (by simpa using hne)]
          exact hdropped m hm
      | some k =>
          refine hrest _ fun m hm => ?_
          rw [drops_bind]
          split
          · simp [hc]
          · rcases List.mem_cons.mp hm with rfl | hm
            · exact absurd rfl ‹_›
            · exact hdropped m hm

end Fold

/-! ## Rules -/

/-- A guarded rule that accepts a record has a valid one. -/
lemma validInput_of_checkInput {ctx : Context} {chk : Check} (htables : SameTables ctx chk)
    {r : Rule} {c : Concept} (hc : chk.inputConcept r = .ok c) (hactive : r.name ∈ ctx.numeric)
    {fields : Dict String Interpreter.Value}
    (h : checkInput ctx r (.record fields) = .ok ()) : ValidInput c fields := by
  have hfind := find?_inputConcept htables hc
  have hguard : guarded ctx r = true := by simp [guarded, hactive]
  unfold checkInput at h
  rw [if_pos hguard] at h
  simp only [hfind] at h
  split at h
  · rename_i hnone
    intro f hf
    simpa using List.find?_eq_none.mp hnone f hf
  · cases h

/-- A rule that has a result has one that its abstract value stands for. -/
lemma RuleSound.mem {ctx : Context} {chk : Check} (htables : SameTables ctx chk) {n : String}
    {v : Value} (h : RuleSound ctx chk n v) {r : Rule} (hr : chk.rules.lookup n = some r)
    (hactive : r.name ∈ ctx.numeric) {fields : Dict String Interpreter.Value} {fuel : Nat}
    {w : Interpreter.Value} (hw : evalRule ctx fuel r (.record fields) = .ok w) : v.Mem w := by
  obtain ⟨r', c, hr', hc, -, heval⟩ := h.eval
  rw [hr] at hr'
  cases hr'
  have hvalid : ValidInput c fields := by
    cases fuel with
    | zero => cases hw
    | succ fuel =>
        rw [evalRule] at hw
        obtain ⟨_, hin, -⟩ := Except.bind_eq_ok.mp hw
        exact validInput_of_checkInput htables hc hactive hin
  obtain ⟨bound, hbound⟩ := Filter.eventually_atTop.mp heval
  have hend := hbound (max fuel bound) (le_max_right _ _) fields hvalid
  rcases evalRule_mono ctx (le_max_left fuel bound) r (.record fields) with h' | h'
  · rw [hw] at h'
    cases h'
  · rw [h', hw] at hend
    exact hend

lemma isScalar_of_mem {v : Value} {w : Interpreter.Value} (h : v.Mem w) : Fold.IsScalar w := by
  cases v with
  | number r =>
      obtain ⟨n, rfl, -⟩ := h.exists_number
      trivial
  | bool =>
      obtain ⟨b, rfl⟩ := h.exists_bool
      trivial

/-- The lowering of a rule with a supported input. -/
lemma lowerRule_eq {chk : Check} {r : Rule} {c : Concept} (hc : chk.inputConcept r = .ok c)
    (calls : Dict String Fact) :
    lowerRule chk.concepts calls r =
      { r with logic := { r.logic with
          bindings := keptLets (Fold.lets r c { calls } r.logic.bindings).1
          value := ((Fold.lets r c { calls } r.logic.bindings).2.expr
            (Scope.new r c (Fold.lets r c { calls } r.logic.bindings).2.values) r.logic.value).1 } }
    := by
  obtain ⟨cname, hty, hlookup, -⟩ := inputConcept_eq_ok hc
  unfold lowerRule
  simp only [hty, hlookup]

/-- The facts about rules come from sound abstract values. -/
def CallsFrom (P : String → Value → Prop) (calls : Dict String Fact) : Prop :=
  ∀ n fact, calls.lookup n = some fact → ∃ v, fact = .ofValue v ∧ P n v

section programs

variable {p : Program} (world : World) {calls : Dict String Fact}

/-- The tables of the lowered program, under the entry classification of the original one. -/
def loweredContext (p lowered : Program) (world : World) : Context :=
  { Context.ofProgram p world with rules := lowered.rules }

/-- The program with its active rules lowered, given the facts about them. -/
def lowerWith (p : Program) (calls : Dict String Fact) : Program :=
  { p with items := p.items.map (lowerItem (activeRules p) (Check.new p).concepts calls) }

/-- A rule, lowered if it is active. -/
def lowerActive (p : Program) (calls : Dict String Fact) (r : Rule) : Rule :=
  if r.name ∈ activeRules p then lowerRule (Check.new p).concepts calls r else r

lemma lowerRule_name (concepts : Dict String Concept) (calls : Dict String Fact) (r : Rule) :
    (lowerRule concepts calls r).name = r.name := by
  unfold lowerRule
  split
  · split <;> rfl
  · rfl

lemma rules_lowerWith (p : Program) (calls : Dict String Fact) :
    (lowerWith p calls).rules = p.rules.map (lowerActive p calls) := by
  unfold Program.rules lowerWith
  simp only
  induction p.items with
  | nil => rfl
  | cons i items ih =>
      cases i <;> simp_all [lowerItem, lowerActive]

lemma findRule_lowered (calls : Dict String Fact) (n : String) :
    (loweredContext p (lowerWith p calls) world).findRule n =
      ((Context.ofProgram p world).findRule n).map (lowerActive p calls) := by
  have hname : ∀ r, (lowerActive p calls r).name = r.name := by
    intro r
    unfold lowerActive
    split
    · exact lowerRule_name _ _ r
    · rfl
  unfold Context.findRule loweredContext Context.ofProgram
  simp only [rules_lowerWith, List.find?_map]
  congr 2
  funext r
  simp [hname]

variable (hnames : Verifier.nameErrors p = []) (hverify : verify p = [])
  (hcalls : CallsFrom (RuleSound (.ofProgram p world) (.new p)) calls)

include hnames hverify hcalls

/-- **The lowering of an active rule gives whatever the rule gives**, by induction on the fuel. -/
theorem lowerRule_sound (fuel : Nat) : ∀ r ∈ p.rules, r.name ∈ activeRules p → ∀ fields w,
    evalRule (.ofProgram p world) fuel r (.record fields) = .ok w →
    evalRule (loweredContext p (lowerWith p calls) world) fuel (lowerActive p calls r)
      (.record fields) = .ok w := by
  have htables := sameTables_of_program hnames world
  induction fuel with
  | zero =>
      intro r _ _ fields w h
      cases h
  | succ fuel ih =>
      intro r hr hactive fields w h
      obtain ⟨r', c, hr', hc, hacc⟩ := acceptsRule_of_verify hverify hactive
      have hlookup : (Check.new p).rules.lookup r.name = some r := by
        unfold Check.new
        rw [Verifier.lookup_rules hnames]
        exact find?_of_nodup Rule.name (Verifier.nodup_rules hnames) hr
      rw [hlookup] at hr'
      cases hr'
      obtain ⟨-, -, -, hbounds, -⟩ := inputConcept_eq_ok hc
      rw [evalRule] at h
      obtain ⟨_, hin, h⟩ := Except.bind_eq_ok.mp h
      have hvalid := validInput_of_checkInput htables hc hactive hin
      obtain ⟨env, henv, h⟩ := Except.bind_eq_ok.mp h
      obtain ⟨v, hv, hout⟩ := Except.bind_eq_ok.mp h
      -- Everything that the rule calls is active, so its lowering is known by induction.
      have hsound : ∀ n ∈ r.deps, Fold.CallSound (.ofProgram p world)
          (loweredContext p (lowerWith p calls) world) (evalRule (.ofProgram p world) fuel)
          (evalRule (loweredContext p (lowerWith p calls) world) fuel) { calls } fields n := by
        intro n hn callee u hcallee hu
        have hn' := deps_mem_participating hr hactive hn
        have hname : callee.name = n := by simpa using List.find?_some hcallee
        subst hname
        have hmem : callee ∈ p.rules := List.mem_of_find?_eq_some hcallee
        have hlookup' := (htables.rules callee.name).trans hcallee
        obtain ⟨v', hv'⟩ := ruleSound_of_verify hnames hverify hn' world
        refine ⟨isScalar_of_mem (hv'.mem htables hlookup' hn' hu), lowerActive p calls callee, ?_,
          ih callee hmem hn' fields u hu, ?_⟩
        · rw [findRule_lowered, hcallee]
          rfl
        · cases hfact : calls.lookup callee.name with
          | none => trivial
          | some fact =>
              obtain ⟨v'', rfl, hv''⟩ := hcalls _ _ hfact
              exact Fact.ofValue_mem (hv''.mem htables hlookup' hn' hu)
      have hcallsWf : Fold.CallsWf { calls } := by
        intro n fact hfact
        obtain ⟨v', rfl, hv'⟩ := hcalls n fact hfact
        exact Fact.ofValue_wf hv'.wf
      have hscope : (Scope.new r c []).Wf := .new (by simp) hbounds
      have hmodels : (Scope.new r c []).Describes [(r.inputName, .record fields)] fields :=
        .new (by simp) (by simp) (inRange_of_valid hvalid)
      obtain ⟨env', henv', hv'⟩ := Fold.lets_sound _ _ [] _ _ hcallsWf hscope hmodels
        (.start calls r fields) hacc (fun n hn => hsound n hn) env v henv hv
      rw [lowerActive, if_pos hactive, lowerRule_eq hc, evalRule]
      have hin' : checkInput (loweredContext p (lowerWith p calls) world)
          { r with logic := { r.logic with
            bindings := keptLets (Fold.lets r c { calls } r.logic.bindings).1
            value := ((Fold.lets r c { calls } r.logic.bindings).2.expr
              (Scope.new r c (Fold.lets r c { calls } r.logic.bindings).2.values)
              r.logic.value).1 } } (.record fields) = .ok () := hin
      rw [hin']
      refine Except.bind_eq_ok.mpr ⟨(), rfl, ?_⟩
      exact Except.bind_eq_ok.mpr ⟨env', henv', Except.bind_eq_ok.mpr ⟨v, hv', hout⟩⟩

omit hnames hcalls in
/-- The lowering of an active rule reads no dropped `let`. -/
theorem lowerRule_reads {r : Rule} (hr : (Check.new p).rules.lookup r.name = some r)
    (hactive : r.name ∈ activeRules p) (hwf : Fold.CallsWf { calls }) :
    ReadsKeptLets r (lowerActive p calls r) := by
  obtain ⟨r', c, hr', hc, hacc⟩ := acceptsRule_of_verify hverify hactive
  rw [hr] at hr'
  cases hr'
  obtain ⟨-, -, -, hbounds, -⟩ := inputConcept_eq_ok hc
  rw [lowerActive, if_pos hactive, lowerRule_eq hc]
  refine ⟨(Fold.lets r c { calls } r.logic.bindings).1, Fold.lets_names _ _ _ _, rfl, ?_⟩
  exact Fold.lets_reads _ _ [] [] hwf (.new (by simp) hbounds) (by simp [Fold.Drops]) (by simp) hacc

end programs

/-! ## Programs -/

/-- Checking the rules once more succeeds where the verifier found no error. -/
lemma callFacts_spec {chk : Check} {P : String → Value → Prop}
    (hinner : ∀ rule : String → M Value, (∀ name, Fallible.Keeps (Cached P) (rule name) (P name)) →
      ∀ name, Fallible.Keeps (Cached P) (chk.ruleInner rule name) (P name))
    {contract : String} (names : List String) : ∀ s calls, Cached P s → CallsFrom P calls →
      (walkErrors contract (chk.rule 128 []) names s).1 = [] →
      ∃ calls', callFacts chk names s calls = .ok calls' ∧ CallsFrom P calls' := by
  induction names with
  | nil => exact fun s calls _ hcalls _ => ⟨calls, rfl, hcalls⟩
  | cons name names ih =>
      intro s calls hs hcalls herr
      unfold walkErrors at herr
      unfold callFacts
      rcases hrun : (chk.rule 128 [] name).exec s with ⟨e | v, s'⟩
      · simp [hrun] at herr
      · rw [hrun] at herr
        obtain ⟨hs', hv⟩ := walkRule_keeps hinner 128 [] name s v s' hs hrun
        refine ih s' _ hs' (fun n fact hfact => ?_) herr
        rw [Dict.lookup_insert] at hfact
        split at hfact
        · rename_i heq
          cases hfact
          exact ⟨v, rfl, heq ▸ hv⟩
        · exact hcalls n fact hfact

/-- `r'` is a faithful lowering of the rule `r`, in the lowered program. -/
structure Preserves (p lowered : Program) (world : World) (r r' : Rule) : Prop where
  /-- it keeps the name -/
  name : r'.name = r.name
  /-- it reads no dropped `let` -/
  reads : ReadsKeptLets r r'
  /-- it gives, with the same fuel, every result that the original gives -/
  result : ∀ fuel fields w, evalRule (.ofProgram p world) fuel r (.record fields) = .ok w →
    evalRule (loweredContext p lowered world) fuel r' (.record fields) = .ok w
  /-- on a record that passes the entry guard both give a result, unless a declared byte bound
  refuses that of the original -/
  ends : ∀ c ∈ p.concepts, r.inputTy = .named c.name → ∀ fields, ValidInput c fields →
    ∀ᶠ fuel in Filter.atTop,
      (∃ w, evalRule (.ofProgram p world) fuel r (.record fields) = .ok w ∧
        evalRule (loweredContext p lowered world) fuel r' (.record fields) = .ok w) ∨
      ∃ f, evalRule (.ofProgram p world) fuel r (.record fields) = .error f ∧ TextRefusal f

end NumericBounds

end Verbosec
