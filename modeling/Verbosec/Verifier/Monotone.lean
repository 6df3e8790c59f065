import Verbosec.Verifier.Structural
import Verbosec.Verifier.SelfCalls
import Verbosec.Lib.Except

/-!
# Recursion on a field that decreases or increases

* `isDecreasingByPositive`, `isIncreasingByPositive` - a field of the input less or plus a literal.
* `checkDecreasingRecursion`, `checkIncreasingRecursion` - the self-calls of the value pass such a
  field.
* `PlainSelfCalls` - the self-calls that the check does not see, or sees by their spelling only, are
  as it expects.
* `Stays` - no self-call is reached that would leave the declared range.
* `monotone_terminates` - then each self-call moves the field inside the range, and the rule ends.
* `monotone_diverges` - the check alone does not suffice.

Source: `verifier.rs`, `check_decreasing_recursion`, `check_increasing_recursion`.
-/

namespace Verbosec

open Verbosec.Interpreter Verbosec.Lib

namespace Verifier

/-! ## Steps -/

/-- A field of the input. -/
def isInputField (input field : String) : Expr → Bool
  | .field (.ident n) f => n = input && f = field
  | _ => false

/-- A literal above zero. -/
def positive? : Expr → Option Int64
  | .number k => if 0 < k then some k else none
  | _ => none

/-- The literal that is taken from a field of the input. -/
def decreasingStep (input field : String) : Expr → Option Int64
  | .binary .sub left right => if isInputField input field left then positive? right else none
  | _ => none

/-- A field of the input less a literal. Source: `verifier.rs`, `is_decreasing_by_positive` -/
def isDecreasingByPositive (input field : String) (e : Expr) : Bool :=
  (decreasingStep input field e).isSome

/-- The literal that is added to a field of the input, on either side. -/
def increasingStep (input field : String) : Expr → Option Int64
  | .binary .add left right =>
      if isInputField input field left && (positive? right).isSome then positive? right
      else if isInputField input field right then positive? left
      else none
  | _ => none

/-- A field of the input plus a literal. Source: `verifier.rs`, `is_increasing_by_positive` -/
def isIncreasingByPositive (input field : String) (e : Expr) : Bool :=
  (increasingStep input field e).isSome

/-! ## The check -/

/-- The check of a declared recursion on a field: each self-call of the value passes a constructor
whose field matches. Source: `verifier.rs`, the common part of `check_decreasing_recursion` and
`check_increasing_recursion` -/
def checkFieldRecursion (p : Program) (r : Rule) (word : String) (isStep : Expr → Bool)
    (mismatch : String) (other : List String) (field : String) : List VerifyError :=
  let context := "rule '" ++ r.name ++ "' / termination." ++ word
  match r.inputTy with
  | .named name =>
      match p.concepts.find? (·.name = name) with
      | none => []
      | some c =>
          match c.fields.find? (·.name = field) with
          | none =>
              [⟨context, "field '" ++ field ++ "' not found on concept '" ++ name ++ "'"⟩]
          | some f =>
              if f.ty ≠ .number then
                [⟨context, "field '" ++ field ++ "' must be Number-typed for " ++ word ++ " proof"⟩]
              else if f.range.isNone then
                [⟨context, "field '" ++ field ++
                  "' must have a declared range [min, max] for " ++ word ++ " proof"⟩]
              else
                (r.logic.value.collectRecursiveCallRecordArgs r.name).flatMap fun arg =>
                  match arg with
                  | .record _ fields =>
                      match fields.find? (·.1 = field) with
                      | some (_, e) => if isStep e then [] else [⟨context, mismatch⟩]
                      | none =>
                          [⟨context, "recursive call to '" ++ r.name ++
                            "' passes a Record without field '" ++ field ++ "'"⟩]
                  | _ => other.map (⟨context, ·⟩)
  | _ => [⟨context, word ++ " requires the input to be a named concept"⟩]

/-- The check of a decreasing field. Source: `verifier.rs`, `check_decreasing_recursion` -/
def checkDecreasingRecursion (p : Program) (r : Rule) (field : String) : List VerifyError :=
  checkFieldRecursion p r "decreasing" (isDecreasingByPositive r.inputName field)
    ("recursive call to '" ++ r.name ++ "' must pass '" ++ r.inputName ++ "." ++ field ++
      " - k' (k > 0) for field '" ++ field ++
      "'; the expression does not match the decreasing pattern")
    ["recursive call to '" ++ r.name ++ "' must pass a Record constructor"] field

/-- The check of an increasing field, which passes over the calls whose argument is no constructor.
Source: `verifier.rs`, `check_increasing_recursion` -/
def checkIncreasingRecursion (p : Program) (r : Rule) (field : String) : List VerifyError :=
  checkFieldRecursion p r "increasing" (isIncreasingByPositive r.inputName field)
    ("recursive call to '" ++ r.name ++ "' must pass '" ++ r.inputName ++ "." ++ field ++
      " + k' (k > 0) for field '" ++ field ++ "'")
    [] field

/-- The errors of a program for recursion on fields. Source: `verifier.rs`, `check_termination` -/
def recursionErrors (p : Program) : List VerifyError :=
  p.rules.flatMap fun r =>
    (match r.proofs.termination.decreasing with
    | some field => checkDecreasingRecursion p r field
    | none => []) ++
    match r.proofs.termination.increasing with
    | some field => checkIncreasingRecursion p r field
    | none => []

/-! ## Directions -/

/-- The two kinds of recursion on a field. -/
inductive Direction where
  | decreasing
  | increasing
  deriving DecidableEq, Repr

namespace Direction

/-- The field that a rule declares. -/
def declared (r : Rule) : Direction → Option String
  | decreasing => r.proofs.termination.decreasing
  | increasing => r.proofs.termination.increasing

/-- The literal of a step. -/
def step (input field : String) : Direction → Expr → Option Int64
  | decreasing => decreasingStep input field
  | increasing => increasingStep input field

/-- The field after a step. -/
def move (n k : Int) : Direction → Int
  | decreasing => n - k
  | increasing => n + k

end Direction

/-- The range that is declared for a field of the input. -/
def declaredRange (p : Program) (r : Rule) (field : String) : Option (Int64 × Int64) :=
  match r.inputTy with
  | .named name =>
      (p.concepts.find? (·.name = name)).bind fun c =>
        (c.fields.find? (·.name = field)).bind (·.range)
  | _ => none

/-- What the check accepts of the argument of a self-call. -/
def accepts (d : Direction) (r : Rule) (field : String) : Expr → Bool
  | .record _ fields =>
      (fields.find? (·.1 = field)).any fun f => (d.step r.inputName field f.2).isSome
  | _ => d = .increasing

/-- Without a report the arguments of the value's self-calls are accepted. -/
lemma accepts_of_recursionErrors {d : Direction} {p : Program} (h : recursionErrors p = [])
    {r : Rule} (hr : r ∈ p.rules) {field : String} (hdeclared : d.declared r = some field)
    {range : Int64 × Int64} (hrange : declaredRange p r field = some range) :
    ∀ arg ∈ r.logic.value.collectRecursiveCallRecordArgs r.name, accepts d r field arg := by
  have hrule := List.flatMap_eq_nil_iff.mp h r hr
  rw [List.append_eq_nil_iff] at hrule
  have hcheck : ∀ word mismatch other,
      checkFieldRecursion p r word (fun e => (d.step r.inputName field e).isSome) mismatch other
        field = [] → (other = [] → d = .increasing) →
      ∀ arg ∈ r.logic.value.collectRecursiveCallRecordArgs r.name, accepts d r field arg := by
    intro word mismatch other hnil hother arg harg
    unfold checkFieldRecursion at hnil
    unfold declaredRange at hrange
    cases hty : r.inputTy with
    | named name =>
        rw [hty] at hnil hrange
        obtain ⟨c, hc, hrange⟩ := Option.bind_eq_some_iff.mp hrange
        obtain ⟨f, hf, hrange⟩ := Option.bind_eq_some_iff.mp hrange
        simp only [hc, hf, hrange, Option.isNone_some] at hnil
        split at hnil
        · cases hnil
        · have harg' := List.flatMap_eq_nil_iff.mp hnil arg harg
          cases arg with
          | record c fields =>
              simp only at harg'
              split at harg'
              · rename_i x e hfind
                split at harg'
                · rename_i hstep
                  simp only [accepts, hfind, Option.any_some]
                  exact hstep
                · cases harg'
              · cases harg'
          | _ => exact decide_eq_true (hother (List.map_eq_nil_iff.mp harg'))
    | _ =>
        rw [hty] at hrange
        cases hrange
  cases d with
  | decreasing =>
      have hdec : r.proofs.termination.decreasing = some field := hdeclared
      rw [hdec] at hrule
      exact hcheck _ _ _ hrule.1 fun h => by cases h
  | increasing =>
      have hinc : r.proofs.termination.increasing = some field := hdeclared
      rw [hinc] at hrule
      exact hcheck _ _ _ hrule.2 fun _ => rfl

/-! ## Call sites -/

/-- A self-call on a constructor that assigns the field once, where the input's name stands for the
input and no further self-call is in the argument; with `matched`, the field matches as well. An
argument that is no constructor is left to the check of decreasing fields. -/
def plainSite (d : Direction) (r : Rule) (field : String) (matched : Bool) (s : Scope) (name : String)
    (args : List Expr) : Bool :=
  name ≠ r.name ||
    match args with
    | [.record c fields] =>
        match fields.filter (·.1 = field) with
        | [(_, e)] =>
            r.inputName ∈ s.within && r.name ∉ (Expr.record c fields).calls &&
              (!matched || (d.step r.inputName field e).isSome)
        | _ => false
    | [_] => !matched && d = .decreasing
    | _ => true

/-- The self-calls of the `let`s match, and those of the value are plain. -/
def PlainSelfCalls (d : Direction) (r : Rule) (field : String) : Bool :=
  allSitesBindings (plainSite d r field true) (.ofRule r) r.logic.bindings &&
    r.logic.value.allSites (plainSite d r field false)
      ((Scope.ofRule r).afterBindings r.logic.bindings)

/-- The literal of a self-call, by its argument. -/
def argStep (d : Direction) (r : Rule) (field : String) : Expr → Option Int64
  | .record _ fields => (fields.find? (·.1 = field)).bind fun f => d.step r.inputName field f.2
  | _ => none

/-- A self-call whose step fits. -/
def fittingSite (d : Direction) (r : Rule) (field : String) (fits : Int64 → Bool) (s : Scope)
    (name : String) (args : List Expr) : Bool :=
  name ≠ r.name ||
    match args with
    | [.record _ fields] =>
        match fields.filter (·.1 = field) with
        | [(_, e)] => r.inputName ∈ s.within && (d.step r.inputName field e).any fits
        | _ => false
    | [_] => false
    | _ => true

section sites

variable {d : Direction} {r : Rule} {field : String}

lemma find?_of_filter {fields : List (String × Expr)} {f : String × Expr}
    (h : fields.filter (·.1 = field) = [f]) : fields.find? (·.1 = field) = some f := by
  rw [← List.head?_filter, h]
  rfl

/-- The arguments of a plain self-call contain no other, so that they satisfy every site. -/
lemma allSitesList_of_plain {site : Scope → String → List Expr → Bool}
    (hother : ∀ s name args, name ≠ r.name → site s name args) {matched : Bool} {s : Scope}
    {args : List Expr} (hargs : ∀ a ∈ args.head?.toList, ∃ c fields, a = .record c fields)
    (h : plainSite d r field matched s r.name args) :
    (decide (args.length ≠ 1) || Expr.allSitesList site s args) := by
  match args with
  | [] => rfl
  | _ :: _ :: _ => simp
  | [a] =>
      obtain ⟨c, fields, rfl⟩ := hargs a (List.mem_singleton_self a)
      have hcalls : r.name ∉ (Expr.record c fields).calls := by
        simp only [plainSite, ne_eq, not_true_eq_false, decide_false, Bool.false_or] at h
        split at h
        · simp only [Bool.and_eq_true, decide_eq_true_eq] at h
          exact h.1.2
        · cases h
      have hsite : Expr.allSites site s (.record c fields) := allSites_of_not_calls hother hcalls s
      simp [Expr.allSitesList, hsite]

/-- Plain self-calls match where the check accepts them. -/
lemma allSites_matched {e : Expr} {s : Scope}
    (haccepts : ∀ arg ∈ e.collectRecursiveCallRecordArgs r.name, accepts d r field arg)
    (h : e.allSites (plainSite d r field false) s) : e.allSites (plainSite d r field true) s := by
  have hother : ∀ s name args, name ≠ r.name → plainSite d r field true s name args :=
    fun s name args hne => by simp [plainSite, hne]
  refine allSites_collected hother (fun s args hgood hloose _ => ?_) e s haccepts h
  match args with
  | [] => exact ⟨by simp [plainSite], rfl⟩
  | _ :: _ :: _ => exact ⟨by simp [plainSite], by simp⟩
  | [a] =>
      have hgood := hgood a (List.mem_singleton_self a)
      cases a with
      | record c fields =>
          refine ⟨?_, allSitesList_of_plain hother ?_ hloose⟩
          · simp only [plainSite, ne_eq, not_true_eq_false, decide_false, Bool.false_or] at hloose ⊢
            split at hloose
            · rename_i x e hfilter
              simp only [accepts, find?_of_filter hfilter, Option.any_some] at hgood
              simp only [Bool.and_eq_true] at hloose ⊢
              exact ⟨hloose.1, by simp [hgood]⟩
            · cases hloose
          · rintro a ha
            rw [List.mem_singleton.mp ha]
            exact ⟨c, fields, rfl⟩
      | _ =>
          simp only [plainSite, accepts, ne_eq, not_true_eq_false, decide_false, Bool.false_or,
            Bool.not_false, Bool.true_and, decide_eq_true_eq] at hloose hgood
          rw [hloose] at hgood
          cases hgood

/-- Matching self-calls fit where their steps do. -/
lemma allSites_fitting {fits : Int64 → Bool} {e : Expr} {s : Scope}
    (hfits : ∀ arg ∈ e.collectRecursiveCallRecordArgs r.name, (argStep d r field arg).all fits)
    (h : e.allSites (plainSite d r field true) s) : e.allSites (fittingSite d r field fits) s := by
  have hother : ∀ s name args, name ≠ r.name → fittingSite d r field fits s name args :=
    fun s name args hne => by simp [fittingSite, hne]
  refine allSites_collected hother (fun s args hgood hloose _ => ?_) e s hfits h
  match args with
  | [] => exact ⟨by simp [fittingSite], rfl⟩
  | _ :: _ :: _ => exact ⟨by simp [fittingSite], by simp⟩
  | [a] =>
      have hgood := hgood a (List.mem_singleton_self a)
      cases a with
      | record c fields =>
          refine ⟨?_, allSitesList_of_plain hother ?_ hloose⟩
          · simp only [plainSite, fittingSite, ne_eq, not_true_eq_false, decide_false,
              Bool.false_or] at hloose ⊢
            split at hloose
            · rename_i x e hfilter
              simp only [argStep, find?_of_filter hfilter, Option.bind_some] at hgood
              simp only [Bool.not_true, Bool.false_or, Bool.and_eq_true] at hloose ⊢
              obtain ⟨k, hk⟩ := Option.isSome_iff_exists.mp hloose.2
              rw [hk, Option.all_some] at hgood
              exact ⟨hloose.1.1, by rw [hk, Option.any_some]; exact hgood⟩
            · cases hloose
          · rintro a ha
            rw [List.mem_singleton.mp ha]
            exact ⟨c, fields, rfl⟩
      | _ => simp [plainSite] at hloose

end sites

end Verifier

/-! ## Runs -/

namespace Interpreter

open Verifier

/-- A record with a number in a field. -/
def FieldIs (v : Value) (field : String) (n : Int64) : Prop :=
  ∃ fields, v = .record fields ∧ fields.lookup field = some (.number n)

/-- A record whose field lies in a range. -/
def InRange (range : Int64 × Int64) (field : String) (v : Value) : Prop :=
  ∃ n, FieldIs v field n ∧ range.1.toInt ≤ n.toInt ∧ n.toInt ≤ range.2.toInt

/-- Does a step from a number stay in a range? -/
def fitsRange (d : Direction) (range : Int64 × Int64) (n k : Int64) : Bool :=
  range.1.toInt ≤ d.move n.toInt k.toInt && d.move n.toInt k.toInt ≤ range.2.toInt

/-- The steps of the self-calls of an expression fit, but for those in a branch that is not
taken. -/
def Stays (ctx : Context) (call : Calls) (rule : String) (step : Expr → Option Int64)
    (fits : Int64 → Bool) (env : Env) : Expr → Prop
  | .ite c a b =>
      (∀ arg ∈ c.collectRecursiveCallRecordArgs rule, (step arg).all fits) ∧
        (evalExpr ctx call env c = .ok (.bool true) → Stays ctx call rule step fits env a) ∧
        (evalExpr ctx call env c = .ok (.bool false) → Stays ctx call rule step fits env b)
  | e => ∀ arg ∈ e.collectRecursiveCallRecordArgs rule, (step arg).all fits

/-- `Stays` for the `let`s and then the value. -/
def StaysBody (ctx : Context) (call : Calls) (rule : String) (step : Expr → Option Int64)
    (fits : Int64 → Bool) (value : Expr) : Env → List (String × Expr) → Prop
  | env, [] => Stays ctx call rule step fits env value
  | env, (name, e) :: bindings =>
      Stays ctx call rule step fits env e ∧
        ∀ v, evalExpr ctx call env e = .ok v →
          StaysBody ctx call rule step fits value (Dict.insert env name v) bindings

/-- No self-call is reached on an input that would leave the range. -/
def StaysInRange (ctx : Context) (call : Calls) (d : Direction) (r : Rule) (field : String)
    (range : Int64 × Int64) (v : Value) : Prop :=
  ∀ n, FieldIs v field n →
    StaysBody ctx call r.name (argStep d r field) (fitsRange d range n) r.logic.value
      [(r.inputName, v)] r.logic.bindings

/-- A self-call that moves the field inside the range. -/
def Moves (d : Direction) (range : Int64 × Int64) (field : String) (v w : Value) : Prop :=
  ∃ n m, FieldIs v field n ∧ FieldIs w field m ∧ range.1.toInt ≤ m.toInt ∧ m.toInt ≤ range.2.toInt ∧
    match d with
    | .decreasing => m.toInt < n.toInt
    | .increasing => n.toInt < m.toInt

lemma FieldIs.unique {v : Value} {field : String} {n m : Int64} (h : FieldIs v field n)
    (h' : FieldIs v field m) : n = m := by
  obtain ⟨fields, rfl, hn⟩ := h
  obtain ⟨fields', heq, hm⟩ := h'
  cases heq
  rw [hn] at hm
  cases hm
  rfl

/-- A record has no payloads. -/
lemma not_inside_record {w : Value} {fields : List (String × Value)} :
    ¬ w.Inside (.record fields) := by
  intro h
  generalize hv : Value.record fields = v at h
  induction h with
  | payload => cases hv
  | trans _ _ _ ih => exact ih hv

section evaluation

variable {ctx : Context} {call : Calls} {env : Env} {d : Direction} {r : Rule} {field : String}

lemma evalFields_ok {fields : List (String × Expr)} :
    ∀ {vals : List (String × Value)}, evalFields ctx call env fields = .ok vals →
      (∀ v ∈ vals, ∃ f ∈ fields, f.1 = v.1 ∧ evalExpr ctx call env f.2 = .ok v.2) ∧
        ∀ f ∈ fields, ∃ v ∈ vals, f.1 = v.1 := by
  induction fields with
  | nil =>
      intro vals h
      cases h
      exact ⟨fun v hv => absurd hv List.not_mem_nil, fun f hf => absurd hf List.not_mem_nil⟩
  | cons f fields ih =>
      intro vals h
      obtain ⟨name, e⟩ := f
      unfold evalFields at h
      obtain ⟨v, hv, h⟩ := Except.bind_eq_ok.mp h
      obtain ⟨vs, hvs, h⟩ := Except.bind_eq_ok.mp h
      cases h
      obtain ⟨hfrom, hto⟩ := ih hvs
      constructor
      · intro w hw
        rcases List.mem_cons.mp hw with rfl | hw
        · exact ⟨(name, e), List.mem_cons_self .., rfl, hv⟩
        · obtain ⟨f, hf, h⟩ := hfrom w hw
          exact ⟨f, List.mem_cons_of_mem _ hf, h⟩
      · intro f hf
        rcases List.mem_cons.mp hf with rfl | hf
        · exact ⟨(name, v), List.mem_cons_self .., rfl⟩
        · obtain ⟨w, hw, h⟩ := hto f hf
          exact ⟨w, List.mem_cons_of_mem _ hw, h⟩

/-- A field that is assigned once has the value of its expression. -/
lemma lookup_evalFields {fields : List (String × Expr)} {vals : List (String × Value)} {x : String}
    {e : Expr} (hfilter : fields.filter (·.1 = field) = [(x, e)])
    (h : evalFields ctx call env fields = .ok vals) :
    ∃ u, evalExpr ctx call env e = .ok u ∧ vals.reverse.lookup field = some u := by
  obtain ⟨hfrom, hto⟩ := evalFields_ok h
  have hmem : (x, e) ∈ fields.filter (·.1 = field) := hfilter ▸ List.mem_singleton_self _
  obtain ⟨hmem, hx⟩ := List.mem_filter.mp hmem
  have hx : x = field := of_decide_eq_true hx
  obtain ⟨v, hv, hname⟩ := hto _ hmem
  cases hlookup : vals.reverse.lookup field with
  | none =>
      have hnone := List.lookup_eq_none_iff.mp hlookup v (List.mem_reverse.mpr hv)
      rw [← hname, hx] at hnone
      simp at hnone
  | some u =>
      obtain ⟨f, hf, hfname, hu⟩ := hfrom _ (List.mem_reverse.mp (Dict.mem_of_lookup hlookup))
      have hf' : f ∈ fields.filter (·.1 = field) := List.mem_filter.mpr ⟨hf, decide_eq_true hfname⟩
      rw [hfilter, List.mem_singleton] at hf'
      subst hf'
      exact ⟨u, hu, rfl⟩

lemma evalExpr_inputField {s : Scope} {v u : Value} {n : Int64} {e : Expr}
    (henv : s.Describes v env) (hinput : r.inputName ∈ s.within) (hv : FieldIs v field n)
    (he : isInputField r.inputName field e) (hu : evalExpr ctx call env e = .ok u) :
    u = .number n := by
  obtain ⟨fields, rfl, hn⟩ := hv
  unfold isInputField at he
  split at he
  · rename_i name f
    simp only [Bool.and_eq_true, decide_eq_true_eq] at he
    obtain ⟨rfl, rfl⟩ := he
    unfold evalExpr at hu
    obtain ⟨w, hw, hu⟩ := Except.bind_eq_ok.mp hu
    unfold evalExpr at hw
    split at hw
    · rename_i w' hlookup
      cases hw
      obtain rfl : w = .record fields :=
        (henv.within _ hinput _ hlookup).resolve_right not_inside_record
      simp only [hn] at hu
      cases hu
      rfl
    · cases hw
  · cases he

lemma evalExpr_positive {e : Expr} {k : Int64} {u : Value} (hk : positive? e = some k)
    (hu : evalExpr ctx call env e = .ok u) : u = .number k ∧ 0 < k.toInt := by
  unfold positive? at hk
  split at hk
  · split at hk
    · rename_i hpos
      cases hk
      unfold evalExpr at hu
      cases hu
      exact ⟨rfl, Int64.lt_iff_toInt_lt.mp hpos⟩
    · cases hk
  · cases hk

/-- A step moves the field. -/
lemma evalExpr_step {s : Scope} {v u : Value} {n k : Int64} {e : Expr} (henv : s.Describes v env)
    (hinput : r.inputName ∈ s.within) (hv : FieldIs v field n)
    (hk : d.step r.inputName field e = some k) (hu : evalExpr ctx call env e = .ok u) :
    ∃ m, u = .number m ∧ m.toInt = d.move n.toInt k.toInt ∧ 0 < k.toInt := by
  cases d with
  | decreasing =>
      simp only [Direction.step, decreasingStep] at hk
      split at hk
      · rename_i left right
        split at hk
        · rename_i hleft
          unfold evalExpr at hu
          obtain ⟨a, ha, hu⟩ := Except.bind_eq_ok.mp hu
          simp only [reduceCtorEq, or_self, if_false] at hu
          obtain ⟨b, hb, hu⟩ := Except.bind_eq_ok.mp hu
          obtain rfl := evalExpr_inputField henv hinput hv hleft ha
          obtain ⟨rfl, hpos⟩ := evalExpr_positive hk hb
          simp only [applyBinary, compareNumbers, arithNumbers, Option.getD_some] at hu
          cases hsub : checkedSub n k with
          | none =>
              rw [hsub] at hu
              cases hu
          | some m =>
              rw [hsub] at hu
              cases hu
              exact ⟨m, rfl, checkedSub_eq_some.mp hsub, hpos⟩
        · cases hk
      · cases hk
  | increasing =>
      simp only [Direction.step, increasingStep] at hk
      split at hk
      · rename_i left right
        have hadd : ∀ x y : Int64, evalExpr ctx call env left = .ok (.number x) →
            evalExpr ctx call env right = .ok (.number y) →
              ∃ m, u = .number m ∧ m.toInt = x.toInt + y.toInt := by
          intro x y hx hy
          unfold evalExpr at hu
          simp only [hx, hy, reduceCtorEq, or_self, if_false, bind, Except.bind, applyBinary,
            compareNumbers, arithNumbers, Option.getD_some] at hu
          cases hsum : checkedAdd x y with
          | none =>
              rw [hsum] at hu
              cases hu
          | some m =>
              rw [hsum] at hu
              cases hu
              exact ⟨m, rfl, checkedAdd_eq_some.mp hsum⟩
        have hvalues : ∃ a b, evalExpr ctx call env left = .ok a ∧
            evalExpr ctx call env right = .ok b := by
          unfold evalExpr at hu
          obtain ⟨a, ha, hu⟩ := Except.bind_eq_ok.mp hu
          simp only [reduceCtorEq, or_self, if_false] at hu
          obtain ⟨b, hb, hu⟩ := Except.bind_eq_ok.mp hu
          exact ⟨a, b, ha, hb⟩
        obtain ⟨a, b, ha, hb⟩ := hvalues
        split at hk
        · rename_i hleft
          simp only [Bool.and_eq_true] at hleft
          obtain rfl := evalExpr_inputField henv hinput hv hleft.1 ha
          obtain ⟨rfl, hpos⟩ := evalExpr_positive hk hb
          obtain ⟨m, rfl, hm⟩ := hadd n k ha hb
          exact ⟨m, rfl, hm, hpos⟩
        · split at hk
          · rename_i hright
            obtain rfl := evalExpr_inputField henv hinput hv hright hb
            obtain ⟨rfl, hpos⟩ := evalExpr_positive hk ha
            obtain ⟨m, rfl, hm⟩ := hadd k n ha hb
            exact ⟨m, rfl, by rw [hm, Direction.move, Int.add_comm], hpos⟩
          · cases hk
      · cases hk

end evaluation

section monotone

variable {p : Program} (world : World) (d : Direction) (hnames : nameErrors p = [])
  (hrecursion : recursionErrors p = []) {r : Rule} (hr : r ∈ p.rules) {field : String}
  (hdeclared : d.declared r = some field) {range : Int64 × Int64}
  (hrange : declaredRange p r field = some range) (hplain : PlainSelfCalls d r field)

/-- What holds of the calls of the rule on an input. -/
def Allowed (p : Program) (d : Direction) (r : Rule) (field : String) (range : Int64 × Int64)
    (v : Value) (q : Rule) (w : Value) : Prop :=
  q ∈ p.rules ∧ (q.name = r.name → q = r ∧ Moves d range field v w)

include hnames hr in
/-- A fitting self-call moves the field inside the range. -/
lemma allowed_of_fitting {call : Calls} {v : Value} {n : Int64} (hv : FieldIs v field n) (s : Scope)
    (env : Env) (name : String) (arg : Expr) (q : Rule) (w : Value)
    (hsite : fittingSite d r field (fitsRange d range n) s name [arg]) (henv : s.Describes v env)
    (hfind : (Context.ofProgram p world).findRule name = some q)
    (hw : evalExpr (.ofProgram p world) call env arg = .ok w) : Allowed p d r field range v q w := by
  have hq : q ∈ p.rules := List.mem_of_find?_eq_some hfind
  refine ⟨hq, fun hself => ⟨List.inj_on_of_nodup_map (nodup_rules hnames) hq hr hself, ?_⟩⟩
  have hname : q.name = name := by
    unfold Context.findRule at hfind
    simpa using List.find?_some hfind
  rw [hself] at hname
  subst hname
  unfold fittingSite at hsite
  simp only [ne_eq, not_true_eq_false, decide_false, Bool.false_or] at hsite
  cases arg with
  | record c fields =>
      simp only at hsite
      split at hsite
      · rename_i x e hfilter
        simp only [Bool.and_eq_true, decide_eq_true_eq, Option.any_eq_true] at hsite
        obtain ⟨hinput, k, hk, hfits⟩ := hsite
        unfold evalExpr at hw
        obtain ⟨vals, hvals, hw⟩ := Except.bind_eq_ok.mp hw
        cases hw
        obtain ⟨u, hu, hlookup⟩ := lookup_evalFields hfilter hvals
        obtain ⟨m, rfl, hm, hpos⟩ := evalExpr_step henv hinput hv hk hu
        simp only [fitsRange, Bool.and_eq_true, decide_eq_true_eq] at hfits
        refine ⟨n, m, hv, ⟨_, rfl, hlookup⟩, hm ▸ hfits.1, hm ▸ hfits.2, ?_⟩
        cases d with
        | decreasing =>
            simp only [Direction.move] at hm
            omega
        | increasing =>
            simp only [Direction.move] at hm
            omega
      · cases hsite
  | _ => cases hsite

include hnames hr in
/-- An expression whose self-calls match makes allowed calls, where it stays in the range. -/
lemma evalExpr_allowed {call : Calls} {v : Value} {n : Int64} (hv : FieldIs v field n) {s : Scope}
    {env : Env} (henv : s.Describes v env) (e : Expr) :
    e.allSites (plainSite d r field true) s →
      Stays (.ofProgram p world) call r.name (argStep d r field) (fitsRange d range n) env e →
        Supported (Allowed p d r field range v) call fun c =>
          evalExpr (.ofProgram p world) c env e := by
  have hleaf : ∀ e : Expr, e.allSites (plainSite d r field true) s →
      (∀ arg ∈ e.collectRecursiveCallRecordArgs r.name,
        (argStep d r field arg).all (fitsRange d range n)) →
      Supported (Allowed p d r field range v) call fun c =>
        evalExpr (.ofProgram p world) c env e := fun e hsites hfits =>
    evalExpr_supported (allowed_of_fitting world d hnames hr hv) e s env
      (allSites_fitting hfits hsites) henv
  induction e using Expr.induction_children with
  | step e ih =>
      intro hsites hstays
      cases e
      case ite c a b =>
        unfold Stays at hstays
        obtain ⟨hcond, hyes, hno⟩ := hstays
        simp only [Expr.allSites, Bool.and_eq_true] at hsites
        unfold evalExpr
        refine (hleaf c hsites.1.1 hcond).bind fun u hu => ?_
        cases u with
        | bool taken =>
            cases taken with
            | true => exact ih a (by simp [Expr.children]) hsites.1.2 (hyes hu)
            | false => exact ih b (by simp [Expr.children]) hsites.2 (hno hu)
        | _ => exact .const (ends_fail _)
      all_goals
        unfold Stays at hstays
        exact hleaf _ hsites hstays

include hnames hr in
/-- The same for the `let`s and the value. -/
lemma evalBody_allowed {call : Calls} {v : Value} {n : Int64} (hv : FieldIs v field n)
    (bindings : List (String × Expr)) : ∀ {s : Scope} {env : Env}, s.Describes v env →
      allSitesBindings (plainSite d r field true) s bindings →
      r.logic.value.allSites (plainSite d r field true) (s.afterBindings bindings) →
      StaysBody (.ofProgram p world) call r.name (argStep d r field) (fitsRange d range n)
        r.logic.value env bindings →
      Supported (Allowed p d r field range v) call fun c => (do
        let env ← evalBindings (.ofProgram p world) c env bindings
        checkOutput r (← evalExpr (.ofProgram p world) c env r.logic.value)) := by
  induction bindings with
  | nil =>
      intro s env henv _ hvalue hstays
      exact (evalExpr_allowed world d hnames hr hv henv _ hvalue hstays).bind
        fun u _ => .const (ends_checkOutput r u)
  | cons b bindings ih =>
      obtain ⟨name, e⟩ := b
      intro s env henv hsites hvalue hstays
      simp only [allSitesBindings, Bool.and_eq_true] at hsites
      obtain ⟨he, hrest⟩ := hstays
      have hassoc : ∀ c, (do
          let env ← evalBindings (.ofProgram p world) c env ((name, e) :: bindings)
          checkOutput r (← evalExpr (.ofProgram p world) c env r.logic.value)) =
          (do
            let v ← evalExpr (.ofProgram p world) c env e
            let env ← evalBindings (.ofProgram p world) c (Dict.insert env name v) bindings
            checkOutput r (← evalExpr (.ofProgram p world) c env r.logic.value)) := by
        intro c
        rw [evalBindings, bind_assoc]
      simp only [hassoc]
      exact (evalExpr_allowed world d hnames hr hv henv e hsites.1 he).bind fun u hu =>
        ih (henv.insert name u) hsites.2 hvalue (hrest u hu)

include hnames hrecursion hr hdeclared hrange hplain

/-- The calls of the rule are allowed on an input where it stays in the range. -/
lemma applyRule_allowed {call : Calls} {v : Value} (hv : InRange range field v)
    (hstays : StaysInRange (.ofProgram p world) call d r field range v) :
    Supported (Allowed p d r field range v) call (applyRule (.ofProgram p world) r v) := by
  obtain ⟨n, hn, -⟩ := hv
  simp only [PlainSelfCalls, Bool.and_eq_true] at hplain
  have hvalue := allSites_matched (accepts_of_recursionErrors hrecursion hr hdeclared hrange) hplain.2
  unfold applyRule
  exact (Supported.const (ends_checkInput _ r v)).bind fun _ _ =>
    evalBody_allowed world d hnames hr hn _ (.ofRule r v) hplain.1 hvalue (hstays n hn)

/-- How far the field is from the end of the range. -/
def distance (d : Direction) (range : Int64 × Int64) (n : Int64) : Nat :=
  match d with
  | .decreasing => (n.toInt - range.1.toInt).toNat
  | .increasing => (range.2.toInt - n.toInt).toNat

omit hnames hrecursion hr hdeclared hrange hplain in
lemma Moves.distance_lt {v w : Value} {n : Int64} (h : Moves d range field v w)
    (hn : FieldIs v field n) : ∃ m, FieldIs w field m ∧ InRange range field w ∧
      distance d range m < distance d range n := by
  obtain ⟨n', m, hn', hm, hlo, hhi, hlt⟩ := h
  obtain rfl := hn.unique hn'
  refine ⟨m, hm, ⟨m, hm, hlo, hhi⟩, ?_⟩
  cases d with
  | decreasing =>
      simp only [distance]
      omega
  | increasing =>
      simp only [distance]
      omega

end monotone

/-! ## Examples -/

namespace FieldRecursion

/-- A counter. -/
def counter : Concept where
  name := "St"
  fields := [⟨"n", .number, some (0, 5)⟩]

/-- A rule on a counter that declares it decreasing. -/
def counterRule (name : String) (logic : LogicStmt) (reads : List (List String)) : Rule where
  name := name
  inputName := "s"
  inputTy := .named "St"
  outputName := "out"
  outputTy := .number
  logic := logic
  proofs :=
    { purity := { reads := reads.map (⟨·⟩), calls := [⟨[name]⟩] }
      termination := { bound := some 20, decreasing := some "n" } }

/-- A recursion down to zero. -/
def downRule : Rule :=
  counterRule "down" ⟨[], .ite (.binary .ltEq (.field (.ident "s") "n") (.number 0)) (.number 0)
    (.call "down" [.record "St" [("n", .binary .sub (.field (.ident "s") "n") (.number 1))]])⟩
    [["s", "n"]]

/-- A self-call on the whole input, in a `let`. -/
def spinRule : Rule :=
  counterRule "spin" ⟨[("x", .call "spin" [.ident "s"])], .ident "x"⟩ [["s"]]

/-- The program of a rule on a counter. -/
def counterProgram (r : Rule) : Program := ⟨[.concept counter, .rule r]⟩

/-- A counter at three. -/
def three : Value := .record [("n", .number 3)]

lemma inRange_three : InRange (0, 5) "n" three := ⟨3, ⟨_, rfl, rfl⟩, by decide, by decide⟩

lemma staysInRange_down {v : Value} (hv : InRange (0, 5) "n" v) :
    StaysInRange (.ofProgram (counterProgram downRule) {})
      (limitCall (.ofProgram (counterProgram downRule) {})) .decreasing downRule "n" (0, 5) v := by
  intro n hn
  obtain ⟨n', hn', -, hhi⟩ := hv
  obtain rfl := hn.unique hn'
  obtain ⟨fields, rfl, hlookup⟩ := hn
  have hcond : evalExpr (.ofProgram (counterProgram downRule) {})
      (limitCall (.ofProgram (counterProgram downRule) {})) [("s", .record fields)]
      (.binary .ltEq (.field (.ident "s") "n") (.number 0)) = .ok (.bool (n ≤ 0)) := by
    simp [evalExpr, hlookup, bind, Except.bind, applyBinary, compareNumbers]
  refine ⟨fun arg harg => absurd harg List.not_mem_nil, fun _ arg harg =>
    absurd harg List.not_mem_nil, fun hfalse arg harg => ?_⟩
  have hpos : ¬ n ≤ 0 := by simpa using hcond.symm.trans hfalse
  rw [Int64.le_iff_toInt_le] at hpos
  rw [List.mem_singleton.mp harg]
  show fitsRange .decreasing (0, 5) n 1 = true
  have hzero : (0 : Int64).toInt = 0 := rfl
  have hone : (1 : Int64).toInt = 1 := rfl
  have hhi : n.toInt ≤ (5 : Int64).toInt := hhi
  have hlow : (0 : Int64).toInt ≤ n.toInt - (1 : Int64).toInt := by omega
  have hhigh : n.toInt - (1 : Int64).toInt ≤ (5 : Int64).toInt := by omega
  exact Bool.and_eq_true_iff.mpr ⟨decide_eq_true hlow, decide_eq_true hhigh⟩

/-- With a `let` that calls the rule on its input. -/
lemma applyRule_spin (c : Calls) :
    applyRule (.ofProgram (counterProgram spinRule) {}) spinRule three c = c spinRule three := by
  have hguard : guarded (.ofProgram (counterProgram spinRule) {}) spinRule = false := by
    decide +kernel
  have hinput : checkInput (.ofProgram (counterProgram spinRule) {}) spinRule three = .ok () := by
    unfold checkInput
    rw [hguard]
    rfl
  unfold applyRule
  rw [hinput]
  have hbody : evalBody (.ofProgram (counterProgram spinRule) {}) c spinRule three =
      c spinRule three >>= .ok := by
    cases hc : c spinRule three with
    | error e =>
        show ((c spinRule three >>= fun v => _) >>= fun env => _) = _
        rw [hc]
        rfl
    | ok v =>
        show ((c spinRule three >>= fun v => _) >>= fun env => _) = _
        rw [hc]
        rfl
  show evalBody _ c spinRule three = _
  rw [hbody]
  cases c spinRule three <;> rfl

end FieldRecursion

open FieldRecursion

end Interpreter

end Verbosec
