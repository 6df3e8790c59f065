import Verbosec.Interpreter.Eval
import Verbosec.Lib.Except
import Verbosec.NumericBounds.Constrain

/-!
# Branch-local numeric facts

* `Value` - the abstract value of an expression: an interval set, or a truth value; `Value.Mem`
  relates it to the runtime values it stands for.
* `Scope` - the `let`s of a rule, its input concept, and the facts the enclosing guards established
  about `let`s and input fields.
* `Scope.branch` - the scope of one arm of a conditional.
* `Scope.Wf` - the interval sets of a scope are well formed; every guard keeps this.
* `Scope.Describes s env fields` - what the scope says of the environment `env`, in which the input
  is the record `fields`, holds; `Scope.Models` - and the scope knows all its `let`s.
* `Scope.Describes.branch` - the scope of the arm that is taken describes the environment too;
  `sameScalar_sound` - two reads of one scalar have one value.

Source: `numeric_bounds/guards.rs`; `numeric_bounds.rs`, `Value`.
-/

namespace Verbosec.NumericBounds

open Verbosec.Lib

/-! ## Abstract values -/

/-- The abstract value of an expression. Source: `numeric_bounds.rs`, `Value` -/
inductive Value where
  | number (ranges : Ranges)
  | bool
  deriving DecidableEq, Repr

namespace Value

/-- The interval set of a number. Source: `numeric_bounds.rs`, `Value::number` -/
def asNumber : Value → Except String Ranges
  | number r => .ok r
  | bool => .error "expected number, found bool"

/-- The check that a value is a truth value. Source: `numeric_bounds.rs`, `Value::boolean` -/
def asBoolean : Value → Except String Unit
  | bool => .ok ()
  | number _ => .error "expected bool, found number"

/-- The type of an abstract value. Source: `numeric_bounds.rs`, `Value::ty` -/
def ty : Value → Ty
  | number _ => .number
  | bool => .bool

/-- The interval sets of an abstract value are well formed. -/
def Wf : Value → Prop
  | number r => r.Wf
  | bool => True

/-- The runtime values an abstract value stands for. -/
def Mem : Value → Interpreter.Value → Prop
  | number r, .number n => n.toInt ∈ r
  | bool, .bool _ => True
  | _, _ => False

@[simp] lemma asNumber_eq_ok {v : Value} {r : Ranges} : v.asNumber = .ok r ↔ v = number r := by
  cases v <;> simp [asNumber]

@[simp] lemma asBoolean_eq_ok {v : Value} {u : Unit} : v.asBoolean = .ok u ↔ v = bool := by
  cases v <;> simp [asBoolean]

lemma Mem.exists_number {r : Ranges} {w : Interpreter.Value} (h : (number r).Mem w) :
    ∃ n : Int64, w = .number n ∧ n.toInt ∈ r := by
  cases w <;> first | exact ⟨_, rfl, h⟩ | exact h.elim

lemma Mem.exists_bool {w : Interpreter.Value} (h : bool.Mem w) : ∃ b, w = .bool b := by
  cases w <;> first | exact ⟨_, rfl⟩ | exact h.elim

end Value

/-! ## Scopes -/

/-- What a guard can be about. Source: `numeric_bounds/guards.rs`, `Place` -/
inductive Place where
  | localVar (name : String)
  | field (name : String)
  deriving DecidableEq, Repr

/-- The lexical scope of an expression. Source: `numeric_bounds/guards.rs`, `Scope` -/
structure Scope where
  /-- the abstract values of the `let`s -/
  locals : Dict String Value
  /-- the input concept -/
  concept : Concept
  /-- the input name -/
  input : String
  /-- established facts about `let`s -/
  localFacts : Dict String Ranges := []
  /-- established facts about input fields -/
  fieldFacts : Dict String Ranges := []

/-- The literal an expression is, signed or not. Source: `numeric_bounds/guards.rs`, `literal` -/
def literal : Expr → Option Int64
  | .number n => some n
  | .neg (.number n) => checkedNeg n
  | _ => none

/-- The comparison that a condition's truth value establishes.
Source: `numeric_bounds/guards.rs`, `comparison` -/
def comparison (op : BinOp) (truth : Bool) : Option BinOp :=
  match op with
  | .eq => some (if truth then .eq else .notEq)
  | .notEq => some (if truth then .notEq else .eq)
  | .lt => some (if truth then .lt else .gtEq)
  | .ltEq => some (if truth then .ltEq else .gt)
  | .gt => some (if truth then .gt else .ltEq)
  | .gtEq => some (if truth then .gtEq else .lt)
  | _ => none

/-- The comparison with its operands exchanged. Source: `numeric_bounds/guards.rs`, `reverse` -/
def reverse : BinOp → BinOp
  | .lt => .gt
  | .ltEq => .gtEq
  | .gt => .lt
  | .gtEq => .ltEq
  | op => op

/-- The declared interval of a numeric field. -/
def declaredRange (f : Field) : Ranges :=
  match f.range with
  | some b => .interval b.1.toInt b.2.toInt
  | none => .interval minI64 maxI64

namespace Scope

/-- The scope before any guard. Source: `numeric_bounds/guards.rs`, `Scope::new` -/
def new (r : Rule) (concept : Concept) (locals : Dict String Value) : Scope where
  locals := locals
  concept := concept
  input := r.inputName

/-- The abstract value of a `let`, narrowed by the facts.
Source: `numeric_bounds/guards.rs`, `Scope::local` -/
def localValue (s : Scope) (name : String) : Option Value :=
  match s.locals.lookup name with
  | none => none
  | some (.number ranges) => some (.number ((s.localFacts.lookup name).getD ranges))
  | some .bool => some .bool

/-- The interval set of a numeric input field, narrowed by the facts.
Source: `numeric_bounds/guards.rs`, `Scope::field` -/
def field (s : Scope) (name : String) : Option Ranges :=
  match s.concept.fields.find? fun f => f.name = name ∧ f.ty = .number with
  | none => none
  | some f => some ((s.fieldFacts.lookup name).getD (declaredRange f))

/-- Is an expression the input, not hidden by a `let`? -/
def isInput (s : Scope) : Expr → Bool
  | .ident n => n = s.input && !s.locals.has n
  | _ => false

/-- The scalar that an expression reads directly.
Source: `numeric_bounds/guards.rs`, `Scope::scalar` -/
def scalar (s : Scope) : Expr → Option (Place × Ranges)
  | .ident n =>
      match s.localValue n with
      | some (.number ranges) => some (.localVar n, ranges)
      | _ => none
  | .field base n => if s.isInput base then (s.field n).map (.field n, ·) else none
  | _ => none

/-- Do two expressions read one scalar? Source: `numeric_bounds/guards.rs`,
`Scope::same_scalar` -/
def sameScalar (s : Scope) (left right : Expr) : Bool :=
  match s.scalar left, s.scalar right with
  | some (l, _), some (r, _) => l = r
  | _, _ => false

/-- A scalar or a literal. Source: `numeric_bounds/guards.rs`, `Scope::operand` -/
def operand (s : Scope) (e : Expr) : Option (Option Place × Ranges) :=
  match s.scalar e with
  | some (place, ranges) => some (some place, ranges)
  | none => (literal e).map fun n => (none, .interval n.toInt n.toInt)

/-- A new fact. Source: `numeric_bounds/guards.rs`, `Scope::record` -/
def record (s : Scope) (place : Option Place) (ranges : Ranges) : Scope :=
  match place with
  | some (.localVar name) => { s with localFacts := s.localFacts.insert name ranges }
  | some (.field name) => { s with fieldFacts := s.fieldFacts.insert name ranges }
  | none => s

/-- The facts of one comparison that holds; both projections use the facts before it.
Source: `numeric_bounds/guards.rs`, `Scope::assume` -/
def assumeComparison (s : Scope) (op : BinOp) (a b : Expr) : Option Scope :=
  match s.operand a, s.operand b with
  | some (aPlace, aRanges), some (bPlace, bRanges) =>
      if aPlace = bPlace then some s
      else
        match aRanges.constrain op bRanges, bRanges.constrain (reverse op) aRanges with
        | some aRefined, some bRefined => some ((s.record aPlace aRefined).record bPlace bRefined)
        | _, _ => none
  | _, _ => some s

/-- The facts of a condition with a known truth value; `none` when it cannot have that value.
Source: `numeric_bounds/guards.rs`, `Scope::assume` -/
def assume (s : Scope) : Expr → Bool → Option Scope
  | .not e, truth => s.assume e !truth
  | .binary op a b, truth =>
      if op = .and ∧ truth = true ∨ op = .or ∧ truth = false then
        match s.assume a truth with
        | none => none
        | some s' => s'.assume b truth
      else
        match comparison op truth with
        | none => some s
        | some op => s.assumeComparison op a b
  | _, _ => some s

/-- The scope of one arm of a conditional; an impossible arm keeps the facts before it.
Source: `numeric_bounds/guards.rs`, `Scope::branch` -/
def branch (s : Scope) (condition : Expr) (truth : Bool) : Scope :=
  (s.assume condition truth).getD s

end Scope

/-! ## What a scope says -/

/-- Every numeric field of the concept is a number within its declared bounds. -/
def NumericFieldsInRange (concept : Concept) (fields : Dict String Interpreter.Value) : Prop :=
  ∀ f ∈ concept.fields, f.ty = .number →
    ∃ n : Int64, fields.lookup f.name = some (.number n) ∧ n.toInt ∈ declaredRange f

/-- The interval sets of a scope are well formed. -/
structure Scope.Wf (s : Scope) : Prop where
  /-- those of the `let`s -/
  locals : ∀ n v, s.locals.lookup n = some v → v.Wf
  /-- those of the facts about `let`s -/
  localFacts : ∀ n r, s.localFacts.lookup n = some r → r.Wf
  /-- those of the facts about fields -/
  fieldFacts : ∀ n r, s.fieldFacts.lookup n = some r → r.Wf
  /-- the declared ranges are nonempty -/
  bounds : ∀ f ∈ s.concept.fields, ∀ b ∈ f.range, b.1 ≤ b.2

/-- The scope describes an environment whose input is the record `fields`. A `let` that the scope
does not know may hide the input, but not by another record. -/
structure Scope.Describes (s : Scope) (env : Interpreter.Env)
    (fields : Dict String Interpreter.Value) : Prop where
  /-- every `let` has a value that its abstract value stands for -/
  locals : ∀ n v, s.locals.lookup n = some v → ∃ w, env.lookup n = some w ∧ v.Mem w
  /-- a record at the name of the input is the input -/
  input : s.locals.lookup s.input = none →
    ∀ fs, env.lookup s.input = some (.record fs) → fs = fields
  /-- the facts about `let`s hold -/
  localFacts : ∀ n r, s.localFacts.lookup n = some r →
    ∃ x : Int64, env.lookup n = some (.number x) ∧ x.toInt ∈ r
  /-- the facts about fields hold -/
  fieldFacts : ∀ n r, s.fieldFacts.lookup n = some r →
    ∃ x : Int64, fields.lookup n = some (.number x) ∧ x.toInt ∈ r
  /-- the record is within the declared ranges -/
  inRange : NumericFieldsInRange s.concept fields

/-- The scope knows every `let` of an environment that it describes. -/
structure Scope.Models (s : Scope) (env : Interpreter.Env) (fields : Dict String Interpreter.Value) :
    Prop extends s.Describes env fields where
  /-- the input is the record, unless a `let` hides it -/
  bound : s.locals.lookup s.input = none → env.lookup s.input = some (.record fields)

/-- The scope before any guard is well formed as soon as its `let`s are. -/
lemma Scope.Wf.new {r : Rule} {concept : Concept} {locals : Dict String Value}
    (hlocals : ∀ n v, locals.lookup n = some v → v.Wf)
    (hbounds : ∀ f ∈ concept.fields, ∀ b ∈ f.range, b.1 ≤ b.2) :
    (Scope.new r concept locals).Wf where
  locals := hlocals
  localFacts := by simp [Scope.new]
  fieldFacts := by simp [Scope.new]
  bounds := hbounds

/-- The scope before any guard describes every environment that its `let`s describe. -/
lemma Scope.Describes.new {r : Rule} {concept : Concept} {locals : Dict String Value}
    {env : Interpreter.Env} {fields : Dict String Interpreter.Value}
    (hlocals : ∀ n v, locals.lookup n = some v → ∃ w, env.lookup n = some w ∧ v.Mem w)
    (hinput : locals.lookup r.inputName = none →
      ∀ fs, env.lookup r.inputName = some (.record fs) → fs = fields)
    (hrange : NumericFieldsInRange concept fields) :
    (Scope.new r concept locals).Describes env fields where
  locals := hlocals
  input := hinput
  localFacts := by simp [Scope.new]
  fieldFacts := by simp [Scope.new]
  inRange := hrange

lemma Scope.Models.new {r : Rule} {concept : Concept} {locals : Dict String Value}
    {env : Interpreter.Env} {fields : Dict String Interpreter.Value}
    (hlocals : ∀ n v, locals.lookup n = some v → ∃ w, env.lookup n = some w ∧ v.Mem w)
    (hinput : locals.lookup r.inputName = none → env.lookup r.inputName = some (.record fields))
    (hrange : NumericFieldsInRange concept fields) :
    (Scope.new r concept locals).Models env fields where
  toDescribes := by
    refine .new hlocals (fun hnone fs hfs => ?_) hrange
    rw [hinput hnone] at hfs
    cases hfs
    rfl
  bound := hinput

/-! ## Scopes stay well formed -/

lemma declaredRange_wf {f : Field} (h : ∀ b ∈ f.range, b.1 ≤ b.2) : (declaredRange f).Wf := by
  unfold declaredRange
  split
  · rename_i b hb
    exact .interval (Int64.le_iff_toInt_le.mp (h b hb)) (inI64_toInt _) (inI64_toInt _)
  · exact .interval (by decide) (by decide) (by decide)

lemma singleton_wf (n : Int64) : (Ranges.interval n.toInt n.toInt).Wf :=
  .interval (le_refl _) (inI64_toInt _) (inI64_toInt _)

namespace Scope.Wf

variable {s : Scope}

lemma localValue (h : s.Wf) {n : String} {v : Value} (hv : s.localValue n = some v) : v.Wf := by
  unfold Scope.localValue at hv
  split at hv
  · cases hv
  · rename_i ranges hn
    cases hv
    cases hfact : s.localFacts.lookup n with
    | none => exact h.locals n _ hn
    | some r => exact h.localFacts n r hfact
  · cases hv
    trivial

lemma field (h : s.Wf) {n : String} {r : Ranges} (hr : s.field n = some r) : r.Wf := by
  unfold Scope.field at hr
  split at hr
  · cases hr
  · rename_i f hf
    cases hr
    cases hfact : s.fieldFacts.lookup n with
    | none => exact declaredRange_wf (h.bounds f (List.mem_of_find?_eq_some hf))
    | some r => exact h.fieldFacts n r hfact

lemma scalar (h : s.Wf) {e : Expr} {place : Place} {r : Ranges}
    (he : s.scalar e = some (place, r)) : r.Wf := by
  unfold Scope.scalar at he
  split at he
  · split at he
    · rename_i r' hr'
      cases he
      exact h.localValue hr'
    · cases he
  · split at he
    · obtain ⟨r', hr', hpair⟩ := Option.map_eq_some_iff.mp he
      cases hpair
      exact h.field hr'
    · cases he
  · cases he

lemma operand (h : s.Wf) {e : Expr} {place : Option Place} {r : Ranges}
    (he : s.operand e = some (place, r)) : r.Wf := by
  unfold Scope.operand at he
  split at he
  · rename_i pl r' hs
    cases he
    exact h.scalar hs
  · obtain ⟨n, -, hpair⟩ := Option.map_eq_some_iff.mp he
    cases hpair
    exact singleton_wf n

lemma record (h : s.Wf) {place : Option Place} {r : Ranges} (hr : r.Wf) :
    (s.record place r).Wf := by
  cases place with
  | none => exact h
  | some pl =>
      cases pl with
      | localVar n =>
          refine { h with localFacts := fun m r' hm => ?_ }
          simp only [Scope.record, Dict.lookup_insert] at hm
          split at hm
          · cases hm
            exact hr
          · exact h.localFacts m r' hm
      | field n =>
          refine { h with fieldFacts := fun m r' hm => ?_ }
          simp only [Scope.record, Dict.lookup_insert] at hm
          split at hm
          · cases hm
            exact hr
          · exact h.fieldFacts m r' hm

lemma assumeComparison (h : s.Wf) {op : BinOp} {a b : Expr} {s' : Scope}
    (hs : s.assumeComparison op a b = some s') : s'.Wf := by
  unfold Scope.assumeComparison at hs
  split at hs
  · rename_i aPlace aRanges bPlace bRanges ha hb
    split at hs
    · cases hs
      exact h
    · split at hs
      · rename_i ra rb hra hrb
        cases hs
        exact (h.record (Ranges.constrain_wf (h.operand ha) hra)).record
          (Ranges.constrain_wf (h.operand hb) hrb)
      · cases hs
  · cases hs
    exact h

lemma assume (e : Expr) : ∀ {s s' : Scope} {truth : Bool}, s.Wf → s.assume e truth = some s' →
    s'.Wf := by
  induction e using Expr.induction_children with
  | step e ih =>
      intro s s' truth h hs
      cases e
      case not e => exact ih e (by simp [Expr.children]) h hs
      case binary op a b =>
        unfold Scope.assume at hs
        split at hs
        · split at hs
          · cases hs
          · rename_i s₁ hs₁
            exact ih b (by simp [Expr.children]) (ih a (by simp [Expr.children]) h hs₁) hs
        · split at hs
          · cases hs
            exact h
          · exact h.assumeComparison hs
      all_goals
        cases hs
        exact h

/-- The scope of an arm is well formed. -/
lemma branch (h : s.Wf) (condition : Expr) (truth : Bool) : (s.branch condition truth).Wf := by
  unfold Scope.branch
  cases hs : s.assume condition truth with
  | none => exact h
  | some s' => exact assume condition h hs

end Scope.Wf

/-! ## Guards add facts only -/

/-- The scopes differ in their facts only. -/
structure Scope.SameFrame (s s' : Scope) : Prop where
  /-- the same input concept -/
  concept : s'.concept = s.concept
  /-- the same input name -/
  input : s'.input = s.input
  /-- the same `let`s -/
  locals : s'.locals = s.locals

namespace Scope.SameFrame

lemma refl (s : Scope) : s.SameFrame s := ⟨rfl, rfl, rfl⟩

lemma trans {s₁ s₂ s₃ : Scope} (h : s₁.SameFrame s₂) (h' : s₂.SameFrame s₃) : s₁.SameFrame s₃ :=
  ⟨h'.concept.trans h.concept, h'.input.trans h.input, h'.locals.trans h.locals⟩

lemma record (s : Scope) (place : Option Place) (r : Ranges) : s.SameFrame (s.record place r) := by
  cases place with
  | none => exact .refl s
  | some pl => cases pl <;> exact ⟨rfl, rfl, rfl⟩

lemma assumeComparison {s s' : Scope} {op : BinOp} {a b : Expr}
    (hs : s.assumeComparison op a b = some s') : s.SameFrame s' := by
  unfold Scope.assumeComparison at hs
  split at hs
  · split at hs
    · cases hs
      exact .refl s
    · split at hs
      · cases hs
        exact (record s _ _).trans (record _ _ _)
      · cases hs
  · cases hs
    exact .refl s

lemma assume (e : Expr) : ∀ {s s' : Scope} {truth : Bool}, s.assume e truth = some s' →
    s.SameFrame s' := by
  induction e using Expr.induction_children with
  | step e ih =>
      intro s s' truth hs
      cases e
      case not e => exact ih e (by simp [Expr.children]) hs
      case binary op a b =>
        unfold Scope.assume at hs
        split at hs
        · split at hs
          · cases hs
          · rename_i s₁ hs₁
            exact (ih a (by simp [Expr.children]) hs₁).trans (ih b (by simp [Expr.children]) hs)
        · split at hs
          · cases hs
            exact .refl s
          · exact assumeComparison hs
      all_goals
        cases hs
        exact .refl s

lemma branch (s : Scope) (condition : Expr) (truth : Bool) :
    s.SameFrame (s.branch condition truth) := by
  unfold Scope.branch
  cases hs : s.assume condition truth with
  | none => exact .refl s
  | some s' => exact assume condition hs

end Scope.SameFrame

/-! ## Scopes keep describing the environment -/

section sound

variable {s : Scope} {env : Interpreter.Env} {fields : Dict String Interpreter.Value}

/-- The number stored at a place. -/
def Place.read (env : Interpreter.Env) (fields : Dict String Interpreter.Value) :
    Place → Option Interpreter.Value
  | .localVar n => env.lookup n
  | .field n => fields.lookup n

/-- A `let` has a value that its narrowed abstract value stands for. -/
lemma Scope.Describes.localValue_sound (h : s.Describes env fields) {n : String} {v : Value}
    (hv : s.localValue n = some v) : ∃ w, env.lookup n = some w ∧ v.Mem w := by
  unfold Scope.localValue at hv
  split at hv
  · cases hv
  · rename_i ranges hn
    cases hv
    cases hfact : s.localFacts.lookup n with
    | none => exact h.locals n _ hn
    | some r =>
        obtain ⟨x, hx, hmem⟩ := h.localFacts n r hfact
        exact ⟨.number x, hx, hmem⟩
  · rename_i hn
    cases hv
    exact h.locals n _ hn

/-- A numeric field of the input is a number in its narrowed interval set. -/
lemma Scope.Describes.field_sound (h : s.Describes env fields) {n : String} {r : Ranges}
    (hr : s.field n = some r) :
    ∃ x : Int64, fields.lookup n = some (.number x) ∧ x.toInt ∈ r := by
  unfold Scope.field at hr
  split at hr
  · cases hr
  · rename_i f hf
    cases hr
    have hfn := List.find?_some hf
    simp only [decide_eq_true_eq] at hfn
    cases hfact : s.fieldFacts.lookup n with
    | none =>
        obtain ⟨x, hx, hxr⟩ := h.inRange f (List.mem_of_find?_eq_some hf) hfn.2
        exact ⟨x, hfn.1 ▸ hx, hxr⟩
    | some r => exact h.fieldFacts n r hfact

/-- The unhidden input is bound to the record. -/
lemma Scope.Models.isInput_sound (h : s.Models env fields) {e : Expr} (he : s.isInput e = true) :
    e = .ident s.input ∧ env.lookup s.input = some (.record fields) := by
  unfold Scope.isInput at he
  split at he
  · rename_i n
    simp only [Bool.and_eq_true, decide_eq_true_eq, Bool.not_eq_true', Dict.has_eq_false] at he
    obtain ⟨rfl, hnone⟩ := he
    exact ⟨rfl, h.bound hnone⟩
  · cases he

variable {ctx : Interpreter.Context} {call : Rule → Interpreter.Value →
  Interpreter.Outcome Interpreter.Value}

/-- A direct read of a scalar has the value stored at its place. -/
lemma Scope.Describes.scalar_sound (h : s.Describes env fields) {e : Expr} {place : Place}
    {r : Ranges} (he : s.scalar e = some (place, r)) {w : Interpreter.Value}
    (heval : Interpreter.evalExpr ctx call env e = .ok w) :
    ∃ x : Int64, w = .number x ∧ place.read env fields = some (.number x) ∧ x.toInt ∈ r := by
  unfold Scope.scalar at he
  split at he
  · rename_i n
    split at he
    · rename_i r' hr'
      cases he
      obtain ⟨w', hw', hmem⟩ := h.localValue_sound hr'
      obtain ⟨x, rfl, hx⟩ := hmem.exists_number
      simp only [Interpreter.evalExpr, hw', Except.ok.injEq] at heval
      exact ⟨x, heval.symm, hw', hx⟩
    · cases he
  · rename_i base n
    split at he
    · rename_i hin
      obtain ⟨r', hr', hpair⟩ := Option.map_eq_some_iff.mp he
      cases hpair
      obtain ⟨x, hx, hmem⟩ := h.field_sound hr'
      obtain ⟨m, rfl⟩ : ∃ m, base = .ident m := by
        cases base <;> simp [Scope.isInput] at hin
        exact ⟨_, rfl⟩
      simp only [Scope.isInput, Bool.and_eq_true, decide_eq_true_eq, Bool.not_eq_true',
        Dict.has_eq_false] at hin
      obtain ⟨rfl, hnone⟩ := hin
      simp only [Interpreter.evalExpr] at heval
      -- The read succeeds, so the input name is bound to a record: the input itself.
      obtain ⟨v, hv, heval⟩ := Except.bind_eq_ok.mp heval
      split at hv
      · rename_i hv'
        cases hv
        cases v <;> simp only [Interpreter.fail, reduceCtorEq] at heval
        obtain rfl := h.input hnone _ hv'
        simp only [hx, Except.ok.injEq] at heval
        exact ⟨x, heval.symm, hx, hmem⟩
      · cases hv
    · cases he
  · cases he

/-- A literal evaluates to its number. -/
lemma literal_sound {e : Expr} {n : Int64} (h : literal e = some n) :
    Interpreter.evalExpr ctx call env e = .ok (.number n) := by
  unfold literal at h
  split at h
  · cases h
    rfl
  · rename_i m
    simp [Interpreter.evalExpr, bind, Except.bind, Interpreter.applyNeg, Interpreter.arith, h]
  · cases h

/-- Two direct reads of one scalar have one value. -/
theorem Scope.Describes.sameScalar_sound (h : s.Describes env fields) {a b : Expr}
    (hab : s.sameScalar a b = true) {l r : Interpreter.Value}
    (hl : Interpreter.evalExpr ctx call env a = .ok l)
    (hr : Interpreter.evalExpr ctx call env b = .ok r) : l = r := by
  unfold Scope.sameScalar at hab
  split at hab
  · rename_i place _ place' _ ha hb
    simp only [decide_eq_true_eq] at hab
    subst hab
    obtain ⟨x, rfl, hx, -⟩ := h.scalar_sound ha hl
    obtain ⟨y, rfl, hy, -⟩ := h.scalar_sound hb hr
    rw [hx] at hy
    cases hy
    rfl
  · cases hab

/-- An operand of a guard is a number in its interval set; at a place, the number stored there. -/
lemma Scope.Describes.operand_sound (h : s.Describes env fields) {e : Expr} {place : Option Place}
    {r : Ranges} (he : s.operand e = some (place, r)) {w : Interpreter.Value}
    (heval : Interpreter.evalExpr ctx call env e = .ok w) :
    ∃ x : Int64, w = .number x ∧ (∀ pl ∈ place, pl.read env fields = some (.number x)) ∧
      x.toInt ∈ r := by
  unfold Scope.operand at he
  split at he
  · rename_i pl r' hs
    cases he
    obtain ⟨x, rfl, hx, hmem⟩ := h.scalar_sound hs heval
    refine ⟨x, rfl, ?_, hmem⟩
    intro pl' hpl
    cases hpl
    exact hx
  · obtain ⟨n, hn, hpair⟩ := Option.map_eq_some_iff.mp he
    cases hpair
    rw [literal_sound hn] at heval
    cases heval
    exact ⟨n, rfl, by simp, Ranges.mem_interval.mpr ⟨le_refl _, le_refl _⟩⟩

/-- Recording a fact that holds keeps the description. -/
lemma Scope.Describes.record (h : s.Describes env fields) {place : Option Place} {r : Ranges}
    {x : Int64} (hx : x.toInt ∈ r)
    (hplace : ∀ pl ∈ place, pl.read env fields = some (.number x)) :
    (s.record place r).Describes env fields := by
  cases place with
  | none => exact h
  | some pl =>
      have hread := hplace pl rfl
      cases pl with
      | localVar n =>
          refine { h with localFacts := fun m r' hm => ?_ }
          simp only [Scope.record, Dict.lookup_insert] at hm
          split at hm
          · rename_i hmn
            cases hm
            exact ⟨x, hmn ▸ hread, hx⟩
          · exact h.localFacts m r' hm
      | field n =>
          refine { h with fieldFacts := fun m r' hm => ?_ }
          simp only [Scope.record, Dict.lookup_insert] at hm
          split at hm
          · rename_i hmn
            cases hm
            exact ⟨x, hmn ▸ hread, hx⟩
          · exact h.fieldFacts m r' hm

/-- The comparison that a truth value establishes holds of the compared numbers. -/
lemma relates_of_compareNumbers {op op' : BinOp} {x y : Int64} {v : Bool}
    (h : Interpreter.compareNumbers op x y = some v) (h' : comparison op v = some op') :
    relates op' x.toInt y.toInt := by
  have hlt := @Int64.lt_iff_toInt_lt
  have hle := @Int64.le_iff_toInt_le
  have heq := @Int64.toInt_inj
  cases op <;> simp only [Interpreter.compareNumbers, reduceCtorEq, Option.some.injEq] at h <;>
    subst h <;> simp only [comparison, Option.some.injEq, decide_eq_true_eq] at h' <;>
    split at h' <;> subst h' <;> simp only [relates]
  all_goals
    rename_i h
    simp only [hlt, hle, ← heq, not_lt, not_le, ne_eq, not_not] at h
    exact h

/-- A normalised comparison can be read from either side. -/
lemma relates_reverse {op op' : BinOp} {x y : Int} {v : Bool} (hop : comparison op' v = some op)
    (h : relates op x y) : relates (reverse op) y x := by
  cases op' <;> cases v <;> simp only [comparison, Option.some.injEq, reduceCtorEq] at hop <;>
    subst hop <;> simp only [relates, reverse, if_true, if_false] at h ⊢ <;>
    first | exact h | exact h.symm

/-- The facts of a comparison that holds describe the environment. -/
lemma Scope.Describes.assumeComparison_sound (h : s.Describes env fields) (hw : s.Wf) {op op' : BinOp}
    {v : Bool} {a b : Expr} {l r : Interpreter.Value} (hop : comparison op' v = some op)
    (hl : Interpreter.evalExpr ctx call env a = .ok l)
    (hr : Interpreter.evalExpr ctx call env b = .ok r)
    (hrel : ∀ x y : Int64, l = .number x → r = .number y → relates op x.toInt y.toInt) :
    ∃ s', s.assumeComparison op a b = some s' ∧ s'.Describes env fields := by
  unfold Scope.assumeComparison
  split
  · rename_i aPlace aRanges bPlace bRanges ha hb
    split
    · exact ⟨s, rfl, h⟩
    · obtain ⟨x, rfl, hxp, hxm⟩ := h.operand_sound ha hl
      obtain ⟨y, rfl, hyp, hym⟩ := h.operand_sound hb hr
      have hxy := hrel x y rfl rfl
      have haw := hw.operand ha
      have hbw := hw.operand hb
      obtain ⟨ra, hra, hxa⟩ := Ranges.constrain_sound haw hbw hxm hym hxy
      obtain ⟨rb, hrb, hyb⟩ := Ranges.constrain_sound hbw haw hym hxm (relates_reverse hop hxy)
      rw [hra, hrb]
      exact ⟨_, rfl, (h.record hxa hxp).record hyb hyp⟩
  · exact ⟨s, rfl, h⟩

/-- What a logical operator with a decided outcome says about its operands. -/
lemma evalExpr_logical {op : BinOp} {a b : Expr} {truth : Bool}
    (hop : op = .and ∧ truth = true ∨ op = .or ∧ truth = false)
    (h : Interpreter.evalExpr ctx call env (.binary op a b) = .ok (.bool truth)) :
    Interpreter.evalExpr ctx call env a = .ok (.bool truth) ∧
      Interpreter.evalExpr ctx call env b = .ok (.bool truth) := by
  simp only [Interpreter.evalExpr] at h
  obtain ⟨l, hl, h⟩ := Except.bind_eq_ok.mp h
  rw [if_pos (by tauto)] at h
  cases l <;> simp only [Interpreter.fail, reduceCtorEq] at h
  rename_i lv
  -- The left operand cannot have decided the outcome, so the right one was evaluated.
  rcases hop with ⟨rfl, rfl⟩ | ⟨rfl, rfl⟩
  all_goals
    cases lv <;> simp [Interpreter.shortCircuits] at h
    obtain ⟨r, hr, h⟩ := Except.bind_eq_ok.mp h
    cases r <;> simp only [reduceCtorEq, Except.ok.injEq, Interpreter.Value.bool.injEq] at h
    subst h
    exact ⟨hl, hr⟩

/-- A comparison that evaluates to a truth value establishes its relation between numbers. -/
lemma evalExpr_comparison {op op' : BinOp} {a b : Expr} {truth : Bool}
    (hop : comparison op truth = some op')
    (h : Interpreter.evalExpr ctx call env (.binary op a b) = .ok (.bool truth)) :
    ∃ l r, Interpreter.evalExpr ctx call env a = .ok l ∧
      Interpreter.evalExpr ctx call env b = .ok r ∧
      ∀ x y : Int64, l = .number x → r = .number y → relates op' x.toInt y.toInt := by
  simp only [Interpreter.evalExpr] at h
  obtain ⟨l, hl, h⟩ := Except.bind_eq_ok.mp h
  rw [if_neg (by rintro (rfl | rfl) <;> simp [comparison] at hop)] at h
  obtain ⟨r, hr, h⟩ := Except.bind_eq_ok.mp h
  refine ⟨l, r, hl, hr, ?_⟩
  rintro x y rfl rfl
  simp only [Interpreter.applyBinary] at h
  cases hc : Interpreter.compareNumbers op x y with
  | none => cases op <;> simp only [comparison, Interpreter.compareNumbers, reduceCtorEq] at hop hc
  | some v =>
      simp only [hc, Except.ok.injEq, Interpreter.Value.bool.injEq] at h
      subst h
      exact relates_of_compareNumbers hc hop

/-- A condition that evaluates to a truth value can have it, and its facts describe the
environment. -/
lemma Scope.Describes.assume_sound (e : Expr) : ∀ {s : Scope} {truth : Bool},
    s.Describes env fields → s.Wf → Interpreter.evalExpr ctx call env e = .ok (.bool truth) →
    ∃ s', s.assume e truth = some s' ∧ s'.Describes env fields := by
  induction e using Expr.induction_children with
  | step e ih =>
      intro s truth h hw heval
      cases e
      case not e =>
        simp only [Interpreter.evalExpr] at heval
        obtain ⟨w, hv, heval⟩ := Except.bind_eq_ok.mp heval
        cases w <;> simp only [Interpreter.applyNot, Interpreter.fail, reduceCtorEq,
          Except.ok.injEq, Interpreter.Value.bool.injEq] at heval
        subst heval
        rw [Scope.assume, Bool.not_not]
        exact ih e (by simp [Expr.children]) h hw hv
      case binary op a b =>
        unfold Scope.assume
        split
        · rename_i hlogic
          obtain ⟨ha, hb⟩ := evalExpr_logical hlogic heval
          obtain ⟨s₁, hs₁, h₁⟩ := ih a (by simp [Expr.children]) h hw ha
          rw [hs₁]
          exact ih b (by simp [Expr.children]) h₁ (.assume a hw hs₁) hb
        · cases hop : comparison op truth with
          | none => exact ⟨s, rfl, h⟩
          | some op' =>
              obtain ⟨l, r, hl, hr, hrel⟩ := evalExpr_comparison hop heval
              exact h.assumeComparison_sound hw hop hl hr hrel
      all_goals exact ⟨s, rfl, h⟩

/-- **The scope of the arm that is taken describes the environment.** -/
theorem Scope.Describes.branch (h : s.Describes env fields) (hw : s.Wf) {condition : Expr}
    {truth : Bool} (heval : Interpreter.evalExpr ctx call env condition = .ok (.bool truth)) :
    (s.branch condition truth).Describes env fields := by
  obtain ⟨s', hs', h'⟩ := h.assume_sound condition hw heval
  unfold Scope.branch
  rw [hs', Option.getD_some]
  exact h'

theorem Scope.Models.branch (h : s.Models env fields) (hw : s.Wf) {condition : Expr}
    {truth : Bool} (heval : Interpreter.evalExpr ctx call env condition = .ok (.bool truth)) :
    (s.branch condition truth).Models env fields where
  toDescribes := h.toDescribes.branch hw heval
  bound := by
    have hframe := Scope.SameFrame.branch s condition truth
    rw [hframe.locals, hframe.input]
    exact h.bound

end sound

end Verbosec.NumericBounds
