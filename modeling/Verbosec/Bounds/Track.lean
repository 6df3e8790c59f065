import Verbosec.Bounds.Check
import Verbosec.Interpreter.Eval

/-!
# The results of an evaluation

* `Ledger` - the results that were created, and those that were scrutinised.
* `Tagged` - a value and, of a result, which one of the created results it is.
* `track` - the interpreter with a ledger; `track_plain` - without it, it is the interpreter.
* `trackBody` - the body of a rule.
-/

namespace Verbosec.Bounds

open Verbosec.Lib
open Interpreter (Context Env Outcome Value evalExpr evalBindings evalBody checkOutput applyBinary
  applyNot applyNeg applyAbs applyByteAt shortCircuits tryByteIn numbersOp bitsOp wrappingShl
  wrappingShr utf8Bytes fail)

/-! ## Ledgers -/

/-- The number of results that were created, and those of them that were the scrutinee of a
`match_result`. -/
structure Ledger where
  created : Nat := 0
  scrutinised : List Nat := []

/-- A value; of a result, its place in the order of creation. -/
structure Tagged where
  value : Value
  tag : Option Nat := none

/-- An environment of tagged values. -/
abbrev TEnv := Dict String Tagged

/-- The environment of the interpreter. -/
def TEnv.plain (env : TEnv) : Env := env.map fun entry => (entry.1, entry.2.value)

/-- A result is created. -/
def create (v : Value) (l : Ledger) : Tagged × Ledger :=
  (⟨v, some l.created⟩, { l with created := l.created + 1 })

/-- A value is the scrutinee of a `match_result`. -/
def Ledger.scrutinise (l : Ledger) (t : Tagged) : Ledger :=
  { l with scrutinised := t.tag.toList ++ l.scrutinised }

/-! ## The interpreter with a ledger -/

/-- An operand and what is done with it. -/
def trackUnary (f : Value → Outcome Value) (a : Outcome (Tagged × Ledger)) :
    Outcome (Tagged × Ledger) := do
  let (a, l) ← a
  let v ← f a.value
  .ok (⟨v, none⟩, l)

/-- Two operands and what is done with them. -/
def trackBinary (f : Value → Value → Outcome Value) (a : Outcome (Tagged × Ledger))
    (b : Ledger → Outcome (Tagged × Ledger)) : Outcome (Tagged × Ledger) := do
  let (a, l) ← a
  let (b, l) ← b l
  let v ← f a.value b.value
  .ok (⟨v, none⟩, l)

/-- The value of a lookup that may be out of bounds. Source: `interpreter.rs`, the arm `TryByteAt`
of `eval_expr` -/
def tryTable (table : Expr) (v : Value) : Outcome Value :=
  match table with
  | .bytes b => tryByteIn b v
  | .text t => tryByteIn (utf8Bytes t) v
  | _ => fail (.shape "try_byte_at requires a literal table")

/-- The interpreter with a ledger. A lookup, a constructor and a call of a rule with such an output
create a result; names, conditionals and branches hand it on. A form outside the contract is
evaluated without a ledger. Source: `interpreter.rs`, `eval_expr` -/
def track (ctx : Context) (call : Rule → Value → Outcome Value) :
    Expr → TEnv → Ledger → Outcome (Tagged × Ledger)
  | .ident name, env, l =>
      match env.lookup name with
      | some t => .ok (t, l)
      | none => fail (.undefinedBinding name)
  | .tryByteAt table index, env, l =>
      if isTable table then do
        let (i, l) ← track ctx call index env l
        let v ← tryTable table i.value
        .ok (create v l)
      else fail (.shape "try_byte_at requires a literal table")
  | .ok inner, env, l => do
      let (v, l) ← track ctx call inner env l
      .ok (create (.ok v.value) l)
  | .err inner, env, l => do
      let (v, l) ← track ctx call inner env l
      .ok (create (.err v.value) l)
  | .ite cond yes no, env, l => do
      let (c, l) ← track ctx call cond env l
      match c.value with
      | .bool true => track ctx call yes env l
      | .bool false => track ctx call no env l
      | other => fail (.operand "'if' condition must be bool" other)
  | .matchResult target okVar okBody errVar errBody, env, l => do
      let (t, l) ← track ctx call target env l
      match t.value with
      | .ok inner => track ctx call okBody (env.insert okVar ⟨inner, none⟩) (l.scrutinise t)
      | .err inner => track ctx call errBody (env.insert errVar ⟨inner, none⟩) (l.scrutinise t)
      | other => fail (.operand "match_result requires a Result value" other)
  | .call name args, env, l => do
      let v ← evalExpr ctx call env.plain (.call name args)
      if (ctx.findRule name).any (·.outputTy = resultType) then .ok (create v l)
      else .ok (⟨v, none⟩, l)
  | .binary op left right, env, l => do
      let (a, l) ← track ctx call left env l
      if op = .and ∨ op = .or then
        match a.value with
        | .bool value =>
            if shortCircuits op value then .ok (⟨.bool value, none⟩, l)
            else do
              let (b, l) ← track ctx call right env l
              match b.value with
              | .bool value => .ok (⟨.bool value, none⟩, l)
              | other => fail (.logicalOperand op "right" other)
        | other => fail (.logicalOperand op "left" other)
      else do
        let (b, l) ← track ctx call right env l
        let v ← applyBinary op a.value b.value
        .ok (⟨v, none⟩, l)
  | .not a, env, l => trackUnary applyNot (track ctx call a env l)
  | .neg a, env, l => trackUnary applyNeg (track ctx call a env l)
  | .abs a, env, l => trackUnary applyAbs (track ctx call a env l)
  | .bitNot a, env, l => trackUnary (fun v => match v with
      | .number n => .ok (.number (~~~ n))
      | _ => fail (.shape "bnot: number arg required")) (track ctx call a env l)
  | .min a b, env, l =>
      trackBinary (numbersOp "min" min) (track ctx call a env l) (track ctx call b env)
  | .max a b, env, l =>
      trackBinary (numbersOp "max" max) (track ctx call a env l) (track ctx call b env)
  | .bitAnd a b, env, l =>
      trackBinary (bitsOp "band" (· &&& ·)) (track ctx call a env l) (track ctx call b env)
  | .bitOr a b, env, l =>
      trackBinary (bitsOp "bor" (· ||| ·)) (track ctx call a env l) (track ctx call b env)
  | .bitXor a b, env, l =>
      trackBinary (bitsOp "bxor" (· ^^^ ·)) (track ctx call a env l) (track ctx call b env)
  | .shl a b, env, l =>
      trackBinary (bitsOp "shl" wrappingShl) (track ctx call a env l) (track ctx call b env)
  | .shr a b, env, l =>
      trackBinary (bitsOp "shr" wrappingShr) (track ctx call a env l) (track ctx call b env)
  | .byteAt table index, env, l =>
      trackBinary applyByteAt (track ctx call table env l) (track ctx call index env)
  | e, env, l => (evalExpr ctx call env.plain e).map fun v => (⟨v, none⟩, l)

/-- The `let`s of a rule with a ledger. Source: `interpreter.rs`, `eval_rule_with_value` -/
def trackBindings (ctx : Context) (call : Rule → Value → Outcome Value) :
    List (String × Expr) → TEnv → Ledger → Outcome (TEnv × Ledger)
  | [], env, l => .ok (env, l)
  | (name, e) :: bindings, env, l => do
      let (t, l) ← track ctx call e env l
      trackBindings ctx call bindings (env.insert name t) l

/-- The body of a rule with a ledger. Source: `interpreter.rs`, `eval_rule_with_value` -/
def trackBody (ctx : Context) (call : Rule → Value → Outcome Value) (r : Rule) (input : Value) :
    Outcome (Tagged × Ledger) := do
  let (env, l) ← trackBindings ctx call r.logic.bindings [(r.inputName, ⟨input, none⟩)] {}
  let (t, l) ← track ctx call r.logic.value env l
  let v ← checkOutput r t.value
  .ok (⟨v, t.tag⟩, l)

/-! ## Without the ledger -/

section plain

variable {ctx : Context} {call : Rule → Value → Outcome Value}

lemma lookup_plain (env : TEnv) (name : String) :
    env.plain.lookup name = (env.lookup name).map (·.value) := by
  induction env with
  | nil => rfl
  | cons entry env ih =>
      obtain ⟨n, t⟩ := entry
      change List.lookup name ((n, t.value) :: TEnv.plain env) = _
      rw [List.lookup_cons, List.lookup_cons, ih]
      split <;> rfl

lemma trackUnary_plain (f : Value → Outcome Value) (a : Outcome (Tagged × Ledger)) :
    (trackUnary f a).map (·.1.value) = (a.map (·.1.value) >>= f) := by
  rcases a with e | ⟨a, l⟩
  · rfl
  · change Except.map (·.1.value) (f a.value >>= fun v =>
      (.ok (⟨v, none⟩, l) : Outcome (Tagged × Ledger))) = f a.value
    cases f a.value <;> rfl

lemma trackBinary_plain (f : Value → Value → Outcome Value) (a : Outcome (Tagged × Ledger))
    {b : Ledger → Outcome (Tagged × Ledger)} {y : Outcome Value}
    (hb : ∀ l, (b l).map (·.1.value) = y) :
    (trackBinary f a b).map (·.1.value) =
      (a.map (·.1.value) >>= fun v => y >>= fun w => f v w) := by
  rcases a with e | ⟨a, l⟩
  · rfl
  · have hb := hb l
    change Except.map (·.1.value) (b l >>= fun x => f a.value x.1.value >>= fun v =>
      (.ok (⟨v, none⟩, x.2) : Outcome (Tagged × Ledger))) = (y >>= fun w => f a.value w)
    rw [← hb]
    rcases b l with e | ⟨b, l'⟩
    · rfl
    · change Except.map (·.1.value) (f a.value b.value >>= fun v =>
        (.ok (⟨v, none⟩, l') : Outcome (Tagged × Ledger))) = f a.value b.value
      cases f a.value b.value <;> rfl

/-- Without the ledger the expression is evaluated by the interpreter. -/
theorem track_plain (e : Expr) : ∀ env l,
    (track ctx call e env l).map (·.1.value) = evalExpr ctx call env.plain e := by
  induction e using Expr.induction_children with
  | step e ih =>
      intro env l
      replace ih : ∀ {c}, c ∈ e.children → ∀ env l,
          (track ctx call c env l).map (·.1.value) = evalExpr ctx call env.plain c :=
        fun hc => ih _ hc
      cases e
      case ident name =>
        rw [track, evalExpr, lookup_plain]
        cases env.lookup name <;> rfl
      case ok a | err a =>
        rw [track, evalExpr, ← ih (by simp [Expr.children]) env l]
        cases track ctx call a env l <;> rfl
      case tryByteAt table index =>
        have hindex := ih (c := index) (by simp [Expr.children]) env l
        by_cases htable : isTable table = true
        · rw [track, if_pos htable]
          have heval : evalExpr ctx call env.plain (.tryByteAt table index) =
              (evalExpr ctx call env.plain index >>= tryTable table) := by
            cases table <;> first | (rw [evalExpr]; rfl) | cases htable
          rw [heval, ← hindex]
          rcases track ctx call index env l with f | ⟨i, l'⟩
          · rfl
          · change Except.map (·.1.value) (tryTable table i.value >>= fun v =>
              (.ok (create v l') : Outcome (Tagged × Ledger))) = tryTable table i.value
            cases tryTable table i.value <;> rfl
        · rw [track, if_neg htable]
          cases table <;> first | exact absurd rfl htable | (unfold evalExpr; rfl)
      case ite c a b =>
        have ha := ih (c := a) (by simp [Expr.children]) env
        have hb := ih (c := b) (by simp [Expr.children]) env
        rw [track, evalExpr, ← ih (c := c) (by simp [Expr.children]) env l]
        rcases track ctx call c env l with f | ⟨⟨v, t⟩, l'⟩
        · rfl
        · rcases v with _ | _ | (_ | _) | _ | _ | _ | _ | _ | _ | _
          all_goals first | exact ha l' | exact hb l' | rfl
      case matchResult t x a y b =>
        have ha := ih (c := a) (by simp [Expr.children])
        have hb := ih (c := b) (by simp [Expr.children])
        rw [track, evalExpr, ← ih (c := t) (by simp [Expr.children]) env l]
        rcases track ctx call t env l with f | ⟨⟨v, t⟩, l'⟩
        · rfl
        · cases v
          case ok v => exact ha _ _
          case err v => exact hb _ _
          all_goals rfl
      case call name args =>
        rw [track]
        rcases evalExpr ctx call env.plain (.call name args) with f | v
        · rfl
        · change Except.map (·.1.value) (if (ctx.findRule name).any (·.outputTy = resultType) then
            (.ok (create v l) : Outcome (Tagged × Ledger)) else .ok (⟨v, none⟩, l)) = .ok v
          split <;> rfl
      case binary op a b =>
        have hb := ih (c := b) (by simp [Expr.children]) env
        rw [track, evalExpr, ← ih (c := a) (by simp [Expr.children]) env l]
        rcases track ctx call a env l with f | ⟨⟨v, t⟩, l'⟩
        · rfl
        · have hb := hb l'
          change Except.map (fun x : Tagged × Ledger => x.1.value)
            (if op = .and ∨ op = .or then _ else _) = if op = .and ∨ op = .or then _ else _
          by_cases hop : op = .and ∨ op = .or
          · rw [if_pos hop, if_pos hop]
            cases v
            case bool value =>
              change Except.map (fun x : Tagged × Ledger => x.1.value)
                (if shortCircuits op value then _ else _) = if shortCircuits op value then _ else _
              by_cases hshort : shortCircuits op value = true
              · rw [if_pos hshort, if_pos hshort]
                rfl
              · rw [if_neg hshort, if_neg hshort, ← hb]
                rcases track ctx call b env l' with f | ⟨⟨w, t⟩, l''⟩
                · rfl
                · cases w <;> rfl
            all_goals rfl
          · rw [if_neg hop, if_neg hop, ← hb]
            rcases track ctx call b env l' with f | ⟨⟨w, t⟩, l''⟩
            · rfl
            · change Except.map (·.1.value) (applyBinary op v w >>= fun v =>
                (.ok (⟨v, none⟩, l'') : Outcome (Tagged × Ledger))) = applyBinary op v w
              cases applyBinary op v w <;> rfl
      case not a | neg a | abs a =>
        rw [track, evalExpr, trackUnary_plain, ih (by simp [Expr.children]) env l]
      case bitNot a =>
        rw [track, evalExpr, ← ih (c := a) (by simp [Expr.children]) env l]
        exact trackUnary_plain _ _
      case min a b | max a b | bitAnd a b | bitOr a b | bitXor a b | shl a b | shr a b |
          byteAt a b =>
        rw [track, evalExpr, trackBinary_plain _ _ (ih (c := b) (by simp [Expr.children]) env),
          ih (by simp [Expr.children]) env l]
      all_goals
        unfold track
        rcases evalExpr ctx call env.plain _ with f | v <;> rfl

lemma trackBindings_plain (bindings : List (String × Expr)) : ∀ env l,
    (trackBindings ctx call bindings env l).map (·.1.plain) =
      evalBindings ctx call env.plain bindings := by
  induction bindings with
  | nil => exact fun _ _ => rfl
  | cons binding bindings ih =>
      obtain ⟨name, e⟩ := binding
      intro env l
      rw [trackBindings, evalBindings, ← track_plain e env l]
      rcases track ctx call e env l with f | ⟨t, l'⟩
      · rfl
      · exact ih (env.insert name t) l'

/-- Without the ledger the body is evaluated by the interpreter. -/
theorem trackBody_plain (r : Rule) (input : Value) :
    (trackBody ctx call r input).map (·.1.value) = evalBody ctx call r input := by
  have hbindings := @trackBindings_plain ctx call r.logic.bindings
    [(r.inputName, ⟨input, none⟩)] {}
  change _ = evalBindings ctx call [(r.inputName, input)] r.logic.bindings at hbindings
  rw [trackBody, evalBody, ← hbindings]
  rcases trackBindings ctx call r.logic.bindings [(r.inputName, ⟨input, none⟩)] {} with f | ⟨env, l⟩
  · rfl
  · change Except.map _ (track ctx call r.logic.value env l >>= fun x => checkOutput r x.1.value >>=
      fun v => (.ok (⟨v, x.1.tag⟩, x.2) : Outcome (Tagged × Ledger))) =
        (evalExpr ctx call env.plain r.logic.value >>= checkOutput r)
    rw [← track_plain r.logic.value env l]
    rcases track ctx call r.logic.value env l with f | ⟨t, l'⟩
    · rfl
    · change Except.map _ (checkOutput r t.value >>= fun v =>
        (.ok (⟨v, t.tag⟩, l') : Outcome (Tagged × Ledger))) = checkOutput r t.value
      cases checkOutput r t.value <;> rfl

end plain

end Verbosec.Bounds
