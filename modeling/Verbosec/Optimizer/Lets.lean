import Verbosec.Native.Substitute

/-!
# Inlining of text literals

* `inlineTextLiteralLets` - a `let` of a text literal is dropped, and its literal stands for its name
  up to the next `let` of that name.
* `inlineRule` - a rule with these `let`s inlined.
* `Agrees subs env env'` - the environments differ in the names of the substitutions, which have their
  literals in the first.
* `evalRule_inlineRule` - the inlined rule has the outcome of the rule on every input.

Source: `optimizer.rs`, `inline_text_literal_lets`.
-/

namespace Verbosec.Optimizer

open Verbosec.Lib Verbosec.Interpreter

/-! ## The pass -/

/-- The substitutions made one after another. Source: `optimizer.rs`, `inline_text_literal_lets`,
the calls of `fold` -/
def substituteAll (subs : List (String × Expr)) (e : Expr) : Expr :=
  subs.foldl (fun acc s => substituteIdent s.1 s.2 acc) e

/-- The kept bindings, and the substitutions after the last one. A rebinding ends a substitution
after its own value has been rewritten. Source: `optimizer.rs`, `inline_text_literal_lets`, the loop
over `bindings` -/
def inlineBindings : List (String × Expr) → List (String × Expr) →
    List (String × Expr) × List (String × Expr)
  | [], subs => ([], subs)
  | (name, expr) :: bindings, subs =>
      let substituted := substituteAll subs expr
      let retained := subs.filter fun s => s.1 ≠ name
      match substituted with
      | .text s => inlineBindings bindings (retained ++ [(name, Expr.text s)])
      | other =>
          let (kept, subs) := inlineBindings bindings retained
          ((name, other) :: kept, subs)

/-- Source: `optimizer.rs`, `inline_text_literal_lets` -/
def inlineTextLiteralLets (bindings : List (String × Expr)) (logic : Expr) :
    List (String × Expr) × Expr :=
  let (kept, subs) := inlineBindings bindings []
  (kept, substituteAll subs logic)

/-- The rule after the pass. Source: `optimizer.rs`, `optimize_rule`, the use of
`inline_text_literal_lets` -/
def inlineRule (r : Rule) : Rule :=
  let (kept, value) := inlineTextLiteralLets r.logic.bindings r.logic.value
  { r with logic := { bindings := kept, value := value } }

/-! ## One substitution -/

/-- Nothing is captured where no name is kept. -/
lemma noCapture_of_closed (x : String) (e : Expr) : NoCapture (fun _ => False) x e := by
  induction e using Expr.induction_children with
  | step e ih =>
      exact ⟨fun s hs _ => ih s.2 (Expr.scopes_mem_children hs), fun _ _ _ _ _ _ => id⟩

variable {ctx : Context} {call : Rule → Value → Outcome Value}

lemma literalTables_text (s : String) : (Expr.text s).LiteralTables :=
  .of_children rfl fun c hc => absurd hc (by simp [Expr.children])

/-- A literal for a name that has its value. -/
lemma evalExpr_substitute_text {x s : String} {e : Expr} (htables : e.LiteralTables)
    {env env' : Env} (hx : env'.lookup x = some (.text s))
    (hother : ∀ y, y ≠ x → env.lookup y = env'.lookup y) :
    evalExpr ctx call env (substituteIdent x (.text s) e) = evalExpr ctx call env' e :=
  evalExpr_substitute (fun _ => True) (fun _ _ _ _ _ => trivial)
    (fun env _ => by unfold evalExpr; rfl) e htables (noCapture_of_closed x e)
    (fun _ => ⟨trivial, hx⟩) fun y _ hy => hother y hy

/-! ## All substitutions -/

/-- The environment of the rule and that of the inlined rule: a name with a substitution has its
literal in the first, and any other name is the same in both. -/
structure Agrees (subs : List (String × Expr)) (env env' : Env) : Prop where
  nodup : (subs.map (·.1)).Nodup
  literal : ∀ x e, (x, e) ∈ subs → ∃ s, e = .text s ∧ env.lookup x = some (.text s)
  same : ∀ y, y ∉ subs.map (·.1) → env.lookup y = env'.lookup y

/-- An environment with the entry of another one at a name. -/
lemma exists_lookup_eq (env env' : Env) (x : String) :
    ∃ mid : Env, mid.lookup x = env'.lookup x ∧ ∀ y, y ≠ x → mid.lookup y = env.lookup y := by
  cases h : env'.lookup x with
  | none => exact ⟨Dict.erase env x, by simp [Dict.lookup_erase], fun y hy => by
      rw [Dict.lookup_erase, if_neg hy]⟩
  | some v => exact ⟨Dict.insert env x v, by simp, fun y hy => by
      rw [Dict.lookup_insert_of_ne _ _ hy]⟩

/-- The substitutions have the value of the expression in the environment of the rule. -/
lemma evalExpr_substituteAll {subs : List (String × Expr)} :
    ∀ {env env' : Env} {e : Expr}, Agrees subs env env' → e.LiteralTables →
      evalExpr ctx call env' (substituteAll subs e) = evalExpr ctx call env e := by
  induction subs with
  | nil =>
      intro env env' e h _
      exact evalExpr_congr_free e fun y _ => (h.same y List.not_mem_nil).symm
  | cons sub subs ih =>
      intro env env' e h htables
      obtain ⟨x, r⟩ := sub
      obtain ⟨s, rfl, hx⟩ := h.literal x r List.mem_cons_self
      obtain ⟨hnotin, hnodup⟩ := List.nodup_cons.mp h.nodup
      -- between the two environments: the name without its literal
      obtain ⟨mid, hmid, hother⟩ := exists_lookup_eq env env' x
      have hagrees : Agrees subs mid env' := by
        refine ⟨hnodup, fun y e hy => ?_, fun y hy => ?_⟩
        · obtain ⟨t, ht, hlook⟩ := h.literal y e (List.mem_cons_of_mem _ hy)
          refine ⟨t, ht, ?_⟩
          rw [hother y ?_, hlook]
          rintro rfl
          exact hnotin (List.mem_map.mpr ⟨_, hy, rfl⟩)
        · by_cases hyx : y = x
          · rw [hyx, hmid]
          · rw [hother y hyx, h.same y (by simpa [hyx] using hy)]
      show evalExpr ctx call env' (substituteAll subs (substituteIdent x (.text s) e)) = _
      rw [ih hagrees (literalTables_substitute (literalTables_text s) htables)]
      exact evalExpr_substitute_text htables hx hother

/-- The names that have a substitution once those of one name have ended. -/
lemma mem_retained {subs : List (String × Expr)} {name y : String} (hy : y ≠ name) :
    y ∈ (subs.filter fun s => s.1 ≠ name).map (·.1) ↔ y ∈ subs.map (·.1) := by
  simp only [List.mem_map, List.mem_filter, decide_eq_true_eq]
  constructor
  · rintro ⟨s, ⟨hs, -⟩, rfl⟩
    exact ⟨s, hs, rfl⟩
  · rintro ⟨s, hs, rfl⟩
    exact ⟨s, ⟨hs, hy⟩, rfl⟩

/-- A literal that is retained is that of a name other than the one that is bound. -/
lemma Agrees.retained {subs : List (String × Expr)} {env env' : Env} (h : Agrees subs env env')
    {name : String} (v : Value) {x : String} {e : Expr}
    (hx : (x, e) ∈ subs.filter fun s => s.1 ≠ name) :
    ∃ s, e = .text s ∧ List.lookup x (Dict.insert env name v) = some (.text s) := by
  obtain ⟨hmem, hne⟩ := List.mem_filter.mp hx
  obtain ⟨s, hs, hlook⟩ := h.literal x e hmem
  exact ⟨s, hs, (Dict.lookup_insert_of_ne _ _ (of_decide_eq_true hne)).trans hlook⟩

/-- A value is bound in both environments. -/
lemma Agrees.insert {subs : List (String × Expr)} {env env' : Env} (h : Agrees subs env env')
    (name : String) (v : Value) :
    Agrees (subs.filter fun s => s.1 ≠ name) (Dict.insert env name v)
      (Dict.insert env' name v) := by
  refine ⟨h.nodup.sublist (List.Sublist.map _ List.filter_sublist),
    fun x e hx => h.retained v hx, fun y hy => ?_⟩
  by_cases hyn : y = name
  · rw [hyn, Dict.lookup_insert_self, Dict.lookup_insert_self]
  · rw [Dict.lookup_insert_of_ne _ _ hyn, Dict.lookup_insert_of_ne _ _ hyn]
    exact h.same y (mt (mem_retained hyn).mpr hy)

/-- A literal is bound in the environment of the rule, and becomes a substitution. -/
lemma Agrees.insertLiteral {subs : List (String × Expr)} {env env' : Env}
    (h : Agrees subs env env') (name s : String) :
    Agrees ((subs.filter fun s => s.1 ≠ name) ++ [(name, Expr.text s)])
      (Dict.insert env name (.text s)) env' := by
  refine ⟨?_, fun x e hx => ?_, fun y hy => ?_⟩
  · rw [List.map_append, List.nodup_append']
    refine ⟨h.nodup.sublist (List.Sublist.map _ List.filter_sublist), List.nodup_singleton _, ?_⟩
    simp only [List.map_cons, List.map_nil, List.disjoint_singleton, List.mem_map, List.mem_filter,
      decide_eq_true_eq]
    rintro ⟨t, ⟨-, hne⟩, rfl⟩
    exact hne rfl
  · rcases List.mem_append.mp hx with hx | hx
    · exact h.retained _ hx
    · cases List.mem_singleton.mp hx
      exact ⟨s, rfl, Dict.lookup_insert_self _ _ _⟩
  · rw [List.map_append, List.mem_append, not_or] at hy
    have hyn : y ≠ name := fun hyn => hy.2 (List.mem_singleton.mpr hyn)
    rw [Dict.lookup_insert_of_ne _ _ hyn]
    exact h.same y (mt (mem_retained hyn).mpr hy.1)

/-! ## The rule -/

/-- The kept bindings and the rewritten logic have the outcome of the bindings and the logic. -/
lemma evalBindings_inline {logic : Expr} (hlogic : logic.LiteralTables)
    {bindings : List (String × Expr)} (htables : ∀ b ∈ bindings, b.2.LiteralTables) :
    ∀ {subs : List (String × Expr)} {env env' : Env}, Agrees subs env env' →
      (evalBindings ctx call env' (inlineBindings bindings subs).1 >>= fun last =>
        evalExpr ctx call last (substituteAll (inlineBindings bindings subs).2 logic)) =
      (evalBindings ctx call env bindings >>= fun last => evalExpr ctx call last logic) := by
  induction bindings with
  | nil => exact fun h => evalExpr_substituteAll h hlogic
  | cons binding bindings ih =>
      intro subs env env' h
      obtain ⟨name, expr⟩ := binding
      have hvalue : evalExpr ctx call env' (substituteAll subs expr) = evalExpr ctx call env expr :=
        evalExpr_substituteAll h (htables _ List.mem_cons_self)
      have hrest := @ih fun b hb => htables b (List.mem_cons_of_mem _ hb)
      simp only [inlineBindings]
      split
      · -- the literal becomes a substitution
        rename_i s hs
        rw [hs] at hvalue
        rw [hrest (h.insertLiteral name s), evalBindings, ← hvalue]
        unfold evalExpr
        rfl
      · -- the binding is kept
        simp only [evalBindings]
        rw [hvalue]
        cases evalExpr ctx call env expr with
        | error e => rfl
        | ok v => exact hrest (h.insert name v)

/-- The body of a rule, with its bindings and its logic as one evaluation. -/
lemma evalBody_eq (r : Rule) (input : Value) :
    evalBody ctx call r input = (evalBindings ctx call [(r.inputName, input)] r.logic.bindings >>=
      fun last => evalExpr ctx call last r.logic.value) >>= checkOutput r := by
  unfold evalBody
  cases evalBindings ctx call [(r.inputName, input)] r.logic.bindings <;> rfl

/-- **The inlined rule has the outcome of the rule** on every input. -/
theorem evalRule_inlineRule (ctx : Context) (fuel : Nat) {r : Rule}
    (hbindings : ∀ b ∈ r.logic.bindings, b.2.LiteralTables) (hvalue : r.logic.value.LiteralTables)
    (input : Value) :
    evalRule ctx fuel (inlineRule r) input = evalRule ctx fuel r input := by
  cases fuel with
  | zero => rfl
  | succ fuel =>
      have hagrees : Agrees [] [(r.inputName, input)] [(r.inputName, input)] :=
        ⟨List.nodup_nil, fun _ _ h => absurd h List.not_mem_nil, fun _ _ => rfl⟩
      have hbody : evalBody ctx (evalRule ctx fuel) (inlineRule r) input =
          evalBody ctx (evalRule ctx fuel) r input := by
        rw [evalBody_eq, evalBody_eq]
        exact congrArg (· >>= checkOutput r) (evalBindings_inline hvalue hbindings hagrees)
      rw [evalRule, evalRule, hbody]
      rfl

/-- A rule that rebinds a name, uses an alias of it, and binds both names once more in a fold. -/
def shadowing : Rule where
  name := "label"
  inputName := "i"
  inputTy := .named "Item"
  outputName := "out"
  outputTy := .text
  logic := {
    bindings := [("s", .text "a"), ("t", .ident "s"), ("s", .concat [.ident "s", .text "b"]),
      ("u", .fold (.field (.ident "i") "items") (.ident "t") "t" "s"
        (.concat [.ident "t", .ident "s"]))]
    value := .concat [.ident "s", .ident "t", .ident "u"] }

/-- The rule and its inlined form on an input with two items. -/
theorem evalRule_inlineRule_shadowing :
    evalRule ⟨[], [], [], [], [], {}⟩ 1 (inlineRule shadowing)
        (.record [("items", .list [.number 1, .number 2])]) =
      evalRule ⟨[], [], [], [], [], {}⟩ 1 shadowing
        (.record [("items", .list [.number 1, .number 2])]) :=
  evalRule_inlineRule (r := shadowing) _ _ (by
    simp [shadowing, Expr.LiteralTables, Expr.collect, Expr.collectList, Expr.tableLiteral]) rfl _

/-- A rule that reads a byte of a text that is bound to a name. -/
def namedTable : Rule where
  name := "first"
  inputName := "i"
  inputTy := .named "Item"
  outputName := "out"
  outputTy := .number
  logic := { bindings := [("s", .text "abc")], value := .tryByteAt (.ident "s") (.number 0) }

/-- The interpreter refuses a table that is not a literal, and the inlined rule has a value. -/
theorem inlineRule_namedTable :
    evalRule ⟨[], [], [], [], [], {}⟩ 1 (inlineRule namedTable) (.record []) ≠
      evalRule ⟨[], [], [], [], [], {}⟩ 1 namedTable (.record []) := by
  have hinlined : evalRule ⟨[], [], [], [], [], {}⟩ 1 (inlineRule namedTable) (.record []) =
      .ok (.ok (.number 97)) := rfl
  have hrule : evalRule ⟨[], [], [], [], [], {}⟩ 1 namedTable (.record []) =
      fail (.shape "try_byte_at requires a literal table") := rfl
  rw [hinlined, hrule]
  exact nofun

end Verbosec.Optimizer
