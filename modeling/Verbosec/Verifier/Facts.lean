import Verbosec.Verifier.Names

/-!
# Reads and calls

* `exprToPath` - the dotted path an identifier or a field access spells.
* `ExprFacts`, `collectExprFacts` - the paths an expression reads and the rules it calls. A read
  through a variable that a lambda or an arm binds is dropped.
* `LogicFacts`, `collectLogicFacts` - the facts of a rule. A read through a name that a `let` of the
  rule binds is moved to the local reads.
* `checkPurity` - the declared reads and calls are those of the facts.
* `Expr.Spelled` - every field access is a path, as the parser builds them.

Source: `verifier.rs`, `collect_logic_facts`, `collect_expr_facts`, `check_purity`.
-/

namespace Verbosec

/-! ## Paths -/

/-- The path an identifier or a field access spells. Source: `verifier.rs`, `expr_to_path` -/
def exprToPath : Expr → Option (List String)
  | .ident name => some [name]
  | .field base field => (exprToPath base).map (· ++ [field])
  | _ => none

lemma exprToPath_ne_nil {e : Expr} {path : List String} (h : exprToPath e = some path) :
    path ≠ [] := by
  cases e <;> simp only [exprToPath, reduceCtorEq, Option.some.injEq, Option.map_eq_some_iff] at h
  · rw [← h]
    exact List.cons_ne_nil _ _
  · obtain ⟨base, -, rfl⟩ := h
    simp

/-- A field access is a path: the parser builds one on an identifier only.
Source: `parser.rs`, the identifier arm of `parse_primary` -/
def fieldSpelled (e : Expr) : List Unit :=
  match e with
  | .field base _ => if (exprToPath base).isSome then [] else [()]
  | _ => []

/-- Every field access of an expression is a path. -/
def Expr.Spelled (e : Expr) : Prop := e.collect fieldSpelled = []

lemma Expr.Spelled.children {e : Expr} (h : e.Spelled) {c : Expr} (hc : c ∈ e.children) :
    c.Spelled := by
  unfold Expr.Spelled at h ⊢
  rw [Expr.collect_eq, List.append_eq_nil_iff, List.flatMap_eq_nil_iff] at h
  exact h.2 c hc

lemma Expr.Spelled.field {base : Expr} {name : String} (h : (Expr.field base name).Spelled) :
    ∃ path, exprToPath base = some path := by
  unfold Expr.Spelled at h
  rw [Expr.collect_eq, List.append_eq_nil_iff] at h
  have hself := h.1
  simp only [fieldSpelled, ite_eq_left_iff, List.cons_ne_self, imp_false, not_not,
    Option.isSome_iff_exists] at hself
  exact hself

namespace Verifier

/-! ## The facts of an expression -/

/-- The reads and the calls of an expression. Source: `verifier.rs`, the `reads` and `calls` of
`collect_expr_facts` -/
structure ExprFacts where
  /-- the paths read -/
  reads : List (List String) := []
  /-- the rules called -/
  calls : List (List String) := []
  deriving DecidableEq, Repr

/-- The facts of two expressions. -/
def ExprFacts.union (f g : ExprFacts) : ExprFacts := ⟨f.reads ++ g.reads, f.calls ++ g.calls⟩

/-- The facts of a body, outside of the variables bound there. -/
def ExprFacts.outside (names : List String) (f : ExprFacts) : ExprFacts :=
  ⟨f.reads.filter fun path => !path.head?.any (· ∈ names), f.calls⟩

@[simp] lemma ExprFacts.reads_union (f g : ExprFacts) : (f.union g).reads = f.reads ++ g.reads := rfl

@[simp] lemma ExprFacts.calls_union (f g : ExprFacts) : (f.union g).calls = f.calls ++ g.calls := rfl

@[simp] lemma ExprFacts.calls_outside (names : List String) (f : ExprFacts) :
    (f.outside names).calls = f.calls := rfl

@[simp] lemma ExprFacts.mem_reads_outside {names : List String} {f : ExprFacts}
    {path : List String} :
    path ∈ (f.outside names).reads ↔ path ∈ f.reads ∧ ∀ x ∈ path.head?, x ∉ names := by
  simp only [outside, List.mem_filter]
  cases path <;> simp

mutual

/-- The reads and the calls of an expression. Source: `verifier.rs`, `collect_expr_facts` -/
def collectExprFacts : Expr → ExprFacts
  | .number _ | .text _ | .bytes _ => {}
  | .ite c a b => ((collectExprFacts c).union (collectExprFacts a)).union (collectExprFacts b)
  | .not a | .neg a | .ok a | .err a | .jsonEscape a | .bitNot a | .parseInt a | .length a | .abs a
  | .le32 a | .le64 a | .arenaScope a | .abortIf a => collectExprFacts a
  | .ident name => ⟨[[name]], []⟩
  | .field base field => ⟨((exprToPath base).map (· ++ [field])).toList, []⟩
  | .binary _ a b | .startsWith a b | .contains a b | .endsWith a b | .min a b | .max a b
  | .bitAnd a b | .bitOr a b | .bitXor a b | .shl a b | .shr a b | .byteAt a b
  | .tryByteAt a b => (collectExprFacts a).union (collectExprFacts b)
  | .call name args => (ExprFacts.mk [] [[name]]).union (collectListFacts args)
  | .fold collection initial acc item body =>
      ((collectExprFacts collection).union (collectExprFacts initial)).union
        ((collectExprFacts body).outside [acc, item])
  | .quantifier _ collection var body | .map collection var body | .filter collection var body =>
      (collectExprFacts collection).union ((collectExprFacts body).outside [var])
  | .matchResult target okVar okBody errVar errBody =>
      ((collectExprFacts target).union ((collectExprFacts okBody).outside [okVar])).union
        ((collectExprFacts errBody).outside [errVar])
  | .record _ fields | .variantConstruct _ _ fields => collectFieldsFacts fields
  | .concat args => collectListFacts args
  | .read name | .random name => ⟨[[name]], []⟩
  | .fetch name request => (ExprFacts.mk [[name]] []).union (collectExprFacts request)
  | .nowUnix => ⟨[["now"]], []⟩
  | .substring t s e => ((collectExprFacts t).union (collectExprFacts s)).union (collectExprFacts e)
  | .foldBytes text initial acc byte idx body =>
      ((collectExprFacts text).union (collectExprFacts initial)).union
        ((collectExprFacts body).outside [acc, byte, idx])
  | .matchVariant scrutinee arms => (collectExprFacts scrutinee).union (collectArmsFacts arms)

/-- The facts of the arguments of a call or a `concat`. -/
def collectListFacts : List Expr → ExprFacts
  | [] => {}
  | e :: es => (collectExprFacts e).union (collectListFacts es)

/-- The facts of the assignments of a constructor. -/
def collectFieldsFacts : List (String × Expr) → ExprFacts
  | [] => {}
  | (_, e) :: fields => (collectExprFacts e).union (collectFieldsFacts fields)

/-- The facts of the arms of a `match`. -/
def collectArmsFacts : List MatchArm → ExprFacts
  | [] => {}
  | .mk _ binders body :: arms =>
      ((collectExprFacts body).outside (binders.filterMap id)).union (collectArmsFacts arms)

end

/-! ## The facts of a rule -/

/-- The reads and the calls of a rule. Source: `verifier.rs`, `LogicFacts` -/
structure LogicFacts where
  /-- the paths read -/
  reads : List (List String)
  /-- the rules called -/
  calls : List (List String)
  /-- the paths through a `let` -/
  localReads : List (List String)
  deriving DecidableEq, Repr

/-- The facts of the `let`s and of the value together, before the local reads are taken out. -/
def bodyFacts (logic : LogicStmt) : ExprFacts :=
  (collectFieldsFacts logic.bindings).union (collectExprFacts logic.value)

/-- The facts of a rule. Source: `verifier.rs`, `collect_logic_facts` -/
def collectLogicFacts (logic : LogicStmt) : LogicFacts :=
  let names := logic.bindings.map (·.1)
  let facts := bodyFacts logic
  { reads := (facts.outside names).reads
    calls := facts.calls
    localReads := facts.reads.filter fun path => path.head?.any (· ∈ names) }

/-! ## Declared reads and calls -/

/-- The names before the dots. Source: `verifier.rs`, `path_list_to_set` -/
def pathSegments (paths : List Path) : List (List String) := paths.map (·.segments)

/-- The paths of one list that are not in another. -/
def missingPaths (xs ys : List (List String)) : List String :=
  (xs.filter (· ∉ ys)).map (String.intercalate ".")

/-- The lists of missing and of extra paths in a report. -/
def pathReport (missing extra : List String) : String :=
  String.intercalate "; " <|
    (if missing = [] then [] else ["missing: [" ++ String.intercalate ", " missing ++ "]"]) ++
      if extra = [] then [] else ["extra: [" ++ String.intercalate ", " extra ++ "]"]

/-- The declared reads and calls of a rule against its facts; the hint that names lambda variables
is left out. Source: `verifier.rs`, `check_purity` -/
def checkPurity (r : Rule) (facts : LogicFacts) : List VerifyError :=
  let check (sub what : String) (declared actual : List (List String)) : List VerifyError :=
    let missing := missingPaths actual declared
    let extra := missingPaths declared actual
    if missing = [] ∧ extra = [] then []
    else [⟨"rule '" ++ r.name ++ "' / " ++ sub,
      "declared " ++ what ++ " do not match logic; " ++ pathReport missing extra⟩]
  check "purity.reads" "reads" (pathSegments r.proofs.purity.reads) facts.reads ++
    check "purity.calls" "calls" (pathSegments r.proofs.purity.calls) facts.calls

lemma missingPaths_eq_nil {xs ys : List (List String)} (h : missingPaths xs ys = []) : xs ⊆ ys := by
  intro x hx
  rw [missingPaths, List.map_eq_nil_iff, List.filter_eq_nil_iff] at h
  have := h x hx
  rwa [decide_eq_true_eq, not_not] at this

/-- Without a report, every read and every call of the facts is declared. -/
lemma declared_of_checkPurity {r : Rule} {facts : LogicFacts} (h : checkPurity r facts = []) :
    facts.reads ⊆ pathSegments r.proofs.purity.reads ∧
      facts.calls ⊆ pathSegments r.proofs.purity.calls := by
  unfold checkPurity at h
  dsimp only at h
  rw [List.append_eq_nil_iff] at h
  obtain ⟨hreads, hcalls⟩ := h
  simp only [ite_eq_left_iff, List.cons_ne_self, imp_false, not_not] at hreads hcalls
  exact ⟨missingPaths_eq_nil hreads.1, missingPaths_eq_nil hcalls.1⟩

/-! ## Calls -/

section calls

lemma calls_collectListFacts (es : List Expr) :
    (collectListFacts es).calls = es.flatMap fun e => (collectExprFacts e).calls := by
  induction es with
  | nil => rfl
  | cons e es ih => rw [collectListFacts, ExprFacts.calls_union, ih, List.flatMap_cons]

lemma calls_collectFieldsFacts (fields : List (String × Expr)) :
    (collectFieldsFacts fields).calls = fields.flatMap fun f => (collectExprFacts f.2).calls := by
  induction fields with
  | nil => rfl
  | cons f fields ih =>
      obtain ⟨name, e⟩ := f
      rw [collectFieldsFacts, ExprFacts.calls_union, ih, List.flatMap_cons]

lemma calls_collectArmsFacts (arms : List MatchArm) :
    (collectArmsFacts arms).calls = arms.flatMap fun a => (collectExprFacts a.body).calls := by
  induction arms with
  | nil => rfl
  | cons a arms ih =>
      obtain ⟨name, binders, body⟩ := a
      rw [collectArmsFacts, ExprFacts.calls_union, ih, List.flatMap_cons]
      rfl

/-- A path contains no call. -/
lemma calls_of_path {e : Expr} {path : List String} (h : exprToPath e = some path) :
    e.calls = [] := by
  induction e using Expr.induction_children generalizing path with
  | step e ih =>
      cases e <;> simp only [exprToPath, reduceCtorEq, Option.map_eq_some_iff] at h
      · rfl
      · rename_i base field
        obtain ⟨base', hbase, -⟩ := h
        have := ih base (by simp [Expr.children]) hbase
        unfold Expr.calls at this ⊢
        rw [Expr.collect_eq]
        simp [Expr.children, this]

/-- The calls among the facts are all those of the expression: none is lost in a body, and a field
access, whose base is not walked, contains none. -/
theorem calls_collectExprFacts {e : Expr} (h : e.Spelled) {name : String} (hcall : name ∈ e.calls) :
    [name] ∈ (collectExprFacts e).calls := by
  induction e using Expr.induction_children with
  | step e ih =>
      have hchild : ∀ c ∈ e.children, name ∈ c.calls → [name] ∈ (collectExprFacts c).calls :=
        fun c hc => ih c hc (h.children hc)
      have hmem : (∃ args, e = .call name args) ∨ ∃ c ∈ e.children, name ∈ c.calls := by
        unfold Expr.calls at hcall
        rw [Expr.collect_eq, List.mem_append, List.mem_flatMap] at hcall
        rcases hcall with hself | hcall
        · split at hself
          · rw [List.mem_singleton] at hself
            exact .inl ⟨_, by rw [hself]⟩
          · exact absurd hself List.not_mem_nil
        · exact .inr hcall
      rcases hmem with ⟨args, rfl⟩ | ⟨c, hc, hname⟩
      · simp [collectExprFacts]
      · have hin := hchild c hc hname
        clear ih hchild hcall
        cases e <;> simp only [Expr.children, List.mem_cons, List.not_mem_nil, or_false] at hc
        case field base field =>
          subst hc
          obtain ⟨path, hpath⟩ := h.field
          rw [calls_of_path hpath] at hname
          exact absurd hname List.not_mem_nil
        case call n args =>
          rw [collectExprFacts, ExprFacts.calls_union, calls_collectListFacts]
          exact List.mem_append_right _ (List.mem_flatMap.mpr ⟨c, hc, hin⟩)
        case concat args =>
          rw [collectExprFacts, calls_collectListFacts]
          exact List.mem_flatMap.mpr ⟨c, hc, hin⟩
        case record n fields =>
          obtain ⟨f, hf, rfl⟩ := List.mem_map.mp hc
          rw [collectExprFacts, calls_collectFieldsFacts]
          exact List.mem_flatMap.mpr ⟨f, hf, hin⟩
        case variantConstruct n v fields =>
          obtain ⟨f, hf, rfl⟩ := List.mem_map.mp hc
          rw [collectExprFacts, calls_collectFieldsFacts]
          exact List.mem_flatMap.mpr ⟨f, hf, hin⟩
        case matchVariant s arms =>
          rw [collectExprFacts, ExprFacts.calls_union, calls_collectArmsFacts]
          rcases hc with rfl | hc
          · exact List.mem_append_left _ hin
          · obtain ⟨a, ha, rfl⟩ := List.mem_map.mp hc
            exact List.mem_append_right _ (List.mem_flatMap.mpr ⟨a, ha, hin⟩)
        all_goals
          simp only [collectExprFacts, ExprFacts.calls_union, ExprFacts.calls_outside,
            List.mem_append]
          rcases hc with rfl | rfl | rfl <;> simp only [hin, true_or, or_true]

end calls

end Verifier

/-- Every field access of a rule is a path. -/
def Rule.Spelled (r : Rule) : Prop :=
  (∀ b ∈ r.logic.bindings, b.2.Spelled) ∧ r.logic.value.Spelled

/-- The calls among the facts of a rule are all those of its `let`s and of its value. -/
theorem Verifier.calls_collectLogicFacts {r : Rule} (h : r.Spelled) {name : String}
    (hcall : name ∈ r.deps) : [name] ∈ (collectLogicFacts r.logic).calls := by
  simp only [collectLogicFacts, bodyFacts, ExprFacts.calls_union, calls_collectFieldsFacts]
  rcases List.mem_append.mp hcall with hcall | hcall
  · obtain ⟨b, hb, hname⟩ := List.mem_flatMap.mp hcall
    exact List.mem_append_left _
      (List.mem_flatMap.mpr ⟨b, hb, calls_collectExprFacts (h.1 b hb) hname⟩)
  · exact List.mem_append_right _ (calls_collectExprFacts h.2 hcall)

end Verbosec
