import Verbosec.Execution.Pipeline
import Verbosec.Interpreter.Fuel
import Verbosec.TextBounds.Sound
import Mathlib.Order.Filter.AtTopBot.Basic

/-!
# The lowered pipeline is the run

* `followed`, `stages_eval` - the wrapper evaluates the phases one after the other.
* `Chain`, `chain_of_stages` - the abstract values between the phases.
* `Guard`, `evalRule_guard` - the tables of the lowered program guard more rules than those of the
  program; a rule that the pipeline reaches gives the same under both, up to refusals of a guard.
* `chain_run` - no guard refuses on the way.
* `lower_runs` - the wrapper and the run end alike on every record that the first phase takes.
-/

namespace Verbosec.Execution.Pipeline

open Verbosec.Lib
open Interpreter (Context Env Outcome RuntimeError Value World ValidInput evalRule evalExpr
  evalBindings evalBody fail)
open TextBounds (Check SameTables Refusal RuleSound Reaches)

/-! ## The wrapper -/

/-- The phases called one after the other. -/
def followed (ctx : Context) (call : Rule → Value → Outcome Value) :
    List String → Value → Outcome Value
  | [], v => .ok v
  | name :: names, v =>
      match ctx.findRule name with
      | none => fail (.unknownRule name)
      | some r => do followed ctx call names (← call r v)

lemma evalExpr_call {ctx : Context} {call : Rule → Value → Outcome Value} {env : Env} {x : String}
    {v : Value} (hx : env.lookup x = some v) (name : String) :
    evalExpr ctx call env (.call name [.ident x]) = followed ctx call [name] v := by
  rw [evalExpr, followed]
  cases ctx.findRule name with
  | none => rfl
  | some r =>
      simp only [evalExpr, hx, followed]
      change call r v = (call r v >>= fun w => .ok w)
      cases call r v <;> rfl

lemma stages_cons (i : Nat) (value : Expr) (name next : String) (names : List String) :
    stages i value (name :: next :: names) =
      (("pipeline_stage_" ++ toString i, .call name [value]) ::
        (stages (i + 1) (.ident ("pipeline_stage_" ++ toString i)) (next :: names)).1,
        (stages (i + 1) (.ident ("pipeline_stage_" ++ toString i)) (next :: names)).2) := rfl

/-- The wrapper evaluates the phases one after the other. -/
lemma stages_eval {ctx : Context} {call : Rule → Value → Outcome Value} (names : List String)
    (hne : names ≠ []) : ∀ (i : Nat) {env : Env} {x : String} {v : Value}, env.lookup x = some v →
      (evalBindings ctx call env (stages i (.ident x) names).1 >>= fun env' =>
        evalExpr ctx call env' (stages i (.ident x) names).2) = followed ctx call names v := by
  induction names with
  | nil => exact absurd rfl hne
  | cons name names ih =>
      intro i env x v hx
      rcases names with _ | ⟨next, names⟩
      · exact evalExpr_call hx name
      · rw [stages_cons]
        simp only [evalBindings, evalExpr_call hx]
        rw [followed, followed]
        cases ctx.findRule name with
        | none => rfl
        | some r =>
            dsimp only
            rcases call r v with f | w
            · rfl
            · exact ih (List.cons_ne_nil _ _) (i + 1) (Dict.lookup_insert_self _ _ _)

/-! ## The abstract values -/

/-- The abstract values between the phases: each phase takes the one before. -/
def Chain (chk : Check) : TextBounds.Value → List String → TextBounds.Value → Prop
  | a, [], b => b = a
  | a, name :: names, b => ∃ v, chk.callInput name a = .ok () ∧ chk.RuleInfers name v ∧
      Chain chk v names b

lemma chain_of_stages {chk : Check} (names : List String) (hne : names ≠ []) :
    ∀ (i : Nat) {env env' : Dict String TextBounds.Value} {x : String} {a b : TextBounds.Value},
      env.lookup x = some a →
      chk.InfersLets chk.RuleInfers env (stages i (.ident x) names).1 env' →
      chk.Infers chk.RuleInfers env' (stages i (.ident x) names).2 b → Chain chk a names b := by
  induction names with
  | nil => exact absurd rfl hne
  | cons name names ih =>
      intro i env env' x a b hx hlets hvalue
      rcases names with _ | ⟨next, names⟩
      · cases hlets
        obtain ⟨input, hinput, hcall, hrule⟩ := hvalue
        rw [Check.Infers, hx] at hinput
        cases hinput
        exact ⟨b, hcall, hrule, rfl⟩
      · obtain ⟨v, ⟨input, hinput, hcall, hrule⟩, hlets⟩ := hlets
        rw [Check.Infers, hx] at hinput
        cases hinput
        exact ⟨v, hcall, hrule,
          ih (List.cons_ne_nil _ _) (i + 1) (Dict.lookup_insert_self _ _ _) hlets hvalue⟩

/-! ## The called rules -/

section called

variable {chk : Check} {result : String → TextBounds.Value → Prop}

/-- Every rule that an inferred expression calls has an inferred result. -/
lemma infers_calls {env : Dict String TextBounds.Value} (e : Expr) :
    ∀ {v}, chk.Infers result env e v → ∀ m ∈ e.calls, ∃ u, result m u := by
  induction e using Expr.induction_children with
  | step e ih =>
      intro v h m hm
      rw [Expr.calls, Expr.collect_eq, List.mem_append, List.mem_flatMap] at hm
      rcases hm with hm | ⟨c, hc, hm⟩
      · cases e <;> simp only [List.not_mem_nil, List.mem_singleton] at hm
        case call name args =>
          unfold Check.Infers at h
          split at h
          · obtain ⟨input, -, -, hresult⟩ := h
            exact ⟨v, hm ▸ hresult⟩
          · exact h.elim
      · obtain ⟨vc, hvc⟩ := h.of_mem_children hc
        exact ih c hc hvc m hm

lemma infersLets_calls (bindings : List (String × Expr)) : ∀ {env env'},
    chk.InfersLets result env bindings env' →
      ∀ m ∈ bindings.flatMap (fun b => b.2.calls), ∃ u, result m u := by
  induction bindings with
  | nil => exact fun _ m hm => absurd hm List.not_mem_nil
  | cons b bindings ih =>
      rintro env env' ⟨v, hv, hrest⟩ m hm
      rw [List.flatMap_cons, List.mem_append] at hm
      rcases hm with hm | hm
      · exact infers_calls _ hv m hm
      · exact ih hrest m hm

/-- Every rule that an inferred rule calls has an inferred result. -/
lemma infersBody_calls {name : String} {v : TextBounds.Value} (h : chk.InfersBody result name v)
    {r : Rule} (hr : chk.rules.lookup name = some r) : ∀ m ∈ r.deps, ∃ u, result m u := by
  obtain ⟨r', input, c, env, body, hr', -, hlets, hbody, -⟩ := h
  rw [hr] at hr'
  cases hr'
  intro m hm
  rcases List.mem_append.mp hm with hm | hm
  · exact infersLets_calls _ hlets m hm
  · exact infers_calls _ hbody m hm

/-- The first rule is called by the second one. -/
def CalledBy (chk : Check) (m n : String) : Prop :=
  ∃ r, chk.rules.lookup n = some r ∧ m ∈ r.deps

/-- The calls below an inferred rule end. -/
lemma calledBy_acc {name : String} {v : TextBounds.Value} (h : chk.RuleInfers name v) :
    Acc (CalledBy chk) name := by
  induction h with
  | body callees h ih =>
      refine ⟨_, fun m hm => ?_⟩
      obtain ⟨r, hr, hm⟩ := hm
      obtain ⟨u, hu⟩ := infersBody_calls h hr m hm
      exact ih m u hu

lemma not_calledBy_self {name : String} (h : Acc (CalledBy chk) name) :
    ¬Relation.TransGen (CalledBy chk) name name := by
  have hacc : Acc (Relation.TransGen (CalledBy chk)) name := h.transGen
  clear h
  induction hacc with
  | intro name _ ih => exact fun hself => ih name hself hself

/-- Every rule below an inferred rule has an inferred result. -/
lemma infers_below {name m : String} {v : TextBounds.Value} (h : chk.RuleInfers name v)
    (hm : Relation.ReflTransGen (CalledBy chk) m name) : ∃ u, chk.RuleInfers m u := by
  induction hm using Relation.ReflTransGen.head_induction_on with
  | refl => exact ⟨v, h⟩
  | head hcalled _ ih =>
      obtain ⟨u, hu⟩ := ih
      obtain ⟨r, hr, hmem⟩ := hcalled
      exact infersBody_calls hu.infersBody hr _ hmem

end called

/-! ## The guards -/

/-- A refusal of the guard of a rule. -/
def Guard (f : Interpreter.Failure) : Prop :=
  ∃ contract, f = .runtime (.contractConcept contract) ∨ f = .runtime (.contractRecord contract) ∨
    ∃ field, f = .runtime (.contractField contract field)

section guards

variable {big small : Context}

/-- The two tables differ in their rules and in the rules that are guarded, and the guarded rules of
the second are guarded in the first. -/
structure Guards (big small : Context) : Prop where
  same : big.SameBut small
  guarded : ∀ r, Interpreter.guarded small r = true → Interpreter.guarded big r = true

lemma checkInput_guard (h : Guards big small) (r : Rule) (v : Value) :
    Outcome.UpTo Guard (Interpreter.checkInput big r v) (Interpreter.checkInput small r v) := by
  have hconcepts : small.concepts = big.concepts := by
    obtain ⟨_, _, _, heq⟩ := h.same
    rw [heq]
  unfold Interpreter.checkInput
  by_cases hbig : Interpreter.guarded big r = true
  · rw [if_pos hbig, hconcepts]
    cases big.concepts.find? (r.inputTy = .named ·.name) with
    | none => exact .inl ⟨_, ⟨_, .inl rfl⟩, rfl⟩
    | some c =>
        dsimp only
        split
        · cases hfield : c.fields.find? (!Interpreter.fieldValid · _) with
          | none =>
              right
              split <;> rfl
          | some f => exact .inl ⟨_, ⟨_, .inr (.inr ⟨_, rfl⟩)⟩, rfl⟩
        · exact .inl ⟨_, ⟨_, .inr (.inl rfl)⟩, rfl⟩
  · rw [if_neg hbig, if_neg fun hsmall => hbig (h.guarded r hsmall)]
    exact .refl _

/-- Rules that are closed under calls give the same under both tables, up to refusals of a guard. -/
lemma evalRule_guard (h : Guards big small) {S : String → Prop}
    (hrules : ∀ n, S n → big.findRule n = small.findRule n)
    (hclosed : ∀ r ∈ small.rules, S r.name → ∀ m ∈ r.deps, S m) (fuel : Nat) :
    ∀ r ∈ small.rules, S r.name → ∀ v,
      Outcome.UpTo Guard (evalRule big fuel r v) (evalRule small fuel r v) := by
  induction fuel with
  | zero => exact fun r _ _ v => .refl _
  | succ fuel ih =>
      intro r hr hS v
      rw [evalRule, evalRule]
      refine (checkInput_guard h r v).bind fun _ => Interpreter.evalBody_upTo h.same r ?_ v
      intro m hm
      have hSm := hclosed r hr hS m hm
      refine ⟨(hrules m hSm).symm, fun r' hr' w => ?_⟩
      rw [hrules m hSm] at hr'
      have hname : r'.name = m := by simpa using List.find?_some hr'
      exact ih r' (List.mem_of_find?_eq_some hr') (hname ▸ hSm) w

end guards

/-! ## The lowered program -/

section lowered

variable {p : Program} {e : Execution} {last : Rule}

lemma rules_filter (items : List Item) :
    Program.rules ⟨items.filter (!isExecution ·)⟩ = Program.rules ⟨items⟩ := by
  unfold Program.rules
  rw [List.filterMap_filter]
  congr 1
  funext item
  cases item <;> rfl

lemma concepts_filter (items : List Item) :
    Program.concepts ⟨items.filter (!isExecution ·)⟩ = Program.concepts ⟨items⟩ := by
  unfold Program.concepts
  induction items with
  | nil => rfl
  | cons item items ih =>
      rw [List.filter_cons, List.flatMap_cons, ← ih]
      cases item <;> rfl

lemma lower_rules : (lower e p last).rules = p.rules ++ [wrapper e last] := by
  have hfilter := rules_filter p.items
  unfold Program.rules at hfilter
  rw [Program.rules, lower, List.filterMap_append, hfilter]
  rfl

lemma lower_concepts : (lower e p last).concepts = p.concepts := by
  have hfilter := concepts_filter p.items
  unfold Program.concepts at hfilter
  rw [Program.concepts, lower, List.flatMap_append, hfilter]
  exact List.append_nil _

/-- The name of an accepted pipeline is no name of a rule. -/
lemma Accepted.fresh (h : Accepted p e last) : e.name ∉ p.rules.map (·.name) := by
  obtain ⟨limit, -, hshape⟩ := h.shape
  unfold shapeErrors at hshape
  simp only [List.append_eq_nil_iff] at hshape
  intro hmem
  obtain ⟨r, hr, hname⟩ := List.mem_map.mp hmem
  obtain ⟨item, hitem, hrule⟩ := List.mem_filterMap.mp hr
  have htaken : e.name ∈ p.items.flatMap takenNames := by
    refine List.mem_flatMap.mpr ⟨item, hitem, ?_⟩
    cases item <;> cases hrule
    exact List.mem_singleton.mpr hname.symm
  have hcollision := hshape.1.1.1.1
  rw [if_pos (Or.inl htaken)] at hcollision
  cases hcollision

lemma Accepted.phases_ne (h : Accepted p e last) : e.phases ≠ [] := by
  obtain ⟨limit, -, hshape⟩ := h.shape
  unfold shapeErrors at hshape
  simp only [List.append_eq_nil_iff] at hshape
  intro hnil
  have hlength := hshape.1.1.1.2
  rw [hnil] at hlength
  cases hlength

variable (world : World)

lemma nodup_lower (hnames : Verifier.nameErrors p = []) (h : Accepted p e last) :
    ((lower e p last).rules.map (·.name)).Nodup := by
  rw [lower_rules, List.map_append]
  refine (Verifier.nodup_rules hnames).append (List.nodup_singleton _) fun n hn hn' => ?_
  obtain rfl : n = e.name := List.mem_singleton.mp hn'
  exact h.fresh hn

/-- The verifier of the entry finds the rules of the lowered program. -/
lemma lookup_lower (hnames : Verifier.nameErrors p = []) (h : Accepted p e last) {r : Rule}
    (hr : r ∈ (lower e p last).rules) :
    (entryCheck (lower e p last)).rules.lookup r.name = some r :=
  (lookup_reverse_of_nodup Rule.name (nodup_lower hnames h) _).trans
    (find?_of_nodup Rule.name (nodup_lower hnames h) hr)

/-- The verifier of the entry sees the tables of the lowered program. -/
lemma sameTables (hnames : Verifier.nameErrors p = []) (h : Accepted p e last) :
    SameTables (tables (lower e p last) world) (entryCheck (lower e p last)) where
  rules := fun n => lookup_reverse_of_nodup Rule.name (nodup_lower hnames h) n
  concepts := by
    intro c hc
    have hnodup := Verifier.nodup_concepts hnames
    rw [← @lower_concepts p e last] at hnodup
    exact (lookup_reverse_of_nodup Concept.name hnodup _).trans
      (find?_of_nodup Concept.name hnodup hc)

/-- The lowered program guards what the program guards. -/
lemma guards : Guards (tables (lower e p last) world) (tables p world) where
  same := by
    refine ⟨p.rules, NumericBounds.activeRules p, TextBounds.activeRules p, ?_⟩
    simp only [tables, Context.ofProgram, lower_concepts]
  guarded := by
    intro r hr
    have hsub : ∀ r ∈ p.rules, r ∈ (lower e p last).rules := by
      intro r hr
      rw [lower_rules]
      exact List.mem_append_left _ hr
    unfold Interpreter.guarded at hr ⊢
    simp only [Bool.or_eq_true, decide_eq_true_eq] at hr ⊢
    rcases hr with (hr | hr) | hr
    · exact .inl (.inl (participatingFrom_mono _ hsub _ hr))
    · exact .inl (.inr hr)
    · exact .inr (participatingFrom_mono _ hsub _ hr)

lemma findRule_lower {name : String} (hne : name ≠ e.name) :
    (tables (lower e p last) world).findRule name = (tables p world).findRule name := by
  change (lower e p last).rules.find? (·.name = name) = p.rules.find? (·.name = name)
  rw [lower_rules, List.find?_append]
  have hwrapper : [wrapper e last].find? (·.name = name) = none := by
    rw [List.find?_eq_none]
    intro r hr
    rw [List.mem_singleton.mp hr, decide_eq_true_eq]
    exact hne.symm
  rw [hwrapper, Option.or_none]

lemma findRule_wrapper (h : Accepted p e last) :
    (tables (lower e p last) world).findRule e.name = some (wrapper e last) := by
  change (lower e p last).rules.find? (·.name = e.name) = _
  rw [lower_rules, List.find?_append]
  have hnone : p.rules.find? (·.name = e.name) = none := by
    rw [List.find?_eq_none]
    intro r hr heq
    exact h.fresh (List.mem_map.mpr ⟨r, hr, by simpa using heq⟩)
  rw [hnone, Option.none_or]
  exact List.find?_cons_of_pos (by simp [wrapper])

/-- The wrapper has an inferred result. -/
lemma Accepted.infers (h : Accepted p e last) :
    ∃ v, (entryCheck (lower e p last)).RuleInfers e.name v := by
  have hentry := h.entry
  unfold verifyEntry at hentry
  rcases hrun : ((entryCheck (lower e p last)).rule 128 [] e.name).exec {} with ⟨message | v, s⟩
  · rw [hrun] at hentry
    cases hentry
  · exact ⟨v, (walkRule_keeps (fun _ hrule => Check.ruleInner_infers hrule) 128 [] e.name {} v s
      (.empty _) hrun).2⟩

/-! ### Reached rules -/

section accepted

variable (hnames : Verifier.nameErrors p = []) (h : Accepted p e last) {name : String}
  {v : TextBounds.Value}

include hnames

/-- The concept that the verifier finds is the one that the guard finds. -/
lemma find_concept {cname : String} {c : Concept}
    (hc : (entryCheck (lower e p last)).concepts.lookup cname = some c) :
    p.concepts.find? (Ty.named cname = .named ·.name) = some c := by
  have hnodup := Verifier.nodup_concepts hnames
  rw [← @lower_concepts p e last] at hnodup
  have hfind := (lookup_reverse_of_nodup Concept.name hnodup cname).symm.trans hc
  rw [lower_concepts] at hfind
  rw [← hfind]
  congr 1
  funext d
  simp only [Ty.named.injEq, eq_comm]

include h

/-- A rule with an inferred result is refused by no guard. -/
lemma refusal_capacity (hv : (entryCheck (lower e p last)).RuleInfers name v) {f : Interpreter.Failure}
    (hf : Refusal (tables (lower e p last) world) name f) : f = .capacity := by
  have htables := sameTables world hnames h
  rcases hf with hf | ⟨g, hg, hreach, hunknown, -⟩
  · exact hf
  · exfalso
    have hcalled : Relation.ReflTransGen (CalledBy (entryCheck (lower e p last))) g.name name := by
      refine Relation.ReflTransGen.mono (fun m n hmn => ?_) _ _
        (Relation.reflTransGen_swap.mpr hreach)
      obtain ⟨r, hr, rfl, hm⟩ := hmn
      exact ⟨r, lookup_lower hnames h hr, hm⟩
    obtain ⟨u, hu⟩ := infers_below hv hcalled
    obtain ⟨r, input, c, env, body, hr, hin, -⟩ := hu.infersBody
    rw [lookup_lower hnames h hg] at hr
    cases hr
    obtain ⟨hty, hc⟩ := TextBounds.inputConcept_eq_ok hin
    have hfound := find_concept hnames hc
    have hmem := List.mem_of_find?_eq_some hfound
    have hname := List.find?_some hfound
    rw [decide_eq_true_eq] at hname
    refine hunknown c ?_ (hty.trans hname)
    change c ∈ (lower e p last).concepts
    rwa [lower_concepts]

/-- With any fuel a rule with an inferred result gives a value within it, or ends for want of fuel
or of room. -/
lemma rule_within (hv : (entryCheck (lower e p last)).RuleInfers name v) {r : Rule}
    {cname : String} {c : Concept}
    (hr : (entryCheck (lower e p last)).rules.lookup name = some r) (hty : r.inputTy = .named cname)
    (hc : (entryCheck (lower e p last)).concepts.lookup cname = some c)
    {fields : Dict String Value} (hvalid : ValidInput c fields) (fuel : Nat) :
    Within (fun f => f = .outOfFuel ∨ f = .capacity)
      (v.Mem (entryCheck (lower e p last)).concepts)
      (evalRule (tables (lower e p last) world) fuel r (.record fields)) := by
  obtain ⟨-, r', cname', c', hr', hty', hc', -, heval⟩ :=
    Check.RuleInfers.sound (sameTables world hnames h) hv
  rw [hr] at hr'
  cases hr'
  rw [hty] at hty'
  cases hty'
  rw [hc] at hc'
  cases hc'
  obtain ⟨bound, hbound⟩ := Filter.eventually_atTop.mp heval
  have hend := hbound (max fuel bound) (le_max_right _ _) fields hvalid
  rcases Interpreter.evalRule_mono (tables (lower e p last) world) (le_max_left fuel bound) r
    (.record fields) with hle | hle
  · rw [hle]
    exact .inl rfl
  · rw [hle] at hend
    exact hend.mono (fun f hf => .inr (refusal_capacity world hnames h hv hf)) fun _ hw => hw

omit hnames in
/-- A rule that the pipeline reaches is a rule of the program. -/
lemma findRule_reached
    (hreached : Relation.TransGen (CalledBy (entryCheck (lower e p last))) name e.name) :
    (tables (lower e p last) world).findRule name = (tables p world).findRule name := by
  obtain ⟨u, hu⟩ := h.infers
  refine findRule_lower world fun heq => ?_
  rw [heq] at hreached
  exact not_calledBy_self (calledBy_acc hu) hreached

/-- A rule that the pipeline reaches gives the same under the tables of the program. -/
lemma evalRule_eq
    (hreached : Relation.TransGen (CalledBy (entryCheck (lower e p last))) name e.name)
    (hv : (entryCheck (lower e p last)).RuleInfers name v) {r : Rule} {cname : String} {c : Concept}
    (hr : (tables p world).findRule name = some r) (hty : r.inputTy = .named cname)
    (hc : (entryCheck (lower e p last)).concepts.lookup cname = some c)
    {fields : Dict String Value} (hvalid : ValidInput c fields) (fuel : Nat) :
    evalRule (tables p world) fuel r (.record fields) =
      evalRule (tables (lower e p last) world) fuel r (.record fields) := by
  have hclosed : ∀ r ∈ p.rules,
      Relation.TransGen (CalledBy (entryCheck (lower e p last))) r.name e.name → ∀ m ∈ r.deps,
        Relation.TransGen (CalledBy (entryCheck (lower e p last))) m e.name := by
    intro r hr hn m hm
    refine .head ⟨r, lookup_lower hnames h ?_, hm⟩ hn
    rw [lower_rules]
    exact List.mem_append_left _ hr
  have hname : r.name = name := by simpa using List.find?_some hr
  have hlookup : (entryCheck (lower e p last)).rules.lookup name = some r := by
    rw [(sameTables world hnames h).rules, findRule_reached world h hreached, hr]
  have hwithin := rule_within world hnames h hv hlookup hty hc hvalid fuel
  rcases evalRule_guard (guards world) (fun n hn => findRule_reached world h hn) hclosed fuel r
    (List.mem_of_find?_eq_some hr) (hname ▸ hreached) (.record fields) with
    ⟨f, ⟨contract, hf⟩, herror⟩ | heq
  · rw [herror] at hwithin
    rcases hwithin with rfl | rfl
    · rcases hf with hf | hf | ⟨_, hf⟩ <;> cases hf
    · rcases hf with hf | hf | ⟨_, hf⟩ <;> cases hf
  · exact heq

/-- No guard refuses on the way: the phases give the same under both tables. -/
lemma chain_run (fuel : Nat) (names : List String) : ∀ {a b : TextBounds.Value},
    Chain (entryCheck (lower e p last)) a names b →
    (∀ n ∈ names, Relation.TransGen (CalledBy (entryCheck (lower e p last))) n e.name) →
    ∀ {w : Value}, a.Mem (entryCheck (lower e p last)).concepts w → ∀ i,
      (runPhases (tables p world) fuel i names w).mapError (·.cause) =
        (followed (tables (lower e p last) world) (evalRule (tables (lower e p last) world) fuel)
          names w).mapError .rule ∧
      Within (fun f => f = .outOfFuel ∨ f = .capacity)
        (b.Mem (entryCheck (lower e p last)).concepts)
        (followed (tables (lower e p last) world) (evalRule (tables (lower e p last) world) fuel)
          names w) := by
  induction names with
  | nil =>
      rintro a b rfl - w hw i
      exact ⟨rfl, hw⟩
  | cons name names ih =>
      rintro a b ⟨v, hcall, hv, hchain⟩ hreached w hw i
      have hname := hreached name (by simp)
      obtain ⟨callee, cname, hcallee, hty, hinput⟩ := Check.callInput_spec hcall
      obtain ⟨c, fields, rfl, hc, hvalid⟩ := hinput w hw
      have htables := sameTables world hnames h
      have hbig : (tables (lower e p last) world).findRule name = some callee := by
        rw [← htables.rules, hcallee]
      have hsmall : (tables p world).findRule name = some callee := by
        rw [← findRule_reached world h hname, hbig]
      have hcheck : checkInput (tables p world) callee (.record fields) = .ok () := by
        have hnone : c.fields.find? (fun f => !Interpreter.fieldValid f fields) = none := by
          rw [List.find?_eq_none]
          intro f hf
          simp [hvalid f hf]
        have hfind : (tables p world).concepts.find? (callee.inputTy = .named ·.name) = some c := by
          rw [hty]
          exact find_concept hnames hc
        rw [checkInput, hfind]
        simp only [hnone]
      have heval := evalRule_eq world hnames h hname hv hsmall hty hc hvalid fuel
      have hwithin := rule_within world hnames h hv hcallee hty hc hvalid fuel
      rw [runPhases, runPhase, hsmall, followed, hbig]
      dsimp only
      rw [hcheck, heval]
      rcases hout : evalRule (tables (lower e p last) world) fuel callee (.record fields) with
        f | w'
      · rw [hout] at hwithin
        exact ⟨rfl, hwithin⟩
      · rw [hout] at hwithin
        exact ih hchain (fun n hn => hreached n (List.mem_cons_of_mem _ hn)) hwithin (i + 1)

/-- The last abstract value is well formed. -/
lemma chain_wf (names : List String) : ∀ {a b : TextBounds.Value}, a.Wf →
    Chain (entryCheck (lower e p last)) a names b → b.Wf := by
  induction names with
  | nil =>
      rintro a b ha rfl
      exact ha
  | cons name names ih =>
      rintro a b - ⟨v, -, hv, hchain⟩
      exact ih (Check.RuleInfers.sound (sameTables {} hnames h) hv).wf hchain

end accepted

end lowered

/-! ## The run -/

lemma stages_calls (names : List String) : ∀ (i : Nat) (value : Expr), ∀ n ∈ names,
    n ∈ ((stages i value names).1.flatMap fun b => b.2.calls) ++
      (stages i value names).2.calls := by
  induction names with
  | nil => exact fun _ _ n hn => absurd hn List.not_mem_nil
  | cons name names ih =>
      intro i value n hn
      have hcall : name ∈ (Expr.call name [value]).calls := by
        rw [Expr.calls, Expr.collect_eq]
        exact List.mem_append_left _ (List.mem_singleton_self _)
      rcases names with _ | ⟨next, names⟩
      · rw [List.mem_singleton.mp hn]
        exact List.mem_append_right _ hcall
      · rw [stages_cons, List.flatMap_cons, List.append_assoc]
        rcases List.mem_cons.mp hn with rfl | hn
        · exact List.mem_append_left _ hcall
        · exact List.mem_append_right _ (ih _ _ n hn)

lemma callInput_input {chk : Check} {name cname : String}
    (h : chk.callInput name (.input cname) = .ok ()) :
    ∃ callee, chk.rules.lookup name = some callee ∧ callee.inputTy = .named cname := by
  unfold Check.callInput at h
  split at h
  · cases h
  · rename_i callee hcallee
    obtain ⟨_, hty, -⟩ := Except.bind_eq_ok.mp h
    rw [TextBounds.Value.require_eq_ok] at hty
    exact ⟨callee, hcallee, hty.symm⟩

lemma valid_of_checkInput {ctx : Context} {r : Rule} {fields : Dict String Value}
    (h : checkInput ctx r (.record fields) = .ok ()) :
    ∃ c, ctx.concepts.find? (r.inputTy = .named ·.name) = some c ∧ ValidInput c fields := by
  unfold checkInput at h
  cases hfind : ctx.concepts.find? (r.inputTy = .named ·.name) with
  | none =>
      rw [hfind] at h
      cases h
  | some c =>
      rw [hfind] at h
      refine ⟨c, rfl, fun f hf => ?_⟩
      by_contra hinvalid
      have hrefused : ¬ValidInput c fields := fun hvalid => hinvalid (hvalid f hf)
      obtain ⟨g, hg⟩ := Interpreter.exists_invalid hrefused
      simp only [hg] at h
      cases h

/-- **The lowered pipeline is the run.** On a record that the first phase takes, the wrapper and the
phases one after the other end alike, with the same value or the same failure; both end, and no
guard of a phase refuses. -/
theorem lower_runs (p : Program) (e : Execution) (last first : Rule) (world : World)
    (hnames : Verifier.nameErrors p = []) (haccepted : Accepted p e last)
    (hfirst : e.phases.head?.bind (tables p world).findRule = some first)
    (fields : Dict String Value)
    (hinput : checkInput (tables p world) first (.record fields) = .ok ()) :
    (tables (lower e p last) world).findRule e.name = some (wrapper e last) ∧
    (∀ fuel, (runPhases (tables p world) fuel 0 e.phases (.record fields)).mapError (·.cause) =
      (evalRule (tables (lower e p last) world) (fuel + 1) (wrapper e last)
        (.record fields)).mapError .rule) ∧
    (∀ᶠ fuel in Filter.atTop, Within (· = .capacity) (fun _ => True)
      (evalRule (tables (lower e p last) world) fuel (wrapper e last) (.record fields))) ∧
    ∀ fuel err, runPhases (tables p world) fuel 0 e.phases (.record fields) = .error err →
      ∃ f, err.cause = .rule f := by
  have htables := sameTables world hnames haccepted
  have hfound := findRule_wrapper world haccepted
  obtain ⟨v, hv⟩ := haccepted.infers
  obtain ⟨r, input, c, env, body, hr, hin, hlets, hbody, hcontract⟩ := hv.infersBody
  rw [htables.rules, hfound] at hr
  cases hr
  obtain ⟨hty, hc⟩ := TextBounds.inputConcept_eq_ok hin
  obtain rfl : e.input = input := Ty.named.inj hty
  have hchain := chain_of_stages e.phases haccepted.phases_ne 0 rfl hlets hbody
  have hreached : ∀ n ∈ e.phases,
      Relation.TransGen (CalledBy (entryCheck (lower e p last))) n e.name := by
    intro n hn
    refine .single ⟨wrapper e last, ?_, stages_calls e.phases 0 _ n hn⟩
    rw [htables.rules, hfound]
  -- The record is one of the pipeline's input concept.
  have hvalid : ValidInput c fields := by
    obtain ⟨c', hc', hvalid⟩ := valid_of_checkInput hinput
    rcases hphases : e.phases with _ | ⟨name, names⟩
    · exact absurd hphases haccepted.phases_ne
    · rw [hphases] at hchain hreached hfirst
      obtain ⟨_, hcall, -⟩ := hchain
      obtain ⟨callee, hcallee, hcty⟩ := callInput_input hcall
      rw [htables.rules, findRule_reached world haccepted (hreached name (by simp))] at hcallee
      obtain rfl : callee = first := Option.some.inj (hcallee.symm.trans hfirst)
      rw [hcty] at hc'
      obtain rfl : c' = c := Option.some.inj (hc'.symm.trans (find_concept hnames hc))
      exact hvalid
  have hmem : (TextBounds.Value.input e.input).Mem (entryCheck (lower e p last)).concepts
      (.record fields) := ⟨c, hc, hvalid⟩
  have hrun := fun fuel => chain_run world hnames haccepted fuel e.phases hchain hreached hmem 0
  have hwf := chain_wf hnames haccepted e.phases (a := .input e.input) trivial hchain
  have heq : ∀ fuel, evalRule (tables (lower e p last) world) (fuel + 1) (wrapper e last)
      (.record fields) = followed (tables (lower e p last) world)
        (evalRule (tables (lower e p last) world) fuel) e.phases (.record fields) := by
    intro fuel
    have hfind : (tables (lower e p last) world).concepts.find?
        ((wrapper e last).inputTy = .named ·.name) = some c := by
      change (lower e p last).concepts.find? _ = _
      rw [lower_concepts]
      exact find_concept hnames hc
    have hstages := @stages_eval (tables (lower e p last) world)
      (evalRule (tables (lower e p last) world) fuel) e.phases haccepted.phases_ne 0
      [("pipeline_input", .record fields)] "pipeline_input" (.record fields) rfl
    have hbodies : evalBody (tables (lower e p last) world)
        (evalRule (tables (lower e p last) world) fuel) (wrapper e last) (.record fields) =
        followed (tables (lower e p last) world)
          (evalRule (tables (lower e p last) world) fuel) e.phases (.record fields) >>=
            Interpreter.checkOutput (wrapper e last) := by
      rw [← hstages, bind_assoc]
      rfl
    rw [evalRule, Interpreter.checkInput_of_valid hfind hvalid]
    change evalBody _ _ _ _ = _
    rw [hbodies]
    have hwithin := (hrun fuel).2
    rcases hout : followed (tables (lower e p last) world)
      (evalRule (tables (lower e p last) world) fuel) e.phases (.record fields) with f | w
    · rfl
    · rw [hout] at hwithin
      exact ((TextBounds.contractValue_spec hwf hcontract).2.2 w hwithin).1
  refine ⟨hfound, fun fuel => ?_, ?_, fun fuel err herr => ?_⟩
  · rw [heq]
    exact (hrun fuel).1
  · obtain ⟨-, r', cname, c', hr', hty', hc', -, heval⟩ := Check.RuleInfers.sound htables hv
    rw [htables.rules, hfound] at hr'
    cases hr'
    obtain rfl : e.input = cname := Ty.named.inj hty'
    rw [hc] at hc'
    cases hc'
    filter_upwards [heval] with fuel hfuel
    exact (hfuel fields hvalid).mono
      (fun f hf => refusal_capacity world hnames haccepted hv hf) fun _ _ => trivial
  · have hcause := (hrun fuel).1
    rw [herr] at hcause
    rcases hout : followed (tables (lower e p last) world)
      (evalRule (tables (lower e p last) world) fuel) e.phases (.record fields) with f | w
    · rw [hout] at hcause
      exact ⟨f, Except.error.inj hcause⟩
    · rw [hout] at hcause
      cases hcause

/-- An order of some pieces. -/
def orderConcept : Concept where
  name := "Order"
  fields := [⟨"pieces", .number, some (0, 100)⟩]

/-- The price of an order. -/
def priceConcept : Concept where
  name := "Price"
  fields := [⟨"cents", .number, some (0, 1000)⟩]

/-- Seven cents a piece. -/
def priceRule : Rule where
  name := "price"
  inputName := "o"
  inputTy := .named "Order"
  outputName := "out"
  outputTy := .named "Price"
  logic.value := .record "Price"
    [("cents", .binary .mul (.field (.ident "o") "pieces") (.number 7))]

/-- Five cents off. -/
def discountRule : Rule where
  name := "discount"
  inputName := "p"
  inputTy := .named "Price"
  outputName := "out"
  outputTy := .number
  logic.value := .binary .sub (.field (.ident "p") "cents") (.number 5)

/-- The price of an order, then the discount. -/
def checkout : Execution where
  name := "checkout"
  input := "Order"
  phases := ["price", "discount"]
  mode := .pipeline 4096

/-- A program with one pipeline. -/
def shop : Program := ⟨[.concept orderConcept, .concept priceConcept, .rule priceRule,
  .rule discountRule, .execution checkout]⟩

/-- An order of three pieces. -/
theorem lower_runs_checkout :
    (runPhases (tables shop {}) 2 0 checkout.phases (.record [("pieces", .number 3)])).mapError
        (·.cause) =
      (evalRule (tables (lower checkout shop discountRule) {}) 3 (wrapper checkout discountRule)
        (.record [("pieces", .number 3)])).mapError .rule :=
  (lower_runs shop checkout discountRule priceRule {} (by decide)
    ⟨⟨4096, rfl, by decide⟩, rfl, by decide +kernel⟩ rfl [("pieces", .number 3)] rfl).2.1 2

end Verbosec.Execution.Pipeline
