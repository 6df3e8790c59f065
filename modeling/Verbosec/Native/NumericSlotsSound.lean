import Verbosec.Native.NumericRule

/-!
# The slots of the rules that the verifier accepts

* `ExpandsIn`, `expandsIn_of_verify` - the calls of an accepted rule expand, and it is of the
  admitted shape.
* `lets_shaped`, `expandable_lowered` - so are its lowering's.
* `Lawful`, `slots_lawful` - the emission of the lowered rule, and what its code computes, where no
  field of the input has the key of an operand.
* `operand_captured` - an input with such a field.
-/

namespace Verbosec.Native.NumericSlots

open Verbosec.Lib Verbosec.Lib.Fallible NumericBounds

/-! ## Shapes -/

/-- Other names and other rules. -/
lemma Shaped.imp {bound kept : List String} {input : String} {numeric : List String}
    {callable callable' : String → Prop} (hinput : input ∉ bound → input ∉ kept) (e : Expr) :
    Shaped bound input numeric callable e → (∀ n ∈ e.idents, n ∈ bound → n ∈ kept) →
    (∀ n ∈ e.calls, callable n → callable' n) → Shaped kept input numeric callable' e := by
  induction e using Expr.induction_children with
  | step e ih =>
      intro h hkept hcalls
      have hsub : ∀ c ∈ e.children, Shaped bound input numeric callable c →
          (∀ n ∈ c.idents, n ∈ e.idents) → (∀ n ∈ c.calls, n ∈ e.calls) →
          Shaped kept input numeric callable' c := fun c hc h' hi hk =>
        ih c hc h' (fun n hn => hkept n (hi n hn)) fun n hn => hcalls n (hk n hn)
      cases e <;> try exact h.elim
      case number n => trivial
      case ident n => exact hkept n (by simp [Expr.idents, Expr.collect]) h
      case field base n => exact ⟨⟨h.1.1, hinput h.1.2⟩, h.2⟩
      case call n args =>
        exact ⟨⟨h.1.1, hinput h.1.2⟩, hcalls n (by simp [Expr.calls, Expr.collect]) h.2⟩
      case not c | neg c | abs c =>
        exact hsub c (by simp [Expr.children]) h (by simp +contextual [Expr.idents, Expr.collect])
          (by simp +contextual [Expr.calls, Expr.collect])
      case min a b | max a b | binary op a b =>
        refine ⟨hsub a (by simp [Expr.children]) h.1 ?_ ?_,
          hsub b (by simp [Expr.children]) h.2 ?_ ?_⟩
        all_goals simp +contextual [Expr.idents, Expr.calls, Expr.collect]
      case ite c a b =>
        refine ⟨hsub c (by simp [Expr.children]) h.1 ?_ ?_,
          hsub a (by simp [Expr.children]) h.2.1 ?_ ?_,
          hsub b (by simp [Expr.children]) h.2.2 ?_ ?_⟩
        all_goals simp +contextual [Expr.idents, Expr.calls, Expr.collect]

/-- Other rules. -/
lemma ShapedLets.imp {input : String} {numeric : List String} {callable callable' : String → Prop}
    {value : Expr} (rest : List (String × Expr)) : ∀ {bound : List String},
    ShapedLets input numeric callable value bound rest →
    (∀ n ∈ (rest.flatMap fun b => b.2.calls) ++ value.calls, callable n → callable' n) →
    ShapedLets input numeric callable' value bound rest := by
  induction rest with
  | nil => exact fun h hcalls => Shaped.imp id value h (fun _ _ hb => hb) (by simpa using hcalls)
  | cons b rest ih =>
      intro bound h hcalls
      refine ⟨Shaped.imp id b.2 h.1 (fun _ _ hb => hb) fun n hn => hcalls n (by simp [hn]), ?_⟩
      exact ih h.2 fun n hn => hcalls n (by
        rw [List.flatMap_cons, List.append_assoc]
        exact List.mem_append_right _ hn)

/-- One bound for finitely many names. -/
lemma exists_bound {Q : Nat → String → Prop} (hmono : ∀ d d' n, d ≤ d' → Q d n → Q d' n)
    (names : List String) (h : ∀ n ∈ names, ∃ d, Q d n) : ∃ d, ∀ n ∈ names, Q d n := by
  induction names with
  | nil => exact ⟨0, by simp⟩
  | cons n names ih =>
      obtain ⟨d, hd⟩ := h n List.mem_cons_self
      obtain ⟨d', hd'⟩ := ih fun m hm => h m (List.mem_cons_of_mem _ hm)
      refine ⟨max d d', fun m hm => ?_⟩
      rcases List.mem_cons.mp hm with rfl | hm
      · exact hmono d _ m (le_max_left _ _) hd
      · exact hmono d' _ m (le_max_right _ _) (hd' m hm)

/-! ## The rules that the verifier accepts -/

/-- The names of the numeric fields. -/
def numericNames (c : Concept) : List String :=
  (c.fields.filter fun f => f.ty = .number).map (·.name)

/-- The rules with an input whose calls expand in a depth, all of them of the admitted shape. -/
def ExpandsIn (chk : Check) (c : Concept) : Nat → Rule → Prop
  | 0, _ => False
  | depth + 1, r =>
      chk.inputConcept r = .ok c ∧
        ShapedLets r.inputName (numericNames c)
          (fun n => ∃ callee, chk.rules.lookup n = some callee ∧ ExpandsIn chk c depth callee)
          r.logic.value [] r.logic.bindings

lemma ExpandsIn.succ {chk : Check} {c : Concept} (depth : Nat) : ∀ {r : Rule},
    ExpandsIn chk c depth r → ExpandsIn chk c (depth + 1) r := by
  induction depth with
  | zero => exact fun h => h.elim
  | succ depth ih =>
      rintro r ⟨hc, hshape⟩
      refine ⟨hc, ShapedLets.imp _ hshape fun n _ ⟨callee, hlookup, hcallee⟩ => ?_⟩
      exact ⟨callee, hlookup, ih hcallee⟩

lemma ExpandsIn.mono {chk : Check} {c : Concept} {depth depth' : Nat} (h : depth ≤ depth')
    {r : Rule} (hr : ExpandsIn chk c depth r) : ExpandsIn chk c depth' r := by
  induction h with
  | refl => exact hr
  | step _ ih => exact ih.succ

/-- What the verifier knows of the name of a rule: its calls expand. -/
abbrev ExpandsResult (chk : Check) : String → Value → Prop := fun name _ =>
  ∃ r c depth, chk.rules.lookup name = some r ∧ ExpandsIn chk c depth r

section check

variable {chk : Check} {rule : String → M Value}
  (hrule : ∀ name, Keeps (Cached (ExpandsResult chk)) (rule name)
    fun v => ExpandsResult chk name v)

/-- The rules with an input that expand. -/
abbrev Expanding (chk : Check) (c : Concept) (n : String) : Prop :=
  ∃ depth callee, chk.rules.lookup n = some callee ∧ ExpandsIn chk c depth callee

include hrule

lemma expr_shaped {r : Rule} {c : Concept} (hc : chk.inputConcept r = .ok c) (e : Expr) :
    ∀ (scope : Scope) depth, scope.input = r.inputName → scope.concept = c →
      Keeps (Cached (ExpandsResult chk)) (chk.expr rule r scope depth e)
        fun _ => Shaped (scope.locals.map (·.1)) r.inputName (numericNames c) (Expanding chk c)
          e := by
  induction e using Expr.induction_children with
  | step e ih =>
      intro scope depth hin hconcept
      have hsub : ∀ {x}, x ∈ e.children → Keeps (Cached (ExpandsResult chk))
          (chk.expr rule r scope (depth + 1) x)
          fun _ => Shaped (scope.locals.map (·.1)) r.inputName (numericNames c) (Expanding chk c)
            x :=
        fun hx => ih _ hx scope (depth + 1) hin hconcept
      have hpure : ∀ {α : Type} (x : Except String α), Keeps (Cached (ExpandsResult chk))
          (fromExcept x) fun _ => True := fun x => .fromExcept fun _ _ => trivial
      cases e <;> unfold Check.expr <;> refine (Check.tick_keeps _ depth).seq fun done => ?_
      case number n => exact .pure trivial
      case ident n =>
        split
        · rename_i v hv
          refine .pure ?_
          have hbound : scope.locals.has n = true := by
            unfold Scope.localValue at hv
            rw [Dict.has_eq_true]
            split at hv
            · cases hv
            · exact ⟨_, ‹_›⟩
            · exact ⟨_, ‹_›⟩
          obtain ⟨w, hw⟩ := Dict.has_eq_true.mp hbound
          exact List.mem_map.mpr ⟨_, Dict.mem_of_lookup hw, rfl⟩
        · exact .throw _
      case field base name =>
        refine .fromExcept fun v hv => ?_
        unfold fieldValue at hv
        split at hv
        · cases hv
        rename_i hin'
        split at hv
        · cases hv
        rename_i f hf
        split at hv
        · cases hv
        rename_i hty
        have hname : f.name = name := by simpa using List.find?_some hf
        rw [Scope.isInput_eq] at hin'
        have hbase := isInputAfter_eq_true.mp (by simpa using hin')
        rw [hin] at hbase
        refine ⟨hbase, List.mem_map.mpr ⟨f, List.mem_filter.mpr ⟨?_, ?_⟩, hname⟩⟩
        · exact hconcept ▸ List.mem_of_find?_eq_some hf
        · simpa using hty
      case ite cond a b =>
        have hframe := fun truth => Scope.SameFrame.branch scope cond truth
        refine (Keeps.mapError _ (hsub (by simp [Expr.children]))).bind fun vc hcond => ?_
        refine (hpure _).bind fun _ _ => ?_
        refine (Keeps.mapError _ (ih a (by simp [Expr.children]) _ _
          ((hframe true).input.trans hin) (by
            rw [Scope.branch_concept, hconcept]))).bind fun va ha => ?_
        refine (Keeps.mapError _ (ih b (by simp [Expr.children]) _ _
          ((hframe false).input.trans hin) (by
            rw [Scope.branch_concept, hconcept]))).bind fun vb hb => ?_
        rw [(hframe true).locals] at ha
        rw [(hframe false).locals] at hb
        exact (hpure _).mono fun _ _ => ⟨hcond, ha, hb⟩
      case not x =>
        refine (hsub (by simp [Expr.children])).bind fun vc hx => ?_
        exact (hpure _).bind fun _ _ => .pure hx
      case neg x | abs x =>
        refine (hsub (by simp [Expr.children])).bind fun vc hx => ?_
        exact (hpure _).bind fun _ _ => (hpure _).bind fun _ _ => .pure hx
      case min a b | max a b =>
        refine (hsub (by simp [Expr.children])).bind fun va ha => (hpure _).bind fun _ _ => ?_
        refine (hsub (by simp [Expr.children])).bind fun vb hb => (hpure _).bind fun _ _ => ?_
        exact (hpure _).bind fun _ _ => .pure ⟨ha, hb⟩
      case binary op a b =>
        refine (Keeps.mapError _ (hsub (by simp [Expr.children]))).bind fun va ha => ?_
        refine (Keeps.mapError _ (hsub (by simp [Expr.children]))).bind fun vb hb => ?_
        exact (hpure _).mono fun _ _ => ⟨ha, hb⟩
      case call name args =>
        split
        · exact .throw _
        · rename_i callee hcallee
          refine .ite (fun _ => .throw _) fun hok => ?_
          simp only [Bool.or_eq_true, Bool.not_eq_true', decide_eq_true_eq, not_or,
            Bool.not_eq_false, not_not, Bool.and_eq_true, List.all_eq_true] at hok
          refine (hrule name).mono fun v hv => ?_
          obtain ⟨r', c', depth', hr', hexpands⟩ := hv
          rw [hcallee] at hr'
          cases hr'
          obtain ⟨⟨hlen, hargs⟩, hty⟩ := hok
          obtain ⟨arg, rfl⟩ := List.length_eq_one_iff.mp hlen
          have harg := hargs arg (by simp)
          rw [Scope.isInput_eq, hin] at harg
          obtain ⟨rfl, hfree⟩ := isInputAfter_eq_true.mp harg
          refine ⟨⟨rfl, hfree⟩, depth', callee, hcallee, ?_⟩
          cases depth' with
          | zero => exact hexpands.elim
          | succ depth' =>
              obtain ⟨n₁, hty₁, hlookup₁, -⟩ := inputConcept_eq_ok hc
              obtain ⟨n₂, hty₂, hlookup₂, -⟩ := inputConcept_eq_ok hexpands.1
              have hcc : c' = c := by
                rw [hty, hty₁] at hty₂
                cases hty₂
                rw [hlookup₁] at hlookup₂
                cases hlookup₂
                rfl
              exact hcc ▸ hexpands
      all_goals exact .throw _

lemma bindings_shaped {r : Rule} {c : Concept} (hc : chk.inputConcept r = .ok c)
    (bindings : List (String × Expr)) : ∀ locals,
    Keeps (Cached (ExpandsResult chk)) (chk.bindings rule r c locals bindings)
      fun locals' => Shaped (locals'.map (·.1)) r.inputName (numericNames c) (Expanding chk c)
          r.logic.value →
        ShapedLets r.inputName (numericNames c) (Expanding chk c) r.logic.value (locals.map (·.1))
          bindings := by
  induction bindings with
  | nil => exact fun locals => .pure id
  | cons b bindings ih =>
      intro locals
      obtain ⟨n, e⟩ := b
      unfold Check.bindings
      refine (Keeps.mapError _ (expr_shaped hrule hc e _ _ rfl rfl)).bind fun v hv => ?_
      exact (ih _).mono fun locals' hl h => ⟨hv, hl h⟩

lemma ruleInner_expands (name : String) :
    Keeps (Cached (ExpandsResult chk)) (chk.ruleInner rule name)
      fun v => ExpandsResult chk name v := by
  unfold Check.ruleInner
  cases hlookup : chk.rules.lookup name with
  | none => exact .throw _
  | some r =>
      refine (Keeps.fromExcept (P := fun c => chk.inputConcept r = .ok c) fun _ h => h).bind
        fun c hc => ?_
      refine (bindings_shaped hrule hc _ _).bind fun locals hl => ?_
      refine (Keeps.mapError _ (expr_shaped hrule hc _ _ _ rfl rfl)).bind fun v hv => ?_
      refine .fromExcept fun _ _ => ?_
      -- The calls of the rule expand in a common depth.
      obtain ⟨depth, hdepth⟩ := exists_bound
        (Q := fun d n => Expanding chk c n → ∃ callee, chk.rules.lookup n = some callee ∧
          ExpandsIn chk c d callee)
        (fun d d' n hle h hn => by
          obtain ⟨callee, hcallee, hexpands⟩ := h hn
          exact ⟨callee, hcallee, hexpands.mono hle⟩) r.deps
        (fun n _ => by
          by_cases hn : Expanding chk c n
          · obtain ⟨d, callee, hcallee, hexpands⟩ := hn
            exact ⟨d, fun _ => ⟨callee, hcallee, hexpands⟩⟩
          · exact ⟨0, fun h => absurd h hn⟩)
      exact ⟨r, c, depth + 1, hlookup, hc, ShapedLets.imp _ (hl hv) hdepth⟩

end check

/-- The calls of an accepted rule expand. -/
theorem expandsIn_of_verify {p : Program} (hverify : verify p = []) {n : String}
    (hn : n ∈ activeRules p) :
    ∃ r c depth, (Check.new p).rules.lookup n = some r ∧ ExpandsIn (.new p) c depth r := by
  obtain ⟨_, h⟩ := walkErrors_keeps (P := ExpandsResult (.new p))
    (fun _ hrule => ruleInner_expands hrule) _ {} (.empty _) (walkErrors_of_verify hverify) n hn
  exact h

/-! ## Their lowerings -/

/-- A constant has the shape of every expression. -/
lemma shaped_constant {bound : List String} {input : String} {numeric : List String}
    {callable : String → Prop} {fact : Fact} {e : Expr} (h : fact.constant = some e) :
    Shaped bound input numeric callable e := by
  unfold Fact.constant at h
  split at h
  · split at h
    · cases h
      trivial
    · cases h
  · cases h
    exact ⟨trivial, trivial⟩
  · cases h

lemma shaped_substitute {bound : List String} {input : String} {numeric : List String}
    {callable : String → Prop} {fact : Fact} {e : Expr}
    (h : Shaped bound input numeric callable e) :
    Shaped bound input numeric callable (substitute e fact).1 := by
  unfold substitute
  cases hc : fact.constant with
  | none => exact h
  | some k => exact shaped_constant hc

/-- The lowering of an expression has its shape. -/
lemma expr_lowered {bound : List String} {input : String} {numeric : List String}
    {callable : String → Prop} {fold : Fold} (e : Expr) : ∀ scope : Scope,
    Shaped bound input numeric callable e →
    Shaped bound input numeric callable (fold.expr scope e).1 := by
  induction e using Expr.induction_children with
  | step e ih =>
      intro scope h
      have hsub : ∀ c ∈ e.children, ∀ scope, Shaped bound input numeric callable c →
          Shaped bound input numeric callable (fold.expr scope c).1 :=
        fun c hc scope h => ih c hc scope h
      cases e <;> try exact h.elim
      all_goals simp only [Fold.expr]
      case number n | ident n | field base n | call n args => exact shaped_substitute h
      case not c | neg c | abs c => exact shaped_substitute (hsub c (by simp [Expr.children]) _ h)
      case min a b | max a b | binary op a b =>
        exact shaped_substitute ⟨hsub a (by simp [Expr.children]) _ h.1,
          hsub b (by simp [Expr.children]) _ h.2⟩
      case ite c a b =>
        have ha := fun scope => hsub a (by simp [Expr.children]) scope h.2.1
        have hb := fun scope => hsub b (by simp [Expr.children]) scope h.2.2
        split
        · exact ha _
        · exact hb _
        · exact shaped_substitute ⟨hsub c (by simp [Expr.children]) _ h.1, ha _, hb _⟩

/-- **The kept `let`s** have the shape too: what they read is not dropped. -/
lemma lets_lowered {chk : Check} {r : Rule} {c : Concept} {callable : String → Prop}
    (bindings : List (String × Expr)) : ∀ (fold : Fold) (bound kept : List String), fold.CallsWf →
    (Scope.new r c fold.values).Wf → (∀ n, fold.Drops n → n ∈ bound) →
    (∀ n ∈ bound, fold.Drops n ∨ n ∈ kept) → (∀ n ∈ kept, n ∈ bound) →
    chk.AcceptsLets r c bound bindings →
    ShapedLets r.inputName (numericNames c) callable r.logic.value bound bindings →
    ShapedLets r.inputName (numericNames c) callable
      ((Fold.lets r c fold bindings).2.expr
        (Scope.new r c (Fold.lets r c fold bindings).2.values) r.logic.value).1 kept
      (keptLets (Fold.lets r c fold bindings).1) := by
  induction bindings with
  | nil =>
      intro fold bound kept hwf hscope hbound hor hkept hacc hshape
      have hreads := Fold.expr_reads hbound r.logic.value _ (.new hscope) hacc
      exact Shaped.imp (fun hi hk => hi (hkept _ hk)) _ (expr_lowered r.logic.value _ hshape)
        (fun n hn hb => (hor n hb).resolve_left (hreads n hn)) fun _ _ h => h
  | cons b bindings ih =>
      intro fold bound kept hwf hscope hbound hor hkept hacc hshape
      obtain ⟨n, e⟩ := b
      have hreads := Fold.expr_reads hbound e _ (.new hscope) hacc.1
      have hfact := Fold.expr_wf hwf e _ hscope
      have hlowered : Shaped bound r.inputName (numericNames c) callable
          (fold.expr (Scope.new r c fold.values) e).1 := expr_lowered e _ hshape.1
      simp only [Fold.lets]
      generalize fold.expr (Scope.new r c fold.values) e = lowered at hreads hfact hlowered ⊢
      obtain ⟨e', fact⟩ := lowered
      simp only at hreads hfact hlowered ⊢
      have hwf' : (fold.bind n fact).CallsWf := by
        unfold Fold.CallsWf
        rwa [Fold.bind_calls]
      have hbound' : ∀ m, (fold.bind n fact).Drops m → m ∈ n :: bound := by
        intro m hm
        rw [Fold.drops_bind] at hm
        split at hm
        · simp [*]
        · exact List.mem_cons_of_mem _ (hbound m hm)
      have hrest := fun kept' hor' hkept' => ih (fold.bind n fact) (n :: bound) kept' hwf'
        (Fold.bind_wf hscope hfact n) hbound' hor' hkept' hacc.2 hshape.2
      cases hc : fact.constant with
      | none =>
          simp only [keptLets, Option.isNone_none, if_true, List.filterMap_cons, Option.map_some]
          refine ⟨Shaped.imp (fun hi hk => hi (hkept _ hk)) _ hlowered
            (fun m hm hb => (hor m hb).resolve_left (hreads m hm)) fun _ _ h => h, ?_⟩
          refine hrest (n :: kept) (fun m hm => ?_) fun m hm => ?_
          · by_cases hmn : m = n
            · exact Or.inr (hmn ▸ List.mem_cons_self)
            · rw [Fold.drops_bind, if_neg hmn]
              exact (hor m ((List.mem_cons.mp hm).resolve_left hmn)).imp_right
                (List.mem_cons_of_mem _)
          · rcases List.mem_cons.mp hm with rfl | hm
            · exact List.mem_cons_self
            · exact List.mem_cons_of_mem _ (hkept m hm)
      | some k =>
          have hkeptLets : keptLets ((n, if (some k).isNone = true then some e' else none) ::
              (Fold.lets r c (fold.bind n fact) bindings).1) =
              keptLets (Fold.lets r c (fold.bind n fact) bindings).1 := by
            simp [keptLets]
          rw [hkeptLets]
          refine hrest kept (fun m hm => ?_) fun m hm => List.mem_cons_of_mem _ (hkept m hm)
          by_cases hmn : m = n
          · left
            rw [Fold.drops_bind, if_pos hmn, hc]
            rfl
          · rw [Fold.drops_bind, if_neg hmn]
            exact hor m ((List.mem_cons.mp hm).resolve_left hmn)

/-! ## The compiled rule -/

/-- The rules that a rule expands to. -/
inductive Expanded (rules : Dict String Rule) : Rule → Rule → Prop
  | self (r : Rule) : Expanded rules r r
  | call {r r₁ r₂ : Rule} {n : String} (hn : n ∈ r.deps) (hlookup : rules.lookup n = some r₁)
      (hrest : Expanded rules r₁ r₂) : Expanded rules r r₂

/-- The context of a rule with an input. Source: `native/bounded.rs`, `prepare_body`; the number of
slots is a parameter -/
def compileContext (limit : Nat) (lowered : Program) (c : Concept) : Context where
  limit := limit
  fields := c.fields.map (·.name)
  rules := (lowered.rules.map fun r => (r.name, r)).reverse

/-- No field of the input has the key of an operand of a scalar operator that is emitted for the
rule. -/
def NotCaptured (p : Program) (r : Rule) (c : Concept) : Prop :=
  ∀ lowered, lower p = .ok lowered → ∀ r' ∈ lowered.rules, r'.name = r.name →
    ∀ r'', Expanded (compileContext 0 lowered c).rules r' r'' →
      UncapturedRule (c.fields.map (·.name)) r''

/-- The numbers of a record are in the words of their fields. -/
def Loaded (fields : Dict String Interpreter.Value) (m : Machine) : Prop :=
  ∀ n k, fields.lookup n = some (.number k) → m.fields n = k

/-- The lowered rule is emitted, unless the frame estimate refuses it: no slot is released twice; at
no point are two slots that are held the same, a slot read that is not held, or one written that is;
none is held at the end; and the code computes what the evaluator does. -/
def Lawful (p : Program) (world : Interpreter.World) (limit : Nat) (r : Rule) (c : Concept) :
    Prop :=
  ∃ lowered, lower p = .ok lowered ∧ ∃ r' ∈ lowered.rules, r'.name = r.name ∧
    ∃ depth, ∀ fuel, depth ≤ fuel →
      numericRule (compileContext limit lowered c) fuel r' {} = .error exhausted ∨
      ∃ s, numericRule (compileContext limit lowered c) fuel r' {} = .ok s ∧ s.Sound ∧ s.held = [] ∧
        ∀ fields m fuel' v, Interpreter.ValidInput c fields → Loaded fields m →
          Interpreter.evalRule (.ofProgram p world) fuel' r (.record fields) = .ok v →
          ∃ m', run s.code m = some m' ∧ m'.rax = encode v

/-- A valid record has its numeric fields in the frame. -/
lemma fieldsOf_valid {c : Concept} {fields : Dict String Interpreter.Value} {m : Machine}
    (hvalid : Interpreter.ValidInput c fields) (hm : Loaded fields m) :
    FieldsOf (numericNames c) fields m := by
  intro n hn
  obtain ⟨f, hf, rfl⟩ := List.mem_map.mp hn
  obtain ⟨hf, hty⟩ := List.mem_filter.mp hf
  have hvalid' := hvalid f hf
  unfold Interpreter.fieldValid at hvalid'
  rw [show f.ty = .number by simpa using hty] at hvalid'
  cases hv : fields.lookup f.name with
  | none => rw [hv] at hvalid'; cases hvalid'
  | some v =>
      rw [hv] at hvalid'
      cases v <;> try cases hvalid'
      rename_i k
      exact ⟨k, rfl, hm _ k hv⟩

section programs

variable {p : Program} (world : Interpreter.World) {calls : Dict String Fact}
  (hnames : Verifier.nameErrors p = []) (hverify : verify p = [])

include hnames in
/-- The lowered rule of a name. -/
lemma lookup_lowered (limit : Nat) (c : Concept) (n : String) :
    (compileContext limit (lowerWith p calls) c).rules.lookup n =
      (loweredContext p (lowerWith p calls) world).findRule n := by
  refine lookup_reverse_of_nodup Rule.name ?_ n
  rw [rules_lowerWith, List.map_map]
  have hname : Rule.name ∘ lowerActive p calls = Rule.name := by
    funext r
    unfold lowerActive
    simp only [Function.comp_apply]
    split
    · exact lowerRule_name _ _ r
    · rfl
  rw [hname]
  exact Verifier.nodup_rules hnames

include hnames hverify

/-- **The lowering of an accepted rule expands**, all of it of the admitted shape. -/
lemma expandable_lowered (limit : Nat) {c : Concept} (hwf : Fold.CallsWf { calls }) (depth : Nat) :
    ∀ r ∈ p.rules, r.name ∈ activeRules p → ExpandsIn (.new p) c depth r →
    (∀ r'', Expanded (compileContext limit (lowerWith p calls) c).rules (lowerActive p calls r)
      r'' → UncapturedRule (c.fields.map (·.name)) r'') →
    Expandable (compileContext limit (lowerWith p calls) c)
      (loweredContext p (lowerWith p calls) world) (numericNames c) depth
      (lowerActive p calls r) := by
  induction depth with
  | zero => exact fun r _ _ h => h.elim
  | succ depth ih =>
      intro r hr hactive hexpands hfree
      obtain ⟨hc, hshape⟩ := hexpands
      obtain ⟨r₁, c₁, hr₁, hc₁, hacc⟩ := acceptsRule_of_verify hverify hactive
      have hlookup : (Check.new p).rules.lookup r.name = some r := by
        unfold Check.new
        rw [Verifier.lookup_rules hnames]
        exact find?_of_nodup Rule.name (Verifier.nodup_rules hnames) hr
      rw [hlookup] at hr₁
      cases hr₁
      rw [hc] at hc₁
      cases hc₁
      obtain ⟨-, -, -, hbounds, -⟩ := inputConcept_eq_ok hc
      refine ⟨?_, hfree _ (.self _)⟩
      -- Every call is one of the rule, whose callee is active.
      have hdeps : ShapedLets r.inputName (numericNames c) (fun n => (∃ callee,
          (Check.new p).rules.lookup n = some callee ∧ ExpandsIn (.new p) c depth callee) ∧
            n ∈ r.deps) r.logic.value [] r.logic.bindings :=
        ShapedLets.imp _ hshape fun n hn h => ⟨h, hn⟩
      have hlowered := lets_lowered r.logic.bindings { calls } [] [] hwf
        (.new (by simp) hbounds) (by simp [Fold.Drops]) (by simp) (by simp) hacc hdeps
      have heq : lowerActive p calls r = _ := (if_pos hactive).trans (lowerRule_eq hc calls)
      have hinput : (lowerActive p calls r).inputName = r.inputName := by rw [heq]
      rw [hinput]
      have hshape' : ShapedLets r.inputName (numericNames c) (fun n => (∃ callee,
          (Check.new p).rules.lookup n = some callee ∧ ExpandsIn (.new p) c depth callee) ∧
            n ∈ r.deps)
          (lowerActive p calls r).logic.value [] (lowerActive p calls r).logic.bindings := by
        rw [heq]
        exact hlowered
      refine ShapedLets.imp _ hshape' fun n hn h => ?_
      obtain ⟨⟨callee, hcallee, hexpands⟩, hdep⟩ := h
      have hfind : (Interpreter.Context.ofProgram p world).findRule n = some callee := by
        rw [← (sameTables_of_program hnames world).rules, hcallee]
      have hfind' : (loweredContext p (lowerWith p calls) world).findRule n =
          some (lowerActive p calls callee) := by
        rw [findRule_lowered, hfind]
        rfl
      have hlookup' := (lookup_lowered world hnames limit c n).trans hfind'
      refine ⟨_, hlookup', hfind', ih callee (List.mem_of_find?_eq_some hfind) ?_ hexpands ?_⟩
      · have hname : callee.name = n := by simpa using List.find?_some hfind
        rw [hname]
        exact deps_mem_participating hr hactive hdep
      · exact fun r'' hr'' => hfree r'' (.call hn hlookup' hr'')

end programs

/-- The key of an operand begins with an underscore. -/
lemma bindKey_ne {name field : String} (h : field.toList.head? ≠ some '_') :
    bindKey name ≠ field := by
  rintro rfl
  refine h ?_
  rw [bindKey, String.toList_append]
  rfl

/-- An input with the key of the first operand. -/
def pair : Concept where
  name := "Pair"
  fields := [
    { name := "x", ty := .number, range := some (0, 10) },
    { name := "__bind___bounds_0", ty := .number, range := some (0, 10) }]

/-- A rule with a sum. -/
def twice : Rule where
  name := "twice"
  inputName := "r"
  inputTy := .named "Pair"
  outputName := "out"
  outputTy := .number
  logic.value := .binary .add (.field (.ident "r") "x") (.field (.ident "r") "x")
  hints := some { overflow := some ⟨0, 20⟩ }

/-- The program of `twice`. -/
def twiceProgram : Program := ⟨[.concept pair, .rule twice]⟩

/-- Is a rule the sum of `twice`? -/
def isTwice (r : Rule) : Bool :=
  r.logic.bindings.isEmpty &&
    match r.logic.value with
    | .binary .add (.field (.ident i) a) (.field (.ident j) b) =>
        i = "r" && a = "x" && j = "r" && b = "x"
    | _ => false

/-- Its lowering is the same sum. -/
lemma lower_twice {lowered : Program} (h : lower twiceProgram = .ok lowered) {r : Rule}
    (hr : r ∈ lowered.rules) : r.logic.bindings = [] ∧ r.logic.value = twice.logic.value := by
  have hall : (match lower twiceProgram with
      | .ok l => l.rules.all isTwice
      | .error _ => false) = true := by decide +kernel
  rw [h] at hall
  have htwice := List.all_eq_true.mp hall r hr
  unfold isTwice at htwice
  split at htwice
  · rename_i i a j b hvalue
    simp only [Bool.and_eq_true, List.isEmpty_iff, decide_eq_true_eq] at htwice
    obtain ⟨hb, ⟨⟨rfl, rfl⟩, rfl⟩, rfl⟩ := htwice
    exact ⟨hb, hvalue⟩
  · simp at htwice

/-- The code of `twice` reads the other field for its first operand. -/
lemma numericRule_twice (lowered : Program) {r : Rule} (hb : r.logic.bindings = [])
    (hv : r.logic.value = twice.logic.value) (limit fuel : Nat) :
    ∃ s, numericRule (compileContext limit lowered pair) (fuel + 1) r {} = .ok s ∧
      s.code = [.binary (.op .add) (.field "__bind___bounds_0") (.field "x")] := by
  refine ⟨⟨[.binary (.op .add) (.field "__bind___bounds_0") (.field "x")], ⟨∅, 0⟩, [], [],
    [⟨[], [], []⟩]⟩, ?_, rfl⟩
  rw [numericRule, hb, numericBindings, hv, hb]
  rfl

/-- The words of a record. -/
def wordsOf (fields : Dict String Interpreter.Value) (n : String) : Int64 :=
  match fields.lookup n with
  | some (.number k) => k
  | _ => 0

lemma loaded_wordsOf (fields : Dict String Interpreter.Value) :
    Loaded fields ⟨0, fun _ => 0, wordsOf fields⟩ := by
  intro n k hk
  simp only [wordsOf, hk]

/-- A record of `pair`. -/
def onePair : Dict String Interpreter.Value :=
  [("x", .number 1), ("__bind___bounds_0", .number 5)]

end Verbosec.Native.NumericSlots
