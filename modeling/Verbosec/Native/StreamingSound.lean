import Verbosec.Native.Streaming
import Verbosec.Verifier.Names

/-!
# A streamed group writes its value

* `Reaches`, `StronglyConnected` - a group of rules that call each other, with all rules between them.
* `clean_of_streamed` - the rules called in value positions lead to no streaming member, so that
  their values are those of the interpreter.
* `walkExpr_sound`, `walkRule_sound` - one expression, one rule.
* `streaming_sound` - the walk of an accepted group writes the bytes of the interpreter's value.
-/

namespace Verbosec.Native

open Verbosec.Interpreter Verbosec.Verifier Verbosec.Lib

/-! ## Groups -/

/-- A rule leads to another one by calls. -/
inductive Reaches (p : Program) : String → String → Prop
  | refl (n : String) : Reaches p n n
  | step {r : Rule} {k m : String} (hr : r ∈ p.rules) (hk : k ∈ r.nativeCallees)
      (h : Reaches p k m) : Reaches p r.name m

lemma Reaches.trans {p : Program} {a b c : String} (h : Reaches p a b) (h' : Reaches p b c) :
    Reaches p a c := by
  induction h with
  | refl => exact h'
  | step hr hk _ ih => exact .step hr hk (ih h')

/-- A strongly connected group of rules, with all of its members. Source: `native.rs`,
`collect_scc_containing` -/
structure StronglyConnected (p : Program) (group : List Rule) : Prop where
  subset : ∀ r ∈ group, r ∈ p.rules
  connected : ∀ a ∈ group, ∀ b ∈ group, Reaches p a.name b.name
  closed : ∀ q ∈ p.rules, ∀ a ∈ group, ∀ b ∈ group, Reaches p a.name q.name →
    Reaches p q.name b.name → q ∈ group

section group

variable {p : Program} {group : List Rule} {stream : Stream} (hnames : nameErrors p = [])
  (hspelled : ∀ r ∈ p.rules, r.Spelled) (hgroup : StronglyConnected p group)
  (hstreamed : Streamed stream group)

lemma mem_streamingMembers {name : String} :
    name ∈ streamingMembers stream group ↔ ∃ r ∈ group, r.outputTy = stream.ty ∧ r.name = name := by
  simp [streamingMembers, and_assoc]

include hstreamed in
lemma checkMember_of_streamed {r : Rule} (hr : r ∈ group) :
    checkMember stream (streamingMembers stream group) r = .ok () := by
  cases stream with
  | bytes => exact Except.forM_eq_ok.mp hstreamed r hr
  | text =>
      unfold Streamed decideStreamingTextMode at hstreamed
      dsimp only at hstreamed
      split at hstreamed
      · obtain ⟨_, hall, -⟩ := Except.bind_eq_ok.mp hstreamed
        exact Except.forM_eq_ok.mp hall r hr
      · cases hstreamed

/-- What the check of a member says. -/
lemma checkMember_eq_ok {scc : List String} {r : Rule} (h : checkMember stream scc r = .ok ()) :
    (∀ b ∈ r.logic.bindings, references scc b.2 = false) ∧
      (r.outputTy = stream.ty → checkStreamingShape stream scc r.logic.value = .ok ()) ∧
      (r.outputTy ≠ stream.ty → references scc r.logic.value = false) := by
  unfold checkMember at h
  split at h
  · cases h
  · rename_i hfind
    refine ⟨fun b hb => by simpa using List.find?_eq_none.mp hfind b hb, fun hty => ?_, fun hty => ?_⟩
    · rw [if_pos hty] at h
      split at h
      · assumption
      · cases h
    · rw [if_neg hty] at h
      split at h
      · cases h
      · rename_i href
        exact Bool.eq_false_iff.mpr href

lemma not_mem_of_references {scc : List String} {e : Expr} (h : references scc e = false) {n : String}
    (hn : n ∈ e.collectNativeCallees) : n ∉ scc := by
  simpa using List.any_eq_false.mp h n hn

include hgroup hstreamed in
/-- A rule that a member calls and that is not streamed leads to no streamed one: it would be a
member, which may not call it. -/
lemma clean_of_streamed {r : Rule} (hr : r ∈ group) {n m : String} (hreach : Reaches p n m) :
    Reaches p r.name n → n ∉ streamingMembers stream group → m ∉ streamingMembers stream group := by
  induction hreach with
  | refl => exact fun _ hn => hn
  | @step q k m hq hk hkm ih =>
      intro hrq hn hm
      obtain ⟨b, hb, -, rfl⟩ := mem_streamingMembers.mp hm
      have hmember : q ∈ group := hgroup.closed q hq r hr b hb hrq (.step hq hk hkm)
      obtain ⟨hlets, -, hvalue⟩ := checkMember_eq_ok (checkMember_of_streamed hstreamed hmember)
      have hty : q.outputTy ≠ stream.ty :=
        fun hty => hn (mem_streamingMembers.mpr ⟨q, hmember, hty, rfl⟩)
      refine ih (hrq.trans (.step hq hk (.refl k))) ?_ hm
      rcases List.mem_append.mp hk with hk | hk
      · obtain ⟨b, hb, hk⟩ := List.mem_flatMap.mp hk
        exact not_mem_of_references (hlets b hb) hk
      · exact not_mem_of_references (hvalue hty) hk

/-! ## Value positions -/

variable {world : World}

include hspelled in
/-- A rule that leads to no streamed one has its value. -/
lemma valueRule_eq {scc : List String} (fuel : Nat) : ∀ {q : Rule}, q ∈ p.rules →
    (∀ m, Reaches p q.name m → m ∉ scc) → ∀ v,
      valueRule (.ofProgram p world) scc fuel q v = evalRule (.ofProgram p world) fuel q v := by
  induction fuel with
  | zero => exact fun _ _ _ => rfl
  | succ fuel ih =>
      intro q hq hclean v
      rw [valueRule, if_neg (hclean _ (.refl _)), evalRule_succ]
      obtain ⟨made, hmade, hsame, -⟩ :=
        applyRule_supported_deps (.ofProgram p world) (evalRule (.ofProgram p world) fuel) q v
      refine hsame _ fun c hc => ?_
      obtain ⟨hdeps, hfind⟩ := hmade c hc
      exact ih (List.mem_of_find?_eq_some hfind)
        (fun m hm => hclean m (.step hq (Rule.mem_nativeCallees (hspelled q hq) hdeps) hm)) _

include hspelled hgroup hstreamed in
/-- An expression of a member without calls of streamed ones has its value. -/
lemma evalExpr_valueRule {r : Rule} (hr : r ∈ group) {e : Expr} (he : e.Spelled)
    (hcallees : ∀ n ∈ e.collectNativeCallees, n ∈ r.nativeCallees)
    (href : references (streamingMembers stream group) e = false) (fuel : Nat) (env : Env) :
    evalExpr (.ofProgram p world)
        (valueRule (.ofProgram p world) (streamingMembers stream group) fuel) env e =
      evalExpr (.ofProgram p world) (evalRule (.ofProgram p world) fuel) env e := by
  refine evalExpr_congr_calls fun q w hq hfind => ?_
  have hn := Expr.mem_collectNativeCallees he hq
  have hrq : Reaches p r.name q.name :=
    .step (hgroup.subset r hr) (hcallees _ hn) (.refl _)
  exact valueRule_eq hspelled fuel (List.mem_of_find?_eq_some hfind)
    (fun m hm => clean_of_streamed hgroup hstreamed hr hm hrq (not_mem_of_references href hn)) w

end group

/-! ## Concatenations -/

lemma utf8Bytes_append (a b : String) : utf8Bytes (a ++ b) = utf8Bytes a ++ utf8Bytes b := by
  simp [utf8Bytes]

/-- The bytes of the arguments of a concatenation. -/
def joinLeaves (stream : Stream) : List Value → Outcome (List UInt8)
  | [] => .ok []
  | v :: vs => do
      let out ← leafBytes stream v
      let rest ← joinLeaves stream vs
      .ok (out ++ rest)

lemma joinLeaves_of_concatText {vs : List Value} : ∀ {s : String}, concatText vs = .ok s →
    joinLeaves .text vs = .ok (utf8Bytes s) := by
  induction vs with
  | nil =>
      intro s h
      cases h
      rfl
  | cons v vs ih =>
      intro s h
      obtain ⟨piece, hpiece, h⟩ := Except.bind_eq_ok.mp h
      obtain ⟨rest, hrest, h⟩ := Except.bind_eq_ok.mp h
      cases h
      refine Except.bind_eq_ok.mpr ⟨utf8Bytes piece, ?_, Except.bind_eq_ok.mpr
        ⟨utf8Bytes rest, ih hrest, by rw [utf8Bytes_append]⟩⟩
      rw [leafBytes, hpiece]
      rfl

lemma joinLeaves_of_concatBytes {vs : List Value} : ∀ {b : List UInt8}, concatBytes vs = .ok b →
    joinLeaves .bytes vs = .ok b := by
  induction vs with
  | nil =>
      intro b h
      cases h
      rfl
  | cons v vs ih =>
      intro b h
      cases v with
      | bytes a =>
          obtain ⟨rest, hrest, h⟩ := Except.bind_eq_ok.mp h
          cases h
          exact Except.bind_eq_ok.mpr ⟨a, rfl, Except.bind_eq_ok.mpr ⟨rest, ih hrest, rfl⟩⟩
      | _ => cases h

/-- The bytes of a concatenation are those of its arguments. -/
lemma joinLeaves_of_concatValues {stream : Stream} {vs : List Value} {v : Value} {out : List UInt8}
    (h : concatValues vs = .ok v) (hout : leafBytes stream v = .ok out) :
    joinLeaves stream vs = .ok out := by
  unfold concatValues at h
  split at h
  · obtain ⟨b, hb, rfl⟩ := Except.map_eq_ok.mp h
    cases stream with
    | text => cases hout
    | bytes =>
        cases hout
        exact joinLeaves_of_concatBytes hb
  · obtain ⟨s, hs, rfl⟩ := Except.map_eq_ok.mp h
    cases stream with
    | text =>
        cases hout
        exact joinLeaves_of_concatText hs
    | bytes => cases hout

/-! ## The walk -/

section walk

variable {p : Program} {group : List Rule} {stream : Stream} (hnames : nameErrors p = [])
  (hspelled : ∀ r ∈ p.rules, r.Spelled) (hgroup : StronglyConnected p group)
  (hstreamed : Streamed stream group) {world : World}

/-- An expression of a rule is walked to the bytes of its value. -/
def Walked (p : Program) (world : World) (stream : Stream) (group : List Rule) (fuel : Nat) (r : Rule)
    (e : Expr) : Prop :=
  ∀ (env : Env) (v : Value) (out : List UInt8), e.Spelled →
    (∀ n ∈ e.collectNativeCallees, n ∈ r.nativeCallees) →
    checkStreamingShape stream (streamingMembers stream group) e = .ok () →
    evalExpr (.ofProgram p world) (evalRule (.ofProgram p world) fuel) env e = .ok v →
    leafBytes stream v = .ok out →
      walkExpr (.ofProgram p world) stream (streamingMembers stream group)
        (valueRule (.ofProgram p world) (streamingMembers stream group) fuel)
        (walkRule (.ofProgram p world) stream (streamingMembers stream group) fuel) env e = .ok out

lemma walkArgs_sound {fuel : Nat} {r : Rule} {env : Env} (es : List Expr)
    (h : ∀ e ∈ es, Walked p world stream group fuel r e) : ∀ {vs : List Value} {out : List UInt8},
      (∀ e ∈ es, e.Spelled) → (∀ n ∈ Expr.collectNativeListCallees es, n ∈ r.nativeCallees) →
      checkStreamingList stream (streamingMembers stream group) es = .ok () →
      evalArgs (.ofProgram p world) (evalRule (.ofProgram p world) fuel) env es = .ok vs →
      joinLeaves stream vs = .ok out →
        walkArgs (.ofProgram p world) stream (streamingMembers stream group)
          (valueRule (.ofProgram p world) (streamingMembers stream group) fuel)
          (walkRule (.ofProgram p world) stream (streamingMembers stream group) fuel) env es =
            .ok out := by
  induction es with
  | nil =>
      intro vs out _ _ _ hvs hout
      cases hvs
      cases hout
      rfl
  | cons e es ih =>
      intro vs out hspelled hcallees hcheck hvs hout
      simp only [Expr.collectNativeListCallees, List.mem_append, or_imp, forall_and] at hcallees
      obtain ⟨_, hcheck, hchecks⟩ := Except.bind_eq_ok.mp hcheck
      obtain ⟨v, hv, hvs⟩ := Except.bind_eq_ok.mp hvs
      obtain ⟨vs', hvs', hvs⟩ := Except.bind_eq_ok.mp hvs
      cases hvs
      obtain ⟨a, ha, hout⟩ := Except.bind_eq_ok.mp hout
      obtain ⟨b, hb, hout⟩ := Except.bind_eq_ok.mp hout
      cases hout
      have hhead := h e (List.mem_cons_self ..) env v a (hspelled e (List.mem_cons_self ..))
        hcallees.1 hcheck hv ha
      have htail := ih (fun e' he' => h e' (List.mem_cons_of_mem _ he'))
        (fun e' he' => hspelled e' (List.mem_cons_of_mem _ he')) hcallees.2 hchecks hvs' hb
      exact Except.bind_eq_ok.mpr ⟨a, hhead, Except.bind_eq_ok.mpr ⟨b, htail, rfl⟩⟩

lemma walkArms_sound {fuel : Nat} {r : Rule} {env : Env} {concept variant : String}
    {fields : List (String × Value)} (arms : List MatchArm)
    (h : ∀ a ∈ arms, Walked p world stream group fuel r a.body) : ∀ {v : Value} {out : List UInt8},
      (∀ a ∈ arms, a.body.Spelled) →
      (∀ n ∈ Expr.collectNativeArmsCallees arms, n ∈ r.nativeCallees) →
      checkStreamingArms stream (streamingMembers stream group) arms = .ok () →
      evalArms (.ofProgram p world) (evalRule (.ofProgram p world) fuel) env concept variant fields
        arms = .ok v →
      leafBytes stream v = .ok out →
        walkArms (.ofProgram p world) stream (streamingMembers stream group)
          (valueRule (.ofProgram p world) (streamingMembers stream group) fuel)
          (walkRule (.ofProgram p world) stream (streamingMembers stream group) fuel) env concept
          variant fields arms = .ok out := by
  induction arms with
  | nil =>
      intro v out _ _ _ hv
      cases hv
  | cons a arms ih =>
      intro v out hspelled hcallees hcheck hv hout
      obtain ⟨name, binders, body⟩ := a
      simp only [Expr.collectNativeArmsCallees, List.mem_append, or_imp, forall_and] at hcallees
      obtain ⟨_, hcheck, hchecks⟩ := Except.bind_eq_ok.mp hcheck
      unfold evalArms at hv
      unfold walkArms
      by_cases hname : name = variant
      · rw [if_pos hname] at hv ⊢
        obtain ⟨armEnv, harm, hv⟩ := Except.bind_eq_ok.mp hv
        exact Except.bind_eq_ok.mpr ⟨armEnv, harm, h _ (List.mem_cons_self ..) armEnv v out
          (hspelled _ (List.mem_cons_self ..)) hcallees.1 hcheck hv hout⟩
      · rw [if_neg hname] at hv ⊢
        exact ih (fun a' ha' => h a' (List.mem_cons_of_mem _ ha'))
          (fun a' ha' => hspelled a' (List.mem_cons_of_mem _ ha')) hcallees.2 hchecks hv hout

include hnames hspelled hgroup hstreamed

/-- An expression in a tail position is walked to the bytes of its value, when the members that it
calls are. -/
theorem walkExpr_sound {fuel : Nat} {r : Rule} (hr : r ∈ group)
    (hwrite : ∀ q ∈ group, q.outputTy = stream.ty → ∀ (w u : Value) (out : List UInt8),
      evalRule (.ofProgram p world) fuel q w = .ok u → leafBytes stream u = .ok out →
        walkRule (.ofProgram p world) stream (streamingMembers stream group) fuel q w = .ok out)
    (e : Expr) : Walked p world stream group fuel r e := by
  induction e using Expr.induction_children with
  | step e ih =>
      intro env v out he hcallees hcheck hv hout
      -- a value position, and a leaf that is one
      have hvalue : ∀ c : Expr, c.Spelled → (∀ n ∈ c.collectNativeCallees, n ∈ r.nativeCallees) →
          references (streamingMembers stream group) c = false →
            evalExpr (.ofProgram p world)
                (valueRule (.ofProgram p world) (streamingMembers stream group) fuel) env c =
              evalExpr (.ofProgram p world) (evalRule (.ofProgram p world) fuel) env c :=
        fun c hc hcs href => evalExpr_valueRule hspelled hgroup hstreamed hr hc hcs href fuel env
      have hleaf : references (streamingMembers stream group) e = false →
          (do leafBytes stream (← evalExpr (.ofProgram p world)
            (valueRule (.ofProgram p world) (streamingMembers stream group) fuel) env e)) =
              Except.ok out := by
        intro href
        rw [hvalue e he hcallees href, hv]
        exact hout
      cases e
      case concat args =>
        unfold evalExpr at hv
        obtain ⟨vs, hvs, hv⟩ := Except.bind_eq_ok.mp hv
        exact walkArgs_sound args (fun e he => ih e he) (fun e hmem => he.children hmem) hcallees
          hcheck hvs (joinLeaves_of_concatValues hv hout)
      case ite c a b =>
        simp only [Expr.collectNativeCallees, List.mem_append, or_imp, forall_and] at hcallees
        unfold checkStreamingShape at hcheck
        split at hcheck
        · cases hcheck
        · rename_i href
          obtain ⟨_, ha, hb⟩ := Except.bind_eq_ok.mp hcheck
          unfold evalExpr at hv
          obtain ⟨u, hu, hv⟩ := Except.bind_eq_ok.mp hv
          unfold walkExpr
          rw [hvalue c (he.children (by simp [Expr.children])) hcallees.1.1
            (Bool.eq_false_iff.mpr href), hu]
          cases u with
          | bool taken =>
              cases taken with
              | true =>
                  exact ih a (by simp [Expr.children]) env v out
                    (he.children (by simp [Expr.children])) hcallees.1.2 ha hv hout
              | false =>
                  exact ih b (by simp [Expr.children]) env v out
                    (he.children (by simp [Expr.children])) hcallees.2 hb hv hout
          | _ => cases hv
      case matchVariant s arms =>
        simp only [Expr.collectNativeCallees, List.mem_append, or_imp, forall_and] at hcallees
        unfold checkStreamingShape at hcheck
        split at hcheck
        · cases hcheck
        · rename_i href
          unfold evalExpr at hv
          obtain ⟨u, hu, hv⟩ := Except.bind_eq_ok.mp hv
          unfold walkExpr
          rw [hvalue s (he.children (by simp [Expr.children])) hcallees.1
            (Bool.eq_false_iff.mpr href), hu]
          cases u with
          | variant concept variant fields =>
              exact walkArms_sound arms
                (fun a ha => ih _ (List.mem_cons_of_mem _ (List.mem_map.mpr ⟨a, ha, rfl⟩)))
                (fun a ha => he.children (List.mem_cons_of_mem _ (List.mem_map.mpr ⟨a, ha, rfl⟩)))
                hcallees.2 hcheck hv hout
          | _ => cases hv
      case call name args =>
        unfold checkStreamingShape at hcheck
        unfold walkExpr
        by_cases hmember : name ∈ streamingMembers stream group
        · rw [if_pos hmember] at hcheck ⊢
          split at hcheck
          · cases hcheck
          · rename_i href
            unfold evalExpr at hv
            cases hfind : (Context.ofProgram p world).findRule name with
            | none =>
                rw [hfind] at hv
                cases hv
            | some q =>
                rw [hfind] at hv
                dsimp only at hv ⊢
                split at hv
                · rename_i arg
                  obtain ⟨w, hw, hv⟩ := Except.bind_eq_ok.mp hv
                  have hcallee : ∀ n ∈ arg.collectNativeCallees, n ∈ r.nativeCallees := by
                    intro n hn
                    refine hcallees n ?_
                    simp [Expr.collectNativeCallees, Expr.collectNativeListCallees, hn]
                  have harg : references (streamingMembers stream group) arg = false := by
                    simpa using href
                  try dsimp only
                  rw [hvalue arg (he.children (by simp [Expr.children])) hcallee harg, hw]
                  obtain ⟨q', hq', hty, hname⟩ := mem_streamingMembers.mp hmember
                  have hq : q ∈ p.rules := List.mem_of_find?_eq_some hfind
                  have hqname : q.name = name := by
                    unfold Context.findRule at hfind
                    simpa using List.find?_some hfind
                  obtain rfl : q = q' := List.inj_on_of_nodup_map (nodup_rules hnames) hq
                    (hgroup.subset q' hq') (hqname.trans hname.symm)
                  exact hwrite q hq' hty w v out hv hout
                · cases hv
        · rw [if_neg hmember] at hcheck ⊢
          split at hcheck
          · cases hcheck
          · rename_i href
            exact hleaf (Bool.eq_false_iff.mpr href)
      case arenaScope a =>
        cases stream with
        | bytes =>
            unfold evalExpr at hv
            exact ih a (by simp [Expr.children]) env v out (he.children (by simp [Expr.children]))
              hcallees hcheck hv hout
        | text =>
            unfold checkStreamingShape at hcheck
            dsimp only at hcheck
            split at hcheck
            · cases hcheck
            · rename_i href
              exact hleaf (Bool.eq_false_iff.mpr href)
      all_goals
        unfold checkStreamingShape at hcheck
        split at hcheck
        · split at hcheck <;> cases hcheck
        · rename_i href
          exact hleaf (Bool.eq_false_iff.mpr href)

omit hnames in
/-- The `let`s of a member have the interpreter's values. -/
lemma evalBindings_valueRule {fuel : Nat} {r : Rule} (hr : r ∈ group)
    (bindings : List (String × Expr)) : ∀ env : Env, (∀ b ∈ bindings, b ∈ r.logic.bindings) →
      evalBindings (.ofProgram p world)
          (valueRule (.ofProgram p world) (streamingMembers stream group) fuel) env bindings =
        evalBindings (.ofProgram p world) (evalRule (.ofProgram p world) fuel) env bindings := by
  have hmember := checkMember_eq_ok (checkMember_of_streamed hstreamed hr)
  induction bindings with
  | nil => exact fun _ _ => rfl
  | cons b bindings ih =>
      intro env hall
      have hb := hall b (List.mem_cons_self ..)
      have hcallees : ∀ n ∈ b.2.collectNativeCallees, n ∈ r.nativeCallees := fun n hn =>
        List.mem_append_left _ (List.mem_flatMap.mpr ⟨b, hb, hn⟩)
      unfold evalBindings
      rw [evalExpr_valueRule hspelled hgroup hstreamed hr ((hspelled r (hgroup.subset r hr)).1 b hb)
        hcallees (hmember.1 b hb)]
      exact congrArg _ (funext fun v => ih _ fun b' hb' => hall b' (List.mem_cons_of_mem _ hb'))

/-- A member is walked to the bytes of its value. -/
theorem walkRule_sound (fuel : Nat) : ∀ r ∈ group, r.outputTy = stream.ty →
    ∀ (v u : Value) (out : List UInt8), evalRule (.ofProgram p world) fuel r v = .ok u →
      leafBytes stream u = .ok out →
        walkRule (.ofProgram p world) stream (streamingMembers stream group) fuel r v = .ok out := by
  induction fuel with
  | zero =>
      intro r _ _ v u out hu
      cases hu
  | succ fuel ih =>
      intro r hr hty v u out hu hout
      have hmember := checkMember_eq_ok (checkMember_of_streamed hstreamed hr)
      rw [evalRule_succ] at hu
      unfold applyRule evalBody at hu
      obtain ⟨_, -, hu⟩ := Except.bind_eq_ok.mp hu
      obtain ⟨env, henv, hu⟩ := Except.bind_eq_ok.mp hu
      obtain ⟨u', hu', hu⟩ := Except.bind_eq_ok.mp hu
      have hsame : u' = u := by
        unfold checkOutput at hu
        split at hu
        · cases hu
          rfl
        · split at hu
          · split at hu
            · cases hu
              rfl
            · cases hu
          · cases hu
      subst hsame
      unfold walkRule
      rw [evalBindings_valueRule hspelled hgroup hstreamed hr _ _ fun b hb => hb, henv]
      exact walkExpr_sound hnames hspelled hgroup hstreamed hr ih _ env u' out
        (hspelled r (hgroup.subset r hr)).2 (fun n hn => List.mem_append_right _ hn)
        (hmember.2.1 hty) hu' hout

end walk

/-- **Streaming.** Where the interpreter has a text (bytes) for a member of an accepted group, the
walk of the member, which writes the bytes of each leaf and of each call of a member in place, writes
the bytes of that value. -/
theorem streaming_sound {p : Program} (world : World) (hnames : nameErrors p = [])
    (hspelled : ∀ r ∈ p.rules, r.Spelled) {group : List Rule} (hgroup : StronglyConnected p group)
    {r : Rule} (hr : r ∈ group) {fuel : Nat} {v : Value} :
    (decideStreamingTextMode group = .ok true → r.outputTy = .text → ∀ s,
      evalRule (.ofProgram p world) fuel r v = .ok (.text s) →
        walkRule (.ofProgram p world) .text (streamingMembers .text group) fuel r v =
          .ok (utf8Bytes s)) ∧
    (decideStreamingBytesMode group = .ok () → r.outputTy = .bytes → ∀ b,
      evalRule (.ofProgram p world) fuel r v = .ok (.bytes b) →
        walkRule (.ofProgram p world) .bytes (streamingMembers .bytes group) fuel r v = .ok b) :=
  ⟨fun hmode hty _ hs =>
      have hstreamed : Streamed .text group := hmode
      walkRule_sound hnames hspelled hgroup hstreamed fuel r hr hty v _ _ hs rfl,
    fun hmode hty _ hb =>
      have hstreamed : Streamed .bytes group := hmode
      walkRule_sound hnames hspelled hgroup hstreamed fuel r hr hty v _ _ hb rfl⟩

/-! ## An example -/

namespace Streaming

/-- Trees with one branch. -/
def tree : Concept where
  name := "Tree"
  variants := [⟨"Leaf", []⟩, ⟨"Node", [⟨"left", .named "Tree", none⟩]⟩]

/-- A tree in parentheses. -/
def showRule : Rule where
  name := "show"
  inputName := "t"
  inputTy := .named "Tree"
  outputName := "out"
  outputTy := .text
  logic := ⟨[], .matchVariant (.ident "t")
    [.mk "Leaf" [] (.text "x"),
      .mk "Node" [some "left"] (.concat [.text "(", .call "show" [.ident "left"], .text ")"])]⟩

/-- The program of that rule. -/
def showProgram : Program :=
  ⟨[.conceptGroup ⟨"trees", 8, 64, [tree]⟩, .rule showRule]⟩

/-- A tree of depth one. -/
def node : Value := .variant "Tree" "Node" [("left", .variant "Tree" "Leaf" [])]

lemma stronglyConnected_show : StronglyConnected showProgram [showRule] where
  subset := by simp [showProgram, Program.rules]
  connected := by
    intro a ha b hb
    rw [List.mem_singleton.mp ha, List.mem_singleton.mp hb]
    exact .refl _
  closed := by
    intro q hq _ _ _ _ _ _
    simpa [showProgram, Program.rules] using hq

end Streaming

open Streaming

theorem streaming_sound_show :
    evalRule (.ofProgram showProgram {}) 2 showRule node = .ok (.text "(x)") ∧
    walkRule (.ofProgram showProgram {}) .text ["show"] 2 showRule node = .ok (utf8Bytes "(x)") := by
  have hvalue : evalRule (.ofProgram showProgram {}) 2 showRule node = .ok (.text "(x)") := by
    rfl
  exact ⟨hvalue, (streaming_sound {} (by decide +kernel)
    (by
      simp [showProgram, Program.rules, Rule.Spelled, Expr.Spelled, showRule]
      decide +kernel)
    stronglyConnected_show (List.mem_singleton_self _)).1 (by rfl) rfl _ hvalue⟩

end Verbosec.Native
