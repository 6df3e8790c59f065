import Verbosec.Interpreter.Scopes

/-!
# Substitution

* `substituteIdent` - an identifier replaced by an expression, except under a binder of its name. The
  names of the replacement are not protected from the binders it is moved under.
* `NoCapture kept x e` - no binder around a replaced occurrence of `x` has one of the `kept` names.
* `evalExpr_substitute` - without capture a substitution has the value of the expression where the
  identifier is bound to the value of the replacement.
* `NoCapture.substitute`, `LiteralTables.substitute` - what a substitution keeps of an expression for
  the next one.

Source: `optimizer.rs`, `substitute_ident`.
-/

namespace Verbosec

open Verbosec.Lib Verbosec.Interpreter

/-! ## The substitution -/

mutual

/-- An identifier replaced by an expression. Source: `optimizer.rs`, `substitute_ident` -/
def substituteIdent (name : String) (replacement : Expr) : Expr → Expr
  | .ident n => if n = name then replacement else .ident n
  | .number n => .number n
  | .text s => .text s
  | .bytes b => .bytes b
  | .field a f => .field (substituteIdent name replacement a) f
  | .binary o a b =>
      .binary o (substituteIdent name replacement a) (substituteIdent name replacement b)
  | .not a => .not (substituteIdent name replacement a)
  | .neg a => .neg (substituteIdent name replacement a)
  | .call f args => .call f (substituteList name replacement args)
  | .ite c a b =>
      .ite (substituteIdent name replacement c) (substituteIdent name replacement a)
        (substituteIdent name replacement b)
  | .quantifier k a x b =>
      .quantifier k (substituteIdent name replacement a) x
        (if x = name then b else substituteIdent name replacement b)
  | .fold a i acc x b =>
      .fold (substituteIdent name replacement a) (substituteIdent name replacement i) acc x
        (if acc = name ∨ x = name then b else substituteIdent name replacement b)
  | .map a x b =>
      .map (substituteIdent name replacement a) x
        (if x = name then b else substituteIdent name replacement b)
  | .filter a x b =>
      .filter (substituteIdent name replacement a) x
        (if x = name then b else substituteIdent name replacement b)
  | .ok a => .ok (substituteIdent name replacement a)
  | .err a => .err (substituteIdent name replacement a)
  | .matchResult a x b y c =>
      .matchResult (substituteIdent name replacement a)
        x (if x = name then b else substituteIdent name replacement b)
        y (if y = name then c else substituteIdent name replacement c)
  | .record c fields => .record c (substituteFields name replacement fields)
  | .concat args => .concat (substituteList name replacement args)
  | .read n => .read n
  | .random n => .random n
  | .fetch n a => .fetch n (substituteIdent name replacement a)
  | .jsonEscape a => .jsonEscape (substituteIdent name replacement a)
  | .parseInt a => .parseInt (substituteIdent name replacement a)
  | .nowUnix => .nowUnix
  | .startsWith a b =>
      .startsWith (substituteIdent name replacement a) (substituteIdent name replacement b)
  | .contains a b =>
      .contains (substituteIdent name replacement a) (substituteIdent name replacement b)
  | .endsWith a b =>
      .endsWith (substituteIdent name replacement a) (substituteIdent name replacement b)
  | .length a => .length (substituteIdent name replacement a)
  | .abs a => .abs (substituteIdent name replacement a)
  | .le32 a => .le32 (substituteIdent name replacement a)
  | .le64 a => .le64 (substituteIdent name replacement a)
  | .arenaScope a => .arenaScope (substituteIdent name replacement a)
  | .abortIf a => .abortIf (substituteIdent name replacement a)
  | .min a b => .min (substituteIdent name replacement a) (substituteIdent name replacement b)
  | .max a b => .max (substituteIdent name replacement a) (substituteIdent name replacement b)
  | .substring a b c =>
      .substring (substituteIdent name replacement a) (substituteIdent name replacement b)
        (substituteIdent name replacement c)
  | .tryByteAt a b =>
      .tryByteAt (substituteIdent name replacement a) (substituteIdent name replacement b)
  | .byteAt a b => .byteAt (substituteIdent name replacement a) (substituteIdent name replacement b)
  | .foldBytes a i acc byte idx b =>
      .foldBytes (substituteIdent name replacement a) (substituteIdent name replacement i) acc byte
        idx (if acc = name ∨ byte = name ∨ idx = name then b
          else substituteIdent name replacement b)
  | .variantConstruct c v fields => .variantConstruct c v (substituteFields name replacement fields)
  | .matchVariant a arms =>
      .matchVariant (substituteIdent name replacement a) (substituteArms name replacement arms)
  | .bitAnd a b => .bitAnd (substituteIdent name replacement a) (substituteIdent name replacement b)
  | .bitOr a b => .bitOr (substituteIdent name replacement a) (substituteIdent name replacement b)
  | .bitXor a b => .bitXor (substituteIdent name replacement a) (substituteIdent name replacement b)
  | .bitNot a => .bitNot (substituteIdent name replacement a)
  | .shl a b => .shl (substituteIdent name replacement a) (substituteIdent name replacement b)
  | .shr a b => .shr (substituteIdent name replacement a) (substituteIdent name replacement b)

/-- The substitution in the arguments of a call or a `concat`. -/
def substituteList (name : String) (replacement : Expr) : List Expr → List Expr
  | [] => []
  | e :: es => substituteIdent name replacement e :: substituteList name replacement es

/-- The substitution in the assignments of a constructor. -/
def substituteFields (name : String) (replacement : Expr) :
    List (String × Expr) → List (String × Expr)
  | [] => []
  | (f, e) :: es => (f, substituteIdent name replacement e) :: substituteFields name replacement es

/-- The substitution in the arms of a `match`. -/
def substituteArms (name : String) (replacement : Expr) : List MatchArm → List MatchArm
  | [] => []
  | .mk v binders body :: arms =>
      .mk v binders (if binders.any (· = some name) then body
        else substituteIdent name replacement body) :: substituteArms name replacement arms

end

section substitution

variable (name : String) (replacement : Expr)

lemma substituteList_eq (es : List Expr) :
    substituteList name replacement es = es.map (substituteIdent name replacement) := by
  induction es with
  | nil => rfl
  | cons e es ih => rw [substituteList, ih, List.map_cons]

lemma substituteFields_eq (fs : List (String × Expr)) :
    substituteFields name replacement fs =
      fs.map fun f => (f.1, substituteIdent name replacement f.2) := by
  induction fs with
  | nil => rfl
  | cons f fs ih => rw [substituteFields, ih, List.map_cons]

/-- The substitution below some binders. -/
def substituteUnder (names : List String) (e : Expr) : Expr :=
  if name ∈ names then e else substituteIdent name replacement e

lemma substituteUnder_nil : substituteUnder name replacement [] = substituteIdent name replacement :=
  funext fun _ => if_neg List.not_mem_nil

lemma substituteArms_eq (arms : List MatchArm) :
    substituteArms name replacement arms = arms.map fun arm =>
      .mk arm.variantName arm.binders
        (substituteUnder name replacement (arm.binders.filterMap id) arm.body) := by
  induction arms with
  | nil => rfl
  | cons arm arms ih =>
      obtain ⟨v, binders, body⟩ := arm
      rw [substituteArms, ih, List.map_cons]
      congr 2
      unfold substituteUnder
      have hiff : binders.any (· = some name) = true ↔ name ∈ binders.filterMap id := by
        simp only [List.any_eq_true, decide_eq_true_eq, exists_eq_right, List.mem_filterMap, id_eq]
      by_cases h : name ∈ binders.filterMap id
      · rw [if_pos (hiff.mpr h)]
        exact (if_pos h).symm
      · rw [if_neg (mt hiff.mp h)]
        exact (if_neg h).symm

/-- A substitution goes through an expression scope by scope. -/
lemma substituteIdent_eq {e : Expr} (h : ∀ n, e ≠ .ident n) :
    substituteIdent name replacement e = e.mapScopes (substituteUnder name replacement) := by
  cases e <;> simp only [substituteIdent, Expr.mapScopes, substituteList_eq, substituteFields_eq,
    substituteArms_eq, substituteUnder, List.not_mem_nil, if_false, List.mem_cons, or_false,
    eq_comm (a := name)]
  case ident n => exact absurd rfl (h n)
  case call | concat => rw [substituteUnder_nil]

end substitution

/-! ## Capture -/

/-- No binder around a replaced occurrence of `x` has a kept name. -/
inductive NoCapture (kept : String → Prop) (x : String) : Expr → Prop
  | intro {e : Expr} (hinner : ∀ s ∈ e.scopes, x ∉ s.1 → NoCapture kept x s.2)
      (hbinders : ∀ s ∈ e.scopes, x ∉ s.1 → Expr.Free x s.2 → ∀ b ∈ s.1, ¬ kept b) :
      NoCapture kept x e

/-- **A substitution without capture** evaluates as the expression does where the identifier has the
value of the replacement. `P` is what the replacement needs of an environment; binders of other than
the kept names leave it alone. -/
theorem evalExpr_substitute {ctx : Context} {call : Rule → Value → Outcome Value} {x : String}
    {r : Expr} {u : Value} {kept : String → Prop} (P : Env → Prop)
    (hbind : ∀ env b v, ¬ kept b → P env → P (Dict.insert env b v))
    (hr : ∀ env, P env → evalExpr ctx call env r = .ok u) (e : Expr) :
    e.LiteralTables → NoCapture kept x e → ∀ {env env' : Env},
      (Expr.Free x e → P env ∧ env'.lookup x = some u) →
      (∀ y, Expr.Free y e → y ≠ x → env.lookup y = env'.lookup y) →
      evalExpr ctx call env (substituteIdent x r e) = evalExpr ctx call env' e := by
  have hall : ∀ (names : List String) (vs : List Value) (env : Env), (∀ b ∈ names, ¬ kept b) →
      P env → P (bindAll env names vs) := by
    intro names
    induction names with
    | nil => exact fun vs env _ h => by simpa [bindAll] using h
    | cons b names ih =>
        intro vs env hnames h
        cases vs with
        | nil => exact h
        | cons v vs =>
            exact ih vs _ (fun c hc => hnames c (List.mem_cons_of_mem _ hc))
              (hbind env b v (hnames b List.mem_cons_self) h)
  induction e using Expr.induction_children with
  | step e ih =>
      intro htables hcapture env env' hx hother
      by_cases hident : ∃ n, e = .ident n
      · obtain ⟨n, rfl⟩ := hident
        unfold substituteIdent
        by_cases hn : n = x
        · subst hn
          obtain ⟨hP, hlook⟩ := hx .ident
          rw [if_pos rfl, hr env hP]
          unfold evalExpr
          rw [hlook]
        · rw [if_neg hn]
          unfold evalExpr
          rw [hother n .ident hn]
      · obtain ⟨hinner, hbinders⟩ := hcapture
        rw [substituteIdent_eq x r fun n hn => hident ⟨n, hn⟩]
        refine evalExpr_mapScopes (fun n hn => hident ⟨n, hn⟩) ?_ fun s hs vs hlen => ?_
        · rintro t i rfl
          rcases htables.table with ⟨s, rfl⟩ | ⟨b, rfl⟩ <;>
            simp [substituteUnder, substituteIdent]
        · have hsame : ∀ y, Expr.Free y s.2 → y ≠ x →
              (bindAll env s.1 vs).lookup y = (bindAll env' s.1 vs).lookup y := fun y hy hyx =>
            lookup_bindAll_congr hlen fun hbound => hother y (.child hs hbound hy) hyx
          unfold substituteUnder
          split
          · -- The identifier is bound again: the body is left alone.
            rename_i hbound
            refine evalExpr_congr_free _ fun y hy => ?_
            by_cases hyx : y = x
            · subst hyx
              exact lookup_bindAll_congr hlen fun h => absurd hbound h
            · exact hsame y hy hyx
          · rename_i hbound
            refine ih s.2 (Expr.scopes_mem_children hs)
              (htables.children (Expr.scopes_mem_children hs)) (hinner s hs hbound) ?_ hsame
            intro hfree
            obtain ⟨hP, hlook⟩ := hx (.child hs hbound hfree)
            refine ⟨hall s.1 vs env (hbinders s hs hbound hfree) hP, ?_⟩
            rw [← hlook]
            exact lookup_bindAll_of_not_mem hbound

/-! ## Substitutions one after another -/

section sequence

variable {kept : String → Prop} {x y : String} {r e : Expr}

/-- A name that does not occur free is not captured. -/
lemma noCapture_of_not_free (h : ¬ Expr.Free y e) : NoCapture kept y e := by
  induction e using Expr.induction_children with
  | step e ih =>
      have hchild : ∀ s ∈ e.scopes, y ∉ s.1 → ¬ Expr.Free y s.2 := fun s hs hbound hfree =>
        h (.child hs hbound hfree)
      exact ⟨fun s hs hbound => ih s.2 (Expr.scopes_mem_children hs) (hchild s hs hbound),
        fun s hs hbound hfree => absurd hfree (hchild s hs hbound)⟩

/-- What is free after a substitution stems from the expression or from the replacement. -/
lemma free_substitute (h : Expr.Free y (substituteIdent x r e)) :
    (Expr.Free y e ∧ y ≠ x) ∨ (Expr.Free y r ∧ Expr.Free x e) := by
  induction e using Expr.induction_children with
  | step e ih =>
      by_cases hident : ∃ n, e = .ident n
      · obtain ⟨n, rfl⟩ := hident
        unfold substituteIdent at h
        split at h
        · rename_i hn
          subst hn
          exact .inr ⟨h, .ident⟩
        · rename_i hn
          refine .inl ⟨h, ?_⟩
          rintro rfl
          rcases h.cases_scopes with heq | ⟨s, hs, -, -⟩
          · exact hn (Expr.ident.inj heq)
          · simp [Expr.scopes, Expr.children] at hs
      · rw [substituteIdent_eq x r fun n hn => hident ⟨n, hn⟩] at h
        rcases h.cases_scopes with heq | ⟨t, ht, hbound, hfree⟩
        · exact absurd (Expr.eq_ident_of_mapScopes heq) fun h => hident ⟨y, h⟩
        · rw [Expr.scopes_mapScopes, List.mem_map] at ht
          obtain ⟨s, hs, rfl⟩ := ht
          unfold substituteUnder at hfree
          split at hfree
          · rename_i hx
            refine .inl ⟨.child hs hbound hfree, ?_⟩
            rintro rfl
            exact hbound hx
          · rename_i hx
            exact (ih s.2 (Expr.scopes_mem_children hs) hfree).imp
              (fun h => ⟨.child hs hbound h.1, h.2⟩) fun h => ⟨h.1, .child hs hx h.2⟩

/-- A substitution does not expose another name to capture. -/
lemma NoCapture.substitute (hr : ¬ Expr.Free y r) (h : NoCapture kept y e) :
    NoCapture kept y (substituteIdent x r e) := by
  induction e using Expr.induction_children with
  | step e ih =>
      by_cases hident : ∃ n, e = .ident n
      · obtain ⟨n, rfl⟩ := hident
        unfold substituteIdent
        split
        · exact noCapture_of_not_free hr
        · exact h
      · obtain ⟨hinner, hbinders⟩ := h
        rw [substituteIdent_eq x r fun n hn => hident ⟨n, hn⟩]
        have hunder : ∀ s ∈ e.scopes, y ∉ s.1 →
            NoCapture kept y (substituteUnder x r s.1 s.2) := fun s hs hbound => by
          unfold substituteUnder
          split
          · exact hinner s hs hbound
          · exact ih s.2 (Expr.scopes_mem_children hs) (hinner s hs hbound)
        refine ⟨fun t ht hbound => ?_, fun t ht hbound hfree => ?_⟩ <;>
          rw [Expr.scopes_mapScopes, List.mem_map] at ht <;> obtain ⟨s, hs, rfl⟩ := ht
        · exact hunder s hs hbound
        · refine hbinders s hs hbound ?_
          unfold substituteUnder at hfree
          split at hfree
          · exact hfree
          · rcases free_substitute hfree with h | h
            · exact h.1
            · exact absurd h.1 hr

/-- A substitution keeps the tables literal. -/
lemma literalTables_substitute (hr : r.LiteralTables) (he : e.LiteralTables) :
    (substituteIdent x r e).LiteralTables := by
  induction e using Expr.induction_children with
  | step e ih =>
      by_cases hident : ∃ n, e = .ident n
      · obtain ⟨n, rfl⟩ := hident
        unfold substituteIdent
        split
        · exact hr
        · exact he
      · rw [substituteIdent_eq x r fun n hn => hident ⟨n, hn⟩]
        refine .of_children ?_ fun c hc => ?_
        · cases e
          case tryByteAt t i =>
            rcases he.table with ⟨s, rfl⟩ | ⟨b, rfl⟩ <;>
              simp [Expr.mapScopes, substituteUnder, substituteIdent, Expr.tableLiteral]
          all_goals rfl
        · rw [Expr.children_eq_scopes, Expr.scopes_mapScopes, List.map_map, List.mem_map] at hc
          obtain ⟨s, hs, rfl⟩ := hc
          have hchild := he.children (Expr.scopes_mem_children hs)
          show (substituteUnder x r s.1 s.2).LiteralTables
          unfold substituteUnder
          split
          · exact hchild
          · exact ih s.2 (Expr.scopes_mem_children hs) hchild

end sequence

end Verbosec
