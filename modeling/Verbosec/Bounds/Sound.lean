import Verbosec.Bounds.Paths
import Verbosec.Lib.Except

/-!
# Every bounded result is handled

* `expr_track` - an evaluation takes one of the paths of its expression.
* `body_track` - the results of an accepted body are scrutinised or returned.
* `obligations_complete` - in an accepted program no bounded result is dropped.
-/

namespace Verbosec.Bounds

open Verbosec.Lib Verbosec.Lib.Fallible
open Interpreter (Context Outcome Value evalRule shortCircuits fail)

/-! ## Expressions -/

section expressions

variable {chk : Check} {ctx : Context} {call : Rule → Value → Outcome Value} {f : Nat → Nat}
  {l l' : Ledger} {s : State} {c c' : Counters} {t : Tagged} {env : TEnv} {out : Paths}

/-- An evaluation of the expression takes one of its paths. -/
def Simulates (chk : Check) (ctx : Context) (call : Rule → Value → Outcome Value) (e : Expr) :
    Prop :=
  ∀ {f : Nat → Nat} {l l' : Ledger} {s : State} {c c' : Counters} {t : Tagged} {env : TEnv}
    {paths : Paths}, (chk.expr e s).exec c = (.ok paths, c') → Sim f l s c →
      EnvLinked f l s.env env → track ctx call e env l = .ok (t, l') → Covers f l s paths c' t l'

/-- An operand and what follows on its paths. -/
lemma operand_states {β : Type} {a : Expr} {ty : Ty} {k : List State → M β} {out : β}
    (ha : Simulates chk ctx call a)
    (h : (chk.expr a s >>= fun paths => typed ty paths >>= k).exec c = (.ok out, c'))
    (hsim : Sim f l s c) (henv : EnvLinked f l s.env env)
    (ht : track ctx call a env l = .ok (t, l')) :
    ∃ f' s' c₁ states, Follows f l s f' l' s' c₁ ∧ s' ∈ states ∧
      (k states).exec c₁ = (.ok out, c') := by
  obtain ⟨paths, c₁, hpaths, hrest⟩ := exec_bind_ok h
  obtain ⟨states, c₂, htyped, hk⟩ := exec_bind_ok hrest
  obtain ⟨f', path, hpath, hfollow, -⟩ := ha hpaths hsim henv ht
  obtain ⟨rfl, rfl⟩ := typed_states htyped
  exact ⟨f', path.1, c₂, _, hfollow, List.mem_map_of_mem hpath, hk⟩

/-- An operand and what is done on each of its paths. -/
lemma operand_each {a : Expr} {ty : Ty} {k : State → M Paths} (ha : Simulates chk ctx call a)
    (hk : ∀ s, Grows (k s))
    (h : (chk.expr a s >>= fun paths => typed ty paths >>= fun states => eachPath states k).exec c =
      (.ok out, c'))
    (hsim : Sim f l s c) (henv : EnvLinked f l s.env env)
    (ht : track ctx call a env l = .ok (t, l')) :
    ∃ f' s' c₁ c₂ ys, Follows f l s f' l' s' c₁ ∧ (k s').exec c₁ = (.ok ys, c₂) ∧
      c₂.next ≤ c'.next ∧ ∀ y ∈ ys, y ∈ out := by
  obtain ⟨f', s', c₁, states, hfollow, hs', h⟩ := operand_states ha h hsim henv ht
  obtain ⟨c₂, c₃, ys, hrun, hle, hle', hmem⟩ := eachPath_mem hk h s' hs'
  exact ⟨f', s', c₂, c₃, ys, hfollow.later hle, hrun, hle', hmem⟩

/-- An operand whose paths all end with a plain value. -/
lemma operand_value {a : Expr} {ty ty' : Ty} {u : Tagged} (ha : Simulates chk ctx call a)
    (hty : ty' ≠ resultType)
    (h : (chk.expr a s >>= fun paths => typed ty paths >>= fun states =>
      eachPath states fun s => value s ty').exec c = (.ok out, c'))
    (hsim : Sim f l s c) (henv : EnvLinked f l s.env env)
    (ht : track ctx call a env l = .ok (t, l')) (hu : u.tag = none) :
    Covers f l s out c' u l' := by
  obtain ⟨f', s', c₁, c₂, ys, hfollow, hrun, hle, hmem⟩ :=
    operand_each ha (fun s => grows_value s _) h hsim henv ht
  exact Covers.extend hfollow (Covers.of_value hfollow.sim hty hrun hu) hle hmem

/-- An operand whose paths all end with a result. -/
lemma operand_result {a : Expr} {ty : Ty} (ha : Simulates chk ctx call a)
    (h : (chk.expr a s >>= fun paths => typed ty paths >>= fun states =>
      eachPath states fun s => value s resultType).exec c = (.ok out, c'))
    (hsim : Sim f l s c) (henv : EnvLinked f l s.env env)
    (ht : track ctx call a env l = .ok (t, l')) (v : Value) :
    Covers f l s out c' (create v l').1 (create v l').2 := by
  obtain ⟨f', s', c₁, c₂, ys, hfollow, hrun, hle, hmem⟩ :=
    operand_each ha (fun s => grows_value s _) h hsim henv ht
  exact Covers.extend hfollow (Covers.of_result hfollow.sim hrun v) hle hmem

/-- Two operands whose paths all end with a plain value. -/
lemma operands_value {a b : Expr} {ty ty' ty'' : Ty} {g : Value → Value → Outcome Value}
    (ha : Simulates chk ctx call a) (hb : Simulates chk ctx call b) (hty : ty'' ≠ resultType)
    (h : (chk.expr a s >>= fun paths => typed ty paths >>= fun states => eachPath states fun s =>
      chk.expr b s >>= fun paths => typed ty' paths >>= fun states =>
        eachPath states fun s => value s ty'').exec c = (.ok out, c'))
    (hsim : Sim f l s c) (henv : EnvLinked f l s.env env)
    (ht : trackBinary g (track ctx call a env l) (track ctx call b env) = .ok (t, l')) :
    Covers f l s out c' t l' := by
  obtain ⟨⟨u, l₁⟩, hu, ht⟩ := Except.bind_eq_ok.mp ht
  obtain ⟨⟨w, l₂⟩, hw, ht⟩ := Except.bind_eq_ok.mp ht
  obtain ⟨v, -, ht⟩ := Except.bind_eq_ok.mp ht
  cases ht
  obtain ⟨f', s', c₁, c₂, ys, hfollow, hrun, hle, hmem⟩ := operand_each ha
    (fun s => grows_operand (grows_expr chk b s) fun _ => grows_value _ _) h hsim henv hu
  exact Covers.extend hfollow
    (operand_value hb hty hrun hfollow.sim (henv.follows hfollow) hw rfl) hle hmem

/-- One operand whose paths all end with a plain value. -/
lemma unary_value {a : Expr} {ty ty' : Ty} {g : Value → Outcome Value}
    (ha : Simulates chk ctx call a) (hty : ty' ≠ resultType)
    (h : (chk.expr a s >>= fun paths => typed ty paths >>= fun states =>
      eachPath states fun s => value s ty').exec c = (.ok out, c'))
    (hsim : Sim f l s c) (henv : EnvLinked f l s.env env)
    (ht : trackUnary g (track ctx call a env l) = .ok (t, l')) : Covers f l s out c' t l' := by
  obtain ⟨⟨u, l₁⟩, hu, ht⟩ := Except.bind_eq_ok.mp ht
  obtain ⟨v, -, ht⟩ := Except.bind_eq_ok.mp ht
  cases ht
  exact operand_value ha hty h hsim henv hu rfl

/-- A branch in which a name stands for the payload of a result. -/
lemma inBranch_track {a : Expr} {name : String} {ty : Ty} {v : Value}
    (ha : Simulates chk ctx call a)
    (h : (inBranch name ty s fun s => chk.expr a s).exec c = (.ok out, c'))
    (hsim : Sim f l s c) (henv : EnvLinked f l s.env env)
    (ht : track ctx call a (env.insert name ⟨v, none⟩) l = .ok (t, l')) :
    Covers f l s out c' t l' := by
  obtain ⟨paths, c₁, hpaths, h⟩ := exec_bind_ok h
  cases h
  refine (ha hpaths ⟨hsim.distinct, hsim.given, hsim.kept⟩ ?_ ht).restore
  exact henv.insert Linked.none name

/-- A form that carries no result. -/
lemma other_ok {o : Outcome Value}
    (h : (o.map fun v => ((⟨v, none⟩ : Tagged), l)) = .ok (t, l')) : t.tag = none ∧ l' = l := by
  obtain ⟨v, -, h⟩ := Except.map_eq_ok.mp h
  cases h
  exact ⟨rfl, rfl⟩

/-- The paths on which the right operand is evaluated, after those on which it is not. -/
def longPaths (chk : Check) (op : BinOp) (b : Expr) (s : State) (short : Paths) : M Paths := do
  let states ← typed (operatorTypes op).1 (← chk.expr b s)
  let long ← eachPath states fun s => value s (operatorTypes op).2
  pure (short ++ long)

lemma grows_longPaths (op : BinOp) (b : Expr) (s : State) (short : Paths) :
    Grows (longPaths chk op b s short) :=
  (grows_expr chk b s).bind fun _ => (grows_typed _ _).bind fun _ =>
    (grows_eachPath fun _ => grows_value _ _).bind fun _ => Grows.pure _

lemma operatorTypes_ne (op : BinOp) : (operatorTypes op).2 ≠ resultType := by
  cases op <;> decide

lemma longPaths_track {op : BinOp} {b : Expr} {short : Paths} {u : Tagged}
    (hb : Simulates chk ctx call b) (h : (longPaths chk op b s short).exec c = (.ok out, c'))
    (hsim : Sim f l s c) (henv : EnvLinked f l s.env env)
    (ht : track ctx call b env l = .ok (t, l')) (hu : u.tag = none) :
    Covers f l s out c' u l' := by
  obtain ⟨f', s', c₁, states, hfollow, hs', hk⟩ := operand_states hb h hsim henv ht
  obtain ⟨long, c₂, heach, hk⟩ := exec_bind_ok hk
  cases hk
  obtain ⟨c₃, c₄, ys, hrun, hle, hle', hmem⟩ := eachPath_mem (fun s => grows_value s _) heach s' hs'
  replace hfollow := hfollow.later hle
  refine Covers.extend hfollow (Covers.of_value hfollow.sim (operatorTypes_ne op) hrun hu) hle' ?_
  exact fun y hy => List.mem_append_right _ (hmem y hy)

variable (hrules : ctx.rules = chk.program.rules)
  (hfields : ∀ concept, Check.inputConcept chk.program chk.rule = some concept →
    ∀ fd ∈ concept.fields, fd.ty = .number)

include hfields in
lemma fieldTy_number {base : Expr} {name : String} {ty : Ty}
    (h : chk.fieldTy s base name = .ok ty) : ty = .number := by
  unfold Check.fieldTy at h
  split at h
  · cases h
  · split at h
    · cases h
    · rename_i concept hconcept
      split at h
      · cases h
      · rename_i fd hfd
        cases h
        exact hfields concept hconcept fd (List.mem_of_find?_eq_some hfd)

include hrules in
lemma callTy_output {name : String} {args : List Expr} {ty : Ty}
    (h : chk.callTy s name args = .ok ty) :
    (ctx.findRule name).any (·.outputTy = resultType) = decide (ty = resultType) := by
  unfold Check.callTy at h
  unfold Context.findRule
  rw [hrules]
  split at h
  · cases h
  · rename_i callee hcallee
    rw [hcallee]
    split at h
    · cases h
    · cases h
      rfl

include hrules hfields in
/-- An evaluation takes one of the paths of its expression. The induction is on the expression; the
environment of a path changes inside a branch of a `match_result` only. -/
theorem expr_track (e : Expr) : Simulates chk ctx call e := by
  induction e using Expr.induction_children with
  | step e ih =>
      intro f l l' s c c' t env out h hsim henv ht
      replace ih : ∀ {a}, a ∈ e.children → Simulates chk ctx call a := fun ha => ih _ ha
      cases e
      case ident n =>
        obtain ⟨_, c₁, htick, h⟩ := exec_bind_ok h
        replace hsim := hsim.later (tick_next htick).le
        rw [track] at ht
        cases hn : env.lookup n with
        | none =>
            rw [hn] at ht
            cases ht
        | some u =>
            have hlinked := henv n u hn
            rw [hn] at ht
            cases ht
            cases hs : s.env.lookup n with
            | some v =>
                rw [hs] at h hlinked
                cases h
                exact ⟨f, _, List.mem_singleton.mpr rfl, Follows.refl hsim, hlinked⟩
            | none =>
                rw [hs] at h hlinked
                replace h : (if n = "true" ∨ n = "false" then value s .bool else _ :
                  M Paths).exec c₁ = (.ok out, c') := h
                split at h
                · refine Covers.of_value hsim (by decide) h ?_
                  exact Option.map_eq_none_iff.mp hlinked.same.symm
                · cases h
      case field base name =>
        obtain ⟨_, c₁, htick, h⟩ := exec_bind_ok h
        replace hsim := hsim.later (tick_next htick).le
        obtain ⟨ty, c₂, hrun, hvalue⟩ := exec_bind_ok h
        obtain ⟨hty, rfl⟩ := fromExcept_ok hrun
        unfold track at ht
        obtain ⟨htag, rfl⟩ := other_ok ht
        refine Covers.of_value hsim ?_ hvalue htag
        rw [fieldTy_number hfields hty]
        decide
      case call name args =>
        obtain ⟨_, c₁, htick, h⟩ := exec_bind_ok h
        replace hsim := hsim.later (tick_next htick).le
        obtain ⟨ty, c₂, hrun, hvalue⟩ := exec_bind_ok h
        obtain ⟨hty, rfl⟩ := fromExcept_ok hrun
        rw [track] at ht
        obtain ⟨v, -, ht⟩ := Except.bind_eq_ok.mp ht
        rw [callTy_output hrules hty] at ht
        by_cases hresult : ty = resultType
        · rw [if_pos (by simpa using hresult)] at ht
          cases ht
          rw [hresult] at hvalue
          exact Covers.of_result hsim hvalue v
        · rw [if_neg (by simpa using hresult)] at ht
          cases ht
          exact Covers.of_value hsim hresult hvalue rfl
      case number | text | bytes =>
        obtain ⟨_, c₁, htick, h⟩ := exec_bind_ok h
        replace hsim := hsim.later (tick_next htick).le
        unfold track at ht
        obtain ⟨htag, rfl⟩ := other_ok ht
        exact Covers.of_value hsim (by decide) h htag
      case tryByteAt table index =>
        rw [Check.expr] at h
        obtain ⟨_, c₁, htick, h⟩ := exec_bind_ok h
        replace hsim := hsim.later (tick_next htick).le
        rw [track] at ht
        by_cases htable : isTable table = true
        · rw [if_neg (by simp [htable])] at h
          rw [if_pos htable] at ht
          obtain ⟨⟨u, l₁⟩, hu, ht⟩ := Except.bind_eq_ok.mp ht
          obtain ⟨v, -, ht⟩ := Except.bind_eq_ok.mp ht
          cases ht
          exact operand_result (ih (by simp [Expr.children])) h hsim henv hu v
        · rw [if_neg htable] at ht
          cases ht
      case ok a | err a =>
        obtain ⟨_, c₁, htick, h⟩ := exec_bind_ok h
        replace hsim := hsim.later (tick_next htick).le
        rw [track] at ht
        obtain ⟨⟨u, l₁⟩, hu, ht⟩ := Except.bind_eq_ok.mp ht
        cases ht
        exact operand_result (ih (by simp [Expr.children])) h hsim henv hu _
      case neg a | abs a | bitNot a | not a =>
        obtain ⟨_, c₁, htick, h⟩ := exec_bind_ok h
        replace hsim := hsim.later (tick_next htick).le
        rw [track] at ht
        exact unary_value (ih (by simp [Expr.children])) (by decide) h hsim henv ht
      case min a b | max a b | bitAnd a b | bitOr a b | bitXor a b | shl a b | shr a b =>
        obtain ⟨_, c₁, htick, h⟩ := exec_bind_ok h
        replace hsim := hsim.later (tick_next htick).le
        rw [track] at ht
        exact operands_value (ih (by simp [Expr.children])) (ih (by simp [Expr.children]))
          (by decide) h hsim henv ht
      case byteAt table index =>
        rw [Check.expr] at h
        obtain ⟨_, c₁, htick, h⟩ := exec_bind_ok h
        replace hsim := hsim.later (tick_next htick).le
        rw [track] at ht
        by_cases htable : isTable table = true
        · rw [if_neg (by simp [htable])] at h
          obtain ⟨⟨u, l₁⟩, hu, ht⟩ := Except.bind_eq_ok.mp ht
          obtain ⟨⟨w, l₂⟩, hw, ht⟩ := Except.bind_eq_ok.mp ht
          obtain ⟨v, -, ht⟩ := Except.bind_eq_ok.mp ht
          cases ht
          -- A literal table is a value of its own.
          have hl : l₁ = l := by
            cases table <;> first | (unfold track at hu; exact (other_ok hu).2) | cases htable
          rw [hl] at hw
          exact operand_value (ih (by simp [Expr.children])) (by decide) h hsim henv hw rfl
        · rw [if_pos (by simp [htable])] at h
          cases h
      case binary op a b =>
        obtain ⟨_, c₁, htick, h⟩ := exec_bind_ok h
        replace hsim := hsim.later (tick_next htick).le
        rw [track] at ht
        obtain ⟨⟨u, l₁⟩, hu, ht⟩ := Except.bind_eq_ok.mp ht
        dsimp only at ht
        obtain ⟨f', s', c₂, states, hfollow, hs', h⟩ :=
          operand_states (ih (by simp [Expr.children])) h hsim henv hu
        obtain ⟨c₃, c₄, ys, hrun, hle, hle', hmem⟩ := eachPath_mem (fun s =>
          Grows.ite ((grows_value s _).bind (grows_longPaths op b s))
            ((Grows.pure _).bind (grows_longPaths op b s))) h s' hs'
        have hthere := henv.follows hfollow
        replace hfollow := hfollow.later hle
        refine Covers.extend hfollow ?_ hle' hmem
        by_cases hop : op = .and ∨ op = .or
        · rw [if_pos hop] at hrun
          replace ht := (if_pos hop).symm.trans ht
          obtain ⟨short, c₅, hshort, hrun⟩ := exec_bind_ok hrun
          obtain ⟨v, hv⟩ : ∃ v, u.value = .bool v := by
            rcases u with ⟨_ | _ | v | _ | _ | _ | _ | _ | _ | _, _⟩
            all_goals first | exact ⟨_, rfl⟩ | cases ht
          rw [hv] at ht
          by_cases hcircuit : shortCircuits op v = true
          · replace ht := (if_pos hcircuit).symm.trans ht
            cases ht
            refine Covers.extend (Follows.refl hfollow.sim)
              (Covers.of_value hfollow.sim (operatorTypes_ne op) hshort rfl)
              ((grows_longPaths op b s' short).le hrun) ?_
            obtain ⟨_, _, -, hk⟩ := exec_bind_ok hrun
            obtain ⟨_, _, -, hk⟩ := exec_bind_ok hk
            obtain ⟨_, _, -, hk⟩ := exec_bind_ok hk
            cases hk
            exact fun y hy => List.mem_append_left _ hy
          · replace ht := (if_neg hcircuit).symm.trans ht
            obtain ⟨⟨w, l₂⟩, hw, ht⟩ := Except.bind_eq_ok.mp ht
            have hlater := (grows_value _ _).le hshort
            obtain ⟨hl, htag⟩ : l₂ = l' ∧ t.tag = none := by
              rcases w with ⟨_ | _ | v | _ | _ | _ | _ | _ | _ | _, _⟩
              all_goals cases ht
              exact ⟨rfl, rfl⟩
            rw [hl] at hw
            exact Covers.extend ((Follows.refl hfollow.sim).later hlater)
              (longPaths_track (ih (by simp [Expr.children])) hrun (hfollow.sim.later hlater) hthere
                hw htag) le_rfl fun _ hy => hy
        · rw [if_neg hop] at hrun
          obtain ⟨short, c₅, hshort, hrun⟩ := exec_bind_ok hrun
          cases hshort
          replace ht := (if_neg hop).symm.trans ht
          obtain ⟨⟨w, l₂⟩, hw, ht⟩ := Except.bind_eq_ok.mp ht
          obtain ⟨v, -, ht⟩ := Except.bind_eq_ok.mp ht
          cases ht
          exact longPaths_track (ih (by simp [Expr.children])) hrun hfollow.sim hthere hw rfl
      case ite x a b =>
        obtain ⟨_, c₁, htick, h⟩ := exec_bind_ok h
        replace hsim := hsim.later (tick_next htick).le
        rw [track] at ht
        obtain ⟨⟨u, l₁⟩, hu, ht⟩ := Except.bind_eq_ok.mp ht
        dsimp only at ht
        obtain ⟨f', s', c₂, states, hfollow, hs', h⟩ :=
          operand_states (ih (by simp [Expr.children])) h hsim henv hu
        obtain ⟨paths, c₃, heach, h⟩ := exec_bind_ok h
        obtain ⟨rfl, rfl⟩ := sameTypes_paths h
        obtain ⟨c₄, c₅, ys, hrun, hle, hle', hmem⟩ := eachPath_mem
          (fun s => (grows_expr chk a s).bind fun _ => (grows_expr chk b s).bind fun _ =>
            Grows.pure _) heach s' hs'
        obtain ⟨yes, c₆, hyes, hrun⟩ := exec_bind_ok hrun
        obtain ⟨no, c₇, hno, hrun⟩ := exec_bind_ok hrun
        cases hrun
        have hyes_le := (grows_expr chk a s').le hyes
        have hno_le := (grows_expr chk b s').le hno
        have hthere := henv.follows hfollow
        replace hfollow := hfollow.later hle
        have hcond : u.value = .bool true ∨ u.value = .bool false := by
          rcases u with ⟨_ | _ | (_ | _) | _ | _ | _ | _ | _ | _ | _, _⟩
          all_goals first | exact Or.inl rfl | exact Or.inr rfl | cases ht
        rcases hcond with hcond | hcond
        · rw [hcond] at ht
          refine Covers.extend hfollow
            (ih (by simp [Expr.children]) hyes hfollow.sim hthere ht) (hno_le.trans hle') ?_
          exact fun y hy => hmem y (List.mem_append_left _ hy)
        · rw [hcond] at ht
          refine Covers.extend (hfollow.later hyes_le)
            (ih (by simp [Expr.children]) hno (hfollow.sim.later hyes_le) hthere ht) hle' ?_
          exact fun y hy => hmem y (List.mem_append_right _ hy)
      case matchResult target x a y b =>
        obtain ⟨_, c₁, htick, h⟩ := exec_bind_ok h
        replace hsim := hsim.later (tick_next htick).le
        rw [track] at ht
        obtain ⟨⟨u, l₁⟩, hu, ht⟩ := Except.bind_eq_ok.mp ht
        dsimp only at ht
        obtain ⟨targets, c₂, htargets, h⟩ := exec_bind_ok h
        obtain ⟨paths, c₃, heach, h⟩ := exec_bind_ok h
        obtain ⟨rfl, rfl⟩ := sameTypes_paths h
        obtain ⟨f', path, hpath, hfollow, hlinked⟩ :=
          ih (by simp [Expr.children]) htargets hsim henv hu
        obtain ⟨c₄, c₅, ys, hrun, hle, hle', hmem⟩ := eachPath_mem (fun target => by
          refine (Grows.throw _).ite ?_
          split
          · exact Grows.throw _
          · exact (grows_inBranch fun s => grows_expr chk a s).bind fun _ =>
              (grows_inBranch fun s => grows_expr chk b s).bind fun _ => Grows.pure _)
          heach path hpath
        split at hrun
        · cases hrun
        · cases hob : path.2.obligation with
          | none =>
              rw [hob] at hrun
              cases hrun
          | some id =>
              rw [hob] at hrun hlinked
              obtain ⟨okPaths, c₆, hok, hrun⟩ := exec_bind_ok hrun
              obtain ⟨errPaths, c₇, herr, hrun⟩ := exec_bind_ok hrun
              cases hrun
              have hok_le := (grows_inBranch fun s => grows_expr chk a s).le hok
              have herr_le := (grows_inBranch fun s => grows_expr chk b s).le herr
              have hscrutinised := hfollow.sim.scrutinise hlinked
              have hthere := (henv.follows hfollow).follows hscrutinised
              replace hfollow := (hfollow.trans hscrutinised).later hle
              obtain ⟨v, hv⟩ | ⟨v, hv⟩ : (∃ v, u.value = .ok v) ∨ ∃ v, u.value = .err v := by
                rcases u with ⟨_ | _ | _ | _ | _ | _ | _ | _ | _ | _, _⟩
                all_goals first | exact Or.inl ⟨_, rfl⟩ | exact Or.inr ⟨_, rfl⟩ | cases ht
              · rw [hv] at ht
                refine Covers.extend hfollow
                  (inBranch_track (ih (by simp [Expr.children])) hok hfollow.sim hthere ht)
                  (herr_le.trans hle') ?_
                exact fun y hy => hmem y (List.mem_append_left _ hy)
              · rw [hv] at ht
                replace hfollow := hfollow.later hok_le
                refine Covers.extend hfollow
                  (inBranch_track (ih (by simp [Expr.children])) herr hfollow.sim hthere ht) hle' ?_
                exact fun y hy => hmem y (List.mem_append_right _ hy)
      all_goals
        obtain ⟨_, c₁, htick, h⟩ := exec_bind_ok h
        cases h

end expressions

/-! ## Rules -/

section rules

variable {chk : Check} {ctx : Context} {call : Rule → Value → Outcome Value}
  (hrules : ctx.rules = chk.program.rules)
  (hfields : ∀ concept, Check.inputConcept chk.program chk.rule = some concept →
    ∀ fd ∈ concept.fields, fd.ty = .number)

include hrules hfields in
/-- The `let`s of an evaluation take one of the paths of the `let`s. -/
lemma lets_track (bindings : List (String × Expr)) :
    ∀ {states states' : List State} {c c' : Counters} {env env' : TEnv} {l l' : Ledger}
      {f : Nat → Nat} {s : State}, (chk.lets bindings states).exec c = (.ok states', c') →
      s ∈ states → Sim f l s c → EnvLinked f l s.env env →
      trackBindings ctx call bindings env l = .ok (env', l') →
      ∃ f', ∃ s' ∈ states', Sim f' l' s' c' ∧ EnvLinked f' l' s'.env env' := by
  induction bindings with
  | nil =>
      intro states states' c c' env env' l l' f s h hs hsim henv ht
      cases h
      cases ht
      exact ⟨f, s, hs, hsim, henv⟩
  | cons binding bindings ih =>
      obtain ⟨name, e⟩ := binding
      intro states states' c c' env env' l l' f s h hs hsim henv ht
      obtain ⟨next, c₁, heach, h⟩ := exec_bind_ok h
      obtain ⟨c₂, c₃, ys, hrun, hle, hle', hmem⟩ := eachPath_mem (fun s =>
        (grows_expr chk e s).bind fun _ => Grows.pure _) heach s hs
      obtain ⟨paths, c₄, hpaths, hrun⟩ := exec_bind_ok hrun
      cases hrun
      obtain ⟨⟨t, l₁⟩, ht₁, ht⟩ := Except.bind_eq_ok.mp ht
      obtain ⟨f', path, hpath, hfollow, hlinked⟩ :=
        expr_track hrules hfields e hpaths (hsim.later hle) henv ht₁
      have hsim' := hfollow.sim.later hle'
      refine ih h (hmem _ (List.mem_map.mpr ⟨path, hpath, rfl⟩))
        ⟨hsim'.distinct, hsim'.given, hsim'.kept⟩ ?_ ht
      exact (henv.follows hfollow).insert hlinked name

/-- Every obligation of the path is met or returned. -/
def Settled (path : State × Val) : Prop :=
  ∀ id ∈ path.1.pending, path.2.obligation = some id

lemma finish_settled {path : State × Val} {c c' : Counters} {u : Unit}
    (h : (chk.finish path).exec c = (.ok u, c')) : Settled path := by
  intro id hid
  unfold Check.finish at h
  split at h
  · cases h
  · cases hob : path.2.obligation with
    | none =>
        rw [hob] at h
        by_cases hp : path.1.pending = []
        · rw [hp] at hid
          cases hid
        · rw [if_pos hp] at h
          cases h
    | some k =>
        rw [hob] at h
        by_cases hk : id = k
        · rw [hk]
        · have hkept : id ∈ (path.1.discharge k).pending :=
            List.mem_filter.mpr ⟨hid, by simpa using hk⟩
          rw [if_pos (List.ne_nil_of_mem hkept)] at h
          cases h

lemma grows_forM_finish (paths : Paths) : Grows (paths.forM chk.finish) := by
  induction paths with
  | nil => exact Grows.pure _
  | cons path paths ih =>
      exact ((Grows.throw _).ite ((Grows.throw _).ite (Grows.pure _))).bind fun _ => ih

lemma forM_settled : ∀ {paths : Paths} {c c' : Counters} {u : Unit},
    (paths.forM chk.finish).exec c = (.ok u, c') → ∀ path ∈ paths, Settled path
  | [], _, _, _, _ => by
      intro path hpath
      cases hpath
  | path :: paths, c, c', u, h => by
      obtain ⟨_, c₁, hfinish, h⟩ := exec_bind_ok h
      exact List.forall_mem_cons.mpr ⟨finish_settled hfinish, forM_settled h⟩

lemma ends_settled : ∀ {states : List State} {c c' : Counters} {u : Unit},
    (chk.ends states).exec c = (.ok u, c') → ∀ s ∈ states, ∃ c₁ c₂ paths, c.next ≤ c₁.next ∧
      (chk.expr chk.rule.logic.value s).exec c₁ = (.ok paths, c₂) ∧ ∀ path ∈ paths, Settled path
  | [], _, _, _, _ => by
      intro s hs
      cases hs
  | s :: states, c, c', u, h => by
      obtain ⟨paths, c₁, hpaths, h⟩ := exec_bind_ok h
      obtain ⟨_, c₂, hforM, h⟩ := exec_bind_ok h
      refine List.forall_mem_cons.mpr ⟨?_, fun s' hs' => ?_⟩
      · exact ⟨c, c₁, paths, le_rfl, hpaths, forM_settled hforM⟩
      · obtain ⟨c₃, c₄, paths', hle, hrest⟩ := ends_settled h s' hs'
        exact ⟨c₃, c₄, paths', (((grows_expr chk _ s).le hpaths).trans
          ((grows_forM_finish paths).le hforM)).trans hle, hrest⟩

include hrules hfields in
/-- The results of an accepted body are scrutinised or returned. -/
theorem body_track {c' : Counters} {u : Unit} (h : chk.body.exec {} = (.ok u, c')) {input : Value}
    {t : Tagged} {l : Ledger} (ht : trackBody ctx call chk.rule input = .ok (t, l)) :
    ∀ k < l.created, k ∈ l.scrutinised ∨ t.tag = some k := by
  obtain ⟨states, c₁, hlets, hends⟩ := exec_bind_ok h
  obtain ⟨⟨env, l₁⟩, hbindings, ht⟩ := Except.bind_eq_ok.mp ht
  obtain ⟨⟨t', l₂⟩, hvalue, ht⟩ := Except.bind_eq_ok.mp ht
  obtain ⟨v, -, ht⟩ := Except.bind_eq_ok.mp ht
  cases ht
  have hsim : Sim id {} ({} : State) {} := by
    constructor <;> exact fun i hi => absurd hi (Nat.not_lt_zero i)
  have henv : EnvLinked id {} [] [(chk.rule.inputName, ⟨input, none⟩)] := by
    intro n t ht
    rw [List.lookup_cons] at ht
    split at ht
    · cases ht
      exact Linked.none
    · cases ht
  obtain ⟨f, s, hs, hsim, henv⟩ := lets_track hrules hfields chk.rule.logic.bindings hlets
    (List.mem_singleton.mpr rfl) hsim henv hbindings
  obtain ⟨c₂, c₃, paths, hle, hpaths, hsettled⟩ := ends_settled hends s hs
  obtain ⟨f', path, hpath, hfollow, hlinked⟩ :=
    expr_track hrules hfields _ hpaths (hsim.later hle) henv hvalue
  intro k hk
  rcases hfollow.sim.kept k hk with hk' | hpending
  · exact Or.inl hk'
  · have hreturned := hsettled path hpath _ hpending
    rw [hlinked.same] at hreturned
    obtain ⟨j, hj, hjk⟩ := Option.map_eq_some_iff.mp hreturned
    have hjk' : j = k := hfollow.sim.distinct j (hlinked.created j hj) k hk hjk
    rw [← hjk']
    exact Or.inr hj

end rules

/-! ## Programs -/

section programs

variable {p : Program} {r : Rule}

lemma checkRule_ok (hp : verify p = []) (hr : r ∈ p.rules) (hactive : r.name ∈ activeRules p) :
    checkRule p r = .ok () := by
  obtain ⟨item, hitem, heq⟩ := List.mem_filterMap.mp hr
  have hitem' := List.flatMap_eq_nil_iff.mp hp item hitem
  cases item <;> try cases heq
  have hcheck := (List.append_eq_nil_iff.mp hitem').2
  rw [if_pos hactive] at hcheck
  cases hrule : checkRule p r with
  | ok u => rfl
  | error message =>
      rw [hrule] at hcheck
      cases hcheck

/-- The concept of a checked rule has numeric fields, and its body is accepted. -/
lemma checkRule_body (h : checkRule p r = .ok ()) :
    (∀ concept, Check.inputConcept p r = some concept → ∀ fd ∈ concept.fields, fd.ty = .number) ∧
      ∃ c', (Check.mk p r).body.exec {} = (.ok (), c') := by
  unfold checkRule at h
  split at h
  · cases h
  · split at h
    · cases h
    · rename_i concept hconcept
      split at h
      · cases h
      · rename_i hplain
        split at h
        · cases h
        · split at h
          · cases h
          · refine ⟨fun concept' hconcept' fd hfd => ?_, _, Prod.ext h rfl⟩
            rw [hconcept] at hconcept'
            cases hconcept'
            by_contra hne
            exact hplain (Or.inr (List.any_eq_true.mpr ⟨fd, hfd, decide_eq_true hne⟩))

/-- No lookup that may be out of bounds, and no call whose value is a bounded result. A `BoundsError`
comes from these only, so that no `Ok` or `Err` of the rule is a bounded result. -/
def Free (p : Program) (r : Rule) : Prop :=
  r.outputTy ≠ resultType ∧ ruleAny r triesByteAt = false ∧
    ∀ n ∈ r.deps, ∀ callee, p.rules.find? (·.name = n) = some callee → callee.outputTy ≠ resultType

/-- A rule outside the contract has no bounded result. -/
lemma free_of_not_active (hr : r ∈ p.rules) (h : r.name ∉ activeRules p) : Free p r := by
  have hdeclares : ∀ r' ∈ p.rules, r'.outputTy = resultType → r'.name ∈ activeRules p := by
    intro r' hr' hty
    refine mem_participating_of_seed hr' ?_
    unfold declares
    rw [hty]
    rfl
  refine ⟨fun hty => h (hdeclares r hr hty), ?_, fun n hn callee hcallee hty => ?_⟩
  · by_contra hany
    refine h (mem_participating_of_seed hr ?_)
    unfold declares
    rw [Bool.not_eq_false] at hany
    rw [hany, Bool.or_true]
  · have hname : callee.name = n := by simpa using List.find?_some hcallee
    have hactive := hdeclares callee (List.mem_of_find?_eq_some hcallee) hty
    rw [hname] at hactive
    refine h (participatingFrom_full declares p.rules (r.name, r.deps)
      (List.mem_map_of_mem hr) (Or.inr ?_) _ List.mem_cons_self)
    exact List.any_eq_true.mpr ⟨n, hn, decide_eq_true hactive⟩

/-- In an accepted program, every bounded result that a rule creates on the way to its value is
scrutinised or is that value. The rules it calls take part too. A rule outside the contract has no
bounded result. -/
theorem obligations_complete (p : Program) (world : Interpreter.World) (r : Rule)
    (hp : verify p = []) (hr : r ∈ p.rules) (fuel : Nat) (input v : Value)
    (hv : evalRule (.ofProgram p world) (fuel + 1) r input = .ok v) :
    (r.name ∈ activeRules p → (∀ n ∈ r.deps, n ∈ activeRules p) ∧
      ∃ tag l, trackBody (.ofProgram p world) (evalRule (.ofProgram p world) fuel) r input =
          .ok (⟨v, tag⟩, l) ∧
        ∀ k < l.created, k ∈ l.scrutinised ∨ tag = some k) ∧
    (r.name ∉ activeRules p → Free p r) := by
  refine ⟨fun hactive => ⟨fun n hn => deps_mem_participating hr hactive hn, ?_⟩,
    free_of_not_active hr⟩
  obtain ⟨hfields, c', hbody⟩ := checkRule_body (checkRule_ok hp hr hactive)
  rw [evalRule] at hv
  obtain ⟨_, -, hv⟩ := Except.bind_eq_ok.mp hv
  rw [← trackBody_plain] at hv
  obtain ⟨⟨⟨w, tag⟩, l⟩, htrack, hw⟩ := Except.map_eq_ok.mp hv
  obtain rfl : w = v := hw
  exact ⟨tag, l, htrack, @body_track ⟨p, r⟩ _ _ rfl hfields _ _ hbody _ _ _ htrack⟩

/-- A place in a text. -/
def placeConcept : Concept where
  name := "Place"
  fields := [⟨"index", .number, none⟩]

/-- A byte of a fixed text. -/
def byteRule : Rule where
  name := "byte"
  inputName := "place"
  inputTy := .named "Place"
  outputName := "out"
  outputTy := resultType
  logic.value := .tryByteAt (.text "abc") (.field (.ident "place") "index")

/-- The byte, or zero; the result has two names. -/
def byteOrZero : Rule where
  name := "byte_or_zero"
  inputName := "place"
  inputTy := .named "Place"
  outputName := "out"
  outputTy := .number
  logic.bindings := [("first", .call "byte" [.ident "place"]), ("second", .ident "first")]
  logic.value := .matchResult (.ident "second") "b" (.ident "b") "e" (.number 0)

/-- A program with two rules of the contract. -/
def places : Program := ⟨[.concept placeConcept, .rule byteRule, .rule byteOrZero]⟩

/-- The lookup is out of bounds. -/
theorem obligations_complete_places :
    (∀ n ∈ byteOrZero.deps, n ∈ activeRules places) ∧
      ∃ tag l, trackBody (.ofProgram places {}) (evalRule (.ofProgram places {}) 2) byteOrZero
          (.record [("index", .number 9)]) = .ok (⟨.number 0, tag⟩, l) ∧
        ∀ k < l.created, k ∈ l.scrutinised ∨ tag = some k :=
  (obligations_complete places {} byteOrZero (by decide +kernel) (List.mem_cons_of_mem _
    List.mem_cons_self) 2 (.record [("index", .number 9)]) (.number 0) rfl).1 (by decide +kernel)

end programs

end Verbosec.Bounds
