import Verbosec.Bounds.Track
import Mathlib.Logic.Function.Basic

/-!
# Paths and evaluations

* `Grows` - the analysis never gives an obligation twice; `grows_expr`.
* `eachPath_mem` - one of the runs that `eachPath` makes.
* `Sim`, `Linked`, `Follows` - a path of the analysis and an evaluation at the same point.
* `Covers` - one of the paths ends where the evaluation does.
-/

namespace Verbosec.Bounds

open Verbosec.Lib Verbosec.Lib.Fallible
open Interpreter (Value)

/-! ## Runs of the analysis -/

section runs

variable {α β : Type}

/-- A successful sequence of two steps. -/
lemma exec_bind_ok {x : M α} {f : α → M β} {c c' : Counters} {b : β}
    (h : (x >>= f).exec c = (.ok b, c')) :
    ∃ a c₁, x.exec c = (.ok a, c₁) ∧ (f a).exec c₁ = (.ok b, c') := by
  rw [exec_bind] at h
  rcases hx : x.exec c with ⟨_ | a, c₁⟩
  · rw [hx] at h
    cases h
  · rw [hx] at h
    exact ⟨a, c₁, rfl, h⟩

/-- The last obligation never decreases. -/
def Grows (x : M α) : Prop := ∀ n, Keeps (fun c : Counters => n ≤ c.next) x fun _ => True

lemma Grows.le {x : M α} (h : Grows x) {c c' : Counters} {a : α} (hx : x.exec c = (.ok a, c')) :
    c.next ≤ c'.next :=
  (h c.next c a c' le_rfl hx).1

lemma Grows.pure (a : α) : Grows (Pure.pure a : M α) := fun _ => Keeps.pure trivial

lemma Grows.throw (e : String) : Grows (MonadExcept.throw e : M α) := fun _ => Keeps.throw e

lemma Grows.bind {x : M α} {f : α → M β} (hx : Grows x) (hf : ∀ a, Grows (f a)) :
    Grows (x >>= f) :=
  fun n => (hx n).seq fun a => hf a n

lemma Grows.ite {c : Prop} [Decidable c] {x y : M α} (hx : Grows x) (hy : Grows y) :
    Grows (if c then x else y) :=
  fun n => Keeps.ite (fun _ => hx n) fun _ => hy n

lemma Grows.fromExcept (x : Except String α) : Grows (Fallible.fromExcept x : M α) :=
  fun _ => Keeps.fromExcept fun _ _ => trivial

lemma grows_tick : Grows tick := by
  intro n
  refine (Keeps.modify fun c hc => ?_).seq fun _ => Keeps.get_bind fun c hc => ?_
  · exact hc
  · exact Keeps.ite (fun _ => Keeps.throw _) fun _ => Keeps.pure trivial

lemma grows_value (s : State) (ty : Ty) : Grows (value s ty) := by
  intro n
  refine Keeps.ite (fun _ => ?_) fun _ => Keeps.pure trivial
  refine (Keeps.modify fun c hc => ?_).seq fun _ => Keeps.get_bind fun c hc => Keeps.pure trivial
  change n ≤ c.next + 1
  omega

lemma grows_typed (ty : Ty) (paths : Paths) : Grows (typed ty paths) := by
  unfold typed
  split
  · exact Grows.throw _
  · exact Grows.pure _

lemma grows_sameTypes (message : String) (paths : Paths) : Grows (sameTypes message paths) :=
  (Grows.throw _).ite (Grows.pure _)

lemma grows_eachPath {xs : List α} {f : α → M (List β)} (hf : ∀ x, Grows (f x)) :
    Grows (eachPath xs f) := by
  induction xs with
  | nil => exact Grows.pure _
  | cons x xs ih => exact (hf x).bind fun _ => ih.bind fun _ => Grows.pure _

lemma grows_inBranch {name : String} {ty : Ty} {s : State} {body : State → M Paths}
    (h : ∀ s, Grows (body s)) : Grows (inBranch name ty s body) :=
  (h _).bind fun _ => Grows.pure _

/-- An expression and what is done on each of its paths. -/
lemma grows_operand {x : M Paths} {ty : Ty} {f : State → M Paths} (hx : Grows x)
    (hf : ∀ s, Grows (f s)) : Grows (x >>= fun paths => typed ty paths >>= fun states =>
      eachPath states f) :=
  hx.bind fun _ => (grows_typed _ _).bind fun _ => grows_eachPath hf

/-- One of the runs that `eachPath` makes. -/
lemma eachPath_mem {xs : List α} {f : α → M (List β)} (hf : ∀ x, Grows (f x)) :
    ∀ {c c' : Counters} {out : List β}, (eachPath xs f).exec c = (.ok out, c') → ∀ x ∈ xs,
      ∃ c₁ c₂ ys, (f x).exec c₁ = (.ok ys, c₂) ∧ c.next ≤ c₁.next ∧ c₂.next ≤ c'.next ∧
        ∀ y ∈ ys, y ∈ out := by
  induction xs with
  | nil =>
      intro c c' out h x hx
      cases hx
  | cons a xs ih =>
      intro c c' out h x hx
      obtain ⟨ys, c₁, ha, h⟩ := exec_bind_ok h
      obtain ⟨rest, c₂, hrest, h⟩ := exec_bind_ok h
      obtain ⟨⟨rfl⟩, rfl⟩ := Prod.mk.inj h
      rcases List.mem_cons.mp hx with rfl | hx
      · refine ⟨c, c₁, ys, ha, le_rfl, (grows_eachPath hf).le hrest, fun y hy => ?_⟩
        exact List.mem_append_left _ hy
      · obtain ⟨c₃, c₄, zs, hrun, h₁, h₂, hmem⟩ := ih hrest x hx
        refine ⟨c₃, c₄, zs, hrun, ((hf a).le ha).trans h₁, h₂, fun y hy => ?_⟩
        exact List.mem_append_right _ (hmem y hy)

lemma tick_next {c c' : Counters} {u : Unit} (h : tick.exec c = (.ok u, c')) :
    c.next = c'.next := by
  obtain ⟨_, c₁, hmodify, h⟩ := exec_bind_ok h
  obtain ⟨c₂, c₃, hget, h⟩ := exec_bind_ok h
  cases hmodify
  cases hget
  split at h
  · cases h
  · cases h
    rfl

lemma typed_states {ty : Ty} {paths : Paths} {c c' : Counters} {states : List State}
    (h : (typed ty paths).exec c = (.ok states, c')) : states = paths.map (·.1) ∧ c' = c := by
  unfold typed at h
  split at h
  · cases h
  · cases h
    exact ⟨rfl, rfl⟩

lemma sameTypes_paths {message : String} {paths out : Paths} {c c' : Counters}
    (h : (sameTypes message paths).exec c = (.ok out, c')) : out = paths ∧ c' = c := by
  unfold sameTypes at h
  split at h
  · cases h
  · cases h
    exact ⟨rfl, rfl⟩

lemma fromExcept_ok {x : Except String α} {a : α} {c c' : Counters}
    (h : (Fallible.fromExcept x : M α).exec c = (.ok a, c')) : x = .ok a ∧ c' = c := by
  cases x with
  | error e => cases h
  | ok b =>
      cases h
      exact ⟨rfl, rfl⟩

lemma value_plain {s : State} {ty : Ty} (hty : ty ≠ resultType) (c : Counters) :
    (value s ty).exec c = (.ok [(s, ⟨ty, none⟩)], c) := by
  unfold value
  rw [if_neg hty]
  rfl

lemma value_result (s : State) (c : Counters) :
    (value s resultType).exec c =
      (.ok [({ s with pending := (c.next + 1) :: s.pending }, ⟨resultType, some (c.next + 1)⟩)],
        { c with next := c.next + 1 }) := by
  unfold value
  rw [if_pos rfl]
  rfl

end runs

/-- The analysis of an expression never gives an obligation twice. -/
lemma grows_expr (chk : Check) (e : Expr) : ∀ s, Grows (chk.expr e s) := by
  induction e using Expr.induction_children with
  | step e ih =>
      intro s
      cases e
      case number | text | bytes => exact grows_tick.bind fun _ => grows_value _ _
      case ident n =>
        refine grows_tick.bind fun _ => ?_
        split
        · exact Grows.pure _
        · exact (grows_value _ _).ite (Grows.throw _)
      case field | call =>
        exact grows_tick.bind fun _ => (Grows.fromExcept _).bind fun _ => grows_value _ _
      case tryByteAt table index | byteAt table index =>
        rw [Check.expr]
        refine grows_tick.bind fun _ => (Grows.throw _).ite ?_
        exact grows_operand (ih _ (by simp [Expr.children]) _) fun _ => grows_value _ _
      case ok a | err a | neg a | abs a | bitNot a | not a =>
        refine grows_tick.bind fun _ => ?_
        exact grows_operand (ih _ (by simp [Expr.children]) _) fun _ => grows_value _ _
      case min a b | max a b | bitAnd a b | bitOr a b | bitXor a b | shl a b | shr a b =>
        refine grows_tick.bind fun _ => ?_
        refine grows_operand (ih _ (by simp [Expr.children]) _) fun s => ?_
        exact grows_operand (ih _ (by simp [Expr.children]) _) fun _ => grows_value _ _
      case binary op a b =>
        refine grows_tick.bind fun _ => ?_
        refine grows_operand (ih _ (by simp [Expr.children]) _) fun s => ?_
        have hlong : ∀ short : Paths, Grows (do
            let states ← typed (operatorTypes op).1 (← chk.expr b s)
            let long ← eachPath states fun s => value s (operatorTypes op).2
            pure (short ++ long)) := fun _ =>
          (ih _ (by simp [Expr.children]) _).bind fun _ => (grows_typed _ _).bind fun _ =>
            (grows_eachPath fun _ => grows_value _ _).bind fun _ => Grows.pure _
        exact ((grows_value _ _).bind hlong).ite ((Grows.pure _).bind hlong)
      case ite x a b =>
        refine grows_tick.bind fun _ => (ih _ (by simp [Expr.children]) _).bind fun _ => ?_
        refine (grows_typed _ _).bind fun _ => (grows_eachPath fun s => ?_).bind fun _ =>
          grows_sameTypes _ _
        exact (ih _ (by simp [Expr.children]) _).bind fun _ =>
          (ih _ (by simp [Expr.children]) _).bind fun _ => Grows.pure _
      case matchResult t x a y b =>
        refine grows_tick.bind fun _ => (ih _ (by simp [Expr.children]) _).bind fun _ => ?_
        refine (grows_eachPath fun target => ?_).bind fun _ => grows_sameTypes _ _
        refine (Grows.throw _).ite ?_
        split
        · exact Grows.throw _
        · exact (grows_inBranch fun s => ih _ (by simp [Expr.children]) s).bind fun _ =>
            (grows_inBranch fun s => ih _ (by simp [Expr.children]) s).bind fun _ => Grows.pure _
      all_goals exact grows_tick.bind fun _ => Grows.throw _

/-! ## A path and an evaluation -/

/-- Of the created results, those that are not scrutinised are pending; `f` gives the obligation of
a result. -/
structure Sim (f : Nat → Nat) (l : Ledger) (s : State) (c : Counters) : Prop where
  distinct : ∀ i < l.created, ∀ j < l.created, f i = f j → i = j
  given : ∀ i < l.created, f i ≤ c.next
  kept : ∀ i < l.created, i ∈ l.scrutinised ∨ f i ∈ s.pending

/-- A value of the analysis carries the obligation of the value of the evaluation. -/
structure Linked (f : Nat → Nat) (l : Ledger) (obligation tag : Option Nat) : Prop where
  same : obligation = tag.map f
  created : ∀ k ∈ tag, k < l.created

/-- The names of the evaluation are linked to those of the path. -/
def EnvLinked (f : Nat → Nat) (l : Ledger) (env : Dict String Val) (tenv : TEnv) : Prop :=
  ∀ n t, tenv.lookup n = some t → Linked f l ((env.lookup n).bind (·.obligation)) t.tag

/-- A later point of the path and of the evaluation. -/
structure Follows (f : Nat → Nat) (l : Ledger) (s : State) (f' : Nat → Nat) (l' : Ledger)
    (s' : State) (c' : Counters) : Prop where
  sim : Sim f' l' s' c'
  agrees : ∀ k < l.created, f' k = f k
  grows : l.created ≤ l'.created
  names : ∀ n, s'.env.lookup n = s.env.lookup n

/-- One of the paths ends where the evaluation does. -/
def Covers (f : Nat → Nat) (l : Ledger) (s : State) (paths : Paths) (c' : Counters) (t : Tagged)
    (l' : Ledger) : Prop :=
  ∃ f', ∃ path ∈ paths, Follows f l s f' l' path.1 c' ∧ Linked f' l' path.2.obligation t.tag

section paths

variable {f f' : Nat → Nat} {l l' l'' : Ledger} {s s' : State} {c c' c₁ c₂ : Counters} {t : Tagged}
  {env : Dict String Val} {tenv : TEnv}

lemma Sim.later (h : Sim f l s c) (hc : c.next ≤ c'.next) : Sim f l s c' :=
  ⟨h.distinct, fun i hi => (h.given i hi).trans hc, h.kept⟩

lemma Linked.none : Linked f l none none := by
  refine ⟨rfl, fun k hk => ?_⟩
  cases hk

lemma Follows.refl (h : Sim f l s c) : Follows f l s f l s c :=
  ⟨h, fun _ _ => rfl, le_rfl, fun _ => rfl⟩

lemma Follows.later (h : Follows f l s f' l' s' c) (hc : c.next ≤ c'.next) :
    Follows f l s f' l' s' c' :=
  ⟨h.sim.later hc, h.agrees, h.grows, h.names⟩

lemma Follows.trans {f'' : Nat → Nat} {s'' : State} (h : Follows f l s f' l' s' c)
    (h' : Follows f' l' s' f'' l'' s'' c') : Follows f l s f'' l'' s'' c' := by
  refine ⟨h'.sim, fun k hk => ?_, h.grows.trans h'.grows, fun n => (h'.names n).trans (h.names n)⟩
  rw [h'.agrees k (hk.trans_le h.grows), h.agrees k hk]

lemma Linked.follows {obligation tag : Option Nat} (h : Linked f l obligation tag)
    (hf : Follows f l s f' l' s' c) : Linked f' l' obligation tag := by
  refine ⟨?_, fun k hk => (h.created k hk).trans_le hf.grows⟩
  rw [h.same]
  cases htag : tag with
  | none => rfl
  | some k =>
      rw [Option.map_some, Option.map_some, hf.agrees k (h.created k htag)]

lemma EnvLinked.follows (h : EnvLinked f l s.env tenv) (hf : Follows f l s f' l' s' c) :
    EnvLinked f' l' s'.env tenv := by
  intro n t ht
  rw [hf.names]
  exact (h n t ht).follows hf

lemma EnvLinked.insert (h : EnvLinked f l env tenv) {v : Val} (hv : Linked f l v.obligation t.tag)
    (name : String) : EnvLinked f l (env.insert name v) (tenv.insert name t) := by
  intro n u hu
  rw [Dict.lookup_insert] at hu ⊢
  by_cases hn : n = name
  · rw [if_pos hn] at hu ⊢
    cases hu
    exact hv
  · rw [if_neg hn] at hu ⊢
    exact h n u hu

/-- A created result is pending. -/
lemma Sim.create (h : Sim f l s c) (v : Value) :
    Follows f l s (Function.update f l.created (c.next + 1)) (create v l).2
        { s with pending := (c.next + 1) :: s.pending } { c with next := c.next + 1 } ∧
      Linked (Function.update f l.created (c.next + 1)) (create v l).2 (some (c.next + 1))
        (create v l).1.tag := by
  have hold : ∀ i < l.created, Function.update f l.created (c.next + 1) i = f i := fun i hi =>
    Function.update_of_ne (by omega) _ _
  have hnew : Function.update f l.created (c.next + 1) l.created = c.next + 1 :=
    Function.update_self _ _ _
  refine ⟨⟨⟨?_, ?_, ?_⟩, hold, Nat.le_succ _, fun _ => rfl⟩, ?_, ?_⟩
  · intro i hi j hj hij
    rcases Nat.lt_succ_iff_lt_or_eq.mp hi with hi | rfl <;>
      rcases Nat.lt_succ_iff_lt_or_eq.mp hj with hj | rfl
    · rw [hold i hi, hold j hj] at hij
      exact h.distinct i hi j hj hij
    · rw [hold i hi, hnew] at hij
      have := h.given i hi
      omega
    · rw [hnew, hold j hj] at hij
      have := h.given j hj
      omega
    · rfl
  · intro i hi
    rcases Nat.lt_succ_iff_lt_or_eq.mp hi with hi | rfl
    · rw [hold i hi]
      exact (h.given i hi).trans (Nat.le_succ _)
    · exact hnew.le
  · intro i hi
    rcases Nat.lt_succ_iff_lt_or_eq.mp hi with hi | rfl
    · rw [hold i hi]
      exact (h.kept i hi).imp id fun hp => List.mem_cons_of_mem _ hp
    · rw [hnew]
      exact Or.inr List.mem_cons_self
  · change some (c.next + 1) = some _
    rw [hnew]
  · intro k hk
    cases hk
    exact Nat.lt_succ_self _

/-- A scrutinised result is no longer pending. -/
lemma Sim.scrutinise (h : Sim f l s c) {id : Nat} (ht : Linked f l (some id) t.tag) :
    Follows f l s f (l.scrutinise t) (s.discharge id) c := by
  refine ⟨⟨h.distinct, h.given, fun i hi => ?_⟩, fun _ _ => rfl, le_rfl, fun _ => rfl⟩
  obtain ⟨k, hk, hid⟩ := Option.map_eq_some_iff.mp ht.same.symm
  rcases h.kept i hi with hi' | hp
  · exact Or.inl (List.mem_append_right _ hi')
  · by_cases hik : f i = id
    · have heq : i = k := h.distinct i hi k (ht.created k hk) (hik.trans hid.symm)
      refine Or.inl (List.mem_append_left _ ?_)
      rw [hk, heq]
      exact List.mem_singleton.mpr rfl
    · refine Or.inr (List.mem_filter.mpr ⟨hp, ?_⟩)
      simpa using hik

lemma Covers.extend {paths out : Paths} (hf : Follows f l s f' l' s' c₁)
    (h : Covers f' l' s' paths c₂ t l'') (hc : c₂.next ≤ c'.next) (hmem : ∀ y ∈ paths, y ∈ out) :
    Covers f l s out c' t l'' := by
  obtain ⟨f'', path, hpath, hfollow, hlinked⟩ := h
  exact ⟨f'', path, hmem path hpath, (hf.trans hfollow).later hc, hlinked⟩

/-- A value that is no result. -/
lemma Covers.of_value {ty : Ty} (h : Sim f l s c) (hty : ty ≠ resultType) {out : Paths}
    (hrun : (value s ty).exec c = (.ok out, c')) (ht : t.tag = none) : Covers f l s out c' t l := by
  rw [value_plain hty] at hrun
  cases hrun
  refine ⟨f, _, List.mem_singleton.mpr rfl, Follows.refl h, ?_⟩
  rw [ht]
  exact Linked.none

/-- A result. -/
lemma Covers.of_result (h : Sim f l s c) {out : Paths}
    (hrun : (value s resultType).exec c = (.ok out, c')) (v : Value) :
    Covers f l s out c' (create v l).1 (create v l).2 := by
  rw [value_result] at hrun
  cases hrun
  obtain ⟨hfollow, hlinked⟩ := h.create v
  exact ⟨_, _, List.mem_singleton.mpr rfl, hfollow, hlinked⟩

lemma lookup_restore {env env' : Dict String Val} {name : String} {v : Val}
    (h : ∀ n, env'.lookup n = (env.insert name v).lookup n) (n : String) :
    (restore env' name (env.lookup name)).lookup n = env.lookup n := by
  by_cases hn : n = name
  · cases hold : env.lookup name with
    | none =>
        change (env'.erase name).lookup n = _
        rw [Dict.lookup_erase, if_pos hn, hn, hold]
    | some old =>
        change (env'.insert name old).lookup n = _
        rw [Dict.lookup_insert, if_pos hn, hn, hold]
  · have hsame : env'.lookup n = env.lookup n := by
      rw [h, Dict.lookup_insert, if_neg hn]
    cases env.lookup name with
    | none =>
        change (env'.erase name).lookup n = _
        rw [Dict.lookup_erase, if_neg hn, hsame]
    | some old =>
        change (env'.insert name old).lookup n = _
        rw [Dict.lookup_insert, if_neg hn, hsame]

/-- After a branch the name of its payload has its former meaning again. -/
lemma Covers.restore {name : String} {v : Val} {paths : Paths}
    (h : Covers f l { s with env := s.env.insert name v } paths c t l') :
    Covers f l s (paths.map fun path =>
      ({ path.1 with env := restore path.1.env name (s.env.lookup name) }, path.2)) c t l' := by
  obtain ⟨f', path, hpath, hf, hlinked⟩ := h
  refine ⟨f', _, List.mem_map.mpr ⟨path, hpath, rfl⟩, ⟨?_, hf.agrees, hf.grows, ?_⟩, hlinked⟩
  · exact ⟨hf.sim.distinct, hf.sim.given, hf.sim.kept⟩
  · exact lookup_restore hf.names

end paths

end Verbosec.Bounds
