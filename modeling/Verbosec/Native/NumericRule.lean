import Verbosec.Native.NumericExpr

/-!
# The code of a numeric rule

* `lastUses_spec` - a definition lives until its last use, which is after it.
* `Tracks`, `releaseLocals_spec` - the slots of the live definitions, and the end of some of them.
* `Live` - what holds before a `let`: exactly the definitions with a use to come are in slots.
* `numericBindings_emits`, `numericRule_emits` - the code of the `let`s from one on, by induction on
  them, and the code of a rule with the calls expanded, by induction on their depth.
-/

namespace Verbosec.Native.NumericSlots

open Verbosec.Lib Interpreter
open NumericBounds.Fold (IsScalar)

/-! ## Last uses -/

/-- Uses at a place mark the definitions that are visible there. -/
lemma markUses_fold (scope : Dict String Nat) (i : Nat) (names : List String) :
    ∀ last : Nat → Option Nat, ∀ d,
      (names.foldl (fun last n =>
        match scope.lookup n with
        | some d => Function.update last d (some i)
        | none => last) last) d =
      if ∃ n ∈ names, scope.lookup n = some d then some i else last d := by
  induction names with
  | nil => simp
  | cons n names ih =>
      intro last d
      rw [List.foldl_cons, ih]
      by_cases hrest : ∃ m ∈ names, scope.lookup m = some d
      · obtain ⟨m, hm, hd⟩ := hrest
        rw [if_pos ⟨m, hm, hd⟩, if_pos ⟨m, List.mem_cons_of_mem _ hm, hd⟩]
      · rw [if_neg hrest]
        cases hn : scope.lookup n with
        | none =>
            simp only
            rw [if_neg]
            rintro ⟨m, hm, hd⟩
            rcases List.mem_cons.mp hm with rfl | hm
            · rw [hn] at hd
              cases hd
            · exact hrest ⟨m, hm, hd⟩
        | some d' =>
            simp only
            by_cases hdd : d = d'
            · subst hdd
              rw [Function.update_self, if_pos ⟨n, List.mem_cons_self, hn⟩]
            · rw [Function.update_of_ne hdd, if_neg]
              rintro ⟨m, hm, hd⟩
              rcases List.mem_cons.mp hm with rfl | hm
              · rw [hn] at hd
                cases hd
                exact hdd rfl
              · exact hrest ⟨m, hm, hd⟩

lemma markUses_eq (scope : Dict String Nat) (i : Nat) (last : Nat → Option Nat) (e : Expr)
    (d : Nat) :
    markUses scope i last e d =
      if ∃ n ∈ identsOf e, scope.lookup n = some d then some i else last d :=
  markUses_fold scope i _ last d

/-- The uses so far are after their definitions, and the definitions before a place. -/
def Before (scope : Dict String Nat) (last : Nat → Option Nat) (i : Nat) : Prop :=
  (∀ n d, scope.lookup n = some d → d < i) ∧ ∀ d k, last d = some k → d < k ∧ k ≤ i

lemma Before.markUses {scope : Dict String Nat} {last : Nat → Option Nat} {i : Nat}
    (h : Before scope last i) (e : Expr) : Before scope (markUses scope i last e) i := by
  refine ⟨h.1, fun d k hk => ?_⟩
  rw [markUses_eq] at hk
  split at hk
  · rename_i hused
    obtain ⟨n, -, hn⟩ := hused
    cases hk
    exact ⟨h.1 n d hn, le_rfl⟩
  · exact h.2 d k hk

lemma Before.insert {scope : Dict String Nat} {last : Nat → Option Nat} {i : Nat}
    (h : Before scope last i) (name : String) : Before (scope.insert name i) last (i + 1) := by
  refine ⟨fun n d hn => ?_, fun d k hk => ?_⟩
  · rw [Dict.lookup_insert] at hn
    split at hn
    · cases hn
      omega
    · exact Nat.lt_succ_of_lt (h.1 n d hn)
  · have := h.2 d k hk
    omega

/-- A use moves to a later one at most. -/
lemma markUses_later {scope : Dict String Nat} {last : Nat → Option Nat} {i : Nat}
    (h : Before scope last i) (e : Expr) {d k : Nat} (hk : last d = some k) :
    ∃ k', markUses scope i last e d = some k' ∧ k ≤ k' := by
  rw [markUses_eq]
  split
  · exact ⟨i, rfl, (h.2 d k hk).2⟩
  · exact ⟨k, hk, le_rfl⟩

/-- **The last uses** are after their definitions, inside the rule, and not before any use. -/
lemma lastUses_spec (value : Expr) (rest : List (String × Expr)) : ∀ (i : Nat)
    (scope : Dict String Nat) (last : Nat → Option Nat), Before scope last i →
    (∀ d k, lastUses value rest i scope last d = some k → d < k ∧ k ≤ i + rest.length) ∧
      ∀ d k, last d = some k → ∃ k', lastUses value rest i scope last d = some k' ∧ k ≤ k' := by
  induction rest with
  | nil =>
      intro i scope last h
      exact ⟨(h.markUses value).2, fun d k hk => markUses_later h value hk⟩
  | cons b rest ih =>
      intro i scope last h
      obtain ⟨name, e⟩ := b
      obtain ⟨hbounds, hlater⟩ := ih (i + 1) (scope.insert name i) _ ((h.markUses e).insert name)
      refine ⟨fun d k hk => ?_, fun d k hk => ?_⟩
      · have := hbounds d k hk
        rw [List.length_cons]
        omega
      · obtain ⟨k', hk', hle⟩ := markUses_later h e hk
        obtain ⟨k'', hk'', hle'⟩ := hlater d k' hk'
        exact ⟨k'', hk'', hle.trans hle'⟩

/-! ## The slots of the live definitions -/

/-- The slots of the definitions, each its own. -/
structure Tracks (slots : Nat → Option Nat) (live : List Nat) : Prop where
  mem : ∀ i, i ∈ live ↔ ∃ d, slots d = some i
  inj : ∀ d d' i, slots d = some i → slots d' = some i → d = d'

/-- **The end of some definitions**: their slots are released, each once. -/
lemma releaseLocals_spec {base : List Nat} (ds : List Nat) : ∀ (slots : Nat → Option Nat) (s : Emit)
    (live : List Nat), s.Inv → s.locals = base ++ live → Tracks slots live → ds.Nodup →
    (∀ d ∈ ds, ∃ i, slots d = some i) →
    ∃ slots' s' live', releaseLocals ds slots s = .ok (slots', s') ∧ s'.code = s.code ∧
      s'.temporaries = s.temporaries ∧ s'.points = s.points ∧ s'.locals = base ++ live' ∧ s'.Inv ∧
      Tracks slots' live' ∧ ∀ d, slots' d = if d ∈ ds then none else slots d := by
  induction ds with
  | nil =>
      intro slots s live h hlocals htracks _ _
      exact ⟨slots, s, live, rfl, rfl, rfl, rfl, hlocals, h, htracks, by simp⟩
  | cons d ds ih =>
      intro slots s live h hlocals htracks hnodup hall
      obtain ⟨i, hi⟩ := hall d List.mem_cons_self
      have hlive : i ∈ live := (htracks.mem i).mpr ⟨d, hi⟩
      have hlocal : i ∈ s.locals := by
        rw [hlocals]
        exact List.mem_append_right _ hlive
      have hnodup' : (base ++ live).Nodup := hlocals ▸ (List.nodup_append.mp h.nodup).1
      have hbase : i ∉ base := fun hb => List.disjoint_of_nodup_append hnodup' hb hlive
      obtain ⟨free, hrel, hinv⟩ := release_spec h (List.mem_append_left _ hlocal)
      have hinv' := hinv { s with slots := free, locals := s.locals.erase i } rfl
        ((List.perm_cons_erase hlocal).append_right _)
      have htracks' : Tracks (Function.update slots d none) (live.erase i) := by
        refine ⟨fun j => ?_, fun d₁ d₂ j h₁ h₂ => ?_⟩
        · rw [(List.nodup_append.mp hnodup').2.1.mem_erase_iff, htracks.mem]
          constructor
          · rintro ⟨hne, d', hd'⟩
            refine ⟨d', ?_⟩
            rw [Function.update_of_ne, hd']
            rintro rfl
            rw [hi] at hd'
            cases hd'
            exact hne rfl
          · rintro ⟨d', hd'⟩
            have hne : d' ≠ d := by
              rintro rfl
              rw [Function.update_self] at hd'
              cases hd'
            rw [Function.update_of_ne hne] at hd'
            exact ⟨fun hji => hne (htracks.inj d' d i (hji ▸ hd') hi), d', hd'⟩
        · have hne : ∀ d', Function.update slots d none d' = some j → d' ≠ d := by
            rintro d' hd' rfl
            rw [Function.update_self] at hd'
            cases hd'
          have hne₁ := hne d₁ h₁
          have hne₂ := hne d₂ h₂
          rw [Function.update_of_ne hne₁] at h₁
          rw [Function.update_of_ne hne₂] at h₂
          exact htracks.inj d₁ d₂ j h₁ h₂
      rw [List.nodup_cons] at hnodup
      obtain ⟨slots', s', live', hok, hcode, htemps, hpoints, hlocals', hinv'', htracks'',
        hslots⟩ := ih _ _ (live.erase i) hinv' (by
          simp only [hlocals]
          exact List.erase_append_right _ hbase) htracks' hnodup.2 fun d' hd' => by
          have hne : d' ≠ d := by
            rintro rfl
            exact hnodup.1 hd'
          rw [Function.update_of_ne hne]
          exact hall d' (List.mem_cons_of_mem _ hd')
      refine ⟨slots', s', live', ?_, hcode, htemps, hpoints, hlocals', hinv'', htracks'',
        fun d' => ?_⟩
      · simp only [releaseLocals, hi, hrel, bind, Except.bind, hok]
      · rw [hslots]
        by_cases hdd : d' = d
        · subst hdd
          simp [hnodup.1]
        · rw [Function.update_of_ne hdd]
          simp [hdd]

/-! ## The code of the `let`s -/

/-- The `let`s from one on, and the value, are of the admitted shape. -/
def ShapedLets (input : String) (numeric : List String) (callable : String → Prop) (value : Expr) :
    List String → List (String × Expr) → Prop
  | bound, [] => Shaped bound input numeric callable value
  | bound, (name, e) :: rest =>
      Shaped bound input numeric callable e ∧
        ShapedLets input numeric callable value (name :: bound) rest

/-- Before a `let`: exactly the definitions with a use to come are in slots, each its own, and the
names refer to them. `scope` has the definition of every name, and `last` the uses so far. -/
structure Live (r : Rule) (rest : List (String × Expr)) (i : Nat) (scope : Dict String Nat)
    (last : Nat → Option Nat) (bound : List String) (slots : Nat → Option Nat)
    (env : Dict String Nat) (live : List Nat) : Prop where
  plan : Plan r = lastUses r.logic.value rest i scope last
  before : Before scope last i
  left : i + rest.length = r.logic.bindings.length
  names : ∀ n, n ∈ bound ↔ ∃ d, scope.lookup n = some d
  tracks : Tracks slots live
  held : ∀ d, (∃ j, slots d = some j) ↔ d < i ∧ ∃ k, Plan r d = some k ∧ i ≤ k
  env : ∀ n d j, scope.lookup n = some d → slots d = some j → env.lookup n = some j

namespace Live

variable {r : Rule} {rest : List (String × Expr)} {i : Nat} {scope : Dict String Nat}
  {last : Nat → Option Nat} {bound : List String} {slots : Nat → Option Nat}
  {env : Dict String Nat} {live : List Nat}

/-- The definition of a name that is read has a slot. -/
lemma slot (h : Live r rest i scope last bound slots env live) {e : Expr}
    (hlater : ∀ d k, markUses scope i last e d = some k → ∃ k', Plan r d = some k' ∧ k ≤ k')
    {n : String} (hn : n ∈ identsOf e) (hb : n ∈ bound) :
    ∃ d j, scope.lookup n = some d ∧ slots d = some j ∧ env.lookup n = some j ∧ j ∈ live := by
  obtain ⟨d, hd⟩ := (h.names n).mp hb
  obtain ⟨k, hk, hle⟩ := hlater d i (by rw [markUses_eq, if_pos ⟨n, hn, hd⟩])
  obtain ⟨j, hj⟩ := (h.held d).mpr ⟨h.before.1 n d hd, k, hk, hle⟩
  exact ⟨d, j, hd, hj, h.env n d j hd hj, (h.tracks.mem j).mpr ⟨d, hj⟩⟩

/-- The uses in the next `let` are planned. -/
lemma later_cons {name : String} {e : Expr}
    (h : Live r ((name, e) :: rest) i scope last bound slots env live) (d k : Nat)
    (hk : markUses scope i last e d = some k) : ∃ k', Plan r d = some k' ∧ k ≤ k' := by
  rw [h.plan]
  exact (lastUses_spec r.logic.value rest (i + 1) (scope.insert name i) _
    ((h.before.markUses e).insert name)).2 d k hk

/-- The uses in the value are planned. -/
lemma later_nil (h : Live r [] i scope last bound slots env live) (d k : Nat)
    (hk : markUses scope i last r.logic.value d = some k) : ∃ k', Plan r d = some k' ∧ k ≤ k' := by
  rw [h.plan]
  exact ⟨k, hk, le_rfl⟩

/-- A use is after its definition. -/
lemma plan_lt (h : Live r rest i scope last bound slots env live) {d k : Nat}
    (hk : Plan r d = some k) : d < k ∧ k ≤ r.logic.bindings.length := by
  rw [h.plan] at hk
  have := (lastUses_spec r.logic.value rest i scope last h.before).1 d k hk
  rw [h.left] at this
  exact this

/-- What dies after a `let` is in a slot. -/
lemma releases_held (h : Live r rest i scope last bound slots env live) :
    ∀ d ∈ releases (Plan r) r.logic.bindings.length i, ∃ j, slots d = some j := by
  intro d hd
  rw [releases, List.mem_filter] at hd
  have hlast : Plan r d = some i := by simpa using hd.2
  exact (h.held d).mpr ⟨(h.plan_lt hlast).1, i, hlast, le_rfl⟩

/-- After the end of what dies there, exactly the definitions with a later use are in slots. -/
lemma held_after (h : Live r rest i scope last bound slots env live) {slots' : Nat → Option Nat}
    (hslots : ∀ d, slots' d =
      if d ∈ releases (Plan r) r.logic.bindings.length i then none else slots d) (d : Nat) :
    (∃ j, slots' d = some j) ↔ d < i ∧ ∃ k, Plan r d = some k ∧ i + 1 ≤ k := by
  rw [hslots]
  by_cases hd : d ∈ releases (Plan r) r.logic.bindings.length i
  · rw [if_pos hd]
    rw [releases, List.mem_filter] at hd
    have hlast : Plan r d = some i := by simpa using hd.2
    simp [hlast]
  · rw [if_neg hd, h.held]
    constructor
    · rintro ⟨hlt, k, hk, hle⟩
      refine ⟨hlt, k, hk, ?_⟩
      have hne : k ≠ i := by
        rintro rfl
        refine hd (List.mem_filter.mpr ⟨List.mem_range.mpr ?_, by simp [hk]⟩)
        have := h.left
        omega
      omega
    · rintro ⟨hlt, k, hk, hle⟩
      exact ⟨hlt, k, hk, by omega⟩

/-- What is in a slot afterwards was there before. -/
lemma slots_sub {slots' : Nat → Option Nat} {ds : List Nat}
    (hslots : ∀ d, slots' d = if d ∈ ds then none else slots d) {d j : Nat}
    (hj : slots' d = some j) : slots d = some j := by
  rw [hslots] at hj
  split at hj
  · cases hj
  · exact hj

/-- The next `let` has the names and one definition more. -/
lemma names_cons {name : String} {e : Expr}
    (h : Live r ((name, e) :: rest) i scope last bound slots env live) (n : String) :
    n ∈ name :: bound ↔ ∃ d, (scope.insert name i).lookup n = some d := by
  rw [Dict.lookup_insert, List.mem_cons]
  by_cases hn : n = name
  · simp [hn]
  · simp [hn, h.names]

lemma left_cons {name : String} {e : Expr}
    (h : Live r ((name, e) :: rest) i scope last bound slots env live) :
    i + 1 + rest.length = r.logic.bindings.length := by
  have := h.left
  rw [List.length_cons] at this
  omega

/-- **A definition with a later use** gets a slot of its own. -/
lemma used {name : String} {e : Expr}
    (h : Live r ((name, e) :: rest) i scope last bound slots env live)
    {slots' : Nat → Option Nat} {live' : List Nat} (htracks : Tracks slots' live')
    (hslots : ∀ d, slots' d =
      if d ∈ releases (Plan r) r.logic.bindings.length i then none else slots d)
    (hused : (Plan r i).isSome) {index : Nat} (hfresh : ∀ d j, slots' d = some j → j ≠ index) :
    Live r rest (i + 1) (scope.insert name i) (markUses scope i last e) (name :: bound)
      (Function.update slots' i (some index)) (env.insert name index) (live' ++ [index]) := by
  have hheld := h.held_after hslots
  obtain ⟨k, hk⟩ := Option.isSome_iff_exists.mp hused
  have hnew : slots' i = none := by
    by_contra hsome
    obtain ⟨j, hj⟩ := Option.ne_none_iff_exists'.mp hsome
    have := ((hheld i).mp ⟨j, hj⟩).1
    omega
  refine ⟨h.plan, (h.before.markUses e).insert name, h.left_cons, h.names_cons,
    ⟨fun j => ?_, fun d d' j hd hd' => ?_⟩, fun d => ?_, fun n d j hn hj => ?_⟩
  · rw [List.mem_append, List.mem_singleton, htracks.mem]
    constructor
    · rintro (⟨d, hd⟩ | rfl)
      · refine ⟨d, ?_⟩
        rw [Function.update_of_ne, hd]
        rintro rfl
        rw [hnew] at hd
        cases hd
      · exact ⟨i, Function.update_self _ _ _⟩
    · rintro ⟨d, hd⟩
      by_cases hdi : d = i
      · subst hdi
        rw [Function.update_self] at hd
        cases hd
        exact Or.inr rfl
      · rw [Function.update_of_ne hdi] at hd
        exact Or.inl ⟨d, hd⟩
  · by_cases hdi : d = i <;> by_cases hdi' : d' = i
    · rw [hdi, hdi']
    · subst hdi
      rw [Function.update_self] at hd
      rw [Function.update_of_ne hdi'] at hd'
      cases hd
      exact absurd rfl (hfresh _ _ hd')
    · subst hdi'
      rw [Function.update_self] at hd'
      rw [Function.update_of_ne hdi] at hd
      cases hd'
      exact absurd rfl (hfresh _ _ hd)
    · rw [Function.update_of_ne hdi] at hd
      rw [Function.update_of_ne hdi'] at hd'
      exact htracks.inj d d' j hd hd'
  · by_cases hdi : d = i
    · subst hdi
      rw [Function.update_self]
      have := (h.plan_lt hk).1
      exact ⟨fun _ => ⟨by omega, k, hk, by omega⟩, fun _ => ⟨index, rfl⟩⟩
    · rw [Function.update_of_ne hdi, hheld]
      constructor
      · rintro ⟨hlt, hrest⟩
        exact ⟨by omega, hrest⟩
      · rintro ⟨hlt, hrest⟩
        exact ⟨by omega, hrest⟩
  · rw [Dict.lookup_insert] at hn ⊢
    by_cases hname : n = name
    · rw [if_pos hname] at hn ⊢
      cases hn
      rwa [Function.update_self] at hj
    · rw [if_neg hname] at hn ⊢
      have := h.before.1 n d hn
      rw [Function.update_of_ne (by omega)] at hj
      exact h.env n d j hn (slots_sub hslots hj)

/-- A definition without a later use gets none. -/
lemma unused {name : String} {e : Expr}
    (h : Live r ((name, e) :: rest) i scope last bound slots env live)
    {slots' : Nat → Option Nat} {live' : List Nat} (htracks : Tracks slots' live')
    (hslots : ∀ d, slots' d =
      if d ∈ releases (Plan r) r.logic.bindings.length i then none else slots d)
    (hunused : ¬ (Plan r i).isSome) :
    Live r rest (i + 1) (scope.insert name i) (markUses scope i last e) (name :: bound) slots'
      (env.erase name) live' := by
  have hheld := h.held_after hslots
  refine ⟨h.plan, (h.before.markUses e).insert name, h.left_cons, h.names_cons, htracks,
    fun d => ?_, fun n d j hn hj => ?_⟩
  · rw [hheld]
    constructor
    · rintro ⟨hlt, hrest⟩
      exact ⟨by omega, hrest⟩
    · rintro ⟨hlt, k, hk, hle⟩
      have hne : d ≠ i := by
        rintro rfl
        rw [hk] at hunused
        exact hunused rfl
      exact ⟨by omega, k, hk, hle⟩
  · rw [Dict.lookup_insert] at hn
    rw [Dict.lookup_erase]
    by_cases hname : n = name
    · rw [if_pos hname] at hn
      cases hn
      have := ((hheld i).mp ⟨j, hj⟩).1
      omega
    · rw [if_neg hname] at hn ⊢
      exact h.env n d j hn (slots_sub hslots hj)

end Live

section lets

variable (C : Interpreter.Context) (numeric : List String) (r : Rule)

/-- The value of the `let`s from one on, on a machine with the live definitions. -/
def LetsMean (rest : List (String × Expr)) (scope : Dict String Nat) (bound : List String)
    (slots : Nat → Option Nat) (m : Machine) (v : Value) : Prop :=
  ∃ values fields fuel,
    (∀ n d j, scope.lookup n = some d → slots d = some j →
      ∃ w, values.lookup n = some w ∧ IsScalar w ∧ m.slots j = encode w) ∧
    (r.inputName ∉ bound → values.lookup r.inputName = some (.record fields)) ∧
    FieldsOf numeric fields m ∧
    (do
      let values' ← evalBindings C (evalRule C fuel) values rest
      checkOutput r (← evalExpr C (evalRule C fuel) values' r.logic.value)) = .ok v

variable {C numeric r} {ctx : Context} {rule : Rule → Emit → Except Stop Emit}
  {callable : String → Prop}
  (hnames : ∀ n ∈ numeric, n ∈ ctx.fields)
  (hcall : ∀ n, callable n → ∃ callee, ctx.rules.lookup n = some callee ∧
    C.findRule n = some callee ∧ ∀ s, s.Inv → Emits (rule callee) s (RuleMeans C numeric callee))

lemma checkOutput_eq {w v : Value} (hw : IsScalar w) (h : checkOutput r w = .ok v) : w = v := by
  unfold checkOutput at h
  split at h
  · cases h
    rfl
  · split at h
    · exact hw.elim
    · cases h

/-- A machine with the live definitions has what an expression reads. -/
lemma holds_of_live {rest : List (String × Expr)} {i : Nat} {scope : Dict String Nat}
    {last : Nat → Option Nat} {bound : List String} {slots : Nat → Option Nat}
    {env : Dict String Nat} {live : List Nat} (h : Live r rest i scope last bound slots env live)
    {e : Expr}
    (hlater : ∀ d k, markUses scope i last e d = some k → ∃ k', Plan r d = some k' ∧ k ≤ k')
    {values : Env} {fields : Dict String Value} {m : Machine}
    (hvalues : ∀ n d j, scope.lookup n = some d → slots d = some j →
      ∃ w, values.lookup n = some w ∧ IsScalar w ∧ m.slots j = encode w)
    (hinput : r.inputName ∉ bound → values.lookup r.inputName = some (.record fields))
    (hfields : FieldsOf numeric fields m) :
    Holds bound r.inputName numeric env values fields e m := by
  refine ⟨fun n hn hb => ?_, hinput, hfields⟩
  obtain ⟨d, j, hd, hj, henv, -⟩ := h.slot hlater hn hb
  obtain ⟨w, hw, hs, hm⟩ := hvalues n d j hd hj
  exact ⟨j, w, henv, hw, hs, hm⟩

lemma resolved_of_live {rest : List (String × Expr)} {i : Nat} {scope : Dict String Nat}
    {last : Nat → Option Nat} {bound : List String} {slots : Nat → Option Nat}
    {env : Dict String Nat} {live base : List Nat}
    (h : Live r rest i scope last bound slots env live) {e : Expr}
    (hlater : ∀ d k, markUses scope i last e d = some k → ∃ k', Plan r d = some k' ∧ k ≤ k')
    {s : Emit} (hlocals : s.locals = base ++ live) : Resolved bound env s.held e := by
  intro n hn hb
  obtain ⟨d, j, -, -, henv, hj⟩ := h.slot hlater hn hb
  exact ⟨j, List.mem_append_left _ (hlocals ▸ List.mem_append_right _ hj), henv⟩

/-- **A `let`**: its value, and what the rest means on a machine that has it in the slot of the
definition. -/
lemma letsMean_cons {name : String} {e : Expr} {rest : List (String × Expr)} {i : Nat}
    {scope : Dict String Nat} {last : Nat → Option Nat} {bound : List String}
    {slots : Nat → Option Nat} {env : Dict String Nat} {live base : List Nat}
    (h : Live r ((name, e) :: rest) i scope last bound slots env live) {s : Emit}
    (hlocals : s.locals = base ++ live) {code : List Instr}
    (hmeans : ∀ m v, ExprMeans C bound r.inputName numeric env e m v →
      IsScalar v ∧ Yields code s.held m (encode v)) (m : Machine) (v : Value)
    (hmv : LetsMean C numeric r ((name, e) :: rest) scope bound slots m v) :
    ∃ w m', IsScalar w ∧ run code m = some m' ∧ m'.rax = encode w ∧ m.Agrees s.held m' ∧
      ∀ (slots'' : Nat → Option Nat) (m'' : Machine), m''.fields = m'.fields →
        (∀ n d j, (scope.insert name i).lookup n = some d → slots'' d = some j →
          (n = name ∧ m''.slots j = encode w) ∨
          (n ≠ name ∧ slots d = some j ∧ m''.slots j = m'.slots j)) →
        LetsMean C numeric r rest (scope.insert name i) (name :: bound) slots'' m'' v := by
  obtain ⟨values, fields, fuel, hvalues, hinput, hfields, heval⟩ := hmv
  obtain ⟨values', hvalues', heval⟩ := Except.bind_eq_ok.mp heval
  obtain ⟨w, hw, hvalues'⟩ := Except.bind_eq_ok.mp hvalues'
  obtain ⟨hs, m', hrun, hrax, hf, hkeep⟩ := hmeans m w ⟨values, fields, fuel,
    holds_of_live h h.later_cons hvalues hinput hfields, hw⟩
  refine ⟨w, m', hs, hrun, hrax, ⟨hf, hkeep⟩, fun slots'' m'' hf'' hm'' => ?_⟩
  refine ⟨Dict.insert values name w, fields, fuel, fun n d j hn hj => ?_, fun hb => ?_, ?_,
    Except.bind_eq_ok.mpr ⟨values', hvalues', heval⟩⟩
  · rcases hm'' n d j hn hj with ⟨rfl, hm⟩ | ⟨hne, hj', hm⟩
    · exact ⟨w, Dict.lookup_insert_self _ _ _, hs, hm⟩
    · rw [Dict.lookup_insert_of_ne _ _ hne] at hn
      obtain ⟨w', hw', hs', hm'⟩ := hvalues n d j hn hj'
      refine ⟨w', by rw [Dict.lookup_insert_of_ne _ _ hne, hw'], hs', ?_⟩
      rw [hm, hkeep j, hm']
      unfold Emit.held
      rw [hlocals]
      simp [(h.tracks.mem j).mpr ⟨d, hj'⟩]
  · rw [List.mem_cons, not_or] at hb
    rw [Dict.lookup_insert_of_ne _ _ hb.1, hinput hb.2]
  · intro n hn
    obtain ⟨k, hk, hmk⟩ := hfields n hn
    exact ⟨k, hk, by rw [hf'', hf, hmk]⟩

include hnames hcall

/-- **The code of the `let`s from one on, and of the value**, by induction on them: the locals of
the rule are gone at the end. -/
theorem numericBindings_emits {base : List Nat} (rest : List (String × Expr)) : ∀ (i : Nat)
    (scope : Dict String Nat) (last : Nat → Option Nat) (bound : List String)
    (slots : Nat → Option Nat) (env : Dict String Nat) (live : List Nat) (s : Emit),
    Live r rest i scope last bound slots env live → s.Inv → s.locals = base ++ live →
    ShapedLets r.inputName numeric callable r.logic.value bound rest →
    (∀ b ∈ rest, Uncaptured ctx.fields (operandsOf b.2)) →
    Uncaptured ctx.fields (operandsOf r.logic.value) →
    numericBindings ctx rule r rest i slots env s = .error exhausted ∨
    ∃ s' code, numericBindings ctx rule r rest i slots env s = .ok s' ∧ s'.code = s.code ++ code ∧
      s'.temporaries = s.temporaries ∧ s'.locals = base ∧ s'.Inv ∧ (s.Sound → s'.Sound) ∧
      ∀ m v, LetsMean C numeric r rest scope bound slots m v →
        IsScalar v ∧ Yields code (base ++ s.temporaries) m (encode v) := by
  induction rest with
  | nil =>
      intro i scope last bound slots env live s h hinv hlocals hshape _ hfree
      rcases expr_emits hnames hcall r.logic.value s hinv hshape
        (resolved_of_live h h.later_nil hlocals) hfree with
        hex | ⟨s₁, code, hok₁, hcode₁, hsame, hmeans⟩
      · left
        simp only [numericBindings, hex, bind, Except.bind]
      obtain ⟨slots', s₂, live', hok₂, hcode₂, htemps₂, hpoints₂, hlocals₂, hinv₂, htracks₂,
        hslots⟩ :=
        releaseLocals_spec (releases (Plan r) r.logic.bindings.length i) slots s₁ live hsame.inv
          (hsame.locals.trans hlocals) h.tracks (List.nodup_range.filter _) h.releases_held
      -- Nothing is used behind the end of the rule.
      have hnone : ∀ d, slots' d = none := by
        intro d
        by_contra hsome
        obtain ⟨j, hj⟩ := Option.ne_none_iff_exists'.mp hsome
        obtain ⟨-, k, hk, hle⟩ := (h.held_after hslots d).mp ⟨j, hj⟩
        have hlt := (h.plan_lt hk).2
        have hleft := h.left
        rw [List.length_nil] at hleft
        omega
      have hlive : live' = [] := by
        rw [List.eq_nil_iff_forall_not_mem]
        intro j hj
        obtain ⟨d, hd⟩ := (htracks₂.mem j).mp hj
        rw [hnone] at hd
        cases hd
      refine Or.inr ⟨s₂, code, ?_, hcode₂.trans hcode₁, htemps₂.trans hsame.temporaries, ?_, hinv₂,
        ?_, ?_⟩
      · simp only [numericBindings, hok₁, hok₂, bind, Except.bind]
        rw [if_pos]
        simp [hnone]
      · rw [hlocals₂, hlive, List.append_nil]
      · intro hs p hp
        exact hsame.sound hs p (hpoints₂ ▸ hp)
      · rintro m v ⟨values, fields, fuel, hvalues, hinput, hfields, heval⟩
        obtain ⟨values', hvalues', heval⟩ := Except.bind_eq_ok.mp heval
        cases hvalues'
        obtain ⟨w, hw, hout⟩ := Except.bind_eq_ok.mp heval
        obtain ⟨hs, m', hrun, hrax, hf, hkeep⟩ := hmeans m w ⟨values, fields, fuel,
          holds_of_live h h.later_nil hvalues hinput hfields, hw⟩
        cases checkOutput_eq hs hout
        refine ⟨hs, m', hrun, hrax, hf, fun j hj => hkeep j ?_⟩
        unfold Emit.held
        rw [hlocals]
        simp only [List.mem_append] at hj ⊢
        tauto
  | cons b rest ih =>
      intro i scope last bound slots env live s h hinv hlocals hshape hfrees hfree
      obtain ⟨name, e⟩ := b
      rcases expr_emits hnames hcall e s hinv hshape.1 (resolved_of_live h h.later_cons hlocals)
        (hfrees _ List.mem_cons_self) with hex | ⟨s₁, code, hok₁, hcode₁, hsame, hmeans⟩
      · left
        simp only [numericBindings, hex, bind, Except.bind]
      obtain ⟨slots', s₂, live', hok₂, hcode₂, htemps₂, hpoints₂, hlocals₂, hinv₂, htracks₂,
        hslots⟩ :=
        releaseLocals_spec (releases (Plan r) r.logic.bindings.length i) slots s₁ live hsame.inv
          (hsame.locals.trans hlocals) h.tracks (List.nodup_range.filter _) h.releases_held
      have hheld := h.held_after hslots
      have hsound : s.Sound → s₂.Sound := fun hs p hp => hsame.sound hs p (hpoints₂ ▸ hp)
      have hfrees' : ∀ b ∈ rest, Uncaptured ctx.fields (operandsOf b.2) :=
        fun b hb => hfrees b (List.mem_cons_of_mem _ hb)
      -- What the `let` evaluates to, and the machine after its code.
      have hstep := letsMean_cons h hlocals hmeans
      have hbaseHeld : ∀ j ∈ base ++ s.temporaries, j ∈ s.held := by
        intro j hj
        unfold Emit.held
        rw [hlocals]
        simp only [List.mem_append] at hj ⊢
        tauto
      by_cases hused : (Plan r i).isSome
      · rcases numericLocal_spec hinv₂ ctx.limit with
          hex | ⟨index, s₃, hok₃, hindex, hcode₃, htemps₃, hlocals₃, hsound₃, hinv₃⟩
        · left
          simp only [numericBindings, hok₁, hok₂, bind, Except.bind, hused, if_true, hex]
        have hfresh : ∀ d j, slots' d = some j → j ≠ index := by
          rintro d j hj rfl
          refine hindex ?_
          unfold Emit.held
          rw [hlocals₂]
          simp [(htracks₂.mem j).mpr ⟨d, hj⟩]
        have hlive' := h.used htracks₂ hslots hused hfresh
        have hinv₄ : Emit.Inv { s₃ with locals := s₃.locals ++ [index] } := by
          refine hinv₃ _ rfl ?_
          unfold Emit.held
          simp only [htemps₃, hlocals₃]
          rw [List.append_assoc, List.singleton_append]
          exact List.perm_middle
        rcases ih (i + 1) _ _ _ _ _ _ { s₃ with locals := s₃.locals ++ [index] } hlive' hinv₄
          (by simp only [hlocals₃, hlocals₂, List.append_assoc]) hshape.2 hfrees' hfree with
          hex | ⟨s₄, code', hok₄, hcode₄, htemps₄, hlocals₄, hinv₅, hsound₄, hmeans₄⟩
        · left
          simp only [numericBindings, hok₁, hok₂, bind, Except.bind, hused, if_true, hok₃, hex]
        refine Or.inr ⟨s₄, code ++ (Instr.store index :: code'), ?_, ?_, ?_, hlocals₄, hinv₅, ?_, ?_⟩
        · simp only [numericBindings, hok₁, hok₂, bind, Except.bind, hused, if_true, hok₃, hok₄]
        · simp only [hcode₄, hcode₃, hcode₂, hcode₁, List.append_assoc, List.singleton_append]
        · rw [htemps₄]
          exact htemps₃.trans (htemps₂.trans hsame.temporaries)
        · exact fun hs => hsound₄ (hsound₃ (hsound hs))
        · intro m v hmv
          obtain ⟨w, m', hs, hrun, hrax, hagree, hnext⟩ := hstep m v hmv
          have hmeans' := hmeans₄ { m' with slots := Function.update m'.slots index m'.rax } v
            (hnext _ _ rfl fun n d j hn hj => by
              by_cases hname : n = name
              · left
                rw [Dict.lookup_insert, if_pos hname] at hn
                cases hn
                rw [Function.update_self] at hj
                cases hj
                exact ⟨hname, by simp only [Function.update_self, hrax]⟩
              · right
                rw [Dict.lookup_insert, if_neg hname] at hn
                have := h.before.1 n d hn
                rw [Function.update_of_ne (by omega)] at hj
                exact ⟨hname, Live.slots_sub hslots hj, by
                  simp only [Function.update_of_ne (hfresh d j hj)]⟩)
          obtain ⟨hs', m'', hrun', hrax', hf', hkeep'⟩ := hmeans'
          refine ⟨hs', .after hrun ⟨hagree.1, fun j hj => hagree.2 j (hbaseHeld j hj)⟩
            ⟨m'', by rw [run, hrun'], hrax', hf', fun j hj => ?_⟩⟩
          have hj' : j ∈ base ++
              ({ s₃ with locals := s₃.locals ++ [index] } : Emit).temporaries := by
            simp only [htemps₃, htemps₂, hsame.temporaries]
            exact hj
          have hne : j ≠ index := by
            rintro rfl
            refine hindex ?_
            unfold Emit.held
            rw [hlocals₂, htemps₂, hsame.temporaries]
            simp only [List.mem_append] at hj ⊢
            tauto
          rw [hkeep' j hj']
          simp only [Function.update_of_ne hne]
      · have hnew : ∀ j, slots' i ≠ some j := by
          intro j hj
          have := ((hheld i).mp ⟨j, hj⟩).1
          omega
        have hlive' := h.unused htracks₂ hslots hused
        rcases ih (i + 1) _ _ _ _ _ _ s₂ hlive' hinv₂ hlocals₂ hshape.2 hfrees' hfree with
          hex | ⟨s₄, code', hok₄, hcode₄, htemps₄, hlocals₄, hinv₅, hsound₄, hmeans₄⟩
        · left
          simp only [numericBindings, hok₁, hok₂, bind, Except.bind, hused, hex]
          rfl
        refine Or.inr ⟨s₄, code ++ code', ?_, ?_, ?_, hlocals₄, hinv₅,
          fun hs => hsound₄ (hsound hs), ?_⟩
        · simp only [numericBindings, hok₁, hok₂, bind, Except.bind, hused, hok₄]
          rfl
        · simp only [hcode₄, hcode₂, hcode₁, List.append_assoc]
        · exact htemps₄.trans (htemps₂.trans hsame.temporaries)
        · intro m v hmv
          obtain ⟨w, m', hs, hrun, hrax, hagree, hnext⟩ := hstep m v hmv
          obtain ⟨hs', hyields⟩ := hmeans₄ m' v (hnext _ _ rfl fun n d j hn hj => by
            by_cases hname : n = name
            · rw [Dict.lookup_insert, if_pos hname] at hn
              cases hn
              exact absurd hj (hnew j)
            · right
              exact ⟨hname, Live.slots_sub hslots hj, rfl⟩)
          rw [htemps₂, hsame.temporaries] at hyields
          exact ⟨hs', .after hrun ⟨hagree.1, fun j hj => hagree.2 j (hbaseHeld j hj)⟩ hyields⟩

end lets

/-! ## The code of a rule -/

/-- No field of the input has the key of an operand of a scalar operator of the rule. -/
def UncapturedRule (fields : List String) (r : Rule) : Prop :=
  (∀ b ∈ r.logic.bindings, Uncaptured fields (operandsOf b.2)) ∧
    Uncaptured fields (operandsOf r.logic.value)

/-- The rules whose calls expand in a depth, all of them of the admitted shape. -/
def Expandable (ctx : Context) (C : Interpreter.Context) (numeric : List String) : Nat → Rule → Prop
  | 0, _ => False
  | depth + 1, r =>
      ShapedLets r.inputName numeric
        (fun n => ∃ callee, ctx.rules.lookup n = some callee ∧ C.findRule n = some callee ∧
          Expandable ctx C numeric depth callee) r.logic.value [] r.logic.bindings ∧
      UncapturedRule ctx.fields r

/-- **The code of a rule**, with its calls expanded: it keeps the slots that are held and gives the
value of the rule, by induction on the depth of the calls. -/
theorem numericRule_emits {ctx : Context} {C : Interpreter.Context} {numeric : List String}
    (hnames : ∀ n ∈ numeric, n ∈ ctx.fields) (depth : Nat) : ∀ (r : Rule),
    Expandable ctx C numeric depth r → ∀ fuel, depth ≤ fuel → ∀ s, s.Inv →
    Emits (numericRule ctx fuel r) s (RuleMeans C numeric r) := by
  induction depth with
  | zero => exact fun r h => h.elim
  | succ depth ih =>
      intro r h fuel hfuel s hinv
      obtain ⟨fuel, rfl⟩ := Nat.exists_eq_succ_of_ne_zero (show fuel ≠ 0 by omega)
      have hlive : Live r r.logic.bindings 0 [] (fun _ => none) [] (fun _ => none) [] [] :=
        ⟨rfl, ⟨by simp, by simp⟩, by simp, by simp, ⟨by simp, by simp⟩, by simp, by simp⟩
      have hcall : ∀ n, (∃ callee, ctx.rules.lookup n = some callee ∧ C.findRule n = some callee ∧
          Expandable ctx C numeric depth callee) →
          ∃ callee, ctx.rules.lookup n = some callee ∧ C.findRule n = some callee ∧
            ∀ s, s.Inv → Emits (numericRule ctx fuel callee) s (RuleMeans C numeric callee) := by
        rintro n ⟨callee, hlookup, hfind, hcallee⟩
        exact ⟨callee, hlookup, hfind, fun s hs => ih callee hcallee fuel (by omega) s hs⟩
      rcases numericBindings_emits hnames hcall
        r.logic.bindings 0 [] _ [] _ [] [] s hlive hinv (List.append_nil _).symm h.1 h.2.1
        h.2.2 with
        hex | ⟨s', code, hok, hcode, htemps, hlocals, hinv', hsound, hmeans⟩
      · exact Or.inl hex
      refine Or.inr ⟨s', code, hok, hcode, ⟨htemps, hlocals, hinv', hsound⟩, ?_⟩
      rintro m v ⟨fields, fuel', hfields, heval⟩
      cases fuel' with
      | zero => cases heval
      | succ fuel' =>
          rw [evalRule] at heval
          obtain ⟨_, -, hbody⟩ := Except.bind_eq_ok.mp heval
          exact hmeans m v ⟨_, fields, fuel', by simp, fun _ => by simp, hfields, hbody⟩

end Verbosec.Native.NumericSlots
