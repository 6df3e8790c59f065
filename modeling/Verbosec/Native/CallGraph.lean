import Verbosec.Lib.Graph
import Verbosec.Syntax

/-!
# The call graph

* `collectNativeCallees` - the rules that an expression calls.
* `detectNativeRecursion` - a call cycle that is reachable from a rule.
* `collectSccContaining` - the rules that a rule reaches, and that reach it.
* `dfsNativeCycle_spec`, `reachesTarget_spec`, `forwardLoop_spec` - what one search establishes.
* `callGraph_exact` - the analyses are exact.

The searches have fuel, which the specifications show to suffice. A set of the source is a list
without repetitions.

Source: `native.rs`, `detect_native_recursion`, `collect_scc_containing`, `collect_native_callees`.
-/

namespace Verbosec.Native.CallGraph

open Verbosec.Lib.Graph
open Relation (ReflTransGen TransGen)

/-! ## Callees -/

/-- The rules that an expression calls, in the order of the walk. A field access is a leaf. Source:
`native.rs`, `collect_native_callees` -/
def collectNativeCallees (e : Expr) : List String :=
  match e with
  | .field _ _ => []
  | .call name args => name :: args.attach.flatMap fun a => collectNativeCallees a.1
  | e => e.children.attach.flatMap fun c => collectNativeCallees c.1
termination_by sizeOf e
decreasing_by
  · exact Expr.sizeOf_lt_of_mem_children (e := .call name args) a.2
  · exact Expr.sizeOf_lt_of_mem_children c.2

/-- The rule of a name, the last one where there are several. Source: the map of
`compile_native_code` -/
def ruleOf (rules : List Rule) (name : String) : Option Rule :=
  rules.reverse.find? fun r => r.name = name

/-- The callees of a rule: of its bindings, then of its value. -/
def ruleCallees (r : Rule) : List String :=
  r.logic.bindings.flatMap (fun b => collectNativeCallees b.2) ++ collectNativeCallees r.logic.value

/-- The callees of a name, where it is one of a rule. -/
def calleesOf (rules : List Rule) (name : String) : Option (List String) :=
  (ruleOf rules name).map ruleCallees

/-! ## Searches -/

/-- The visits of some names, up to the first that finds a cycle. -/
def firstCycle (visit : String → List String → Option (Option String × List String)) :
    List String → List String → Option (Option String × List String)
  | [], done => some (none, done)
  | c :: cs, done =>
      match visit c done with
      | some (none, done') => firstCycle visit cs done'
      | r => r

/-- A cycle among the callees of a name, and the names without one. Source: `native.rs`,
`dfs_native_cycle` -/
def dfsNativeCycle (rules : List Rule) :
    Nat → List String → String → List String → Option (Option String × List String)
  | 0, _, _, _ => none
  | fuel + 1, onStack, name, done =>
      if name ∈ onStack then some (some name, done)
      else if name ∈ done then some (none, done)
      else
        match calleesOf rules name with
        | none => some (none, done)
        | some cs =>
            match firstCycle (dfsNativeCycle rules fuel (name :: onStack)) cs done with
            | some (none, done') => some (none, name :: done')
            | r => r

/-- A name on a cycle that is reachable from a rule; the outer `none` where the fuel does not
suffice. Source: `native.rs`, `detect_native_recursion` -/
def detectNativeRecursion (entry : Rule) (rules : List Rule) : Option (Option String) :=
  (dfsNativeCycle rules (rules.length + 1) [] entry.name []).map (·.1)

/-- The names that are new join the stack and the set. -/
def pushNew : List String → List String → List String → List String × List String
  | [], stack, seen => (stack, seen)
  | c :: cs, stack, seen =>
      if c ∈ seen then pushNew cs stack seen else pushNew cs (c :: stack) (c :: seen)

/-- The names that are reachable. Source: `native.rs`, `collect_scc_containing`, `forward` -/
def forwardLoop (rules : List Rule) : Nat → List String → List String → Option (List String)
  | _, [], seen => some seen
  | 0, _ :: _, _ => none
  | fuel + 1, n :: stack, seen =>
      match calleesOf rules n with
      | none => forwardLoop rules fuel stack seen
      | some cs => forwardLoop rules fuel (pushNew cs stack seen).1 (pushNew cs stack seen).2

/-- The visits of some names, up to the first that reaches the target. -/
def firstReached (visit : String → List String → Option (Bool × List String)) :
    List String → List String → Option (Bool × List String)
  | [], visited => some (false, visited)
  | c :: cs, visited =>
      match visit c visited with
      | some (false, visited') => firstReached visit cs visited'
      | r => r

/-- Is the target reachable? Source: `native.rs`, `reaches_target` -/
def reachesTarget (rules : List Rule) (target : String) :
    Nat → String → List String → Option (Bool × List String)
  | 0, _, _ => none
  | fuel + 1, start, visited =>
      if start = target then some (true, visited)
      else if start ∈ visited then some (false, visited)
      else
        match calleesOf rules start with
        | none => some (false, start :: visited)
        | some cs => firstReached (reachesTarget rules target fuel) cs (start :: visited)

/-- The names that the searches can meet. -/
def names (rules : List Rule) : List String :=
  rules.map (·.name) ++ rules.flatMap ruleCallees

/-- The names of rules that reach the target. Source: `native.rs`, `collect_scc_containing`,
`backward` -/
def backward (rules : List Rule) (target : String) : List String → Option (List String)
  | [] => some [target]
  | name :: rest => do
      let (found, _) ← reachesTarget rules target ((names rules).length + 1) name []
      let more ← backward rules target rest
      some (if found ∧ name ∉ more then name :: more else more)

/-- The rules that a rule reaches and that reach it, in the order of their names; `none` where the
fuel does not suffice. Source: `native.rs`, `collect_scc_containing` -/
def collectSccContaining (entry : Rule) (rules : List Rule) : Option (List String) := do
  let reached ← forwardLoop rules ((names rules).length + 2) [entry.name] [entry.name]
  let reaching ← backward rules entry.name (rules.map (·.name))
  some ((reached.filter (· ∈ reaching)).mergeSort)

/-! ## Specifications -/

/-- The calls that the searches follow. -/
def Edge (rules : List Rule) (a b : String) : Prop := ∃ cs, calleesOf rules a = some cs ∧ b ∈ cs

section specs

variable {rules : List Rule}

lemma mem_names_of_callees {a : String} {cs : List String} (h : calleesOf rules a = some cs) :
    a ∈ rules.map (·.name) ∧ ∀ b ∈ cs, b ∈ names rules := by
  obtain ⟨r, hr, rfl⟩ := Option.map_eq_some_iff.mp h
  have hmem : r ∈ rules := List.mem_reverse.mp (List.mem_of_find?_eq_some hr)
  have hname : r.name = a := by simpa using List.find?_some hr
  refine ⟨List.mem_map.mpr ⟨r, hmem, hname⟩, fun b hb => ?_⟩
  exact List.mem_append_right _ (List.mem_flatMap.mpr ⟨r, hmem, hb⟩)

lemma not_edge {a : String} (h : calleesOf rules a = none) (b : String) : ¬ Edge rules a b := by
  rintro ⟨cs, hcs, -⟩
  rw [h] at hcs
  cases hcs

lemma edge_iff {a b : String} {cs : List String} (h : calleesOf rules a = some cs) :
    Edge rules a b ↔ b ∈ cs := by
  constructor
  · rintro ⟨cs', hcs', hb⟩
    rw [h] at hcs'
    cases hcs'
    exact hb
  · exact fun hb => ⟨cs, h, hb⟩

/-- What a visit of the search for cycles establishes: a cycle that is reachable from the entry, or
that the name is finished. -/
def Visited (rules : List Rule) (entry : String) (onStack : List String) (name : String)
    (done : List String) (r : Option (Option String × List String)) : Prop :=
  (∃ w done', r = some (some w, done') ∧ Cyclic (Edge rules) entry) ∨
    ∃ done', r = some (none, done') ∧ Finished (Edge rules) done' ∧ (∀ d ∈ done, d ∈ done') ∧
      (∀ s ∈ onStack, s ∉ done') ∧ (name ∈ done' ∨ ∀ b, ¬ Edge rules name b)

/-- The visits of some names find a cycle, or finish all of them. -/
lemma firstCycle_spec {entry : String} {onStack : List String}
    {visit : String → List String → Option (Option String × List String)} {cs : List String}
    (hvisit : ∀ c ∈ cs, ∀ done, Finished (Edge rules) done → (∀ s ∈ onStack, s ∉ done) →
      Visited rules entry onStack c done (visit c done))
    {done : List String} (hdone : Finished (Edge rules) done)
    (hdisjoint : ∀ s ∈ onStack, s ∉ done) :
    (∃ w done', firstCycle visit cs done = some (some w, done') ∧ Cyclic (Edge rules) entry) ∨
      ∃ done', firstCycle visit cs done = some (none, done') ∧ Finished (Edge rules) done' ∧
        (∀ d ∈ done, d ∈ done') ∧ (∀ s ∈ onStack, s ∉ done') ∧
        ∀ c ∈ cs, c ∈ done' ∨ ∀ b, ¬ Edge rules c b := by
  induction cs generalizing done with
  | nil =>
      exact .inr ⟨done, rfl, hdone, fun _ h => h, hdisjoint, fun c hc => absurd hc List.not_mem_nil⟩
  | cons c cs ih =>
      rw [firstCycle]
      rcases hvisit c List.mem_cons_self done hdone hdisjoint with
        ⟨w, done₁, hw, hcycle⟩ | ⟨done₁, hnone, h₁, hmono₁, hdisjoint₁, hc⟩
      · exact .inl ⟨w, done₁, by rw [hw], hcycle⟩
      · rw [hnone]
        rcases ih (fun x hx => hvisit x (List.mem_cons_of_mem _ hx)) h₁ hdisjoint₁ with
          h | ⟨done₂, hrun, h₂, hmono₂, hdisjoint₂, hall⟩
        · exact .inl h
        · refine .inr ⟨done₂, hrun, h₂, fun d hd => hmono₂ d (hmono₁ d hd), hdisjoint₂, ?_⟩
          intro x hx
          rcases List.mem_cons.mp hx with rfl | hx
          · exact hc.imp_left (hmono₂ _)
          · exact hall x hx

/-- **The search for cycles**, with fuel for the names of rules that are not on the stack. -/
lemma dfsNativeCycle_spec (entry : String) {fuel : Nat} {onStack : List String} {name : String}
    {done : List String} (hstack : ∀ s ∈ onStack, TransGen (Edge rules) s name)
    (hentry : ReflTransGen (Edge rules) entry name) (hdone : Finished (Edge rules) done)
    (hdisjoint : ∀ s ∈ onStack, s ∉ done)
    (hfuel : unvisited (rules.map (·.name)) onStack < fuel) :
    Visited rules entry onStack name done (dfsNativeCycle rules fuel onStack name done) := by
  induction fuel generalizing onStack name done with
  | zero => exact absurd hfuel (Nat.not_lt_zero _)
  | succ fuel ih =>
      rw [dfsNativeCycle]
      split
      · rename_i hon
        exact .inl ⟨_, _, rfl, name, hentry, hstack name hon⟩
      rename_i hoff
      split
      · rename_i hmem
        exact .inr ⟨done, rfl, hdone, fun _ h => h, hdisjoint, .inl hmem⟩
      rename_i hnew
      rcases hcs : calleesOf rules name with _ | cs
      · exact .inr ⟨done, rfl, hdone, fun _ h => h, hdisjoint, .inr (not_edge hcs)⟩
      have hless := unvisited_cons_lt (mem_names_of_callees hcs).1 hoff
      have hvisit : ∀ c ∈ cs, ∀ done, Finished (Edge rules) done →
          (∀ s ∈ name :: onStack, s ∉ done) → Visited rules entry (name :: onStack) c done
            (dfsNativeCycle rules fuel (name :: onStack) c done) := by
        intro c hc done₁ h₁ hd₁
        have hedge : Edge rules name c := (edge_iff hcs).mpr hc
        refine ih (fun s hs => ?_) (hentry.tail hedge) h₁ hd₁ (by omega)
        rcases List.mem_cons.mp hs with rfl | hs
        · exact .single hedge
        · exact (hstack s hs).tail hedge
      have hstart : ∀ s ∈ name :: onStack, s ∉ done := by
        intro s hs
        rcases List.mem_cons.mp hs with rfl | hs
        · exact hnew
        · exact hdisjoint s hs
      rcases firstCycle_spec hvisit hdone hstart with
        ⟨w, done', hw, hcycle⟩ | ⟨done', hnone, hfin, hmono, hd', hall⟩
      · exact .inl ⟨w, done', by simp only [hw], hcycle⟩
      · refine .inr ⟨name :: done', by simp only [hnone], ?_, ?_, ?_, .inl List.mem_cons_self⟩
        · exact .cons hfin (hd' name List.mem_cons_self) fun b hb => hall b ((edge_iff hcs).mp hb)
        · exact fun d hd => List.mem_cons_of_mem _ (hmono d hd)
        · intro s hs hmem
          rcases List.mem_cons.mp hmem with rfl | hmem
          · exact hoff hs
          · exact hd' s (List.mem_cons_of_mem _ hs) hmem

/-- What a search for a target establishes: it is reachable, or what is newly visited is closed
under calls, up to what was visited before, and without the target. -/
def Searched (rules : List Rule) (target start : String) (visited : List String)
    (r : Option (Bool × List String)) : Prop :=
  (∃ visited', r = some (true, visited') ∧ ReflTransGen (Edge rules) start target) ∨
    ∃ visited', r = some (false, visited') ∧ (∀ v ∈ visited, v ∈ visited') ∧ start ∈ visited' ∧
      target ∉ visited' ∧ ∀ v ∈ visited', v ∉ visited → ∀ b, Edge rules v b → b ∈ visited'

lemma firstReached_spec {target : String}
    {visit : String → List String → Option (Bool × List String)} {cs : List String}
    {visited : List String} (htarget : target ∉ visited)
    (hvisit : ∀ c ∈ cs, ∀ visited', (∀ v ∈ visited, v ∈ visited') → target ∉ visited' →
      Searched rules target c visited' (visit c visited')) :
    (∃ visited' c, firstReached visit cs visited = some (true, visited') ∧ c ∈ cs ∧
        ReflTransGen (Edge rules) c target) ∨
      ∃ visited', firstReached visit cs visited = some (false, visited') ∧
        (∀ v ∈ visited, v ∈ visited') ∧ (∀ c ∈ cs, c ∈ visited') ∧ target ∉ visited' ∧
        ∀ v ∈ visited', v ∉ visited → ∀ b, Edge rules v b → b ∈ visited' := by
  induction cs generalizing visited with
  | nil =>
      exact .inr ⟨visited, rfl, fun _ h => h, fun c hc => absurd hc List.not_mem_nil, htarget,
        fun v hv hnew => absurd hv hnew⟩
  | cons c cs ih =>
      rw [firstReached]
      rcases hvisit c List.mem_cons_self visited (fun _ h => h) htarget with
        ⟨visited₁, hfound, hreach⟩ | ⟨visited₁, hnone, hmono₁, hstart, htarget₁, hclosed₁⟩
      · exact .inl ⟨visited₁, c, by rw [hfound], List.mem_cons_self, hreach⟩
      · rw [hnone]
        rcases ih htarget₁ (fun x hx visited' hsub => hvisit x (List.mem_cons_of_mem _ hx) visited'
          fun v hv => hsub v (hmono₁ v hv)) with
          ⟨visited₂, x, hfound, hx, hreach⟩ | ⟨visited₂, hrun, hmono₂, hall, htarget₂, hclosed₂⟩
        · exact .inl ⟨visited₂, x, hfound, List.mem_cons_of_mem _ hx, hreach⟩
        · refine .inr ⟨visited₂, hrun, fun v hv => hmono₂ v (hmono₁ v hv), ?_, htarget₂, ?_⟩
          · intro x hx
            rcases List.mem_cons.mp hx with rfl | hx
            · exact hmono₂ _ hstart
            · exact hall x hx
          · intro v hv hnew b hb
            by_cases hv₁ : v ∈ visited₁
            · exact hmono₂ b (hclosed₁ v hv₁ hnew b hb)
            · exact hclosed₂ v hv hv₁ b hb

/-- **The search for a target**, with fuel for the names that are not visited. -/
lemma reachesTarget_spec (target : String) {fuel : Nat} {start : String} {visited : List String}
    (hstart : start ∈ names rules) (htarget : target ∉ visited)
    (hfuel : unvisited (names rules) visited < fuel) :
    Searched rules target start visited (reachesTarget rules target fuel start visited) := by
  induction fuel generalizing start visited with
  | zero => exact absurd hfuel (Nat.not_lt_zero _)
  | succ fuel ih =>
      rw [reachesTarget]
      split
      · rename_i heq
        exact .inl ⟨_, rfl, heq ▸ .refl⟩
      rename_i hne
      split
      · rename_i hmem
        exact .inr ⟨visited, rfl, fun _ h => h, hmem, htarget, fun v hv hnew => absurd hv hnew⟩
      rename_i hnew
      have htarget' : target ∉ start :: visited := by
        simp only [List.mem_cons, not_or]
        exact ⟨Ne.symm hne, htarget⟩
      have hless := unvisited_cons_lt hstart hnew
      rcases hcs : calleesOf rules start with _ | cs
      · refine .inr ⟨start :: visited, rfl, fun _ h => List.mem_cons_of_mem _ h, List.mem_cons_self,
          htarget', fun v hv hnot b hb => ?_⟩
        rcases List.mem_cons.mp hv with rfl | hv
        · exact absurd hb (not_edge hcs b)
        · exact absurd hv hnot
      · simp only
        rcases firstReached_spec htarget' (fun c hc visited' hsub htarget' =>
            ih ((mem_names_of_callees hcs).2 c hc) htarget'
              (Nat.lt_of_le_of_lt (unvisited_mono hsub) (by omega))) with
          ⟨visited₁, c, hfound, hc, hreach⟩ | ⟨visited₁, hrun, hmono, hall, htarget₁, hclosed⟩
        · exact .inl ⟨visited₁, hfound, .head ((edge_iff hcs).mpr hc) hreach⟩
        · refine .inr ⟨visited₁, hrun, fun v hv => hmono v (List.mem_cons_of_mem _ hv),
            hmono _ List.mem_cons_self, htarget₁, fun v hv hnot b hb => ?_⟩
          by_cases heq : v = start
          · subst heq
            exact hall b ((edge_iff hcs).mp hb)
          · exact hclosed v hv (by simp [heq, hnot]) b hb

/-- The search from a fresh start is a decision. -/
lemma reachesTarget_iff (target : String) {start : String} (hstart : start ∈ names rules) :
    ∃ r visited, reachesTarget rules target ((names rules).length + 1) start [] =
      some (r, visited) ∧ (r = true ↔ ReflTransGen (Edge rules) start target) := by
  have hfuel : unvisited (names rules) [] < (names rules).length + 1 :=
    Nat.lt_succ_of_le (List.length_filter_le _ _)
  rcases reachesTarget_spec target hstart List.not_mem_nil hfuel with
    ⟨visited, hfound, hreach⟩ | ⟨visited, hrun, -, hmem, htarget, hclosed⟩
  · exact ⟨true, visited, hfound, iff_of_true rfl hreach⟩
  · refine ⟨false, visited, hrun, iff_of_false Bool.false_ne_true fun hreach => htarget ?_⟩
    exact mem_of_closed (fun v hv b hb => hclosed v hv List.not_mem_nil b hb) hmem hreach

lemma pushNew_spec {univ cs : List String} (stack seen : List String) (hcs : ∀ c ∈ cs, c ∈ univ) :
    (∀ v ∈ seen, v ∈ (pushNew cs stack seen).2) ∧ (∀ c ∈ cs, c ∈ (pushNew cs stack seen).2) ∧
      (∀ v ∈ (pushNew cs stack seen).2, v ∈ seen ∨ v ∈ cs) ∧
      (∀ v ∈ (pushNew cs stack seen).1, v ∈ stack ∨ v ∈ (pushNew cs stack seen).2) ∧
      (∀ v ∈ (pushNew cs stack seen).2, v ∈ seen ∨ v ∈ (pushNew cs stack seen).1) ∧
      (∀ v ∈ stack, v ∈ (pushNew cs stack seen).1) ∧
      (seen.Nodup → (pushNew cs stack seen).2.Nodup) ∧
      (pushNew cs stack seen).1.length + unvisited univ (pushNew cs stack seen).2 ≤
        stack.length + unvisited univ seen := by
  induction cs generalizing stack seen with
  | nil =>
      exact ⟨fun _ h => h, fun _ h => absurd h List.not_mem_nil, fun _ h => .inl h,
        fun _ h => .inl h, fun _ h => .inl h, fun _ h => h, id, Nat.le_refl _⟩
  | cons c cs ih =>
      have hrest := fun x hx => hcs x (List.mem_cons_of_mem c hx)
      rw [pushNew]
      split
      · rename_i hmem
        obtain ⟨h₁, h₂, h₃, h₄, h₅, h₆, h₇, h₈⟩ := ih stack seen hrest
        refine ⟨h₁, fun x hx => ?_, fun v hv => (h₃ v hv).imp_right (List.mem_cons_of_mem _), h₄,
          h₅, h₆, h₇, h₈⟩
        rcases List.mem_cons.mp hx with rfl | hx
        · exact h₁ _ hmem
        · exact h₂ x hx
      · rename_i hnew
        obtain ⟨h₁, h₂, h₃, h₄, h₅, h₆, h₇, h₈⟩ := ih (c :: stack) (c :: seen) hrest
        have hless := unvisited_cons_lt (hcs c List.mem_cons_self) hnew
        refine ⟨fun v hv => h₁ v (List.mem_cons_of_mem _ hv), fun x hx => ?_, fun v hv => ?_,
          fun v hv => ?_, fun v hv => ?_, fun v hv => h₆ v (List.mem_cons_of_mem _ hv),
          fun hnodup => h₇ (List.nodup_cons.mpr ⟨hnew, hnodup⟩), ?_⟩
        · rcases List.mem_cons.mp hx with rfl | hx
          · exact h₁ _ List.mem_cons_self
          · exact h₂ x hx
        · rcases h₃ v hv with hv | hv
          · rcases List.mem_cons.mp hv with rfl | hv
            · exact .inr List.mem_cons_self
            · exact .inl hv
          · exact .inr (List.mem_cons_of_mem _ hv)
        · rcases h₄ v hv with hv | hv
          · rcases List.mem_cons.mp hv with rfl | hv
            · exact .inr (h₁ _ List.mem_cons_self)
            · exact .inl hv
          · exact .inr hv
        · rcases h₅ v hv with hv | hv
          · rcases List.mem_cons.mp hv with rfl | hv
            · exact .inr (h₆ _ List.mem_cons_self)
            · exact .inl hv
          · exact .inr hv
        · rw [List.length_cons] at h₈
          omega

/-- **The search forward**, with fuel for the names on the stack and those that are not seen. -/
lemma forwardLoop_spec {entry : String} {fuel : Nat} (stack seen : List String)
    (hstack : ∀ v ∈ stack, v ∈ seen) (hreach : ∀ v ∈ seen, ReflTransGen (Edge rules) entry v)
    (hclosed : ∀ v ∈ seen, v ∉ stack → ∀ b, Edge rules v b → b ∈ seen) (hnodup : seen.Nodup)
    (hfuel : stack.length + unvisited (names rules) seen ≤ fuel) :
    ∃ seen', forwardLoop rules fuel stack seen = some seen' ∧ seen'.Nodup ∧
      (∀ v ∈ seen, v ∈ seen') ∧ (∀ v ∈ seen', ReflTransGen (Edge rules) entry v) ∧
      ∀ v ∈ seen', ∀ b, Edge rules v b → b ∈ seen' := by
  induction fuel generalizing stack seen with
  | zero =>
      have hnil : stack = [] := List.length_eq_zero_iff.mp (by omega)
      subst hnil
      exact ⟨seen, rfl, hnodup, fun _ h => h, hreach, fun v hv => hclosed v hv List.not_mem_nil⟩
  | succ fuel ih =>
      cases stack with
      | nil =>
          exact ⟨seen, rfl, hnodup, fun _ h => h, hreach,
            fun v hv => hclosed v hv List.not_mem_nil⟩
      | cons n stack =>
          rw [List.length_cons] at hfuel
          rw [forwardLoop]
          rcases hcs : calleesOf rules n with _ | cs
          · refine ih stack seen (fun v hv => hstack v (List.mem_cons_of_mem _ hv)) hreach
              (fun v hv hnot b hb => ?_) hnodup (by omega)
            by_cases heq : v = n
            · subst heq
              exact absurd hb (not_edge hcs b)
            · exact hclosed v hv (by simp [heq, hnot]) b hb
          · obtain ⟨h₁, h₂, h₃, h₄, h₅, h₆, h₇, h₈⟩ := pushNew_spec stack seen
              (mem_names_of_callees hcs).2
            have hn := hstack n List.mem_cons_self
            obtain ⟨seen', hrun, hnodup', hmono, hreach', hclosed'⟩ := ih
              (pushNew cs stack seen).1 (pushNew cs stack seen).2
              (fun v hv => (h₄ v hv).elim
                (fun hv => h₁ v (hstack v (List.mem_cons_of_mem _ hv))) id)
              (fun v hv => (h₃ v hv).elim (hreach v)
                fun hv => (hreach n hn).tail ((edge_iff hcs).mpr hv))
              (fun v hv hnot b hb => by
                by_cases heq : v = n
                · subst heq
                  exact h₂ b ((edge_iff hcs).mp hb)
                · have hold : v ∈ seen := (h₅ v hv).resolve_right hnot
                  have hoff : v ∉ n :: stack := by
                    simp only [List.mem_cons, not_or]
                    exact ⟨heq, fun h => hnot (h₆ v h)⟩
                  exact h₁ b (hclosed v hold hoff b hb))
              (h₇ hnodup) (by omega)
            exact ⟨seen', hrun, hnodup', fun v hv => hmono v (h₁ v hv), hreach', hclosed'⟩

/-- The names that reach the target are found. -/
lemma backward_spec (target : String) {ns : List String} (hns : ∀ n ∈ ns, n ∈ names rules) :
    ∃ found, backward rules target ns = some found ∧
      ∀ v, v ∈ found ↔ v = target ∨ (v ∈ ns ∧ ReflTransGen (Edge rules) v target) := by
  induction ns with
  | nil => exact ⟨[target], rfl, fun v => by simp⟩
  | cons n ns ih =>
      obtain ⟨more, hmore, hiff⟩ := ih fun x hx => hns x (List.mem_cons_of_mem _ hx)
      obtain ⟨r, visited, hrun, hr⟩ := reachesTarget_iff target (hns n List.mem_cons_self)
      refine ⟨_, by rw [backward, hrun, hmore]; rfl, fun v => ?_⟩
      split
      · rename_i hfound
        rw [List.mem_cons, hiff, List.mem_cons]
        have hreach := hr.mp hfound.1
        constructor
        · rintro (rfl | rfl | ⟨hv, hreach'⟩)
          · exact .inr ⟨.inl rfl, hreach⟩
          · exact .inl rfl
          · exact .inr ⟨.inr hv, hreach'⟩
        · rintro (rfl | ⟨rfl | hv, hreach'⟩)
          · exact .inr (.inl rfl)
          · exact .inl rfl
          · exact .inr (.inr ⟨hv, hreach'⟩)
      · rename_i hfound
        rw [hiff, List.mem_cons]
        constructor
        · rintro (rfl | ⟨hv, hreach⟩)
          · exact .inl rfl
          · exact .inr ⟨.inr hv, hreach⟩
        · rintro (rfl | ⟨rfl | hv, hreach⟩)
          · exact .inl rfl
          · have hmem : v ∈ more := by
              by_contra hnot
              exact hfound ⟨hr.mpr hreach, hnot⟩
            exact (hiff v).mp hmem
          · exact .inr ⟨hv, hreach⟩

end specs

/-! ## Exactness -/

/-- Is the expression a dotted path? Source: `parser.rs`, the path behind an identifier -/
def isPath : Expr → Bool
  | .ident _ => true
  | .field base _ => isPath base
  | _ => false

/-- Every field access of an expression is one of a dotted path, as the parser builds them. -/
def FieldPaths (e : Expr) : Prop :=
  ∀ b ∈ e.collect (fun | .field base _ => [isPath base] | _ => []), b = true

lemma FieldPaths.child {e c : Expr} (h : FieldPaths e) (hc : c ∈ e.children) : FieldPaths c := by
  intro b hb
  refine h b ?_
  rw [Expr.collect_eq]
  exact List.mem_append_right _ (List.mem_flatMap.mpr ⟨c, hc, hb⟩)

lemma calls_of_isPath {e : Expr} (h : isPath e = true) : e.calls = [] := by
  induction e using Expr.induction_children with
  | step e ih =>
      unfold isPath at h
      split at h
      · rfl
      · rename_i base name
        have hbase := ih base (by simp [Expr.children]) h
        rw [Expr.calls] at hbase ⊢
        rw [Expr.collect, hbase]
        rfl
      · cases h

lemma mem_attach_flatMap {α β : Type} {l : List α} {f : α → List β} {b : β} :
    (b ∈ l.attach.flatMap fun a => f a.1) ↔ ∃ a ∈ l, b ∈ f a := by
  simp [List.mem_flatMap]

/-- **Every call is found**, where the field accesses are those of paths. -/
lemma mem_collectNativeCallees {e : Expr} (h : FieldPaths e) (n : String) :
    n ∈ collectNativeCallees e ↔ n ∈ e.calls := by
  induction e using Expr.induction_children with
  | step e ih =>
      have hchildren : (∃ c ∈ e.children, n ∈ collectNativeCallees c) ↔
          ∃ c ∈ e.children, n ∈ c.calls :=
        ⟨fun ⟨c, hc, hn⟩ => ⟨c, hc, (ih c hc (h.child hc)).mp hn⟩,
          fun ⟨c, hc, hn⟩ => ⟨c, hc, (ih c hc (h.child hc)).mpr hn⟩⟩
      unfold collectNativeCallees
      split
      · rename_i base name
        have hbase : isPath base = true := h _ (by
          rw [Expr.collect]
          exact List.mem_append_left _ List.mem_cons_self)
        rw [Expr.calls, Expr.collect, ← Expr.calls, calls_of_isPath hbase]
        rfl
      · rename_i name args
        rw [List.mem_cons, mem_attach_flatMap, Expr.calls, Expr.collect_eq, List.mem_append,
          List.mem_flatMap, List.mem_singleton]
        exact or_congr_right hchildren
      · rename_i hcall
        rw [mem_attach_flatMap, hchildren, Expr.calls, Expr.collect_eq, List.mem_append,
          List.mem_flatMap]
        refine (or_iff_right ?_).symm
        split
        · exact absurd rfl (hcall _ _)
        · exact List.not_mem_nil

/-- The calls of a program: a rule, and a name that its bindings or its value call. -/
def Calls (p : Program) (a b : String) : Prop := ∃ r, ruleOf p.rules a = some r ∧ b ∈ r.deps

/-- The parser builds the field accesses of all rules. -/
def ParsedFields (p : Program) : Prop :=
  ∀ r ∈ p.rules, (∀ b ∈ r.logic.bindings, FieldPaths b.2) ∧ FieldPaths r.logic.value

/-- The searches follow the calls. -/
lemma edge_eq_calls {p : Program} (hparsed : ParsedFields p) : Edge p.rules = Calls p := by
  have hcallees : ∀ r ∈ p.rules, ∀ n, n ∈ ruleCallees r ↔ n ∈ r.deps := by
    intro r hr n
    obtain ⟨hbindings, hvalue⟩ := hparsed r hr
    rw [ruleCallees, Rule.deps, List.mem_append, List.mem_append, List.mem_flatMap,
      List.mem_flatMap, mem_collectNativeCallees hvalue]
    refine or_congr_left ⟨?_, ?_⟩
    · exact fun ⟨b, hb, hn⟩ => ⟨b, hb, (mem_collectNativeCallees (hbindings b hb) n).mp hn⟩
    · exact fun ⟨b, hb, hn⟩ => ⟨b, hb, (mem_collectNativeCallees (hbindings b hb) n).mpr hn⟩
  funext a b
  refine propext ⟨?_, ?_⟩
  · rintro ⟨cs, hcs, hb⟩
    obtain ⟨r, hr, rfl⟩ := Option.map_eq_some_iff.mp hcs
    have hmem : r ∈ p.rules := List.mem_reverse.mp (List.mem_of_find?_eq_some hr)
    exact ⟨r, hr, (hcallees r hmem b).mp hb⟩
  · rintro ⟨r, hr, hb⟩
    have hmem : r ∈ p.rules := List.mem_reverse.mp (List.mem_of_find?_eq_some hr)
    exact ⟨ruleCallees r, by rw [calleesOf, hr]; rfl, (hcallees r hmem b).mpr hb⟩

/-- **The call graph analyses are exact.** A cycle is reported exactly where one is reachable from
the rule, and where none is reported every chain of calls from the rule ends. The component has
exactly the rules that the rule reaches and that reach it, each once. -/
theorem callGraph_exact {p : Program} (hparsed : ParsedFields p) {entry : Rule}
    (hentry : entry ∈ p.rules) :
    (∃ w, detectNativeRecursion entry p.rules = some w ∧
      (w = none ↔ ¬ Cyclic (Calls p) entry.name) ∧
      (w = none → Acc (flip (Calls p)) entry.name)) ∧
    ∃ scc, collectSccContaining entry p.rules = some scc ∧ scc.Nodup ∧
      ∀ n, n ∈ scc ↔ (∃ r ∈ p.rules, r.name = n) ∧ ReflTransGen (Calls p) entry.name n ∧
        ReflTransGen (Calls p) n entry.name := by
  rw [← edge_eq_calls hparsed]
  have hname : entry.name ∈ p.rules.map (·.name) := List.mem_map.mpr ⟨entry, hentry, rfl⟩
  constructor
  · have hfuel : unvisited (p.rules.map (·.name)) [] < p.rules.length + 1 := by
      have := List.length_filter_le (· ∉ ([] : List String)) (p.rules.map (·.name))
      rw [List.length_map] at this
      exact Nat.lt_succ_of_le this
    rcases dfsNativeCycle_spec entry.name (fun s hs => absurd hs List.not_mem_nil) .refl
      .nil (fun s hs => absurd hs List.not_mem_nil) hfuel with
      ⟨w, done, hrun, hcycle⟩ | ⟨done, hrun, hdone, -, -, hmem⟩
    · refine ⟨some w, by rw [detectNativeRecursion, hrun]; rfl,
        iff_of_false (Option.some_ne_none w) (not_not_intro hcycle), fun h => ?_⟩
      cases h
    · have hacc : Acc (flip (Edge p.rules)) entry.name := by
        rcases hmem with hmem | hsink
        · exact hdone.acc hmem
        · exact .intro _ fun b hb => absurd hb (hsink b)
      exact ⟨none, by rw [detectNativeRecursion, hrun]; rfl,
        iff_of_true rfl (not_cyclic_of_acc hacc), fun _ => hacc⟩
  · have hnames : ∀ n ∈ p.rules.map (·.name), n ∈ names p.rules := fun n hn =>
      List.mem_append_left _ hn
    have hfuel : [entry.name].length + unvisited (names p.rules) [entry.name] ≤
        (names p.rules).length + 2 := by
      have := List.length_filter_le (· ∉ [entry.name]) (names p.rules)
      simp only [List.length_cons, List.length_nil, unvisited]
      omega
    obtain ⟨reached, hreached, hnodup, hstart, hreach, hclosed⟩ := forwardLoop_spec
      [entry.name] [entry.name] (fun _ h => h)
      (fun v hv => by rw [List.mem_singleton.mp hv]) (fun v hv hnot => absurd hv hnot)
      (List.nodup_cons.mpr ⟨List.not_mem_nil, List.nodup_nil⟩) hfuel
    obtain ⟨reaching, hreaching, hiff⟩ := backward_spec entry.name hnames
    refine ⟨(reached.filter (· ∈ reaching)).mergeSort,
      by rw [collectSccContaining, hreached, hreaching]; rfl, ?_, fun n => ?_⟩
    · exact (List.mergeSort_perm _ _).nodup_iff.mpr (hnodup.filter _)
    · rw [List.mem_mergeSort, List.mem_filter, decide_eq_true_eq, hiff]
      constructor
      · rintro ⟨hn, rfl | ⟨hrule, hback⟩⟩
        · exact ⟨⟨entry, hentry, rfl⟩, hreach _ hn, .refl⟩
        · exact ⟨List.mem_map.mp hrule, hreach _ hn, hback⟩
      · rintro ⟨hrule, hforth, hback⟩
        exact ⟨mem_of_closed (S := (· ∈ reached)) hclosed (hstart _ List.mem_cons_self) hforth,
          .inr ⟨List.mem_map.mpr hrule, hback⟩⟩

/-- A rule that calls another one. -/
def callingRule (name callee : String) : Rule where
  name := name
  inputName := "i"
  inputTy := .number
  outputName := "o"
  outputTy := .number
  logic := { value := .call callee [] }

/-- Two rules that call each other. -/
def loopProgram : Program := ⟨[.rule (callingRule "a" "b"), .rule (callingRule "b" "a")]⟩

lemma loopProgram_calls {name callee : String}
    (h : ruleOf loopProgram.rules name = some (callingRule name callee)) :
    Calls loopProgram name callee :=
  ⟨_, h, by simp [callingRule, Rule.deps, Expr.calls, Expr.collect]⟩

theorem callGraph_exact_loop :
    (∃ w, detectNativeRecursion (callingRule "a" "b") loopProgram.rules = some w ∧ w ≠ none) ∧
      ∃ scc, collectSccContaining (callingRule "a" "b") loopProgram.rules = some scc ∧
        "b" ∈ scc := by
  have hparsed : ParsedFields loopProgram := by
    have hcall : ∀ callee, FieldPaths (.call callee []) := fun callee b hb => absurd hb (by
      simp [Expr.collect, Expr.collectList])
    intro r hr
    have hr : r = callingRule "a" "b" ∨ r = callingRule "b" "a" := by
      simpa [loopProgram, Program.rules] using hr
    rcases hr with rfl | rfl <;> exact ⟨fun b hb => absurd hb List.not_mem_nil, hcall _⟩
  have hentry : callingRule "a" "b" ∈ loopProgram.rules := List.mem_cons_self
  have hab : Calls loopProgram "a" "b" := loopProgram_calls (by rfl)
  have hba : Calls loopProgram "b" "a" := loopProgram_calls (by rfl)
  obtain ⟨⟨w, hdetect, hcycle, -⟩, scc, hscc, -, hiff⟩ := callGraph_exact hparsed hentry
  refine ⟨⟨w, hdetect, fun hnone => ?_⟩, scc, hscc, (hiff "b").mpr ?_⟩
  · exact hcycle.mp hnone ⟨"a", .refl, .head hab (.single hba)⟩
  · exact ⟨⟨callingRule "b" "a", List.mem_cons_of_mem _ List.mem_cons_self, rfl⟩, .single hab,
      .single hba⟩

end Verbosec.Native.CallGraph
