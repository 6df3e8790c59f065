import Mathlib.Data.List.Sort
import Verbosec.Syntax

/-!
# The rules that take part in a contract

* `participatingFrom seed rules` - the names of the rules that declare a contract (`seed`), of the
  rules that call a participating rule, and of everything those call, as one growing set.
* `NumericBounds.participating`, `TextBounds.participating` - the two instances: the strict
  overflow contract and the bounded text output.
* `mem_participating_of_seed` - a rule that declares the contract takes part.
* `deps_mem_participating` - everything a participating rule calls takes part.

Source: `numeric_bounds.rs` and `text_bounds.rs`, `participating`, `active_rules`.
-/

namespace Verbosec

/-- Insertion into a sorted set of names. Source: `BTreeSet::insert` -/
def insertName (s : List String) (n : String) : List String :=
  if n ∈ s then s else s.orderedInsert (· ≤ ·) n

@[simp] lemma mem_insertName {s : List String} {n m : String} :
    m ∈ insertName s n ↔ m = n ∨ m ∈ s := by
  unfold insertName
  split
  · rename_i h
    constructor
    · exact Or.inr
    · rintro (rfl | h')
      · exact h
      · exact h'
  · exact List.mem_orderedInsert _

/-- One pass over the call edges: a rule that takes part, or calls a rule that does, brings in
itself and everything it calls. -/
def growOnce (edges : List (String × List String)) (active : List String) : List String :=
  edges.foldl (fun active edge =>
    if edge.1 ∈ active ∨ edge.2.any (· ∈ active) then
      (edge.1 :: edge.2).foldl insertName active
    else active) active

/-- Passes until the set stops growing. Every pass but the last adds a name, so as many passes as
there are names suffice. -/
def grow (edges : List (String × List String)) : Nat → List String → List String
  | 0, active => active
  | k + 1, active =>
      let next := growOnce edges active
      if next.length = active.length then next else grow edges k next

/-- The participating rules for the contracts that `seed` recognises.
Source: `numeric_bounds.rs` and `text_bounds.rs`, `participating` -/
def participatingFrom (seed : Rule → Bool) (rules : List Rule) : List String :=
  let active := ((rules.filter seed).map (·.name)).foldl insertName []
  if active = [] then active
  else
    let edges := rules.map fun r => (r.name, r.deps)
    grow edges (edges.flatMap fun e => e.1 :: e.2).length active

/-! ## Growth -/

lemma mem_foldl_insertName {m : String} (names : List String) :
    ∀ s : List String, m ∈ names.foldl insertName s ↔ m ∈ names ∨ m ∈ s := by
  induction names with
  | nil => simp
  | cons n names ih =>
      intro s
      rw [List.foldl_cons, ih, mem_insertName, List.mem_cons]
      tauto

lemma subset_growOnce (edges : List (String × List String)) :
    ∀ {active : List String} {m : String}, m ∈ active → m ∈ growOnce edges active := by
  induction edges with
  | nil => exact fun h => h
  | cons e edges ih =>
      intro active m h
      unfold growOnce at ih ⊢
      rw [List.foldl_cons]
      apply ih
      split
      · exact (mem_foldl_insertName _ _).mpr (Or.inr h)
      · exact h

lemma subset_grow (edges : List (String × List String)) (k : Nat) :
    ∀ {active : List String} {m : String}, m ∈ active → m ∈ grow edges k active := by
  induction k with
  | zero => exact fun h => h
  | succ k ih =>
      intro active m h
      unfold grow
      simp only
      split
      · exact subset_growOnce edges h
      · exact ih (subset_growOnce edges h)

/-- A rule that declares the contract takes part. -/
theorem mem_participating_of_seed {seed : Rule → Bool} {rules : List Rule} {r : Rule}
    (hr : r ∈ rules) (hs : seed r = true) : r.name ∈ participatingFrom seed rules := by
  have hmem : r.name ∈ ((rules.filter seed).map (·.name)).foldl insertName [] := by
    rw [mem_foldl_insertName]
    exact Or.inl (List.mem_map_of_mem (List.mem_filter.mpr ⟨hr, hs⟩))
  unfold participatingFrom
  simp only
  split
  · exact hmem
  · exact subset_grow _ _ hmem

/-! ## The set is closed under calls -/

/-- The set has everything that its members call. -/
def Closed (edges : List (String × List String)) (active : List String) : Prop :=
  ∀ e ∈ edges, e.1 ∈ active → ∀ n ∈ e.2, n ∈ active

lemma length_insertName_le (s : List String) (n : String) : s.length ≤ (insertName s n).length := by
  unfold insertName
  split
  · exact le_refl _
  · rw [List.orderedInsert_length]
    omega

lemma mem_of_length_insertName {s : List String} {n : String}
    (h : (insertName s n).length ≤ s.length) : n ∈ s := by
  unfold insertName at h
  split at h
  · assumption
  · rw [List.orderedInsert_length] at h
    omega

lemma nodup_insertName {s : List String} (h : s.Nodup) (n : String) : (insertName s n).Nodup := by
  unfold insertName
  split
  · exact h
  · rename_i hn
    exact (List.perm_orderedInsert _ n s).nodup_iff.mpr (List.nodup_cons.mpr ⟨hn, h⟩)

lemma length_foldl_insertName_le (names : List String) :
    ∀ s : List String, s.length ≤ (names.foldl insertName s).length := by
  induction names with
  | nil => exact fun s => le_refl _
  | cons n names ih => exact fun s => (length_insertName_le s n).trans (ih _)

/-- An insertion that adds nothing was of members. -/
lemma mem_of_length_foldl (names : List String) :
    ∀ {s : List String}, (names.foldl insertName s).length ≤ s.length → ∀ n ∈ names, n ∈ s := by
  induction names with
  | nil => simp
  | cons m names ih =>
      intro s h n hn
      rw [List.foldl_cons] at h
      have hm : m ∈ s := mem_of_length_insertName ((length_foldl_insertName_le names _).trans h)
      have hs : insertName s m = s := if_pos hm
      rw [hs] at h
      rcases List.mem_cons.mp hn with rfl | hn
      · exact hm
      · exact ih h n hn

lemma nodup_foldl_insertName (names : List String) :
    ∀ {s : List String}, s.Nodup → (names.foldl insertName s).Nodup := by
  induction names with
  | nil => exact fun h => h
  | cons n names ih => exact fun h => ih (nodup_insertName h n)

lemma length_growOnce_le (edges : List (String × List String)) :
    ∀ active : List String, active.length ≤ (growOnce edges active).length := by
  induction edges with
  | nil => exact fun active => le_refl _
  | cons e edges ih =>
      intro active
      unfold growOnce at ih ⊢
      rw [List.foldl_cons]
      refine le_trans ?_ (ih _)
      split
      · exact length_foldl_insertName_le _ _
      · exact le_refl _

lemma nodup_growOnce (edges : List (String × List String)) :
    ∀ {active : List String}, active.Nodup → (growOnce edges active).Nodup := by
  induction edges with
  | nil => exact fun h => h
  | cons e edges ih =>
      intro active h
      unfold growOnce at ih ⊢
      rw [List.foldl_cons]
      apply ih
      split
      · exact nodup_foldl_insertName _ h
      · exact h

lemma growOnce_subset (edges : List (String × List String)) {names : List String}
    (hnames : ∀ e ∈ edges, ∀ n ∈ e.1 :: e.2, n ∈ names) :
    ∀ {active : List String}, (∀ n ∈ active, n ∈ names) → ∀ n ∈ growOnce edges active, n ∈ names := by
  induction edges with
  | nil => exact fun h => h
  | cons e edges ih =>
      intro active h
      unfold growOnce at ih ⊢
      rw [List.foldl_cons]
      refine ih (fun e' he' => hnames e' (by simp [he'])) fun n hn => ?_
      split at hn
      · rcases (mem_foldl_insertName _ _).mp hn with hn | hn
        · exact hnames e (by simp) n hn
        · exact h n hn
      · exact h n hn

/-- The set has, of every rule that is in it or calls one of it, the rule and everything it calls. -/
def Full (edges : List (String × List String)) (active : List String) : Prop :=
  ∀ e ∈ edges, e.1 ∈ active ∨ e.2.any (· ∈ active) → ∀ n ∈ e.1 :: e.2, n ∈ active

lemma Full.closed {edges : List (String × List String)} {active : List String}
    (h : Full edges active) : Closed edges active :=
  fun e he hactive n hn => h e he (Or.inl hactive) n (List.mem_cons_of_mem _ hn)

/-- A rule that takes part in a set takes part in a larger one. -/
lemma takesPart_mono {active active' : List String} (h : ∀ n ∈ active, n ∈ active')
    {e : String × List String} (he : e.1 ∈ active ∨ e.2.any (· ∈ active)) :
    e.1 ∈ active' ∨ e.2.any (· ∈ active') := by
  rcases he with he | he
  · exact Or.inl (h _ he)
  · obtain ⟨n, hn, hactive⟩ := List.any_eq_true.mp he
    exact Or.inr (List.any_eq_true.mpr ⟨n, hn, decide_eq_true (h n (of_decide_eq_true hactive))⟩)

/-- A pass that adds nothing shows that the set is full. -/
lemma full_of_growOnce (edges : List (String × List String)) :
    ∀ {active : List String}, (growOnce edges active).length ≤ active.length →
      Full edges active := by
  induction edges with
  | nil => simp [Full]
  | cons e edges ih =>
      intro active h
      by_cases hin : e.1 ∈ active ∨ e.2.any (· ∈ active)
      · have hgrow : growOnce (e :: edges) active =
            growOnce edges ((e.1 :: e.2).foldl insertName active) := by
          unfold growOnce
          rw [List.foldl_cons, if_pos hin]
        rw [hgrow] at h
        have hall := mem_of_length_foldl _ ((length_growOnce_le edges _).trans h)
        have hle : (growOnce edges ((e.1 :: e.2).foldl insertName active)).length ≤
            ((e.1 :: e.2).foldl insertName active).length :=
          h.trans (length_foldl_insertName_le _ _)
        intro e' he' hactive n hn
        rcases List.mem_cons.mp he' with rfl | he'
        · exact hall n hn
        · have hlarger := takesPart_mono
            (fun m hm => (mem_foldl_insertName (e.1 :: e.2) _).mpr (Or.inr hm)) hactive
          rcases (mem_foldl_insertName _ _).mp (ih hle e' he' hlarger n hn) with hn | hn
          · exact hall n hn
          · exact hn
      · have hgrow : growOnce (e :: edges) active = growOnce edges active := by
          unfold growOnce
          rw [List.foldl_cons, if_neg hin]
        rw [hgrow] at h
        intro e' he' hactive n hn
        rcases List.mem_cons.mp he' with rfl | he'
        · exact absurd hactive hin
        · exact ih h e' he' hactive n hn

/-- As many passes as there are names make the set full. -/
lemma grow_full {edges : List (String × List String)} {names : List String}
    (hnames : ∀ e ∈ edges, ∀ n ∈ e.1 :: e.2, n ∈ names) (k : Nat) :
    ∀ {active : List String}, active.Nodup → (∀ n ∈ active, n ∈ names) →
      names.length ≤ k + active.length → Full edges (grow edges k active) := by
  induction k with
  | zero =>
      intro active hnodup hsub hlen e he _ n hn
      -- A set with as many names as there are has them all.
      have hperm := (List.subperm_of_subset hnodup hsub).perm_of_length_le (by omega)
      exact hperm.mem_iff.mpr (hnames e he n hn)
  | succ k ih =>
      intro active hnodup hsub hlen
      unfold grow
      simp only
      split
      · rename_i heq
        have hfull := full_of_growOnce edges (le_of_eq heq)
        have hsame := (List.subperm_of_subset hnodup fun m hm =>
          subset_growOnce edges hm).perm_of_length_le (le_of_eq heq)
        intro e he hactive n hn
        rw [← hsame.mem_iff]
        exact hfull e he (takesPart_mono (fun m hm => hsame.mem_iff.mpr hm) hactive) n hn
      · rename_i hne
        have := length_growOnce_le edges active
        exact ih (nodup_growOnce edges hnodup) (growOnce_subset edges hnames hsub) (by omega)

/-- The participating rules are full. -/
lemma participatingFrom_full (seed : Rule → Bool) (rules : List Rule) :
    Full (rules.map fun r => (r.name, r.deps)) (participatingFrom seed rules) := by
  unfold participatingFrom
  simp only
  split
  · rename_i hnil
    rw [hnil]
    intro e _ hactive
    simp at hactive
  · refine grow_full (fun e he n hn => List.mem_flatMap.mpr ⟨e, he, hn⟩) _
      (nodup_foldl_insertName _ List.nodup_nil) (fun n hn => ?_) (by omega)
    rcases (mem_foldl_insertName _ _).mp hn with hn | hn
    · obtain ⟨r', hr', rfl⟩ := List.mem_map.mp hn
      exact List.mem_flatMap.mpr ⟨(r'.name, r'.deps),
        List.mem_map.mpr ⟨r', (List.mem_filter.mp hr').1, rfl⟩, by simp⟩
    · cases hn

/-- Everything a participating rule calls takes part. -/
theorem deps_mem_participating {seed : Rule → Bool} {rules : List Rule} {r : Rule} (hr : r ∈ rules)
    (hactive : r.name ∈ participatingFrom seed rules) {n : String} (hn : n ∈ r.deps) :
    n ∈ participatingFrom seed rules :=
  (participatingFrom_full seed rules).closed (r.name, r.deps) (List.mem_map.mpr ⟨r, hr, rfl⟩)
    hactive n hn

/-- A full set is kept by a pass. -/
lemma growOnce_mem_full {edges : List (String × List String)} {full : List String}
    (hfull : Full edges full) : ∀ {active : List String}, (∀ n ∈ active, n ∈ full) →
      ∀ n ∈ growOnce edges active, n ∈ full := by
  induction edges with
  | nil => exact fun h => h
  | cons e edges ih =>
      intro active h
      unfold growOnce at ih ⊢
      rw [List.foldl_cons]
      refine ih (fun e' he' => hfull e' (List.mem_cons_of_mem _ he')) fun n hn => ?_
      split at hn
      · rename_i hin
        rcases (mem_foldl_insertName _ _).mp hn with hn | hn
        · exact hfull e List.mem_cons_self (takesPart_mono h hin) n hn
        · exact h n hn
      · exact h n hn

/-- A full set has what grows from its members. -/
lemma grow_mem_full {edges : List (String × List String)} {full : List String}
    (hfull : Full edges full) (k : Nat) : ∀ {active : List String}, (∀ n ∈ active, n ∈ full) →
      ∀ n ∈ grow edges k active, n ∈ full := by
  induction k with
  | zero => exact fun h => h
  | succ k ih =>
      intro active h
      unfold grow
      simp only
      split
      · exact growOnce_mem_full hfull h
      · exact ih (growOnce_mem_full hfull h)

/-- More rules take part in a larger program. -/
theorem participatingFrom_mono (seed : Rule → Bool) {rules rules' : List Rule}
    (h : ∀ r ∈ rules, r ∈ rules') :
    ∀ n ∈ participatingFrom seed rules, n ∈ participatingFrom seed rules' := by
  have hseeds : ∀ n ∈ ((rules.filter seed).map (·.name)).foldl insertName [],
      n ∈ participatingFrom seed rules' := by
    intro n hn
    rcases (mem_foldl_insertName _ _).mp hn with hn | hn
    · obtain ⟨r, hr, rfl⟩ := List.mem_map.mp hn
      obtain ⟨hr, hs⟩ := List.mem_filter.mp hr
      exact mem_participating_of_seed (h r hr) hs
    · cases hn
  have hfull : Full (rules.map fun r => (r.name, r.deps)) (participatingFrom seed rules') := by
    intro e he
    obtain ⟨r, hr, rfl⟩ := List.mem_map.mp he
    exact participatingFrom_full seed rules' _ (List.mem_map.mpr ⟨r, h r hr, rfl⟩)
  intro n hn
  unfold participatingFrom at hn
  simp only at hn
  split at hn
  · exact hseeds n hn
  · exact grow_mem_full hfull _ hseeds n hn

/-! ## The two contracts -/

namespace NumericBounds

/-- Does a rule declare a strict output interval? Source: `numeric_bounds.rs`, `has_contract` -/
def hasContract (r : Rule) : Bool := (r.hints.bind (·.overflow)).isSome

/-- The rules under the strict overflow contract. Source: `numeric_bounds.rs`, `participating` -/
def participating (rules : List Rule) : List String := participatingFrom hasContract rules

/-- The rules of a program under the strict overflow contract.
Source: `numeric_bounds.rs`, `active_rules` -/
def activeRules (p : Program) : List String := participating p.rules

end NumericBounds

namespace TextBounds

/-- The rules under the bounded text contract. Source: `text_bounds.rs`, `participating` -/
def participating (rules : List Rule) : List String :=
  participatingFrom (·.outputTextMax.isSome) rules

/-- The rules of a program under the bounded text contract.
Source: `text_bounds.rs`, `active_rules` -/
def activeRules (p : Program) : List String := participating p.rules

end TextBounds

end Verbosec
