import Verbosec.Native.StorageOverlay

/-!
# The scopes of an emitter

* `Path` - the open scopes, from the current one to the first; each ends with the branch that the
  one before it is an arm of.
* `Storage.Wf` - the invariant of the operations: the scopes are a tree, and buffers stand in them
  in the order of their reservations.
* `run_wf` - it holds after every sequence of operations.

Source: `native/bounded_text/storage.rs`, `Storage`
-/

namespace Verbosec.Native.TextStorage

open Verbosec.Lib StorageCalls

/-! ## Open scopes -/

section scopes

variable {scopes : List (List Member)} {count : Nat}

/-- The open scopes: a scope is an arm of the last branch of the next one, and the last is the first
scope of all. -/
inductive Path (scopes : List (List Member)) : List Nat → Prop
  | root : Path scopes [0]
  | arm {c p rest l r} (h : Path scopes (p :: rest))
      (hlast : (scopes.getD p []).getLast? = some (.choice l r)) (hc : c = l ∨ c = r) :
      Path scopes (c :: p :: rest)

/-- An arm belongs to one branch. -/
lemma Tree.arm_unique (h : Tree scopes count) {s s' a : Nat} {m m' : Member}
    (hm : m ∈ scopes.getD s []) (hm' : m' ∈ scopes.getD s' []) (ha : a ∈ m.arms)
    (ha' : a ∈ m'.arms) : s = s' ∧ m = m' := by
  rcases Nat.lt_trichotomy s s' with hlt | rfl | hlt
  · exact absurd ha' ((h.distinct_of_lt hlt hm hm').1 ha)
  · refine ⟨rfl, by_contra fun hne => ?_⟩
    have : Std.Symm Member.Distinct := ⟨fun _ _ => Member.Distinct.symm⟩
    exact ((h.pairwise_scope s).forall hm hm' hne).1 ha ha'
  · exact absurd ha ((h.distinct_of_lt hlt hm' hm).1 ha')

lemma Path.lt_of_mem (h : Tree scopes count) {c : Nat} {rest : List Nat}
    (hpath : Path scopes (c :: rest)) : ∀ p ∈ rest, p < c := by
  induction rest generalizing c with
  | nil => simp
  | cons p rest ih =>
      cases hpath with
      | @arm _ _ _ l r hpath hlast hc =>
          have hpc : p < c := (h.later p _ (List.mem_of_getLast? hlast) c
            (by simpa [Member.arms] using hc)).1
          refine List.forall_mem_cons.mpr ⟨hpc, fun q hq => (ih hpath q hq).trans hpc⟩

/-- A path stays one when the scopes above the current one stay. -/
lemma Path.congr {scopes' : List (List Member)} {c : Nat} {rest : List Nat}
    (hpath : Path scopes (c :: rest))
    (hsame : ∀ p ∈ rest, scopes'.getD p [] = scopes.getD p []) : Path scopes' (c :: rest) := by
  induction rest generalizing c with
  | nil =>
      cases hpath
      exact .root
  | cons p rest ih =>
      obtain ⟨hp, hrest⟩ := List.forall_mem_cons.mp hsame
      cases hpath with
      | arm hpath hlast hc => exact .arm (ih hpath hrest) (by rw [hp]; exact hlast) hc

/-- A buffer of an open scope stands under the first one. -/
lemma Path.under {c : Nat} {rest : List Nat} (hpath : Path scopes (c :: rest)) {b : Nat}
    (hb : Under scopes c b) : Under scopes 0 b := by
  induction rest generalizing c with
  | nil =>
      cases hpath
      exact hb
  | cons p rest ih =>
      cases hpath with
      | arm hpath hlast hc =>
          have hmem := List.mem_of_getLast? hlast
          rcases hc with rfl | rfl
          · exact ih hpath (.left hmem hb)
          · exact ih hpath (.right hmem hb)

/-- The scope of an open arm is open, and the branch is its last member. -/
lemma Path.parent (h : Tree scopes count) {path : List Nat} (hpath : Path scopes path) {s a : Nat}
    {m : Member} (hm : m ∈ scopes.getD s []) (ha : a ∈ m.arms) (hopen : a ∈ path) :
    ∃ c rest, path = c :: rest ∧ s ∈ rest ∧ (scopes.getD s []).getLast? = some m := by
  induction hpath with
  | root =>
      obtain rfl : a = 0 := by simpa using hopen
      exact absurd (h.later s m hm 0 ha).1 (Nat.not_lt_zero _)
  | @arm c p rest l r _ hlast hc ih =>
      rcases List.mem_cons.mp hopen with rfl | hopen
      · obtain ⟨rfl, rfl⟩ := h.arm_unique (List.mem_of_getLast? hlast) hm
          (by simpa [Member.arms] using hc) ha
        exact ⟨_, _, rfl, List.mem_cons_self, hlast⟩
      · obtain ⟨c', rest', heq, hs, hlast⟩ := ih hopen
        exact ⟨c, p :: rest, rfl, by rw [heq]; exact List.mem_cons_of_mem _ hs, hlast⟩

/-- After leaving an arm that is open. -/
lemma Path.leave (h : Tree scopes count) {a : Nat} {rest : List Nat}
    (hpath : Path scopes (a :: rest)) {s l r : Nat} (hm : .choice l r ∈ scopes.getD s [])
    (ha : a = l ∨ a = r) : ∃ rest', rest = s :: rest' ∧ Path scopes (s :: rest') ∧
      (scopes.getD s []).getLast? = some (.choice l r) := by
  have harm : a ∈ (Member.choice l r).arms := by simpa [Member.arms] using ha
  cases hpath with
  | root => exact absurd (h.later s _ hm 0 harm).1 (Nat.not_lt_zero _)
  | arm hpath hlast hc =>
      obtain ⟨rfl, heq⟩ := h.arm_unique (List.mem_of_getLast? hlast) hm
        (by simpa [Member.arms] using hc) harm
      exact ⟨_, rfl, hpath, heq ▸ hlast⟩

lemma Under.lt (h : Tree scopes count) {s b : Nat} (hb : Under scopes s b) : b < count := by
  induction hb with
  | buffer hm => exact h.reserved _ (mem_flatten_of_mem hm) _ (by simp [Member.buffers])
  | left _ _ ih => exact ih
  | right _ _ ih => exact ih

end scopes

/-! ## A member added to a scope -/

/-- A member added to the current scope, before some empty scopes. -/
def withMember (scopes : List (List Member)) (current : Nat) (m : Member) (empty : Nat) :
    List (List Member) :=
  scopes.modify current (· ++ [m]) ++ List.replicate empty []

section addMember

variable {scopes : List (List Member)} {current count empty : Nat} {m : Member}

lemma getD_addMember (hcurrent : current < scopes.length) (s : Nat) :
    (withMember scopes current m empty).getD s [] =
      if s = current then scopes.getD s [] ++ [m] else scopes.getD s [] := by
  simp only [withMember, List.getD_eq_getElem?_getD, List.getElem?_append, List.length_modify,
    List.getElem?_modify]
  by_cases hs : s < scopes.length
  · by_cases hsc : s = current
    · subst hsc
      simp [hs]
    · simp [hs, hsc, Ne.symm hsc]
  · have hsc : s ≠ current := by omega
    simp only [if_neg hs, if_neg hsc, List.getElem?_replicate]
    rw [List.getElem?_eq_none (by omega)]
    split <;> rfl

lemma mem_addMember (hcurrent : current < scopes.length) {s : Nat} {m' : Member} :
    m' ∈ (withMember scopes current m empty).getD s [] ↔
      m' ∈ scopes.getD s [] ∨ s = current ∧ m' = m := by
  rw [getD_addMember hcurrent]
  split <;> simp [*]

lemma Under.addMember (hcurrent : current < scopes.length) {s b : Nat} (hb : Under scopes s b) :
    Under (withMember scopes current m empty) s b := by
  induction hb with
  | buffer h => exact .buffer ((mem_addMember hcurrent).mpr (.inl h))
  | left h _ ih => exact .left ((mem_addMember hcurrent).mpr (.inl h)) ih
  | right h _ ih => exact .right ((mem_addMember hcurrent).mpr (.inl h)) ih

lemma perm_flatten_addMember (hcurrent : current < scopes.length) :
    (withMember scopes current m empty).flatten.Perm (m :: scopes.flatten) := by
  have hempty : (List.replicate empty ([] : List Member)).flatten = [] := by
    simp
  rw [withMember, List.flatten_append, hempty, List.append_nil]
  induction scopes generalizing current with
  | nil => simp at hcurrent
  | cons l scopes ih =>
      cases current with
      | zero =>
          simp only [List.modify_zero_cons, List.flatten_cons, List.append_assoc]
          exact List.perm_middle
      | succ current =>
          simp only [List.modify_succ_cons, List.flatten_cons]
          exact (List.Perm.append_left l (ih (by simpa using hcurrent))).trans List.perm_middle

/-- A tree stays one under a new buffer, or a branch with two new scopes. -/
lemma Tree.addMember (h : Tree scopes count) (hcurrent : current < scopes.length)
    {count' : Nat} (hcount : count ≤ count')
    (harms : ∀ a ∈ m.arms, scopes.length ≤ a ∧ a < scopes.length + empty)
    (hbuffers : ∀ b ∈ m.buffers, count ≤ b ∧ b < count') :
    Tree (withMember scopes current m empty) count' := by
  have hlen : (withMember scopes current m empty).length = scopes.length + empty := by
    simp [withMember]
  refine ⟨?_, fun s m' hm' a ha => ?_, fun m' hm' b hb => ?_⟩
  · refine ((perm_flatten_addMember hcurrent).pairwise_iff fun hab => hab.symm).mpr ?_
    refine List.pairwise_cons.mpr ⟨fun m' hm' => ⟨fun a ha ha' => ?_, fun b hb hb' => ?_⟩,
      h.distinct⟩
    · obtain ⟨l, hl, hm'⟩ := List.mem_flatten.mp hm'
      obtain ⟨s, hs, rfl⟩ := List.getElem_of_mem hl
      have hold := (h.later s m' (by rwa [List.getD_eq_getElem _ _ hs]) a ha').2
      have hnew := (harms a ha).1
      omega
    · have hold := h.reserved m' hm' b hb'
      have hnew := (hbuffers b hb).1
      omega
  · rw [hlen]
    rcases (mem_addMember hcurrent).mp hm' with hm' | ⟨rfl, rfl⟩
    · have hold := h.later s m' hm' a ha
      omega
    · have hnew := harms a ha
      omega
  · rcases List.mem_cons.mp ((perm_flatten_addMember hcurrent).mem_iff.mp hm') with rfl | hm'
    · exact (hbuffers b hb).2
    · exact (h.reserved m' hm' b hb).trans_le hcount

end addMember

/-! ## What the operations keep of the scopes -/

/-- The scopes are a tree in which every buffer stands, the open ones are a path, and the members
of a scope hold buffers in the order of their reservations. -/
structure Scoped (scopes : List (List Member)) (current count : Nat) : Prop where
  /-- the tree -/
  tree : Tree scopes count
  /-- the first scope exists -/
  pos : 0 < scopes.length
  /-- the open scopes -/
  path : ∃ rest, Path scopes (current :: rest)
  /-- every buffer stands in a scope -/
  placed : ∀ b < count, Under scopes 0 b
  /-- later members hold later buffers -/
  ordered : ∀ s, (scopes.getD s []).Pairwise fun m m' => ∀ b b', m.Holds scopes b →
    m'.Holds scopes b' → b < b'

section operations

variable {scopes : List (List Member)} {current count : Nat}

lemma Scoped.start : Scoped [[]] 0 0 := by
  have hempty : ∀ s, ([[]] : List (List Member)).getD s [] = [] := by
    rintro (_ | _) <;> rfl
  refine ⟨⟨.nil, fun s m hm => ?_, by simp⟩, Nat.one_pos, ⟨[], .root⟩, by simp, fun s => ?_⟩
  · rw [hempty] at hm
    exact absurd hm List.not_mem_nil
  · rw [hempty]
    exact .nil

lemma Scoped.current_lt (h : Scoped scopes current count) : current < scopes.length := by
  obtain ⟨rest, hpath⟩ := h.path
  cases hpath with
  | root => exact h.pos
  | arm _ hlast hc =>
      exact (h.tree.later _ _ (List.mem_of_getLast? hlast) _ (by simpa [Member.arms] using hc)).2

/-- The other open scopes keep their members. -/
lemma Path.addMember (h : Tree scopes count) (hcurrent : current < scopes.length) {rest : List Nat}
    (hpath : Path scopes (current :: rest)) (m : Member) (empty : Nat) :
    Path (withMember scopes current m empty) (current :: rest) := by
  refine hpath.congr fun p hp => ?_
  rw [getD_addMember hcurrent, if_neg (hpath.lt_of_mem h p hp).ne]

/-- A new buffer stands only in the open scopes. -/
lemma Under.of_addMember_buffer (h : Tree scopes count) (hcurrent : current < scopes.length)
    {rest : List Nat} (hpath : Path scopes (current :: rest)) {s b : Nat}
    (hb : Under (withMember scopes current (.buffer count) 0) s b) :
    Under scopes s b ∨ b = count ∧ s ∈ current :: rest := by
  have hopen : ∀ {s l r a}, .choice l r ∈ scopes.getD s [] → a = l ∨ a = r →
      a ∈ current :: rest → s ∈ current :: rest := fun {s l r a} hm ha hopen => by
    obtain ⟨c, rest', heq, hs, -⟩ := hpath.parent h hm (by simpa [Member.arms] using ha) hopen
    rw [heq]
    exact List.mem_cons_of_mem _ hs
  induction hb with
  | @buffer s b hm =>
      rcases (mem_addMember hcurrent).mp hm with hm | ⟨rfl, heq⟩
      · exact .inl (.buffer hm)
      · cases heq
        exact .inr ⟨rfl, List.mem_cons_self⟩
  | @left s l r b hm _ ih =>
      rcases (mem_addMember hcurrent).mp hm with hm | ⟨-, heq⟩
      · exact ih.imp (.left hm) fun hb => ⟨hb.1, hopen hm (.inl rfl) hb.2⟩
      · cases heq
  | @right s l r b hm _ ih =>
      rcases (mem_addMember hcurrent).mp hm with hm | ⟨-, heq⟩
      · exact ih.imp (.right hm) fun hb => ⟨hb.1, hopen hm (.inr rfl) hb.2⟩
      · cases heq

/-- An open branch is the last member of its scope, so what comes before a member holds no buffer
of an open arm. -/
lemma Path.not_open_of_lt (h : Tree scopes count) {path : List Nat} (hpath : Path scopes path)
    {s : Nat} {i j : Nat} (hij : i < j) (hj : j < (scopes.getD s []).length) {a : Nat}
    (ha : a ∈ ((scopes.getD s []).get ⟨i, hij.trans hj⟩).arms) : a ∉ path := by
  intro hopen
  obtain ⟨c, rest, -, -, hlast⟩ := hpath.parent h (List.get_mem _ _) ha hopen
  rw [List.getLast?_eq_getElem?, List.getElem?_eq_some_iff] at hlast
  obtain ⟨hlen, hlast⟩ := hlast
  have hpair := List.pairwise_iff_getElem.mp (h.pairwise_scope s) i _ (hij.trans hj) hlen (by omega)
  rw [hlast] at hpair
  exact hpair.1 ha ha

/-- A buffer reserved in the current scope. -/
lemma Scoped.reserve (h : Scoped scopes current count) :
    Scoped (withMember scopes current (.buffer count) 0) current (count + 1) := by
  obtain ⟨rest, hpath⟩ := h.path
  have hcurrent := h.current_lt
  have hsplit : ∀ {s b}, Under (withMember scopes current (.buffer count) 0) s b →
      Under scopes s b ∨ b = count ∧ s ∈ current :: rest := fun hb =>
    hb.of_addMember_buffer h.tree hcurrent hpath
  -- a member without open arms holds only old buffers
  have hold : ∀ {m : Member}, (∀ a ∈ m.arms, a ∉ current :: rest) → ∀ {b : Nat},
      m.Holds (withMember scopes current (.buffer count) 0) b → m.Holds scopes b := by
    rintro (id | ⟨l, r⟩) harms b hb
    · exact hb
    · refine hb.imp (fun hb => ?_) fun hb => ?_
      · exact (hsplit hb).resolve_right fun hb => harms l (by simp [Member.arms]) hb.2
      · exact (hsplit hb).resolve_right fun hb => harms r (by simp [Member.arms]) hb.2
  have hnew : ∀ {m : Member} {b : Nat}, m.Holds (withMember scopes current (.buffer count) 0) b →
      m.Holds scopes b ∨ b = count := by
    rintro (id | ⟨l, r⟩) b hb
    · exact .inl hb
    · rcases hb with hb | hb
      · exact (hsplit hb).imp .inl And.left
      · exact (hsplit hb).imp .inr And.left
  have hlt : ∀ {s : Nat} {m : Member}, m ∈ scopes.getD s [] → ∀ {b : Nat}, m.Holds scopes b →
      b < count := by
    intro s m hm b hb
    exact (under_iff.mpr ⟨_, hm, hb⟩).lt h.tree
  refine ⟨h.tree.addMember hcurrent (Nat.le_succ _) (by simp [Member.arms])
    (by simp [Member.buffers]), by simpa [withMember] using h.pos,
    ⟨rest, hpath.addMember h.tree hcurrent _ _⟩, fun b hb => ?_, fun s => ?_⟩
  · rcases Nat.lt_succ_iff_lt_or_eq.mp hb with hb | rfl
    · exact (h.placed b hb).addMember hcurrent
    · exact (hpath.addMember h.tree hcurrent _ _).under
        (.buffer ((mem_addMember hcurrent).mpr (.inr ⟨rfl, rfl⟩)))
  · have hscope : (scopes.getD s []).Pairwise fun m m' => ∀ b b',
        m.Holds (withMember scopes current (.buffer count) 0) b →
        m'.Holds (withMember scopes current (.buffer count) 0) b' → b < b' := by
      refine List.pairwise_iff_getElem.mpr fun i j hi hj hij b b' hb hb' => ?_
      have hbefore := hold (fun a ha => hpath.not_open_of_lt h.tree hij hj ha) hb
      rcases hnew hb' with hb' | rfl
      · exact List.pairwise_iff_getElem.mp (h.ordered s) i j hi hj hij b b' hbefore hb'
      · exact hlt (List.getElem_mem hi) hbefore
    rw [getD_addMember hcurrent]
    split
    · rename_i hs
      subst hs
      refine List.pairwise_append.mpr ⟨hscope, List.pairwise_singleton _ _, fun m hm m' hm' b b' hb
        hb' => ?_⟩
      obtain rfl := List.mem_singleton.mp hm'
      obtain rfl : b' = count := hb'
      refine hlt hm (hold (fun a ha hopen => ?_) hb)
      -- the current scope is no arm's parent on the path
      obtain ⟨c, rest', heq, hs, -⟩ := hpath.parent h.tree hm ha hopen
      obtain ⟨rfl, rfl⟩ := List.cons.inj heq
      exact Nat.lt_irrefl _ (hpath.lt_of_mem h.tree _ hs)
    · exact hscope

/-- A new branch holds no buffer. -/
lemma Under.of_addMember_choice (hcurrent : current < scopes.length) {s b : Nat}
    (hb : Under (withMember scopes current (.choice scopes.length (scopes.length + 1)) 2) s b) :
    Under scopes s b := by
  have hempty : ∀ {s b}, Under scopes s b → s < scopes.length := fun hb => by
    obtain ⟨m, hm, -⟩ := under_iff.mp hb
    exact lt_length_of_mem hm
  induction hb with
  | @buffer s b hm =>
      rcases (mem_addMember hcurrent).mp hm with hm | ⟨-, heq⟩
      · exact .buffer hm
      · cases heq
  | @left s l r b hm _ ih =>
      rcases (mem_addMember hcurrent).mp hm with hm | ⟨-, heq⟩
      · exact .left hm ih
      · cases heq
        exact absurd (hempty ih) (Nat.lt_irrefl _)
  | @right s l r b hm _ ih =>
      rcases (mem_addMember hcurrent).mp hm with hm | ⟨-, heq⟩
      · exact .right hm ih
      · cases heq
        exact absurd (hempty ih) (by omega)

/-- A branch opened in the current scope. -/
lemma Scoped.branch (h : Scoped scopes current count) :
    Scoped (withMember scopes current (.choice scopes.length (scopes.length + 1)) 2) scopes.length
      count := by
  obtain ⟨rest, hpath⟩ := h.path
  have hcurrent := h.current_lt
  have hold : ∀ {m : Member} {b : Nat},
      m.Holds (withMember scopes current (.choice scopes.length (scopes.length + 1)) 2) b →
      m.Holds scopes b := by
    rintro (id | ⟨l, r⟩) b hb
    · exact hb
    · exact hb.imp (·.of_addMember_choice hcurrent) (·.of_addMember_choice hcurrent)
  have hempty : ∀ {b}, ¬ (Member.choice scopes.length (scopes.length + 1)).Holds scopes b := by
    rintro b (hb | hb) <;> obtain ⟨m, hm, -⟩ := under_iff.mp hb <;>
      exact absurd (lt_length_of_mem hm) (by omega)
  refine ⟨h.tree.addMember hcurrent (le_refl _) (fun a ha => ?_) (by simp [Member.buffers]),
    by simp [withMember], ⟨current :: rest, .arm (r := scopes.length + 1)
      (hpath.addMember h.tree hcurrent _ _) ?_ (.inl rfl)⟩,
    fun b hb => (h.placed b hb).addMember hcurrent, fun s => ?_⟩
  · simp only [Member.arms, List.mem_cons, List.not_mem_nil, or_false] at ha
    omega
  · rw [getD_addMember hcurrent, if_pos rfl, List.getLast?_concat]
  · have hscope := (h.ordered s).imp fun {m m'} hmm' b b' hb hb' => hmm' b b' (hold hb) (hold hb')
    rw [getD_addMember hcurrent]
    split
    · refine List.pairwise_append.mpr ⟨hscope, List.pairwise_singleton _ _, fun m _ m' hm' b b' _
        hb' => ?_⟩
      obtain rfl := List.mem_singleton.mp hm'
      exact absurd (hold hb') hempty
    · exact hscope

/-- The other arm of an open branch. -/
lemma Scoped.otherwise {s l r : Nat} (h : Scoped scopes l count)
    (hm : .choice l r ∈ scopes.getD s []) : Scoped scopes r count := by
  obtain ⟨rest, hpath⟩ := h.path
  obtain ⟨rest', rfl, hpath, hlast⟩ := hpath.leave h.tree hm (.inl rfl)
  exact ⟨h.tree, h.pos, ⟨_, .arm hpath hlast (.inr rfl)⟩, h.placed, h.ordered⟩

/-- The end of an open branch. -/
lemma Scoped.endBranch {s l r : Nat} (h : Scoped scopes r count)
    (hm : .choice l r ∈ scopes.getD s []) : Scoped scopes s count := by
  obtain ⟨rest, hpath⟩ := h.path
  obtain ⟨rest', rfl, hpath, -⟩ := hpath.leave h.tree hm (.inr rfl)
  exact ⟨h.tree, h.pos, ⟨_, hpath⟩, h.placed, h.ordered⟩

end operations

/-! ## The invariant -/

/-- What the operations keep of the state: the scopes hold the buffers, whose first uses are words
in the order of their reservations, and no pointer stands twice. -/
structure Storage.Wf (s : Storage) : Prop where
  /-- the scopes -/
  nested : Scoped s.scopes s.current s.buffers.length
  /-- first uses are in order -/
  firsts : (s.buffers.map (·.first)).Pairwise (· ≤ ·)
  /-- they have passed -/
  clock : ∀ t ∈ s.buffers.map (·.first), t ≤ s.clock
  /-- the clock is a word -/
  word : s.clock ≤ maxWord
  /-- pointers are distinct -/
  keys : (s.pointers.map (·.1)).Nodup

/-- The state of an emitter is well formed, and its branches are members of their scopes. -/
structure Emitter.Wf (e : Emitter) : Prop where
  /-- the state -/
  storage : e.storage.Wf
  /-- the branches -/
  branches : ∀ b ∈ e.branches, .choice b.left b.right ∈ e.storage.scopes.getD b.parent []

/-- A well-formed state whose scopes keep the members of `s`. -/
structure Storage.Follows (s s' : Storage) : Prop where
  /-- the state -/
  wf : s'.Wf
  /-- members stay -/
  members : ∀ c, s.scopes.getD c [] ⊆ s'.scopes.getD c []

section invariant

variable {s s' : Storage}

lemma tick_eq_ok (h : s.tick = .ok s') :
    s' = { s with clock := s.clock + 1 } ∧ s.clock + 1 ≤ maxWord := by
  obtain ⟨clock, hclock, h⟩ := Except.bind_eq_ok.mp h
  cases h
  have hword : s.clock + 1 < 2 ^ 64 := by
    unfold plus at hclock
    split at hclock
    · assumption
    · cases hclock
  obtain rfl := plus_eq_ok hclock
  exact ⟨rfl, Nat.le_pred_of_lt hword⟩

lemma Storage.Wf.tick (hs : s.Wf) (h : s.tick = .ok s') : s'.Wf := by
  obtain ⟨rfl, hword⟩ := tick_eq_ok h
  exact ⟨hs.nested, hs.firsts, fun t ht => Nat.le_succ_of_le (hs.clock t ht), hword, hs.keys⟩

/-- The pointers of a state changed at a key. -/
lemma Storage.Wf.adjust (hs : s.Wf) (k : Int) (f : Pointer → Pointer) :
    Storage.Wf { s with pointers := adjust s.pointers k f } :=
  ⟨hs.nested, hs.firsts, hs.clock, hs.word, by simpa using hs.keys⟩

lemma Storage.Wf.follows (hs : s'.Wf) (h : s'.scopes = s.scopes) : s.Follows s' :=
  ⟨hs, fun _ => h ▸ List.Subset.refl _⟩

lemma Storage.Wf.pointer (hs : s.Wf) (ptr : Int) : s.Follows (s.pointer ptr) := by
  rw [Storage.pointer]
  split
  · exact hs.follows rfl
  · rename_i hnew
    refine Storage.Wf.follows ⟨hs.nested, hs.firsts, hs.clock, hs.word, ?_⟩ rfl
    have hperm := (List.perm_orderedInsert (fun e e' : Int × Pointer => e.1 ≤ e'.1) (ptr, {})
      s.pointers).map Prod.fst
    refine hperm.nodup_iff.mpr (List.nodup_cons.mpr ⟨fun hmem => hnew ?_, hs.keys⟩)
    obtain ⟨⟨_, node⟩, hnode, rfl⟩ := List.mem_map.mp hmem
    exact Dict.has_eq_true.mpr ⟨node, (Dict.lookup_eq_some_of_nodup hs.keys).mpr hnode⟩

lemma Storage.Wf.touch (hs : s.Wf) {ptr : Int} (h : s.touch ptr = .ok s') :
    s.Follows s' := by
  obtain ⟨s₁, htick, h⟩ := Except.bind_eq_ok.mp h
  split at h
  · cases h
    have hs := hs.tick htick
    obtain ⟨rfl, -⟩ := tick_eq_ok htick
    exact (hs.adjust ptr _).follows rfl
  · cases h

lemma Storage.Wf.alias (hs : s.Wf) {dest source : Int} (h : s.alias dest source = .ok s') :
    s.Follows s' := by
  unfold Storage.alias at h
  split_ifs at h
  · cases h
    exact hs.follows rfl
  · split at h
    · cases h
    · split_ifs at h
      · cases h
        exact hs.follows rfl
      · cases h
        exact (hs.adjust dest _).follows rfl

lemma Storage.Wf.reserve (hs : s.Wf) {ptr : Int} {capacity : Option Nat} {context : String}
    {address : Nat} (h : s.reserve ptr capacity context address = .ok s') : s.Follows s' := by
  unfold Storage.reserve at h
  split at h
  · cases h
  · split at h
    · cases h
    · obtain ⟨s₁, htick, h⟩ := Except.bind_eq_ok.mp h
      cases h
      have hs := hs.tick htick
      obtain ⟨rfl, -⟩ := tick_eq_ok htick
      have hscopes : s.scopes.modify s.current (· ++ [.buffer s.buffers.length]) =
          withMember s.scopes s.current (.buffer s.buffers.length) 0 := by simp [withMember]
      refine ⟨⟨?_, ?_, ?_, hs.word, by simpa using hs.keys⟩, fun c m hm => ?_⟩
      · simp only [hscopes, List.length_append, List.length_singleton]
        exact hs.nested.reserve
      · rw [List.map_append]
        exact List.pairwise_append.mpr ⟨hs.firsts, List.pairwise_singleton _ _, fun t ht t' ht' =>
          (hs.clock t ht).trans (List.mem_singleton.mp ht').ge⟩
      · rw [List.map_append]
        exact List.forall_mem_append.mpr ⟨hs.clock, fun t ht => (List.mem_singleton.mp ht).le⟩
      · simp only [hscopes]
        exact (mem_addMember hs.nested.current_lt).mpr (.inl hm)

lemma Storage.Wf.capacity (hs : s.Wf) {ptr : Int} {cap : Nat} (h : s.capacity ptr cap = .ok s') :
    s.Follows s' := by
  unfold Storage.capacity at h
  split at h
  · cases h
  · rename_i id _
    cases h
    have hfirst : (s.buffers.modify id fun buffer => { buffer with capacity := some cap }).map
        (·.first) = s.buffers.map (·.first) := by
      refine List.ext_getElem? fun i => ?_
      rw [List.getElem?_map, List.getElem?_map, List.getElem?_modify]
      rcases s.buffers[i]? with _ | b
      · rfl
      · refine congrArg some ?_
        split <;> rfl
    refine Storage.Wf.follows ⟨?_, ?_, ?_, hs.word, hs.keys⟩ rfl
    · rw [List.length_modify]
      exact hs.nested
    · rw [hfirst]
      exact hs.firsts
    · rw [hfirst]
      exact hs.clock

end invariant

/-- Every operation keeps the invariant. -/
theorem step_wf {e e' : Emitter} {op : Op} (he : e.Wf) (h : step e op = .ok e') : e'.Wf := by
  have hs := he.storage
  cases op with
  | beginCall callee =>
      obtain ⟨s, h₁, h⟩ := Except.bind_eq_ok.mp h
      cases h
      obtain ⟨s₁, htick, h₁⟩ := Except.bind_eq_ok.mp h₁
      cases h₁
      have hs := hs.tick htick
      obtain ⟨rfl, -⟩ := tick_eq_ok htick
      exact ⟨⟨hs.nested, hs.firsts, hs.clock, hs.word, hs.keys⟩, he.branches⟩
  | endCall id =>
      obtain ⟨s, h₁, h⟩ := Except.bind_eq_ok.mp h
      cases h
      unfold Storage.endCall at h₁
      split at h₁
      · obtain ⟨s₁, htick, h₁⟩ := Except.bind_eq_ok.mp h₁
        cases h₁
        have hs := hs.tick htick
        obtain ⟨rfl, -⟩ := tick_eq_ok htick
        exact ⟨⟨hs.nested, hs.firsts, hs.clock, hs.word, hs.keys⟩, he.branches⟩
      · cases h₁
  | branch =>
      cases h
      have hcurrent := hs.nested.current_lt
      refine ⟨⟨hs.nested.branch, hs.firsts, hs.clock, hs.word, hs.keys⟩, ?_⟩
      have hmem : ∀ {s : Nat} {m m' : Member},
          m' ∈ (withMember e.storage.scopes e.storage.current m 2).getD s [] ↔
            m' ∈ e.storage.scopes.getD s [] ∨ s = e.storage.current ∧ m' = m :=
        mem_addMember hcurrent
      refine List.forall_mem_append.mpr ⟨fun b hb => ?_, List.forall_mem_singleton.mpr ?_⟩
      · exact hmem.mpr (.inl (he.branches b hb))
      · exact hmem.mpr (.inr ⟨rfl, rfl⟩)
  | otherwise k =>
      simp only [step] at h
      split at h
      · cases h
      · rename_i branch hk
        obtain ⟨s, h₁, h⟩ := Except.bind_eq_ok.mp h
        cases h
        unfold Storage.otherwise at h₁
        split at h₁
        · cases h₁
        · rename_i hcurrent
          cases h₁
          have hm := he.branches branch (List.mem_of_getElem? hk)
          have hnested := hs.nested
          rw [not_not.mp hcurrent] at hnested
          exact ⟨⟨hnested.otherwise hm, hs.firsts, hs.clock, hs.word, hs.keys⟩, he.branches⟩
  | endBranch k =>
      simp only [step] at h
      split at h
      · cases h
      · rename_i branch hk
        obtain ⟨s, h₁, h⟩ := Except.bind_eq_ok.mp h
        cases h
        unfold Storage.endBranch at h₁
        split at h₁
        · cases h₁
        · rename_i hcurrent
          cases h₁
          have hm := he.branches branch (List.mem_of_getElem? hk)
          have hnested := hs.nested
          rw [not_not.mp hcurrent] at hnested
          exact ⟨⟨hnested.endBranch hm, hs.firsts, hs.clock, hs.word, hs.keys⟩, he.branches⟩
  | pointer ptr =>
      cases h
      have hfollows := hs.pointer ptr
      exact ⟨hfollows.wf, fun b hb => hfollows.members _ (he.branches b hb)⟩
  | touch ptr =>
      obtain ⟨s, h₁, h⟩ := Except.bind_eq_ok.mp h
      cases h
      have hfollows := hs.touch h₁
      exact ⟨hfollows.wf, fun b hb => hfollows.members _ (he.branches b hb)⟩
  | «alias» dest source =>
      obtain ⟨s, h₁, h⟩ := Except.bind_eq_ok.mp h
      cases h
      have hfollows := hs.alias h₁
      exact ⟨hfollows.wf, fun b hb => hfollows.members _ (he.branches b hb)⟩
  | reserve ptr capacity context address =>
      obtain ⟨s, h₁, h⟩ := Except.bind_eq_ok.mp h
      cases h
      have hfollows := hs.reserve h₁
      exact ⟨hfollows.wf, fun b hb => hfollows.members _ (he.branches b hb)⟩
  | capacity ptr cap =>
      obtain ⟨s, h₁, h⟩ := Except.bind_eq_ok.mp h
      cases h
      have hfollows := hs.capacity h₁
      exact ⟨hfollows.wf, fun b hb => hfollows.members _ (he.branches b hb)⟩

/-- From a well-formed state on, every sequence of operations keeps the invariant. -/
lemma foldlM_wf {ops : List Op} {e e' : Emitter} (he : e.Wf) (h : ops.foldlM step e = .ok e') :
    e'.Wf := by
  induction ops generalizing e with
  | nil =>
      cases h
      exact he
  | cons op ops ih =>
      obtain ⟨e₁, hstep, h⟩ := Except.bind_eq_ok.mp h
      exact ih (step_wf he hstep) h

/-- Every sequence of operations keeps the invariant. -/
theorem run_wf {ops : List Op} {e : Emitter} (h : run ops = .ok e) : e.Wf := by
  have hstart : Emitter.Wf {} :=
    ⟨⟨.start, .nil, by simp, Nat.zero_le _, List.nodup_nil⟩, by simp⟩
  exact foldlM_wf hstart h

end Verbosec.Native.TextStorage
