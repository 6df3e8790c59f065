import Verbosec.Native.StorageLayout

/-!
# The last uses of aliases

* `countSources_spec` - how often pointers may stand for each pointer.
* `Passing` - the pointers visited and those to come; those visited are no longer pending, and what
  they may stand for is used as late as they are.
* `propagate_spec` - a buffer is in use until the last use of every pointer that may stand for its
  owner.

Source: `native/bounded_text/storage.rs`, `Storage::propagate`
-/

namespace Verbosec.Native.TextStorage

open Verbosec.Lib StorageCalls

/-! ## Maps -/

/-- The number at a key, `0` without one. -/
def amount (d : Dict Int Nat) (k : Int) : Nat := (d.lookup k).getD 0

/-- The last use of a pointer, `0` without one. -/
def lastOf (d : Dict Int Pointer) (k : Int) : Nat := ((d.lookup k).map Pointer.last).getD 0

/-- What a pointer may stand for, and its buffer. -/
def shape (d : Dict Int Pointer) (k : Int) : Option (List Int × Option Nat) :=
  (d.lookup k).map fun node => (node.sources, node.buffer)

/-! ## Counts -/

lemma countSource_spec {incoming incoming' : Dict Int Nat} {source : Int}
    (h : countSource incoming source = .ok incoming') :
    incoming'.map (·.1) = incoming.map (·.1) ∧
      ∀ k, amount incoming' k = amount incoming k + [source].count k := by
  unfold countSource at h
  split at h
  · rename_i hhas
    cases h
    refine ⟨map_fst_adjust _ _ _, fun k => ?_⟩
    obtain ⟨n, hn⟩ := Dict.has_eq_true.mp hhas
    rw [amount, amount, lookup_adjust, List.count_singleton]
    by_cases hk : k = source
    · subst hk
      simp [hn]
    · simp [hk, Ne.symm hk]
  · cases h

lemma countSources_go {sources : List Int} {incoming incoming' : Dict Int Nat}
    (h : sources.foldlM countSource incoming = .ok incoming') :
    incoming'.map (·.1) = incoming.map (·.1) ∧
      ∀ k, amount incoming' k = amount incoming k + sources.count k := by
  induction sources generalizing incoming with
  | nil =>
      cases h
      exact ⟨rfl, fun k => rfl⟩
  | cons source sources ih =>
      obtain ⟨incoming₁, hfirst, h⟩ := Except.bind_eq_ok.mp h
      obtain ⟨hkeys₁, hcount₁⟩ := countSource_spec hfirst
      obtain ⟨hkeys, hcount⟩ := ih h
      refine ⟨hkeys.trans hkeys₁, fun k => ?_⟩
      rw [hcount, hcount₁, Nat.add_assoc, ← List.count_append, List.singleton_append]

/-- Every source of every pointer is counted. -/
lemma countSources_spec {pointers : Dict Int Pointer} {incoming : Dict Int Nat}
    (h : countSources pointers = .ok incoming) :
    incoming.map (·.1) = pointers.map (·.1) ∧
      ∀ k, amount incoming k = (pointers.flatMap (·.2.sources)).count k := by
  have hfold : ∀ (ps : Dict Int Pointer) (incoming incoming' : Dict Int Nat),
      ps.foldlM (fun incoming e => e.2.sources.foldlM countSource incoming) incoming =
        .ok incoming' →
      incoming'.map (·.1) = incoming.map (·.1) ∧
        ∀ k, amount incoming' k = amount incoming k + (ps.flatMap (·.2.sources)).count k := by
    intro ps
    induction ps with
    | nil =>
        intro incoming incoming' h
        cases h
        exact ⟨rfl, fun k => rfl⟩
    | cons e ps ih =>
        intro incoming incoming' h
        obtain ⟨incoming₁, hfirst, h⟩ := Except.bind_eq_ok.mp h
        obtain ⟨hkeys₁, hcount₁⟩ := countSources_go hfirst
        obtain ⟨hkeys, hcount⟩ := ih _ _ h
        refine ⟨hkeys.trans hkeys₁, fun k => ?_⟩
        rw [hcount, hcount₁, Nat.add_assoc, ← List.count_append, List.flatMap_cons]
  obtain ⟨hkeys, hcount⟩ := hfold _ _ _ h
  refine ⟨by simpa [Function.comp_def] using hkeys, fun k => ?_⟩
  have hzero : amount (pointers.map fun e => (e.1, 0)) k = 0 := by
    have hid : Function.Injective (id : Int → Int) := Function.injective_id
    have hlookup := Dict.lookup_map_entries hid (fun _ : Pointer => 0) pointers k
    simp only [id_eq] at hlookup
    rw [amount, hlookup]
    cases pointers.lookup k <;> rfl
  rw [hcount, hzero, Nat.zero_add]

/-! ## One pointer -/

/-- A use at `last` of each of the sources. -/
lemma useSources_spec {last : Nat} {sources : List Int} {p p' : Pass}
    (h : sources.foldlM (useSource last) p = .ok p') (hnodup : p.ready.Nodup)
    (hready : ∀ k ∈ p.ready, amount p.incoming k = 0) :
    p'.buffers = p.buffers ∧ shape p'.pointers = shape p.pointers ∧
      (∀ k, lastOf p'.pointers k =
        if k ∈ sources then max (lastOf p.pointers k) last else lastOf p.pointers k) ∧
      (∀ k, amount p.incoming k = amount p'.incoming k + sources.count k) ∧
      p'.ready.Nodup ∧ ∀ k ∈ p'.ready, amount p'.incoming k = 0 ∧ (k ∈ p.ready ∨ k ∈ sources) := by
  induction sources generalizing p with
  | nil =>
      cases h
      exact ⟨rfl, rfl, by simp, by simp, hnodup, fun k hk => ⟨hready k hk, .inl hk⟩⟩
  | cons source sources ih =>
      obtain ⟨p₁, hfirst, h⟩ := Except.bind_eq_ok.mp h
      unfold useSource at hfirst
      split at hfirst
      · rename_i node count hnode hcount
        cases hfirst
        have hsource : amount p.incoming source = count + 1 := by simp [amount, hcount]
        have hnew : source ∉ p.ready := fun hmem => by
          rw [hready source hmem] at hsource
          cases hsource
        have hamount : ∀ k, amount p.incoming k =
            amount (adjust p.incoming source fun _ => count) k + [source].count k := by
          intro k
          rw [amount, amount, lookup_adjust, List.count_singleton]
          by_cases hk : k = source
          · subst hk
            simp [hcount]
          · simp [hk, Ne.symm hk]
        have hlast : ∀ k, lastOf (adjust p.pointers source fun node =>
            { node with last := max node.last last }) k =
              if k = source then max (lastOf p.pointers k) last else lastOf p.pointers k := by
          intro k
          rw [lastOf, lastOf, lookup_adjust]
          by_cases hk : k = source
          · subst hk
            simp [hnode]
          · simp [hk]
        have hshape : shape (adjust p.pointers source fun node =>
            { node with last := max node.last last }) = shape p.pointers := by
          funext k
          rw [shape, shape, lookup_adjust]
          split
          · rw [Option.map_map]
            rfl
          · rfl
        have hmem : ∀ k, k ∈ (if count = 0 then p.ready.orderedInsert (· ≤ ·) source else p.ready) →
            amount (adjust p.incoming source fun _ => count) k = 0 ∧
              (k ∈ p.ready ∨ k = source) := by
          intro k hk
          split at hk
          · rename_i hzero
            rcases (List.mem_orderedInsert _).mp hk with rfl | hk
            · have := hamount k
              simp only [List.count_singleton_self] at this
              exact ⟨by omega, .inr rfl⟩
            · have := hready k hk
              have := hamount k
              exact ⟨by omega, .inl hk⟩
          · have := hready k hk
            have := hamount k
            exact ⟨by omega, .inl hk⟩
        have hnodup₁ : (if count = 0 then p.ready.orderedInsert (· ≤ ·) source
            else p.ready).Nodup := by
          split
          · exact (List.perm_orderedInsert _ _ _).nodup_iff.mpr (List.nodup_cons.mpr ⟨hnew, hnodup⟩)
          · exact hnodup
        obtain ⟨hbuffers', hshape', hlast', hamount', hnodup', hmem'⟩ :=
          ih h hnodup₁ fun k hk => (hmem k hk).1
        refine ⟨hbuffers', hshape'.trans hshape, fun k => ?_, fun k => ?_, hnodup', fun k hk => ?_⟩
        · rw [hlast', hlast]
          by_cases hk : k = source <;> by_cases hks : k ∈ sources <;> simp [hk, hks]
        · rw [hamount, hamount', Nat.add_assoc, Nat.add_comm (sources.count k), ← List.count_append,
            List.singleton_append]
        · obtain ⟨hzero, hk⟩ := hmem' k hk
          refine ⟨hzero, ?_⟩
          rcases hk with hk | hk
          · exact (hmem k hk).2.imp id fun heq => List.mem_cons.mpr (.inl heq)
          · exact .inr (List.mem_cons_of_mem _ hk)
      · cases hfirst

/-! ## Buffers -/

/-- A buffer with a later last use. -/
def Extends (b b' : Buffer) : Prop := ∃ last, b.last ≤ last ∧ b' = { b with last := last }

lemma Extends.refl (b : Buffer) : Extends b b := ⟨b.last, le_refl _, rfl⟩

lemma Extends.trans {a b c : Buffer} (h : Extends a b) (h' : Extends b c) : Extends a c := by
  obtain ⟨n, hn, rfl⟩ := h
  obtain ⟨m, hm, rfl⟩ := h'
  exact ⟨m, hn.trans hm, rfl⟩

lemma extends_trans {as bs cs : List Buffer} (h : List.Forall₂ Extends as bs)
    (h' : List.Forall₂ Extends bs cs) : List.Forall₂ Extends as cs := by
  induction h generalizing cs with
  | nil => exact h'
  | cons hab _ ih =>
      cases h' with
      | cons hbc h' => exact .cons (hab.trans hbc) (ih h')

lemma extends_modify (buffers : List Buffer) (id last : Nat) :
    List.Forall₂ Extends buffers (buffers.modify id (Buffer.extend last)) := by
  induction buffers generalizing id with
  | nil => simp
  | cons b buffers ih =>
      cases id with
      | zero => exact .cons ⟨_, le_max_left _ _, rfl⟩ (List.forall₂_same.mpr fun b _ => .refl b)
      | succ id => exact .cons (.refl b) (ih id)

lemma extends_extendOwned (node : Pointer) (buffers : List Buffer) :
    List.Forall₂ Extends buffers (node.extendOwned buffers) := by
  unfold Pointer.extendOwned
  split
  · exact extends_modify _ _ _
  · exact List.forall₂_same.mpr fun b _ => .refl b

lemma Extends.getElem? {buffers buffers' : List Buffer} (h : List.Forall₂ Extends buffers buffers')
    {id : Nat} {b' : Buffer} (hb : buffers'[id]? = some b') :
    ∃ b, buffers[id]? = some b ∧ Extends b b' := by
  obtain ⟨hid, rfl⟩ := List.getElem?_eq_some_iff.mp hb
  have hid' : id < buffers.length := h.length_eq ▸ hid
  exact ⟨_, List.getElem?_eq_getElem hid', h.get hid' hid⟩

lemma last_extendOwned {node : Pointer} {buffers : List Buffer} {id : Nat}
    (h : node.buffer = some id)
    {b : Buffer} (hb : (node.extendOwned buffers)[id]? = some b) : node.last ≤ b.last := by
  simp only [Pointer.extendOwned, h, List.getElem?_modify_eq] at hb
  obtain ⟨b, -, rfl⟩ := Option.map_eq_some_iff.mp hb
  exact le_max_right _ _

/-! ## All pointers -/

/-- The pointers of `ps` are visited, except those of `todo`. What was visited is pending no more,
and what it may stand for, and its buffer, are used as late as it is. -/
structure Passing (ps : Dict Int Pointer) (bs : List Buffer) (p : Pass)
    (done todo : List (Int × Pointer)) : Prop where
  /-- all pointers -/
  perm : ps.Perm (done ++ todo)
  /-- only last uses change -/
  shapes : shape p.pointers = shape ps
  /-- sources of pointers to come are pending -/
  pending : ∀ k, amount p.incoming k = (todo.flatMap (·.2.sources)).count k
  /-- no pointer is ready twice -/
  nodup : p.ready.Nodup
  /-- pointers that are ready are not pending and not visited -/
  ready : ∀ k ∈ p.ready, amount p.incoming k = 0 ∧ ∀ e ∈ done, e.1 ≠ k
  /-- pointers visited are not pending -/
  closed : ∀ e ∈ done, amount p.incoming e.1 = 0
  /-- what they may stand for is used later -/
  sources : ∀ e ∈ done, ∀ q ∈ e.2.sources, lastOf p.pointers e.1 ≤ lastOf p.pointers q
  /-- their buffers are used later -/
  owners : ∀ e ∈ done, ∀ id, e.2.buffer = some id → ∀ b, p.buffers[id]? = some b →
    lastOf p.pointers e.1 ≤ b.last
  /-- last uses grow -/
  grows : ∀ k, lastOf ps k ≤ lastOf p.pointers k
  /-- last uses of buffers grow -/
  buffers : List.Forall₂ Extends bs p.buffers

/-- Visiting a pointer that is ready. -/
lemma Passing.step {ps : Dict Int Pointer} {bs : List Buffer} {p p' : Pass}
    {done todo : List (Int × Pointer)} (h : Passing ps bs p done todo) {ptr : Int}
    {ready : List Int}
    (hready : p.ready = ptr :: ready) {node : Pointer} (hnode : p.pointers.lookup ptr = some node)
    (hfold : node.sources.foldlM (useSource node.last)
      { p with buffers := node.extendOwned p.buffers, ready := ready } = .ok p') :
    ∃ done' todo', Passing ps bs p' done' todo' ∧ done'.length = done.length + 1 := by
  obtain ⟨hptr, hnodup⟩ := List.nodup_cons.mp (hready ▸ h.nodup)
  obtain ⟨hzero, hundone⟩ := h.ready ptr (hready ▸ List.mem_cons_self)
  obtain ⟨hbuffers, hshape, hlast, hamount, hnodup', hready'⟩ := useSources_spec hfold hnodup
    fun k hk => (h.ready k (hready ▸ List.mem_cons_of_mem _ hk)).1
  dsimp only at hbuffers hshape hlast hamount
  -- the entry that is visited
  obtain ⟨node₀, hnode₀, hsame⟩ : ∃ node₀, ps.lookup ptr = some node₀ ∧
      node₀.sources = node.sources ∧ node₀.buffer = node.buffer := by
    have hshapes := congrFun h.shapes ptr
    rw [shape, shape, hnode, Option.map_some, eq_comm, Option.map_eq_some_iff] at hshapes
    obtain ⟨node₀, hnode₀, hsame⟩ := hshapes
    exact ⟨node₀, hnode₀, Prod.mk.inj hsame⟩
  obtain ⟨hsources, hbuffer⟩ := hsame
  have hmem : (ptr, node₀) ∈ todo :=
    (List.mem_append.mp (h.perm.mem_iff.mp (Dict.mem_of_lookup hnode₀))).resolve_left
      fun hdone => hundone _ hdone rfl
  obtain ⟨todo₁, todo₂, rfl⟩ := List.append_of_mem hmem
  have hperm : (todo₁ ++ (ptr, node₀) :: todo₂).Perm ((ptr, node₀) :: (todo₁ ++ todo₂)) :=
    List.perm_middle
  -- sources are pending before the visit, so they are neither the pointer nor visited
  have hpending : ∀ k ∈ node.sources, amount p.incoming k ≠ 0 := fun k hk hk0 => by
    have := List.count_pos_iff.mpr hk
    have := hamount k
    omega
  have hself : ptr ∉ node.sources := fun hk => hpending _ hk hzero
  have hdone : ∀ e ∈ done, e.1 ∉ node.sources := fun e he hk => hpending _ hk (h.closed e he)
  have hle : ∀ k, lastOf p.pointers k ≤ lastOf p'.pointers k := fun k => by
    rw [hlast]
    split
    · exact le_max_left _ _
    · exact le_refl _
  have hlastptr : lastOf p.pointers ptr = node.last := by simp [lastOf, hnode]
  refine ⟨(ptr, node₀) :: done, todo₁ ++ todo₂, ⟨?_, hshape.trans h.shapes, fun k => ?_, hnodup',
    fun k hk => ?_, ?_, ?_, ?_, fun k => (h.grows k).trans (hle k), ?_⟩, rfl⟩
  · exact h.perm.trans ((List.Perm.append_left _ hperm).trans List.perm_middle)
  · have hcount := ((hperm.flatMap_right (·.2.sources)).count_eq k).symm.trans
      (h.pending k).symm
    rw [List.flatMap_cons, List.count_append, hamount k] at hcount
    simp only [hsources] at hcount
    omega
  · obtain ⟨hk0, hk⟩ := hready' k hk
    refine ⟨hk0, List.forall_mem_cons.mpr ?_⟩
    rcases hk with hk | hk
    · exact ⟨fun heq => hptr ((show ptr = k from heq) ▸ hk),
        (h.ready k (hready ▸ List.mem_cons_of_mem _ hk)).2⟩
    · exact ⟨fun heq => hself ((show ptr = k from heq) ▸ hk), fun e he heq => hdone e he (heq ▸ hk)⟩
  · refine List.forall_mem_cons.mpr ⟨?_, fun e he => ?_⟩
    · have := hamount ptr
      dsimp only
      omega
    · have := hamount e.1
      have := h.closed e he
      omega
  · refine List.forall_mem_cons.mpr ⟨fun q hq => ?_, fun e he q hq => ?_⟩
    · dsimp only at hq ⊢
      rw [hsources] at hq
      rw [hlast ptr, if_neg hself, hlast q, if_pos hq, hlastptr]
      exact le_max_right _ _
    · rw [hlast e.1, if_neg (hdone e he)]
      exact (h.sources e he q hq).trans (hle q)
  · rw [hbuffers]
    refine List.forall_mem_cons.mpr ⟨fun id hid b hb => ?_, fun e he id hid b hb => ?_⟩
    · dsimp only at hid ⊢
      rw [hlast ptr, if_neg hself, hlastptr]
      exact last_extendOwned (hbuffer.symm.trans hid) hb
    · obtain ⟨b₀, hb₀, last, hle, rfl⟩ := Extends.getElem? (extends_extendOwned _ _) hb
      rw [hlast e.1, if_neg (hdone e he)]
      exact (h.owners e he id hid b₀ hb₀).trans hle
  · rw [hbuffers]
    exact extends_trans h.buffers (extends_extendOwned _ _)

/-- The loop visits as many pointers as it counts. -/
lemma propagateFrom_spec {ps : Dict Int Pointer} {bs : List Buffer} {fuel visited visited' : Nat}
    {p p' : Pass} {done todo : List (Int × Pointer)} (h : Passing ps bs p done todo)
    (hvisited : done.length = visited)
    (hloop : propagateFrom fuel p visited = .ok (p', visited')) :
    ∃ done' todo', Passing ps bs p' done' todo' ∧ done'.length = visited' := by
  induction fuel generalizing p visited done todo with
  | zero =>
      cases hloop
      exact ⟨done, todo, h, hvisited⟩
  | succ fuel ih =>
      rw [propagateFrom] at hloop
      split at hloop
      · cases hloop
        exact ⟨done, todo, h, hvisited⟩
      · rename_i ptr ready hready
        split at hloop
        · cases hloop
        · rename_i node hnode
          obtain ⟨p₁, hfold, hloop⟩ := Except.bind_eq_ok.mp hloop
          obtain ⟨done', todo', h', hlen⟩ := h.step hready hnode hfold
          exact ih h' (by omega) hloop

/-- A pointer may stand for another one. -/
def Storage.Aliases (s : Storage) (p q : Int) : Prop :=
  ∃ node, s.pointers.lookup p = some node ∧ q ∈ node.sources

/-- **Propagation**: only last uses change, and a buffer is in use until the last use of every
pointer that may stand for its owner. -/
theorem propagate_spec {s s' : Storage} (hkeys : (s.pointers.map (·.1)).Nodup)
    (h : s.propagate = .ok s') :
    s'.scopes = s.scopes ∧ List.Forall₂ Extends s.buffers s'.buffers ∧
      ∀ p q node owner id b, Relation.ReflTransGen s.Aliases p q → s.pointers.lookup p = some node →
        s.pointers.lookup q = some owner → owner.buffer = some id → s'.buffers[id]? = some b →
        node.last ≤ b.last := by
  obtain ⟨incoming, hcount, h⟩ := Except.bind_eq_ok.mp h
  obtain ⟨⟨pass, visited⟩, hloop, h⟩ := Except.bind_eq_ok.mp h
  dsimp only at h
  split at h
  · cases h
  · rename_i hvisited
    cases h
    obtain ⟨hkeys', hamount⟩ := countSources_spec hcount
    have hnodup : (incoming.map (·.1)).Nodup := hkeys' ▸ hkeys
    have hstart : Passing s.pointers s.buffers
        ⟨s.pointers, s.buffers, incoming, (incoming.filter (·.2 = 0)).map (·.1)⟩ [] s.pointers := by
      refine ⟨.refl _, rfl, hamount, ?_, fun k hk => ⟨?_, by simp⟩, by simp, by simp, by simp,
        fun k => le_refl _, List.forall₂_same.mpr fun b _ => .refl b⟩
      · exact hnodup.sublist (List.filter_sublist.map _)
      · obtain ⟨⟨k, n⟩, hkn, rfl⟩ := List.mem_map.mp hk
        obtain ⟨hmem, hzero⟩ := List.mem_filter.mp hkn
        obtain rfl : n = 0 := by simpa using hzero
        rw [amount, (Dict.lookup_eq_some_of_nodup hnodup).mpr hmem]
        rfl
    obtain ⟨done, todo, hpass, hlen⟩ := propagateFrom_spec hstart rfl hloop
    -- every pointer was visited
    have hall : ∀ e ∈ s.pointers, e ∈ done := by
      have hlength := hpass.perm.length_eq
      rw [List.length_append] at hlength
      have htodo : todo = [] := List.length_eq_zero_iff.mp (by omega)
      intro e he
      simpa [htodo] using hpass.perm.mem_iff.mp he
    refine ⟨rfl, hpass.buffers, fun p q node owner id b hpath hp hq hid hb => ?_⟩
    have hnode : node.last ≤ lastOf pass.pointers p := by
      have hgrows := hpass.grows p
      simpa [lastOf, hp] using hgrows
    have hchain : lastOf pass.pointers p ≤ lastOf pass.pointers q := by
      clear hq
      induction hpath with
      | refl => exact le_refl _
      | tail _ hstep ih =>
          obtain ⟨middle, hmiddle, hmem⟩ := hstep
          exact ih.trans (hpass.sources _ (hall _ (Dict.mem_of_lookup hmiddle)) _ hmem)
    exact hnode.trans (hchain.trans
      (hpass.owners _ (hall _ (Dict.mem_of_lookup hq)) id hid b hb))

end Verbosec.Native.TextStorage
