import Verbosec.Native.Storage
import Verbosec.Native.StoragePlace

/-!
# Placement with shared branches

* `overlay` - every scope is placed by itself, from the last to the first, a branch as one region
  for both arms; then the starts are summed from the first scope on.
* `Under`, `Opposite` - the buffers of a scope and its branches, and those of two arms.
* `Tree` - every scope but the first is one arm of one branch, every buffer stands in one scope.
* `overlay_spec` - buffers in use at one time are disjoint unless they stand in opposite arms.

Source: `native/bounded_text/storage.rs`, `Storage::overlay`
-/

namespace Verbosec.Native.TextStorage

open Verbosec.Lib StorageCalls

/-! ## Regions -/

/-- The greatest word. Source: `usize::MAX` -/
def maxWord : Nat := 2 ^ 64 - 1

/-- The region of a scope that has not been placed.
Source: `native/bounded_text/storage.rs`, `Storage::overlay` -/
def noRegion : Interval := ⟨0, maxWord, 0⟩

/-- The interval of a member: a buffer, or both arms of a branch.
Source: `native/bounded_text/storage.rs`, `Storage::overlay` -/
def memberInterval (buffers regions : List Interval) : Member → Interval
  | .buffer id => buffers.getD id noRegion
  | .choice left right =>
      let l := regions.getD left noRegion
      let r := regions.getD right noRegion
      ⟨max l.size r.size, min l.first r.first, max l.last r.last⟩

/-- The region of placed members. Source: `native/bounded_text/storage.rs`, `Storage::overlay` -/
def regionOf (size : Nat) (members : List Interval) : Interval :=
  ⟨size, (members.map Interval.first).min?.getD maxWord,
    (members.map Interval.last).max?.getD 0⟩

/-- The regions and the offsets of the scopes below `n`, from the last to the first.
Source: `native/bounded_text/storage.rs`, `Storage::overlay` -/
def placeScopes (scopes : List (List Member)) (buffers : List Interval) :
    Nat → List Interval × List (List Nat) → Except Failure (List Interval × List (List Nat))
  | 0, placed => .ok placed
  | id + 1, (regions, offsets) => do
      let members := (scopes.getD id []).map (memberInterval buffers regions)
      let (size, starts) ← place members
      placeScopes scopes buffers id (regions.set id (regionOf size members), offsets.set id starts)

/-! ## Starts -/

/-- The starts of the scopes and of the buffers.
Source: `native/bounded_text/storage.rs`, `Storage::overlay` -/
structure Starts where
  /-- by scope -/
  bases : List Nat
  /-- by buffer -/
  starts : List Nat
  deriving DecidableEq, Repr

/-- A member with its scope and its offset there. -/
structure Entry where
  /-- the scope -/
  scope : Nat
  /-- a member of it -/
  member : Member
  /-- its offset -/
  offset : Nat
  deriving DecidableEq, Repr

/-- The members of all scopes in order.
Source: `native/bounded_text/storage.rs`, `Storage::overlay` -/
def entries (scopes : List (List Member)) (offsets : List (List Nat)) : List Entry :=
  (List.range scopes.length).flatMap fun id =>
    ((scopes.getD id []).zip (offsets.getD id [])).map fun p => ⟨id, p.1, p.2⟩

/-- The start of a member entered: that of a buffer, or of both arms of a branch.
Source: `native/bounded_text/storage.rs`, `Storage::overlay` -/
def Starts.enter (s : Starts) (start : Nat) : Member → Starts
  | .buffer id => { s with starts := s.starts.set id start }
  | .choice left right => { s with bases := (s.bases.set left start).set right start }

/-- The start of a member is that of its scope and its offset.
Source: `native/bounded_text/storage.rs`, `Storage::overlay` -/
def assign : List Entry → Starts → Except Failure Starts
  | [], s => .ok s
  | e :: rest, s => do
      let start ← plus (error "branch placement overflow") (s.bases.getD e.scope 0) e.offset
      assign rest (s.enter start e.member)

/-- The extent and the starts of the buffers.
Source: `native/bounded_text/storage.rs`, `Storage::overlay` -/
def overlay (scopes : List (List Member)) (buffers : List Interval) :
    Except Failure (Nat × List Nat) := do
  let (regions, offsets) ← placeScopes scopes buffers scopes.length
    (List.replicate scopes.length noRegion, List.replicate scopes.length [])
  let s ← assign (entries scopes offsets)
    ⟨List.replicate scopes.length 0, List.replicate buffers.length 0⟩
  .ok ((regions.getD 0 noRegion).size, s.starts)

/-! ## Scopes -/

/-- The scopes of the arms of a member. -/
def Member.arms : Member → List Nat
  | buffer _ => []
  | choice left right => [left, right]

/-- The buffers that are a member. -/
def Member.buffers : Member → List Nat
  | buffer id => [id]
  | choice _ _ => []

/-- Two members share no arm and no buffer. -/
def Member.Distinct (m m' : Member) : Prop :=
  m.arms.Disjoint m'.arms ∧ m.buffers.Disjoint m'.buffers

lemma Member.Distinct.symm {m m' : Member} (h : m.Distinct m') : m'.Distinct m :=
  ⟨h.1.symm, h.2.symm⟩

/-- A buffer stands in a scope or in an arm of a branch of it. -/
inductive Under (scopes : List (List Member)) : Nat → Nat → Prop
  | buffer {s b} (h : .buffer b ∈ scopes.getD s []) : Under scopes s b
  | left {s l r b} (h : .choice l r ∈ scopes.getD s []) (hb : Under scopes l b) : Under scopes s b
  | right {s l r b} (h : .choice l r ∈ scopes.getD s []) (hb : Under scopes r b) : Under scopes s b

/-- A buffer is a member or stands in an arm of it. -/
def Member.Holds (scopes : List (List Member)) : Member → Nat → Prop
  | buffer id, b => b = id
  | choice l r, b => Under scopes l b ∨ Under scopes r b

lemma under_iff {scopes : List (List Member)} {s b : Nat} :
    Under scopes s b ↔ ∃ m ∈ scopes.getD s [], m.Holds scopes b := by
  constructor
  · rintro (h | ⟨h, hb⟩ | ⟨h, hb⟩)
    exacts [⟨_, h, rfl⟩, ⟨_, h, .inl hb⟩, ⟨_, h, .inr hb⟩]
  · rintro ⟨m | ⟨l, r⟩, hm, hb⟩
    · obtain rfl : b = m := hb
      exact .buffer hm
    · exact hb.elim (.left hm) (.right hm)

/-- Two buffers stand in opposite arms of one branch. -/
def Opposite (scopes : List (List Member)) (b b' : Nat) : Prop :=
  ∃ s l r, .choice l r ∈ scopes.getD s [] ∧
    (Under scopes l b ∧ Under scopes r b' ∨ Under scopes r b ∧ Under scopes l b')

/-- The scopes are a tree over `count` buffers: members share nothing, and the arms of a branch are
later scopes. -/
structure Tree (scopes : List (List Member)) (count : Nat) : Prop where
  /-- no buffer and no scope stands twice -/
  distinct : scopes.flatten.Pairwise Member.Distinct
  /-- arms come after their scope -/
  later : ∀ s, ∀ m ∈ scopes.getD s [], ∀ a ∈ m.arms, s < a ∧ a < scopes.length
  /-- buffers are reserved -/
  reserved : ∀ m ∈ scopes.flatten, ∀ b ∈ m.buffers, b < count

lemma Tree.distinct_of_lt {scopes : List (List Member)} {count : Nat} (h : Tree scopes count)
    {s s' : Nat} (hlt : s < s') {m m' : Member} (hm : m ∈ scopes.getD s [])
    (hm' : m' ∈ scopes.getD s' []) : m.Distinct m' := by
  have hacross := List.pairwise_iff_getElem.mp (List.pairwise_flatten.mp h.distinct).2
  have hs' : s' < scopes.length := by
    by_contra hge
    rw [List.getD_eq_default _ _ (Nat.le_of_not_lt hge)] at hm'
    exact absurd hm' List.not_mem_nil
  have hs : s < scopes.length := hlt.trans hs'
  rw [List.getD_eq_getElem _ _ hs] at hm
  rw [List.getD_eq_getElem _ _ hs'] at hm'
  exact hacross s s' hs hs' hlt m hm m' hm'

lemma Tree.pairwise_scope {scopes : List (List Member)} {count : Nat} (h : Tree scopes count)
    (s : Nat) : (scopes.getD s []).Pairwise Member.Distinct := by
  by_cases hs : s < scopes.length
  · rw [List.getD_eq_getElem _ _ hs]
    exact (List.pairwise_flatten.mp h.distinct).1 _ (List.getElem_mem hs)
  · rw [List.getD_eq_default _ _ (Nat.le_of_not_lt hs)]
    exact .nil

lemma mem_flatten_of_mem {scopes : List (List Member)} {s : Nat} {m : Member}
    (h : m ∈ scopes.getD s []) : m ∈ scopes.flatten := by
  by_cases hs : s < scopes.length
  · rw [List.getD_eq_getElem _ _ hs] at h
    exact List.mem_flatten_of_mem (List.getElem_mem hs) h
  · rw [List.getD_eq_default _ _ (Nat.le_of_not_lt hs)] at h
    exact absurd h List.not_mem_nil

/-! ## The loops of the placement -/

section lists

variable {α : Type}

lemma getD_set_self {l : List α} {i : Nat} (h : i < l.length) (a d : α) :
    (l.set i a).getD i d = a := by
  simp [List.getD_eq_getElem?_getD, h]

lemma getD_set_of_ne {i j : Nat} (h : i ≠ j) (l : List α) (a d : α) :
    (l.set i a).getD j d = l.getD j d := by
  simp [List.getD_eq_getElem?_getD, h]

lemma pairwise_zip {β : Type} {R : α → α → Prop} {l : List α} (h : l.Pairwise R) (l' : List β) :
    (l.zip l').Pairwise fun p q => R p.1 q.1 := by
  induction l generalizing l' with
  | nil => exact .nil
  | cons a l ih =>
      obtain ⟨ha, h⟩ := List.pairwise_cons.mp h
      cases l' with
      | nil => exact .nil
      | cons b l' =>
          exact List.pairwise_cons.mpr ⟨fun p hp => ha p.1 (List.of_mem_zip hp).1, ih h l'⟩

end lists

section placement

variable {scopes : List (List Member)} {buffers : List Interval}

/-- A scope is placed by the regions of later scopes. -/
def ScopePlaced (scopes : List (List Member)) (buffers regions : List Interval)
    (offsets : List (List Nat)) (s : Nat) : Prop :=
  ∃ size, place ((scopes.getD s []).map (memberInterval buffers regions)) =
      .ok (size, offsets.getD s []) ∧
    regions.getD s noRegion =
      regionOf size ((scopes.getD s []).map (memberInterval buffers regions))

lemma memberInterval_set {m : Member} {n : Nat} (h : n ∉ m.arms) (regions : List Interval)
    (r : Interval) :
    memberInterval buffers (regions.set n r) m = memberInterval buffers regions m := by
  cases m with
  | buffer id => rfl
  | choice left right =>
      simp only [Member.arms, List.mem_cons, List.not_mem_nil, or_false, not_or] at h
      simp only [memberInterval, getD_set_of_ne h.1, getD_set_of_ne h.2]

/-- Placing one more scope leaves the later ones as they are. -/
lemma scopePlaced_set {count : Nat} (htree : Tree scopes count) {regions : List Interval}
    {n s : Nat} (hns : n ≤ s) (r : Interval) :
    (scopes.getD s []).map (memberInterval buffers (regions.set n r)) =
      (scopes.getD s []).map (memberInterval buffers regions) := by
  refine List.map_congr_left fun m hm => memberInterval_set (fun hn => ?_) _ _
  have := (htree.later s m hm n hn).1
  omega

/-- In the end every scope is placed. -/
lemma placeScopes_spec {count : Nat} (htree : Tree scopes count) {n : Nat}
    {regions regions' : List Interval} {offsets offsets' : List (List Nat)}
    (hr : regions.length = scopes.length)
    (ho : offsets.length = scopes.length) (hn : n ≤ scopes.length)
    (hplaced : ∀ s, n ≤ s → s < scopes.length → ScopePlaced scopes buffers regions offsets s)
    (h : placeScopes scopes buffers n (regions, offsets) = .ok (regions', offsets')) :
    regions'.length = scopes.length ∧
      ∀ s, s < scopes.length → ScopePlaced scopes buffers regions' offsets' s := by
  induction n generalizing regions offsets with
  | zero =>
      cases h
      exact ⟨hr, fun s hs => hplaced s (Nat.zero_le s) hs⟩
  | succ n ih =>
      obtain ⟨⟨size, starts⟩, hplace, h⟩ := Except.bind_eq_ok.mp h
      refine ih (by simpa using hr) (by simpa using ho) (by omega) (fun s hns hs => ?_) h
      unfold ScopePlaced
      rw [scopePlaced_set htree hns]
      by_cases hsn : n = s
      · subst hsn
        exact ⟨size, by rw [getD_set_self (by omega)]; exact hplace, getD_set_self (by omega) _ _⟩
      · rw [getD_set_of_ne hsn, getD_set_of_ne hsn]
        exact hplaced s (by omega) hs

lemma bases_enter {s : Starts} {m : Member} {start k : Nat} (h : k ∉ m.arms) :
    (s.enter start m).bases.getD k 0 = s.bases.getD k 0 := by
  cases m with
  | buffer id => rfl
  | choice left right =>
      simp only [Member.arms, List.mem_cons, List.not_mem_nil, or_false, not_or] at h
      simp only [Starts.enter, getD_set_of_ne (Ne.symm h.1), getD_set_of_ne (Ne.symm h.2)]

lemma bases_enter_self {s : Starts} {m : Member} {start k : Nat} (h : k ∈ m.arms)
    (hlen : ∀ a ∈ m.arms, a < s.bases.length) : (s.enter start m).bases.getD k 0 = start := by
  cases m with
  | buffer id => exact absurd h List.not_mem_nil
  | choice left right =>
      have hl := hlen left (by simp [Member.arms])
      have hr := hlen right (by simp [Member.arms])
      simp only [Starts.enter]
      by_cases hk : right = k
      · subst hk
        rw [getD_set_self (by simpa using hr)]
      · have hkl : k = left := by simpa [Member.arms, Ne.symm hk] using h
        subst hkl
        rw [getD_set_of_ne hk, getD_set_self hl]

lemma starts_enter {s : Starts} {m : Member} {start k : Nat} (h : k ∉ m.buffers) :
    (s.enter start m).starts.getD k 0 = s.starts.getD k 0 := by
  cases m with
  | buffer id => exact getD_set_of_ne (by simpa [Member.buffers, eq_comm] using h) _ _ _
  | choice left right => rfl

lemma starts_enter_self {s : Starts} {m : Member} {start k : Nat} (h : k ∈ m.buffers)
    (hlen : ∀ b ∈ m.buffers, b < s.starts.length) : (s.enter start m).starts.getD k 0 = start := by
  cases m with
  | buffer id =>
      obtain rfl : k = id := by simpa [Member.buffers] using h
      exact getD_set_self (hlen k h) _ _
  | choice left right => exact absurd h List.not_mem_nil

@[simp] lemma length_bases_enter (s : Starts) (start : Nat) (m : Member) :
    (s.enter start m).bases.length = s.bases.length := by
  cases m <;> simp [Starts.enter]

@[simp] lemma length_starts_enter (s : Starts) (start : Nat) (m : Member) :
    (s.enter start m).starts.length = s.starts.length := by
  cases m <;> simp [Starts.enter]

/-- An entry can be assigned: its arms and buffers exist, and its scope is none of its arms. -/
structure Entry.Valid (e : Entry) (s : Starts) : Prop where
  /-- the scope stays -/
  scope : e.scope ∉ e.member.arms
  /-- the arms exist -/
  arms : ∀ a ∈ e.member.arms, a < s.bases.length
  /-- the buffers exist -/
  buffers : ∀ b ∈ e.member.buffers, b < s.starts.length

/-- The arms and the buffers of an entry start where its scope and its offset say. -/
def Entry.Assigned (e : Entry) (s : Starts) : Prop :=
  (∀ a ∈ e.member.arms, s.bases.getD a 0 = s.bases.getD e.scope 0 + e.offset) ∧
    ∀ b ∈ e.member.buffers, s.starts.getD b 0 = s.bases.getD e.scope 0 + e.offset

/-- Every entry is assigned in the end: what later entries change is none of its own. -/
lemma assign_spec {es : List Entry} {s s' : Starts}
    (hdistinct : es.Pairwise fun e e' => e.member.Distinct e'.member ∧ e.scope ∉ e'.member.arms)
    (hvalid : ∀ e ∈ es, e.Valid s) (h : assign es s = .ok s') :
    (∀ k, (∀ e ∈ es, k ∉ e.member.arms) → s'.bases.getD k 0 = s.bases.getD k 0) ∧
      (∀ k, (∀ e ∈ es, k ∉ e.member.buffers) → s'.starts.getD k 0 = s.starts.getD k 0) ∧
      s'.starts.length = s.starts.length ∧ ∀ e ∈ es, e.Assigned s' := by
  induction es generalizing s with
  | nil =>
      cases h
      exact ⟨fun _ _ => rfl, fun _ _ => rfl, rfl, by simp⟩
  | cons e es ih =>
      obtain ⟨start, hstart, h⟩ := Except.bind_eq_ok.mp h
      have hstart := plus_eq_ok hstart
      obtain ⟨hlater, hdistinct⟩ := List.pairwise_cons.mp hdistinct
      obtain ⟨he, hvalid⟩ := List.forall_mem_cons.mp hvalid
      obtain ⟨hbases, hstarts, hlen, hassigned⟩ := ih hdistinct
        (fun e' he' => ⟨(hvalid e' he').scope, by simpa using (hvalid e' he').arms,
          by simpa using (hvalid e' he').buffers⟩) h
      have hscope : s'.bases.getD e.scope 0 = s.bases.getD e.scope 0 := by
        rw [hbases _ fun e' he' => (hlater e' he').2, bases_enter he.scope]
      refine ⟨fun k hk => ?_, fun k hk => ?_, by simpa using hlen, ?_⟩
      · obtain ⟨hke, hk⟩ := List.forall_mem_cons.mp hk
        rw [hbases k hk, bases_enter hke]
      · obtain ⟨hke, hk⟩ := List.forall_mem_cons.mp hk
        rw [hstarts k hk, starts_enter hke]
      · refine List.forall_mem_cons.mpr ⟨⟨fun a ha => ?_, fun b hb => ?_⟩, hassigned⟩
        · rw [hbases a fun e' he' ha' => (hlater e' he').1.1 ha ha', bases_enter_self ha he.arms,
            hscope, hstart]
        · rw [hstarts b fun e' he' hb' => (hlater e' he').1.2 hb hb',
            starts_enter_self hb he.buffers, hscope, hstart]

lemma mem_entries {offsets : List (List Nat)} {e : Entry} :
    e ∈ entries scopes offsets ↔ e.scope < scopes.length ∧
      (e.member, e.offset) ∈ (scopes.getD e.scope []).zip (offsets.getD e.scope []) := by
  simp only [entries, List.mem_flatMap, List.mem_range, List.mem_map]
  constructor
  · rintro ⟨id, hid, p, hp, rfl⟩
    exact ⟨hid, hp⟩
  · rintro ⟨hid, hp⟩
    exact ⟨e.scope, hid, _, hp, rfl⟩

/-- In a tree, no entry changes what an earlier one has set, or its scope. -/
lemma Tree.pairwise_entries {count : Nat} (htree : Tree scopes count)
    (offsets : List (List Nat)) : (entries scopes offsets).Pairwise fun e e' =>
      e.member.Distinct e'.member ∧ e.scope ∉ e'.member.arms := by
  have hmem : ∀ {s : Nat} {p : Member × Nat},
      p ∈ (scopes.getD s []).zip (offsets.getD s []) → p.1 ∈ scopes.getD s [] :=
    fun hp => (List.of_mem_zip hp).1
  refine List.pairwise_flatMap.mpr ⟨fun s _ => List.pairwise_map.mpr ?_, ?_⟩
  · refine (pairwise_zip (htree.pairwise_scope s) _).imp_of_mem fun _ hq hpq => ⟨hpq, fun hs => ?_⟩
    exact Nat.lt_irrefl s (htree.later s _ (hmem hq) s hs).1
  · refine List.pairwise_lt_range.imp fun {s s'} hlt => ?_
    simp only [List.mem_map, forall_exists_index, and_imp, forall_apply_eq_imp_iff₂]
    refine fun p hp q hq => ⟨htree.distinct_of_lt hlt (hmem hp) (hmem hq), fun hs => ?_⟩
    exact Nat.lt_asymm hlt (htree.later s' _ (hmem hq) s hs).1

end placement

/-! ## What the regions bound -/

section regions

variable {scopes : List (List Member)} {buffers : List Interval} {d : Nat}

/-- The interval `i` bounds the buffers in `held`. -/
structure Bounds (buffers : List Interval) (d : Nat) (i : Interval) (held : Nat → Prop) : Prop where
  /-- its size is a multiple -/
  dvd : d ∣ i.size
  /-- bytes come from buffers -/
  source : i.size ≠ 0 → ∃ b, held b
  /-- the uses of the buffers lie in the interval -/
  uses : ∀ b, held b → i.first ≤ (buffers.getD b noRegion).first ∧
    (buffers.getD b noRegion).last ≤ i.last
  /-- the first use is one of theirs -/
  first : ∀ t ≤ maxWord, (∀ b, held b → t ≤ (buffers.getD b noRegion).first) → t ≤ i.first

/-- What the placement asks of the buffers: whole words, first uses that are words, and in every
scope the first uses in the order of its members. -/
structure Uses (scopes : List (List Member)) (buffers : List Interval) (d : Nat) : Prop where
  /-- the scopes are a tree -/
  tree : Tree scopes buffers.length
  /-- sizes are multiples -/
  dvd : ∀ i ∈ buffers, d ∣ i.size
  /-- first uses are words -/
  word : ∀ i ∈ buffers, i.first ≤ maxWord
  /-- members are in the order of their first uses -/
  ordered : ∀ s, (scopes.getD s []).Pairwise fun m m' => ∀ b b', m.Holds scopes b →
    m'.Holds scopes b' → (buffers.getD b noRegion).first ≤ (buffers.getD b' noRegion).first

lemma Uses.word_getD (h : Uses scopes buffers d) (b : Nat) :
    (buffers.getD b noRegion).first ≤ maxWord := by
  by_cases hb : b < buffers.length
  · rw [List.getD_eq_getElem _ _ hb]
    exact h.word _ (List.getElem_mem hb)
  · rw [List.getD_eq_default _ _ (Nat.le_of_not_lt hb)]
    exact le_refl _

/-- A member is bounded by its interval, if the regions of its arms bound them. -/
lemma bounds_member (h : Uses scopes buffers d) {regions : List Interval} {m : Member}
    (hm : m ∈ scopes.flatten)
    (harms : ∀ a ∈ m.arms, Bounds buffers d (regions.getD a noRegion) (Under scopes a)) :
    Bounds buffers d (memberInterval buffers regions m) (m.Holds scopes) := by
  cases m with
  | buffer id =>
      have hid : id < buffers.length := h.tree.reserved _ hm id (by simp [Member.buffers])
      refine ⟨?_, fun _ => ⟨id, rfl⟩, fun b hb => ?_, fun t _ ht => ht id rfl⟩
      · simp only [memberInterval, List.getD_eq_getElem _ _ hid]
        exact h.dvd _ (List.getElem_mem hid)
      · obtain rfl : b = id := hb
        exact ⟨le_refl _, le_refl _⟩
  | choice left right =>
      have hl := harms left (by simp [Member.arms])
      have hr := harms right (by simp [Member.arms])
      refine ⟨?_, fun hsize => ?_, fun b hb => ?_, fun t ht htb => le_min ?_ ?_⟩
      · simp only [memberInterval]
        rcases Nat.le_total (regions.getD left noRegion).size
          (regions.getD right noRegion).size with
          hle | hle
        · rw [Nat.max_eq_right hle]
          exact hr.dvd
        · rw [Nat.max_eq_left hle]
          exact hl.dvd
      · simp only [memberInterval] at hsize
        by_cases hzero : (regions.getD left noRegion).size = 0
        · obtain ⟨b, hb⟩ := hr.source (by omega)
          exact ⟨b, .inr hb⟩
        · obtain ⟨b, hb⟩ := hl.source hzero
          exact ⟨b, .inl hb⟩
      · rcases hb with hb | hb
        · obtain ⟨hfirst, hlast⟩ := hl.uses b hb
          exact ⟨(min_le_left _ _).trans hfirst, hlast.trans (le_max_left _ _)⟩
        · obtain ⟨hfirst, hlast⟩ := hr.uses b hb
          exact ⟨(min_le_right _ _).trans hfirst, hlast.trans (le_max_right _ _)⟩
      · exact hl.first t ht fun b hb => htb b (.inl hb)
      · exact hr.first t ht fun b hb => htb b (.inr hb)

/-- Members that bound what they hold are in the order of their first uses. -/
lemma ordered_members (h : Uses scopes buffers d) {regions : List Interval} {s : Nat}
    (hmembers : ∀ m ∈ scopes.getD s [],
      Bounds buffers d (memberInterval buffers regions m) (m.Holds scopes)) :
    Ordered ((scopes.getD s []).map (memberInterval buffers regions)) := by
  refine List.pairwise_map.mpr ((h.ordered s).imp_of_mem fun {m m'} hm hm' hmm' hsize _ => ?_)
  obtain ⟨b, hb⟩ := (hmembers m hm).source hsize
  have hfirst := ((hmembers m hm).uses b hb).1
  exact (hmembers m' hm').first _ (hfirst.trans (h.word_getD b)) fun b' hb' =>
    hfirst.trans (hmm' b b' hb hb')

/-- A placed scope is bounded by its region, if its members are bounded. -/
lemma bounds_scope (h : Uses scopes buffers d) {regions : List Interval} {offsets : List (List Nat)}
    {s : Nat} (hplaced : ScopePlaced scopes buffers regions offsets s)
    (hmembers : ∀ m ∈ scopes.getD s [],
      Bounds buffers d (memberInterval buffers regions m) (m.Holds scopes)) :
    Bounds buffers d (regions.getD s noRegion) (Under scopes s) := by
  obtain ⟨size, hplace, hregion⟩ := hplaced
  have hdvd : ∀ i ∈ (scopes.getD s []).map (memberInterval buffers regions), d ∣ i.size := by
    simp only [List.forall_mem_map]
    exact fun m hm => (hmembers m hm).dvd
  rw [hregion]
  refine ⟨(place_spec hdvd (ordered_members h hmembers) hplace).1, fun hsize => ?_, fun b hb => ?_,
    fun t ht htb => ?_⟩
  · by_contra hnone
    refine hsize (placeFrom_of_empty ?_ hplace)
    simp only [List.forall_mem_map]
    refine fun m hm => by_contra fun hne => hnone ?_
    obtain ⟨b, hb⟩ := (hmembers m hm).source hne
    exact ⟨b, under_iff.mpr ⟨m, hm, hb⟩⟩
  · obtain ⟨m, hm, hb⟩ := under_iff.mp hb
    obtain ⟨hfirst, hlast⟩ := (hmembers m hm).uses b hb
    have hmem := List.mem_map_of_mem (f := memberInterval buffers regions) hm
    refine ⟨le_trans ?_ hfirst, hlast.trans ?_⟩
    · exact List.min?_getD_le_of_mem (List.mem_map_of_mem hmem)
    · exact List.le_max?_getD_of_mem (List.mem_map_of_mem hmem)
  · cases hmin : (((scopes.getD s []).map (memberInterval buffers regions)).map
        Interval.first).min? with
    | none =>
        simp only [regionOf, hmin, Option.getD_none]
        exact ht
    | some least =>
        simp only [regionOf, hmin, Option.getD_some]
        obtain ⟨hleast, -⟩ := List.min?_eq_some_iff.mp hmin
        obtain ⟨i, hi, rfl⟩ := List.mem_map.mp hleast
        obtain ⟨m, hm, rfl⟩ := List.mem_map.mp hi
        exact (hmembers m hm).first t ht fun b hb => htb b (under_iff.mpr ⟨m, hm, hb⟩)

/-- Every region bounds its scope: by induction from the last scope to the first. -/
lemma bounds_region (h : Uses scopes buffers d) {regions : List Interval}
    {offsets : List (List Nat)}
    (hplaced : ∀ s, s < scopes.length → ScopePlaced scopes buffers regions offsets s) {s : Nat}
    (hs : s < scopes.length) : Bounds buffers d (regions.getD s noRegion) (Under scopes s) := by
  induction hn : scopes.length - s using Nat.strong_induction_on generalizing s with
  | _ n ih =>
      refine bounds_scope h (hplaced s hs) fun m hm =>
        bounds_member h (mem_flatten_of_mem hm) fun a ha => ?_
      obtain ⟨hlt, halen⟩ := h.tree.later s m hm a ha
      exact ih _ (by omega) halen rfl

end regions

/-! ## The overlay -/

section overlaid

variable {scopes : List (List Member)} {buffers regions : List Interval} {d : Nat}
  {offsets : List (List Nat)} {starts : Starts}

/-- The result of both passes: every scope is placed, and its members start at its base and their
offsets. -/
structure Overlaid (scopes : List (List Member)) (buffers regions : List Interval)
    (offsets : List (List Nat)) (starts : Starts) : Prop where
  /-- the first pass -/
  placed : ∀ s, s < scopes.length → ScopePlaced scopes buffers regions offsets s
  /-- the second pass -/
  assigned : ∀ e ∈ entries scopes offsets, e.Assigned starts

/-- The block of a buffer. -/
def blockOf (buffers : List Interval) (starts : List Nat) (b : Nat) : Nat × Nat :=
  (starts.getD b 0, (buffers.getD b noRegion).size)

/-- A block lies in the bytes from `lo` to `hi`. -/
def Inside (p : Nat × Nat) (lo hi : Nat) : Prop := lo ≤ p.1 ∧ p.1 + p.2 ≤ hi

lemma Apart.of_inside {p q : Nat × Nat} {lo lo' size size' : Nat}
    (h : Apart (lo, size) (lo', size')) (hp : Inside p lo (lo + size))
    (hq : Inside q lo' (lo' + size')) : Apart p q := by
  simp only [Apart, Inside] at h hp hq ⊢
  omega

lemma lt_length_of_mem {s : Nat} {m : Member} (hm : m ∈ scopes.getD s []) : s < scopes.length := by
  by_contra hs
  rw [List.getD_eq_default _ _ (Nat.le_of_not_lt hs)] at hm
  exact absurd hm List.not_mem_nil

/-- What the placement of a scope says about its members. -/
lemma Overlaid.scope (h : Overlaid scopes buffers regions offsets starts)
    (huses : Uses scopes buffers d) {s : Nat} (hs : s < scopes.length) :
    (offsets.getD s []).length = (scopes.getD s []).length ∧
      (∀ p ∈ (scopes.getD s []).zip (offsets.getD s []),
        p.2 + (memberInterval buffers regions p.1).size ≤ (regions.getD s noRegion).size ∧
          d ∣ p.2 ∧ Bounds buffers d (memberInterval buffers regions p.1) (p.1.Holds scopes)) ∧
      ((scopes.getD s []).zip (offsets.getD s [])).Pairwise fun p q =>
        (memberInterval buffers regions p.1).Meets (memberInterval buffers regions q.1) →
          Apart (p.2, (memberInterval buffers regions p.1).size)
            (q.2, (memberInterval buffers regions q.1).size) := by
  obtain ⟨size, hplace, hregion⟩ := h.placed s hs
  have hmembers : ∀ m ∈ scopes.getD s [],
      Bounds buffers d (memberInterval buffers regions m) (m.Holds scopes) := fun m hm =>
    bounds_member huses (mem_flatten_of_mem hm) fun a ha =>
      bounds_region huses h.placed (huses.tree.later s m hm a ha).2
  have hdvd : ∀ i ∈ (scopes.getD s []).map (memberInterval buffers regions), d ∣ i.size := by
    simp only [List.forall_mem_map]
    exact fun m hm => (hmembers m hm).dvd
  obtain ⟨-, hlen, hbefore, hpair⟩ := place_spec hdvd (ordered_members huses hmembers) hplace
  rw [List.zip_map_left] at hbefore hpair
  rw [List.length_map] at hlen
  refine ⟨hlen, fun p hp => ?_, ?_⟩
  · obtain ⟨hle, hd⟩ := hbefore _ (List.mem_map_of_mem hp)
    rw [hregion]
    exact ⟨hle, hd, hmembers _ (List.of_mem_zip hp).1⟩
  · exact (List.pairwise_map.mp hpair).imp fun {p q} hpq => hpq

/-- A member of a scope stands there with an offset. -/
lemma exists_offset {s : Nat} {m : Member} (hm : m ∈ scopes.getD s [])
    (hlen : (offsets.getD s []).length = (scopes.getD s []).length) :
    ∃ offset, (m, offset) ∈ (scopes.getD s []).zip (offsets.getD s []) := by
  obtain ⟨i, hi, rfl⟩ := List.getElem_of_mem hm
  have hi' : i < (offsets.getD s []).length := hlen ▸ hi
  refine ⟨(offsets.getD s [])[i], List.mem_iff_getElem.mpr ⟨i, ?_, ?_⟩⟩
  · simpa using ⟨hi, hi'⟩
  · simp

/-- The buffers of a member lie in its interval, if those of its arms lie in their regions. -/
lemma Overlaid.inside_member (h : Overlaid scopes buffers regions offsets starts) {s b : Nat}
    (hs : s < scopes.length) {m : Member} {offset : Nat}
    (hp : (m, offset) ∈ (scopes.getD s []).zip (offsets.getD s [])) (hb : m.Holds scopes b)
    (harms : ∀ a ∈ m.arms, Under scopes a b →
      Inside (blockOf buffers starts.starts b) (starts.bases.getD a 0)
          (starts.bases.getD a 0 + (regions.getD a noRegion).size) ∧
        (d ∣ starts.bases.getD a 0 → d ∣ starts.starts.getD b 0)) :
    Inside (blockOf buffers starts.starts b) (starts.bases.getD s 0 + offset)
        (starts.bases.getD s 0 + offset + (memberInterval buffers regions m).size) ∧
      (d ∣ starts.bases.getD s 0 + offset → d ∣ starts.starts.getD b 0) := by
  obtain ⟨harm, hbuffer⟩ := h.assigned ⟨s, m, offset⟩ (mem_entries.mpr ⟨hs, hp⟩)
  cases m with
  | buffer id =>
      obtain rfl : b = id := hb
      have hstart := hbuffer b (by simp [Member.buffers])
      simp only at hstart
      simp only [Inside, blockOf, hstart, memberInterval]
      exact ⟨⟨le_refl _, le_refl _⟩, id⟩
  | choice left right =>
      have hl : left ∈ (Member.choice left right).arms := by simp [Member.arms]
      have hr : right ∈ (Member.choice left right).arms := by simp [Member.arms]
      have hleft := harm left hl
      have hright := harm right hr
      simp only at hleft hright
      simp only [Inside, memberInterval]
      rcases hb with hb | hb
      · obtain ⟨hinside, hd⟩ := harms left hl hb
        rw [hleft] at hinside hd
        simp only [Inside] at hinside
        exact ⟨by omega, hd⟩
      · obtain ⟨hinside, hd⟩ := harms right hr hb
        rw [hright] at hinside hd
        simp only [Inside] at hinside
        exact ⟨by omega, hd⟩

/-- The buffers under a scope lie in its region: by induction from the last scope to the first. -/
lemma Overlaid.inside_scope (h : Overlaid scopes buffers regions offsets starts)
    (huses : Uses scopes buffers d) {s b : Nat} (hb : Under scopes s b) :
    Inside (blockOf buffers starts.starts b) (starts.bases.getD s 0)
        (starts.bases.getD s 0 + (regions.getD s noRegion).size) ∧
      (d ∣ starts.bases.getD s 0 → d ∣ starts.starts.getD b 0) := by
  induction hn : scopes.length - s using Nat.strong_induction_on generalizing s with
  | _ n ih =>
      obtain ⟨m, hm, hheld⟩ := under_iff.mp hb
      have hs := lt_length_of_mem hm
      obtain ⟨hlen, hmembers, -⟩ := h.scope huses hs
      obtain ⟨offset, hp⟩ := exists_offset hm hlen
      obtain ⟨hle, hd, -⟩ := hmembers _ hp
      obtain ⟨hinside, hdvd⟩ := h.inside_member (d := d) hs hp hheld fun a ha hba => by
        have hlater := huses.tree.later s m hm a ha
        exact ih _ (by omega) hba rfl
      simp only [Inside] at hinside hle ⊢
      exact ⟨by omega, fun hbase => hdvd (Nat.dvd_add hbase hd)⟩

/-- Buffers of two members of a scope are apart where they meet. -/
lemma Overlaid.apart_members (h : Overlaid scopes buffers regions offsets starts)
    (huses : Uses scopes buffers d) {s : Nat} {m m' : Member} (hm : m ∈ scopes.getD s [])
    (hm' : m' ∈ scopes.getD s []) (hne : m ≠ m') {b b' : Nat} (hb : m.Holds scopes b)
    (hb' : m'.Holds scopes b')
    (hmeets : (buffers.getD b noRegion).Meets (buffers.getD b' noRegion)) :
    Apart (blockOf buffers starts.starts b) (blockOf buffers starts.starts b') := by
  have hs := lt_length_of_mem hm
  obtain ⟨hlen, hmembers, hpair⟩ := h.scope huses hs
  obtain ⟨offset, hp⟩ := exists_offset hm hlen
  obtain ⟨offset', hp'⟩ := exists_offset hm' hlen
  have hinside := (h.inside_member (d := d) hs hp hb fun a _ => h.inside_scope huses).1
  have hinside' := (h.inside_member (d := d) hs hp' hb' fun a _ => h.inside_scope huses).1
  obtain ⟨hfirst, hlast⟩ := (hmembers _ hp).2.2.uses b hb
  obtain ⟨hfirst', hlast'⟩ := (hmembers _ hp').2.2.uses b' hb'
  obtain ⟨hsize, hsize', huse, huse'⟩ := hmeets
  have hmeets : (memberInterval buffers regions m).Meets (memberInterval buffers regions m') := by
    simp only [Inside, blockOf] at hinside hinside'
    exact ⟨by omega, by omega, hfirst.trans (huse.trans hlast'), hfirst'.trans (huse'.trans hlast)⟩
  have : Std.Symm fun p q : Member × Nat =>
      (memberInterval buffers regions p.1).Meets (memberInterval buffers regions q.1) →
        Apart (p.2, (memberInterval buffers regions p.1).size)
          (q.2, (memberInterval buffers regions q.1).size) :=
    ⟨fun p q hpq hqp => (hpq hqp.symm).symm⟩
  have hapart := hpair.forall hp hp' (fun heq => hne (congrArg Prod.fst heq)) hmeets
  have hbases : Apart
      (starts.bases.getD s 0 + offset, (memberInterval buffers regions m).size)
      (starts.bases.getD s 0 + offset', (memberInterval buffers regions m').size) := by
    simp only [Apart] at hapart ⊢
    omega
  exact hbases.of_inside hinside hinside'

/-- Buffers under a scope are apart where they meet, unless they stand in opposite arms: by
induction on where the first one stands. -/
lemma Overlaid.apart_scope (h : Overlaid scopes buffers regions offsets starts)
    (huses : Uses scopes buffers d) {s b b' : Nat} (hb : Under scopes s b) (hb' : Under scopes s b')
    (hne : b ≠ b') (hmeets : (buffers.getD b noRegion).Meets (buffers.getD b' noRegion))
    (hopposite : ¬ Opposite scopes b b') :
    Apart (blockOf buffers starts.starts b) (blockOf buffers starts.starts b') := by
  induction hn : scopes.length - s using Nat.strong_induction_on generalizing s with
  | _ n ih =>
      obtain ⟨m, hm, hheld⟩ := under_iff.mp hb
      obtain ⟨m', hm', hheld'⟩ := under_iff.mp hb'
      by_cases hmm' : m = m'
      · subst hmm'
        cases m with
        | buffer id => exact absurd (hheld.trans hheld'.symm) hne
        | choice l r =>
            have hs := lt_length_of_mem hm
            have hl := huses.tree.later s _ hm l (by simp [Member.arms])
            have hr := huses.tree.later s _ hm r (by simp [Member.arms])
            rcases hheld with hheld | hheld <;> rcases hheld' with hheld' | hheld'
            · exact ih _ (by omega) hheld hheld' rfl
            · exact absurd ⟨s, l, r, hm, .inl ⟨hheld, hheld'⟩⟩ hopposite
            · exact absurd ⟨s, l, r, hm, .inr ⟨hheld, hheld'⟩⟩ hopposite
            · exact ih _ (by omega) hheld hheld' rfl
      · exact h.apart_members huses hm hm' hmm' hheld hheld' hmeets

end overlaid

/-- **The overlay**: buffers lie before the extent, at multiples of `d`, and are apart where they
meet unless they stand in opposite arms of a branch. -/
theorem overlay_spec {scopes : List (List Member)} {buffers : List Interval} {d : Nat}
    (huses : Uses scopes buffers d) {extent : Nat} {starts : List Nat}
    (h : overlay scopes buffers = .ok (extent, starts)) :
    starts.length = buffers.length ∧
      (∀ b, Under scopes 0 b → (blockOf buffers starts b).1 +
        (blockOf buffers starts b).2 ≤ extent ∧
        d ∣ (blockOf buffers starts b).1) ∧
      ∀ b b', Under scopes 0 b → Under scopes 0 b' → b ≠ b' →
        (buffers.getD b noRegion).Meets (buffers.getD b' noRegion) → ¬ Opposite scopes b b' →
        Apart (blockOf buffers starts b) (blockOf buffers starts b') := by
  obtain ⟨⟨regions, offsets⟩, hplace, h⟩ := Except.bind_eq_ok.mp h
  obtain ⟨s, hassign, h⟩ := Except.bind_eq_ok.mp h
  cases h
  obtain ⟨-, hplaced⟩ := placeScopes_spec huses.tree (by simp) (by simp) (le_refl _)
    (fun s hs hlt => absurd hlt (Nat.not_lt.mpr hs)) hplace
  have hvalid : ∀ e ∈ entries scopes offsets, e.Valid
      ⟨List.replicate scopes.length 0, List.replicate buffers.length 0⟩ := fun e he => by
    have hmem := (List.of_mem_zip (mem_entries.mp he).2).1
    refine ⟨fun hs => ?_, fun a ha => ?_, fun b hb => ?_⟩
    · exact Nat.lt_irrefl _ (huses.tree.later _ _ hmem _ hs).1
    · simpa using (huses.tree.later _ _ hmem a ha).2
    · simpa using huses.tree.reserved _ (mem_flatten_of_mem hmem) b hb
  obtain ⟨hbases, -, hlen, hassigned⟩ :=
    assign_spec (huses.tree.pairwise_entries offsets) hvalid hassign
  have hover : Overlaid scopes buffers regions offsets s := ⟨hplaced, hassigned⟩
  -- the first scope is no arm
  have hzero : s.bases.getD 0 0 = 0 := by
    rw [hbases 0 fun e he ha => ?_]
    · cases scopes.length <;> simp [List.replicate_succ]
    · have hmem := (List.of_mem_zip (mem_entries.mp he).2).1
      exact absurd (huses.tree.later _ _ hmem 0 ha).1 (Nat.not_lt_zero _)
  refine ⟨by simpa using hlen, fun b hb => ?_, fun b b' hb hb' hne hmeets hopposite =>
    hover.apart_scope huses hb hb' hne hmeets hopposite⟩
  obtain ⟨hinside, hd⟩ := hover.inside_scope huses hb
  rw [hzero, Nat.zero_add] at hinside
  exact ⟨hinside.2, hd (by rw [hzero]; exact Nat.dvd_zero d)⟩

end Verbosec.Native.TextStorage
