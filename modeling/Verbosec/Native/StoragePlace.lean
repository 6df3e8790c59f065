import Mathlib.Data.List.Sort
import Verbosec.Lib.Except
import Verbosec.Native.StorageCalls

/-!
# Placement of intervals

* `Free` - holes by start and by size; `Free.release` joins a hole with its neighbours, `Free.take`
  is the smallest hole that fits, else the last one grows at the end, else the end itself.
* `place` - intervals in the order of their first uses, over a queue of those in use.
* `Apart`, `Placed` - the blocks in use and the holes never overlap.
* `place_spec` - intervals in use at one time take disjoint blocks, and all lie before the extent.

Source: `native/bounded_text/storage.rs`, `Interval`, `place`, `Free`
-/

namespace Verbosec.Native.TextStorage

open Verbosec.Lib StorageCalls

/-! ## Holes -/

/-- The order of pairs. -/
def lexLe (p q : Nat × Nat) : Prop := p.1 < q.1 ∨ p.1 = q.1 ∧ p.2 ≤ q.2

instance : DecidableRel lexLe := fun p q =>
  inferInstanceAs (Decidable (p.1 < q.1 ∨ p.1 = q.1 ∧ p.2 ≤ q.2))

/-- The holes, by start and by size, both in order.
Source: `native/bounded_text/storage.rs`, `Free` -/
structure Free where
  /-- sizes by start -/
  byStart : List (Nat × Nat) := []
  /-- starts by size -/
  bySize : List (Nat × Nat) := []
  deriving DecidableEq, Repr

namespace Free

/-- Source: `native/bounded_text/storage.rs`, `Free::remove` -/
def remove (f : Free) (start size : Nat) : Free :=
  ⟨f.byStart.filter (·.1 ≠ start), f.bySize.filter (· ≠ (size, start))⟩

/-- A hole inserted in both orders. Source: `native/bounded_text/storage.rs`, `Free::release` -/
def insert (f : Free) (start size : Nat) : Free :=
  ⟨(f.byStart.filter (·.1 ≠ start)).orderedInsert (fun p q => p.1 ≤ q.1) (start, size),
    (f.bySize.filter (· ≠ (size, start))).orderedInsert lexLe (size, start)⟩

/-- A hole joined with the one that ends at its start.
Source: `native/bounded_text/storage.rs`, `Free::release` -/
def joinLeft (f : Free) (start size : Nat) : Free × Nat × Nat :=
  match (f.byStart.filter (·.1 < start)).getLast? with
  | some (left, len) =>
      if left + len = start then (f.remove left len, left, size + len) else (f, start, size)
  | none => (f, start, size)

/-- A hole joined with the one that starts at its end.
Source: `native/bounded_text/storage.rs`, `Free::release` -/
def joinRight (f : Free) (start size : Nat) : Free × Nat × Nat :=
  match f.byStart.find? (·.1 = start + size) with
  | some (_, right) => (f.remove (start + size) right, start, size + right)
  | none => (f, start, size)

/-- Source: `native/bounded_text/storage.rs`, `Free::release` -/
def release (f : Free) (start size : Nat) : Free :=
  let (f, start, size) := f.joinLeft start size
  let (f, start, size) := f.joinRight start size
  f.insert start size

/-- A block of `size` bytes and the holes that are left.
Source: `native/bounded_text/storage.rs`, `Free::take` -/
def take (f : Free) (size extent : Nat) : Nat × Free :=
  match f.bySize.find? (size ≤ ·.1) with
  | some (len, start) =>
      let f := f.remove start len
      (start, if size < len then f.release (start + size) (len - size) else f)
  | none =>
      match f.byStart.getLast? with
      | some (start, len) =>
          if start + len = extent then (start, f.remove start len) else (extent, f)
      | none => (extent, f)

end Free

/-! ## Placement -/

/-- A size with the first and the last use. Source: `native/bounded_text/storage.rs`, `Interval` -/
structure Interval where
  /-- bytes, in whole words -/
  size : Nat
  /-- first use -/
  first : Nat
  /-- last use -/
  last : Nat
  deriving DecidableEq, Repr

/-- A block in use until `last`. Source: `native/bounded_text/storage.rs`, `place` -/
structure Block where
  /-- last use -/
  last : Nat
  /-- first byte -/
  start : Nat
  /-- bytes -/
  size : Nat
  deriving DecidableEq, Repr

/-- The order of the queue: the block whose use ends first. -/
def Block.le (a b : Block) : Prop :=
  a.last < b.last ∨ a.last = b.last ∧ lexLe (a.start, a.size) (b.start, b.size)

instance : DecidableRel Block.le := fun a b => inferInstanceAs
  (Decidable (a.last < b.last ∨ a.last = b.last ∧ lexLe (a.start, a.size) (b.start, b.size)))

/-- The blocks whose use has ended before `first` become holes.
Source: `native/bounded_text/storage.rs`, `place` -/
def retire (first : Nat) : List Block → Free → List Block × Free
  | [], free => ([], free)
  | a :: active, free =>
      if a.last < first then retire first active (free.release a.start a.size)
      else (a :: active, free)

/-- The extent and the starts, from a state on. An interval without bytes starts at `0` and changes
nothing. Source: `native/bounded_text/storage.rs`, `place` -/
def placeFrom : List Interval → List Block → Free → Nat → Except Failure (Nat × List Nat)
  | [], _, _, extent => .ok (extent, [])
  | i :: rest, active, free, extent =>
      if i.size = 0 then do
        let (extent, starts) ← placeFrom rest active free extent
        .ok (extent, 0 :: starts)
      else do
        let (active, free) := retire i.first active free
        let (start, free) := free.take i.size extent
        let stop ← plus (error "buffer placement overflow") start i.size
        let (extent, starts) ← placeFrom rest
          (active.orderedInsert Block.le ⟨i.last, start, i.size⟩) free (max extent stop)
        .ok (extent, start :: starts)

/-- Source: `native/bounded_text/storage.rs`, `place` -/
def place (intervals : List Interval) : Except Failure (Nat × List Nat) :=
  placeFrom intervals [] {} 0

lemma plus_eq_ok {failure : Failure} {a b c : Nat} (h : plus failure a b = .ok c) : a + b = c := by
  unfold plus at h
  split at h <;> cases h
  rfl

/-! ## Blocks that do not overlap -/

/-- Two blocks, by start and size, without a common byte. -/
def Apart (p q : Nat × Nat) : Prop := p.1 + p.2 ≤ q.1 ∨ q.1 + q.2 ≤ p.1

lemma Apart.symm {p q : Nat × Nat} (h : Apart p q) : Apart q p := Or.symm h

namespace Free

/-- The holes are the same in both orders; they have bytes, lie before `extent`, do not overlap, and
start and end at multiples of `d`. -/
structure Wf (d : Nat) (f : Free) (extent : Nat) : Prop where
  /-- the two orders agree -/
  agree : ∀ start size, (size, start) ∈ f.bySize → (start, size) ∈ f.byStart
  /-- no hole is empty -/
  pos : ∀ p ∈ f.byStart, 0 < p.2
  /-- all lie before the extent -/
  le : ∀ p ∈ f.byStart, p.1 + p.2 ≤ extent
  /-- no two overlap -/
  apart : ∀ p ∈ f.byStart, ∀ q ∈ f.byStart, p ≠ q → Apart p q
  /-- starts and sizes are multiples -/
  dvd : ∀ p ∈ f.byStart, d ∣ p.1 ∧ d ∣ p.2

/-- A block is apart from all holes. -/
def Outside (f : Free) (p : Nat × Nat) : Prop := ∀ q ∈ f.byStart, Apart q p

variable {d extent : Nat} {f : Free}

lemma mem_remove {start size : Nat} {p : Nat × Nat} :
    p ∈ (f.remove start size).byStart ↔ p ∈ f.byStart ∧ p.1 ≠ start := by
  simp [remove]

/-- A hole is apart from those left after it is removed. -/
lemma Wf.remove (h : f.Wf d extent) {start size : Nat} (hmem : (start, size) ∈ f.byStart) :
    (f.remove start size).Wf d extent ∧ (f.remove start size).Outside (start, size) := by
  refine ⟨⟨fun start' size' hp => ?_, fun p hp => h.pos p (mem_remove.mp hp).1,
    fun p hp => h.le p (mem_remove.mp hp).1,
    fun p hp q hq => h.apart p (mem_remove.mp hp).1 q (mem_remove.mp hq).1,
    fun p hp => h.dvd p (mem_remove.mp hp).1⟩, fun q hq => ?_⟩
  · obtain ⟨hsame, hne⟩ := List.mem_filter.mp hp
    have hne : (size', start') ≠ (size, start) := of_decide_eq_true hne
    have hold := h.agree _ _ hsame
    refine mem_remove.mpr ⟨hold, fun heq => ?_⟩
    -- two holes with one start are one hole
    have hstart : start' = start := heq
    have hboth := h.apart _ hold _ hmem fun heq => hne (by cases heq; rfl)
    have h₁ := h.pos _ hold
    have h₂ := h.pos _ hmem
    simp only [Apart] at hboth h₁ h₂
    omega
  · obtain ⟨hq, hne⟩ := mem_remove.mp hq
    exact h.apart _ hq _ hmem fun heq => hne (by rw [heq])

/-- A block that is apart from two neighbours is apart from both joined. -/
lemma apart_join {q : Nat × Nat} {start size size' : Nat} (hq : 0 < q.2)
    (h : Apart q (start, size)) (h' : Apart q (start + size, size')) :
    Apart q (start, size + size') := by
  simp only [Apart] at h h' ⊢
  omega

/-- What a block is apart from, the holes with it are apart from. -/
structure Fits (d : Nat) (f : Free) (extent start size : Nat) : Prop where
  /-- the holes -/
  wf : f.Wf d extent
  /-- the block has bytes -/
  pos : 0 < size
  /-- it lies before the extent -/
  le : start + size ≤ extent
  /-- it is no part of a hole -/
  outside : f.Outside (start, size)
  /-- it starts and ends at multiples -/
  dvd : d ∣ start ∧ d ∣ size

lemma Fits.joinLeft {start size : Nat} (h : Fits d f extent start size) {c : Nat × Nat}
    (hc : 0 < c.2) (hout : f.Outside c) (hcapart : Apart c (start, size)) :
    let r := f.joinLeft start size
    Fits d r.1 extent r.2.1 r.2.2 ∧ r.1.Outside c ∧ Apart c r.2 := by
  simp only [Free.joinLeft]
  split
  · rename_i left len hlast
    split
    · rename_i heq
      have hmem : (left, len) ∈ f.byStart :=
        (List.mem_filter.mp (List.mem_of_getLast? hlast)).1
      obtain ⟨hwf, hapart⟩ := h.wf.remove hmem
      have hpos := h.wf.pos _ hmem
      have hle := h.le
      have hdvd := h.wf.dvd _ hmem
      dsimp only at hpos hdvd ⊢
      refine ⟨⟨hwf, by omega, by omega, fun q hq => ?_, hdvd.1, Nat.dvd_add h.dvd.2 hdvd.2⟩,
        fun q hq => hout q (mem_remove.mp hq).1, ?_⟩
      · rw [Nat.add_comm]
        refine apart_join (hwf.pos q hq) (hapart q hq) ?_
        rw [heq]
        exact h.outside q (mem_remove.mp hq).1
      · rw [Nat.add_comm]
        refine apart_join hc (hout _ hmem).symm ?_
        rw [heq]
        exact hcapart
    · exact ⟨h, hout, hcapart⟩
  · exact ⟨h, hout, hcapart⟩

lemma Fits.joinRight {start size : Nat} (h : Fits d f extent start size) {c : Nat × Nat}
    (hc : 0 < c.2) (hout : f.Outside c) (hcapart : Apart c (start, size)) :
    let r := f.joinRight start size
    Fits d r.1 extent r.2.1 r.2.2 ∧ r.1.Outside c ∧ Apart c r.2 := by
  simp only [Free.joinRight]
  split
  · rename_i found right hfind
    have hmem : (start + size, right) ∈ f.byStart := by
      have hstart : found = start + size := by simpa using List.find?_some hfind
      exact hstart ▸ List.mem_of_find?_eq_some hfind
    obtain ⟨hwf, hapart⟩ := h.wf.remove hmem
    have hle := h.wf.le _ hmem
    have hdvd := h.wf.dvd _ hmem
    have hpos := h.pos
    dsimp only at hle hdvd ⊢
    refine ⟨⟨hwf, by omega, by omega, fun q hq => ?_, h.dvd.1, Nat.dvd_add h.dvd.2 hdvd.2⟩,
      fun q hq => hout q (mem_remove.mp hq).1, ?_⟩
    · exact apart_join (hwf.pos q hq) (h.outside q (mem_remove.mp hq).1) (hapart q hq)
    · exact apart_join hc hcapart (hout _ hmem).symm
  · exact ⟨h, hout, hcapart⟩

lemma mem_insert {start size : Nat} {p : Nat × Nat} (h : p ∈ (f.insert start size).byStart) :
    p = (start, size) ∨ p ∈ f.byStart := by
  simp only [insert, List.mem_orderedInsert, List.mem_filter] at h
  exact h.imp_right And.left

lemma Fits.insert {start size : Nat} (h : Fits d f extent start size) :
    (f.insert start size).Wf d extent := by
  refine ⟨fun start' size' hp => ?_, fun p hp => ?_, fun p hp => ?_, fun p hp q hq hne => ?_,
    fun p hp => ?_⟩
  · simp only [Free.insert, List.mem_orderedInsert, List.mem_filter, decide_eq_true_eq] at hp ⊢
    rcases hp with hp | ⟨hp, -⟩
    · left
      simp only [Prod.mk.injEq] at hp ⊢
      exact hp.symm
    · have hmem := h.wf.agree _ _ hp
      refine .inr ⟨hmem, fun heq => ?_⟩
      have hout := h.outside _ hmem
      have h₁ := h.wf.pos _ hmem
      have h₂ := h.pos
      simp only [Apart] at hout h₁ heq
      omega
  · rcases mem_insert hp with rfl | hp
    exacts [h.pos, h.wf.pos p hp]
  · rcases mem_insert hp with rfl | hp
    exacts [h.le, h.wf.le p hp]
  · rcases mem_insert hp with rfl | hp <;> rcases mem_insert hq with rfl | hq
    · exact absurd rfl hne
    · exact (h.outside q hq).symm
    · exact h.outside p hp
    · exact h.wf.apart p hp q hq hne
  · rcases mem_insert hp with rfl | hp
    exacts [h.dvd, h.wf.dvd p hp]

/-- A released block joins the holes, and stays apart from what it was apart from. -/
lemma Fits.release {start size : Nat} (h : Fits d f extent start size) :
    (f.release start size).Wf d extent ∧
      ∀ c : Nat × Nat, 0 < c.2 → f.Outside c → Apart c (start, size) →
        (f.release start size).Outside c := by
  -- any block, for the joins alone
  have hself : ∀ c : Nat × Nat, 0 < c.2 → f.Outside c → Apart c (start, size) →
      let l := f.joinLeft start size
      let r := l.1.joinRight l.2.1 l.2.2
      Fits d r.1 extent r.2.1 r.2.2 ∧ r.1.Outside c ∧ Apart c r.2 := fun c hc hout hapart => by
    obtain ⟨hleft, hout, hapart⟩ := h.joinLeft hc hout hapart
    exact hleft.joinRight hc hout hapart
  refine ⟨?_, fun c hc hout hapart => ?_⟩
  · -- a block past the extent is apart from everything
    have hfar := hself (extent, 1) Nat.one_pos (fun q hq => .inl (h.wf.le q hq)) (.inr h.le)
    exact hfar.1.insert
  · obtain ⟨-, hout, hapart⟩ := hself c hc hout hapart
    intro q hq
    rcases mem_insert hq with rfl | hq
    · exact hapart.symm
    · exact hout q hq

/-- The holes before a larger extent. -/
lemma Wf.mono (h : f.Wf d extent) {extent' : Nat} (hle : extent ≤ extent') : f.Wf d extent' :=
  ⟨h.agree, h.pos, fun p hp => (h.le p hp).trans hle, h.apart, h.dvd⟩

/-- The block taken is apart from the holes that are left, and from every block that is apart from
all holes and lies before the extent. -/
lemma Wf.take (h : f.Wf d extent) {size : Nat} (hsize : 0 < size) (hd : d ∣ size)
    (hextent : d ∣ extent) :
    let r := f.take size extent
    r.2.Wf d extent ∧ r.2.Outside (r.1, size) ∧ d ∣ r.1 ∧
      ∀ c : Nat × Nat, 0 < c.2 → c.1 + c.2 ≤ extent → f.Outside c →
        r.2.Outside c ∧ Apart c (r.1, size) := by
  simp only [Free.take]
  split
  · rename_i len start hfind
    have hlen : size ≤ len := by simpa using List.find?_some hfind
    have hmem := h.agree _ _ (List.mem_of_find?_eq_some hfind)
    obtain ⟨hwf, hout⟩ := h.remove hmem
    obtain ⟨hds, hdl⟩ := h.dvd _ hmem
    have hle := h.le _ hmem
    simp only at hle
    -- a block apart from the hole is apart from its parts
    have hpart : ∀ q : Nat × Nat, Apart q (start, len) →
        Apart q (start, size) ∧ Apart q (start + size, len - size) := fun q hq => by
      simp only [Apart] at hq ⊢
      omega
    have hbefore : ∀ c : Nat × Nat, f.Outside c → (f.remove start len).Outside c :=
      fun c hc q hq => hc q (mem_remove.mp hq).1
    split
    · rename_i hlt
      have hfits : Fits d (f.remove start len) extent (start + size) (len - size) :=
        ⟨hwf, by omega, by omega, fun q hq => (hpart q (hout q hq)).2, Nat.dvd_add hds hd,
          Nat.dvd_sub hdl hd⟩
      obtain ⟨hwf', hrelease⟩ := hfits.release
      refine ⟨hwf', ?_, hds, fun c hc _ hcout => ⟨?_, (hpart c (hcout _ hmem).symm).1⟩⟩
      · refine hrelease _ hsize (fun q hq => (hpart q (hout q hq)).1) ?_
        exact .inl (le_refl _)
      · exact hrelease c hc (hbefore c hcout) (hpart c (hcout _ hmem).symm).2
    · exact ⟨hwf, fun q hq => (hpart q (hout q hq)).1, hds,
        fun c _ _ hcout => ⟨hbefore c hcout, (hpart c (hcout _ hmem).symm).1⟩⟩
  · have hend : f.Wf d extent ∧ f.Outside (extent, size) ∧ d ∣ extent ∧
        ∀ c : Nat × Nat, 0 < c.2 → c.1 + c.2 ≤ extent → f.Outside c →
          f.Outside c ∧ Apart c (extent, size) :=
      ⟨h, fun q hq => .inl (h.le q hq), hextent, fun c _ hle hc => ⟨hc, .inl hle⟩⟩
    split
    · rename_i start len hlast
      split
      · rename_i heq
        have hmem := List.mem_of_getLast? hlast
        obtain ⟨hwf, hout⟩ := h.remove hmem
        -- what is apart from the last hole and before the extent is before the hole
        have hbefore : ∀ q : Nat × Nat, 0 < q.2 → q.1 + q.2 ≤ extent → Apart q (start, len) →
            Apart q (start, size) := fun q hq hle hqa => by
          simp only [Apart] at hqa ⊢
          omega
        refine ⟨hwf, fun q hq => ?_, (h.dvd _ hmem).1, fun c hc hle hcout => ⟨?_, ?_⟩⟩
        · exact hbefore q (hwf.pos q hq) (hwf.le q hq) (hout q hq)
        · exact fun q hq => hcout q (mem_remove.mp hq).1
        · exact hbefore c hc hle (hcout _ hmem).symm
      · exact hend
    · exact hend

end Free

/-! ## The queue -/

/-- The start and the size of a block. -/
def Block.span (a : Block) : Nat × Nat := (a.start, a.size)

/-- The state of the placement: the blocks in use and the holes do not overlap, and all lie before
the extent, at multiples of `d`. -/
structure Placed (d : Nat) (active : List Block) (free : Free) (extent : Nat) : Prop where
  /-- the holes -/
  holes : free.Wf d extent
  /-- blocks in use have bytes -/
  pos : ∀ a ∈ active, 0 < a.size
  /-- they lie before the extent -/
  le : ∀ a ∈ active, a.start + a.size ≤ extent
  /-- they are no part of a hole -/
  outside : ∀ a ∈ active, free.Outside a.span
  /-- they do not overlap -/
  apart : active.Pairwise fun a b => Apart a.span b.span
  /-- they start and end at multiples -/
  dvd : ∀ a ∈ active, d ∣ a.start ∧ d ∣ a.size
  /-- so does the extent -/
  extent_dvd : d ∣ extent

variable {d extent : Nat} {active : List Block} {free : Free}

lemma Placed.nil (d : Nat) : Placed d [] {} 0 :=
  ⟨⟨by simp, by simp, by simp, by simp, by simp⟩, by simp, by simp, by simp, .nil, by simp,
    Nat.dvd_zero d⟩

/-- Blocks in use at `first` stay. -/
lemma Placed.retire (h : Placed d active free extent) (first : Nat) :
    Placed d (retire first active free).1 (retire first active free).2 extent ∧
      ∀ a ∈ active, first ≤ a.last → a ∈ (retire first active free).1 := by
  induction active generalizing free with
  | nil => exact ⟨h, by simp⟩
  | cons a active ih =>
      rw [TextStorage.retire]
      split
      · rename_i hlast
        obtain ⟨hpos, hposs⟩ := List.forall_mem_cons.mp h.pos
        obtain ⟨hle, hles⟩ := List.forall_mem_cons.mp h.le
        obtain ⟨hout, houts⟩ := List.forall_mem_cons.mp h.outside
        obtain ⟨hdvd, hdvds⟩ := List.forall_mem_cons.mp h.dvd
        obtain ⟨hapart, haparts⟩ := List.pairwise_cons.mp h.apart
        obtain ⟨hwf, hrelease⟩ := Free.Fits.release ⟨h.holes, hpos, hle, hout, hdvd⟩
        obtain ⟨hplaced, hstay⟩ := ih ⟨hwf, hposs, hles, fun b hb =>
          hrelease _ (hposs b hb) (houts b hb) (hapart b hb).symm, haparts, hdvds, h.extent_dvd⟩
        refine ⟨hplaced, fun b hb hfirst => ?_⟩
        rcases List.mem_cons.mp hb with rfl | hb
        · exact absurd hlast (Nat.not_lt.mpr hfirst)
        · exact hstay b hb hfirst
      · exact ⟨h, fun b hb _ => hb⟩

/-- The block taken joins those in use. -/
lemma Placed.take (h : Placed d active free extent) {i : Interval} (hsize : 0 < i.size)
    (hd : d ∣ i.size) :
    let r := free.take i.size extent
    Placed d (active.orderedInsert Block.le ⟨i.last, r.1, i.size⟩) r.2 (max extent (r.1 + i.size)) ∧
      d ∣ r.1 ∧ ∀ a ∈ active, Apart a.span (r.1, i.size) := by
  intro r
  obtain ⟨hwf, hout, hstart, hothers⟩ := h.holes.take hsize hd h.extent_dvd
  have hactive : ∀ a ∈ active, r.2.Outside a.span ∧ Apart a.span (r.1, i.size) := fun a ha =>
    hothers a.span (h.pos a ha) (h.le a ha) (h.outside a ha)
  have hmem : ∀ a, a ∈ active.orderedInsert Block.le ⟨i.last, r.1, i.size⟩ ↔
      a = ⟨i.last, r.1, i.size⟩ ∨ a ∈ active := fun a => by simp
  refine ⟨⟨hwf.mono (le_max_left _ _), ?_, ?_, ?_, ?_, ?_, ?_⟩, hstart,
    fun a ha => (hactive a ha).2⟩
  · simp only [hmem, forall_eq_or_imp]
    exact ⟨hsize, h.pos⟩
  · simp only [hmem, forall_eq_or_imp]
    exact ⟨le_max_right _ _, fun a ha => (h.le a ha).trans (le_max_left _ _)⟩
  · simp only [hmem, forall_eq_or_imp]
    exact ⟨hout, fun a ha => (hactive a ha).1⟩
  · refine ((List.perm_orderedInsert ..).pairwise_iff fun hab => hab.symm).mpr ?_
    exact List.pairwise_cons.mpr ⟨fun a ha => (hactive a ha).2.symm, h.apart⟩
  · simp only [hmem, forall_eq_or_imp]
    exact ⟨⟨hstart, hd⟩, h.dvd⟩
  · rcases Nat.le_total extent (r.1 + i.size) with hle | hle
    · rw [Nat.max_eq_right hle]
      exact Nat.dvd_add hstart hd
    · rw [Nat.max_eq_left hle]
      exact h.extent_dvd

/-! ## What a placement keeps apart -/

/-- Two intervals with bytes are in use at one time. -/
def Interval.Meets (i j : Interval) : Prop :=
  i.size ≠ 0 ∧ j.size ≠ 0 ∧ i.first ≤ j.last ∧ j.first ≤ i.last

lemma Interval.Meets.symm {i j : Interval} (h : i.Meets j) : j.Meets i :=
  ⟨h.2.1, h.1, h.2.2.2, h.2.2.1⟩

/-- Intervals with bytes are in the order of their first uses. -/
def Ordered (intervals : List Interval) : Prop :=
  intervals.Pairwise fun i j => i.size ≠ 0 → j.size ≠ 0 → i.first ≤ j.first

/-- What is kept from a state on: the blocks in use and the new ones are apart where they meet. -/
lemma placeFrom_spec {intervals : List Interval} (h : Placed d active free extent)
    (hd : ∀ i ∈ intervals, d ∣ i.size) (hordered : Ordered intervals) {extent' : Nat}
    {starts : List Nat} (hplace : placeFrom intervals active free extent = .ok (extent', starts)) :
    extent ≤ extent' ∧ d ∣ extent' ∧ starts.length = intervals.length ∧
      (∀ p ∈ intervals.zip starts, p.2 + p.1.size ≤ extent' ∧ d ∣ p.2) ∧
      (∀ a ∈ active, ∀ p ∈ intervals.zip starts, p.1.size ≠ 0 → p.1.first ≤ a.last →
        Apart a.span (p.2, p.1.size)) ∧
      (intervals.zip starts).Pairwise fun p q =>
        p.1.Meets q.1 → Apart (p.2, p.1.size) (q.2, q.1.size) := by
  induction intervals generalizing active free extent extent' starts with
  | nil =>
      cases hplace
      exact ⟨le_refl _, h.extent_dvd, rfl, by simp, by simp, .nil⟩
  | cons i intervals ih =>
      obtain ⟨hdi, hd⟩ := List.forall_mem_cons.mp hd
      obtain ⟨hfirst, hordered⟩ := List.pairwise_cons.mp hordered
      rw [placeFrom] at hplace
      split at hplace
      · rename_i hzero
        obtain ⟨⟨extent'', starts'⟩, hrest, hplace⟩ := Except.bind_eq_ok.mp hplace
        cases hplace
        obtain ⟨hle, hdvd, hlen, hbefore, hactive, hpair⟩ := ih h hd hordered hrest
        refine ⟨hle, hdvd, by simp [hlen], ?_, ?_, ?_⟩
        · simp only [List.zip_cons_cons, List.forall_mem_cons]
          exact ⟨⟨by omega, Nat.dvd_zero d⟩, hbefore⟩
        · simp only [List.zip_cons_cons, List.forall_mem_cons]
          exact fun a ha => ⟨fun hsize => absurd hzero hsize, hactive a ha⟩
        · exact List.pairwise_cons.mpr ⟨fun p _ hmeets => absurd hzero hmeets.1, hpair⟩
      · rename_i hsize
        obtain ⟨stop, hstop, hplace⟩ := Except.bind_eq_ok.mp hplace
        obtain ⟨⟨extent'', starts'⟩, hrest, hplace⟩ := Except.bind_eq_ok.mp hplace
        cases hplace
        obtain rfl : _ = stop := plus_eq_ok hstop
        obtain ⟨hretired, hstay⟩ := h.retire i.first
        obtain ⟨hplaced, hstart, hapart⟩ := hretired.take (Nat.pos_of_ne_zero hsize) hdi
        obtain ⟨hle, hdvd, hlen, hbefore, hactive, hpair⟩ := ih hplaced hd hordered hrest
        simp only [List.mem_orderedInsert, forall_eq_or_imp] at hactive
        obtain ⟨hnew, hactive⟩ := hactive
        refine ⟨(le_max_left _ _).trans hle, hdvd, by simp [hlen], ?_, ?_, ?_⟩
        · simp only [List.zip_cons_cons, List.forall_mem_cons]
          exact ⟨⟨(le_max_right _ _).trans hle, hstart⟩, hbefore⟩
        · simp only [List.zip_cons_cons, List.forall_mem_cons]
          refine fun a ha =>
            ⟨fun _ hlast => hapart a (hstay a ha hlast), fun p hp hsizep hlast => ?_⟩
          have hearlier := hfirst p.1 (List.of_mem_zip hp).1 hsize hsizep
          exact hactive a (hstay a ha (hearlier.trans hlast)) p hp hsizep hlast
        · refine List.pairwise_cons.mpr ⟨fun p hp hmeets => ?_, hpair⟩
          exact hnew p hp hmeets.2.1 hmeets.2.2.2

/-- **Placement**: intervals in the order of their first uses take blocks before the extent, at
multiples of `d` if their sizes are, and disjoint where they are in use at one time. -/
theorem place_spec {intervals : List Interval} (hd : ∀ i ∈ intervals, d ∣ i.size)
    (hordered : Ordered intervals) {extent : Nat} {starts : List Nat}
    (hplace : place intervals = .ok (extent, starts)) :
    d ∣ extent ∧ starts.length = intervals.length ∧
      (∀ p ∈ intervals.zip starts, p.2 + p.1.size ≤ extent ∧ d ∣ p.2) ∧
      (intervals.zip starts).Pairwise fun p q =>
        p.1.Meets q.1 → Apart (p.2, p.1.size) (q.2, q.1.size) := by
  obtain ⟨-, hdvd, hlen, hbefore, -, hpair⟩ := placeFrom_spec (Placed.nil d) hd hordered hplace
  exact ⟨hdvd, hlen, hbefore, hpair⟩

/-- Intervals without bytes take nothing. -/
lemma placeFrom_of_empty {intervals : List Interval} (h : ∀ i ∈ intervals, i.size = 0)
    {extent' : Nat} {starts : List Nat}
    (hplace : placeFrom intervals active free extent = .ok (extent', starts)) :
    extent' = extent := by
  induction intervals generalizing extent' starts with
  | nil =>
      cases hplace
      rfl
  | cons i intervals ih =>
      obtain ⟨hi, h⟩ := List.forall_mem_cons.mp h
      rw [placeFrom, if_pos hi] at hplace
      obtain ⟨⟨extent'', starts'⟩, hrest, hplace⟩ := Except.bind_eq_ok.mp hplace
      cases hplace
      exact ih h hrest

end Verbosec.Native.TextStorage
