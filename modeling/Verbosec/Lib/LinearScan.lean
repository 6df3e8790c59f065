import Mathlib.Data.List.Nodup
import Mathlib.Data.List.Perm.Basic
import Mathlib.Data.List.Perm.Subperm

/-!
# Linear scan allocation

* `Span` - a closed interval of positions; `Span.Meets` two with a common position.
* `Scan`, `Scan.allocate` - words are given to spans in the order of their starts, the least free one
  each, after those of the spans that have ended are freed.
* `Scan.Valid` - what holds after any number of spans; `Valid.allocate` is its invariance.
* `Scan.Valid.separated`, `Scan.Valid.live_le`, `Scan.Valid.exists_live` - spans that meet have
  different words, and there are as many words as spans that are live at one position at most.
-/

namespace Verbosec.Lib

/-! ## Spans -/

/-- A closed interval of positions. -/
structure Span where
  first : Nat
  last : Nat
  deriving DecidableEq, Repr

/-- Does a span contain a position? -/
def Span.live (s : Span) (x : Nat) : Bool := s.first ≤ x && x ≤ s.last

/-- Spans with a common position. -/
def Span.Meets (s t : Span) : Prop := s.first ≤ t.last ∧ t.first ≤ s.last

lemma Span.meets_of_live {s t : Span} {x : Nat} (hs : s.live x) (ht : t.live x) : s.Meets t := by
  simp only [live, Bool.and_eq_true, decide_eq_true_eq] at hs ht
  exact ⟨Nat.le_trans hs.1 ht.2, Nat.le_trans ht.1 hs.2⟩

/-! ## The scan -/

/-- The state of the scan. -/
structure Scan (ι : Type*) where
  /-- the words in use, with the ends of their spans -/
  active : List (Nat × Nat)
  /-- the words that can be used again -/
  free : List Nat
  /-- the number of words -/
  peak : Nat
  /-- the spans so far with their words, the last one first -/
  word : List (ι × Nat)
  deriving Repr

namespace Scan

variable {ι : Type*}

/-- The state before the first span. -/
def empty : Scan ι := ⟨[], [], 0, []⟩

variable (span : ι → Span)

/-- The words of the spans that have ended before a position are freed. -/
def expire (s : Scan ι) (first : Nat) : Scan ι :=
  { s with
    active := s.active.filter fun a => !(a.1 < first)
    free := s.free ++ (s.active.filter fun a => a.1 < first).map Prod.snd }

/-- The next span is given the least free word, or a new one. -/
def allocate (s : Scan ι) (id : ι) : Scan ι :=
  let s := s.expire (span id).first
  match s.free.min? with
  | some w =>
      { s with
        active := ((span id).last, w) :: s.active, free := s.free.erase w, word := (id, w) :: s.word }
  | none =>
      { s with
        active := ((span id).last, s.peak + 1) :: s.active, peak := s.peak + 1
        word := (id, s.peak + 1) :: s.word }

/-! ## Invariance -/

/-- What holds after some spans, the last of which starts at `now`. -/
structure Valid (now : Nat) (s : Scan ι) : Prop where
  /-- every word is in use or free -/
  words : (s.active.map Prod.snd ++ s.free).Perm ((List.range s.peak).map (· + 1))
  /-- a word in use is that of a span -/
  used : ∀ a ∈ s.active, ∃ id, (id, a.2) ∈ s.word ∧ (span id).last = a.1
  /-- a span that has not ended uses its word -/
  kept : ∀ p ∈ s.word, now ≤ (span p.1).last → ((span p.1).last, p.2) ∈ s.active
  /-- the spans start at `now` at the latest -/
  started : ∀ p ∈ s.word, (span p.1).first ≤ now
  /-- the words are numbered from one -/
  bounded : ∀ p ∈ s.word, 1 ≤ p.2 ∧ p.2 ≤ s.peak
  /-- spans that meet have different words -/
  separated : s.word.Pairwise fun p q => (span p.1).Meets (span q.1) → p.2 ≠ q.2
  /-- at some position as many spans are live as there are words -/
  attained : s.peak = 0 ∨ ∃ x, s.peak ≤ s.word.countP fun p => (span p.1).live x

variable {span}

lemma valid_empty : Valid span 0 (empty : Scan ι) :=
  ⟨by simp [empty], by simp [empty], by simp [empty], by simp [empty], by simp [empty],
    by simp [empty], .inl rfl⟩

variable {now : Nat} {s : Scan ι}

/-- Freeing the words of spans that have ended. -/
lemma Valid.expire (hs : s.Valid span now) {first : Nat} (hnow : now ≤ first) :
    ((s.expire first).active.map Prod.snd ++ (s.expire first).free).Perm
        ((List.range s.peak).map (· + 1)) ∧
      (∀ a ∈ (s.expire first).active, first ≤ a.1 ∧ ∃ id, (id, a.2) ∈ s.word ∧
        (span id).last = a.1) ∧
      ∀ p ∈ s.word, first ≤ (span p.1).last → ((span p.1).last, p.2) ∈ (s.expire first).active := by
  refine ⟨?_, fun a ha => ?_, fun p hp hlast => ?_⟩
  · refine List.Perm.trans (List.perm_iff_count.mpr fun w => ?_) hs.words
    have hsplit := List.filter_append_perm (fun a : Nat × Nat => a.1 < first) s.active
    have hcount := (hsplit.map Prod.snd).count_eq w
    rw [List.map_append, List.count_append] at hcount
    simp only [Scan.expire, List.count_append]
    omega
  · simp only [Scan.expire, List.mem_filter, Bool.not_eq_true', decide_eq_false_iff_not,
      Nat.not_lt] at ha
    exact ⟨ha.2, hs.used a ha.1⟩
  · simp only [Scan.expire, List.mem_filter, Bool.not_eq_true', decide_eq_false_iff_not, Nat.not_lt]
    exact ⟨hs.kept p hp (Nat.le_trans hnow hlast), hlast⟩

/-- What a word has to satisfy to be given to the next span. -/
lemma Valid.give (hs : s.Valid span now) {id : ι} (hnow : now ≤ (span id).first)
    {active : List (Nat × Nat)} {free : List Nat} {w peak : Nat}
    (hused : ∀ a ∈ active, (span id).first ≤ a.1 ∧ ∃ id, (id, a.2) ∈ s.word ∧ (span id).last = a.1)
    (hkept : ∀ p ∈ s.word, (span id).first ≤ (span p.1).last → ((span p.1).last, p.2) ∈ active)
    (hwords : (w :: active.map Prod.snd ++ free).Perm ((List.range peak).map (· + 1)))
    (hpeak : s.peak ≤ peak)
    (hattained : ∃ x, peak ≤ ((id, w) :: s.word).countP fun p => (span p.1).live x) :
    (⟨((span id).last, w) :: active, free, peak, (id, w) :: s.word⟩ : Scan ι).Valid span
      (span id).first := by
  have hnodup : (w :: active.map Prod.snd ++ free).Nodup := by
    rw [hwords.nodup_iff]
    exact List.nodup_range.map fun _ _ h => Nat.add_right_cancel h
  have hfresh : ∀ a ∈ active, a.2 ≠ w := fun a ha h => by
    rw [List.cons_append, List.nodup_cons] at hnodup
    exact hnodup.1 (List.mem_append_left _ (List.mem_map.mpr ⟨a, ha, h⟩))
  have hw : 1 ≤ w ∧ w ≤ peak := by
    have hmem : w ∈ (List.range peak).map (· + 1) := hwords.mem_iff.mp (by simp)
    obtain ⟨i, hi, rfl⟩ := List.mem_map.mp hmem
    have := List.mem_range.mp hi
    omega
  refine ⟨hwords, ?_, ?_, ?_, ?_, ?_, .inr hattained⟩
  · simp only [List.forall_mem_cons]
    refine ⟨⟨id, List.mem_cons_self, rfl⟩, fun a ha => ?_⟩
    obtain ⟨-, id', hid', hlast⟩ := hused a ha
    exact ⟨id', List.mem_cons_of_mem _ hid', hlast⟩
  · simp only [List.forall_mem_cons]
    exact ⟨fun _ => List.mem_cons_self, fun p hp hlast => List.mem_cons_of_mem _ (hkept p hp hlast)⟩
  · simp only [List.forall_mem_cons]
    exact ⟨Nat.le_refl _, fun p hp => Nat.le_trans (hs.started p hp) hnow⟩
  · simp only [List.forall_mem_cons]
    refine ⟨hw, fun p hp => ?_⟩
    have := hs.bounded p hp
    omega
  · rw [List.pairwise_cons]
    refine ⟨fun q hq hmeets h => ?_, hs.separated⟩
    -- a span that meets the new one has not ended: its word is in use
    exact hfresh _ (hkept q hq hmeets.1) h.symm

/-- The spans that use a word are live at the start of the next one. -/
lemma Valid.active_le (hs : s.Valid span now) {first : Nat} (hnow : now ≤ first)
    {active : List (Nat × Nat)} (hnodup : (active.map Prod.snd).Nodup)
    (hused : ∀ a ∈ active, first ≤ a.1 ∧ ∃ id, (id, a.2) ∈ s.word ∧ (span id).last = a.1) :
    active.length ≤ s.word.countP fun p => (span p.1).live first := by
  have hsub : active.map Prod.snd ⊆ (s.word.filter fun p => (span p.1).live first).map Prod.snd := by
    intro w hw
    obtain ⟨a, ha, rfl⟩ := List.mem_map.mp hw
    obtain ⟨hlast, id, hid, hend⟩ := hused a ha
    have hlive : (span id).live first := by
      have := hs.started _ hid
      simp only [Span.live, Bool.and_eq_true, decide_eq_true_eq]
      dsimp only at this
      omega
    exact List.mem_map.mpr ⟨(id, a.2), List.mem_filter.mpr ⟨hid, hlive⟩, rfl⟩
  have hle := (hnodup.subperm hsub).length_le
  rwa [List.length_map, List.length_map, ← List.countP_eq_length_filter] at hle

/-- **The next span** is given a word of no span that it meets. -/
theorem Valid.allocate (hs : s.Valid span now) {id : ι} (hnow : now ≤ (span id).first)
    (hspan : (span id).first ≤ (span id).last) :
    (s.allocate span id).Valid span (span id).first := by
  obtain ⟨hwords, hused, hkept⟩ := hs.expire hnow
  have hnodup : (((s.expire (span id).first).active.map Prod.snd) ++
      (s.expire (span id).first).free).Nodup := by
    rw [hwords.nodup_iff]
    exact List.nodup_range.map fun _ _ h => Nat.add_right_cancel h
  unfold Scan.allocate
  dsimp only
  split
  · case _ w hw =>
    have hmem : w ∈ (s.expire (span id).first).free := List.min?_mem hw
    have hperm : (w :: (s.expire (span id).first).active.map Prod.snd ++
        (s.expire (span id).first).free.erase w).Perm ((List.range s.peak).map (· + 1)) := by
      refine List.Perm.trans ?_ hwords
      rw [List.cons_append]
      refine List.perm_middle.symm.trans ?_
      exact List.Perm.append_left _ (List.perm_cons_erase hmem).symm
    refine hs.give hnow hused hkept hperm (Nat.le_refl _) ?_
    rcases hs.attained with hzero | ⟨x, hx⟩
    · -- without words none is free
      have : w ∈ (List.range s.peak).map (· + 1) :=
        hwords.mem_iff.mp (List.mem_append_right _ hmem)
      rw [hzero] at this
      simp at this
    · refine ⟨x, Nat.le_trans hx ?_⟩
      rw [List.countP_cons]
      exact Nat.le_add_right _ _
  · case _ hnone =>
    have hfree : (s.expire (span id).first).free = [] := List.min?_eq_none_iff.mp hnone
    rw [hfree, List.append_nil] at hwords hnodup
    rw [hfree]
    refine hs.give hnow hused hkept ?_ (Nat.le_succ _) ⟨(span id).first, ?_⟩
    · rw [List.append_nil, List.range_succ, List.map_append]
      exact (hwords.cons _).trans (List.perm_append_singleton _ _).symm
    · have hlength := hwords.length_eq
      simp only [List.length_map, List.length_range] at hlength
      have hle := hs.active_le hnow hnodup hused
      have hlive : (span id).live (span id).first := by simp [Span.live, hspan]
      rw [List.countP_cons]
      simp only [hlive, if_true]
      have hpeak : (s.expire (span id).first).peak = s.peak := rfl
      omega

/-- A list of spans in the order of their starts is given words. -/
theorem Valid.run (hspan : ∀ id, (span id).first ≤ (span id).last) :
    ∀ {ids : List ι} {now : Nat} {s : Scan ι}, s.Valid span now →
      ids.Pairwise (fun a b => (span a).first ≤ (span b).first) →
      (∀ id ∈ ids, now ≤ (span id).first) →
        ∃ now', (ids.foldl (Scan.allocate span) s).Valid span now' ∧
          (ids.foldl (Scan.allocate span) s).word.map Prod.fst =
            ids.reverse ++ s.word.map Prod.fst
  | [], now, s, hs, _, _ => ⟨now, hs, by simp⟩
  | id :: ids, now, s, hs, hsorted, hnow => by
      rw [List.pairwise_cons] at hsorted
      obtain ⟨now', hvalid, hids⟩ := Valid.run hspan
        (hs.allocate (hnow id List.mem_cons_self) (hspan id)) hsorted.2 hsorted.1
      refine ⟨now', hvalid, ?_⟩
      rw [List.foldl_cons, hids, List.reverse_cons, List.append_assoc]
      refine congrArg _ ?_
      unfold Scan.allocate
      dsimp only
      split <;> rfl

/-! ## The number of words -/

/-- No more spans are live at one position than there are words. -/
theorem Valid.live_le (hs : s.Valid span now) (x : Nat) :
    (s.word.countP fun p => (span p.1).live x) ≤ s.peak := by
  have hnodup : ((s.word.filter fun p => (span p.1).live x).map Prod.snd).Nodup := by
    rw [List.Nodup, List.pairwise_map]
    refine List.Pairwise.imp_of_mem ?_ (hs.separated.sublist List.filter_sublist)
    intro p q hp hq hne
    exact hne (Span.meets_of_live (List.mem_filter.mp hp).2 (List.mem_filter.mp hq).2)
  have hsub : (s.word.filter fun p => (span p.1).live x).map Prod.snd ⊆
      (List.range s.peak).map (· + 1) := by
    intro w hw
    obtain ⟨p, hp, rfl⟩ := List.mem_map.mp hw
    have := hs.bounded p (List.mem_filter.mp hp).1
    exact List.mem_map.mpr ⟨p.2 - 1, List.mem_range.mpr (by omega), by omega⟩
  have hle := (hnodup.subperm hsub).length_le
  rwa [List.length_map, List.length_map, List.length_range, ← List.countP_eq_length_filter] at hle

/-- At some position as many spans are live as there are words. -/
theorem Valid.exists_live (hs : s.Valid span now) (hpeak : s.peak ≠ 0) :
    ∃ x, (s.word.countP fun p => (span p.1).live x) = s.peak := by
  rcases hs.attained with hzero | ⟨x, hx⟩
  · exact absurd hzero hpeak
  · exact ⟨x, Nat.le_antisymm (hs.live_le x) hx⟩

end Scan

end Verbosec.Lib
