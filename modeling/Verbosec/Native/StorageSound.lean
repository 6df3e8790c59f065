import Mathlib
import Verbosec.Native.StorageAlias
import Verbosec.Native.StorageScopes

/-!
# Text buffers do not overlap

* `choosePlacement_spec` - both placements keep buffers apart that are in use at one time, outside
  opposite arms of a branch, and the chosen extent is at most the plain one.
* `Layout.Safe` - what a layout promises.
* `layout_safe` - every layout that succeeds, after any operations, keeps these promises.

Source: `native/bounded_text/storage.rs`, `Storage::layout`
-/

namespace Verbosec.Native.TextStorage

open Verbosec.Lib StorageCalls

/-! ## Sizes -/

/-- Clearing the low bits leaves whole words. -/
lemma and_wholeWords {n : Nat} (h : n < 2 ^ 64) : n &&& (2 ^ 64 - 8) = n / 8 * 8 := by
  have hmask : (2 ^ 64 - 8 : Nat) = (2 ^ 61 - 1) <<< 3 := by decide
  have hwords : n / 8 * 8 = (n / 8) <<< 3 := by simp [Nat.shiftLeft_eq]
  have hn : n / 8 < 2 ^ 61 := by omega
  refine Nat.eq_of_testBit_eq fun i => ?_
  rw [hmask, hwords, Nat.testBit_and, Nat.testBit_shiftLeft, Nat.testBit_shiftLeft,
    Nat.testBit_two_pow_sub_one]
  by_cases hi : 3 ≤ i
  · have hbit : n.testBit i = (n / 8).testBit (i - 3) := by
      rw [show (8 : Nat) = 2 ^ 3 from rfl, Nat.testBit_div_two_pow, Nat.sub_add_cancel hi]
    rw [hbit]
    by_cases hlow : i - 3 < 61
    · simp [hi, hlow]
    · have hpow : 2 ^ 61 ≤ 2 ^ (i - 3) := Nat.pow_le_pow_right (by decide) (by omega)
      simp [Nat.testBit_lt_two_pow (hn.trans_le hpow)]
  · simp [hi]

/-- The interval of a buffer: whole words for its capacity, and its uses. -/
lemma interval_eq_ok {buffer : Buffer} {i : Interval} (h : buffer.interval = .ok i) :
    ∃ cap, buffer.capacity = some cap ∧ cap ≤ i.size ∧ 8 ∣ i.size ∧ i.first = buffer.first ∧
      i.last = buffer.last := by
  unfold Buffer.interval at h
  split at h
  · cases h
  · rename_i cap hcap
    obtain ⟨n, hn, h⟩ := Except.bind_eq_ok.mp h
    cases h
    have hword : n < 2 ^ 64 := by
      unfold plus at hn
      split at hn
      · cases hn
        assumption
      · cases hn
    obtain rfl := plus_eq_ok hn
    refine ⟨cap, hcap, ?_, ?_, rfl, rfl⟩
    · dsimp only
      rw [and_wholeWords hword]
      omega
    · dsimp only
      rw [and_wholeWords hword]
      exact Nat.dvd_mul_left ..

/-! ## The choice -/

/-- Buffers of a state: whole words, in the order of their first uses. -/
structure Intervals (s : Storage) (intervals : List Interval) : Prop where
  /-- one for each buffer -/
  length : intervals.length = s.buffers.length
  /-- sizes are whole words -/
  dvd : ∀ i ∈ intervals, 8 ∣ i.size
  /-- first uses are those of the buffers -/
  firsts : intervals.map Interval.first = s.buffers.map (·.first)

section choice

variable {s : Storage} {intervals : List Interval}

lemma Intervals.ordered (h : Intervals s intervals) (hs : s.Wf) : Ordered intervals := by
  have hfirsts := h.firsts ▸ hs.firsts
  exact (List.pairwise_map.mp hfirsts).imp fun hle _ _ => hle

lemma Intervals.uses (h : Intervals s intervals) (hs : s.Wf) : Uses s.scopes intervals 8 := by
  refine ⟨h.length ▸ hs.nested.tree, h.dvd, fun i hi => ?_, fun c => ?_⟩
  · have hmem : i.first ∈ s.buffers.map (·.first) := h.firsts ▸ List.mem_map_of_mem hi
    exact (hs.clock _ hmem).trans hs.word
  · refine (hs.nested.ordered c).imp_of_mem fun {m m'} _ hm' hmm' b b' hb hb' => ?_
    have hlt := hmm' b b' hb hb'
    have hb' : b' < intervals.length :=
      h.length ▸ (under_iff.mpr ⟨m', hm', hb'⟩).lt hs.nested.tree
    rw [List.getD_eq_getElem _ _ hb', List.getD_eq_getElem _ _ (hlt.trans hb')]
    have hfirsts := h.firsts ▸ hs.firsts
    exact List.pairwise_iff_getElem.mp (List.pairwise_map.mp hfirsts) b b' (hlt.trans hb') hb' hlt

/-- The chosen placement keeps buffers in its extent, and apart where they meet outside opposite
arms; its extent is at most that of the plain placement. -/
lemma choosePlacement_spec (h : Intervals s intervals) (hs : s.Wf) {extent : Nat}
    {starts : List Nat}
    (hchoose : choosePlacement s.scopes intervals = .ok (extent, starts)) :
    (starts.length = intervals.length ∧
      (∀ b < intervals.length, (blockOf intervals starts b).1 + (blockOf intervals starts b).2 ≤
        extent ∧ 8 ∣ (blockOf intervals starts b).1) ∧
      ∀ b < intervals.length, ∀ b' < intervals.length, b ≠ b' →
        (intervals.getD b noRegion).Meets (intervals.getD b' noRegion) →
        ¬ Opposite s.scopes b b' →
        Apart (blockOf intervals starts b) (blockOf intervals starts b')) ∧
      ∃ plain, place intervals = .ok plain ∧ extent ≤ plain.1 := by
  obtain ⟨plain, hplain, hchoose⟩ := Except.bind_eq_ok.mp hchoose
  -- both placements keep buffers apart
  have hplace : plain.2.length = intervals.length ∧
      (∀ b < intervals.length, (blockOf intervals plain.2 b).1 + (blockOf intervals plain.2 b).2 ≤
        plain.1 ∧ 8 ∣ (blockOf intervals plain.2 b).1) ∧
      ∀ b < intervals.length, ∀ b' < intervals.length, b ≠ b' →
        (intervals.getD b noRegion).Meets (intervals.getD b' noRegion) →
        ¬ Opposite s.scopes b b' →
        Apart (blockOf intervals plain.2 b) (blockOf intervals plain.2 b') := by
    obtain ⟨-, hlen, hinside, hapart⟩ := place_spec h.dvd (h.ordered hs) hplain
    have hzip : ∀ b (hb : b < intervals.length), ∃ hb' : b < (intervals.zip plain.2).length,
        (intervals.zip plain.2)[b] = (intervals.getD b noRegion, plain.2.getD b 0) := by
      intro b hb
      have hb' : b < plain.2.length := hlen ▸ hb
      refine ⟨by simp [hb, hb'], ?_⟩
      rw [List.getElem_zip, List.getD_eq_getElem _ _ hb, List.getD_eq_getElem _ _ hb']
    have hpair : ∀ b < intervals.length, ∀ b' < intervals.length, b < b' →
        (intervals.getD b noRegion).Meets (intervals.getD b' noRegion) →
        Apart (blockOf intervals plain.2 b) (blockOf intervals plain.2 b') := by
      intro b hb b' hb' hlt hmeets
      obtain ⟨hzb, heq⟩ := hzip b hb
      obtain ⟨hzb', heq'⟩ := hzip b' hb'
      have hbb' := List.pairwise_iff_getElem.mp hapart b b' hzb hzb' hlt
      rw [heq, heq'] at hbb'
      exact hbb' hmeets
    refine ⟨hlen, fun b hb => ?_, fun b hb b' hb' hne hmeets _ => ?_⟩
    · obtain ⟨hzb, heq⟩ := hzip b hb
      exact hinside _ (heq ▸ List.getElem_mem hzb)
    · rcases Nat.lt_or_gt_of_ne hne with hlt | hlt
      · exact hpair b hb b' hb' hlt hmeets
      · exact (hpair b' hb' b hb hlt hmeets.symm).symm
  split at hchoose
  · obtain ⟨overlaid, hoverlaid, hchoose⟩ := Except.bind_eq_ok.mp hchoose
    replace hchoose := Except.ok.inj hchoose
    split at hchoose
    · rename_i hlt
      subst hchoose
      obtain ⟨hlen, hinside, hapart⟩ := overlay_spec (h.uses hs) hoverlaid
      have hunder : ∀ b < intervals.length, Under s.scopes 0 b := fun b hb =>
        hs.nested.placed b (h.length ▸ hb)
      exact ⟨⟨hlen, fun b hb => hinside b (hunder b hb), fun b hb b' hb' =>
        hapart b b' (hunder b hb) (hunder b' hb')⟩, plain, hplain, hlt.le⟩
    · subst hchoose
      exact ⟨hplace, _, hplain, le_refl _⟩
  · cases hchoose
    exact ⟨hplace, _, hplain, le_refl _⟩

end choice

/-! ## The layout -/

/-- A buffer of a layout, with its capacity and the offset that the code holds. -/
structure Layout.Places (l : Layout) (i : Nat) (buffer : Buffer) (cap : Nat) (offset : Int) :
    Prop where
  /-- the buffer after propagation -/
  found : l.storage.buffers[i]? = some buffer
  /-- its capacity -/
  known : buffer.capacity = some cap
  /-- its offset, at its place in the code -/
  held : l.offsets[i]? = some (buffer.address, offset)

/-- What a layout of `s` below `slots` bytes of slots promises. -/
structure Layout.Safe (s : Storage) (slots : Nat) (l : Layout) : Prop where
  /-- every buffer has a capacity and an offset -/
  places : ∀ i < s.buffers.length, ∃ buffer cap offset, l.Places i buffer cap offset
  /-- propagation only makes last uses later -/
  grows : List.Forall₂ Extends s.buffers l.storage.buffers
  /-- a buffer is in use until the last use of every pointer that may stand for its owner -/
  aliases : ∀ p q node owner i buffer, Relation.ReflTransGen s.Aliases p q →
    s.pointers.lookup p = some node → s.pointers.lookup q = some owner → owner.buffer = some i →
    l.storage.buffers[i]? = some buffer → node.last ≤ buffer.last
  /-- buffers in use at one time, not in opposite arms of a branch, share no byte -/
  disjoint : ∀ i j buffer buffer' cap cap' offset offset', l.Places i buffer cap offset →
    l.Places j buffer' cap' offset' → i ≠ j → cap ≠ 0 → cap' ≠ 0 →
    (∃ t, (buffer.first ≤ t ∧ t ≤ buffer.last) ∧ buffer'.first ≤ t ∧ t ≤ buffer'.last) →
    ¬ Opposite s.scopes i j →
    Disjoint (Set.Ico offset (offset + cap)) (Set.Ico offset' (offset' + cap'))
  /-- buffers lie in the frame, below the slots -/
  inside : ∀ i buffer cap offset, l.Places i buffer cap offset →
    -(l.bytes : Int) ≤ offset ∧ offset + cap ≤ -(slots : Int)
  /-- they start at words, if the slots are words -/
  aligned : 8 ∣ slots → ∀ i buffer cap offset, l.Places i buffer cap offset → 8 ∣ offset
  /-- the plain placement takes no less -/
  extent : ∃ intervals plain, l.storage.buffers.mapM Buffer.interval = .ok intervals ∧
    place intervals = .ok plain ∧ l.bytes ≤ slots + plain.1

lemma map_first_extends {buffers buffers' : List Buffer}
    (h : List.Forall₂ Extends buffers buffers') :
    buffers'.map (·.first) = buffers.map (·.first) := by
  induction h with
  | nil => rfl
  | cons h _ ih =>
      obtain ⟨last, -, rfl⟩ := h
      rw [List.map_cons, List.map_cons, ih]

/-- The intervals of the buffers after propagation. -/
lemma Intervals.of_mapM {s : Storage} {buffers : List Buffer} {intervals : List Interval}
    (hgrows : List.Forall₂ Extends s.buffers buffers)
    (h : List.Forall₂ (fun b i => Buffer.interval b = .ok i) buffers intervals) :
    Intervals s intervals := by
  refine ⟨h.length_eq.symm.trans hgrows.length_eq.symm, ?_, ?_⟩
  · clear hgrows
    induction h with
    | nil => simp
    | cons h _ ih =>
        obtain ⟨_, _, _, hdvd, _⟩ := interval_eq_ok h
        exact List.forall_mem_cons.mpr ⟨hdvd, ih⟩
  · rw [← map_first_extends hgrows]
    clear hgrows
    induction h with
    | nil => rfl
    | cons h _ ih =>
        obtain ⟨_, _, _, _, hfirst, _⟩ := interval_eq_ok h
        rw [List.map_cons, List.map_cons, ih, hfirst]

/-- The parts of a layout that succeeds. -/
lemma layout_eq_ok {s : Storage} {slots : Nat} {l : Layout} (h : s.layout slots = .ok l) :
    ∃ s' intervals extent starts, s.propagate = .ok s' ∧
      s'.buffers.mapM Buffer.interval = .ok intervals ∧
      choosePlacement s'.scopes intervals = .ok (extent, starts) ∧
      l = ⟨s', slots + extent, (s'.buffers.zip (intervals.zip starts)).map fun p =>
        (p.1.address, -((slots + p.2.2 + p.2.1.size : Nat) : Int))⟩ := by
  unfold Storage.layout at h
  split at h
  · cases h
  · obtain ⟨s', hpropagate, h⟩ := Except.bind_eq_ok.mp h
    obtain ⟨intervals, hintervals, h⟩ := Except.bind_eq_ok.mp h
    obtain ⟨⟨extent, starts⟩, hchoose, h⟩ := Except.bind_eq_ok.mp h
    obtain ⟨frame, -, h⟩ := Except.bind_eq_ok.mp h
    obtain ⟨frame', -, h⟩ := Except.bind_eq_ok.mp h
    split at h
    · cases h
    · cases h
      exact ⟨s', intervals, extent, starts, hpropagate, hintervals, hchoose, rfl⟩

/-- **Text buffers do not overlap**: after any operations, a layout that succeeds keeps apart the
buffers that are in use at one time. -/
theorem layout_safe {ops : List Op} {e : Emitter} {slots : Nat} {l : Layout}
    (hrun : run ops = .ok e)
    (hlayout : e.storage.layout slots = .ok l) : l.Safe e.storage slots := by
  have hs := (run_wf hrun).storage
  obtain ⟨s', intervals, extent, starts, hpropagate, hintervals, hchoose, rfl⟩ :=
    layout_eq_ok hlayout
  obtain ⟨hscopes, hgrows, haliases⟩ := propagate_spec hs.keys hpropagate
  have hall := Except.mapM_eq_ok.mp hintervals
  have hint := Intervals.of_mapM hgrows hall
  rw [hscopes] at hchoose
  obtain ⟨⟨hlen, hinside, hapart⟩, plain, hplain, hextent⟩ := choosePlacement_spec hint hs hchoose
  -- what the code holds for a buffer
  have hspan : ∀ {i buffer cap offset}, Layout.Places ⟨s', slots + extent,
      (s'.buffers.zip (intervals.zip starts)).map fun p =>
        (p.1.address, -((slots + p.2.2 + p.2.1.size : Nat) : Int))⟩ i buffer cap offset →
      i < intervals.length ∧ cap ≤ (blockOf intervals starts i).2 ∧
        8 ∣ (blockOf intervals starts i).2 ∧
        (intervals.getD i noRegion).first = buffer.first ∧
        (intervals.getD i noRegion).last = buffer.last ∧
        offset = -((slots + (blockOf intervals starts i).1 +
          (blockOf intervals starts i).2 : Nat) : Int) := by
    intro i buffer cap offset h
    obtain ⟨hi, hbuffer⟩ := List.getElem?_eq_some_iff.mp h.found
    have hi' : i < intervals.length := hall.length_eq ▸ hi
    have hi'' : i < starts.length := hlen ▸ hi'
    have hinterval := hall.get hi hi'
    simp only [List.get_eq_getElem, hbuffer] at hinterval
    obtain ⟨cap', hcap, hle, hdvd, hfirst, hlast⟩ := interval_eq_ok hinterval
    obtain rfl : cap' = cap := Option.some.inj (hcap.symm.trans h.known)
    have hzip : i < ((s'.buffers.zip (intervals.zip starts)).map fun p =>
        (p.1.address, -((slots + p.2.2 + p.2.1.size : Nat) : Int))).length := by
      simp [hi, hi', hi'']
    have hheld := (List.getElem?_eq_getElem hzip).symm.trans h.held
    simp only [List.getElem_map, List.getElem_zip] at hheld
    simp only [blockOf, List.getD_eq_getElem _ _ hi', List.getD_eq_getElem _ _ hi'']
    exact ⟨hi', hle, hdvd, hfirst, hlast, (Prod.mk.inj (Option.some.inj hheld)).2.symm⟩
  refine ⟨fun i hi => ?_, hgrows, haliases, ?_, ?_, ?_,
    ⟨intervals, plain, hintervals, hplain, Nat.add_le_add_left hextent _⟩⟩
  · have hi₁ : i < s'.buffers.length := hgrows.length_eq ▸ hi
    have hi₂ : i < intervals.length := hall.length_eq ▸ hi₁
    have hi₃ : i < starts.length := hlen ▸ hi₂
    obtain ⟨cap, hcap, -⟩ := interval_eq_ok (hall.get hi₁ hi₂)
    refine ⟨s'.buffers[i], cap, -((slots + starts[i] + intervals[i].size : Nat) : Int),
      List.getElem?_eq_getElem hi₁, hcap, ?_⟩
    rw [List.getElem?_eq_getElem (by simp [hi₁, hi₂, hi₃]), List.getElem_map, List.getElem_zip,
      List.getElem_zip]
  · intro i j buffer buffer' cap cap' offset offset' h h' hne hcap hcap' hmeet hopposite
    obtain ⟨hi, hle, -, hfirst, hlast, rfl⟩ := hspan h
    obtain ⟨hj, hle', -, hfirst', hlast', rfl⟩ := hspan h'
    obtain ⟨t, ⟨ht₁, ht₂⟩, ht₁', ht₂'⟩ := hmeet
    have hblock : ∀ k, (blockOf intervals starts k).2 = (intervals.getD k noRegion).size :=
      fun k => rfl
    have hmeets : (intervals.getD i noRegion).Meets (intervals.getD j noRegion) := by
      refine ⟨?_, ?_, ?_, ?_⟩
      · rw [← hblock]
        omega
      · rw [← hblock]
        omega
      · rw [hfirst, hlast']
        exact ht₁.trans ht₂'
      · rw [hfirst', hlast]
        exact ht₁'.trans ht₂
    have happart := hapart i hi j hj hne hmeets hopposite
    rw [Set.disjoint_left]
    rintro a ⟨ha₁, ha₂⟩ ⟨ha₁', ha₂'⟩
    simp only [Apart] at happart
    omega
  · intro i buffer cap offset h
    obtain ⟨hi, hle, -, -, -, rfl⟩ := hspan h
    have hin := (hinside i hi).1
    dsimp only
    omega
  · intro hslots i buffer cap offset h
    obtain ⟨hi, -, hdvd, -, -, rfl⟩ := hspan h
    have hin := (hinside i hi).2
    omega

/-- A text in use beside those of the arms of a branch, with the joined pointer used after it. -/
theorem layout_safe_branch : ∃ e l,
    run [.pointer 0, .reserve 0 (some 5) "text" 0, .pointer 3, .branch, .pointer 1,
      .reserve 1 (some 16) "left" 4, .alias 3 1, .otherwise 0, .pointer 2,
      .reserve 2 none "right" 8, .capacity 2 24, .alias 3 2, .endBranch 0, .touch 3, .touch 0] =
        .ok e ∧
      e.storage.layout 16 = .ok l ∧ l.offsets = [(0, -24), (4, -40), (8, -48)] ∧
      l.Safe e.storage 16 := by
  obtain ⟨e, l, hrun, hlayout, hoffsets⟩ : ∃ e l,
      run [.pointer 0, .reserve 0 (some 5) "text" 0, .pointer 3, .branch, .pointer 1,
        .reserve 1 (some 16) "left" 4, .alias 3 1, .otherwise 0, .pointer 2,
        .reserve 2 none "right" 8, .capacity 2 24, .alias 3 2, .endBranch 0, .touch 3, .touch 0] =
          .ok e ∧
        e.storage.layout 16 = .ok l ∧ l.offsets = [(0, -24), (4, -40), (8, -48)] :=
    ⟨_, _, rfl, rfl, by decide⟩
  exact ⟨e, l, hrun, hlayout, hoffsets, layout_safe hrun hlayout⟩

end Verbosec.Native.TextStorage
