import Mathlib.Data.List.Sort
import Verbosec.Native.StorageCalls

/-!
# The sweep over the callers' storage is the direct scan

* `Buffer.bytes`, `held`, `scan` - the bytes that a direct scan over all buffers gives to a call.
* `Swept` - the invariant of the sweep: the tree holds the bytes of the buffers that have entered it,
  by the positions of their last uses.
* `addFrom_eq`, `before_eq`, `reserve_cases`, `sweep_cases` - the loops keep the invariant, and none
  of them panics.
* `report_eq_scan` - the report is the direct scan. The buffers are a slice, which has fewer than
  `2 ^ 63` elements; more nodes would leave a word.

Source: `native/bounded_text/storage/calls.rs`
-/

namespace Verbosec.Native.StorageCalls

open Verbosec.Lib Fenwick

/-! ## The direct scan -/

/-- The bytes of a buffer of known capacity. -/
def Buffer.bytes (buffer : Buffer) : Nat := (buffer.capacity.getD 0 + 7) &&& (2 ^ 64 - 8)

/-- The capacity is known, and a word holds it in whole words. -/
def Buffer.Sized (buffer : Buffer) : Prop := ∃ n ∈ buffer.capacity, n + 7 < 2 ^ 64

instance : DecidablePred Buffer.Sized := fun buffer =>
  inferInstanceAs (Decidable (∃ n ∈ buffer.capacity, n + 7 < 2 ^ 64))

/-- The bytes of some buffers. -/
def held (buffers : List Buffer) : Nat := (buffers.map Buffer.bytes).sum

/-- The bytes of the buffers that are first used before a call and last used at `finish` or later.
Source: `native/bounded_text/storage/calls.rs`, the tests -/
def scan (buffers : List Buffer) (call : Call) (finish : Nat) : Nat :=
  held (buffers.filter fun buffer => buffer.first < call.first ∧ finish ≤ buffer.last)

/-- The report of a call by direct scans. -/
def scanReport (buffers : List Buffer) (call : Call) : CallStorage :=
  ⟨call.callee, call.parent, scan buffers call call.first, scan buffers call call.last⟩

/-- Some call finds the buffer in use. -/
def Found (calls : List Call) (buffer : Buffer) : Prop := ∃ call ∈ calls, buffer.first < call.first

instance (calls : List Call) : DecidablePred (Found calls) := fun buffer =>
  inferInstanceAs (Decidable (∃ call ∈ calls, buffer.first < call.first))

/-- What a report asks of calls and buffers: every call has ended, and the buffers found by calls
have sizes, whose sum is a word. -/
structure Measured (calls : List Call) (buffers : List Buffer) : Prop where
  /-- no call ends before it starts -/
  complete : ∀ call ∈ calls, call.first ≤ call.last
  /-- the buffers in use are of known capacity -/
  sized : ∀ buffer ∈ buffers, Found calls buffer → buffer.Sized
  /-- together they fit a word -/
  fits : held (buffers.filter (Found calls)) < 2 ^ 64

lemma not_found_nil (buffer : Buffer) : ¬ Found [] buffer := by
  simp [Found]

lemma found_cons {call : Call} {calls : List Call} {buffer : Buffer} :
    Found (call :: calls) buffer ↔ buffer.first < call.first ∨ Found calls buffer := by
  simp [Found]

lemma held_append (l₁ l₂ : List Buffer) : held (l₁ ++ l₂) = held l₁ + held l₂ := by
  simp [held]

/-- A selection and the rest. -/
lemma held_filter_add (p : Buffer → Prop) [DecidablePred p] (l : List Buffer) :
    held (l.filter p) + held (l.filter fun b => ¬ p b) = held l := by
  induction l with
  | nil => rfl
  | cons b l ih =>
      by_cases hb : p b <;> simp [held, hb] at ih ⊢ <;> omega

lemma size_of_sized {b : Buffer} (h : b.Sized) : b.size = .ok b.bytes := by
  obtain ⟨n, hn, hword⟩ := h
  simp only [Buffer.size, Buffer.bytes, Option.mem_def.mp hn, plus_of_lt hword, Option.getD_some]
  rfl

lemma size_of_not_sized {b : Buffer} (h : ¬ b.Sized) : ∃ m, b.size = .error (error m) := by
  cases hcap : b.capacity with
  | none => exact ⟨_, by simp only [Buffer.size, hcap]; rfl⟩
  | some n =>
      have hword : ¬ n + 7 < 2 ^ 64 := fun hword => h ⟨n, hcap, hword⟩
      exact ⟨_, by simp only [Buffer.size, hcap, plus_of_not_lt hword]; rfl⟩

/-! ## The positions of the last uses -/

lemma mem_destutter' {a x : Nat} {l : List Nat} (h : x ∈ a :: l) :
    x ∈ l.destutter' (· ≠ ·) a := by
  induction l generalizing a with
  | nil => simpa using h
  | cons b l ih =>
      rw [List.destutter'_cons]
      split
      · rcases List.mem_cons.mp h with rfl | h
        · exact List.mem_cons_self
        · exact List.mem_cons_of_mem _ (ih h)
      · rename_i hab
        obtain rfl := not_ne_iff.mp hab
        exact ih (by simpa using h)

/-- Every last use has a position. -/
lemma last_mem_ends {buffers : List Buffer} {b : Buffer} (hb : b ∈ buffers) :
    b.last ∈ ends buffers := by
  have hsorted : b.last ∈ (buffers.map Buffer.last).mergeSort (· ≤ ·) :=
    List.mem_mergeSort.mpr (List.mem_map_of_mem hb)
  unfold ends
  cases h : (buffers.map Buffer.last).mergeSort (· ≤ ·) with
  | nil => simp [h] at hsorted
  | cons a l => exact mem_destutter' (h ▸ hsorted)

/-- The last uses rise. -/
lemma pairwise_ends (buffers : List Buffer) : (ends buffers).Pairwise (· < ·) := by
  have hle : (ends buffers).Pairwise (· ≤ ·) :=
    (List.pairwise_mergeSort' (· ≤ ·) (buffers.map Buffer.last)).sublist
      (List.destutter_sublist ..)
  have hne : (ends buffers).IsChain (· ≠ ·) := List.isChain_destutter ..
  refine List.isChain_iff_pairwise.mp (List.isChain_iff_getElem.mpr fun i hi => ?_)
  exact Nat.lt_of_le_of_ne (List.isChain_iff_getElem.mp hle.isChain i hi)
    (List.isChain_iff_getElem.mp hne i hi)

lemma length_ends_le (buffers : List Buffer) : (ends buffers).length ≤ buffers.length := by
  have h := (List.destutter_sublist (· ≠ ·)
    ((buffers.map Buffer.last).mergeSort (· ≤ ·))).length_le
  simpa [ends] using h

/-- The search finds the position. -/
lemma binarySearch_eq {ends : List Nat} {x : Nat} (hx : x ∈ ends) :
    binarySearch ends x = .ok (ends.idxOf x) := by
  have hfound : ends.idxOf? x = some (ends.idxOf x) := by
    refine List.idxOf?_eq_some_iff.mpr ⟨List.idxOf_lt_length_iff.mpr hx, List.getElem_idxOf _, ?_⟩
    intro j hj
    simpa using List.not_of_lt_findIdx hj
  rw [binarySearch, hfound]

/-- A position comes before the partition point of `y` exactly where its last use comes before
`y`. -/
lemma idxOf_lt_partitionPoint {ends : List Nat} (h : ends.Pairwise (· < ·)) {x : Nat}
    (hx : x ∈ ends) (y : Nat) : ends.idxOf x < partitionPoint ends y ↔ x < y := by
  induction ends with
  | nil => simp at hx
  | cons e ends ih =>
      obtain ⟨hlt, h⟩ := List.pairwise_cons.mp h
      by_cases hey : e < y
      · by_cases hxe : x = e
        · subst hxe
          simp [partitionPoint, hey]
        · have hmem : x ∈ ends := (List.mem_cons.mp hx).resolve_left hxe
          have hih := ih h hmem
          simp only [partitionPoint] at hih
          rw [List.idxOf_cons_ne _ (Ne.symm hxe)]
          simpa [partitionPoint, hey] using hih
      · have hxy : ¬ x < y := by
          rcases List.mem_cons.mp hx with rfl | hmem
          · exact hey
          · have := hlt x hmem
            omega
        simp [partitionPoint, hey, hxy]

lemma partitionPoint_le (ends : List Nat) (y : Nat) : partitionPoint ends y ≤ ends.length :=
  (List.takeWhile_sublist _).length_le

/-! ## The tree of sums -/

/-- The bytes of the buffers at the first `count` positions. -/
def sumBefore (ends : List Nat) (done : List Buffer) (count : Nat) : Nat :=
  held (done.filter fun b => ends.idxOf b.last < count)

lemma sumBefore_le (ends : List Nat) (done : List Buffer) (count : Nat) :
    sumBefore ends done count ≤ held done := by
  have hsplit := held_filter_add (fun b => ends.idxOf b.last < count) done
  unfold sumBefore
  omega

/-- A buffer counts from its position on. -/
lemma sumBefore_append (ends : List Nat) (done : List Buffer) (b : Buffer) :
    sumBefore ends (done ++ [b]) = fun count =>
      sumBefore ends done count + if ends.idxOf b.last + 1 ≤ count then b.bytes else 0 := by
  funext count
  simp only [sumBefore, List.filter_append, held_append, Nat.succ_le_iff]
  by_cases hcount : ends.idxOf b.last < count <;> simp [held, hcount]

/-- The loop that adds a size is the addition along the chain, as long as no sum leaves a word. -/
lemma addFrom_eq {sums : List Nat} {node : Node} {k bytes : Nat} (hlen : sums.length ≤ 2 ^ 63)
    (hcovers : Covers node.1 k)
    (hword : ∀ i (h : i < sums.length), node.1 ≤ i → Covers i k → sums[i] + bytes < 2 ^ 64) :
    addFrom sums node bytes = .ok (Fenwick.addFrom sums node.1 k bytes) := by
  induction hm : sums.length - node.1 using Nat.strong_induction_on generalizing sums node with
  | _ m ih =>
      rw [addFrom]
      by_cases h : node.1 < sums.length
      · have hpos : 0 < lowBit node.1 := lowBit_pos node.2.1
        have hle : lowBit node.1 ≤ node.1 := lowBit_le _
        have hnext := node.next_eq (by omega)
        rw [dif_pos h, plus_of_lt (hword _ h (le_refl _) hcovers)]
        simp only [bind, Except.bind]
        split
        · rename_i next hsome
          obtain rfl := Except.ok.inj (hnext.symm.trans hsome)
          rw [← addFrom_next bytes hcovers h]
          refine ih _ ?_ (by simpa using hlen) hcovers.next (fun i hi hge hk => ?_) rfl
          · simp only [List.length_set]
            omega
          · rw [List.length_set] at hi
            rw [List.getElem_set_ne (by dsimp only at hge; omega)]
            exact hword i hi (by dsimp only at hge; omega) hk
        · rename_i e herror
          exact absurd (hnext.symm.trans herror) (by simp)
      · rw [dif_neg h, addFrom_of_length_le _ _ (Nat.le_of_not_lt h)]

/-- Adding a size to a tree whose prefix sums stay words. -/
lemma add_eq {sums : List Nat} {p : Nat → Nat} {bytes : Nat} (hp : Prefixes sums p)
    (hlen : sums.length ≤ 2 ^ 63) {index : Nat} (hindex : index + 1 < sums.length)
    (hword : ∀ c, p c + bytes < 2 ^ 64) :
    add sums index bytes = .ok (Fenwick.addFrom sums (index + 1) (index + 1) bytes) := by
  rw [add, dif_pos (by omega)]
  refine addFrom_eq hlen (Covers.self (Nat.succ_pos _)) fun i hi hge _ => ?_
  have hnode := hp.node i (by dsimp only at hge; omega) hi
  have hsum := hword i
  omega

/-- The loop that reads a prefix sum. -/
lemma before_eq {sums : List Nat} {p : Nat → Nat} (hp : Prefixes sums p) {count sum : Nat}
    (hcount : count < sums.length) (hword : sum + p count < 2 ^ 64) :
    before sums count sum = .ok (sum + p count) := by
  induction count using Nat.strong_induction_on generalizing sum with
  | _ count ih =>
      rw [before]
      by_cases hzero : count = 0
      · subst hzero
        rw [dif_pos rfl, hp.zero, Nat.add_zero]
      · have hnode := hp.node count (by omega) hcount
        have hpos : 0 < lowBit count := lowBit_pos (by omega)
        rw [dif_neg hzero, dif_pos hcount, plus_of_lt (by omega), and_sub_one]
        calc before sums (count - lowBit count) (sum + sums[count])
            = .ok (sum + sums[count] + p (count - lowBit count)) :=
              ih _ (by omega) (by omega) (by omega)
          _ = .ok (sum + p count) := by rw [← hnode]; congr 1; omega

/-! ## The sweep -/

/-- The sizes of `buffers` are known, and a word holds them together with those of `done`. -/
def Fits (done buffers : List Buffer) : Prop :=
  (∀ b ∈ buffers, b.Sized) ∧ held (done ++ buffers) < 2 ^ 64

lemma fits_cons {done buffers : List Buffer} {b : Buffer} :
    Fits done (b :: buffers) ↔ b.Sized ∧ Fits (done ++ [b]) buffers := by
  simp [Fits, and_assoc]

lemma fits_append {done l₁ l₂ : List Buffer} :
    Fits done (l₁ ++ l₂) ↔ Fits done l₁ ∧ Fits (done ++ l₁) l₂ := by
  simp only [Fits, List.forall_mem_append, held_append, List.append_assoc]
  refine ⟨fun ⟨⟨h₁, h₂⟩, h⟩ => ⟨⟨h₁, by omega⟩, h₂, h⟩, fun ⟨⟨h₁, _⟩, h₂, h⟩ => ⟨⟨h₁, h₂⟩, h⟩⟩

/-- The invariant of the sweep: the tree holds the bytes of the buffers that have entered it, by the
positions of their last uses. -/
structure Swept (ends : List Nat) (done : List Buffer) (s : Sweep) : Prop where
  /-- a node for each position, above the unused one -/
  length : s.sums.length = ends.length + 1
  /-- prefix sums of bytes by last use -/
  prefixes : Prefixes s.sums (sumBefore ends done)
  /-- all bytes -/
  total : s.total = held done
  /-- they fit a word -/
  word : held done < 2 ^ 64

section sweep

variable {ends : List Nat} (hends : ends.length < 2 ^ 63)

/-- At the start no buffer is in the tree. -/
lemma Swept.start (ends : List Nat) (buffers : List Buffer) :
    Swept ends [] ⟨buffers, List.replicate (ends.length + 1) 0, 0⟩ :=
  ⟨by simp, Prefixes.replicate _, rfl, Nat.two_pow_pos 64⟩

include hends in
/-- One buffer enters the tree. -/
lemma Swept.add {done : List Buffer} {s : Sweep} (h : Swept ends done s) {b : Buffer}
    (hmem : b.last ∈ ends) (hword : held (done ++ [b]) < 2 ^ 64) (rest : List Buffer) :
    ∃ sums, add s.sums (ends.idxOf b.last) b.bytes = .ok sums ∧
      Swept ends (done ++ [b]) ⟨rest, sums, s.total + b.bytes⟩ := by
  have hindex : ends.idxOf b.last < ends.length := List.idxOf_lt_length_iff.mpr hmem
  have hlength := h.length
  have hheld : held (done ++ [b]) = held done + b.bytes := by simp [held]
  refine ⟨_, add_eq h.prefixes (by omega) (by omega) fun c => ?_, ?_⟩
  · have hle := sumBefore_le ends done c
    omega
  · refine ⟨by simp [hlength], ?_, by rw [hheld, ← h.total], hword⟩
    rw [sumBefore_append]
    exact h.prefixes.add (Nat.succ_pos _) b.bytes

include hends in
/-- The buffers first used before `first` enter the tree, or their sizes do not fit. -/
lemma reserve_cases {done : List Buffer} {s : Sweep} (h : Swept ends done s)
    (hmem : ∀ b ∈ s.buffers, b.last ∈ ends) (first : Nat) :
    (Fits done (s.buffers.takeWhile (·.first < first)) ∧
        ∃ s', reserve ends first s.buffers s.sums s.total = .ok s' ∧
          s'.buffers = s.buffers.dropWhile (·.first < first) ∧
          Swept ends (done ++ s.buffers.takeWhile (·.first < first)) s') ∨
      (¬ Fits done (s.buffers.takeWhile (·.first < first)) ∧
        ∃ m, reserve ends first s.buffers s.sums s.total = .error (error m)) := by
  obtain ⟨buffers, sums, total⟩ := s
  dsimp only at hmem ⊢
  induction buffers generalizing done sums total with
  | nil =>
      refine .inl ⟨⟨by simp, by simpa using h.word⟩, _, rfl, rfl, ?_⟩
      simpa using h
  | cons b buffers ih =>
      by_cases hfirst : b.first < first
      · simp only [reserve, List.takeWhile_cons_of_pos, List.dropWhile_cons_of_pos,
          hfirst, decide_true, fits_cons]
        by_cases hsized : b.Sized
        · by_cases hword : held (done ++ [b]) < 2 ^ 64
          · obtain ⟨sums', hadd, hswept⟩ := h.add hends (hmem b List.mem_cons_self) hword buffers
            have hplus : total + b.bytes < 2 ^ 64 := by
              rw [show total = held done from h.total]
              simpa [held] using hword
            simp only [size_of_sized hsized, plus_of_lt hplus, hadd, bind, Except.bind,
              binarySearch_eq (hmem b List.mem_cons_self), true_and, hsized]
            simpa using ih _ _ hswept fun b' hb' => hmem b' (List.mem_cons_of_mem _ hb')
          · have hplus : ¬ total + b.bytes < 2 ^ 64 := by
              rw [show total = held done from h.total]
              simpa [held] using hword
            have hfits : ¬ Fits (done ++ [b]) (buffers.takeWhile (·.first < first)) := by
              rintro ⟨-, hfits⟩
              rw [held_append] at hfits
              omega
            refine .inr ⟨fun hboth => hfits hboth.2, "call storage capacity overflow", ?_⟩
            simp only [size_of_sized hsized, plus_of_not_lt hplus, bind, Except.bind, if_true]
        · obtain ⟨m, hm⟩ := size_of_not_sized hsized
          exact .inr ⟨fun hfits => hsized hfits.1, m, by rw [hm]; rfl⟩
      · refine .inl ?_
        simp only [reserve, hfirst, decide_false, Bool.false_eq_true, not_false_eq_true,
          List.takeWhile_cons_of_neg, List.dropWhile_cons_of_neg,
          List.append_nil]
        exact ⟨⟨by simp, by simpa using h.word⟩, _, rfl, rfl, h⟩

/-- The buffers that the sweep takes from a sorted list are those first used before `first`. -/
lemma filter_eq_takeWhile {buffers : List Buffer}
    (hsorted : buffers.Pairwise fun b b' => b.first ≤ b'.first) (first : Nat) :
    buffers.filter (·.first < first) = buffers.takeWhile (·.first < first) ∧
      ∀ b ∈ buffers.dropWhile (·.first < first), first ≤ b.first := by
  induction buffers with
  | nil => simp
  | cons b buffers ih =>
      obtain ⟨hle, hsorted⟩ := List.pairwise_cons.mp hsorted
      obtain ⟨hfilter, hdrop⟩ := ih hsorted
      by_cases hb : b.first < first
      · simpa [hb, hfilter] using hdrop
      · have hlater : ∀ b' ∈ buffers, first ≤ b'.first := fun b' hb' => by
          have := hle b' hb'
          omega
        refine ⟨?_, ?_⟩
        · simpa [hb] using hlater
        · simpa [hb] using ⟨Nat.le_of_not_lt hb, hlater⟩

/-- What stays after the prefix sum at a partition point is used at `finish` or later. -/
lemma minus_before_eq (hsorted : ends.Pairwise (· < ·)) {done : List Buffer} {s : Sweep}
    (h : Swept ends done s) (hmem : ∀ b ∈ done, b.last ∈ ends) (finish : Nat) :
    before s.sums (partitionPoint ends finish) 0 =
        .ok (held (done.filter (·.last < finish))) ∧
      minus s.total (held (done.filter (·.last < finish))) =
        .ok (held (done.filter (finish ≤ ·.last))) := by
  have hcount : partitionPoint ends finish < s.sums.length := by
    rw [h.length]
    exact Nat.lt_succ_of_le (partitionPoint_le ends finish)
  have hsum : sumBefore ends done (partitionPoint ends finish) =
      held (done.filter (·.last < finish)) := by
    unfold sumBefore
    congr 1
    refine List.filter_congr fun b hb => ?_
    simp only [idxOf_lt_partitionPoint hsorted (hmem b hb)]
  have hsplit := held_filter_add (·.last < finish) done
  have hword := h.word
  simp only [Nat.not_lt] at hsplit
  refine ⟨?_, ?_⟩
  · rw [before_eq h.prefixes hcount (by omega), Nat.zero_add, hsum]
  · rw [h.total, minus_of_le (by omega)]
    congr 1
    omega

/-- No call before `call` finds a buffer that is first used after it. -/
lemma filter_found_cons {call : Call} {calls : List Call} {buffers : List Buffer}
    (hsorted : buffers.Pairwise fun b b' => b.first ≤ b'.first) :
    buffers.filter (Found (call :: calls)) = buffers.takeWhile (·.first < call.first) ++
      (buffers.dropWhile (·.first < call.first)).filter (Found calls) := by
  obtain ⟨hfilter, hlater⟩ := filter_eq_takeWhile hsorted call.first
  conv_lhs => rw [← List.takeWhile_append_dropWhile (p := (·.first < call.first)) (l := buffers)]
  rw [List.filter_append]
  congr 1
  · refine List.filter_eq_self.mpr fun b hb => ?_
    rw [← hfilter] at hb
    exact decide_eq_true (found_cons.mpr (.inl (by simpa using (List.mem_filter.mp hb).2)))
  · refine List.filter_congr fun b hb => decide_eq_decide.mpr ?_
    have hnot : ¬ b.first < call.first := Nat.not_lt.mpr (hlater b hb)
    rw [found_cons, or_iff_right hnot]

/-- The buffers a call finds that are used at `finish` or later. -/
lemma scan_eq {done rest : List Buffer} {call : Call} (hdone : ∀ b ∈ done, b.first < call.first)
    (hrest : ∀ b ∈ rest, call.first ≤ b.first) (finish : Nat) :
    scan (done ++ rest) call finish = held (done.filter (finish ≤ ·.last)) := by
  have hnone : rest.filter (fun b => b.first < call.first ∧ finish ≤ b.last) = [] :=
    List.filter_eq_nil_iff.mpr fun b hb => by
      have := hrest b hb
      simp only [decide_eq_true_eq]
      omega
  rw [scan, List.filter_append, hnone, List.append_nil]
  congr 1
  refine List.filter_congr fun b hb => decide_eq_decide.mpr ?_
  exact and_iff_right (hdone b hb)

include hends in
/-- From any state the sweep gives the direct scans, or a call or a size is missing. -/
lemma sweep_cases (hsorted : ends.Pairwise (· < ·)) {calls : List Call} {done : List Buffer}
    {s : Sweep} (h : Swept ends done s) (hmem : ∀ b ∈ done ++ s.buffers, b.last ∈ ends)
    (hbuffers : s.buffers.Pairwise fun b b' => b.first ≤ b'.first)
    (hcalls : calls.Pairwise fun c c' => c.first ≤ c'.first)
    (hdone : ∀ b ∈ done, ∀ call ∈ calls, b.first < call.first) :
    (((∀ call ∈ calls, call.first ≤ call.last) ∧ Fits done (s.buffers.filter (Found calls))) ∧
        sweep ends calls s = .ok (calls.map (scanReport (done ++ s.buffers)))) ∨
      (¬ ((∀ call ∈ calls, call.first ≤ call.last) ∧
          Fits done (s.buffers.filter (Found calls))) ∧
        ∃ m, sweep ends calls s = .error (error m)) := by
  induction calls generalizing done s with
  | nil => exact .inl ⟨⟨by simp, by simp [not_found_nil], 
      by simpa [not_found_nil] using h.word⟩, rfl⟩
  | cons call calls ih =>
      obtain ⟨hlater, hcalls⟩ := List.pairwise_cons.mp hcalls
      by_cases hcomplete : call.first ≤ call.last
      · rw [sweep, if_neg (Nat.not_lt.mpr hcomplete), filter_found_cons hbuffers]
        simp only [List.forall_mem_cons, hcomplete, true_and, fits_append]
        have hmem' : ∀ b ∈ s.buffers, b.last ∈ ends :=
          fun b hb => hmem b (List.mem_append_right _ hb)
        rcases reserve_cases hends h hmem' call.first with
          ⟨hfits, s', hreserve, hrest, hswept⟩ | ⟨hfits, m, hreserve⟩
        · obtain ⟨hfilter, hdrop⟩ := filter_eq_takeWhile hbuffers call.first
          have hdone' : ∀ b ∈ done ++ s.buffers.takeWhile (·.first < call.first),
              b.first < call.first := fun b hb => by
            rcases List.mem_append.mp hb with hb | hb
            · exact hdone b hb call List.mem_cons_self
            · rw [← hfilter] at hb
              simpa using (List.mem_filter.mp hb).2
          have hall : done ++ s.buffers =
              done ++ s.buffers.takeWhile (·.first < call.first) ++ s'.buffers := by
            rw [hrest, List.append_assoc, List.takeWhile_append_dropWhile]
          rw [hall] at hmem ⊢
          rw [← hrest] at hdrop ⊢
          have hcases := ih hswept hmem
            (hrest ▸ hbuffers.sublist (List.dropWhile_sublist _)) hcalls
            fun b hb c hc => (hdone' b hb).trans_le (hlater c hc)
          have hscan := scan_eq hdone' hdrop
          have hminus := minus_before_eq hsorted hswept
            fun b hb => hmem b (List.mem_append_left _ hb)
          simp only [hfits, true_and, hreserve, bind, Except.bind, (hminus _).1, (hminus _).2,
            ← hscan, List.map_cons]
          rcases hcases with ⟨hgood, hsweep⟩ | ⟨hbad, m, hsweep⟩
          · exact .inl ⟨hgood, by rw [hsweep]; rfl⟩
          · exact .inr ⟨hbad, m, by rw [hsweep]⟩
        · refine .inr ⟨fun hall => hfits hall.2.1, m, ?_⟩
          rw [hreserve]
          rfl
      · refine .inr ⟨fun hall => hcomplete (hall.1 call List.mem_cons_self), "incomplete storage call", ?_⟩
        rw [sweep, if_pos (Nat.lt_of_not_le hcomplete)]

end sweep

/-- **The report of the callers' storage is the direct scan.** For calls and buffers in the order of
their first uses, no operation of the sweep leaves its range; the report succeeds exactly when every
call has ended and the buffers in use have sizes that a word holds together, and then it gives every
call the bytes of the buffers first used before it and last used at its start, or its end, or later.
-/
theorem report_eq_scan {calls : List Call} {buffers : List Buffer}
    (hcalls : calls.Pairwise fun c c' => c.first ≤ c'.first)
    (hbuffers : buffers.Pairwise fun b b' => b.first ≤ b'.first) (hlen : buffers.length < 2 ^ 63) :
    report calls buffers ≠ .error .panic ∧
      ∀ reports, report calls buffers = .ok reports ↔
        Measured calls buffers ∧ reports = calls.map (scanReport buffers) := by
  have hends : (ends buffers).length < 2 ^ 63 := (length_ends_le buffers).trans_lt hlen
  have hmeasured : ((∀ call ∈ calls, call.first ≤ call.last) ∧
      Fits [] (buffers.filter (Found calls))) ↔ Measured calls buffers := by
    refine ⟨fun ⟨hcomplete, hsized, hfits⟩ => ⟨hcomplete, fun b hb hfound => ?_, hfits⟩,
      fun ⟨hcomplete, hsized, hfits⟩ => ⟨hcomplete, fun b hb => ?_, hfits⟩⟩
    · exact hsized b (List.mem_filter.mpr ⟨hb, decide_eq_true hfound⟩)
    · obtain ⟨hb, hfound⟩ := List.mem_filter.mp hb
      exact hsized b hb (of_decide_eq_true hfound)
  have hcases := sweep_cases hends (pairwise_ends buffers) (Swept.start _ buffers)
    (fun b hb => last_mem_ends hb) hbuffers hcalls (by simp)
  dsimp only at hcases
  rw [hmeasured, List.nil_append] at hcases
  unfold report
  rcases hcases with ⟨hgood, hsweep⟩ | ⟨hbad, m, hsweep⟩
  · rw [hsweep]
    refine ⟨by simp, fun reports => ?_⟩
    simp [hgood, eq_comm]
  · rw [hsweep]
    refine ⟨by simp [error], fun reports => ?_⟩
    simp [hbad]

/-- Two nested calls: a buffer that is first used at the start of a call is not the caller's, one last
used at its end is held until then. The last buffer, of unknown capacity, is after all calls. -/
theorem report_eq_scan_nested :
    report [⟨"outer", none, 2, 6⟩, ⟨"inner", some 0, 4, 4⟩]
        [⟨some 5, 0, 6⟩, ⟨some 9, 1, 2⟩, ⟨some 1, 3, 4⟩, ⟨some 3, 4, 5⟩, ⟨none, 6, 9⟩] =
      .ok [⟨"outer", none, 24, 8⟩, ⟨"inner", some 0, 16, 16⟩] :=
  ((report_eq_scan (by decide) (by decide) (by decide)).2 _).mpr
    ⟨⟨by decide, by decide, by decide⟩, by decide⟩

end Verbosec.Native.StorageCalls
