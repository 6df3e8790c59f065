import Verbosec.Lib.Except
import Verbosec.Native.Layout
import Mathlib.Tactic.Common

/-!
# A layout is disjoint and sufficient

* `assign_sized` - after the bodies have been given to the lanes, each body's lane has its sizes.
* `placeOutputs_ascends`, `placeStacks_ascends` - the buffers, the guard pages and the stacks follow
  one another.
* `Report.Sound` - what a layout promises of its regions and of the lanes of every wave.
* `plan_sound` - every layout keeps the promise.
-/

namespace Verbosec.Native.Layout

open Verbosec.Lib Verbosec.Lib.Except

/-! ## Checked operations -/

lemma checkedAdd_eq_ok {a b n : Nat} {e : Failure} (h : checkedAdd a b e = .ok n) :
    n = a + b ∧ a + b < 2 ^ 64 := by
  unfold checkedAdd at h
  split at h
  · exact ⟨(Except.ok.inj h).symm, ‹_›⟩
  · cases h

lemma checkedMul_eq_ok {a b n : Nat} {e : Failure} (h : checkedMul a b e = .ok n) :
    n = a * b ∧ a * b < 2 ^ 64 := by
  unfold checkedMul at h
  split at h
  · exact ⟨(Except.ok.inj h).symm, ‹_›⟩
  · cases h

/-- Rounding up gives a multiple, and does not go below. -/
lemma align_eq_ok {n a m : Nat} (ha : 0 < a) (h : align n a = .ok m) : n ≤ m ∧ a ∣ m := by
  obtain ⟨v, hv, rfl⟩ := map_eq_ok.mp h
  obtain ⟨rfl, -⟩ := checkedAdd_eq_ok hv
  refine ⟨?_, Nat.dvd_mul_left _ _⟩
  have hmod : (n + (a - 1)) % a < a := Nat.mod_lt _ ha
  have hdiv : (n + (a - 1)) / a * a + (n + (a - 1)) % a = n + (a - 1) := by
    rw [Nat.mul_comm]
    exact Nat.div_add_mod _ _
  omega

/-! ## The sizes of the lanes -/

/-- The lane has the sizes of the body. -/
def Lane.Fits (lane : Lane) (body : Body) : Prop :=
  body.outputBytes ≤ lane.resultBytes ∧ body.stackBytes ≤ lane.stackBytes

lemma Lane.take_fits (lane : Lane) (body : Body) : (lane.take body).Fits body :=
  ⟨Nat.le_max_right _ _, Nat.le_max_right _ _⟩

lemma Lane.Fits.take {lane : Lane} {body : Body} (h : lane.Fits body) (other : Body) :
    (lane.take other).Fits body :=
  ⟨h.1.trans (Nat.le_max_left _ _), h.2.trans (Nat.le_max_left _ _)⟩

section assign

variable {rules : List String} {count : Nat}

/-- The control words stay where they are. -/
lemma assign_control {bodies : List Body} {i : Nat} {lanes lanes' : List Lane}
    {phases : List Phase} (h : assign rules count bodies i lanes = .ok (lanes', phases)) :
    lanes'.map Lane.control = lanes.map Lane.control := by
  induction bodies generalizing i lanes phases with
  | nil =>
      cases h
      rfl
  | cons body bodies ih =>
      simp only [assign] at h
      split at h
      · cases h
      · split at h
        · cases h
        · obtain ⟨⟨lanes₁, phases₁⟩, h₁, h⟩ := bind_eq_ok.mp h
          cases h
          rw [ih h₁]
          refine List.ext_getElem? fun j => ?_
          simp only [List.getElem?_map, List.getElem?_modify]
          split <;> cases lanes[j]? <;> rfl

/-- What a lane has room for, it keeps room for. -/
lemma assign_keeps {bodies : List Body} {i : Nat} {lanes lanes' : List Lane}
    {phases : List Phase} (h : assign rules count bodies i lanes = .ok (lanes', phases))
    {j : Nat} {lane : Lane} (hj : lanes[j]? = some lane) {body : Body} (hfits : lane.Fits body) :
    ∃ lane', lanes'[j]? = some lane' ∧ lane'.Fits body := by
  induction bodies generalizing i lanes lane phases with
  | nil =>
      cases h
      exact ⟨lane, hj, hfits⟩
  | cons other bodies ih =>
      simp only [assign] at h
      split at h
      · cases h
      · split at h
        · cases h
        · obtain ⟨⟨lanes₁, phases₁⟩, h₁, h⟩ := bind_eq_ok.mp h
          cases h
          by_cases hlane : i % count = j
          · have hget : (lanes.modify (i % count) fun lane => lane.take other)[j]? =
                some (lane.take other) := by
              simp [hlane, hj]
            exact ih h₁ hget (hfits.take other)
          · have hget : (lanes.modify (i % count) fun lane => lane.take other)[j]? =
                some lane := by
              simp [hlane, hj]
            exact ih h₁ hget hfits

/-- The lane of a body has its sizes, and the phase names that lane. -/
lemma assign_sized {bodies : List Body} {i : Nat} {lanes lanes' : List Lane}
    {phases : List Phase} (h : assign rules count bodies i lanes = .ok (lanes', phases))
    (hlen : lanes.length = count) {k : Nat} {body : Body} (hk : bodies[k]? = some body) :
    ∃ lane, lanes'[(i + k) % count]? = some lane ∧ lane.Fits body ∧
      ∃ phase, phases[k]? = some phase ∧ phase.lane = (i + k) % count := by
  induction bodies generalizing i lanes phases k with
  | nil => simp at hk
  | cons other bodies ih =>
      simp only [assign] at h
      split at h
      · cases h
      case isFalse hcount =>
        split at h
        · cases h
        · obtain ⟨⟨lanes₁, phases₁⟩, h₁, h⟩ := bind_eq_ok.mp h
          cases h
          cases k with
          | zero =>
              cases hk
              have hlt : i % count < lanes.length := by
                rw [hlen]
                exact Nat.mod_lt _ (Nat.pos_of_ne_zero hcount)
              have hget : (lanes.modify (i % count) fun lane => lane.take body)[i % count]? =
                  some (lanes[i % count].take body) := by
                simp [List.getElem?_eq_getElem hlt]
              obtain ⟨lane, hlane, hfits⟩ := assign_keeps h₁ hget (Lane.take_fits _ _)
              exact ⟨lane, hlane, hfits, _, rfl, rfl⟩
          | succ k =>
              obtain ⟨lane, hlane, hfits, phase, hphase, hin⟩ :=
                ih h₁ (by rw [List.length_modify, hlen]) hk
              rw [show i + 1 + k = i + (k + 1) by omega] at hlane hin
              exact ⟨lane, hlane, hfits, phase, hphase, hin⟩

end assign

/-! ## The places of the buffers and the stacks -/

/-- What the placement of an output buffer does to a lane. -/
def Placed (batch : Nat) (lane lane' : Lane) : Prop :=
  lane'.control = lane.control ∧ lane'.resultBytes = lane.resultBytes ∧
    lane'.stackBytes = lane.stackBytes ∧ lane'.outputBytes = lane.resultBytes * batch

lemma placeOutputs_ascends {batch : Nat} {lanes lanes' : List Lane} {cursor last : Nat}
    (h : placeOutputs batch lanes cursor = .ok (lanes', last)) :
    List.Forall₂ (Placed batch) lanes lanes' ∧
      Ascends cursor (lanes'.map Lane.outputRegion) last := by
  induction lanes generalizing cursor lanes' last with
  | nil =>
      cases h
      exact ⟨.nil, Nat.le_refl _⟩
  | cons lane lanes ih =>
      obtain ⟨bytes, hbytes, h⟩ := bind_eq_ok.mp h
      obtain ⟨stop, hstop, h⟩ := bind_eq_ok.mp h
      obtain ⟨next, hnext, h⟩ := bind_eq_ok.mp h
      obtain ⟨⟨lanes₁, last₁⟩, h₁, h⟩ := bind_eq_ok.mp h
      cases h
      obtain ⟨hplaced, hascends⟩ := ih h₁
      obtain ⟨hbytes, -⟩ := checkedMul_eq_ok hbytes
      obtain ⟨rfl, -⟩ := checkedAdd_eq_ok hstop
      obtain ⟨hle, -⟩ := align_eq_ok (by decide) hnext
      exact ⟨.cons ⟨rfl, rfl, rfl, hbytes⟩ hplaced, Nat.le_refl _, hascends.anti hle⟩

/-- What the placement of a stack does to a lane. -/
def Stacked (lane lane' : Lane) : Prop :=
  lane'.control = lane.control ∧ lane'.output = lane.output ∧
    lane'.outputBytes = lane.outputBytes ∧ lane'.resultBytes = lane.resultBytes ∧
    lane'.stackBytes = lane.stackBytes ∧ lane.stackBytes ≤ lane'.stackReserved ∧
    PAGE ≤ lane'.stack ∧ PAGE ∣ lane'.stack ∧ PAGE ∣ lane'.stackReserved

lemma placeStacks_ascends {lanes lanes' : List Lane} {cursor last : Nat}
    (h : placeStacks lanes cursor = .ok (lanes', last)) (hcursor : PAGE ∣ cursor) :
    List.Forall₂ Stacked lanes lanes' ∧
      Ascends cursor (lanes'.flatMap fun l => [l.guardRegion, l.stackRegion]) last := by
  induction lanes generalizing cursor lanes' last with
  | nil =>
      cases h
      exact ⟨.nil, Nat.le_refl _⟩
  | cons lane lanes ih =>
      obtain ⟨stack, hstack, h⟩ := bind_eq_ok.mp h
      obtain ⟨reserved, hreserved, h⟩ := bind_eq_ok.mp h
      obtain ⟨next, hnext, h⟩ := bind_eq_ok.mp h
      obtain ⟨⟨lanes₁, last₁⟩, h₁, h⟩ := bind_eq_ok.mp h
      cases h
      obtain ⟨rfl, -⟩ := checkedAdd_eq_ok hstack
      obtain ⟨rfl, -⟩ := checkedAdd_eq_ok hnext
      obtain ⟨hle, hdvd⟩ := align_eq_ok (by decide) hreserved
      have hpage : PAGE ∣ cursor + PAGE := Nat.dvd_add hcursor (Nat.dvd_refl _)
      obtain ⟨hstacked, hascends⟩ := ih h₁ (Nat.dvd_add hpage hdvd)
      refine ⟨.cons ⟨rfl, rfl, rfl, rfl, rfl, hle, Nat.le_add_left _ _, hpage, hdvd⟩ hstacked, ?_⟩
      refine ⟨?_, ?_, hascends⟩
      · show cursor ≤ cursor + PAGE - PAGE
        omega
      · show cursor + PAGE - PAGE + PAGE ≤ cursor + PAGE
        omega

/-! ## The promise of a layout -/

/-- What a layout promises. -/
structure Report.Sound (e : Execution) (bodies : List Body) (r : Report) : Prop where
  /-- there is a lane for each body of the widest wave -/
  lanes : r.lanes.length = min e.maxInFlight.toNat bodies.length
  /-- the control words of a lane are where the exact sum says -/
  control : ∀ i lane, r.lanes[i]? = some lane → lane.control = HEADER + i * CONTROL
  /-- no two regions have a common byte -/
  apart : r.regions.Pairwise Region.Apart
  /-- every region lies in the reservation -/
  inside : ∀ q ∈ r.regions, q.stop ≤ r.reservedBytes
  /-- the reservation is within the limit -/
  limit : r.reservedBytes ≤ 268435456
  /-- the guard page of a lane ends where its stack begins, on a page -/
  guard : ∀ lane ∈ r.lanes, PAGE ∣ lane.guardRegion.base ∧ lane.guardRegion.stop = lane.stack
  /-- control words, output buffers and stacks are accessible, in whole pages -/
  accessible : ∀ lane ∈ r.lanes, lane.stackRegion ∈ protects r ∧
    lane.controlRegion.stop ≤ r.controlReserved ∧ lane.outputRegion.stop ≤ r.controlReserved
  pages : ∀ q ∈ protects r, PAGE ∣ q.base ∧ PAGE ∣ q.size
  /-- no guard page is -/
  inaccessible : ∀ lane ∈ r.lanes, ∀ q ∈ protects r, lane.guardRegion.Apart q
  /-- the lane of a body in its wave has room for a batch of its results and for its stack -/
  sufficient : ∀ w wave, (waves bodies r.maxInFlight)[w]? = some wave →
    ∀ k body, wave[k]? = some body → ∃ lane, r.lanes[k]? = some lane ∧
      body.outputBytes * e.resultBatch.toNat ≤ lane.outputBytes ∧
      body.stackBytes ≤ lane.stackReserved ∧
      ∃ phase, r.phases[w * r.maxInFlight + k]? = some phase ∧ phase.lane = k

/-- The body at a place of a wave, and the lane that the layout gives it. -/
lemma waves_getElem {bodies wave : List Body} {n w k : Nat} {body : Body}
    (hw : (waves bodies n)[w]? = some wave) (hk : wave[k]? = some body) :
    bodies[w * n + k]? = some body ∧ (w * n + k) % min n bodies.length = k := by
  obtain ⟨hlt, rfl⟩ := List.getElem?_eq_some_iff.mp hw
  simp only [waves, List.getElem_map, List.getElem_range, List.getElem?_take] at hk
  split at hk
  case isFalse => cases hk
  case isTrue hkn =>
    rw [List.getElem?_drop] at hk
    refine ⟨hk, ?_⟩
    obtain ⟨hin, -⟩ := List.getElem?_eq_some_iff.mp hk
    by_cases hn : n ≤ bodies.length
    · rw [Nat.min_eq_left hn, Nat.add_comm, Nat.add_mul_mod_self_right, Nat.mod_eq_of_lt hkn]
    · -- fewer bodies than lanes allowed: there is one wave
      have hw0 : w = 0 := by
        rcases Nat.eq_zero_or_pos w with h | h
        · exact h
        · have hle : n ≤ w * n := Nat.le_mul_of_pos_left n h
          omega
      subst hw0
      rw [Nat.min_eq_right (by omega), Nat.mod_eq_of_lt (by omega)]
      omega

/-- The control words of fresh lanes follow one another. -/
lemma emptyLanes_ascends {count : Nat} (hcount : count < 2 ^ 32) :
    Ascends HEADER ((emptyLanes count).map Lane.controlRegion) (HEADER + count * CONTROL) := by
  have hrange : ∀ n, n ≤ count →
      Ascends HEADER ((emptyLanes n).map Lane.controlRegion) (HEADER + n * CONTROL) := by
    intro n hn
    induction n with
    | zero => exact Nat.le_refl _
    | succ n ih =>
        have hsplit : emptyLanes (n + 1) = emptyLanes n ++ [{
            control := word (HEADER + n * CONTROL), output := 0, outputBytes := 0,
            resultBytes := 0, stack := 0, stackBytes := 0, stackReserved := 0 }] := by
          simp [emptyLanes, List.range_succ]
        have hword : word (HEADER + n * CONTROL) = HEADER + n * CONTROL :=
          word_of_lt (by simp only [HEADER, CONTROL]; omega)
        rw [hsplit, List.map_append]
        refine (ih (by omega)).append ⟨?_, ?_⟩
        · show HEADER + n * CONTROL ≤ word (HEADER + n * CONTROL)
          omega
        · show word (HEADER + n * CONTROL) + CONTROL ≤ HEADER + (n + 1) * CONTROL
          rw [hword, Nat.succ_mul]
          omega
  exact hrange count (Nat.le_refl _)

/-- A guard page is apart from every stack. -/
lemma guard_apart {lanes : List Lane} {lo hi : Nat}
    (h : Ascends lo (lanes.flatMap fun l => [l.guardRegion, l.stackRegion]) hi) {l l' : Lane}
    (hl : l ∈ lanes) (hl' : l' ∈ lanes) : l.guardRegion.Apart l'.stackRegion := by
  induction lanes generalizing lo with
  | nil => cases hl
  | cons lane lanes ih =>
      obtain ⟨-, hstack, hrest⟩ := h
      have hmem : ∀ k ∈ lanes, k.guardRegion ∈ lanes.flatMap (fun l => [l.guardRegion, l.stackRegion])
          ∧ k.stackRegion ∈ lanes.flatMap (fun l => [l.guardRegion, l.stackRegion]) := fun k hk =>
        ⟨List.mem_flatMap.mpr ⟨k, hk, by simp⟩, List.mem_flatMap.mpr ⟨k, hk, by simp⟩⟩
      have hself : lane.stackRegion.base ≤ lane.stackRegion.stop := Nat.le_add_right _ _
      rcases List.mem_cons.mp hl with rfl | hin
      · rcases List.mem_cons.mp hl' with rfl | hin'
        · exact .inl hstack
        · exact .inl (hstack.trans (hself.trans (hrest.within (hmem _ hin').2).1))
      · rcases List.mem_cons.mp hl' with rfl | hin'
        · exact .inr (hrest.within (hmem _ hin).1).1
        · exact ih hrest hin hin'

/-- What a placement leaves as it is, it leaves so in every lane. -/
lemma map_eq_of_forall₂ {γ : Type*} {f : Lane → γ} {R : Lane → Lane → Prop}
    {lanes lanes' : List Lane} (hR : ∀ l l', R l l' → f l' = f l)
    (h : List.Forall₂ R lanes lanes') : lanes'.map f = lanes.map f := by
  induction h with
  | nil => rfl
  | cons hl _ ih => rw [List.map_cons, List.map_cons, hR _ _ hl, ih]

lemma map_controlRegion (lanes : List Lane) :
    lanes.map Lane.controlRegion = (lanes.map Lane.control).map fun c => ⟨c, CONTROL⟩ := by
  rw [List.map_map]
  rfl

/-- A lane before a placement, for a lane after it. -/
lemma getElem_of_forall₂ {R : Lane → Lane → Prop} {lanes lanes' : List Lane}
    (h : List.Forall₂ R lanes lanes') {i : Nat} {l : Lane} (hl : lanes[i]? = some l) :
    ∃ l', lanes'[i]? = some l' ∧ R l l' := by
  induction h generalizing i with
  | nil => simp at hl
  | cons hR _ ih =>
      cases i with
      | zero =>
          cases hl
          exact ⟨_, rfl, hR⟩
      | succ i => exact ih hl

/-- A lane after a placement comes from a lane before it. -/
lemma mem_of_forall₂ {R : Lane → Lane → Prop} {lanes lanes' : List Lane}
    (h : List.Forall₂ R lanes lanes') {l' : Lane} (hl : l' ∈ lanes') : ∃ l ∈ lanes, R l l' := by
  induction h with
  | nil => cases hl
  | cons hR _ ih =>
      rcases List.mem_cons.mp hl with rfl | hl
      · exact ⟨_, List.mem_cons_self, hR⟩
      · obtain ⟨l, hmem, hl⟩ := ih hl
        exact ⟨l, List.mem_cons_of_mem _ hmem, hl⟩

/-- Every layout is disjoint, lies in its reservation, and gives every body of every wave the room
that it needs. -/
theorem plan_sound {e : Execution} {bodies : List Body} {r : Report}
    (h : plan e bodies = .ok r) : r.Sound e bodies := by
  obtain ⟨⟨lanes₁, phases⟩, hassign, h⟩ := bind_eq_ok.mp h
  obtain ⟨⟨lanes₂, cursor₂⟩, houtputs, h⟩ := bind_eq_ok.mp h
  obtain ⟨controlReserved, hreserved, h⟩ := bind_eq_ok.mp h
  obtain ⟨⟨lanes₃, cursor₃⟩, hstacks, h⟩ := bind_eq_ok.mp h
  simp only at hassign houtputs hreserved hstacks h
  split at h
  · cases h
  case isFalse hlimit =>
    cases h
    have hcount : min e.maxInFlight.toNat bodies.length < 2 ^ 32 :=
      lt_of_le_of_lt (Nat.min_le_left _ _) e.maxInFlight.toNat_lt
    generalize hn : min e.maxInFlight.toNat bodies.length = count at hassign houtputs hcount
    have hword : word (HEADER + count * CONTROL) = HEADER + count * CONTROL :=
      word_of_lt (by simp only [HEADER, CONTROL]; omega)
    rw [hword] at houtputs
    obtain ⟨hplaced, houtputs⟩ := placeOutputs_ascends houtputs
    obtain ⟨hle, hpage⟩ := align_eq_ok (by decide) hreserved
    obtain ⟨hstacked, hstacks⟩ := placeStacks_ascends hstacks hpage
    -- the control words
    have hcontrol₃ : lanes₃.map Lane.control = (emptyLanes count).map Lane.control := by
      rw [map_eq_of_forall₂ (fun _ _ hl => hl.1) hstacked,
        map_eq_of_forall₂ (fun _ _ hl => hl.1) hplaced, assign_control hassign]
    have hlen₃ : lanes₃.length = count := by
      rw [← List.length_map (f := Lane.control), hcontrol₃]
      simp [emptyLanes]
    have hcontrols : Ascends HEADER (lanes₃.map Lane.controlRegion) (HEADER + count * CONTROL) := by
      rw [map_controlRegion, hcontrol₃, ← map_controlRegion]
      exact emptyLanes_ascends hcount
    have houtputs₃ : lanes₃.map Lane.outputRegion = lanes₂.map Lane.outputRegion := by
      refine map_eq_of_forall₂ (fun l l' hl => ?_) hstacked
      obtain ⟨-, hout, hbytes, -⟩ := hl
      rw [Lane.outputRegion, Lane.outputRegion, hout, hbytes]
    rw [← houtputs₃] at houtputs
    have hall : Ascends 0 (Report.regions ⟨e.name, e.input, e.maxInFlight.toNat,
        e.resultBatch.toNat, e.nativeMemory, controlReserved, cursor₃, lanes₃, phases⟩) cursor₃ :=
      ⟨Nat.zero_le _, (Ascends.append (by simpa [Region.stop] using hcontrols)
        (houtputs.mono hle)).append hstacks⟩
    have hbelow : ∀ q ∈ lanes₃.map Lane.controlRegion ++ lanes₃.map Lane.outputRegion,
        q.stop ≤ controlReserved := fun q hq =>
      ((hcontrols.append (houtputs.mono hle)).within hq).2
    have hmem : ∀ l ∈ lanes₃, l.guardRegion ∈
        lanes₃.flatMap (fun l => [l.guardRegion, l.stackRegion]) := fun l hl =>
      List.mem_flatMap.mpr ⟨l, hl, by simp⟩
    refine ⟨hlen₃.trans hn.symm, ?_, hall.pairwise, fun q hq => (hall.within hq).2,
      Nat.le_of_not_lt hlimit, ?_, ?_, ?_, ?_, ?_⟩
    · intro i lane hlane
      have hget : (lanes₃.map Lane.control)[i]? = some lane.control := by
        rw [List.getElem?_map, hlane]
        rfl
      rw [hcontrol₃, emptyLanes, List.map_map, List.getElem?_map, Option.map_eq_some_iff] at hget
      obtain ⟨j, hj, hlane⟩ := hget
      obtain ⟨hlt, rfl⟩ := List.getElem?_eq_some_iff.mp hj
      rw [List.getElem_range] at hlane
      rw [List.length_range] at hlt
      rw [← hlane]
      exact word_of_lt (by simp only [HEADER, CONTROL]; omega)
    · intro lane hlane
      obtain ⟨l, -, -, -, -, -, -, -, hpage, hdvd, -⟩ := mem_of_forall₂ hstacked hlane
      exact ⟨Nat.dvd_sub hdvd (Nat.dvd_refl _), Nat.sub_add_cancel hpage⟩
    · intro lane hlane
      refine ⟨?_, hbelow _ ?_, hbelow _ ?_⟩
      · exact List.mem_cons_of_mem _ (List.mem_map_of_mem (f := fun l : Lane =>
          (⟨l.stack, l.stackReserved⟩ : Region)) hlane)
      · exact List.mem_append_left _ (List.mem_map_of_mem hlane)
      · exact List.mem_append_right _ (List.mem_map_of_mem hlane)
    · intro q hq
      rcases List.mem_cons.mp hq with rfl | hq
      · exact ⟨Nat.dvd_zero _, hpage⟩
      · obtain ⟨lane, hlane, rfl⟩ := List.mem_map.mp hq
        obtain ⟨l, -, -, -, -, -, -, -, -, hdvd, hdvd'⟩ := mem_of_forall₂ hstacked hlane
        exact ⟨hdvd, hdvd'⟩
    · intro lane hlane q hq
      rcases List.mem_cons.mp hq with rfl | hq
      · refine .inr ?_
        rw [Region.stop, Nat.zero_add]
        exact (hstacks.within (hmem _ hlane)).1
      · obtain ⟨l, hl, rfl⟩ := List.mem_map.mp hq
        exact guard_apart hstacks hlane hl
    · intro w wave hw k body hk
      obtain ⟨hbody, hk⟩ := waves_getElem hw hk
      rw [hn] at hk
      obtain ⟨l₁, hl₁, hfits, phase, hphase, hlane⟩ :=
        assign_sized hassign (by simp [emptyLanes]) hbody
      rw [Nat.zero_add, hk] at hl₁ hlane
      obtain ⟨l₂, hl₂, -, -, hstack₂, hout₂⟩ := getElem_of_forall₂ hplaced hl₁
      obtain ⟨l₃, hl₃, -, -, hout₃, -, -, hstack₃, -⟩ := getElem_of_forall₂ hstacked hl₂
      refine ⟨l₃, hl₃, ?_, ?_, phase, hphase, hlane⟩
      · rw [hout₃, hout₂]
        exact Nat.mul_le_mul_right _ hfits.1
      · exact (hfits.2.trans (le_of_eq hstack₂.symm)).trans hstack₃

/-- Three bodies in two lanes. -/
theorem plan_sound_three :
    (Report.mk "run" "Item" 2 4 none 4096 24576
      [⟨64, 192, 120, 30, 8192, 400, 4096⟩, ⟨128, 320, 24, 6, 16384, 5000, 8192⟩]
      [⟨"a", 0, 16, 300, 21⟩, ⟨"b", 1, 16, 5000, 6⟩, ⟨"c", 0, 32, 400, 30⟩]).Sound
      ⟨"run", "Item", ["a", "b", "c"], 2, none, 4⟩
      [⟨16, 300, 21⟩, ⟨16, 5000, 6⟩, ⟨32, 400, 30⟩] :=
  plan_sound (by decide)

end Verbosec.Native.Layout
