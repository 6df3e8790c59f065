import Verbosec.Native.LanesRun
import Verbosec.Native.LayoutSound

/-!
# The lanes in their layout

* `laneBytes` - the largest of the sizes that a lane is given in turn.
* `assign_resultBytes`, `capacity_eq` - a lane of the layout has the room that the protocol asks
  for.
* `lanes_planned` - in every run, the workers store in regions of the layout that are apart.

Source: `native/concurrent/layout.rs`, `plan`, and `native/concurrent/emit.rs`, `compile`.
-/

namespace Verbosec.Native.Lanes

open Verbosec.Lib Verbosec.Lib.Except Verbosec.Native.Layout

variable {α : Type*} {job : Job α} {s : State α}

/-! ## The room of a lane -/

/-- The largest of the sizes from the `i`th on that are given to lane `k` of `count`. -/
def laneBytes (count k i : Nat) (sizes : List Nat) : Nat :=
  ((sizes.zipIdx i).filter fun x => x.2 % count = k).foldr (fun x bytes => max x.1 bytes) 0

lemma laneBytes_cons (count k i size : Nat) (sizes : List Nat) :
    laneBytes count k i (size :: sizes) =
      if i % count = k then max size (laneBytes count k (i + 1) sizes)
      else laneBytes count k (i + 1) sizes := by
  unfold laneBytes
  rw [List.zipIdx_cons, List.filter_cons]
  by_cases h : i % count = k <;> simp [h]

/-- The bodies raise the size of a lane to the largest one that it is given. -/
lemma assign_resultBytes {rules : List String} {count : Nat} {bodies : List Body} {i : Nat}
    {lanes lanes' : List Layout.Lane} {phases : List Layout.Phase}
    (h : assign rules count bodies i lanes = .ok (lanes', phases)) {k : Nat} {lane : Layout.Lane}
    (hk : lanes[k]? = some lane) :
    ∃ lane', lanes'[k]? = some lane' ∧
      lane'.resultBytes =
        max lane.resultBytes (laneBytes count k i (bodies.map Body.outputBytes)) := by
  induction bodies generalizing i lanes lane phases with
  | nil =>
      cases h
      exact ⟨lane, hk, (Nat.max_zero _).symm⟩
  | cons body bodies ih =>
      simp only [assign] at h
      split at h
      · cases h
      · split at h
        · cases h
        · obtain ⟨⟨lanes₁, phases₁⟩, h₁, h⟩ := bind_eq_ok.mp h
          cases h
          rw [List.map_cons, laneBytes_cons]
          by_cases hi : i % count = k
          · have hget : (lanes.modify (i % count) fun lane => lane.take body)[k]? =
                some (lane.take body) := by
              simp [hk, hi]
            obtain ⟨lane', hlane, hbytes⟩ := ih h₁ hget
            refine ⟨lane', hlane, hbytes.trans ?_⟩
            rw [if_pos hi, Layout.Lane.take, Nat.max_assoc]
          · have hget : (lanes.modify (i % count) fun lane => lane.take body)[k]? =
                some lane := by
              simp [hk, hi]
            obtain ⟨lane', hlane, hbytes⟩ := ih h₁ hget
            exact ⟨lane', hlane, by rw [if_neg hi, hbytes]⟩

/-- Lanes beyond the number of phases are given nothing. -/
lemma laneBytes_min (limit k : Nat) (sizes : List Nat) :
    laneBytes (min limit sizes.length) k 0 sizes = laneBytes limit k 0 sizes := by
  unfold laneBytes
  refine congrArg _ (List.filter_congr fun x hx => ?_)
  obtain ⟨size, i⟩ := x
  have hi : i < sizes.length := by
    have := (List.mem_zipIdx hx).2.1
    omega
  rcases Nat.le_total limit sizes.length with hle | hle
  · rw [Nat.min_eq_left hle]
  · rw [Nat.min_eq_right hle, Nat.mod_eq_of_lt hi, Nat.mod_eq_of_lt (hi.trans_le hle)]

/-- The room that the protocol asks for. -/
lemma capacity_eq (job : Job α) (k : Nat) :
    job.capacity k = laneBytes job.limit k 0 (job.phases.map Phase.outputBytes) * job.batch := by
  unfold Job.capacity laneBytes
  rw [List.zipIdx_map, List.filter_map, List.foldr_map]
  rfl

/-! ## The regions of the lanes -/

/-- The buffers of a layout are apart, and each lane has the room that the protocol asks for. -/
lemma plan_buffers {e : Execution} {bodies : List Body} {r : Report} (hplan : plan e bodies = .ok r)
    (hbodies : bodies.map Body.outputBytes = job.phases.map Phase.outputBytes)
    (hlimit : job.limit = e.maxInFlight.toNat) (hbatch : job.batch = e.resultBatch.toNat) :
    r.lanes.Pairwise (fun l l' => l.outputRegion.Apart l'.outputRegion) ∧
      ∀ k, k < min job.limit job.phases.length → ∃ lane, r.lanes[k]? = some lane ∧
        lane.outputBytes = job.capacity k ∧ lane.outputRegion.stop ≤ r.controlReserved := by
  obtain ⟨⟨lanes₁, phases⟩, hassign, h⟩ := bind_eq_ok.mp hplan
  obtain ⟨⟨lanes₂, cursor₂⟩, houtputs, h⟩ := bind_eq_ok.mp h
  obtain ⟨controlReserved, hreserved, h⟩ := bind_eq_ok.mp h
  obtain ⟨⟨lanes₃, cursor₃⟩, hstacks, h⟩ := bind_eq_ok.mp h
  simp only at hassign houtputs hreserved hstacks h
  split at h
  · cases h
  cases h
  obtain ⟨hplaced, houtputs⟩ := placeOutputs_ascends houtputs
  obtain ⟨hle, hpage⟩ := align_eq_ok (by decide) hreserved
  obtain ⟨hstacked, -⟩ := placeStacks_ascends hstacks hpage
  have hregions : lanes₃.map Layout.Lane.outputRegion = lanes₂.map Layout.Lane.outputRegion := by
    refine map_eq_of_forall₂ (fun l l' hl => ?_) hstacked
    obtain ⟨-, hout, hbytes, -⟩ := hl
    rw [Layout.Lane.outputRegion, Layout.Lane.outputRegion, hout, hbytes]
  rw [← hregions] at houtputs
  have hlength : bodies.length = job.phases.length := by
    simpa only [List.length_map] using congrArg List.length hbodies
  refine ⟨List.pairwise_map.mp houtputs.pairwise, fun k hk => ?_⟩
  rw [← hlimit, hlength] at hassign
  have hempty : ∃ lane, (emptyLanes (min job.limit job.phases.length))[k]? = some lane ∧
      lane.resultBytes = 0 := by
    refine ⟨_, List.getElem?_eq_getElem (by simpa [emptyLanes] using hk), ?_⟩
    simp [emptyLanes]
  obtain ⟨lane, hlane, hzero⟩ := hempty
  obtain ⟨lane₁, hlane₁, hbytes₁⟩ := assign_resultBytes hassign hlane
  obtain ⟨lane₂, hlane₂, -, -, -, hbytes₂⟩ := getElem_of_forall₂ hplaced hlane₁
  obtain ⟨lane₃, hlane₃, -, -, hbytes₃, -⟩ := getElem_of_forall₂ hstacked hlane₂
  refine ⟨lane₃, hlane₃, ?_, ?_⟩
  · have hmin := laneBytes_min job.limit k (job.phases.map Phase.outputBytes)
    rw [List.length_map] at hmin
    rw [hbytes₃, hbytes₂, hbytes₁, hzero, Nat.zero_max, capacity_eq, hbatch, hbodies, hmin]
  · have hmem := List.mem_map_of_mem (f := Layout.Lane.outputRegion)
      (List.mem_of_getElem? hlane₃)
    exact ((houtputs.within hmem).2).trans hle

/-- **The lanes keep to their regions**: where the layout of an execution succeeds, its output
buffers are apart, and in every run each worker stores in the buffer of its lane, in memory that is
accessible, and the coordinator writes from there. So no two workers store at one address. -/
theorem lanes_planned {e : Execution} {bodies : List Body} {r : Report}
    (hplan : plan e bodies = .ok r)
    (hbodies : bodies.map Body.outputBytes = job.phases.map Phase.outputBytes)
    (hlimit : job.limit = e.maxInFlight.toNat) (hbatch : job.batch = e.resultBatch.toNat) :
    r.lanes.Pairwise (fun l l' => l.outputRegion.Apart l'.outputRegion) ∧
      ∀ s, (lanes job).Reachable s → ∀ k p, (s.wave job)[k]? = some p →
        ∃ lane, r.lanes[k]? = some lane ∧ lane.outputRegion.stop ≤ r.controlReserved ∧
          (∀ rest b bytes cursor, (s.lanes k).worker = .store rest (b :: bytes) cursor →
            lane.output + cursor < lane.outputRegion.stop) ∧
          ∀ start n, s.place = .write k start n →
            lane.output + start + n ≤ lane.outputRegion.stop := by
  obtain ⟨hapart, hroom⟩ := plan_buffers hplan hbodies hlimit hbatch
  refine ⟨hapart, fun s hrun k p hp => ?_⟩
  have hsound := sound_of_reachable hrun
  have hlane := hsound.lanes k p hp
  have hphase := hsound.phase_of_wave hp
  have hk : k < min job.limit job.phases.length := by
    have hlt := State.lt_of_wave hp
    rw [State.wave, List.length_take, List.length_drop] at hlt
    omega
  obtain ⟨lane, hget, hbytes, hstop⟩ := hroom k hk
  refine ⟨lane, hget, hstop, fun rest b bytes cursor hw => ?_, fun start n hs => ?_⟩
  · have := hlane.cursor_lt hw
    simp only [Layout.Lane.outputRegion, Region.stop, hbytes]
    omega
  · have hplace := hsound.place
    simp only [State.At, hs] at hplace
    obtain ⟨-, -, hready, hlength⟩ := hplace
    have := hlane.length_le hready
    simp only [Layout.Lane.outputRegion, Region.stop, hbytes]
    omega

/-- The layout of the execution with one digit. -/
theorem lanes_planned_digits :
    [Layout.Lane.mk 64 128 1 1 8192 300 4096].Pairwise
        (fun l l' => l.outputRegion.Apart l'.outputRegion) ∧
      ∀ s, (lanes digits).Reachable s → ∀ (k : Nat) p, (s.wave digits)[k]? = some p →
        ∃ lane : Layout.Lane, [Layout.Lane.mk 64 128 1 1 8192 300 4096][k]? = some lane ∧
          lane.outputRegion.stop ≤ 4096 := by
  have hplan : plan ⟨"run", "Item", ["Digit"], 1, none, 1⟩ [⟨16, 300, 1⟩] =
      .ok ⟨"run", "Item", 1, 1, none, 4096, 12288, [⟨64, 128, 1, 1, 8192, 300, 4096⟩],
        [⟨"Digit", 0, 16, 300, 1⟩]⟩ := by decide
  have hbodies : [Body.mk 16 300 1].map Body.outputBytes =
      digits.phases.map Phase.outputBytes := rfl
  obtain ⟨hapart, hregions⟩ := lanes_planned hplan hbodies rfl rfl
  refine ⟨hapart, fun s hrun k p hp => ?_⟩
  obtain ⟨lane, hget, hstop, -⟩ := hregions s hrun k p hp
  exact ⟨lane, hget, hstop⟩

end Verbosec.Native.Lanes
