import Verbosec.Native.Graph
import Mathlib.Tactic.Common

/-!
# What the walk over the worker code finds

* `Visited`, `visit_cases` - all that a turn of the loop can do.
* `Walk.unseen`, `validateGraph_ends` - the walk ends on all code.
* `Explored`, `explored_of_walk` - the marks and the points that are left cover what is reached.
* `validateGraph_charts` - on code that passes, the boundaries of the instructions are right; the
  instructions are free of calls and returns exactly where none of these has a prefix.
-/

namespace Verbosec.Native.Graph

open Decode

variable {code : List UInt8} {pc : Nat} {w w' : Walk}

/-! ## One turn -/

lemma lengthAt_bounds {len : Nat} (h : lengthAt code pc = some len) :
    0 < len ∧ pc + len ≤ code.length := by
  unfold lengthAt at h
  obtain ⟨hlen, hin⟩ := Option.filter_eq_some_iff.mp h
  simp only [decide_eq_true_eq] at hin
  have hpc : pc < code.length := by
    by_contra hge
    rw [decodeInstructionLength, if_pos (Nat.not_lt.mp hge)] at hlen
    cases hlen
  omega

/-- The turn has decoded an instruction: what it found, and what it leaves. -/
structure Visited (code : List UInt8) (pc len : Nat) (w w' : Walk) : Prop where
  unseen : w.visited pc = .unseen
  decoded : lengthAt code pc = some len
  clear : ∀ i, pc < i → i < pc + len → w.visited i = .unseen
  plain : refused (instruction code pc len) = false
  marks : w'.visited = mark w.visited pc len
  kept : ∀ n ∈ w.work, n ∈ w'.work
  pushed : ∀ q, Follows code pc q → ∃ n : Nat, q = n ∧ n ∈ w'.work
  size : w'.work.length ≤ w.work.length + 2

/-- The point behind an instruction is pushed, unless the instruction jumps. -/
lemma mem_fallThrough {ins : List UInt8} {next : Nat} (h : jumps ins = false) :
    next ∈ fallThrough ins next := by
  simp [fallThrough, h]

lemma length_fallThrough (ins : List UInt8) (next : Nat) : (fallThrough ins next).length ≤ 1 := by
  unfold fallThrough
  split <;> simp

/-- A turn leaves the marks as they are, where nothing is to be done, or it decodes an instruction. -/
lemma visit_cases (h : visit code pc w = .ok w') :
    (w' = w ∧ (pc = code.length ∨ w.visited pc = .start)) ∨ ∃ len, Visited code pc len w w' := by
  unfold visit at h
  split_ifs at h with hend hbad hseen
  · cases h
    exact .inl ⟨rfl, .inl hend⟩
  · cases h
    exact .inl ⟨rfl, .inr hseen⟩
  · refine .inr ?_
    have hunseen : w.visited pc = .unseen := by
      cases hm : w.visited pc with
      | unseen => rfl
      | start => exact absurd hm hseen
      | inside => exact absurd (Or.inr hm) hbad
    cases hlen : lengthAt code pc with
    | none => simp [hlen] at h
    | some len =>
        simp only [hlen] at h
        split_ifs at h with hoverlap hcall
        have hclear : ∀ i, pc < i → i < pc + len → w.visited i = .unseen := by
          intro i hlo hhi
          simp only [List.any_eq_true, List.mem_range'_1, decide_eq_true_eq, not_exists,
            not_and, not_not] at hoverlap
          exact hoverlap i ⟨by omega, by omega⟩
        have hplain : refused (instruction code pc len) = false := by simpa using hcall
        cases hbranch : branch (instruction code pc len) with
        | none =>
            simp only [hbranch, Except.ok.injEq] at h
            subst h
            refine ⟨len, hunseen, hlen, hclear, hplain, rfl, fun n hn => ?_, ?_, ?_⟩
            · exact List.mem_append_right _ hn
            · rintro q ⟨len', hlen', hq⟩
              obtain rfl := Option.some.inj (hlen.symm.trans hlen')
              rcases hq with ⟨hjump, rfl⟩ | ⟨d, hd, -⟩
              · exact ⟨pc + len, by push_cast; rfl, List.mem_append_left _ (mem_fallThrough hjump)⟩
              · rw [hbranch] at hd
                cases hd
            · have := length_fallThrough (instruction code pc len) (pc + len)
              rw [List.length_append]
              omega
        | some d =>
            simp only [hbranch] at h
            split_ifs at h with hrange
            simp only [Except.ok.injEq] at h
            subst h
            refine ⟨len, hunseen, hlen, hclear, hplain, rfl, fun n hn => ?_, ?_, ?_⟩
            · exact List.mem_append_right _ (List.mem_cons_of_mem _ hn)
            · rintro q ⟨len', hlen', hq⟩
              obtain rfl := Option.some.inj (hlen.symm.trans hlen')
              rcases hq with ⟨hjump, rfl⟩ | ⟨d', hd, rfl⟩
              · exact ⟨pc + len, by push_cast; rfl, List.mem_append_left _ (mem_fallThrough hjump)⟩
              · obtain rfl := Option.some.inj (hbranch.symm.trans hd)
                refine ⟨_, ?_, List.mem_append_right _ List.mem_cons_self⟩
                push_cast at hrange ⊢
                omega
            · have := length_fallThrough (instruction code pc len) (pc + len)
              rw [List.length_append, List.length_cons]
              omega

/-! ## The walk ends -/

/-- The bytes that the walk has not seen. -/
def Walk.unseen (w : Walk) (code : List UInt8) : Finset Nat :=
  (Finset.range code.length).filter fun i => w.visited i = .unseen

/-- A turn that decodes an instruction sees a new byte. -/
lemma Visited.unseen_lt {len : Nat} (h : Visited code pc len w w') :
    (w'.unseen code).card < (w.unseen code).card := by
  obtain ⟨hpos, hfits⟩ := lengthAt_bounds h.decoded
  refine Finset.card_lt_card (Finset.ssubset_iff_subset_ne.mpr ⟨fun i hi => ?_, fun heq => ?_⟩)
  · simp only [Walk.unseen, h.marks, Finset.mem_filter, mark] at hi ⊢
    refine ⟨hi.1, ?_⟩
    have hi := hi.2
    split_ifs at hi
    exact hi
  · have hmem : pc ∈ w.unseen code :=
      Finset.mem_filter.mpr ⟨Finset.mem_range.mpr (by omega), h.unseen⟩
    rw [← heq] at hmem
    have hmark := (Finset.mem_filter.mp hmem).2
    rw [h.marks] at hmark
    simp [mark] at hmark

/-- A bound on the turns that are left. -/
def Walk.measure (w : Walk) (code : List UInt8) : Nat :=
  2 * (w.unseen code).card + w.work.length

lemma measure_visit (h : visit code pc w = .ok w') : w'.measure code ≤ w.measure code := by
  rcases visit_cases h with ⟨rfl, -⟩ | ⟨len, hv⟩
  · exact Nat.le_refl _
  · have hlt := hv.unseen_lt
    have hsize := hv.size
    unfold Walk.measure
    omega

/-- The walk ends, and further turns change nothing. -/
lemma walk_ends (code : List UInt8) : ∀ (n : Nat) (w : Walk), w.measure code ≤ n →
    ∃ r, ∀ turns, n < turns → walk code turns w = some r := by
  intro n
  induction n with
  | zero =>
      intro w hw
      have hwork : w.work = [] := List.length_eq_zero_iff.mp (by unfold Walk.measure at hw; omega)
      refine ⟨.ok (), fun turns hturns => ?_⟩
      cases turns with
      | zero => omega
      | succ turns => simp [walk, hwork]
  | succ n ih =>
      intro w hw
      cases hwork : w.work with
      | nil =>
          refine ⟨.ok (), fun turns hturns => ?_⟩
          cases turns with
          | zero => omega
          | succ turns => simp [walk, hwork]
      | cons pc work =>
          have hless : ({ w with work := work } : Walk).measure code ≤ n := by
            unfold Walk.measure at hw ⊢
            rw [hwork, List.length_cons] at hw
            show 2 * (w.unseen code).card + work.length ≤ n
            omega
          cases hvisit : visit code pc { w with work := work } with
          | error e =>
              refine ⟨.error e, fun turns hturns => ?_⟩
              cases turns with
              | zero => omega
              | succ turns => simp [walk, hwork, hvisit]
          | ok w' =>
              obtain ⟨r, hr⟩ := ih w' ((measure_visit hvisit).trans hless)
              refine ⟨r, fun turns hturns => ?_⟩
              cases turns with
              | zero => omega
              | succ turns =>
                  simp only [walk, hwork, hvisit]
                  exact hr turns (by omega)

/-- The check has a result on all code, after a number of turns that its length bounds. -/
lemma validateGraph_ends (code : List UInt8) :
    ∃ r, ∀ turns, 2 * code.length + 2 ≤ turns → validateGraph turns code = some r := by
  have hcard : (Walk.first.unseen code).card ≤ code.length :=
    (Finset.card_filter_le _ _).trans_eq (Finset.card_range _)
  obtain ⟨r, hr⟩ := walk_ends code (2 * code.length + 1) Walk.first (by
    show 2 * (Walk.first.unseen code).card + 1 ≤ _
    omega)
  exact ⟨r, fun turns hturns => hr turns (by omega)⟩

/-! ## What the marks cover -/

/-- A point has been looked at, or it is on the stack. -/
def Covered (code : List UInt8) (w : Walk) (n : Nat) : Prop :=
  n ∈ w.work ∨ n = code.length ∨ w.visited n = .start

/-- What the marks say: a marked start is an instruction that may stand in the code, all its other
bytes are marked, and the points that follow on it are covered. -/
structure Explored (code : List UInt8) (w : Walk) : Prop where
  entry : Covered code w 0
  start : ∀ p, w.visited p = .start → ∃ len, lengthAt code p = some len ∧
    refused (instruction code p len) = false ∧
    (∀ i, p < i → i < p + len → w.visited i = .inside) ∧
    ∀ q, Follows code p q → ∃ n : Nat, q = n ∧ Covered code w n

/-- A turn keeps what is covered, and covers the point it was made for. -/
lemma covered_visit {work : List Nat} (hwork : w.work = pc :: work)
    (h : visit code pc { w with work := work } = .ok w') {n : Nat} (hn : Covered code w n) :
    Covered code w' n := by
  rcases visit_cases h with ⟨rfl, hpc⟩ | ⟨len, hv⟩
  · rcases hn with hn | hn
    · rw [hwork, List.mem_cons] at hn
      rcases hn with rfl | hn
      · exact .inr hpc
      · exact .inl hn
    · exact .inr hn
  · have hstart : w'.visited pc = .start := by simp [hv.marks, mark]
    rcases hn with hn | hn | hn
    · rw [hwork, List.mem_cons] at hn
      rcases hn with rfl | hn
      · exact .inr (.inr hstart)
      · exact .inl (hv.kept n hn)
    · exact .inr (.inl hn)
    · by_cases hnpc : n = pc
      · exact .inr (.inr (hnpc ▸ hstart))
      · refine .inr (.inr ?_)
        rw [hv.marks, mark, if_neg hnpc, if_neg]
        · exact hn
        · rintro ⟨hlo, hhi⟩
          rw [hv.clear n hlo hhi] at hn
          cases hn

/-- A turn keeps what the marks say. -/
lemma explored_visit {work : List Nat} (hwork : w.work = pc :: work)
    (h : visit code pc { w with work := work } = .ok w') (hw : Explored code w) :
    Explored code w' := by
  have hcovered : ∀ {n}, Covered code w n → Covered code w' n := covered_visit hwork h
  refine ⟨hcovered hw.entry, fun p hp => ?_⟩
  rcases visit_cases h with ⟨rfl, -⟩ | ⟨len, hv⟩
  · obtain ⟨len, hlen, hplain, hinside, hfollows⟩ := hw.start p hp
    refine ⟨len, hlen, hplain, hinside, fun q hq => ?_⟩
    obtain ⟨n, rfl, hn⟩ := hfollows q hq
    exact ⟨n, rfl, hcovered hn⟩
  · by_cases hppc : p = pc
    · subst hppc
      refine ⟨len, hv.decoded, hv.plain, fun i hlo hhi => ?_, fun q hq => ?_⟩
      · rw [hv.marks, mark, if_neg (by omega), if_pos ⟨hlo, hhi⟩]
      · obtain ⟨n, rfl, hn⟩ := hv.pushed q hq
        exact ⟨n, rfl, .inl hn⟩
    · have hold : w.visited p = .start := by
        rw [hv.marks, mark, if_neg hppc] at hp
        split_ifs at hp
        exact hp
      obtain ⟨len', hlen, hplain, hinside, hfollows⟩ := hw.start p hold
      refine ⟨len', hlen, hplain, fun i hlo hhi => ?_, fun q hq => ?_⟩
      · have hi := hinside i hlo hhi
        have hipc : i ≠ pc := by
          rintro rfl
          have hunseen : w.visited i = .unseen := hv.unseen
          rw [hunseen] at hi
          cases hi
        rw [hv.marks, mark, if_neg hipc]
        split_ifs
        · rfl
        · exact hi
      · obtain ⟨n, rfl, hn⟩ := hfollows q hq
        exact ⟨n, rfl, hcovered hn⟩

/-- Where the walk finds nothing wrong, its last marks cover all that the code reaches. -/
lemma explored_of_walk : ∀ (turns : Nat) (w : Walk), Explored code w →
    walk code turns w = some (.ok ()) → ∃ w', Explored code w' ∧ w'.work = [] := by
  intro turns
  induction turns with
  | zero =>
      intro w _ h
      cases h
  | succ turns ih =>
      intro w hw h
      unfold walk at h
      cases hwork : w.work with
      | nil => exact ⟨w, hw, hwork⟩
      | cons pc work =>
          rw [hwork] at h
          cases hvisit : visit code pc { w with work := work } with
          | error e => simp [hvisit] at h
          | ok w' =>
              simp only [hvisit] at h
              exact ih w' (explored_visit hwork hvisit hw) h

/-- The walk starts with the entry on its stack, and no marks. -/
lemma explored_first (code : List UInt8) : Explored code Walk.first :=
  ⟨.inl List.mem_cons_self, fun p hp => by cases hp⟩

/-- What the code reaches is covered by the last marks. -/
lemma reached_marked (hw : Explored code w) (hwork : w.work = []) {q : Int}
    (hq : (flow code).Reachable q) :
    ∃ n : Nat, q = n ∧ (n = code.length ∨ w.visited n = .start) := by
  have hseen : ∀ {n}, Covered code w n → n = code.length ∨ w.visited n = .start := fun hn => by
    simpa [Covered, hwork] using hn
  refine Lib.System.Reachable.invariant
    (I := fun q : Int => ∃ n : Nat, q = n ∧ (n = code.length ∨ w.visited n = .start))
    (fun q hinit => ?_) (fun p q _ hp hstep => ?_) hq
  · exact ⟨0, hinit, hseen hw.entry⟩
  · obtain ⟨pc, rfl, hfollows⟩ := hstep
    obtain ⟨n, hn, hmark⟩ := hp
    obtain rfl := Int.ofNat_inj.mp hn
    rcases hmark with rfl | hmark
    · obtain ⟨len, hlen, -⟩ := hfollows
      have hbounds := lengthAt_bounds hlen
      omega
    · obtain ⟨len, hlen, -, -, hcovered⟩ := hw.start pc hmark
      obtain ⟨n, rfl, hn⟩ := hcovered q hfollows
      exact ⟨n, rfl, hseen hn⟩

/-- A point with an instruction is not the end of the code. -/
lemma marked_of_length {len : Nat} (hlen : lengthAt code pc = some len)
    (h : pc = code.length ∨ w.visited pc = .start) : w.visited pc = .start := by
  have hbounds := lengthAt_bounds hlen
  exact h.resolve_left (by omega)

/-- A marked start is not inside another instruction. -/
lemma starts_apart (hw : Explored code w) {p q m : Nat} (hp : w.visited p = .start)
    (hq : w.visited q = .start) (hm : lengthAt code p = some m) (hlt : p < q) : p + m ≤ q := by
  obtain ⟨len, hlen, -, hinside, -⟩ := hw.start p hp
  obtain rfl := Option.some.inj (hm.symm.trans hlen)
  by_contra hover
  have hmark := hinside q hlt (by omega)
  rw [hq] at hmark
  cases hmark

/-! ## Calls and returns -/

/-- Without a prefix, the opcode is the first byte. -/
lemma opcodeByte_eq_head {bytes : List UInt8} (h : ∀ b ∈ bytes.head?, isPrefixByte b = false) :
    opcodeByte bytes = bytes.head? := by
  cases bytes with
  | nil => rfl
  | cons b bytes =>
      have hb := h b rfl
      simp only [isPrefixByte, Bool.or_eq_false_iff, Bool.and_eq_false_iff, decide_eq_false_iff_not]
        at hb
      unfold opcodeByte
      rw [skipLegacy, if_neg (by simp [hb.1])]
      simp only []
      rw [if_neg (by omega)]
      rfl

/-- An instruction that the walk does not refuse is a call or a return only behind a prefix. -/
lemma prefixed_of_call {len : Nat} (hlen : lengthAt code pc = some len)
    (hplain : refused (instruction code pc len) = false) (hcall : CallOrReturn code pc) :
    Prefixed code pc := by
  by_contra hnone
  have hpos := (lengthAt_bounds hlen).1
  have hhead : (instruction code pc len).head? = (code.drop pc).head? := by
    rw [instruction, List.head?_take, if_neg (by omega)]
  have hopcode : opcodeByte (code.drop pc) = (code.drop pc).head? :=
    opcodeByte_eq_head fun b hb => by
      by_contra hb'
      exact hnone ⟨b, hb, by simpa using hb'⟩
  rw [CallOrReturn, hopcode] at hcall
  rw [refused, hhead] at hplain
  rcases hcall with hcall | hcall <;> simp [hcall] at hplain

/-! ## The result -/

/-- The check ends on all code. Where it finds nothing wrong, the code reaches starts of decoded
instructions and its end only, and these do not overlap; it reaches no call or return exactly where
it reaches none behind a prefix. -/
theorem validateGraph_charts (code : List UInt8) :
    (∃ r, ∀ turns, 2 * code.length + 2 ≤ turns → validateGraph turns code = some r) ∧
      ∀ turns, validateGraph turns code = some (.ok ()) →
        (Charted code ↔
          ∀ pc : Nat, (flow code).Reachable pc → Prefixed code pc → ¬ CallOrReturn code pc) := by
  refine ⟨validateGraph_ends code, fun turns hok => ?_⟩
  obtain ⟨w, hw, hwork⟩ := explored_of_walk turns Walk.first (explored_first code) hok
  have hreach : ∀ pc : Nat, (flow code).Reachable pc → pc = code.length ∨ w.visited pc = .start := by
    intro pc hpc
    obtain ⟨n, hn, hmark⟩ := reached_marked hw hwork hpc
    rwa [Int.ofNat_inj.mp hn]
  constructor
  · intro hcharted pc hpc hprefixed
    rcases hreach pc hpc with rfl | hmark
    · obtain ⟨b, hb, -⟩ := hprefixed
      simp at hb
    · obtain ⟨len, hlen, -⟩ := hw.start pc hmark
      exact hcharted.call_free pc len hpc hlen
  · intro hcalls
    refine ⟨fun q hq => ?_, fun p q m n hp hq hm hn hlt => ?_, fun p m hp hm hcall => ?_⟩
    · obtain ⟨pc, rfl, hpc⟩ := reached_marked hw hwork hq
      refine ⟨pc, rfl, hpc.imp_right fun hmark => ?_⟩
      obtain ⟨len, hlen, -⟩ := hw.start pc hmark
      exact ⟨len, hlen⟩
    · exact starts_apart hw (marked_of_length hm (hreach p hp)) (marked_of_length hn (hreach q hq))
        hm hlt
    · obtain ⟨len, hlen, hplain, -⟩ := hw.start p (marked_of_length hm (hreach p hp))
      exact hcalls p hp (prefixed_of_call hlen hplain hcall) hcall

/-- A jump over a byte of data. -/
theorem validateGraph_charts_jump : Charted [0xE9, 1, 0, 0, 0, 0x3A, 0x90] := by
  refine ((validateGraph_charts _).2 4 (by decide +kernel)).mpr fun pc _ hprefixed => ?_
  obtain ⟨b, hb, hbyte⟩ := hprefixed
  have hmem : b ∈ [0xE9, 1, 0, 0, 0, 0x3A, 0x90] :=
    List.mem_of_mem_drop (List.mem_of_mem_head? hb)
  have hplain : ∀ b ∈ [0xE9, 1, 0, 0, 0, 0x3A, 0x90], isPrefixByte b = false := by
    simp [isPrefixByte, isLegacy]
  rw [hplain b hmem] at hbyte
  cases hbyte

/-- The walk passes `rep ret`. -/
theorem prefixed_return_passes : ¬ ∀ code turns, validateGraph turns code = some (.ok ()) →
    Charted code := by
  intro h
  have hcharted := h [0xF3, 0xC3] 3 rfl
  exact hcharted.call_free 0 2 (Lib.System.Reachable.init rfl) rfl (.inr rfl)

end Verbosec.Native.Graph
