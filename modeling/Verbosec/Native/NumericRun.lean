import Verbosec.Native.NumericSlots

/-!
# Slot programs and their emission

* `run_append`, `Yields` - programs one after another, and what the code of an expression does.
* `Emit.Inv` - no slot is held twice, and exactly the allocated slots are held.
* `Same`, `Grown` - the emission of a complete expression, and that of an operand.
* `drain_grown`, `numericLocal_spec` - the end of an expression, and a new slot.
-/

namespace Verbosec.Native.NumericSlots

open Verbosec.Lib

/-! ## Slot programs -/

/-- **One program after another.** The first one ends at its end, so its jumps stay inside. -/
lemma run_append (first second : List Instr) (m : Machine) {m' : Machine}
    (h : run first m = some m') : run (first ++ second) m = run second m' := by
  fun_induction run first m with
  | case1 m => cases h; rfl
  | case2 m n code ih | case3 m p code ih | case4 m i code ih | case5 m op p code ih =>
      rw [List.cons_append, run]
      exact ih h
  | case6 m op p q code hop => cases h
  | case7 m op p q code v hop ih =>
      rw [List.cons_append, run, hop]
      exact ih h
  | case8 m n code hz hn ih =>
      rw [List.cons_append, run, if_pos hz, if_pos (by simp only [List.length_append]; omega),
        List.drop_append_of_le_length hn]
      exact ih h
  | case9 m n code hz hn => cases h
  | case10 m n code hz ih =>
      rw [List.cons_append, run, if_neg hz]
      exact ih h
  | case11 m n code hz ih =>
      rw [List.cons_append, run, if_pos hz]
      exact ih h
  | case12 m n code hz hn ih =>
      rw [List.cons_append, run, if_neg hz, if_pos (by simp only [List.length_append]; omega),
        List.drop_append_of_le_length hn]
      exact ih h
  | case13 m n code hz hn => cases h
  | case14 m n code hn ih =>
      rw [List.cons_append, run, if_pos (by simp only [List.length_append]; omega),
        List.drop_append_of_le_length hn]
      exact ih h
  | case15 m n code hn => cases h

/-- A jump over a program. -/
lemma run_jump (code rest : List Instr) (m : Machine) :
    run (.jump code.length :: (code ++ rest)) m = run rest m := by
  rw [run, if_pos (by simp), List.drop_left]

/-- The program ends with a value in the register, and leaves the fields and some slots as they
are. -/
def Yields (code : List Instr) (held : List Nat) (m : Machine) (v : Int64) : Prop :=
  ∃ m', run code m = some m' ∧ m'.rax = v ∧ m'.fields = m.fields ∧
    ∀ i ∈ held, m'.slots i = m.slots i

/-- The machines that agree on some slots, and on the fields. -/
def Machine.Agrees (held : List Nat) (m m' : Machine) : Prop :=
  m'.fields = m.fields ∧ ∀ i ∈ held, m'.slots i = m.slots i

/-- A program after one that leaves the slots as they are. -/
lemma Yields.after {first second : List Instr} {held : List Nat} {m m' : Machine} {v : Int64}
    (hrun : run first m = some m') (hagree : m.Agrees held m') (h : Yields second held m' v) :
    Yields (first ++ second) held m v := by
  obtain ⟨m'', hrun', hv, hf, hs⟩ := h
  exact ⟨m'', by rw [run_append _ _ _ hrun, hrun'], hv, hf.trans hagree.1,
    fun i hi => (hs i hi).trans (hagree.2 i hi)⟩

/-! ## Slots -/

/-- No slot is held twice; the held slots are the allocated ones. -/
structure Emit.Inv (s : Emit) : Prop where
  nodup : s.held.Nodup
  allocated : ∀ i, i < s.slots.count ↔ i ∈ s.held ∨ i ∈ s.slots.free
  disjoint : ∀ i ∈ s.held, i ∉ s.slots.free

/-- At a point no slot is held twice, only held slots are read, and only free ones written. -/
def Point.Good (p : Point) : Prop :=
  p.held.Nodup ∧ (∀ i ∈ p.reads, i ∈ p.held) ∧ ∀ i ∈ p.writes, i ∉ p.held

/-- Every step so far is good. -/
def Emit.Sound (s : Emit) : Prop := ∀ p ∈ s.points, p.Good

@[simp] lemma Emit.emit_held (s : Emit) (i : Instr) : (s.emit i).held = s.held := rfl

@[simp] lemma Emit.emit_slots (s : Emit) (i : Instr) : (s.emit i).slots = s.slots := rfl

@[simp] lemma Emit.emit_code (s : Emit) (i : Instr) : (s.emit i).code = s.code ++ [i] := rfl

lemma Emit.Inv.emit {s : Emit} (h : s.Inv) (i : Instr) : (s.emit i).Inv :=
  ⟨h.nodup, h.allocated, h.disjoint⟩

/-- A new slot is not held, and is allocated. -/
lemma Slots.allocate_spec {slots : Slots} (hfree : ∀ i ∈ slots.free, i < slots.count) :
    let a := slots.allocate
    (a.1 ∈ slots.free ∨ slots.count ≤ a.1) ∧
      ∀ i, (i < a.2.count ↔ i = a.1 ∨ i < slots.count) ∧
        (i ∈ a.2.free ↔ i ∈ slots.free ∧ i ≠ a.1) := by
  unfold Slots.allocate
  split
  · rename_i hne
    have hmin := Finset.min'_mem _ hne
    refine ⟨Or.inl hmin, fun i => ⟨⟨Or.inr, ?_⟩, ?_⟩⟩
    · rintro (rfl | hi)
      · exact hfree _ hmin
      · exact hi
    · simp only [Finset.mem_erase]
      tauto
  · rename_i hempty
    rw [Finset.not_nonempty_iff_eq_empty] at hempty
    refine ⟨Or.inr le_rfl, fun i => ⟨?_, ?_⟩⟩
    · simp only
      omega
    · simp [hempty]

/-- What the emission of an expression keeps: the slots that are held. -/
structure Same (s s' : Emit) : Prop where
  temporaries : s'.temporaries = s.temporaries
  locals : s'.locals = s.locals
  inv : s'.Inv
  sound : s.Sound → s'.Sound

lemma Same.held {s s' : Emit} (h : Same s s') : s'.held = s.held := by
  unfold Emit.held
  rw [h.temporaries, h.locals]

lemma Same.refl {s : Emit} (h : s.Inv) : Same s s := ⟨rfl, rfl, h, id⟩

lemma Same.trans {s s₁ s₂ : Emit} (h : Same s s₁) (h' : Same s₁ s₂) : Same s s₂ :=
  ⟨h'.temporaries.trans h.temporaries, h'.locals.trans h.locals, h'.inv, h'.sound ∘ h.sound⟩

/-- An instruction whose slots are fine. -/
lemma Same.emit {s : Emit} (h : s.Inv) {i : Instr} (hreads : ∀ j ∈ i.reads, j ∈ s.held)
    (hwrites : ∀ j ∈ i.writes, j ∉ s.held) : Same s (s.emit i) := by
  refine ⟨rfl, rfl, h.emit i, fun hs p hp => ?_⟩
  rcases List.mem_append.mp hp with hp | hp
  · exact hs p hp
  · rw [List.mem_singleton] at hp
    subst hp
    exact ⟨h.nodup, hreads, hwrites⟩

/-- The code may be patched. -/
lemma Same.code {s s' : Emit} (h : Same s s') (code : List Instr) :
    Same s { s' with code := code } :=
  ⟨h.temporaries, h.locals, ⟨h.inv.nodup, h.inv.allocated, h.inv.disjoint⟩, h.sound⟩

/-- What the emission of operands keeps: it may hold new temporaries. -/
structure Grown (s s' : Emit) (extra : List Nat) : Prop where
  temporaries : s'.temporaries = s.temporaries ++ extra
  locals : s'.locals = s.locals
  inv : s'.Inv
  sound : s.Sound → s'.Sound

lemma Grown.held {s s' : Emit} {extra : List Nat} (h : Grown s s' extra) :
    s'.held = s.held ++ extra := by
  unfold Emit.held
  rw [h.temporaries, h.locals, List.append_assoc]

lemma Grown.trans {s s₁ s₂ : Emit} {e₁ e₂ : List Nat} (h : Grown s s₁ e₁) (h' : Grown s₁ s₂ e₂) :
    Grown s s₂ (e₁ ++ e₂) :=
  ⟨by rw [h'.temporaries, h.temporaries, List.append_assoc], h'.locals.trans h.locals, h'.inv,
    h'.sound ∘ h.sound⟩

lemma Same.grown {s s' : Emit} (h : Same s s') : Grown s s' [] :=
  ⟨by rw [h.temporaries, List.append_nil], h.locals, h.inv, h.sound⟩

/-- The frame estimate refuses the rule. -/
def exhausted : Stop := .error "strict overflow frame estimate exhausted"

/-- **A new slot** is held by nobody; what is held then is up to the caller. -/
lemma numericLocal_spec {s : Emit} (h : s.Inv) (limit : Nat) :
    numericLocal limit s = .error exhausted ∨
    ∃ i s', numericLocal limit s = .ok (i, s') ∧ i ∉ s.held ∧
      s'.code = s.code ++ [Instr.store i] ∧ s'.temporaries = s.temporaries ∧ s'.locals = s.locals ∧
      (s.Sound → s'.Sound) ∧
      ∀ s'' : Emit, s''.slots = s'.slots → List.Perm s''.held (i :: s.held) → s''.Inv := by
  have hfree : ∀ i ∈ s.slots.free, i < s.slots.count :=
    fun i hi => (h.allocated i).mpr (Or.inr hi)
  have hspec := Slots.allocate_spec hfree
  unfold numericLocal
  generalize s.slots.allocate = a at hspec
  obtain ⟨index, slots⟩ := a
  simp only at hspec
  obtain ⟨hnew, hslots⟩ := hspec
  have hheld : index ∉ s.held := by
    intro hi
    rcases hnew with hn | hn
    · exact h.disjoint _ hi hn
    · have := (h.allocated index).mpr (Or.inl hi)
      omega
  by_cases hlimit : limit ≤ index
  · left
    simp only [hlimit, if_true]
    rfl
  · right
    refine ⟨index, { s with slots := slots }.emit (.store index),
      by simp only [hlimit, if_false], hheld, rfl, rfl, rfl, ?_, ?_⟩
    · intro hs p hp
      rcases List.mem_append.mp hp with hp | hp
      · exact hs p hp
      · rw [List.mem_singleton] at hp
        subst hp
        refine ⟨h.nodup, fun j hj => ?_, fun j hj => ?_⟩
        · simp [Instr.reads] at hj
        · simp only [Instr.writes, List.mem_singleton] at hj
          rw [hj]
          exact hheld
    · intro s'' hslots' hperm
      have hmem : ∀ i, i ∈ s''.held ↔ i = index ∨ i ∈ s.held := fun i => by
        rw [hperm.mem_iff, List.mem_cons]
      have hslots'' : s''.slots = slots := hslots'
      refine ⟨hperm.nodup_iff.mpr (List.nodup_cons.mpr ⟨hheld, h.nodup⟩), fun i => ?_, ?_⟩
      · rw [hslots'', (hslots i).1, (hslots i).2, hmem, h.allocated]
        by_cases hi : i = index
        · simp [hi]
        · simp [hi]
      · intro i hi
        rw [hslots'', (hslots i).2]
        rintro ⟨hfree', hne⟩
        rcases (hmem i).mp hi with rfl | hi
        · exact hne rfl
        · exact h.disjoint i hi hfree'

/-- A slot that is held can be released. -/
lemma release_spec {s : Emit} (h : s.Inv) {i : Nat} (hi : i ∈ s.held) :
    ∃ slots, s.slots.release i = .ok slots ∧
      ∀ s' : Emit, s'.slots = slots → List.Perm s.held (i :: s'.held) → s'.Inv := by
  refine ⟨_, if_pos ⟨(h.allocated i).mpr (Or.inl hi), h.disjoint i hi⟩, fun s' hslots hperm => ?_⟩
  have hnodup := hperm.nodup_iff.mp h.nodup
  rw [List.nodup_cons] at hnodup
  have hmem : ∀ j, j ∈ s.held ↔ j = i ∨ j ∈ s'.held := fun j => by
    rw [hperm.mem_iff, List.mem_cons]
  refine ⟨hnodup.2, fun j => ?_, fun j hj => ?_⟩
  · rw [hslots]
    simp only [Finset.mem_insert]
    rw [h.allocated, hmem]
    tauto
  · rw [hslots]
    simp only [Finset.mem_insert, not_or]
    refine ⟨fun hji => hnodup.1 (hji ▸ hj), h.disjoint j ((hmem j).mpr (Or.inr hj))⟩

/-- The temporaries of an expression can be released. -/
lemma releaseAll_spec (extra : List Nat) : ∀ {s : Emit} (_ : s.Inv) {kept : List Nat},
    s.temporaries = kept ++ extra →
    ∃ slots, releaseAll extra s.slots = .ok slots ∧
      ∀ s' : Emit, s'.slots = slots → s'.locals = s.locals → s'.temporaries = kept → s'.Inv := by
  induction extra with
  | nil =>
      intro s h kept hk
      refine ⟨_, rfl, fun s' hslots hl ht => ?_⟩
      have hheld : s'.held = s.held := by
        unfold Emit.held
        rw [hl, ht, hk, List.append_nil]
      exact ⟨hheld ▸ h.nodup, fun i => by rw [hslots, hheld, h.allocated],
        fun i hi => by rw [hslots]; exact h.disjoint i (hheld ▸ hi)⟩
  | cons i extra ih =>
      intro s h kept hk
      have hi : i ∈ s.held := by
        unfold Emit.held
        simp [hk]
      obtain ⟨slots, hrel, hinv⟩ := release_spec h hi
      have hinv' := hinv { s with slots := slots, temporaries := kept ++ extra } rfl (by
        unfold Emit.held
        simp only [hk]
        rw [← List.append_assoc, ← List.append_assoc]
        exact List.perm_middle)
      obtain ⟨slots', hall, hend⟩ := ih hinv' rfl
      refine ⟨slots', ?_, hend⟩
      unfold releaseAll
      rw [hrel]
      exact hall

/-- **The end of an expression**: what its operands held is released. -/
lemma drain_grown {s s' : Emit} {extra : List Nat} (h : Grown s s' extra) :
    ∃ s'', drain s.temporaries.length s' = .ok s'' ∧ s''.code = s'.code ∧ Same s s'' := by
  obtain ⟨slots, hall, hinv⟩ := releaseAll_spec extra h.inv h.temporaries
  refine ⟨{ s' with slots := slots, temporaries := s.temporaries }, ?_, rfl, rfl, h.locals,
    hinv _ rfl rfl rfl, h.sound⟩
  unfold drain
  rw [h.temporaries, List.drop_left, List.take_left, hall]
  rfl

end Verbosec.Native.NumericSlots
