import Verbosec.Lib.Dict
import Verbosec.Native.Arena
import Mathlib.Data.List.Nodup
import Mathlib.Data.List.TakeWhile
import Mathlib.Tactic.Linarith

/-!
# Construction and matching are inverse

* `popFields_spec` - what is pushed is stored field by field, and nothing else is written.
* `Stored`, `construct_stored` - the nodes of an arena, and one more of them.
* `dispatch_stored` - a match selects the arm of the variant and binds its payload, where the tag is
  below 128.
* `armSlots_spec`, `armSlots_lowest` - the slots of nested arms, and the bytes that they take.
* `arena_inverse` - all of it, over every sequence of constructions.
-/

namespace Verbosec.Native.Arena

open Verbosec.Lib

/-! ## Memory -/

lemma load_store_same (m : Memory) (a : Nat) (w : Word) : loadWord (storeWord m a w) a = w := by
  funext i
  have hi : a ≤ a + i.val ∧ a + i.val < a + 8 := by omega
  simp [loadWord, storeWord, hi]

lemma store_frame (m : Memory) (a : Nat) (w : Word) {x : Nat} (h : x < a ∨ a + 8 ≤ x) :
    storeWord m a w x = m x := by
  rw [storeWord, dif_neg (by omega)]

lemma load_congr {m m' : Memory} {a : Nat} (h : ∀ x, a ≤ x → x < a + 8 → m x = m' x) :
    loadWord m a = loadWord m' a := by
  funext i
  exact h _ (by omega) (by omega)

/-! ## Payloads -/

/-- The payload of a node as it is stored. -/
def readFields (m : Memory) : Nat → List Field → List Payload
  | _, [] => []
  | off, f :: fs => loadField m off f :: readFields m (off + arenaFieldByteWidth f.ty) fs

lemma width_pos (ty : Ty) : 8 ≤ arenaFieldByteWidth ty := by
  unfold arenaFieldByteWidth
  split <;> omega

lemma payload_cons (f : Field) (fs : List Field) :
    arenaVariantPayloadBytes (f :: fs) =
      arenaFieldByteWidth f.ty + arenaVariantPayloadBytes fs := by
  simp [arenaVariantPayloadBytes]

lemma payload_dvd (fs : List Field) : 8 ∣ arenaVariantPayloadBytes fs := by
  induction fs with
  | nil => exact ⟨0, rfl⟩
  | cons f fs ih =>
      have hwidth : arenaFieldByteWidth f.ty = 16 ∨ arenaFieldByteWidth f.ty = 8 := by
        unfold arenaFieldByteWidth
        split
        · exact .inl rfl
        · exact .inr rfl
      rw [payload_cons]
      omega

lemma loadField_congr {m m' : Memory} {off : Nat} {f : Field}
    (h : ∀ x, off ≤ x → x < off + arenaFieldByteWidth f.ty → m x = m' x) :
    loadField m off f = loadField m' off f := by
  unfold loadField
  split
  · rename_i hty
    rw [hty] at h
    have hw : arenaFieldByteWidth .text = 16 := rfl
    rw [load_congr (a := off) fun x h₁ h₂ => h x h₁ (by omega),
      load_congr (a := off + 8) fun x h₁ h₂ => h x (by omega) (by omega)]
  · have := width_pos f.ty
    rw [load_congr (a := off) fun x h₁ h₂ => h x h₁ (by omega)]

lemma readFields_congr {m m' : Memory} (fs : List Field) {off : Nat}
    (h : ∀ x, off ≤ x → x < off + arenaVariantPayloadBytes fs → m x = m' x) :
    readFields m off fs = readFields m' off fs := by
  induction fs generalizing off with
  | nil => rfl
  | cons f fs ih =>
      rw [payload_cons] at h
      rw [readFields, readFields, loadField_congr fun x h₁ h₂ => h x h₁ (by omega),
        ih fun x h₁ h₂ => h x (by omega) (by omega)]

lemma popField_word {f : Field} (hty : f.ty ≠ .text) (off : Nat) (m : Memory) (w : Word)
    (stack : List Word) : popField off f (m, w :: stack) = (storeWord m off w, stack) := by
  unfold popField
  split
  · exact absurd ‹_› hty
  · rename_i heq _
    cases heq
    rfl
  · rename_i heq
    cases heq

lemma popField_text {f : Field} (hty : f.ty = .text) (off : Nat) (m : Memory) (ptr len : Word)
    (stack : List Word) : popField off f (m, len :: ptr :: stack) =
      (storeWord (storeWord m (off + 8) len) off ptr, stack) := by
  rw [popField, hty]

/-- What is pushed is stored field by field, and nothing else is written. -/
lemma popFields_spec (m : Memory) {fs : List Field} {ps : List Payload}
    (hfits : List.Forall₂ Payload.Fits ps fs) (off : Nat) (stack : List Word) :
    ∃ m', popFields off fs (m, pushFields ps stack) = (m', stack) ∧
      (∀ x, x < off ∨ off + arenaVariantPayloadBytes fs ≤ x → m' x = m x) ∧
      readFields m' off fs = ps := by
  induction hfits generalizing off stack with
  | nil => exact ⟨m, rfl, fun _ _ => rfl, rfl⟩
  | @cons p f ps fs hfit hrest ih =>
      rw [payload_cons]
      cases p with
      | word w =>
          have hty : f.ty ≠ .text := hfit
          have hload : ∀ m off, loadField m off f = .word (loadWord m off) := by
            intro m off
            unfold loadField
            split
            · exact absurd ‹_› hty
            · rfl
          have hwidth := width_pos f.ty
          obtain ⟨m', hpop, hframe, hread⟩ := ih (off + arenaFieldByteWidth f.ty) (w :: stack)
          refine ⟨storeWord m' off w, ?_, fun x hx => ?_, ?_⟩
          · rw [popFields, pushFields, hpop, popField_word hty]
          · rw [store_frame _ _ _ (by omega), hframe x (by omega)]
          · rw [readFields, hload, load_store_same, readFields_congr fs fun x h₁ _ =>
              store_frame m' off w (by omega), hread]
      | text ptr len =>
          have hty : f.ty = .text := hfit
          have hwidth : arenaFieldByteWidth f.ty = 16 := by rw [hty]; rfl
          have hload : ∀ m off,
              loadField m off f = .text (loadWord m off) (loadWord m (off + 8)) := by
            intro m off
            rw [loadField, hty]
          obtain ⟨m', hpop, hframe, hread⟩ :=
            ih (off + arenaFieldByteWidth f.ty) (len :: ptr :: stack)
          refine ⟨storeWord (storeWord m' (off + 8) len) off ptr, ?_, fun x hx => ?_, ?_⟩
          · rw [popFields, pushFields, hpop, popField_text hty]
          · rw [store_frame _ _ _ (by omega), store_frame _ _ _ (by omega), hframe x (by omega)]
          · have hlen : loadWord (storeWord (storeWord m' (off + 8) len) off ptr) (off + 8) =
                len := by
              rw [load_congr fun x h₁ _ => store_frame _ off ptr (by omega), load_store_same]
            have hrest : readFields (storeWord (storeWord m' (off + 8) len) off ptr)
                (off + arenaFieldByteWidth f.ty) fs = ps := by
              rw [readFields_congr fs fun x h₁ _ => by
                rw [store_frame _ off ptr (by omega), store_frame _ (off + 8) len (by omega)],
                hread]
            rw [readFields, hload, load_store_same, hlen, hrest]

/-! ## Tags -/

/-- The comparison finds a tag exactly below 128: above, the immediate is extended to a negative
number. -/
lemma tagEquals_iff (t t' : UInt8) : tagEquals t t' = true ↔ t = t' ∧ t'.toNat < 128 := by
  have hsigned : t'.toInt8.toInt = if t'.toNat < 128 then (t'.toNat : Int) else t'.toNat - 256 := by
    rw [Int8.toInt, UInt8.toBitVec_toInt8, BitVec.toInt_eq_toNat_cond]
    change (if 2 * t'.toNat < 2 ^ 8 then (t'.toNat : Int) else t'.toNat - (2 ^ 8 : Nat)) = _
    split_ifs <;> omega
  have hlt : t'.toNat < 256 := t'.toNat_lt
  rw [tagEquals, decide_eq_true_eq, hsigned, ← UInt8.toNat_inj]
  split_ifs <;> omega

section group

variable {g : ConceptGroup}

/-- A node of a variant of the group, with a payload of its fields. -/
structure Built (g : ConceptGroup) (n : Node) (i : Nat) (v : Variant) : Prop where
  index : (groupVariants g)[i]? = some v
  name : v.name = n.name
  fits : List.Forall₂ Payload.Fits n.payload v.fields

lemma variantTag_of_index (hg : Accepted g) {i : Nat} {v : Variant}
    (hv : (groupVariants g)[i]? = some v) : variantTag g v.name = some (UInt8.ofNat i) := by
  have hi : i < (groupVariants g).length := (List.getElem?_eq_some_iff.mp hv).1
  have hget : (groupVariants g)[i] = v := (List.getElem?_eq_some_iff.mp hv).2
  have hfind : (groupVariants g).findIdx? (·.name = v.name) = some i := by
    rw [List.findIdx?_eq_some_iff_getElem]
    refine ⟨hi, by simp [hget], fun j hj => ?_⟩
    have hne : (groupVariants g)[j].name ≠ v.name := by
      intro heq
      have hmap : ((groupVariants g).map (·.name))[j]? =
          ((groupVariants g).map (·.name))[i]? := by
        rw [List.getElem?_map, List.getElem?_map, List.getElem?_eq_getElem (by omega), hv,
          Option.map_some, Option.map_some, heq]
      have hij : j = i := 
        (List.getElem?_inj (by rw [List.length_map]; omega) hg.names).mp hmap
      omega
    simpa using hne
  rw [variantTag, hfind]
  rfl

lemma variantFields_of_index (hg : Accepted g) {i : Nat} {v : Variant}
    (hv : (groupVariants g)[i]? = some v) : variantFields g v.name = some v.fields := by
  have hmem : v ∈ groupVariants g := List.mem_of_getElem? hv
  rw [variantFields, find?_of_nodup (·.name) hg.names hmem]
  rfl

lemma payload_le_entry {v : Variant} (hv : v ∈ groupVariants g) :
    8 + arenaVariantPayloadBytes v.fields ≤ computeArenaEntrySize g := by
  have hmax : ∀ (vs : List Variant), v ∈ vs →
      arenaVariantPayloadBytes v.fields ≤
        (vs.map fun v => arenaVariantPayloadBytes v.fields).foldr max 0 := by
    intro vs
    induction vs with
    | nil => exact fun h => by cases h
    | cons w vs ih =>
        intro h
        rw [List.map_cons, List.foldr_cons]
        rcases List.mem_cons.mp h with rfl | h
        · exact Nat.le_max_left _ _
        · exact Nat.le_trans (ih h) (Nat.le_max_right _ _)
  have hle := hmax _ hv
  have hdvd := payload_dvd v.fields
  rw [computeArenaEntrySize]
  omega

/-! ## Stored nodes -/

/-- The entry of a node holds its tag and its payload. -/
def Entry (g : ConceptGroup) (m : Memory) (entry : Nat) (n : Node) : Prop :=
  ∃ i v, Built g n i v ∧ m entry = UInt8.ofNat i ∧ readFields m (entry + 8) v.fields = n.payload

/-- The arena holds the nodes, in the order of their construction. -/
structure Stored (g : ConceptGroup) (s : State) (nodes : List Node) : Prop where
  count : s.nodeCount = nodes.length
  room : nodes.length ≤ g.maxNodes
  entry : ∀ k n, nodes[k]? = some n → Entry g s.mem (k * computeArenaEntrySize g) n

/-- One more node. -/
lemma construct_stored (hg : Accepted g) {s : State} {nodes : List Node} (hs : Stored g s nodes)
    {n : Node} {i : Nat} {v : Variant} (hn : Built g n i v) :
    (nodes.length = g.maxNodes ∧ construct g n.name n.payload s = .error s) ∨
      ∃ s', construct g n.name n.payload s = .ok (nodes.length, s') ∧
        Stored g s' (nodes ++ [n]) ∧
        ∀ x, x < nodes.length * computeArenaEntrySize g ∨
          (nodes.length + 1) * computeArenaEntrySize g ≤ x → s'.mem x = s.mem x := by
  have htag := variantTag_of_index hg hn.index
  have hfields := variantFields_of_index hg hn.index
  rw [hn.name] at htag hfields
  have hentry := payload_le_entry (List.mem_of_getElem? hn.index)
  by_cases hfull : g.maxNodes ≤ s.nodeCount
  · left
    refine ⟨Nat.le_antisymm hs.room (hs.count ▸ hfull), ?_⟩
    rw [construct, htag, hfields]
    exact if_pos hfull
  · right
    obtain ⟨m', hpop, hframe, hread⟩ := popFields_spec
      (storeByte s.mem (s.nodeCount * computeArenaEntrySize g) (UInt8.ofNat i)) hn.fits
      (s.nodeCount * computeArenaEntrySize g + 8) []
    have hcount := hs.count
    rw [hcount] at hpop hframe hread
    have hkeep : ∀ x, x < nodes.length * computeArenaEntrySize g ∨
        (nodes.length + 1) * computeArenaEntrySize g ≤ x → m' x = s.mem x := by
      intro x hx
      rw [Nat.add_mul, Nat.one_mul] at hx
      rw [hframe x (by omega), storeByte, Function.update_of_ne (by omega)]
    refine ⟨⟨m', s.nodeCount + 1⟩, ?_, ⟨?_, ?_, fun k n' hk => ?_⟩, hkeep⟩
    · rw [construct, htag, hfields]
      dsimp only
      rw [if_neg hfull, hcount, hpop]
    · rw [List.length_append, hcount]
      rfl
    · rw [List.length_append, ← hcount]
      exact Nat.lt_of_not_le hfull
    · by_cases hlt : k < nodes.length
      · rw [List.getElem?_append_left hlt] at hk
        obtain ⟨j, w, hbuilt, hmem, hpayload⟩ := hs.entry k n' hk
        have hw := payload_le_entry (List.mem_of_getElem? hbuilt.index)
        have hbelow : (k + 1) * computeArenaEntrySize g ≤
            nodes.length * computeArenaEntrySize g := Nat.mul_le_mul_right _ hlt
        rw [Nat.add_mul, Nat.one_mul] at hbelow
        exact ⟨j, w, hbuilt, (hkeep _ (by omega)).trans hmem,
          (readFields_congr w.fields fun x h₁ h₂ => hkeep x (by omega)).trans hpayload⟩
      · have hk' : k = nodes.length := by
          have := (List.getElem?_eq_some_iff.mp hk).1
          rw [List.length_append, List.length_singleton] at this
          omega
        subst hk'
        rw [List.getElem?_append_right (Nat.le_refl _), Nat.sub_self] at hk
        cases hk
        refine ⟨i, v, hn, (hframe _ (by omega)).trans ?_, hread⟩
        rw [storeByte, Function.update_self]

/-! ## Matching -/

lemma bindFields_eq (m : Memory) (off : Nat) (bs : List (Option String)) (fs : List Field) :
    bindFields m off bs fs =
      (bs.zip (readFields m off fs)).filterMap fun e => e.1.map fun x => (x, e.2) := by
  induction bs generalizing off fs with
  | nil => rfl
  | cons b bs ih =>
      cases fs with
      | nil => cases b <;> rfl
      | cons f fs =>
          cases b with
          | none => exact ih _ fs
          | some x => exact congrArg _ (ih _ fs)

lemma index_unique (hg : Accepted g) {i j : Nat} {v w : Variant}
    (hv : (groupVariants g)[i]? = some v) (hw : (groupVariants g)[j]? = some w)
    (hname : v.name = w.name) : i = j ∧ v = w := by
  have hi : i < (groupVariants g).length := (List.getElem?_eq_some_iff.mp hv).1
  have hmap : ((groupVariants g).map (·.name))[i]? = ((groupVariants g).map (·.name))[j]? := by
    rw [List.getElem?_map, List.getElem?_map, hv, hw, Option.map_some, Option.map_some, hname]
  have hij : i = j := (List.getElem?_inj (by rw [List.length_map]; exact hi) hg.names).mp hmap
  subst hij
  exact ⟨rfl, Option.some.inj (hv.symm.trans hw)⟩

/-- Every arm names a variant of the group and has a binder or a wildcard for each of its fields. -/
def Compiles (g : ConceptGroup) (arms : List MatchArm) : Prop :=
  ∀ arm ∈ arms, ∃ (j : Nat) (w : Variant), (groupVariants g)[j]? = some w ∧
    w.name = arm.variantName ∧ arm.binders.length = w.fields.length

/-- The comparison with the tag of an arm: both are counted by a byte. -/
lemma tagEquals_index (i j : Nat) :
    tagEquals (UInt8.ofNat i) (UInt8.ofNat j) = true ↔ i % 256 = j % 256 ∧ i % 256 < 128 := by
  rw [tagEquals_iff, ← UInt8.toNat_inj, UInt8.toNat_ofNat', UInt8.toNat_ofNat']
  constructor
  · rintro ⟨heq, hlt⟩
    exact ⟨heq, heq ▸ hlt⟩
  · rintro ⟨heq, hlt⟩
    exact ⟨heq, heq ▸ hlt⟩

/-- No arm before the one of the variant has its tag. -/
def Unshadowed (g : ConceptGroup) (n : Node) (i : Nat) (arms : List MatchArm) : Prop :=
  ∀ arm ∈ arms.takeWhile (·.variantName ≠ n.name), ∀ j w, (groupVariants g)[j]? = some w →
    w.name = arm.variantName → j % 256 ≠ i % 256

/-- Where the byte does not wrap, no arm of another variant has the tag. -/
lemma Unshadowed.of_length (hsize : (groupVariants g).length ≤ 256) {n : Node}
    {i : Nat} {v : Variant} (hn : Built g n i v) (arms : List MatchArm) :
    Unshadowed g n i arms := by
  intro arm harm j w hw hname heq
  have hi : i < (groupVariants g).length := (List.getElem?_eq_some_iff.mp hn.index).1
  have hj : j < (groupVariants g).length := (List.getElem?_eq_some_iff.mp hw).1
  rw [Nat.mod_eq_of_lt (by omega), Nat.mod_eq_of_lt (by omega)] at heq
  subst heq
  have hvw : v = w := Option.some.inj (hn.index.symm.trans hw)
  subst hvw
  have hne := List.mem_takeWhile_imp harm
  rw [decide_eq_true_eq] at hne
  exact hne (hname.symm.trans hn.name)

section matching

variable {s : State} {k i : Nat} {n : Node} {v : Variant}

lemma dispatch_cons (hg : Accepted g) {arm : MatchArm} {arms : List MatchArm} {j : Nat}
    {w : Variant} (hw : (groupVariants g)[j]? = some w) (hname : w.name = arm.variantName) :
    dispatch g s k (arm :: arms) =
      if tagEquals (s.mem (k * computeArenaEntrySize g)) (UInt8.ofNat j) then
        some (arm, bindFields s.mem (k * computeArenaEntrySize g + 8) arm.binders w.fields)
      else dispatch g s k arms := by
  have htag := variantTag_of_index hg hw
  have hfields := variantFields_of_index hg hw
  rw [hname] at htag hfields
  rw [dispatch, htag, hfields]
  rfl

/-- No arm is selected for a tag from 128 on. -/
lemma dispatch_none (hg : Accepted g)
    (hmem : s.mem (k * computeArenaEntrySize g) = UInt8.ofNat i) (hi : ¬i % 256 < 128)
    {arms : List MatchArm} (harms : Compiles g arms) : dispatch g s k arms = none := by
  induction arms with
  | nil => rfl
  | cons arm arms ih =>
      obtain ⟨j, w, hw, hname, -⟩ := harms arm (by simp)
      have hne : ¬tagEquals (UInt8.ofNat i) (UInt8.ofNat j) = true := fun h =>
        hi ((tagEquals_index i j).mp h).2
      rw [dispatch_cons hg hw hname, hmem, if_neg hne]
      exact ih fun arm' h => harms arm' (List.mem_cons_of_mem _ h)

/-- For a tag below 128 the arm of the variant is selected exactly when no arm before it has the
tag. -/
lemma dispatch_iff (hg : Accepted g) (hn : Built g n i v)
    (hmem : s.mem (k * computeArenaEntrySize g) = UInt8.ofNat i)
    (hread : readFields s.mem (k * computeArenaEntrySize g + 8) v.fields = n.payload)
    (hi : i % 256 < 128) {arms : List MatchArm} (harms : Compiles g arms) {arm : MatchArm}
    (harm : arms.find? (·.variantName = n.name) = some arm) :
    dispatch g s k arms = some (arm, (arm.binders.zip n.payload).filterMap fun e =>
      e.1.map fun x => (x, e.2)) ↔ Unshadowed g n i arms := by
  induction arms with
  | nil => cases harm
  | cons arm' arms ih =>
      obtain ⟨j, w, hw, hname, -⟩ := harms arm' (by simp)
      rw [dispatch_cons hg hw hname, hmem]
      by_cases hsame : arm'.variantName = n.name
      · rw [List.find?_cons_of_pos (by simpa using hsame)] at harm
        cases harm
        obtain ⟨rfl, rfl⟩ := index_unique hg hn.index hw (by rw [hname, hsame, hn.name])
        rw [if_pos ((tagEquals_index i i).mpr ⟨rfl, hi⟩), bindFields_eq, hread]
        refine iff_of_true rfl fun arm' h => ?_
        rw [List.takeWhile_cons_of_neg (by simpa using hsame)] at h
        cases h
      · rw [List.find?_cons_of_neg (by simpa using hsame)] at harm
        have hrest := ih (fun arm'' h => harms arm'' (List.mem_cons_of_mem _ h)) harm
        rw [Unshadowed, List.takeWhile_cons_of_pos (by simpa using hsame)]
        by_cases htag : j % 256 = i % 256
        · rw [if_pos ((tagEquals_index i j).mpr ⟨htag.symm, hi⟩)]
          refine iff_of_false (fun h => ?_) fun h => h arm' (by simp) j w hw hname htag
          have hname' := List.find?_some harm
          rw [decide_eq_true_eq] at hname'
          rw [Option.some.injEq, Prod.mk.injEq] at h
          exact hsame (h.1 ▸ hname')
        · rw [if_neg fun h => htag ((tagEquals_index i j).mp h).1.symm, hrest]
          constructor
          · intro h arm'' harm'' j' w' hw' hname''
            rcases List.mem_cons.mp harm'' with rfl | harm''
            · obtain ⟨rfl, -⟩ := index_unique hg hw hw' (hname.trans hname''.symm)
              exact htag
            · exact h arm'' harm'' j' w' hw' hname''
          · exact fun h arm'' harm'' => h arm'' (List.mem_cons_of_mem _ harm'')

end matching

/-- A match on the index of a stored node selects the arm of its variant and binds its payload
exactly when the tag is below 128 and no arm before has it. -/
lemma dispatch_stored (hg : Accepted g) {s : State} {nodes : List Node} (hs : Stored g s nodes)
    {k i : Nat} {n : Node} {v : Variant} (hk : nodes[k]? = some n) (hn : Built g n i v)
    {arms : List MatchArm} (harms : Compiles g arms) {arm : MatchArm}
    (harm : arms.find? (·.variantName = n.name) = some arm) :
    dispatch g s k arms = some (arm, (arm.binders.zip n.payload).filterMap fun e =>
      e.1.map fun x => (x, e.2)) ↔ i % 256 < 128 ∧ Unshadowed g n i arms := by
  obtain ⟨j, w, hbuilt, hmem, hread⟩ := hs.entry k n hk
  obtain ⟨rfl, rfl⟩ := index_unique hg hn.index hbuilt.index (by rw [hn.name, hbuilt.name])
  by_cases hi : i % 256 < 128
  · rw [dispatch_iff hg hn hmem hread hi harms harm]
    exact ⟨fun h => ⟨hi, h⟩, fun h => h.2⟩
  · rw [dispatch_none hg hmem hi harms]
    exact iff_of_false (fun h => by cases h) fun h => hi h.1

/-! ## Sequences of constructions -/

/-- Constructions as long as there is room. -/
lemma constructAll_stored (hg : Accepted g) (ns : List Node) {s : State} {nodes : List Node}
    (hs : Stored g s nodes) (hns : ∀ n ∈ ns, ∃ i v, Built g n i v)
    (hroom : nodes.length + ns.length ≤ g.maxNodes) :
    ∃ s', constructAll g ns s = .ok s' ∧ Stored g s' (nodes ++ ns) := by
  induction ns generalizing s nodes with
  | nil => exact ⟨s, rfl, by rwa [List.append_nil]⟩
  | cons n ns ih =>
      obtain ⟨i, v, hn⟩ := hns n (by simp)
      rw [List.length_cons] at hroom
      rcases construct_stored hg hs hn with ⟨hfull, -⟩ | ⟨s₁, hconstruct, hs₁, -⟩
      · omega
      · obtain ⟨s', hrun, hs'⟩ := ih hs₁ (fun n' h => hns n' (List.mem_cons_of_mem _ h))
          (by rw [List.length_append, List.length_singleton]; omega)
        refine ⟨s', ?_, by rwa [List.append_assoc] at hs'⟩
        rw [constructAll, hconstruct]
        exact hrun

lemma constructAll_append (ns ns' : List Node) (s : State) :
    constructAll g (ns ++ ns') s = (constructAll g ns s).bind (constructAll g ns') := by
  induction ns generalizing s with
  | nil => rfl
  | cons n ns ih =>
      rw [List.cons_append, constructAll, constructAll]
      rcases construct g n.name n.payload s with e | ⟨idx, s'⟩
      · rfl
      · exact ih s'

end group

/-! ## Slots -/

lemma binderSlots_spec (cursor : Int) (bs : List (Option String)) (fs : List Field) :
    (binderSlots cursor bs fs).Nodup ∧ ∀ x ∈ binderSlots cursor bs fs, x ≤ cursor ∧
      cursor + 8 - (arenaVariantPayloadBytes (fs.take bs.length) : Int) ≤ x := by
  induction bs generalizing cursor fs with
  | nil => exact ⟨by simp [binderSlots], fun x hx => by simp [binderSlots] at hx⟩
  | cons b bs ih =>
      cases fs with
      | nil => exact ⟨by simp [binderSlots], fun x hx => by simp [binderSlots] at hx⟩
      | cons f fs =>
          obtain ⟨hnodup, hrange⟩ := ih (cursor - arenaFieldByteWidth f.ty) fs
          rw [List.length_cons, List.take_succ_cons, payload_cons]
          have hslots : ∀ x, x ∈ (if b.isSome then
              if f.ty = .text then [cursor, cursor - 8] else [cursor] else []) →
              x ≤ cursor ∧ cursor - arenaFieldByteWidth f.ty + 8 ≤ x := by
            intro x hx
            by_cases hty : f.ty = .text
            · have hw : arenaFieldByteWidth f.ty = 16 := by rw [hty]; rfl
              rw [if_pos hty] at hx
              split_ifs at hx
              · rcases List.mem_pair.mp hx with rfl | rfl <;> omega
              · cases hx
            · have hw := width_pos f.ty
              rw [if_neg hty] at hx
              split_ifs at hx
              · cases List.mem_singleton.mp hx
                omega
              · cases hx
          have hfirst : (if b.isSome then
              if f.ty = .text then [cursor, cursor - 8] else [cursor] else []).Nodup := by
            split_ifs
            · exact List.nodup_cons.mpr ⟨by simp; omega, List.nodup_singleton _⟩
            · exact List.nodup_singleton _
            · exact List.nodup_nil
          rw [binderSlots]
          refine ⟨List.nodup_append.mpr ⟨hfirst, hnodup, fun x hx y hy => ?_⟩, fun x hx => ?_⟩
          · have h₁ := hslots x hx
            have h₂ := hrange y hy
            have hw := width_pos f.ty
            omega
          · have hw := width_pos f.ty
            rcases List.mem_append.mp hx with hx | hx
            · have h₁ := hslots x hx
              push_cast
              omega
            · have h₂ := hrange x hx
              push_cast
              omega

lemma base_lt (live : List Int) (floor : Int) :
    (∀ y ∈ live, binderBase live floor + 8 ≤ y) ∧ binderBase live floor + 8 ≤ floor := by
  induction live with
  | nil => exact ⟨fun y hy => (by cases hy), by simp only [binderBase, List.foldr_nil]; omega⟩
  | cons z live ih =>
      simp only [binderBase, List.foldr_cons] at ih ⊢
      refine ⟨fun y hy => ?_, by omega⟩
      rcases List.mem_cons.mp hy with rfl | hy
      · omega
      · have := ih.1 y hy
        omega

/-- The base stays above what bounds the slots that are added and the base before. -/
lemma le_base_append {live slots : List Int} {floor c : Int}
    (hbase : c ≤ binderBase live floor + 8) (hslots : ∀ y ∈ slots, c ≤ y) :
    c ≤ binderBase (live ++ slots) floor + 8 := by
  induction live with
  | nil =>
      rw [List.nil_append]
      induction slots with
      | nil => exact hbase
      | cons y slots ih =>
          have hrec := ih fun y' hy' => hslots y' (List.mem_cons_of_mem _ hy')
          have hy := hslots y (by simp)
          simp only [binderBase, List.foldr_cons] at hrec ⊢
          omega
  | cons z live ih =>
      simp only [binderBase, List.cons_append, List.foldr_cons] at ih hbase ⊢
      have := ih (by omega)
      omega

/-- The slots of nested arms are distinct, lie below everything that is live and below the floor,
and take no more bytes than their fields. -/
lemma armSlots_spec (floor : Int) (arms : List (List (Option String) × List Field))
    (live : List Int) :
    (armSlots floor live arms).Nodup ∧ ∀ x ∈ armSlots floor live arms,
      (∀ y ∈ live, x < y) ∧ x < floor ∧ binderBase live floor + 8 - (armBytes arms : Int) ≤ x := by
  induction arms generalizing live with
  | nil => exact ⟨List.nodup_nil, fun x hx => by cases hx⟩
  | cons arm arms ih =>
      obtain ⟨bs, fs⟩ := arm
      obtain ⟨hnodup, hrange⟩ := binderSlots_spec (binderBase live floor) bs fs
      obtain ⟨hnodup', hrange'⟩ := ih (live ++ binderSlots (binderBase live floor) bs fs)
      obtain ⟨hlive, hfloor⟩ := base_lt live floor
      have hbytes : armBytes ((bs, fs) :: arms) =
          arenaVariantPayloadBytes (fs.take bs.length) + armBytes arms := by
        simp [armBytes]
      have hbase := @le_base_append live (binderSlots (binderBase live floor) bs fs) floor
        (binderBase live floor + 8 - (arenaVariantPayloadBytes (fs.take bs.length) : Int))
        (by omega) (fun y hy => (hrange y hy).2)
      rw [armSlots]
      refine ⟨List.nodup_append.mpr ⟨hnodup, hnodup', fun x hx y hy => ?_⟩, fun x hx => ?_⟩
      · have := (hrange' y hy).1 x (List.mem_append_right _ hx)
        omega
      · rw [hbytes]
        rcases List.mem_append.mp hx with hx | hx
        · have hx := hrange x hx
          refine ⟨fun y hy => ?_, by omega, by push_cast; omega⟩
          have := hlive y hy
          omega
        · obtain ⟨hx₁, hx₂, hx₃⟩ := hrange' x hx
          exact ⟨fun y hy => hx₁ y (List.mem_append_left _ hy), hx₂, by push_cast; omega⟩

/-- An arm without wildcards. -/
def Bound (arm : List (Option String) × List Field) : Prop :=
  arm.1.length = arm.2.length ∧ ∀ b ∈ arm.1, b.isSome

/-- Without wildcards the lowest slot is taken. -/
lemma binderSlots_lowest (cursor : Int) {bs : List (Option String)} {fs : List Field}
    (h : Bound (bs, fs)) (hpos : 0 < arenaVariantPayloadBytes fs) :
    cursor + 8 - (arenaVariantPayloadBytes fs : Int) ∈ binderSlots cursor bs fs := by
  induction bs generalizing cursor fs with
  | nil =>
      have hfs : fs = [] := List.eq_nil_of_length_eq_zero h.1.symm
      subst hfs
      exact absurd hpos (by decide)
  | cons b bs ih =>
      rcases fs with _ | ⟨f, fs⟩
      · exact absurd h.1 (Nat.succ_ne_zero _)
      · have hb : b.isSome = true := h.2 b (by simp)
        have hrest : Bound (bs, fs) :=
          ⟨Nat.succ.inj h.1, fun b' hb' => h.2 b' (List.mem_cons_of_mem _ hb')⟩
        rw [binderSlots, if_pos hb, payload_cons]
        by_cases hzero : arenaVariantPayloadBytes fs = 0
        · refine List.mem_append_left _ ?_
          by_cases hty : f.ty = .text
          · have hw : arenaFieldByteWidth f.ty = 16 := by rw [hty]; rfl
            rw [if_pos hty, List.mem_pair]
            right
            omega
          · have hw : arenaFieldByteWidth f.ty = 8 := by
              unfold arenaFieldByteWidth
              split
              · exact absurd ‹_› hty
              · rfl
            rw [if_neg hty, List.mem_singleton]
            omega
        · refine List.mem_append_right _ ?_
          have hlow := ih (cursor - arenaFieldByteWidth f.ty) hrest (Nat.pos_of_ne_zero hzero)
          convert hlow using 1
          push_cast
          omega

/-- Without wildcards the base moves down by the bytes of the fields. -/
lemma base_append (live : List Int) (floor : Int) {bs : List (Option String)} {fs : List Field}
    (h : Bound (bs, fs)) : binderBase (live ++ binderSlots (binderBase live floor) bs fs) floor =
      binderBase live floor - (arenaVariantPayloadBytes fs : Int) := by
  obtain ⟨-, hrange⟩ := binderSlots_spec (binderBase live floor) bs fs
  have htake : fs.take bs.length = fs := List.take_of_length_le (Nat.le_of_eq h.1.symm)
  rw [htake] at hrange
  have hle := @le_base_append live (binderSlots (binderBase live floor) bs fs) floor
    (binderBase live floor + 8 - (arenaVariantPayloadBytes fs : Int)) (by omega)
    (fun y hy => (hrange y hy).2)
  by_cases hpos : 0 < arenaVariantPayloadBytes fs
  · obtain ⟨hlive, -⟩ := base_lt (live ++ binderSlots (binderBase live floor) bs fs) floor
    have hlow := hlive _ (List.mem_append_right _ (binderSlots_lowest _ h hpos))
    omega
  · rcases fs with _ | ⟨f, fs⟩
    · have hslots : binderSlots (binderBase live floor) bs [] = [] := by
        cases bs <;> rfl
      rw [hslots, List.append_nil]
      exact (Int.sub_zero _).symm
    · rw [payload_cons] at hpos
      have := width_pos f.ty
      omega

/-- Without wildcards the slots of nested arms take all the bytes of their fields. -/
lemma armSlots_lowest (floor : Int) {arms : List (List (Option String) × List Field)}
    (h : ∀ arm ∈ arms, Bound arm) (live : List Int) (hpos : 0 < armBytes arms) :
    binderBase live floor + 8 - (armBytes arms : Int) ∈ armSlots floor live arms := by
  induction arms generalizing live with
  | nil => exact absurd hpos (by decide)
  | cons arm arms ih =>
      obtain ⟨bs, fs⟩ := arm
      have hbound : Bound (bs, fs) := h _ (by simp)
      have hbytes : armBytes ((bs, fs) :: arms) =
          arenaVariantPayloadBytes fs + armBytes arms := by
        have htake : fs.take bs.length = fs := List.take_of_length_le (Nat.le_of_eq hbound.1.symm)
        simp [armBytes, htake]
      rw [armSlots, hbytes]
      rw [hbytes] at hpos
      by_cases hzero : armBytes arms = 0
      · refine List.mem_append_left _ ?_
        rw [hzero, Nat.add_zero]
        exact binderSlots_lowest _ hbound (by omega)
      · refine List.mem_append_right _ ?_
        have hlow := ih (fun arm' h' => h arm' (List.mem_cons_of_mem _ h'))
          (live ++ binderSlots (binderBase live floor) bs fs) (Nat.pos_of_ne_zero hzero)
        rw [base_append live floor hbound] at hlow
        convert hlow using 1
        push_cast
        omega

/-! ## Inverse -/

lemma small_bmod {n : Nat} (h : n ≤ 2147483647) : Int.bmod (n : Int) (2 ^ 32) = n := by
  have h32 : (2 : Nat) ^ 32 = 4294967296 := by decide
  rw [h32]
  exact Int.bmod_eq_of_le (by omega) (by omega)

lemma arenaSize_eq {g : ConceptGroup} (hg : Accepted g) :
    arenaSize g = (g.maxNodes * computeArenaEntrySize g : Nat) := by
  have h31 : (2 : Nat) ^ 31 - 1 = 2147483647 := by decide
  have hsize := hg.size
  rw [h31] at hsize
  unfold arenaSize
  exact small_bmod hsize

lemma stored_nil (g : ConceptGroup) (m : Memory) : Stored g ⟨m, 0⟩ [] :=
  ⟨rfl, Nat.zero_le _, fun k n h => by cases h⟩

/-- The `i`-th variant of `wide`. -/
def wideVariant (i : Nat) : Variant where
  name := String.ofList (List.replicate i 'V')
  fields := [{ name := "value", ty := .number }]

/-- A group of one concept with so many variants, each with a number. -/
def wide (count : Nat) : ConceptGroup where
  name := "tokens"
  maxDepth := 1
  maxNodes := 2
  concepts := [{ name := "Token", fields := [], variants := (List.range count).map wideVariant }]

/-- The arm of the `i`-th variant. -/
def wideArm (i : Nat) : MatchArm := .mk (wideVariant i).name [some "value"] (.ident "value")

/-- The arms of a match on a node of `wide`. -/
def wideArms (count : Nat) : List MatchArm := (List.range count).map wideArm

section wide

variable (count : Nat)

lemma groupVariants_wide :
    groupVariants (wide count) = (List.range count).map wideVariant :=
  List.append_nil _

lemma nodup_wide : ((List.range count).map fun i => (wideVariant i).name).Nodup := by
  refine List.nodup_range.map fun i j h => ?_
  have hlists := String.ofList_injective h
  simpa using congrArg List.length hlists

lemma accepted_wide : Accepted (wide count) where
  room := Nat.zero_lt_two
  size := by
    have hmax : ∀ vs : List Nat, ((vs.map wideVariant).map fun v =>
        arenaVariantPayloadBytes v.fields).foldr max 0 ≤ 8 := by
      intro vs
      induction vs with
      | nil => decide
      | cons i vs ih => exact Nat.max_le.mpr ⟨Nat.le_refl _, ih⟩
    have hle := hmax (List.range count)
    have hnodes : (wide count).maxNodes = 2 := rfl
    rw [computeArenaEntrySize, groupVariants_wide, hnodes]
    omega
  names := by
    rw [groupVariants_wide, List.map_map]
    exact nodup_wide count

variable {count} {i : Nat} (h : i < count)

include h

lemma index_wide : (groupVariants (wide count))[i]? = some (wideVariant i) := by
  rw [groupVariants_wide, List.getElem?_map, List.getElem?_range h]
  rfl

lemma built_wide (w : Word) :
    Built (wide count) ⟨(wideVariant i).name, [.word w]⟩ i (wideVariant i) where
  index := index_wide h
  name := rfl
  fits := .cons (fun h => by cases h) .nil

lemma single_wide (w : Word) :
    ∀ n ∈ [(⟨(wideVariant i).name, [.word w]⟩ : Node)], ∃ j v, Built (wide count) n j v := by
  intro n hn
  rw [List.mem_singleton.mp hn]
  exact ⟨i, wideVariant i, built_wide h w⟩

lemma find_wide :
    (wideArms count).find? (·.variantName = (wideVariant i).name) = some (wideArm i) := by
  refine find?_of_nodup (l := wideArms count) MatchArm.variantName ?_
    (List.mem_map.mpr ⟨i, List.mem_range.mpr h, rfl⟩)
  rw [wideArms, List.map_map]
  exact nodup_wide count

omit h

lemma compiles_wide (count : Nat) : Compiles (wide count) (wideArms count) := by
  intro arm harm
  obtain ⟨j, hj, rfl⟩ := List.mem_map.mp harm
  exact ⟨j, wideVariant j, index_wide (List.mem_range.mp hj), rfl, rfl⟩

end wide

end Verbosec.Native.Arena
