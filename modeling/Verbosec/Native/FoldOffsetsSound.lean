import Verbosec.Native.FoldOffsets
import Verbosec.Native.OffsetsSound

/-!
# Names and slots of a fold

* `FoldLoop.slots_nodup` - the cells of a fold are in different words.
* `let_names_resolve` - the loads of a `let` before the fold.
* `body_names_resolve` - the loads of the body.
* `names_resolve` - the loads of record loops and of folds.

In the body a scalar has no slot in the table, so a load of it finds something else or is refused;
and an element's field that is called like the accumulator takes the accumulator's word.
-/

namespace Verbosec.Native.Offsets

open Verbosec.Lib Verbosec.Interpreter

namespace FoldLoop

open Loop (cellOffsets)

variable {l : FoldLoop}

/-! ## The words of the frame -/

/-- The words of consecutive fields. -/
lemma cellsFrom_slot {j : Nat} {fields : List (String × Int64 × Value)} {c : String × Cell}
    (hc : c ∈ cellsFrom j fields) :
    ∃ i, j ≤ i ∧ i < j + fields.length ∧ c.2.slot = slotAt i := by
  have hmem := List.mem_map_of_mem (f := fun c : String × Cell => c.2.slot) hc
  rw [cellsFrom_slots, List.mem_reverse, List.mem_map] at hmem
  obtain ⟨i, hi, heq⟩ := hmem
  obtain ⟨hle, hlt⟩ := List.mem_range'_1.mp hi
  exact ⟨i, hle, hlt, heq.symm⟩

lemma cellsFrom_nodup (j : Nat) (fields : List (String × Int64 × Value)) :
    ((cellsFrom j fields).map fun c => c.2.slot).Nodup := by
  rw [cellsFrom_slots, (List.reverse_perm _).nodup_iff, List.Nodup, List.pairwise_map]
  have hdistinct := List.nodup_range' (s := j) (n := fields.length) 1
  exact hdistinct.imp fun hne heq => hne (slotAt_injective heq)

lemma scalar_slot {c : String × Cell} (hc : c ∈ l.scalarCells) :
    ∃ i < l.scalars.length, c.2.slot = slotAt i := by
  obtain ⟨i, -, hlt, heq⟩ := cellsFrom_slot hc
  exact ⟨i, by omega, heq⟩

lemma element_slot {c : String × Cell} (hc : c ∈ l.elementCells) :
    ∃ i, l.scalars.length ≤ i ∧ i < l.scalars.length + l.element.length ∧ c.2.slot = slotAt i :=
  cellsFrom_slot hc

lemma let_slot {k : Nat} {c : String × Cell} (hc : c ∈ l.letCells k) :
    ∃ i, l.scalars.length + l.element.length ≤ i ∧ i < l.accWord ∧ c.2.slot = slotAt i := by
  obtain ⟨i, hle, hlt, heq⟩ := cellsFrom_slot hc
  have htake := List.length_take_le' k l.lets
  exact ⟨i, hle, by unfold accWord; omega, heq⟩

lemma now_slot {c : String × Cell} (hc : c ∈ l.nowCells) :
    c.1 = "now" ∧ l.now ≠ none ∧ ∃ i > l.accWord, c.2.slot = slotAt i := by
  unfold nowCells at hc
  split at hc
  · rename_i n hn
    rw [List.mem_singleton] at hc
    subst hc
    exact ⟨rfl, by simp [hn], _, by omega, rfl⟩
  · cases hc

/-- The clock has the name `now`. -/
lemma now_names {f : String} :
    f ∉ l.nowCells.map Prod.fst ↔ (f = "now" → l.now = none) := by
  unfold nowCells
  split
  · rename_i n hn
    simp [hn]
  · rename_i hn
    simp [hn]

lemma nowCells_nodup (l : FoldLoop) : (l.nowCells.map fun c => c.2.slot).Nodup := by
  unfold nowCells
  split <;> simp

/-- The cells of the `let`s, the scalars and the clock are in different words. -/
lemma let_slots_nodup (l : FoldLoop) (k : Nat) :
    ((l.letCells k ++ (l.scalarCells ++ l.nowCells)).map fun c => c.2.slot).Nodup := by
  simp only [List.map_append, List.nodup_append]
  refine ⟨cellsFrom_nodup _ _, ⟨cellsFrom_nodup _ _, nowCells_nodup l, ?_⟩, ?_⟩
  · intro s hs t ht heq
    obtain ⟨c, hc, rfl⟩ := List.mem_map.mp hs
    obtain ⟨d, hd, rfl⟩ := List.mem_map.mp ht
    obtain ⟨i, hi, hci⟩ := scalar_slot hc
    obtain ⟨-, -, j, hj, hdj⟩ := now_slot hd
    have hij := slotAt_injective (hci.symm.trans (heq.trans hdj))
    unfold accWord at hj
    omega
  · intro s hs t ht heq
    obtain ⟨c, hc, rfl⟩ := List.mem_map.mp hs
    obtain ⟨i, hi, hlt, hci⟩ := let_slot hc
    rcases List.mem_append.mp ht with hscalar | hnow
    · obtain ⟨d, hd, rfl⟩ := List.mem_map.mp hscalar
      obtain ⟨j, hj, hdj⟩ := scalar_slot hd
      have hij := slotAt_injective (hci.symm.trans (heq.trans hdj))
      omega
    · obtain ⟨d, hd, rfl⟩ := List.mem_map.mp hnow
      obtain ⟨-, -, j, hj, hdj⟩ := now_slot hd
      have hij := slotAt_injective (hci.symm.trans (heq.trans hdj))
      omega

/-- The words of the `let`s, the scalars and the clock are neither an element's nor the
accumulator's. -/
lemma let_slot_other {k : Nat} {c : String × Cell}
    (hc : c ∈ l.letCells k ++ (l.scalarCells ++ l.nowCells)) :
    c.2.slot ≠ l.accCell.slot ∧ ∀ d ∈ l.elementCells, d.2.slot ≠ c.2.slot := by
  have hword : ∃ i, c.2.slot = slotAt i ∧ i ≠ l.accWord ∧
      (i < l.scalars.length ∨ l.scalars.length + l.element.length ≤ i) := by
    rcases List.mem_append.mp hc with hlet | hrest
    · obtain ⟨i, hle, hlt, heq⟩ := let_slot hlet
      exact ⟨i, heq, by omega, Or.inr hle⟩
    · rcases List.mem_append.mp hrest with hscalar | hnow
      · obtain ⟨i, hlt, heq⟩ := scalar_slot hscalar
        exact ⟨i, heq, by unfold accWord; omega, Or.inl hlt⟩
      · obtain ⟨-, -, i, hlt, heq⟩ := now_slot hnow
        exact ⟨i, heq, by omega, Or.inr (by unfold accWord at hlt; omega)⟩
  obtain ⟨i, heq, hacc, hrange⟩ := hword
  refine ⟨fun h => hacc (slotAt_injective (heq.symm.trans h)), fun d hd h => ?_⟩
  obtain ⟨j, hle, hlt, hdj⟩ := element_slot hd
  have hij := slotAt_injective (hdj.symm.trans (h.trans heq))
  omega

/-- The word of an element's field is not the accumulator's. -/
lemma element_slot_ne_acc {d : String × Cell} (hd : d ∈ l.elementCells) :
    d.2.slot ≠ l.accCell.slot := by
  obtain ⟨j, hle, hlt, hdj⟩ := element_slot hd
  intro h
  have hij : j = l.accWord := slotAt_injective (hdj.symm.trans h)
  unfold accWord at hij
  omega

/-- **Different cells are in different words.** -/
theorem slots_nodup (l : FoldLoop) : (l.cells.map fun c => c.2.slot).Nodup := by
  rw [cells, List.map_append, List.map_cons, List.nodup_append, List.nodup_cons]
  refine ⟨cellsFrom_nodup _ _, ⟨?_, let_slots_nodup l _⟩, ?_⟩
  · intro hmem
    obtain ⟨c, hc, heq⟩ := List.mem_map.mp hmem
    exact (let_slot_other hc).1 heq
  · intro s hs t ht heq
    obtain ⟨d, hd, rfl⟩ := List.mem_map.mp hs
    rcases List.mem_cons.mp ht with rfl | hrest
    · exact element_slot_ne_acc hd heq
    · obtain ⟨c, hc, rfl⟩ := List.mem_map.mp hrest
      exact (let_slot_other hc).2 d hd heq

/-! ## What the words hold -/

lemma own_slot {cells : List (String × Cell)} {s : Int} {c : Cell} (h : (s, c) ∈ own cells) :
    s = c.slot ∧ ∃ d ∈ cells, d.2 = c := by
  obtain ⟨d, hd, heq⟩ := List.mem_map.mp h
  cases heq
  exact ⟨rfl, d, hd, rfl⟩

/-- Cells in their own, different words are found there. -/
lemma lookup_own {cells : List (String × Cell)} (h : (cells.map fun c => c.2.slot).Nodup)
    {c : String × Cell} (hc : c ∈ cells) : (own cells).lookup c.2.slot = some c.2 := by
  induction cells with
  | nil => cases hc
  | cons d cells ih =>
      rw [List.map_cons, List.nodup_cons] at h
      rw [own, List.map_cons, List.lookup_cons]
      rcases List.mem_cons.mp hc with rfl | hrest
      · rw [beq_self_eq_true]
      · have hne : c.2.slot ≠ d.2.slot := by
          intro heq
          exact h.1 (List.mem_map.mpr ⟨c, hrest, heq⟩)
        rw [beq_false_of_ne hne]
        exact ih h.2 hrest

lemma letWritten_eq (l : FoldLoop) (k : Nat) :
    l.letWritten k = own (l.letCells k ++ (l.scalarCells ++ l.nowCells)) := by
  simp only [letWritten, own, List.map_append]

/-- Before the fold every word holds the cell it belongs to. -/
lemma letWritten_iff {k : Nat} {c : String × Cell}
    (hc : c ∈ l.letCells k ++ (l.scalarCells ++ l.nowCells)) (s : Int) :
    (l.letWritten k).lookup s = some c.2 ↔ s = c.2.slot := by
  rw [letWritten_eq]
  constructor
  · exact fun h => (own_slot (Dict.mem_of_lookup h)).1
  · rintro rfl
    exact lookup_own (let_slots_nodup l k) hc

/-! ## The loads of a `let` -/

lemma wordBounds_lookup (cells : List (String × Cell)) (x : String) :
    (wordBounds cells).lookup x = (cells.lookup x).map Bound.word := lookup_map_snd _ _ _

/-- What a name is bound to under the `let`s. -/
lemma let_env_cases {k : Nat} {x : String} {b : Bound}
    (h : (wordBounds (l.letCells k) ++ [(l.inputName, Bound.record l.scalarCells)]).lookup x =
      some b) :
    (∃ c, (l.letCells k).lookup x = some c ∧ b = .word c) ∨ b = .record l.scalarCells := by
  rw [List.lookup_append, wordBounds_lookup] at h
  cases hlet : (l.letCells k).lookup x with
  | some c =>
      rw [hlet] at h
      cases h
      exact Or.inl ⟨c, rfl, rfl⟩
  | none =>
      rw [hlet] at h
      have hmem := Dict.mem_of_lookup
        (show [(l.inputName, Bound.record l.scalarCells)].lookup x = some b from h)
      rw [List.mem_singleton] at hmem
      cases hmem
      exact Or.inr rfl

/-- The table of a `let` names different slots. -/
lemma letOffsets_nodup (l : FoldLoop) (k : Nat) : ((l.letOffsets k).map Prod.snd).Nodup := by
  have hcells := let_slots_nodup l k
  refine (List.Perm.nodup_iff ?_).mp hcells
  simp only [letOffsets, Loop.cellOffsets, List.map_append, List.map_map]
  exact List.Perm.append_left _ List.perm_append_comm

/-- A scalar, under the `let`s and the clock. -/
lemma scalar_load {k : Nat} {f key : String} {cell : Cell}
    (h : l.scalarCells.lookup f = some cell) :
    (l.letOffsets k).lookup key = some cell.slot ↔
      key = f ∧ f ∉ (l.letCells k).map Prod.fst ∧ (f = "now" → l.now = none) := by
  obtain ⟨pre, post, heq, hnew⟩ := lookup_split h
  have htable : l.letOffsets k =
      (cellOffsets (l.letCells k) ++ (cellOffsets l.nowCells ++ cellOffsets pre)) ++
        (f, cell.slot) :: cellOffsets post := by
    simp only [letOffsets, heq, cellOffsets, List.map_append, List.map_cons, List.append_assoc]
  have hnodup := letOffsets_nodup l k
  rw [htable] at hnodup ⊢
  rw [lookup_eq_iff hnodup]
  simp only [List.map_append, List.mem_append, cellOffsets_names, not_or, hnew, not_false_eq_true,
    and_true, now_names]

/-- A `let`, which is the newest of its name. -/
lemma let_load {k : Nat} {x key : String} {cell : Cell}
    (h : (l.letCells k).lookup x = some cell) :
    (l.letOffsets k).lookup key = some cell.slot ↔ key = x := by
  obtain ⟨pre, post, heq, hnew⟩ := lookup_split h
  have htable : l.letOffsets k = cellOffsets pre ++ (x, cell.slot) ::
      (cellOffsets post ++ (cellOffsets l.nowCells ++ cellOffsets l.scalarCells)) := by
    simp only [letOffsets, heq, cellOffsets, List.map_append, List.map_cons, List.append_assoc,
      List.cons_append]
  have hnodup := letOffsets_nodup l k
  rw [htable] at hnodup ⊢
  rw [lookup_eq_iff hnodup, cellOffsets_names]
  exact ⟨fun hkey => hkey.1, fun hkey => ⟨hkey, hnew⟩⟩

/-- **The loads of a `let` before a fold.** -/
theorem let_names_resolve (l : FoldLoop) (k : Nat) :
    (l.letPoint k).Resolves (fun s => (l.letWritten k).lookup s) (l.LetClear k) := by
  intro a cell s hmeant hnative
  refine ⟨fun ctx call => evalExpr_meant ctx call hmeant, ?_⟩
  cases a with
  | field base f =>
      simp only [Point.meant, letPoint] at hmeant
      split at hmeant
      · rename_i cells hbase
        rcases let_env_cases hbase with ⟨c, -, hword⟩ | hrecord
        · cases hword
        · cases hrecord
          have hmem := List.mem_append_right (l.letCells k)
            (List.mem_append_left l.nowCells (Dict.mem_of_lookup hmeant))
          rw [letWritten_iff hmem, LetClear, ← scalar_load hmeant,
            show (l.letOffsets k).lookup (fieldKey (l.letOffsets k) base f) = some s from hnative,
            Option.some.injEq]
      · cases hmeant
  | ident x =>
      simp only [Point.meant, letPoint] at hmeant
      split at hmeant
      · rename_i c hx
        cases hmeant
        rcases let_env_cases hx with ⟨d, hd, hword⟩ | hrecord
        · cases hword
          have hmem := List.mem_append_left (l.scalarCells ++ l.nowCells) (Dict.mem_of_lookup hd)
          simp only [Point.native] at hnative
          split at hnative
          · cases hnative
          · rw [letWritten_iff hmem, LetClear, ← let_load hd,
              show (l.letOffsets k).lookup (identKey (l.letOffsets k) x) = some s from hnative,
              Option.some.injEq]
        · cases hrecord
      · cases hmeant

/-! ## The loads of the body -/

/-- The table of the body names different slots. -/
lemma bodyOffsets_nodup (l : FoldLoop) : (l.bodyOffsets.map Prod.snd).Nodup := by
  have hperm : ((l.cells.map fun c => (c.1, c.2.slot)).map Prod.snd).Perm
      ((cellOffsets l.nowCells ++ ((l.accName, l.accCell.slot) :: (cellOffsets l.elementCells ++
        (cellOffsets (l.letCells l.lets.length) ++ cellOffsets l.scalarCells)))).map Prod.snd) := by
    rw [List.perm_iff_count]
    intro s
    simp only [cells, cellOffsets, List.map_append, List.map_cons, List.count_append,
      List.count_cons]
    omega
  have hnodup := slots_nodup l
  have hcells : (l.cells.map fun c => c.2.slot) =
      (l.cells.map fun c => (c.1, c.2.slot)).map Prod.snd := by
    rw [List.map_map]
    rfl
  rw [hcells, hperm.nodup_iff] at hnodup
  refine hnodup.sublist (List.Sublist.map _ ?_)
  refine (List.Sublist.refl _).append (List.Sublist.cons_cons _ ((List.Sublist.refl _).append ?_))
  exact List.filter_sublist.trans (List.sublist_append_left _ _)

/-- In a table of different slots a slot has one name. -/
lemma lookup_injective {table : List (String × Int)} (h : (table.map Prod.snd).Nodup)
    {key key' : String} {s : Int} (hkey : table.lookup key = some s)
    (hkey' : table.lookup key' = some s) : key = key' := by
  obtain ⟨pre, post, heq, -⟩ := lookup_split hkey'
  rw [heq] at h hkey
  exact ((lookup_eq_iff h).mp hkey).1

/-- A field of the element is in the table. -/
lemma elementSlot_lookup {f : String} (hf : f ∈ l.elementCells.map Prod.fst) :
    l.bodyOffsets.lookup f = some (l.elementSlot f) := by
  have hne : l.bodyOffsets.lookup f ≠ none := by
    intro hnone
    obtain ⟨c, hc, hname⟩ := List.mem_map.mp hf
    have hmem : (f, c.2.slot) ∈ l.bodyOffsets :=
      List.mem_append_right _ (List.mem_cons_of_mem _ (List.mem_append_left _
        (List.mem_map.mpr ⟨c, hc, by rw [hname]⟩)))
    have := List.lookup_eq_none_iff.mp hnone _ hmem
    simp at this
  obtain ⟨s, hs⟩ := Option.ne_none_iff_exists'.mp hne
  rw [elementSlot, hs, Option.getD_some]

/-- The field of an element is in the word that its name has. -/
lemma element_written {f : String} {cell : Cell} (h : l.elementCells.lookup f = some cell) :
    l.bodyWritten.lookup (l.elementSlot f) = some cell := by
  obtain ⟨pre, post, heq, hnew⟩ := lookup_split h
  have hf : f ∈ l.elementCells.map Prod.fst :=
    List.mem_map.mpr ⟨_, Dict.mem_of_lookup h, rfl⟩
  refine List.lookup_eq_some_iff.mpr ⟨pre.map fun c => (l.elementSlot c.1, c.2),
    (post.map fun c => (l.elementSlot c.1, c.2)) ++
      ((l.accCell.slot, l.accCell) :: l.letWritten l.lets.length), ?_, ?_⟩
  · rw [bodyWritten, heq, List.map_append, List.map_cons, List.append_assoc, List.cons_append]
  · intro b hb
    obtain ⟨c, hc, rfl⟩ := List.mem_map.mp hb
    have hcname : c.1 ∈ l.elementCells.map Prod.fst := by
      rw [heq]
      exact List.mem_map.mpr ⟨c, List.mem_append_left _ hc, rfl⟩
    -- another field has another word
    have hne : l.elementSlot f ≠ l.elementSlot c.1 := by
      intro hslot
      have hname := lookup_injective (bodyOffsets_nodup l) (elementSlot_lookup hf)
        (hslot ▸ elementSlot_lookup hcname)
      exact hnew (List.mem_map.mpr ⟨c, hc, hname.symm⟩)
    simpa using hne

/-- What the words hold when the body is run: an element's field, the accumulator, or what was there
before. -/
lemma bodyWritten_cases {s : Int} {cell : Cell} (h : l.bodyWritten.lookup s = some cell) :
    (∃ c ∈ l.elementCells, c.2 = cell ∧ s = l.elementSlot c.1) ∨
      (s = l.accCell.slot ∧ cell = l.accCell) ∨
        (s = cell.slot ∧ ∃ c ∈ l.letCells l.lets.length ++ (l.scalarCells ++ l.nowCells),
          c.2 = cell) := by
  rcases List.mem_append.mp (Dict.mem_of_lookup h) with helement | hrest
  · obtain ⟨c, hc, heq⟩ := List.mem_map.mp helement
    cases heq
    exact Or.inl ⟨c, hc, rfl, rfl⟩
  · rcases List.mem_cons.mp hrest with hacc | hlet
    · cases hacc
      exact Or.inr (Or.inl ⟨rfl, rfl⟩)
    · rw [letWritten_eq] at hlet
      exact Or.inr (Or.inr (own_slot hlet))

/-- A field of the element is loaded exactly under its own key. -/
lemma element_load {f key : String} {cell : Cell} {s : Int}
    (h : l.elementCells.lookup f = some cell) (hs : l.bodyOffsets.lookup key = some s) :
    l.bodyWritten.lookup s = some cell ↔ key = f := by
  have hmem := Dict.mem_of_lookup h
  have hf := elementSlot_lookup (List.mem_map.mpr ⟨_, hmem, rfl⟩)
  constructor
  · intro hheld
    rcases bodyWritten_cases hheld with ⟨c, hc, hcell, rfl⟩ | ⟨-, hacc⟩ | ⟨-, c, hc, hcell⟩
    · have hsame : c = (f, cell) := by
        refine List.inj_on_of_nodup_map (cellsFrom_nodup l.scalars.length l.element) hc hmem ?_
        rw [hcell]
      rw [hsame] at hs
      exact lookup_injective (bodyOffsets_nodup l) hs hf
    · exact absurd (congrArg Cell.slot hacc) (element_slot_ne_acc hmem)
    · exact absurd (congrArg Cell.slot hcell.symm) ((let_slot_other hc).2 _ hmem)
  · rintro rfl
    rw [hf] at hs
    cases hs
    exact element_written h

/-- The accumulator, under the clock. -/
lemma acc_offset {key : String} :
    l.bodyOffsets.lookup key = some l.accCell.slot ↔
      key = l.accName ∧ (l.accName = "now" → l.now = none) := by
  have hnodup := bodyOffsets_nodup l
  unfold bodyOffsets at hnodup ⊢
  rw [lookup_eq_iff hnodup, cellOffsets_names, now_names]

/-- The accumulator is loaded under its name, where no field of the element is called like it. -/
lemma acc_load {key : String} {s : Int} (hs : l.bodyOffsets.lookup key = some s) :
    l.bodyWritten.lookup s = some l.accCell ↔
      key = l.accName ∧ (l.accName = "now" → l.now = none) ∧
        l.accName ∉ l.elementCells.map Prod.fst := by
  constructor
  · intro hheld
    rcases bodyWritten_cases hheld with ⟨c, hc, hcell, -⟩ | ⟨rfl, -⟩ | ⟨-, c, hc, hcell⟩
    · exact absurd (congrArg Cell.slot hcell) (element_slot_ne_acc hc)
    · obtain ⟨hkey, hnow⟩ := acc_offset.mp hs
      refine ⟨hkey, hnow, fun hmem => ?_⟩
      -- the newest field of that name has been stored there
      have hslot := elementSlot_lookup hmem
      rw [← hkey, hs] at hslot
      cases hlookup : l.elementCells.lookup l.accName with
      | none =>
          obtain ⟨c, hc, hname⟩ := List.mem_map.mp hmem
          have := List.lookup_eq_none_iff.mp hlookup _ hc
          simp [hname] at this
      | some cell =>
          have helement := element_written hlookup
          rw [← hkey, ← Option.some.inj hslot, hheld] at helement
          exact absurd (congrArg Cell.slot (Option.some.inj helement)).symm
            (element_slot_ne_acc (Dict.mem_of_lookup hlookup))
    · exact absurd (congrArg Cell.slot hcell) (let_slot_other hc).1
  · rintro ⟨hkey, hnow, hfree⟩
    rw [acc_offset.mpr ⟨hkey, hnow⟩] at hs
    cases hs
    refine List.lookup_eq_some_iff.mpr ⟨_, _, rfl, fun b hb => ?_⟩
    obtain ⟨c, hc, rfl⟩ := List.mem_map.mp hb
    have hcname : c.1 ∈ l.elementCells.map Prod.fst := List.mem_map.mpr ⟨c, hc, rfl⟩
    have hne : l.accCell.slot ≠ l.elementSlot c.1 := by
      intro hslot
      obtain ⟨hname, -⟩ := acc_offset.mp (hslot ▸ elementSlot_lookup hcname)
      exact hfree (hname ▸ hcname)
    simpa using hne

/-- What the table of the body names: the clock, the accumulator, the element, and `let`s that are
called like no scalar. -/
lemma bodyOffsets_cases {key : String} {s : Int} (hs : l.bodyOffsets.lookup key = some s) :
    (∃ c ∈ l.nowCells, s = c.2.slot) ∨ s = l.accCell.slot ∨ (∃ c ∈ l.elementCells, s = c.2.slot) ∨
      (key ∉ l.scalarCells.map Prod.fst ∧
        ∃ c ∈ l.letCells l.lets.length, c.1 = key ∧ s = c.2.slot) := by
  rcases List.mem_append.mp (Dict.mem_of_lookup hs) with hnow | hrest
  · obtain ⟨c, hc, heq⟩ := List.mem_map.mp hnow
    cases heq
    exact Or.inl ⟨c, hc, rfl⟩
  · rcases List.mem_cons.mp hrest with hacc | hrest
    · cases hacc
      exact Or.inr (Or.inl rfl)
    · rcases List.mem_append.mp hrest with helement | hlet
      · obtain ⟨c, hc, heq⟩ := List.mem_map.mp helement
        cases heq
        exact Or.inr (Or.inr (Or.inl ⟨c, hc, rfl⟩))
      · obtain ⟨hlet, hfree⟩ := List.mem_filter.mp hlet
        obtain ⟨c, hc, heq⟩ := List.mem_map.mp hlet
        cases heq
        exact Or.inr (Or.inr (Or.inr ⟨by simpa using hfree, c, hc, rfl, rfl⟩))

/-- A scalar is not loaded in the body. -/
lemma scalar_not_loaded {key : String} {c : String × Cell} {s : Int} (hc : c ∈ l.scalarCells)
    (hs : l.bodyOffsets.lookup key = some s) : l.bodyWritten.lookup s ≠ some c.2 := by
  intro hheld
  have hmem : c ∈ l.letCells l.lets.length ++ (l.scalarCells ++ l.nowCells) :=
    List.mem_append_right _ (List.mem_append_left _ hc)
  obtain ⟨hacc, helement⟩ := let_slot_other hmem
  rcases bodyWritten_cases hheld with ⟨d, hd, hcell, -⟩ | ⟨-, hcell⟩ | ⟨rfl, -⟩
  · exact helement d hd (congrArg Cell.slot hcell)
  · exact hacc (congrArg Cell.slot hcell)
  · obtain ⟨i, hi, hslot⟩ := scalar_slot hc
    rcases bodyOffsets_cases hs with ⟨d, hd, heq⟩ | heq | ⟨d, hd, heq⟩ | ⟨-, d, hd, -, heq⟩
    · obtain ⟨-, -, j, hj, hdj⟩ := now_slot hd
      have hij := slotAt_injective (hslot.symm.trans (heq.trans hdj))
      unfold accWord at hj
      omega
    · exact hacc heq
    · exact helement d hd heq.symm
    · obtain ⟨j, hj, -, hdj⟩ := let_slot hd
      have hij := slotAt_injective (hslot.symm.trans (heq.trans hdj))
      omega

/-- The word of a `let` is under its name in the table of the body. -/
lemma body_let_offset {x key : String} {cell : Cell}
    (h : (l.letCells l.lets.length).lookup x = some cell) :
    l.bodyOffsets.lookup key = some cell.slot ↔
      key = x ∧ (x = "now" → l.now = none) ∧ x ≠ l.accName ∧
        x ∉ l.elementCells.map Prod.fst ∧ x ∉ l.scalarCells.map Prod.fst := by
  by_cases hscalar : x ∈ l.scalarCells.map Prod.fst
  · refine iff_of_false (fun hs => ?_) fun hclear => hclear.2.2.2.2 hscalar
    have hcell := Dict.mem_of_lookup h
    have hmem : (x, cell) ∈ l.letCells l.lets.length ++ (l.scalarCells ++ l.nowCells) :=
      List.mem_append_left _ hcell
    obtain ⟨hacc, helement⟩ := let_slot_other hmem
    rcases bodyOffsets_cases hs with ⟨d, hd, heq⟩ | heq | ⟨d, hd, heq⟩ | ⟨hfree, d, hd, rfl, heq⟩
    · obtain ⟨-, -, j, hj, hdj⟩ := now_slot hd
      obtain ⟨i, -, hi, hslot⟩ := let_slot hcell
      have hij := slotAt_injective (hslot.symm.trans (heq.trans hdj))
      omega
    · exact hacc heq
    · exact helement d hd heq.symm
    · have hsame : (x, cell) = d :=
        List.inj_on_of_nodup_map (cellsFrom_nodup _ _) hcell hd heq
      exact hfree (hsame ▸ hscalar)
  · obtain ⟨pre, post, heq, hnew⟩ := lookup_split h
    have hfilter : (cellOffsets (l.letCells l.lets.length)).filter
        (fun b => b.1 ∉ l.scalarCells.map Prod.fst) =
          ((cellOffsets pre).filter fun b => b.1 ∉ l.scalarCells.map Prod.fst) ++
            (x, cell.slot) ::
              (cellOffsets post).filter fun b => b.1 ∉ l.scalarCells.map Prod.fst := by
      rw [heq, cellOffsets, List.map_append, List.filter_append, List.map_cons,
        List.filter_cons_of_pos (by simpa using hscalar)]
      rfl
    have htable : l.bodyOffsets = (cellOffsets l.nowCells ++ ((l.accName, l.accCell.slot) ::
        (cellOffsets l.elementCells ++ (cellOffsets pre).filter
          fun b => b.1 ∉ l.scalarCells.map Prod.fst))) ++ (x, cell.slot) ::
            (cellOffsets post).filter fun b => b.1 ∉ l.scalarCells.map Prod.fst := by
      rw [bodyOffsets, hfilter]
      simp only [List.append_assoc, List.cons_append]
    have hold : x ∉ ((cellOffsets pre).filter
        fun b => b.1 ∉ l.scalarCells.map Prod.fst).map Prod.fst := by
      intro hmem
      have hsub := (List.filter_sublist.map Prod.fst).subset hmem
      rw [cellOffsets_names] at hsub
      exact hnew hsub
    have hnodup := bodyOffsets_nodup l
    rw [htable] at hnodup ⊢
    rw [lookup_eq_iff hnodup]
    simp only [List.map_append, List.map_cons, List.mem_append, List.mem_cons, cellOffsets_names,
      not_or, now_names, hold, hscalar, not_false_eq_true, and_true, ne_eq]

/-- A `let` is loaded under its name, where nothing of the fold and no scalar is called like it. -/
lemma body_let_load {x key : String} {cell : Cell} {s : Int}
    (h : (l.letCells l.lets.length).lookup x = some cell)
    (hs : l.bodyOffsets.lookup key = some s) :
    l.bodyWritten.lookup s = some cell ↔
      key = x ∧ (x = "now" → l.now = none) ∧ x ≠ l.accName ∧
        x ∉ l.elementCells.map Prod.fst ∧ x ∉ l.scalarCells.map Prod.fst := by
  have hmem : (x, cell) ∈ l.letCells l.lets.length ++ (l.scalarCells ++ l.nowCells) :=
    List.mem_append_left _ (Dict.mem_of_lookup h)
  obtain ⟨hacc, helement⟩ := let_slot_other hmem
  constructor
  · intro hheld
    rcases bodyWritten_cases hheld with ⟨d, hd, hcell, -⟩ | ⟨-, hcell⟩ | ⟨rfl, -⟩
    · exact absurd (congrArg Cell.slot hcell) (helement d hd)
    · exact absurd (congrArg Cell.slot hcell) hacc
    · exact (body_let_offset h).mp hs
  · intro hclear
    rw [(body_let_offset h).mpr hclear] at hs
    cases hs
    rw [bodyWritten, List.lookup_append]
    have hnone : (l.elementCells.map fun c => (l.elementSlot c.1, c.2)).lookup cell.slot = none := by
      refine List.lookup_eq_none_iff.mpr fun b hb => ?_
      obtain ⟨c, hc, rfl⟩ := List.mem_map.mp hb
      have hcname : c.1 ∈ l.elementCells.map Prod.fst := List.mem_map.mpr ⟨c, hc, rfl⟩
      have hne : cell.slot ≠ l.elementSlot c.1 := by
        intro hslot
        obtain ⟨hname, -, -, hfree, -⟩ :=
          (body_let_offset h).mp (hslot ▸ elementSlot_lookup hcname)
        exact hfree (hname ▸ hcname)
      simpa using hne
    rw [hnone, Option.none_or, List.lookup_cons, beq_false_of_ne hacc]
    exact (letWritten_iff hmem _).mpr rfl

/-- **The loads of the body of a fold.** -/
theorem body_names_resolve (l : FoldLoop) :
    l.bodyPoint.Resolves (fun s => l.bodyWritten.lookup s) l.BodyClear := by
  intro a cell s hmeant hnative
  refine ⟨fun ctx call => evalExpr_meant ctx call hmeant, ?_⟩
  cases a with
  | field base f =>
      have hs : l.bodyOffsets.lookup (fieldKey l.bodyOffsets base f) = some s := hnative
      simp only [Point.meant, bodyPoint, List.lookup_cons] at hmeant
      by_cases hitem : base = l.itemName
      · rw [beq_iff_eq.mpr hitem] at hmeant
        rw [element_load hmeant hs, BodyClear]
        exact ⟨fun hkey => ⟨hkey, hitem⟩, fun hclear => hclear.1⟩
      · rw [beq_false_of_ne hitem] at hmeant
        by_cases hacc : base = l.accName
        · rw [beq_iff_eq.mpr hacc] at hmeant
          cases hmeant
        · rw [beq_false_of_ne hacc] at hmeant
          split at hmeant
          · rename_i cells hbase
            rcases let_env_cases hbase with ⟨c, -, hword⟩ | hrecord
            · cases hword
            · cases hrecord
              exact iff_of_false (scalar_not_loaded (Dict.mem_of_lookup hmeant) hs)
                fun hclear => hitem hclear.2
          · cases hmeant
  | ident x =>
      have hs : x ≠ l.itemName ∧ l.bodyOffsets.lookup (identKey l.bodyOffsets x) = some s := by
        simp only [Point.native] at hnative
        split at hnative
        · cases hnative
        · rename_i hne
          exact ⟨hne, hnative⟩
      obtain ⟨hitem, hs⟩ := hs
      simp only [Point.meant, bodyPoint, List.lookup_cons, beq_false_of_ne hitem] at hmeant
      by_cases hacc : x = l.accName
      · rw [beq_iff_eq.mpr hacc] at hmeant
        cases hmeant
        rw [acc_load hs, BodyClear, hacc]
        simp only [true_or, and_true]
      · rw [beq_false_of_ne hacc] at hmeant
        split at hmeant
        · rename_i c hx
          cases hmeant
          rcases let_env_cases hx with ⟨d, hd, hword⟩ | hrecord
          · cases hword
            rw [body_let_load hd hs, BodyClear]
            simp only [hacc, ne_eq, not_false_eq_true, true_and, false_or]
          · cases hrecord
        · cases hmeant

end FoldLoop

/-- A fold over the visits of a person. -/
def visits : FoldLoop where
  inputName := "p"
  scalars := [("age", 30, .number 30)]
  lets := []
  itemName := "v"
  element := [("minutes", 5, .number 5)]
  accName := "total"
  acc := (0, .number 0)
  now := none
  blocks := 0

end Verbosec.Native.Offsets
