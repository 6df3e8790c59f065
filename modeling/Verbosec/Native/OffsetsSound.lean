import Verbosec.Native.Offsets

/-!
# Names and slots agree where no name is taken twice

* `slots_nodup` - the cells of a record loop are in different words.
* `frame_stored` - each cell keeps its word until the code that loads it.
* `lookup_eq_iff` - in a table whose slots are different, a load finds a cell exactly when its key
  is the name of the cell and nothing newer has that name.
* `record_names_resolve` - the loads of a record loop.
* `names_collide` - a `let` named like a field that is read after it.

The table is keyed by the names of fields and `let`s alone, so a newer binding of the same name is
what every load finds, whatever base it names.
-/

namespace Verbosec.Native.Offsets

open Verbosec.Lib Verbosec.Interpreter

/-! ## The words of the frame -/

lemma slotAt_injective {i j : Nat} (h : slotAt i = slotAt j) : i = j := by
  unfold slotAt at h
  omega

/-- Fields take consecutive words, the last one first. -/
lemma cellsFrom_slots (j : Nat) (fields : List (String × Int64 × Value)) :
    (cellsFrom j fields).map (fun c => c.2.slot) =
      ((List.range' j fields.length).map slotAt).reverse := by
  induction fields generalizing j with
  | nil => rfl
  | cons f fields ih =>
      simp only [cellsFrom, List.map_append, ih, List.length_cons, List.range'_succ, List.map_cons,
        List.reverse_cons, List.map_nil]

/-- The words of some `let`s. -/
def wordsOf (lets : List (String × LetValue)) : Nat := (lets.map fun x => x.2.words).sum

/-- The `let`s take successive words; the order inside a text aside. -/
lemma letsFrom_slots (j : Nat) (lets : List (String × LetValue)) :
    (((letsFrom j lets).flatMap fun b => b.2.cells).map Cell.slot).Perm
      ((List.range' j (wordsOf lets)).map slotAt) := by
  induction lets generalizing j with
  | nil => exact List.Perm.refl _
  | cons x lets ih =>
      obtain ⟨name, v⟩ := x
      have hwords : wordsOf ((name, v) :: lets) = v.words + wordsOf lets := by
        simp [wordsOf]
      have hbind : ((v.bind j).cells.map Cell.slot) = (List.range' j v.words).map slotAt := by
        cases v <;> rfl
      rw [hwords, ← List.range'_append_1, List.map_append, letsFrom, List.flatMap_append,
        List.map_append]
      simp only [List.flatMap_cons, List.flatMap_nil, List.append_nil, hbind]
      exact List.perm_append_comm.trans ((ih (j + v.words)).append_left _)

variable {l : Loop}

/-- All the cells that are stored, in the words of the context, the input and the `let`s, and the
clock below them. -/
lemma stored_slots (l : Loop) (k : Nat) :
    ((l.stored k).map Cell.slot).Perm
      ((List.range' 0 (l.letBase + wordsOf (l.lets.take k))).map slotAt ++
        l.nowCells.map fun c => c.2.slot) := by
  have hcontext := cellsFrom_slots 0 l.contextFields
  have hinput := cellsFrom_slots l.contextFields.length l.input
  have hlets := letsFrom_slots l.letBase (l.lets.take k)
  have hcells : ∀ cells : List (String × Cell),
      (cells.map Prod.snd).map Cell.slot = cells.map fun c => c.2.slot := by
    intro cells
    rw [List.map_map]
    rfl
  rw [← List.range'_append_1, Loop.letBase, ← List.range'_append_1, List.map_append,
    List.map_append, Nat.zero_add]
  simp only [Loop.stored, List.map_append, List.map_reverse, hcells, Loop.contextCells,
    Loop.inputCells, hcontext, hinput, List.reverse_reverse]
  rw [List.append_assoc, List.append_assoc]
  refine List.Perm.append_left _ ?_
  refine List.perm_append_comm.trans ?_
  rw [List.append_assoc]
  refine List.Perm.append_left _ ?_
  refine List.Perm.append_right _ ?_
  rw [Nat.zero_add]
  exact (List.reverse_perm _).trans hlets

/-- Words below those of a prefix of the `let`s. -/
lemma wordsOf_take_le (lets : List (String × LetValue)) (k : Nat) :
    wordsOf (lets.take k) ≤ wordsOf lets := by
  have h : lets = lets.take k ++ lets.drop k := (List.take_append_drop k lets).symm
  conv_rhs => rw [h]
  simp only [wordsOf, List.map_append, List.sum_append]
  exact Nat.le_add_right _ _

/-- **Different cells are in different words.** -/
theorem slots_nodup (l : Loop) (k : Nat) : ((l.stored k).map Cell.slot).Nodup := by
  rw [(stored_slots l k).nodup_iff, List.nodup_append]
  refine ⟨?_, ?_, ?_⟩
  · rw [List.Nodup, List.pairwise_map]
    have hdistinct := List.nodup_range' (s := 0) (n := l.letBase + wordsOf (l.lets.take k)) 1
    exact hdistinct.imp fun hne heq => hne (slotAt_injective heq)
  · unfold Loop.nowCells
    split <;> simp
  · intro s hs t ht heq
    obtain ⟨j, hj, rfl⟩ := List.mem_map.mp hs
    obtain ⟨-, hlt⟩ := List.mem_range'_1.mp hj
    have hle := wordsOf_take_le l.lets k
    unfold Loop.nowCells at ht
    split at ht
    · simp only [List.map_cons, List.map_nil, List.mem_singleton] at ht
      have := slotAt_injective (heq.trans ht)
      have hwords : l.letWords = wordsOf l.lets := rfl
      omega
    · cases ht

/-- Stores to other words leave a word. -/
lemma foldl_store_of_not_mem (cells : List Cell) (frame : Int → Option Cell) {s : Int}
    (h : s ∉ cells.map Cell.slot) : cells.foldl Cell.store frame s = frame s := by
  induction cells generalizing frame with
  | nil => rfl
  | cons d cells ih =>
      rw [List.map_cons, List.mem_cons, not_or] at h
      rw [List.foldl_cons, ih _ h.2, Cell.store, Function.update_of_ne h.1]

/-- Stores to different words are all in the frame. -/
lemma foldl_store (cells : List Cell) (frame : Int → Option Cell)
    (h : (cells.map Cell.slot).Nodup) {c : Cell} (hc : c ∈ cells) :
    cells.foldl Cell.store frame c.slot = some c := by
  induction cells generalizing frame with
  | nil => cases hc
  | cons d cells ih =>
      rw [List.map_cons, List.nodup_cons] at h
      rw [List.foldl_cons]
      rcases List.mem_cons.mp hc with rfl | hrest
      · rw [foldl_store_of_not_mem cells _ h.1, Cell.store, Function.update_self]
      · exact ih _ h.2 hrest

/-- **A cell keeps its word** until the code that loads it. -/
theorem frame_stored {k : Nat} {c : Cell} (hc : c ∈ l.stored k) :
    l.frame k c.slot = some c := foldl_store _ _ (slots_nodup l k) hc

/-- What a word holds has been stored there. -/
lemma foldl_store_slot (cells : List Cell) (frame : Int → Option Cell) {s : Int} {c : Cell}
    (h : cells.foldl Cell.store frame s = some c) (hframe : frame s = some c → c.slot = s) :
    c.slot = s := by
  induction cells generalizing frame with
  | nil => exact hframe h
  | cons d cells ih =>
      refine ih (d.store frame) h fun hd => ?_
      by_cases hslot : s = d.slot
      · rw [hslot, Cell.store, Function.update_self] at hd
        cases hd
        exact hslot.symm
      · rw [Cell.store, Function.update_of_ne hslot] at hd
        exact hframe hd

/-- A word holds a cell that has been stored exactly when it is the word of the cell. -/
lemma frame_eq_iff {k : Nat} {c : Cell} (hc : c ∈ l.stored k) (s : Int) :
    l.frame k s = some c ↔ s = c.slot := by
  constructor
  · exact fun h => (foldl_store_slot _ _ h fun hnone => by cases hnone).symm
  · rintro rfl
    exact frame_stored hc

/-! ## The table -/

/-- In a table of different slots, a load finds a cell exactly when its key is the name of the cell
and nothing newer has that name. -/
lemma lookup_eq_iff {pre post : List (String × Int)} {f key : String} {s : Int}
    (h : ((pre ++ (f, s) :: post).map Prod.snd).Nodup) :
    (pre ++ (f, s) :: post).lookup key = some s ↔ key = f ∧ f ∉ pre.map Prod.fst := by
  constructor
  · intro hlookup
    obtain ⟨before, after, heq, hnew⟩ := List.lookup_eq_some_iff.mp hlookup
    -- the slot is at one place of the table
    have hsplit := congrArg (List.map Prod.snd) heq
    rw [heq] at h
    simp only [List.map_append, List.map_cons] at hsplit h
    have hlength : pre.length = before.length := by
      have hindex : ∀ (xs ys : List Int), (xs ++ s :: ys).Nodup →
          (xs ++ s :: ys).idxOf s = xs.length := by
        intro xs ys hnodup
        have hnot : s ∉ xs := by
          intro hmem
          rw [List.nodup_append] at hnodup
          exact hnodup.2.2 s hmem s List.mem_cons_self rfl
        rw [List.idxOf_append_of_notMem hnot, List.idxOf_cons_self, Nat.add_zero]
      have hleft := hindex _ _ (hsplit ▸ h)
      have hright := hindex _ _ h
      rw [hsplit, hright] at hleft
      simpa using hleft.symm
    obtain ⟨hpre, hrest⟩ := List.append_inj heq hlength
    cases hrest
    refine ⟨rfl, fun hmem => ?_⟩
    obtain ⟨b, hb, hname⟩ := List.mem_map.mp hmem
    have := hnew b (hpre ▸ hb)
    simp [hname] at this
  · rintro ⟨rfl, hnot⟩
    refine List.lookup_eq_some_iff.mpr ⟨pre, post, rfl, fun b hb => ?_⟩
    have hne : key ≠ b.1 := fun heq => hnot (List.mem_map.mpr ⟨b, hb, heq.symm⟩)
    simpa using hne

/-- The numbers among bound names are among the cells. -/
lemma numberOffsets_sublist (bounds : List (String × Bound)) :
    ((Loop.numberOffsets bounds).map Prod.snd).Sublist
      ((bounds.flatMap fun b => b.2.cells).map Cell.slot) := by
  induction bounds with
  | nil => exact List.Sublist.refl _
  | cons b bounds ih =>
      obtain ⟨x, bound⟩ := b
      rw [List.flatMap_cons, List.map_append]
      cases bound with
      | word cell => exact ih.cons_cons _
      | record cells => exact ih.trans (List.sublist_append_right _ _)
      | text pointer length s => exact ih.trans (List.sublist_append_right _ _)

lemma cellOffsets_slots (cells : List (String × Cell)) :
    (Loop.cellOffsets cells).map Prod.snd = (cells.map Prod.snd).map Cell.slot := by
  rw [Loop.cellOffsets, List.map_map, List.map_map]
  rfl

lemma cellOffsets_names (cells : List (String × Cell)) :
    (Loop.cellOffsets cells).map Prod.fst = cells.map Prod.fst := by
  rw [Loop.cellOffsets, List.map_map]
  rfl

/-- The clock has the name `now`. -/
lemma now_names {f : String} :
    f ∉ l.nowCells.map Prod.fst ↔ (f = "now" → l.now = none) := by
  unfold Loop.nowCells
  split
  · rename_i n hn
    simp [hn]
  · rename_i hn
    simp [hn]

/-- The table names different slots. -/
lemma offsets_nodup (l : Loop) (k : Nat) : ((l.offsets k).map Prod.snd).Nodup := by
  have hperm : ((((l.letBounds k).flatMap fun b => b.2.cells) ++ (l.nowCells.map Prod.snd ++
      (l.contextCells.map Prod.snd ++ l.inputCells.map Prod.snd))).map Cell.slot).Perm
      ((l.stored k).map Cell.slot) := by
    rw [List.perm_iff_count]
    intro s
    simp only [Loop.stored, List.map_append, List.map_reverse, List.count_append,
      List.count_reverse]
    omega
  have hnodup := (hperm.nodup_iff).mpr (slots_nodup l k)
  rw [List.map_append, List.map_append, List.map_append] at hnodup
  refine hnodup.sublist ?_
  simp only [Loop.offsets, List.map_append, cellOffsets_slots]
  exact (numberOffsets_sublist _).append (List.Sublist.refl _)

/-! ## The bindings in force -/

/-- A `let` of these loops holds no record. -/
lemma not_record_of_mem {j : Nat} {lets : List (String × LetValue)} {b : String × Bound}
    (hb : b ∈ letsFrom j lets) : ∀ cells, b.2 ≠ .record cells := by
  induction lets generalizing j with
  | nil => cases hb
  | cons x lets ih =>
      obtain ⟨name, v⟩ := x
      rcases List.mem_append.mp hb with hrest | hone
      · exact ih hrest
      · rw [List.mem_singleton.mp hone]
        cases v with
        | number n => exact fun _ h => by cases h
        | text p l s => exact fun _ h => by cases h

/-- A name looked up past bindings of other kinds. -/
lemma lookup_append_eq {α : Type} {xs ys : List (String × α)} {x : String} {v : α}
    (h : (xs ++ ys).lookup x = some v) (hxs : ∀ b ∈ xs, b.2 ≠ v) : ys.lookup x = some v := by
  rw [List.lookup_append] at h
  cases hx : xs.lookup x with
  | none => simpa [hx] using h
  | some w =>
      rw [hx] at h
      cases h
      exact absurd rfl (hxs _ (Dict.mem_of_lookup hx))

/-- A record in force is the context, or the input where the context has another name. -/
lemma record_cases {k : Nat} {base : String} {cells : List (String × Cell)}
    (h : (l.env k).lookup base = some (.record cells)) :
    (cells = l.contextCells ∧ ∃ c ∈ l.context, c.1 = base) ∨
      (cells = l.inputCells ∧ ∀ c ∈ l.context, c.1 ≠ base) := by
  have hlets := lookup_append_eq h fun b hb => not_record_of_mem hb cells
  cases hctx : l.context with
  | none =>
      rw [hctx] at hlets
      simp only [Option.map_none, Option.toList_none, List.nil_append, List.lookup_cons,
        List.lookup_nil] at hlets
      split at hlets
      · cases hlets
        exact Or.inr ⟨rfl, fun c hc => by cases hc⟩
      · cases hlets
  | some c =>
      rw [hctx] at hlets
      simp only [Option.map_some, Option.toList_some, List.cons_append, List.nil_append,
        List.lookup_cons, List.lookup_nil] at hlets
      split at hlets
      · rename_i hname
        cases hlets
        exact Or.inl ⟨rfl, c, rfl, (beq_iff_eq.mp hname).symm⟩
      · rename_i hname
        split at hlets
        · cases hlets
          refine Or.inr ⟨rfl, fun c' hc' heq => ?_⟩
          cases hc'
          simp [heq] at hname
        · cases hlets

/-- A word in force is a `let`. -/
lemma word_let {k : Nat} {x : String} {cell : Cell} (h : (l.env k).lookup x = some (.word cell)) :
    (l.letBounds k).lookup x = some (.word cell) := by
  rw [Loop.env, List.lookup_append] at h
  cases hx : (l.letBounds k).lookup x with
  | some b =>
      rw [hx] at h
      simpa using h
  | none =>
      rw [hx] at h
      have hmem := Dict.mem_of_lookup (show List.lookup x _ = some (Bound.word cell) from h)
      cases hctx : l.context with
      | none => simp [hctx] at hmem
      | some c => simp [hctx] at hmem

/-- The place of an entry that a lookup finds. -/
lemma lookup_split {α : Type} {xs : List (String × α)} {f : String} {v : α}
    (h : xs.lookup f = some v) : ∃ pre post, xs = pre ++ (f, v) :: post ∧ f ∉ pre.map Prod.fst := by
  obtain ⟨pre, post, heq, hnew⟩ := List.lookup_eq_some_iff.mp h
  refine ⟨pre, post, heq, fun hmem => ?_⟩
  obtain ⟨b, hb, hname⟩ := List.mem_map.mp hmem
  have := hnew b hb
  simp [hname] at this

/-- A cell of a binding in force has been stored. -/
lemma meant_stored {k : Nat} {a : Access} {cell : Cell} (h : (l.point k).meant a = some cell) :
    cell ∈ l.stored k := by
  cases a with
  | field base f =>
      simp only [Point.meant, Loop.point] at h
      split at h
      · rename_i cells hbase
        have hcell := List.mem_map_of_mem (f := Prod.snd) (Dict.mem_of_lookup h)
        rcases record_cases hbase with ⟨rfl, -⟩ | ⟨rfl, -⟩
        · exact List.mem_append_left _ (List.mem_reverse.mpr hcell)
        · exact List.mem_append_right _ (List.mem_append_right _
            (List.mem_append_left _ (List.mem_reverse.mpr hcell)))
      · cases h
  | ident x =>
      simp only [Point.meant, Loop.point] at h
      split at h
      · rename_i c hx
        cases h
        have hmem := Dict.mem_of_lookup (word_let hx)
        refine List.mem_append_right _ (List.mem_append_right _ (List.mem_append_right _
          (List.mem_reverse.mpr (List.mem_flatMap.mpr ⟨_, hmem, List.mem_singleton_self _⟩))))
      · cases h

/-- A lookup in a table whose values are mapped. -/
lemma lookup_map_snd {α β : Type} (g : α → β) (xs : List (String × α)) (x : String) :
    (xs.map fun b => (b.1, g b.2)).lookup x = (xs.lookup x).map g := by
  induction xs with
  | nil => rfl
  | cons b xs ih =>
      rw [List.map_cons, List.lookup_cons, List.lookup_cons, ih]
      split <;> rfl

lemma values_lookup (p : Point) (x : String) :
    p.values.lookup x = (p.env.lookup x).map Bound.value := lookup_map_snd _ _ _

/-- The value of a load is that of the cell that is meant. -/
lemma evalExpr_meant {p : Point} {a : Access} {cell : Cell} (ctx : Context)
    (call : Rule → Value → Outcome Value) (h : p.meant a = some cell) :
    evalExpr ctx call p.values a.expr = .ok cell.value := by
  cases a with
  | field base f =>
      simp only [Point.meant] at h
      split at h
      · rename_i cells hbase
        have hvalue : p.values.lookup base = some (Bound.record cells).value := by
          rw [values_lookup, hbase, Option.map_some]
        have hcell : (cells.map fun c => (c.1, c.2.value)).lookup f = some cell.value := by
          rw [lookup_map_snd, h, Option.map_some]
        simp only [Access.expr, evalExpr, hvalue, Bound.value, bind, Except.bind, hcell]
      · cases h
  | ident x =>
      simp only [Point.meant] at h
      split at h
      · rename_i c hx
        cases h
        have hvalue : p.values.lookup x = some (Bound.word cell).value := by
          rw [values_lookup, hx, Option.map_some]
        simp only [Access.expr, evalExpr, hvalue, Bound.value]
      · cases h

/-! ## The loads of a record loop -/

/-- A field of the context, under the numbers and the clock. -/
lemma context_load {k : Nat} {f key : String} {cell : Cell}
    (h : l.contextCells.lookup f = some cell) :
    (l.offsets k).lookup key = some cell.slot ↔
      key = f ∧ f ∉ l.letNames k ∧ (f = "now" → l.now = none) := by
  obtain ⟨pre, post, heq, hnew⟩ := lookup_split h
  have htable : l.offsets k =
      (Loop.numberOffsets (l.letBounds k) ++ (Loop.cellOffsets l.nowCells ++
        Loop.cellOffsets pre)) ++ (f, cell.slot) :: (Loop.cellOffsets post ++
          Loop.cellOffsets l.inputCells) := by
    simp only [Loop.offsets, heq, Loop.cellOffsets, List.map_append, List.map_cons,
      List.append_assoc, List.cons_append]
  have hnodup := offsets_nodup l k
  rw [htable] at hnodup ⊢
  rw [lookup_eq_iff hnodup]
  simp only [List.map_append, List.mem_append, cellOffsets_names, not_or, hnew, not_false_eq_true,
    and_true, now_names, Loop.letNames]

/-- A field of the input, under the context too. -/
lemma input_load {k : Nat} {f key : String} {cell : Cell}
    (h : l.inputCells.lookup f = some cell) :
    (l.offsets k).lookup key = some cell.slot ↔
      key = f ∧ f ∉ l.letNames k ∧ (f = "now" → l.now = none) ∧
        f ∉ l.contextCells.map Prod.fst := by
  obtain ⟨pre, post, heq, hnew⟩ := lookup_split h
  have htable : l.offsets k =
      (Loop.numberOffsets (l.letBounds k) ++ (Loop.cellOffsets l.nowCells ++
        (Loop.cellOffsets l.contextCells ++ Loop.cellOffsets pre))) ++
          (f, cell.slot) :: Loop.cellOffsets post := by
    simp only [Loop.offsets, heq, Loop.cellOffsets, List.map_append, List.map_cons,
      List.append_assoc]
  have hnodup := offsets_nodup l k
  rw [htable] at hnodup ⊢
  rw [lookup_eq_iff hnodup]
  simp only [List.map_append, List.mem_append, cellOffsets_names, not_or, hnew, not_false_eq_true,
    and_true, now_names, Loop.letNames]

/-- A `let` in force, which is the newest of its name. -/
lemma let_load {k : Nat} {x key : String} {cell : Cell}
    (h : (l.letBounds k).lookup x = some (.word cell)) :
    (l.offsets k).lookup key = some cell.slot ↔ key = x := by
  obtain ⟨pre, post, heq, hnew⟩ := lookup_split h
  have htable : l.offsets k = Loop.numberOffsets pre ++ (x, cell.slot) ::
      (Loop.numberOffsets post ++ (Loop.cellOffsets l.nowCells ++
        (Loop.cellOffsets l.contextCells ++ Loop.cellOffsets l.inputCells))) := by
    rw [Loop.offsets, heq, Loop.numberOffsets, List.filterMap_append, List.append_assoc]
    rfl
  have hnot : x ∉ (Loop.numberOffsets pre).map Prod.fst := by
    intro hmem
    obtain ⟨entry, hentry, hname⟩ := List.mem_map.mp hmem
    obtain ⟨b, hb, hword⟩ := List.mem_filterMap.mp hentry
    refine hnew (List.mem_map.mpr ⟨b, hb, ?_⟩)
    split at hword
    · cases hword
      exact hname
    · cases hword
  have hnodup := offsets_nodup l k
  rw [htable] at hnodup ⊢
  rw [lookup_eq_iff hnodup]
  exact ⟨fun hkey => hkey.1, fun hkey => ⟨hkey, hnot⟩⟩

/-- **When a load finds the cell that is meant.** -/
lemma native_iff_clear {k : Nat} {a : Access} {cell : Cell} {s : Int}
    (hmeant : (l.point k).meant a = some cell) (hnative : (l.point k).native a = some s) :
    s = cell.slot ↔ l.Clear k a := by
  cases a with
  | field base f =>
      have hslot : s = cell.slot ↔
          (l.offsets k).lookup (fieldKey (l.offsets k) base f) = some cell.slot := by
        rw [show (l.offsets k).lookup (fieldKey (l.offsets k) base f) = some s from hnative,
          Option.some.injEq]
      rw [hslot]
      simp only [Point.meant, Loop.point] at hmeant
      split at hmeant
      · rename_i cells hbase
        rcases record_cases hbase with ⟨rfl, c, hc, hname⟩ | ⟨rfl, hother⟩
        · rw [context_load hmeant]
          constructor
          · rintro ⟨hkey, hlets, hnow⟩
            exact ⟨hkey, hlets, hnow, fun hother => absurd hname (hother c hc)⟩
          · rintro ⟨hkey, hlets, hnow, -⟩
            exact ⟨hkey, hlets, hnow⟩
        · rw [input_load hmeant]
          constructor
          · rintro ⟨hkey, hlets, hnow, hcontext⟩
            exact ⟨hkey, hlets, hnow, fun _ => hcontext⟩
          · rintro ⟨hkey, hlets, hnow, hcontext⟩
            exact ⟨hkey, hlets, hnow, hcontext hother⟩
      · cases hmeant
  | ident x =>
      have hslot : s = cell.slot ↔
          (l.offsets k).lookup (identKey (l.offsets k) x) = some cell.slot := by
        simp only [Point.native] at hnative
        split at hnative
        · cases hnative
        · rw [show (l.offsets k).lookup (identKey (l.offsets k) x) = some s from hnative,
            Option.some.injEq]
      rw [hslot]
      simp only [Point.meant, Loop.point] at hmeant
      split at hmeant
      · rename_i c hx
        cases hmeant
        exact let_load (word_let hx)
      · cases hmeant

/-- **The loads of a record loop.** -/
theorem record_names_resolve (l : Loop) (k : Nat) :
    (l.point k).Resolves (l.frame k) (l.Clear k) := by
  intro a cell s hmeant hnative
  refine ⟨fun ctx call => evalExpr_meant ctx call hmeant, ?_⟩
  rw [frame_eq_iff (meant_stored hmeant)]
  exact native_iff_clear hmeant hnative

/-- A rule of people that names a number, and the record of one who is thirty. -/
def people (name : String) : Loop where
  inputName := "p"
  input := [("age", 30, .number 30)]
  context := none
  lets := [(name, .number 5)]
  now := none
  reserved := 0
  blocks := 0

end Verbosec.Native.Offsets
