import Verbosec.Lib.Dict
import Verbosec.Lib.Except
import Verbosec.Native.Slots
import Mathlib.Data.List.Pairwise

/-!
# Relocation keeps every run

* `emitAll_eq` - what emission leaves in a buffer: the bytes, the uses and the slots.
* `relocate_eq` - rewriting the uses gives the buffer that the relocated slots would have given.
* `Covered` - every use of a slot is within its span; `spans_eq_ok` gives the spans of a layout.
* `layoutOf_separated` - slots whose spans meet have different words, and there are as many words
  as spans are live at one position.
* `exec_relocated` - a run before the layout is a run after it.
* `layout_preserves` - all of it, for every buffer, every input and output and every path.

A path only goes forward, so a slot that was written and will be read is inside its span at every
instruction in between, and no store there can reach its word.
-/

namespace Verbosec.Native.Slots

open Verbosec.Lib

variable {σ : Type}

/-! ## Bytes and slot numbers -/

@[simp] lemma length_le32 (z : Int) : (le32 z).length = 4 := rfl

/-- Four bytes hold a displacement. -/
lemma ofLe32_le32 {z : Int} (hlo : -2 ^ 31 ≤ z) (hhi : z < 2 ^ 31) : ofLe32 (le32 z) = z := by
  obtain ⟨n, hn⟩ : ∃ n : Nat, n = (z % 2 ^ 32).toNat := ⟨_, rfl⟩
  have hlt : n < 2 ^ 32 := by omega
  simp only [ofLe32, le32, List.map_cons, List.map_nil, List.foldr_cons, List.foldr_nil,
    UInt8.toNat_ofNat', ← hn]
  omega

/-- A slot by its displacement. -/
def number (slot : Int) : Nat := (-slot / 8 - 1).toNat

@[simp] lemma number_symbolic (id : Nat) : number (symbolic id) = id := by
  unfold number symbolic
  omega

lemma symbolic_injective {a b : Nat} (h : symbolic a = symbolic b) : a = b := by
  have := congrArg number h
  simpa using this

/-- The number of slots that the limit leaves. -/
def maxSlots : Nat := (frameLimit - fixedScratch) / 8

lemma index_symbolic {id count : Nat} (hid : id < count) (hcount : count ≤ maxSlots) :
    index (symbolic id) count = .ok id := by
  have hmax : maxSlots = 262138 := by decide
  unfold index symbolic
  simp only
  rw [if_pos (by omega)]
  congr 1
  omega

lemma symbolic_bounds {id : Nat} (hid : id < maxSlots) :
    -2 ^ 31 ≤ symbolic id ∧ symbolic id < 2 ^ 31 := by
  have hmax : maxSlots = 262138 := by decide
  unfold symbolic
  omega

/-! ## What emission leaves -/

/-- The bytes of an emission, with every slot at a displacement. -/
def Emitted.bytes (place : Int → Int) : Emitted σ → List UInt8
  | .slot => []
  | .raw b _ | .jump b _ _ => b
  | .load reg s => opcodeBytes 0x8b reg ++ le32 (place s)
  | .store reg s => opcodeBytes 0x89 reg ++ le32 (place s)

/-- The bytes of some emissions. -/
def encode (place : Int → Int) (items : List (Emitted σ)) : List UInt8 :=
  items.flatMap (Emitted.bytes place)

/-- The uses in some emissions from a position on. -/
def usesFrom : List (Emitted σ) → Nat → List (Int × Nat)
  | [], _ => []
  | .slot :: items, pos => usesFrom items pos
  | .raw b _ :: items, pos | .jump b _ _ :: items, pos => usesFrom items (pos + b.length)
  | .load _ slot :: items, pos | .store _ slot :: items, pos =>
    (slot, pos + 3) :: usesFrom items (pos + 7)

/-- The slots that are allocated from a position on. -/
def slotsFrom : List (Emitted σ) → Nat → List Span
  | [], _ => []
  | .slot :: items, pos => ⟨pos, pos⟩ :: slotsFrom items pos
  | .raw b _ :: items, pos | .jump b _ _ :: items, pos => slotsFrom items (pos + b.length)
  | .load _ _ :: items, pos | .store _ _ :: items, pos => slotsFrom items (pos + 7)

@[simp] lemma length_opcodeBytes (opcode : UInt8) (reg : Fin 8) :
    (opcodeBytes opcode reg).length = 3 := rfl

lemma length_operandBytes (opcode : UInt8) (reg : Fin 8) (z : Int) :
    (opcodeBytes opcode reg ++ le32 z).length = 7 := rfl

/-- A load and a store are three bytes and the displacement. -/
lemma bytes_operand (item : Emitted σ) (reg : Fin 8) (s : Int)
    (h : item = .load reg s ∨ item = .store reg s) :
    ∃ opcode, ∀ place, item.bytes place = opcodeBytes opcode reg ++ le32 (place s) := by
  rcases h with rfl | rfl
  · exact ⟨0x8b, fun _ => rfl⟩
  · exact ⟨0x89, fun _ => rfl⟩

/-- Emission appends the bytes, the uses and the slots, within the limit on slots. -/
lemma emitAll_eq {c c' : Code} {items : List (Emitted σ)} (hc : c.slots.length ≤ maxSlots)
    (h : c.emitAll items = .ok c') :
    c'.bytes = c.bytes ++ encode id items ∧
      c'.operands = c.operands ++ usesFrom items c.bytes.length ∧
      c'.slots = c.slots ++ slotsFrom items c.bytes.length ∧ c'.slots.length ≤ maxSlots := by
  induction items generalizing c with
  | nil =>
      cases h
      simpa [encode, usesFrom, slotsFrom] using hc
  | cons item items ih =>
      obtain ⟨c₁, h₁, h⟩ := Except.bind_eq_ok.mp h
      change c₁.emitAll items = .ok c' at h
      have hgrown : c₁.slots.length ≤ maxSlots := by
        cases item with
        | slot =>
            simp only [Code.emit, Code.slot] at h₁
            split at h₁
            · cases h₁
            · rename_i hlimit
              cases h₁
              have hmax : maxSlots = 262138 := by decide
              have hscratch : fixedScratch = 48 := by decide
              have hframe : frameLimit = 2097152 := by decide
              rw [List.length_append, List.length_singleton]
              omega
        | raw | jump | load | store =>
            cases h₁
            exact hc
      obtain ⟨hb, ho, hs, hl⟩ := ih hgrown h
      rw [hb, ho, hs]
      refine ⟨?_, ?_, ?_, hs ▸ hl⟩ <;> cases item with
      | slot =>
          simp only [Code.emit, Code.slot] at h₁
          split at h₁
          · cases h₁
          · cases h₁
            simp [encode, Emitted.bytes, usesFrom, slotsFrom]
      | raw | jump =>
          cases h₁
          simp [encode, Emitted.bytes, usesFrom, slotsFrom]
      | load | store =>
          cases h₁
          simp [Code.operand, encode, Emitted.bytes, usesFrom, slotsFrom, opcodeBytes]

/-! ## Rewriting the uses -/

/-- A word in the middle of a buffer. -/
lemma word32_middle (pre post : List UInt8) (z : Int) :
    word32 (pre ++ (le32 z ++ post)) pre.length = le32 z := by
  rw [word32, List.drop_left, List.take_left' (length_le32 z)]

/-- A word in the middle of a buffer, rewritten. -/
lemma writeAt_middle (pre post : List UInt8) (z : Int) (word : List UInt8) :
    writeAt (pre ++ (le32 z ++ post)) pre.length word = pre ++ (word ++ post) := by
  have hdrop : (pre ++ (le32 z ++ post)).drop (pre.length + 4) = post := by
    rw [List.drop_append, List.drop_eq_nil_of_le (by omega), Nat.add_sub_cancel_left,
      List.drop_left' (length_le32 z)]
    rfl
  rw [writeAt, List.take_left, hdrop, List.append_assoc]

/-- Rewriting every use gives the bytes that the new displacements would have given. -/
lemma relocate_eq (place : Int → Int) (items : List (Emitted σ)) (pre : List UInt8) :
    (usesFrom items pre.length).foldl (fun bytes o => writeAt bytes o.2 (le32 (place o.1)))
        (pre ++ encode id items) = pre ++ encode place items := by
  induction items generalizing pre with
  | nil => rfl
  | cons item items ih =>
      obtain ⟨emission, hitem⟩ : ∃ emission, emission = item := ⟨item, rfl⟩
      cases item with
      | slot => exact ih pre
      | raw b | jump b =>
          have h := ih (pre ++ b)
          rw [List.length_append] at h
          simpa [encode, Emitted.bytes, usesFrom] using h
      | load reg s | store reg s =>
          obtain ⟨opcode, hbytes⟩ := bytes_operand emission reg s (by simp [hitem])
          rw [hitem] at hbytes
          have hwrite := writeAt_middle (pre ++ opcodeBytes opcode reg) (encode id items) s
            (le32 (place s))
          have h := ih (pre ++ (opcodeBytes opcode reg ++ le32 (place s)))
          rw [List.length_append, length_operandBytes] at h
          rw [List.length_append, length_opcodeBytes] at hwrite
          simp only [encode, List.flatMap_cons, hbytes, usesFrom, List.foldl_cons, id_eq,
            List.append_assoc] at h hwrite ⊢
          rw [hwrite]
          exact h

/-- A word that is rewritten leaves the bytes around it. -/
lemma writeAt_getElem? {bytes word : List UInt8} {site pos : Nat} (hword : word.length = 4)
    (hsite : site + 4 ≤ bytes.length) (hpos : pos < site ∨ site + 4 ≤ pos) :
    (writeAt bytes site word)[pos]? = bytes[pos]? := by
  have htake : (bytes.take site).length = site := List.length_take_of_le (by omega)
  unfold writeAt
  rcases hpos with hlt | hle
  · rw [List.append_assoc, List.getElem?_append_left (by omega), List.getElem?_take_of_lt hlt]
  · have hlength : (bytes.take site ++ word).length = site + 4 := by
      rw [List.length_append, htake, hword]
    rw [List.getElem?_append_right (by omega), hlength, List.getElem?_drop,
      Nat.add_sub_cancel' hle]

lemma length_writeAt {bytes word : List UInt8} {site : Nat} (hword : word.length = 4)
    (hsite : site + 4 ≤ bytes.length) : (writeAt bytes site word).length = bytes.length := by
  unfold writeAt
  rw [List.length_append, List.length_append, List.length_take_of_le (by omega), hword,
    List.length_drop]
  omega

/-- Rewriting the uses leaves the other bytes. -/
lemma foldl_writeAt (place : Int → Int) {ops : List (Int × Nat)} {bytes : List UInt8}
    (hsites : ∀ o ∈ ops, o.2 + 4 ≤ bytes.length) :
    (ops.foldl (fun bytes o => writeAt bytes o.2 (le32 (place o.1))) bytes).length =
        bytes.length ∧
      ∀ pos, (∀ o ∈ ops, pos < o.2 ∨ o.2 + 4 ≤ pos) →
        (ops.foldl (fun bytes o => writeAt bytes o.2 (le32 (place o.1))) bytes)[pos]? =
          bytes[pos]? := by
  induction ops generalizing bytes with
  | nil => exact ⟨rfl, fun _ _ => rfl⟩
  | cons o ops ih =>
      have hsite := hsites o List.mem_cons_self
      have hlength := length_writeAt (length_le32 (place o.1)) hsite
      have hrest : ∀ o' ∈ ops, o'.2 + 4 ≤ (writeAt bytes o.2 (le32 (place o.1))).length :=
        fun o' ho' => hlength ▸ hsites o' (List.mem_cons_of_mem _ ho')
      obtain ⟨hall, hothers⟩ := ih hrest
      refine ⟨hall.trans hlength, fun pos hpos => ?_⟩
      have hone := writeAt_getElem? (length_le32 (place o.1)) hsite (hpos o List.mem_cons_self)
      exact (hothers pos fun o' ho' => hpos o' (List.mem_cons_of_mem _ ho')).trans hone

/-- The bytes depend on the displacements of the uses alone. -/
lemma encode_congr {f g : Int → Int} {items : List (Emitted σ)} {pos : Nat}
    (h : ∀ o ∈ usesFrom items pos, f o.1 = g o.1) : encode f items = encode g items := by
  induction items generalizing pos with
  | nil => rfl
  | cons item items ih =>
      simp only [encode, List.flatMap_cons]
      cases item with
      | slot | raw | jump => exact congrArg _ (ih h)
      | load reg s | store reg s =>
          have hs : f s = g s := h (s, pos + 3) List.mem_cons_self
          have hrest := ih fun o ho => h o (List.mem_cons_of_mem _ ho)
          simp only [encode] at hrest
          rw [hrest]
          simp only [Emitted.bytes, hs]

/-- The displacement of a use is where its site says. -/
lemma word32_use (place : Int → Int) (items : List (Emitted σ)) (pre : List UInt8) {o : Int × Nat}
    (ho : o ∈ usesFrom items pre.length) :
    word32 (pre ++ encode place items) o.2 = le32 (place o.1) ∧
      o.2 + 4 ≤ (pre ++ encode place items).length := by
  induction items generalizing pre with
  | nil => cases ho
  | cons item items ih =>
      obtain ⟨emission, hitem⟩ : ∃ emission, emission = item := ⟨item, rfl⟩
      cases item with
      | slot => exact ih pre ho
      | raw b | jump b =>
          have h := ih (pre ++ b) (by rwa [List.length_append])
          simpa [encode, Emitted.bytes] using h
      | load reg s | store reg s =>
          obtain ⟨opcode, hbytes⟩ := bytes_operand emission reg s (by simp [hitem])
          rw [hitem] at hbytes
          rcases List.mem_cons.mp ho with rfl | hrest
          · have hmiddle := word32_middle (pre ++ opcodeBytes opcode reg) (encode place items)
              (place s)
            rw [List.length_append, length_opcodeBytes] at hmiddle
            simp only [encode, List.flatMap_cons, hbytes, List.append_assoc, List.length_append,
              length_le32, length_opcodeBytes] at hmiddle ⊢
            exact ⟨hmiddle, by omega⟩
          · have h := ih (pre ++ (opcodeBytes opcode reg ++ le32 (place s)))
              (by rwa [List.length_append, length_operandBytes])
            simpa [encode, hbytes] using h

/-! ## The spans of a layout -/

/-- The uses and the slots of registered emissions are below the number of slots. -/
lemma uses_symbolic {items : List (Emitted σ)} {count pos : Nat} (h : Registered items count)
    {o : Int × Nat} (ho : o ∈ usesFrom items pos) :
    ∃ id < count + (slotsFrom items pos).length, o.1 = symbolic id := by
  induction items generalizing count pos with
  | nil => cases ho
  | cons item items ih =>
      cases item with
      | slot =>
          obtain ⟨id, hid, heq⟩ := ih h ho
          refine ⟨id, ?_, heq⟩
          rw [slotsFrom, List.length_cons]
          omega
      | raw | jump => exact ih h ho
      | load reg s | store reg s =>
          rcases List.mem_cons.mp ho with rfl | hrest
          · obtain ⟨id, hid, heq⟩ := h.1
            exact ⟨id, Nat.lt_add_right _ hid, heq⟩
          · exact ih h.2 hrest

/-- A list of changes to spans, seen at one slot. -/
lemma spanOf_foldl_modify {α : Type} (num : α → Nat) (f : α → Span → Span) (xs : List α)
    {spans : List Span} {id : Nat} (hid : id < spans.length) :
    spanOf (xs.foldl (fun spans x => spans.modify (num x) (f x)) spans) id =
      xs.foldl (fun s x => if num x = id then f x s else s) (spanOf spans id) := by
  induction xs generalizing spans with
  | nil => rfl
  | cons x xs ih =>
      have hone : spanOf (spans.modify (num x) (f x)) id =
          if num x = id then f x (spanOf spans id) else spanOf spans id := by
        simp only [spanOf, List.getD_eq_getElem?_getD, List.getElem?_modify,
          List.getElem?_eq_getElem hid]
        split <;> rfl
      rw [List.foldl_cons, List.foldl_cons, ih (by simpa using hid), hone]

lemma length_foldl_modify {α : Type} (num : α → Nat) (f : α → Span → Span) (xs : List α)
    (spans : List Span) :
    (xs.foldl (fun spans x => spans.modify (num x) (f x)) spans).length = spans.length := by
  induction xs generalizing spans with
  | nil => rfl
  | cons x xs ih => rw [List.foldl_cons, ih, List.length_modify]

/-- A loop none of whose steps fails. -/
lemma foldlM_eq_ok {α β : Type} {step : β → α → Except String β} {g : β → α → β} {xs : List α}
    (h : ∀ x ∈ xs, ∀ b, step b x = .ok (g b x)) (b : β) :
    xs.foldlM step b = .ok (xs.foldl g b) := by
  induction xs generalizing b with
  | nil => rfl
  | cons x xs ih =>
      rw [List.foldlM_cons, h x List.mem_cons_self, List.foldl_cons]
      exact ih (fun y hy => h y (List.mem_cons_of_mem _ hy)) _

/-- A slot starts where it is allocated, inside the buffer. -/
lemma slotsFrom_bounds {items : List (Emitted σ)} {pos : Nat} {s : Span}
    (hs : s ∈ slotsFrom items pos) :
    s.first = s.last ∧ pos ≤ s.first ∧ s.first ≤ pos + (encode id items).length := by
  induction items generalizing pos with
  | nil => cases hs
  | cons item items ih =>
      have hlen : (encode id (item :: items)).length =
          (item.bytes id).length + (encode id items).length := by
        simp [encode]
      rw [hlen]
      cases item with
      | slot =>
          rcases List.mem_cons.mp hs with rfl | hrest
          · exact ⟨rfl, Nat.le_refl _, Nat.le_add_right _ _⟩
          · obtain ⟨heq, hlo, hhi⟩ := ih hrest
            refine ⟨heq, hlo, ?_⟩
            omega
      | raw b | jump b =>
          obtain ⟨heq, hlo, hhi⟩ := ih hs
          simp only [Emitted.bytes]
          refine ⟨heq, ?_, ?_⟩ <;> omega
      | load reg slot | store reg slot =>
          obtain ⟨heq, hlo, hhi⟩ := ih hs
          simp only [Emitted.bytes, length_operandBytes]
          refine ⟨heq, ?_, ?_⟩ <;> omega

/-- The uses of a slot stretch its span. -/
lemma foldl_uses (ops : List (Int × Nat)) (id : Nat) (s : Span) :
    (ops.foldl (fun s o => if number o.1 = id then { s with last := max s.last (o.2 + 4) } else s)
        s).first = s.first ∧
      s.last ≤ (ops.foldl (fun s o =>
        if number o.1 = id then { s with last := max s.last (o.2 + 4) } else s) s).last ∧
      ∀ o ∈ ops, number o.1 = id → o.2 + 4 ≤ (ops.foldl (fun s o =>
        if number o.1 = id then { s with last := max s.last (o.2 + 4) } else s) s).last := by
  induction ops generalizing s with
  | nil => simp
  | cons o ops ih =>
      rw [List.foldl_cons]
      obtain ⟨hfirst, hlast, huses⟩ :=
        ih (if number o.1 = id then { s with last := max s.last (o.2 + 4) } else s)
      split at hfirst
      · rename_i heq
        simp only [heq, if_true] at hlast huses ⊢
        refine ⟨hfirst, by omega, ?_⟩
        intro o' ho' heq'
        rcases List.mem_cons.mp ho' with rfl | hrest
        · omega
        · exact huses o' hrest heq'
      · rename_i hne
        simp only [hne, if_false] at hlast huses ⊢
        refine ⟨hfirst, hlast, ?_⟩
        intro o' ho' heq'
        rcases List.mem_cons.mp ho' with rfl | hrest
        · exact absurd heq' hne
        · exact huses o' hrest heq'

/-- The inputs start with the code. -/
lemma foldl_inputs (slots : List Int) (id : Nat) (s : Span) :
    slots.foldl (fun s slot => if number slot = id then { s with first := 0 } else s) s =
      { s with first := if id ∈ slots.map number then 0 else s.first } := by
  induction slots generalizing s with
  | nil => rfl
  | cons slot slots ih =>
      rw [List.foldl_cons, ih]
      by_cases hslot : number slot = id
      · simp [hslot]
      · simp [hslot, Ne.symm hslot]

/-- The outputs end after it. -/
lemma foldl_outputs (slots : List Int) (id stop : Nat) (s : Span) :
    slots.foldl (fun s slot => if number slot = id then { s with last := stop } else s) s =
      { s with last := if id ∈ slots.map number then stop else s.last } := by
  induction slots generalizing s with
  | nil => rfl
  | cons slot slots ih =>
      rw [List.foldl_cons, ih]
      by_cases hslot : number slot = id
      · simp [hslot]
      · simp [hslot, Ne.symm hslot]

/-- A buffer that was emitted from nothing. -/
structure Emission (items : List (Emitted σ)) (c : Code) : Prop where
  /-- it is what the emissions leave -/
  emitted : ({} : Code).emitAll items = .ok c
  /-- the slots come from the allocation -/
  registered : Registered items 0

/-- The slots in a list were allocated. -/
def Known (c : Code) (slots : List Int) : Prop := ∀ s ∈ slots, ∃ id < c.slots.length, s = symbolic id

variable {items : List (Emitted σ)} {c : Code}

lemma Emission.eq (h : Emission items c) :
    c.bytes = encode id items ∧ c.operands = usesFrom items 0 ∧ c.slots = slotsFrom items 0 ∧
      c.slots.length ≤ maxSlots := by
  have := emitAll_eq (c := {}) (Nat.zero_le _) h.emitted
  simpa using this

lemma Emission.use (h : Emission items c) {o : Int × Nat} (ho : o ∈ c.operands) :
    (∃ id < c.slots.length, o.1 = symbolic id) ∧ word32 c.bytes o.2 = le32 o.1 ∧
      o.2 + 4 ≤ c.bytes.length := by
  obtain ⟨hbytes, huses, hslots, -⟩ := h.eq
  rw [huses] at ho
  obtain ⟨id', hid, heq⟩ := uses_symbolic h.registered ho
  obtain ⟨hword, hlen⟩ := word32_use id items [] ho
  rw [hbytes, hslots]
  refine ⟨⟨id', by omega, heq⟩, hword, hlen⟩

lemma mem_map_number {slots : List Int} {id : Nat} (h : Known c slots) :
    id ∈ slots.map number ↔ symbolic id ∈ slots := by
  constructor
  · intro hid
    obtain ⟨s, hs, rfl⟩ := List.mem_map.mp hid
    obtain ⟨id', -, rfl⟩ := h s hs
    rwa [number_symbolic]
  · intro hs
    exact List.mem_map.mpr ⟨_, hs, number_symbolic id⟩

/-- The spans when no loop of the layout fails. -/
def Code.stretched (c : Code) (inputs outputs : List Int) : List Span :=
  outputs.foldl (fun spans s => spans.modify (number s) fun t => { t with last := c.bytes.length + 1 })
    (inputs.foldl (fun spans s => spans.modify (number s) fun t => { t with first := 0 })
      (c.operands.foldl (fun spans o =>
        spans.modify (number o.1) fun t => { t with last := max t.last (o.2 + 4) }) c.slots))

/-- The spans of a layout: an input starts with the code, an output ends after it, and every other
slot reaches from its allocation at least to the end of its last use. -/
theorem spans_eq_ok (h : Emission items c) {inputs outputs : List Int} (hi : Known c inputs)
    (ho : Known c outputs) :
    ∃ spans, c.spans inputs outputs = .ok spans ∧ spans.length = c.slots.length ∧
      ∀ id < c.slots.length,
        (spanOf spans id).first =
            (if symbolic id ∈ inputs then 0 else (spanOf c.slots id).first) ∧
          (symbolic id ∈ outputs → (spanOf spans id).last = c.bytes.length + 1) ∧
          (∀ o ∈ c.operands, o.1 = symbolic id → o.2 + 4 ≤ (spanOf spans id).last) ∧
          (spanOf spans id).first ≤ (spanOf spans id).last := by
  obtain ⟨hbytes, huses, hslots, hmax⟩ := h.eq
  have hops : ∀ o ∈ c.operands, ∀ spans : List Span, (do
      let id ← index o.1 c.slots.length
      if word32 c.bytes o.2 ≠ le32 o.1 then throw "invalid symbolic slot relocation"
      return spans.modify id fun s => { s with last := max s.last (o.2 + 4) } :
        Except String (List Span)) =
      .ok (spans.modify (number o.1) fun s => { s with last := max s.last (o.2 + 4) }) := by
    intro o hmem spans
    obtain ⟨⟨id', hid, heq⟩, hword, -⟩ := h.use hmem
    rw [heq, number_symbolic, index_symbolic hid hmax, ← heq, hword]
    simp [bind, Except.bind, pure, Except.pure]
  have hloop : ∀ slots, Known c slots → ∀ (f : Span → Span), ∀ s ∈ slots, ∀ spans : List Span, (do
      let id ← index s c.slots.length
      return spans.modify id f : Except String (List Span)) = .ok (spans.modify (number s) f) := by
    intro slots hknown f s hmem spans
    obtain ⟨id', hid, rfl⟩ := hknown s hmem
    rw [number_symbolic, index_symbolic hid hmax]
    rfl
  have hspans : c.spans inputs outputs = .ok (c.stretched inputs outputs) := by
    unfold Code.spans Code.stretched
    refine Except.bind_eq_ok.mpr ⟨_, foldlM_eq_ok hops _, ?_⟩
    refine Except.bind_eq_ok.mpr ⟨_, foldlM_eq_ok (hloop inputs hi _) _, ?_⟩
    exact foldlM_eq_ok (hloop outputs ho _) _
  refine ⟨_, hspans, ?_, ?_⟩
  · rw [Code.stretched, length_foldl_modify, length_foldl_modify, length_foldl_modify]
  · intro id hid
    have hslot : spanOf c.slots id ∈ slotsFrom items 0 := by
      rw [← hslots, spanOf, List.getD_eq_getElem?_getD, List.getElem?_eq_getElem hid]
      exact List.getElem_mem hid
    obtain ⟨hsame, -, hend⟩ := slotsFrom_bounds hslot
    rw [Nat.zero_add, ← hbytes] at hend
    obtain ⟨hfirst, hlast, hcover⟩ := foldl_uses c.operands id (spanOf c.slots id)
    rw [Code.stretched, spanOf_foldl_modify _ _ _ (by simpa [length_foldl_modify] using hid),
      spanOf_foldl_modify _ _ _ (by simpa [length_foldl_modify] using hid),
      spanOf_foldl_modify _ _ _ hid, foldl_outputs, foldl_inputs]
    simp only [mem_map_number hi, mem_map_number ho, hfirst]
    refine ⟨trivial, fun hout => if_pos hout, ?_, ?_⟩
    · intro o hmem heq
      have huse := (h.use hmem).2.2
      have hspan := hcover o hmem (by rw [heq, number_symbolic])
      split
      · omega
      · exact hspan
    · split <;> split <;> omega

/-! ## The words of a layout -/

/-- The word of a slot by its number. -/
def wordOf (spans : List Span) (id : Nat) : Int := (layoutOf spans).offsets.getD id 0

/-- The slots are taken in the order of their starts, each once. -/
lemma order_spec (spans : List Span) :
    (order spans).Perm (List.range spans.length) ∧
      (order spans).Pairwise fun a b => (spanOf spans a).first ≤ (spanOf spans b).first := by
  refine ⟨List.mergeSort_perm _ _, ?_⟩
  refine List.Pairwise.imp ?_ (List.pairwise_mergeSort ?_ ?_ _)
  · intro a b hab
    simp only [Bool.or_eq_true, Bool.and_eq_true, decide_eq_true_eq, beq_iff_eq] at hab
    omega
  · intro a b x hab hbx
    simp only [Bool.or_eq_true, Bool.and_eq_true, decide_eq_true_eq, beq_iff_eq] at hab hbx ⊢
    omega
  · intro a b
    simp only [Bool.or_eq_true, Bool.and_eq_true, decide_eq_true_eq, beq_iff_eq]
    omega

/-- The scan is valid and gives every slot one word. -/
lemma scan_spec {spans : List Span}
    (hspans : ∀ id < spans.length, (spanOf spans id).first ≤ (spanOf spans id).last) :
    (∃ now, (scan spans).Valid (spanOf spans) now) ∧
      ((scan spans).word.map Prod.fst).Perm (List.range spans.length) := by
  obtain ⟨hperm, hsorted⟩ := order_spec spans
  have hall : ∀ id, (spanOf spans id).first ≤ (spanOf spans id).last := by
    intro id
    by_cases hid : id < spans.length
    · exact hspans id hid
    · rw [spanOf, List.getD_eq_getElem?_getD, List.getElem?_eq_none (Nat.le_of_not_lt hid)]
      exact Nat.le_refl _
  obtain ⟨now, hvalid, hwords⟩ := Scan.valid_empty.run hall hsorted (fun _ _ => Nat.zero_le _)
  refine ⟨⟨now, hvalid⟩, ?_⟩
  rw [scan, hwords]
  simpa [Scan.empty] using (List.reverse_perm _).trans hperm

/-- The slots that are live at a position. -/
def live (spans : List Span) (x : Nat) : Nat :=
  (List.range spans.length).countP fun id => (spanOf spans id).live x

/-- The layout has as many words as slots are live at one position at most, each of eight bytes. -/
theorem layoutOf_bytes {spans : List Span}
    (hspans : ∀ id < spans.length, (spanOf spans id).first ≤ (spanOf spans id).last) :
    (∀ x, live spans x * 8 ≤ (layoutOf spans).bytes) ∧
      ((layoutOf spans).bytes = 0 ∨ ∃ x, live spans x * 8 = (layoutOf spans).bytes) := by
  obtain ⟨⟨now, hvalid⟩, hperm⟩ := scan_spec hspans
  have hcount : ∀ x, live spans x =
      (scan spans).word.countP fun p => (spanOf spans p.1).live x := by
    intro x
    rw [live, ← hperm.countP_eq, List.countP_map]
    rfl
  simp only [hcount, layoutOf]
  refine ⟨fun x => Nat.mul_le_mul_right 8 (hvalid.live_le x), ?_⟩
  by_cases hpeak : (scan spans).peak = 0
  · exact Or.inl (by rw [hpeak])
  · obtain ⟨x, hx⟩ := hvalid.exists_live hpeak
    exact Or.inr ⟨x, by rw [hx]⟩

/-- The word of a slot is one that the scan gave, or the symbolic one. -/
lemma wordOf_eq {spans : List Span} {id : Nat} (hid : id < spans.length) :
    wordOf spans id = if (scan spans).peak = spans.length then symbolic id
      else -(((scan spans).word.lookup id).getD 0 : Nat) * 8 := by
  unfold wordOf layoutOf
  by_cases hpeak : (scan spans).peak = spans.length
  · simp [hpeak, List.getD_eq_getElem?_getD, hid]
  · simp [hpeak, List.getD_eq_getElem?_getD, hid]

/-- Slots whose spans meet have different words. -/
theorem layoutOf_separated {spans : List Span}
    (hspans : ∀ id < spans.length, (spanOf spans id).first ≤ (spanOf spans id).last) {a b : Nat}
    (ha : a < spans.length) (hb : b < spans.length) (hne : a ≠ b)
    (hmeets : (spanOf spans a).Meets (spanOf spans b)) : wordOf spans a ≠ wordOf spans b := by
  obtain ⟨⟨now, hvalid⟩, hperm⟩ := scan_spec hspans
  rw [wordOf_eq ha, wordOf_eq hb]
  split
  · exact fun h => hne (symbolic_injective h)
  · have hnodup : ((scan spans).word.map Prod.fst).Nodup := hperm.nodup_iff.mpr List.nodup_range
    have hword : ∀ id < spans.length, ∃ w, (id, w) ∈ (scan spans).word ∧
        (scan spans).word.lookup id = some w := by
      intro id hid
      obtain ⟨⟨id', w⟩, hmem, rfl⟩ := List.mem_map.mp (hperm.mem_iff.mpr (List.mem_range.mpr hid))
      exact ⟨w, hmem, (Dict.lookup_eq_some_of_nodup hnodup).mpr hmem⟩
    obtain ⟨wa, hma, hla⟩ := hword a ha
    obtain ⟨wb, hmb, hlb⟩ := hword b hb
    have : Std.Symm fun p q : Nat × Nat =>
        (spanOf spans p.1).Meets (spanOf spans q.1) → p.2 ≠ q.2 :=
      ⟨fun p q hpq hqp => (hpq ⟨hqp.2, hqp.1⟩).symm⟩
    have hdistinct := hvalid.separated.forall hma hmb
      (fun h => hne (congrArg Prod.fst h)) hmeets
    rw [hla, hlb]
    simp only [Option.getD_some]
    omega

/-- A word is a displacement. -/
lemma wordOf_bounds {spans : List Span} (hmax : spans.length ≤ maxSlots)
    (hspans : ∀ id < spans.length, (spanOf spans id).first ≤ (spanOf spans id).last) {id : Nat}
    (hid : id < spans.length) : -2 ^ 31 ≤ wordOf spans id ∧ wordOf spans id < 2 ^ 31 := by
  have hvalue : maxSlots = 262138 := by decide
  obtain ⟨⟨now, hvalid⟩, hperm⟩ := scan_spec hspans
  rw [wordOf_eq hid]
  split
  · exact symbolic_bounds (Nat.lt_of_lt_of_le hid hmax)
  · have hlength := hperm.length_eq
    rw [List.length_map, List.length_range] at hlength
    have hpeak : (scan spans).peak ≤ spans.length := by
      by_cases hzero : (scan spans).peak = 0
      · omega
      · obtain ⟨x, hx⟩ := hvalid.exists_live hzero
        rw [← hx, ← hlength]
        exact List.countP_le_length
    cases hl : (scan spans).word.lookup id with
    | none => simp
    | some w =>
        have hbound := (hvalid.bounded _ (Dict.mem_of_lookup hl)).2
        simp only [Option.getD_some] at hbound ⊢
        omega

/-! ## Runs before and after -/

/-- Every use of a slot is within its span. -/
def Covered (spans : List Span) : List (Emitted σ) → Nat → Prop
  | [], _ => True
  | .slot :: items, pos => Covered spans items pos
  | .raw b _ :: items, pos | .jump b _ _ :: items, pos => Covered spans items (pos + b.length)
  | .load _ s :: items, pos | .store _ s :: items, pos =>
    (∃ id < spans.length, s = symbolic id ∧ (spanOf spans id).first ≤ pos ∧
      pos + 7 ≤ (spanOf spans id).last) ∧ Covered spans items (pos + 7)

/-- A slot is used after its allocation, and its span reaches to the end of the use. -/
lemma covered_of_uses {spans : List Span} {items : List (Emitted σ)} {count pos : Nat}
    (h : Registered items count) (hcount : count + (slotsFrom items pos).length ≤ spans.length)
    (hstarted : ∀ id < count, (spanOf spans id).first ≤ pos)
    (hslots : ∀ i s, (slotsFrom items pos)[i]? = some s →
      (spanOf spans (count + i)).first ≤ s.first)
    (huses : ∀ o ∈ usesFrom items pos, ∀ id < spans.length, o.1 = symbolic id →
      o.2 + 4 ≤ (spanOf spans id).last) : Covered spans items pos := by
  induction items generalizing count pos with
  | nil => trivial
  | cons item items ih =>
      cases item with
      | slot =>
          rw [slotsFrom, List.length_cons] at hcount
          have hnew := hslots 0 ⟨pos, pos⟩ rfl
          refine ih h (by omega) ?_ ?_ huses
          · intro id hid
            rcases Nat.lt_succ_iff_lt_or_eq.mp hid with hlt | heq
            · exact hstarted id hlt
            · exact heq ▸ hnew
          · intro i s hs
            have := hslots (i + 1) s (by simpa [slotsFrom] using hs)
            rwa [Nat.add_right_comm, Nat.add_assoc]
      | raw b | jump b =>
          exact ih h hcount (fun id hid => Nat.le_add_right_of_le (hstarted id hid)) hslots huses
      | load reg s | store reg s =>
          obtain ⟨⟨id, hid, rfl⟩, hrest⟩ := h
          simp only [slotsFrom] at hcount hslots
          have huse := huses (symbolic id, pos + 3) List.mem_cons_self id (by omega) rfl
          refine ⟨⟨id, by omega, rfl, hstarted id hid, huse⟩, ?_⟩
          exact ih hrest hcount (fun id hid => Nat.le_add_right_of_le (hstarted id hid)) hslots
            (fun o ho => huses o (List.mem_cons_of_mem _ ho))

/-- Two machines at one position: the same state and reads, and every written slot whose span has
not ended has its value in its word. -/
structure Agrees (spans : List Span) (pc : Nat) (m m' : Machine σ) : Prop where
  /-- outside the slots nothing differs -/
  state : m'.state = m.state
  /-- the loaded values are the same -/
  reads : m'.reads = m.reads
  /-- a written slot has been allocated, and its word holds its value until its span ends -/
  frame : ∀ id < spans.length, ∀ v, m.frame (symbolic id) = some v →
    (spanOf spans id).first ≤ pc ∧
      (pc ≤ (spanOf spans id).last → m'.frame (wordOf spans id) = some v)

variable {spans : List Span}

/-- Going forward keeps the agreement. -/
lemma Agrees.forward {pc pc' : Nat} {m m' : Machine σ} (h : Agrees spans pc m m') (hpc : pc ≤ pc') :
    Agrees spans pc' m m' := by
  refine ⟨h.state, h.reads, fun id hid v hv => ?_⟩
  obtain ⟨hfirst, hword⟩ := h.frame id hid v hv
  exact ⟨Nat.le_trans hfirst hpc, fun hlast => hword (Nat.le_trans hpc hlast)⟩

/-- A store reaches no word of another slot that is still needed. -/
lemma Agrees.store
    (hseparated : ∀ a < spans.length, ∀ b < spans.length, a ≠ b →
      (spanOf spans a).Meets (spanOf spans b) → wordOf spans a ≠ wordOf spans b)
    {pos : Nat} {m m' : Machine σ} (h : Agrees spans pos m m') {id : Nat} (hid : id < spans.length)
    (hfirst : (spanOf spans id).first ≤ pos) (hlast : pos + 7 ≤ (spanOf spans id).last)
    (v : Int64) :
    Agrees spans (pos + 7)
      { m with frame := Function.update m.frame (symbolic id) (some v) }
      { m' with frame := Function.update m'.frame (wordOf spans id) (some v) } := by
  refine ⟨h.state, h.reads, fun other hother w hw => ?_⟩
  by_cases heq : other = id
  · subst heq
    dsimp only at hw ⊢
    rw [Function.update_self] at hw ⊢
    exact ⟨Nat.le_add_right_of_le hfirst, fun _ => hw⟩
  · have hne : symbolic other ≠ symbolic id := fun hsame => heq (symbolic_injective hsame)
    dsimp only at hw
    rw [Function.update_of_ne hne] at hw
    obtain ⟨hstarted, hword⟩ := h.frame other hother w hw
    refine ⟨Nat.le_add_right_of_le hstarted, fun hlive => ?_⟩
    -- both spans contain the store
    have hmeets : (spanOf spans other).Meets (spanOf spans id) := ⟨by omega, by omega⟩
    have hother := hseparated other hother id hid heq hmeets
    dsimp only
    rw [Function.update_of_ne hother]
    exact hword (by omega)

/-- **A run before the layout is a run after it**, on whatever path the states choose. -/
theorem exec_relocated (r : Registers σ) (place : Int → Int)
    (hplace : ∀ id < spans.length, place (symbolic id) = wordOf spans id)
    (hsymbolic : ∀ id < spans.length, -2 ^ 31 ≤ symbolic id ∧ symbolic id < 2 ^ 31)
    (hbounds : ∀ id < spans.length, -2 ^ 31 ≤ wordOf spans id ∧ wordOf spans id < 2 ^ 31)
    (hseparated : ∀ a < spans.length, ∀ b < spans.length, a ≠ b →
      (spanOf spans a).Meets (spanOf spans b) → wordOf spans a ≠ wordOf spans b)
    {items : List (Emitted σ)} (pre pre' : List UInt8) (hpre : pre'.length = pre.length)
    (hcovered : Covered spans items pre.length) {pc : Nat} {m m' done : Machine σ}
    (hm : Agrees spans pc m m')
    (hrun : exec r (pre ++ encode id items) items pre.length pc m = some done) :
    ∃ done', exec r (pre' ++ encode place items) items pre.length pc m' = some done' ∧
      Agrees spans (pre ++ encode id items).length done done' := by
  induction items generalizing pre pre' pc m m' with
  | nil =>
      simp only [exec] at hrun ⊢
      split at hrun
      · rename_i hend
        cases hrun
        rw [if_pos hend]
        refine ⟨m', rfl, ?_⟩
        rw [hend] at hm
        simpa [encode] using hm
      · cases hrun
  | cons item items ih =>
      have hleft : pre ++ encode id (item :: items) = pre ++ item.bytes id ++ encode id items :=
        (List.append_assoc _ _ _).symm
      have hright : pre' ++ encode place (item :: items) =
          pre' ++ item.bytes place ++ encode place items := (List.append_assoc _ _ _).symm
      have hsame : (pre' ++ item.bytes place).length = (pre ++ item.bytes id).length := by
        rw [List.length_append, List.length_append, hpre]
        cases item <;> rfl
      have hrest : Covered spans items (pre ++ item.bytes id).length := by
        rw [List.length_append]
        cases item with
        | slot | raw | jump => exact hcovered
        | load | store => exact hcovered.2
      have hnext : ∀ (pc : Nat) (m m' : Machine σ), Agrees spans pc m m' →
          exec r (pre ++ item.bytes id ++ encode id items) items (pre ++ item.bytes id).length pc m =
            some done →
          ∃ done', exec r (pre' ++ item.bytes place ++ encode place items) items
              (pre ++ item.bytes id).length pc m' = some done' ∧
            Agrees spans (pre ++ item.bytes id ++ encode id items).length done done' :=
        fun _ _ _ hm hrun => ih _ _ hsame hrest hm hrun
      have huse : ∀ o ∈ usesFrom (item :: items) pre.length,
          word32 (pre ++ encode id (item :: items)) o.2 = le32 o.1 :=
        fun o ho => (word32_use id _ _ ho).1
      have huse' : ∀ o ∈ usesFrom (item :: items) pre.length,
          word32 (pre' ++ encode place (item :: items)) o.2 = le32 (place o.1) :=
        fun o ho => (word32_use place _ _ (hpre ▸ ho)).1
      rw [hleft] at hrun huse ⊢
      rw [hright] at huse' ⊢
      have hlen : (pre ++ item.bytes id).length = pre.length + (item.bytes id).length :=
        List.length_append
      rw [hlen] at hnext
      generalize pre ++ item.bytes id ++ encode id items = bytes at *
      generalize pre' ++ item.bytes place ++ encode place items = bytes' at *
      cases item with
      | slot => exact hnext pc m m' hm hrun
      | raw b run =>
          simp only [exec] at hrun ⊢
          split at hrun
          · rename_i hpc
            rw [if_pos hpc]
            refine hnext _ _ _ ?_ hrun
            have hforward := hm.forward (show pc ≤ pre.length + b.length by omega)
            exact ⟨congrArg run hforward.state, hforward.reads, hforward.frame⟩
          · rename_i hpc
            rw [if_neg hpc]
            exact hnext _ _ _ hm hrun
      | jump b taken skip =>
          simp only [exec] at hrun ⊢
          split at hrun
          · rename_i hpc
            rw [if_pos hpc, hm.state]
            refine hnext _ _ _ (hm.forward ?_) hrun
            omega
          · rename_i hpc
            rw [if_neg hpc]
            exact hnext _ _ _ hm hrun
      | load reg s =>
          obtain ⟨⟨id, hid, rfl, hfirst, hlast⟩, -⟩ := hcovered
          have hword := huse (symbolic id, pre.length + 3) List.mem_cons_self
          have hword' := huse' (symbolic id, pre.length + 3) List.mem_cons_self
          simp only [exec, hword, hword', hplace id hid, ofLe32_le32 (hsymbolic id hid).1
            (hsymbolic id hid).2, ofLe32_le32 (hbounds id hid).1 (hbounds id hid).2] at hrun ⊢
          split at hrun
          · rename_i hpc
            rw [if_pos hpc]
            cases hv : m.frame (symbolic id) with
            | none =>
                rw [hv] at hrun
                cases hrun
            | some v =>
                rw [hv] at hrun
                dsimp only at hrun
                have hread := (hm.frame id hid v hv).2 (by omega)
                rw [hread]
                have hforward := hm.forward (show pc ≤ pre.length + 7 by omega)
                have hloaded : Agrees spans (pre.length + 7)
                    { m with state := r.set reg v m.state, reads := m.reads ++ [v] }
                    { m' with state := r.set reg v m'.state, reads := m'.reads ++ [v] } :=
                  ⟨congrArg (r.set reg v) hforward.state, congrArg (· ++ [v]) hforward.reads,
                    hforward.frame⟩
                exact hnext _ _ _ hloaded hrun
          · rename_i hpc
            rw [if_neg hpc]
            exact hnext _ _ _ hm hrun
      | store reg s =>
          obtain ⟨⟨id, hid, rfl, hfirst, hlast⟩, -⟩ := hcovered
          have hword := huse (symbolic id, pre.length + 3) List.mem_cons_self
          have hword' := huse' (symbolic id, pre.length + 3) List.mem_cons_self
          simp only [exec, hword, hword', hplace id hid, ofLe32_le32 (hsymbolic id hid).1
            (hsymbolic id hid).2, ofLe32_le32 (hbounds id hid).1 (hbounds id hid).2] at hrun ⊢
          split at hrun
          · rename_i hpc
            have hstored : r.get reg m'.state = r.get reg m.state := congrArg _ hm.state
            rw [if_pos hpc, hstored]
            rw [hpc] at hm
            exact hnext _ _ _ (hm.store hseparated hid hfirst hlast _) hrun
          · rename_i hpc
            rw [if_neg hpc]
            exact hnext _ _ _ hm hrun

/-! ## The layout of a buffer -/

/-- The layout of an emitted buffer succeeds: it is that of the spans, and the buffer is the one
that its words would have given. -/
theorem layout_eq_ok (h : Emission items c) {inputs outputs : List Int} {spans : List Span}
    (hspans : c.spans inputs outputs = .ok spans)
    (hlength : spans.length = c.slots.length) :
    c.layout inputs outputs = .ok (layoutOf spans,
      { c with bytes := encode (fun s => wordOf spans (number s)) items }) := by
  obtain ⟨hbytes, huses, -, hmax⟩ := h.eq
  have hoffsets : (layoutOf spans).offsets.length = c.slots.length := by
    rw [← hlength, layoutOf]
    split <;> simp
  have hpatch : ∀ o ∈ c.operands, ∀ bytes, (do
      let offset ← (layoutOf spans).offset o.1
      return writeAt bytes o.2 (le32 offset) : Except String (List UInt8)) =
      .ok (writeAt bytes o.2 (le32 (wordOf spans (number o.1)))) := by
    intro o hmem bytes
    obtain ⟨⟨id', hid, heq⟩, -⟩ := h.use hmem
    rw [Layout.offset, heq, hoffsets, index_symbolic hid hmax, number_symbolic]
    rfl
  have hrelocated := relocate_eq (fun s => wordOf spans (number s)) items []
  unfold Code.layout
  refine Except.bind_eq_ok.mpr ⟨spans, hspans, ?_⟩
  refine Except.bind_eq_ok.mpr ⟨_, foldlM_eq_ok hpatch _, ?_⟩
  rw [huses, hbytes]
  simpa [pure, Except.pure] using hrelocated

/-- **Relocation.** For every emitted buffer whose inputs and outputs are allocated slots the layout
succeeds with spans, words and bytes such that
* an input starts with the code, every other slot where it is allocated, an output ends after the
  code, and every slot after its last use;
* slots whose spans meet have different words;
* there are as many words as slots are live at one position at most;
* where that saves nothing the words and the bytes are the symbolic ones;
* the bytes that are no displacement of a use are what they were, and the uses and the slots too;
* a run from written inputs is a run of the relocated code from the same inputs in their words: it
  reaches the same state, has loaded the same values and leaves the same outputs in their words. -/
theorem layout_preserves (r : Registers σ) (items : List (Emitted σ)) (c : Code)
    (inputs outputs : List Int) (h : Emission items c) (hi : Known c inputs)
    (ho : Known c outputs) :
    ∃ spans layout c', c.spans inputs outputs = .ok spans ∧
      c.layout inputs outputs = .ok (layout, c') ∧
      (∀ id < c.slots.length,
        (spanOf spans id).first =
            (if symbolic id ∈ inputs then 0 else (spanOf c.slots id).first) ∧
          (symbolic id ∈ outputs → (spanOf spans id).last = c.bytes.length + 1) ∧
          ∀ o ∈ c.operands, o.1 = symbolic id → o.2 + 4 ≤ (spanOf spans id).last) ∧
      (∀ a < c.slots.length, ∀ b < c.slots.length, a ≠ b →
        (spanOf spans a).Meets (spanOf spans b) →
        ∀ x y, layout.offset (symbolic a) = .ok x → layout.offset (symbolic b) = .ok y → x ≠ y) ∧
      ((∀ x, live spans x * 8 ≤ layout.bytes) ∧
        (layout.bytes = 0 ∨ ∃ x, live spans x * 8 = layout.bytes)) ∧
      (layout.bytes = c.slots.length * 8 →
        (∀ id < c.slots.length, layout.offset (symbolic id) = .ok (symbolic id)) ∧ c' = c) ∧
      (c'.slots = c.slots ∧ c'.operands = c.operands ∧ c'.bytes.length = c.bytes.length ∧
        ∀ pos, (∀ o ∈ c.operands, pos < o.2 ∨ o.2 + 4 ≤ pos) → c'.bytes[pos]? = c.bytes[pos]?) ∧
      ∀ (m m' done : Machine σ), m'.state = m.state → m'.reads = m.reads →
        (∀ id < c.slots.length, ∀ v, m.frame (symbolic id) = some v →
          symbolic id ∈ inputs ∧ ∀ x, layout.offset (symbolic id) = .ok x → m'.frame x = some v) →
        exec r c.bytes items 0 0 m = some done →
        ∃ done', exec r c'.bytes items 0 0 m' = some done' ∧ done'.state = done.state ∧
          done'.reads = done.reads ∧
          ∀ s ∈ outputs, ∀ v, done.frame s = some v →
            ∃ x, layout.offset s = .ok x ∧ done'.frame x = some v := by
  obtain ⟨hbytes, huses, hslots, hmax⟩ := h.eq
  obtain ⟨spans, hspans, hlength, hspan⟩ := spans_eq_ok h hi ho
  have hlayout := layout_eq_ok h hspans hlength
  have hordered : ∀ id < spans.length, (spanOf spans id).first ≤ (spanOf spans id).last :=
    fun id hid => (hspan id (hlength ▸ hid)).2.2.2
  have hoffsets : (layoutOf spans).offsets.length = c.slots.length := by
    rw [← hlength, layoutOf]
    split <;> simp
  have hoffset : ∀ id < c.slots.length,
      (layoutOf spans).offset (symbolic id) = .ok (wordOf spans id) := by
    intro id hid
    rw [Layout.offset, hoffsets, index_symbolic hid hmax]
    rfl
  have hseparated : ∀ a < spans.length, ∀ b < spans.length, a ≠ b →
      (spanOf spans a).Meets (spanOf spans b) → wordOf spans a ≠ wordOf spans b :=
    fun a ha b hb => layoutOf_separated hordered ha hb
  have hcovered : Covered spans items 0 := by
    refine covered_of_uses h.registered ?_ (fun id hid => absurd hid (Nat.not_lt_zero id)) ?_ ?_
    · rw [Nat.zero_add, ← hslots, hlength]
    · intro i s hs
      rw [← hslots] at hs
      obtain ⟨hi', hget⟩ := List.getElem?_eq_some_iff.mp hs
      have hfirst := (hspan i hi').1
      have hstart : (spanOf c.slots i).first = s.first := by
        rw [spanOf, List.getD_eq_getElem?_getD, hs]
        rfl
      rw [Nat.zero_add, hfirst, hstart]
      split
      · exact Nat.zero_le _
      · exact Nat.le_refl _
    · intro o hmem id hid heq
      exact (hspan id (hlength ▸ hid)).2.2.1 o (huses ▸ hmem) heq
  have hrelocated := relocate_eq (fun s => wordOf spans (number s)) items []
  rw [List.nil_append, List.nil_append, List.length_nil, ← hbytes, ← huses] at hrelocated
  refine ⟨spans, _, _, hspans, hlayout, ?_, ?_, layoutOf_bytes hordered, ?_, ?_, ?_⟩
  · intro id hid
    obtain ⟨hfirst, hout, huse, -⟩ := hspan id hid
    exact ⟨hfirst, hout, huse⟩
  · intro a ha b hb hne hmeets x y hx hy
    rw [hoffset a ha] at hx
    rw [hoffset b hb] at hy
    cases hx
    cases hy
    exact hseparated a (hlength ▸ ha) b (hlength ▸ hb) hne hmeets
  · intro hsame
    have hpeak : (scan spans).peak = spans.length := by
      have : (scan spans).peak * 8 = c.slots.length * 8 := hsame
      omega
    have hsymbolic : ∀ id < c.slots.length, wordOf spans id = symbolic id := by
      intro id hid
      rw [wordOf_eq (hlength ▸ hid), if_pos hpeak]
    refine ⟨fun id hid => by rw [hoffset id hid, hsymbolic id hid], ?_⟩
    have hplaces : ∀ o ∈ usesFrom items 0, wordOf spans (number o.1) = o.1 := by
      intro o hmem
      obtain ⟨⟨id', hid', heq⟩, -⟩ := h.use (huses ▸ hmem)
      rw [heq, number_symbolic, hsymbolic id' hid']
    have hencode : encode (fun s => wordOf spans (number s)) items = encode id items :=
      encode_congr hplaces
    rw [hencode, ← hbytes]
  · obtain ⟨hlen, hothers⟩ := foldl_writeAt (fun s => wordOf spans (number s))
      fun o hmem => (h.use hmem).2.2
    rw [hrelocated] at hlen hothers
    exact ⟨rfl, rfl, hlen, hothers⟩
  · intro m m' done hstate hreads hinputs hrun
    have hagrees : Agrees spans 0 m m' := by
      refine ⟨hstate, hreads, fun id hid v hv => ?_⟩
      obtain ⟨hinput, hword⟩ := hinputs id (hlength ▸ hid) v hv
      have hfirst := (hspan id (hlength ▸ hid)).1
      rw [if_pos hinput] at hfirst
      exact ⟨Nat.le_of_eq hfirst, fun _ => hword _ (hoffset id (hlength ▸ hid))⟩
    rw [hbytes] at hrun
    obtain ⟨done', hrun', hdone⟩ := exec_relocated r (fun s => wordOf spans (number s))
      (fun id _ => by rw [number_symbolic]) (fun id hid => symbolic_bounds (by omega))
      (fun id hid => wordOf_bounds (hlength ▸ hmax) hordered hid) hseparated [] [] rfl hcovered
      hagrees hrun
    refine ⟨done', hrun', hdone.state, hdone.reads, fun s hs v hv => ?_⟩
    obtain ⟨id, hid, rfl⟩ := ho s hs
    have hlast := (hspan id hid).2.1 hs
    have hframe := hdone.frame id (hlength ▸ hid) v hv
    rw [List.nil_append, ← hbytes] at hframe
    exact ⟨_, hoffset id hid, hframe.2 (by omega)⟩

/-- One register that is the whole state. -/
def oneRegister : Registers Int64 := ⟨fun _ s => s, fun _ v _ => v⟩

/-- Two slots, the second allocated after the last use of the first, and a jump over its load. -/
def twoWords : List (Emitted Int64) :=
  [.raw [0x48, 0xb8, 7, 0, 0, 0, 0, 0, 0, 0] fun _ => 7, .slot, .store 0 (symbolic 0),
    .load 0 (symbolic 0), .slot, .store 0 (symbolic 1), .jump [0xeb, 7] (· == 0) 7,
    .load 0 (symbolic 1)]

/-- The two slots are laid out, and the run that takes no jump is kept. -/
theorem layout_preserves_two :
    ∃ c, Emission twoWords c ∧ ∃ layout c', c.layout [] [symbolic 1] = .ok (layout, c') ∧
      ∃ done', exec oneRegister c'.bytes twoWords 0 0 ⟨0, fun _ => none, []⟩ = some done' ∧
        done'.reads = [7, 7] := by
  have hemission : Emission twoWords (twoWords.foldl (fun c i => (c.emit i).toOption.getD c) {}) :=
    ⟨rfl, ⟨0, by decide, rfl⟩, ⟨0, by decide, rfl⟩, ⟨1, by decide, rfl⟩, ⟨1, by decide, rfl⟩,
      trivial⟩
  have hknown : Known (twoWords.foldl (fun c i => (c.emit i).toOption.getD c) {})
      [symbolic 1] := by
    intro s hs
    rw [List.mem_singleton.mp hs]
    exact ⟨1, by decide, rfl⟩
  obtain ⟨spans, layout, c', -, hlayout, -, -, -, -, -, hrun⟩ :=
    layout_preserves oneRegister twoWords _ [] [symbolic 1] hemission (fun _ h => by cases h) hknown
  refine ⟨_, hemission, layout, c', hlayout, ?_⟩
  obtain ⟨done', hdone, -, hreads, -⟩ := hrun ⟨0, fun _ => none, []⟩ ⟨0, fun _ => none, []⟩ _ rfl rfl
    (fun _ _ _ h => by cases h) rfl
  exact ⟨done', hdone, hreads⟩

end Verbosec.Native.Slots
