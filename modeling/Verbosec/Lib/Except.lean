import Mathlib.Data.List.Forall2

/-!
# `Except` computations

* `bind_eq_ok`, `map_eq_ok` - what a successful sequence or map says about its parts.
* `mapM_eq_ok` - a successful traversal relates the list to its results element by element.
* `Within E P x` - the two-sided postcondition of a computation: its result satisfies `P`, or its
  failure satisfies `E`.
-/

namespace Verbosec.Lib

namespace Except

universe u

variable {ε : Type*} {α β : Type u}

/-- A successful sequence has a successful first part. -/
theorem bind_eq_ok {x : Except ε α} {f : α → Except ε β} {b : β} :
    (x >>= f) = .ok b ↔ ∃ a, x = .ok a ∧ f a = .ok b := by
  cases x with
  | error e =>
      constructor
      · intro h
        cases h
      · rintro ⟨a, h, -⟩
        cases h
  | ok a =>
      constructor
      · exact fun h => ⟨a, rfl, h⟩
      · rintro ⟨a', h, h'⟩
        cases h
        exact h'

/-- A successful map has a successful argument. -/
theorem map_eq_ok {x : Except ε α} {f : α → β} {b : β} :
    x.map f = .ok b ↔ ∃ a, x = .ok a ∧ f a = b := by
  cases x <;> simp [Except.map]

/-- A successful traversal relates the list to its results element by element. -/
theorem mapM_eq_ok {f : α → Except ε β} {l : List α} {bs : List β} :
    l.mapM f = .ok bs ↔ List.Forall₂ (fun a b => f a = .ok b) l bs := by
  induction l generalizing bs with
  | nil =>
      rw [List.mapM_nil, List.forall₂_nil_left_iff]
      constructor
      · rintro ⟨⟩
        rfl
      · rintro rfl
        rfl
  | cons a l ih =>
      rw [List.mapM_cons, bind_eq_ok]
      constructor
      · rintro ⟨b, hb, h⟩
        obtain ⟨bs', hbs, h⟩ := bind_eq_ok.mp h
        cases h
        exact .cons hb (ih.mp hbs)
      · rintro (_ | ⟨hb, hbs⟩)
        exact ⟨_, hb, bind_eq_ok.mpr ⟨_, ih.mpr hbs, rfl⟩⟩

/-- Every element of a successfully traversed list has its result. -/
theorem exists_of_mapM_eq_ok {f : α → Except ε β} {l : List α} {bs : List β}
    (h : l.mapM f = .ok bs) {a : α} (ha : a ∈ l) : ∃ b ∈ bs, f a = .ok b := by
  have h' := mapM_eq_ok.mp h
  induction h' with
  | nil => cases ha
  | cons hb _ ih =>
      rcases List.mem_cons.mp ha with rfl | ha
      · exact ⟨_, List.mem_cons_self, hb⟩
      · obtain ⟨b, hmem, hb⟩ := ih (mapM_eq_ok.mpr ‹_›) ha
        exact ⟨b, List.mem_cons_of_mem _ hmem, hb⟩

/-- Every result of a successful traversal comes from an element. -/
theorem mem_of_mapM_eq_ok {f : α → Except ε β} {l : List α} {bs : List β}
    (h : l.mapM f = .ok bs) {b : β} (hb : b ∈ bs) : ∃ a ∈ l, f a = .ok b := by
  have h' := mapM_eq_ok.mp h
  induction h' with
  | nil => cases hb
  | cons ha _ ih =>
      rcases List.mem_cons.mp hb with rfl | hb
      · exact ⟨_, List.mem_cons_self, ha⟩
      · obtain ⟨a, hmem, ha⟩ := ih (mapM_eq_ok.mpr ‹_›) hb
        exact ⟨a, List.mem_cons_of_mem _ hmem, ha⟩

/-- A successful loop has succeeded on every element. -/
theorem forM_eq_ok {f : α → Except ε PUnit} {l : List α} :
    l.forM f = .ok ⟨⟩ ↔ ∀ a ∈ l, f a = .ok ⟨⟩ := by
  induction l with
  | nil => simp [pure, Except.pure]
  | cons a l ih =>
      show (f a >>= fun _ => l.forM f) = _ ↔ _
      rw [bind_eq_ok, List.forall_mem_cons, ← ih]
      constructor
      · rintro ⟨⟨⟩, ha, hl⟩
        exact ⟨ha, hl⟩
      · rintro ⟨ha, hl⟩
        exact ⟨⟨⟩, ha, hl⟩

end Except

/-! ## Postconditions -/

section Within

variable {ε α β : Type} {E E' : ε → Prop} {P P' : α → Prop} {Q : β → Prop}

/-- A result satisfies `P`, a failure satisfies `E`. -/
def Within (E : ε → Prop) (P : α → Prop) : Except ε α → Prop
  | .ok a => P a
  | .error e => E e

@[simp] lemma within_ok {a : α} : Within E P (.ok a : Except ε α) ↔ P a := Iff.rfl

@[simp] lemma within_error {e : ε} : Within E P (.error e : Except ε α) ↔ E e := Iff.rfl

/-- Weaker postconditions hold too. -/
theorem Within.mono {x : Except ε α} (h : Within E P x) (hE : ∀ e, E e → E' e)
    (hP : ∀ a, P a → P' a) : Within E' P' x := by
  cases x with
  | ok a => exact hP a h
  | error e => exact hE e h

/-- A sequence inherits the failures of its parts. -/
theorem Within.bind {x : Except ε α} {f : α → Except ε β} (hx : Within E P x)
    (hf : ∀ a, x = .ok a → P a → Within E Q (f a)) : Within E Q (x >>= f) := by
  cases x with
  | ok a => exact hf a rfl hx
  | error e => exact hx

/-- A computation that succeeds within `P`. -/
theorem Within.of_ok {x : Except ε α} {a : α} (h : x = .ok a) (ha : P a) : Within E P x := h ▸ ha

end Within

end Verbosec.Lib
