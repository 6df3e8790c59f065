import Mathlib.Data.List.Nodup

/-!
# Finite maps as association lists

* `Dict κ α` - a map from keys to values, the newest entry first; `List.lookup` reads it.
* `Dict.insert`, `Dict.erase`, `Dict.has` - update, removal and membership.
* `lookup_insert`, `lookup_erase` - what a lookup sees after each of them. Nothing else about the
  order of the entries is used.
* `lookup_reverse_of_nodup` - with distinct keys it does not matter from which end a table is read.
-/

namespace Verbosec.Lib

/-- A finite map from `κ` to `α`, as an association list read from the front. -/
abbrev Dict (κ α : Type*) := List (κ × α)

namespace Dict

variable {κ α β : Type*} [DecidableEq κ]

/-- The map with `k` bound to `v`, hiding any earlier binding. -/
def insert (d : Dict κ α) (k : κ) (v : α) : Dict κ α := (k, v) :: d

/-- The map without `k`. -/
def erase (d : Dict κ α) (k : κ) : Dict κ α := d.filter fun p => p.1 ≠ k

/-- Is `k` bound? -/
def has (d : Dict κ α) (k : κ) : Bool := (d.lookup k).isSome

@[simp] theorem lookup_insert_self (d : Dict κ α) (k : κ) (v : α) :
    (d.insert k v).lookup k = some v := by
  simp [insert]

theorem lookup_insert_of_ne (d : Dict κ α) {k k' : κ} (v : α) (h : k' ≠ k) :
    (d.insert k v).lookup k' = d.lookup k' := by
  simp [insert, List.lookup_cons, beq_false_of_ne h]

/-- A lookup after an insertion. -/
theorem lookup_insert (d : Dict κ α) (k k' : κ) (v : α) :
    (d.insert k v).lookup k' = if k' = k then some v else d.lookup k' := by
  split
  · rename_i h
    rw [h, lookup_insert_self]
  · rename_i h
    exact lookup_insert_of_ne d v h

/-- A lookup in a table whose entries are all rewritten. -/
lemma lookup_map_entries {κ' : Type*} [DecidableEq κ'] {key : κ → κ'}
    (hkey : Function.Injective key) (g : α → β) (d : Dict κ α) (k : κ) :
    List.lookup (key k) (d.map fun e => (key e.1, g e.2)) = (d.lookup k).map g := by
  induction d with
  | nil => rfl
  | cons e d ih =>
      obtain ⟨a, v⟩ := e
      simp only [List.map_cons, List.lookup_cons, ih]
      by_cases h : k = a
      · simp [h]
      · simp [beq_false_of_ne h, beq_false_of_ne (hkey.ne h)]

/-- A lookup after a removal. -/
theorem lookup_erase (d : Dict κ α) (k k' : κ) :
    (d.erase k).lookup k' = if k' = k then none else d.lookup k' := by
  induction d with
  | nil => simp [erase]
  | cons p d ih =>
      obtain ⟨a, v⟩ := p
      unfold erase at ih ⊢
      by_cases ha : a = k
      · subst ha
        rw [List.filter_cons_of_neg (by simp), ih]
        split
        · rfl
        · rename_i h
          simp [List.lookup_cons, beq_false_of_ne h]
      · rw [List.filter_cons_of_pos (by simpa using ha)]
        simp only [List.lookup_cons, ih]
        by_cases hk : k' = a
        · subst hk
          simp [ha]
        · simp [beq_false_of_ne hk]

theorem has_eq_true {d : Dict κ α} {k : κ} : d.has k = true ↔ ∃ v, d.lookup k = some v := by
  simp [has, Option.isSome_iff_exists]

theorem has_eq_false {d : Dict κ α} {k : κ} : d.has k = false ↔ d.lookup k = none := by
  simp [has]

/-- What a lookup returns is an entry. -/
theorem mem_of_lookup {d : Dict κ α} {k : κ} {v : α} (h : d.lookup k = some v) : (k, v) ∈ d := by
  obtain ⟨l₁, l₂, rfl, -⟩ := List.lookup_eq_some_iff.mp h
  simp

/-- With distinct keys a lookup finds exactly the entries. -/
theorem lookup_eq_some_of_nodup {d : Dict κ α} (h : (d.map (·.1)).Nodup) {k : κ} {v : α} :
    d.lookup k = some v ↔ (k, v) ∈ d := by
  refine ⟨mem_of_lookup, fun hmem => ?_⟩
  induction d with
  | nil => cases hmem
  | cons p d ih =>
      obtain ⟨a, w⟩ := p
      rw [List.map_cons, List.nodup_cons] at h
      rcases List.mem_cons.mp hmem with heq | htail
      · cases heq
        simp
      · have hne : k ≠ a := by
          rintro rfl
          exact h.1 (List.mem_map.mpr ⟨_, htail, rfl⟩)
        rw [List.lookup_cons, beq_false_of_ne hne]
        exact ih h.2 htail

end Dict

/-- With distinct keys an element is found under its key. -/
theorem find?_of_nodup {κ α : Type*} [DecidableEq κ] (f : α → κ) {l : List α}
    (h : (l.map f).Nodup) {a : α} (ha : a ∈ l) : l.find? (f · = f a) = some a := by
  obtain ⟨c, hc⟩ : ∃ c, l.find? (f · = f a) = some c := by
    rw [← Option.isSome_iff_exists, List.find?_isSome]
    exact ⟨a, ha, by simp⟩
  have hfc : f c = f a := by simpa using List.find?_some hc
  rw [hc, List.inj_on_of_nodup_map h (List.mem_of_find?_eq_some hc) ha hfc]

/-- With distinct keys the last entry of a key is the first element with that key. -/
theorem lookup_reverse_of_nodup {κ α : Type*} [DecidableEq κ] (f : α → κ) {l : List α}
    (h : (l.map f).Nodup) (k : κ) :
    (l.map fun a => (f a, a)).reverse.lookup k = l.find? (f · = k) := by
  have hkeys : ((l.map fun a => (f a, a)).reverse.map (·.1)).Nodup := by
    rw [List.map_reverse, List.nodup_reverse, List.map_map]
    exact h
  apply Option.ext
  intro a
  rw [Dict.lookup_eq_some_of_nodup hkeys, List.mem_reverse, List.mem_map]
  constructor
  · rintro ⟨b, hb, heq⟩
    cases heq
    exact find?_of_nodup f h hb
  · intro ha
    have hfa : f a = k := by simpa using List.find?_some ha
    exact ⟨a, List.mem_of_find?_eq_some ha, by rw [hfa]⟩

end Verbosec.Lib
