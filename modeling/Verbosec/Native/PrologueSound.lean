import Verbosec.Native.Prologue

/-!
# Declared bounds hold before any use

* `loadField_fits` - what a load stores is declared, where its number is checked or declared.
* `Inv` - the slots that are loaded so far are declared; nothing is written before the code of an
  element.
* `step_inv` - a step from a state whose next argument is declared keeps the invariant.
* `bounds_hold` - in every run of such steps the code of an expression finds declared values.
-/

namespace Verbosec.Native.Prologue

open Verbosec.Lib

/-! ## Loads -/

lemma inRange_iff {range : Option (Int64 × Int64)} {n : Int64} :
    inRange range n = true ↔ ∀ low high, range = some (low, high) → low ≤ n ∧ n ≤ high := by
  rcases range with _ | ⟨low, high⟩
  · simp [inRange]
  · simp only [inRange, Bool.and_eq_true, decide_eq_true_eq, Option.some.injEq, Prod.mk.injEq]
    constructor
    · rintro h low' high' ⟨rfl, rfl⟩
      exact h
    · exact fun h => h low high ⟨rfl, rfl⟩

/-- A text whose end is found is not longer than declared. -/
lemma length_le_of_withinBudget {max : Int64} {bytes : List UInt8} (hpos : 0 < max.toInt)
    (h : withinBudget max bytes = true) : (bytes.length : Int) ≤ max.toInt := by
  have hmax := toInt_le_maxI64 max
  rw [withinBudget, Bool.or_eq_true, decide_eq_true_eq, decide_eq_true_eq] at h
  simp only [scanBudget, maxI64] at h hmax
  omega

/-- What a load stores is declared. -/
lemma loadField_fits {checks : Checks} {f : Field} {w : Word} {slot : Slot}
    (hpos : ∀ max, textFieldDeclaredMax f = some max → 0 < max.toInt)
    (hdeclared : checks.range = true ∨ WordFits checks f w)
    (h : loadField checks f w = .slot slot) : Fits (f, slot) := by
  unfold loadField at h
  split at h
  · rename_i hty
    split at h
    · cases h
    · rename_i bytes
      split at h
      · cases h
      · rename_i n hread
        split_ifs at h with habort
        cases h
        refine ⟨hty, inRange_iff.mp ?_⟩
        rcases hdeclared with hrange | hfits
        · simpa [hrange] using habort
        · exact hfits hty bytes n rfl hread
  · rename_i hty
    split at h
    · rename_i hnone
      cases h
      exact ⟨hty, fun max hmax => by rw [hnone] at hmax; cases hmax⟩
    · cases h
    · rename_i max bytes hmax
      split_ifs at h with hwithin
      cases h
      refine ⟨hty, fun max' hmax' => ⟨bytes, rfl, ?_⟩⟩
      rw [hmax] at hmax'
      cases hmax'
      exact length_le_of_withinBudget (hpos max hmax) hwithin

/-- Without checks on numbers a load is refused on a text over its bound only. -/
lemma not_abort_of_withinBound {f : Field} {w : Word} (h : WithinBound f w) :
    loadField {} f w ≠ .abort := by
  intro habort
  unfold loadField at habort
  split at habort
  · split at habort
    · cases habort
    · split at habort
      · rename_i hread
        cases hread
      · cases habort
  · split at habort
    · cases habort
    · cases habort
    · rename_i max bytes hmax
      rw [if_pos (h max bytes hmax rfl)] at habort
      cases habort

/-! ## The invariant -/

/-- Some fields are loaded and some are left. -/
def Loading (fields : List Field) (slots : List (Field × Slot)) (rest : List Field) : Prop :=
  slots.map (·.1) ++ rest = fields ∧ ∀ e ∈ slots, Fits e

lemma loading_nil {fields : List Field} : Loading fields [] fields := ⟨rfl, by simp⟩

lemma Loading.holds {fields : List Field} {slots : List (Field × Slot)}
    (h : Loading fields slots []) : Holds fields slots := by
  rw [Loading, List.append_nil] at h
  exact h

lemma Loading.store {fields rest : List Field} {slots : List (Field × Slot)} {f : Field} {slot : Slot}
    (h : Loading fields slots (f :: rest)) (hfits : Fits (f, slot)) :
    Loading fields (slots ++ [(f, slot)]) rest := by
  refine ⟨by rw [← h.1]; simp, fun e he => ?_⟩
  rcases List.mem_append.mp he with he | he
  · exact h.2 e he
  · rw [List.mem_singleton.mp he]
    exact hfits

lemma Loading.mem {fields rest : List Field} {slots : List (Field × Slot)} {f : Field}
    (h : Loading fields slots (f :: rest)) : f ∈ fields := by
  rw [← h.1]
  simp

/-- The slots that are loaded so far are declared, and nothing is written before there is the code of
an element. -/
def Inv (p : Plan) (s : State) : Prop :=
  match s.phase with
  | .start => s.context = [] ∧ s.printed = false
  | .context rest => Loading p.context s.context rest ∧ s.printed = false
  | .resource | .top => Holds p.context s.context
  | .input rest => Holds p.context s.context ∧ Loading p.input s.input rest ∧ s.printed = false
  | .lets | .count => Holds p.context s.context ∧ Holds p.input s.input
  | .elements | .value => Holds p.context s.context ∧ Holds p.input s.input
  | .element rest => Holds p.context s.context ∧ Holds p.input s.input ∧
      Loading (p.element.getD []) s.element rest
  | .body => Holds p.context s.context ∧ Holds p.input s.input ∧
      Holds (p.element.getD []) s.element
  | .refused => s.printed = false
  | .exited _ | .faulted => True

/-- The bounds of texts are positive in all fields of a plan. -/
def Plan.Parsed (p : Plan) : Prop :=
  Prologue.Parsed p.context ∧ Prologue.Parsed p.input ∧ Prologue.Parsed (p.element.getD [])

variable {p : Plan} {words : Nat → Word} {argc : Nat} {s s' : State}

lemma step_inv (hparsed : p.Parsed) (hdeclared : Declared p words s) (h : Step p words argc s s')
    (hinv : Inv p s) : Inv p s' := by
  obtain ⟨hcontext, hinput, helement⟩ := hparsed
  cases h with
  | few hphase h => trivial
  | enough hphase h =>
      simp only [Inv, hphase] at hinv ⊢
      exact ⟨hinv.1 ▸ loading_nil, hinv.2⟩
  | @context f rest hphase =>
      simp only [Inv, Declared, hphase] at hinv hdeclared
      rcases hload : loadField {} f (words s.arg) with slot | _ | _
      · have hfits := loadField_fits (hcontext f hinv.1.mem) (Or.inr hdeclared) hload
        exact ⟨hinv.1.store hfits, hinv.2⟩
      · exact hinv.2
      · trivial
  | contextDone hphase =>
      simp only [Inv, hphase] at hinv ⊢
      exact hinv.1.holds
  | resource hphase =>
      simp only [Inv, hphase] at hinv ⊢
      exact hinv
  | resourceFailed hphase => trivial
  | done hphase h => trivial
  | partialRecord hphase h hstrict => rfl
  | next hphase h hstrict =>
      simp only [Inv, hphase] at hinv ⊢
      exact ⟨hinv, loading_nil, trivial⟩
  | @input f rest hphase =>
      simp only [Inv, Declared, hphase] at hinv hdeclared
      obtain ⟨hctx, hloading, hprinted⟩ := hinv
      rcases hload : loadField p.checks f (words s.arg) with slot | _ | _
      · have hfits := loadField_fits (hinput f hloading.mem) hdeclared hload
        exact ⟨hctx, hloading.store hfits, hprinted⟩
      · exact hprinted
      · trivial
  | inputDone hphase =>
      simp only [Inv, hphase] at hinv ⊢
      exact ⟨hinv.1, hinv.2.1.holds⟩
  | expressionExits hphase => trivial
  | lets hphase =>
      simp only [Inv, hphase] at hinv
      rw [Inv]
      dsimp only
      split_ifs
      · exact hinv
      · exact hinv
  | count hphase hword =>
      simp only [Inv, hphase] at hinv ⊢
      exact hinv
  | countFaults hphase hword => trivial
  | noElement hphase h =>
      simp only [Inv, hphase] at hinv ⊢
      exact hinv
  | nextElement hphase h =>
      simp only [Inv, hphase] at hinv ⊢
      exact ⟨hinv.1, hinv.2, loading_nil⟩
  | @element f rest hphase =>
      simp only [Inv, Declared, hphase] at hinv hdeclared
      obtain ⟨hctx, hholds, hloading⟩ := hinv
      obtain ⟨hfits, hbound⟩ := hdeclared
      rcases hload : loadField {} f (words s.arg) with slot | _ | _
      · have hfits := loadField_fits (helement f hloading.mem) (Or.inr hfits) hload
        exact ⟨hctx, hholds, hloading.store hfits⟩
      · -- a text over its bound is met before anything is written
        refine Bool.eq_false_iff.mpr fun hprinted => ?_
        exact not_abort_of_withinBound (hbound hprinted) hload
      · trivial
  | elementDone hphase =>
      simp only [Inv, hphase] at hinv ⊢
      exact ⟨hinv.1, hinv.2.1, hinv.2.2.holds⟩
  | body hphase hkept hprinted =>
      simp only [Inv, hphase] at hinv ⊢
      exact ⟨hinv.1, hinv.2.1⟩
  | value hphase =>
      simp only [Inv, hphase] at hinv
      rw [Inv]
      dsimp only
      split_ifs
      · exact hinv.1
      · trivial

lemma Inv.sound (h : Inv p s) : Sound p s := by
  cases hphase : s.phase <;> simp only [Inv, Sound, hphase] at h ⊢
  all_goals exact h

/-! ## Runs -/

/-- In every run whose loads meet declared arguments, the code of an expression finds declared
values. -/
lemma sound_of_declared (hparsed : p.Parsed) (h : (declaredMachine p words argc).Reachable s) :
    Sound p s := by
  refine Inv.sound (h.invariant ?_ ?_)
  · rintro s rfl
    exact ⟨rfl, rfl⟩
  · rintro s s' - hinv ⟨hdeclared, hstep⟩
    exact step_inv hparsed hdeclared hstep hinv

/-- Where all numbers are checked, every argument is as good as declared. -/
lemma declared_of_checked (hrange : p.checks.range = true) (helement : p.element = none)
    (hcontext : ∀ f ∈ p.context, f.ty = .number → f.range = none) (hinv : Inv p s) :
    Declared p words s := by
  unfold Declared
  split
  · rename_i f rest hphase
    simp only [Inv, hphase] at hinv
    intro hty bytes n _ _
    rw [hcontext f hinv.1.mem hty]
    rfl
  · exact Or.inl hrange
  · rename_i f rest hphase
    simp only [Inv, hphase, helement] at hinv
    exact absurd hinv.2.2.mem List.not_mem_nil
  · trivial

/-- Is the program the loop over records, whose prologue checks numbers? -/
def Emitter.isRecordLoop : Emitter → Bool
  | full _ | selfRecursive | text | bytes | result | record | reaction | bounded _ | boundedText _ =>
    true
  | fold | multiFold | collection _ | textFold | foldBytes => false

lemma checked_of_isRecordLoop {e : Emitter} {concepts : List Concept} {inputName : String}
    {input : Concept} (he : e.isRecordLoop) (hplan : e.plan concepts inputName input = some p) :
    p.checks.range = true ∧ p.element = none := by
  have hprologue : ∀ context strict,
      emitRecordLoopPrologue context inputName input strict = some p →
        p.checks.range = true ∧ p.element = none := by
    intro context strict h
    unfold emitRecordLoopPrologue at h
    dsimp only at h
    split_ifs at h <;> cases h <;> exact ⟨rfl, rfl⟩
  cases e <;> first | exact hprologue _ _ hplan | cases he

/-- An age in a declared range. -/
def age : Field := { name := "age", ty := .number, range := some (0, 150) }

/-- A record with an age. -/
def person : Concept := { name := "Person", fields := [age] }

/-- The arguments of a program: its name, an age of 200 and no notes. -/
def oldAge : Nat → Word
  | 0 => some [97]
  | 1 => some [50, 48, 48]
  | 2 => some [48]
  | _ => none

lemma person_parsed : (Plan.mk [] [age] { range := true } none false true).Parsed := by
  refine ⟨fun f hf => (nomatch hf), fun f hf max hmax => ?_, fun f hf => (nomatch hf)⟩
  rw [List.mem_singleton.mp hf] at hmax
  cases hmax

/-- A record with an age and a list of notes. -/
def visit : Concept :=
  { name := "Visit", fields := [age, { name := "notes", ty := .collection "Note" }] }

/-- A record with a text. -/
def noteConcept : Concept := { name := "Note", fields := [{ name := "t", ty := .text }] }

/-- The plan of a fold over the notes. -/
def visitPlan : Plan :=
  { input := [age], element := some [{ name := "t", ty := .text }] }

/-- An age of 200 reaches the code of the lets of a fold. -/
lemma oldAge_reached :
    (machine visitPlan oldAge 3).Reachable
      { phase := .lets, arg := 2, input := [(age, .number 200)] } := by
  have hinit : (machine visitPlan oldAge 3).Reachable {} := System.Reachable.init rfl
  have htop := ((hinit.step (.enough rfl (by decide))).step (.contextDone rfl)).step (.resource rfl)
  have hinput := (htop.step (.next rfl (by decide) (by decide))).step (.input rfl)
  exact hinput.step (.inputDone rfl)

end Verbosec.Native.Prologue
