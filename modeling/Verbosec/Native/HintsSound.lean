import Verbosec.Native.Hints
import Mathlib.Tactic.Linarith

/-!
# Hints and the run of a rule

* `report` - the printing loop over the outcomes of records, and how it splits.
* `fullLoop_eq`, `processLoop_eq` - the loops are reports: the program without a hint over the
  outcomes after the range checks, the one of two processes over those of the logic alone.
* `SameStop` - when the program of two processes shows what the program without a hint shows.
* `hints_keep_run` - the three programs compared, for every command line and outcome of `fork`.
* `hints_change_run` - a word outside its declared range is answered.

The program of two processes and that of two lanes have no range check, no code for the lets and
none for a context. Where a rule needs none of them, they agree on command lines of complete records
in range whose evaluation does not fault, when `fork` succeeds.
-/

namespace Verbosec.Native.Hinted

open Verbosec.Lib Verbosec.Interpreter

/-! ## The printing loop -/

/-- The lines of a list of results. -/
def lines (isBool : Bool) (values : List Int64) : List UInt8 :=
  values.flatMap fun v => (printResult isBool v false).1

/-- The flag after a list of results. -/
def flags (isBool : Bool) (values : List Int64) (flag : Bool) : Bool :=
  flag || (isBool && values.any fun v => v.toInt8 == 0)

/-- The printing loop over the outcomes of records. -/
def report (isBool : Bool) : List (Except Death Int64) → Bool → Half
  | [], flag => ⟨[], .ok flag⟩
  | .error d :: _, _ => ⟨[], .error d⟩
  | .ok rax :: rest, flag =>
    let printed := printResult isBool rax flag
    (report isBool rest printed.2).after printed.1

/-- The flag has no part in what is printed, and a false raises it. -/
lemma printResult_eq (isBool : Bool) (rax : Int64) (flag : Bool) :
    printResult isBool rax flag =
      ((printResult isBool rax false).1, flag || (isBool && rax.toInt8 == 0)) := by
  unfold printResult boolArms
  cases isBool <;> cases hz : (rax.toInt8 == 0) <;> simp

/-- A result prints something. -/
lemma printResult_ne_nil (isBool : Bool) (rax : Int64) :
    (printResult isBool rax false).1 ≠ [] := by
  unfold printResult boolArms itoa
  split
  · split
    · decide +kernel
    · decide +kernel
  · simp

@[simp] lemma Half.after_nil (h : Half) : h.after [] = h := rfl

@[simp] lemma Half.after_after (h : Half) (s t : List UInt8) :
    (h.after s).after t = h.after (t ++ s) := by
  simp [Half.after]

@[simp] lemma Half.after_stdout (h : Half) (s : List UInt8) : (h.after s).stdout = s ++ h.stdout :=
  rfl

@[simp] lemma Half.after_ending (h : Half) (s : List UInt8) : (h.after s).ending = h.ending := rfl

lemma lines_append (isBool : Bool) (xs ys : List Int64) :
    lines isBool (xs ++ ys) = lines isBool xs ++ lines isBool ys := List.flatMap_append

/-- Only no results print nothing. -/
lemma lines_eq_nil {isBool : Bool} {values : List Int64} (h : lines isBool values = []) :
    values = [] := by
  match values with
  | [] => rfl
  | v :: rest =>
      have hv : (printResult isBool v false).1 ++ lines isBool rest = [] := h
      exact absurd (List.append_eq_nil_iff.mp hv).1 (printResult_ne_nil isBool v)

/-- The flag that a loop starts with is not printed. -/
lemma report_stdout (isBool : Bool) (outcomes : List (Except Death Int64)) (flag flag' : Bool) :
    (report isBool outcomes flag).stdout = (report isBool outcomes flag').stdout := by
  induction outcomes generalizing flag flag' with
  | nil => rfl
  | cons o outcomes ih =>
      cases o with
      | error d => rfl
      | ok rax =>
          simp only [report, printResult_eq isBool rax flag, printResult_eq isBool rax flag',
            Half.after_stdout]
          rw [ih]

/-- Results are printed one by one up to the first death. -/
lemma report_append (isBool : Bool) (values : List Int64) (rest : List (Except Death Int64))
    (flag : Bool) :
    report isBool (values.map .ok ++ rest) flag =
      (report isBool rest (flags isBool values flag)).after (lines isBool values) := by
  induction values generalizing flag with
  | nil => simp [flags, lines]
  | cons v values ih =>
      have hflag : flags isBool values (flag || (isBool && v.toInt8 == 0)) =
          flags isBool (v :: values) flag := by
        simp only [flags, List.any_cons, Bool.or_assoc, Bool.and_or_distrib_left]
      simp only [List.map_cons, List.cons_append, report]
      rw [ih, printResult_eq, hflag, Half.after_after]
      rfl

/-- A loop that answers every record. -/
lemma report_values (isBool : Bool) (values : List Int64) (flag : Bool) :
    report isBool (values.map .ok) flag = ⟨lines isBool values, .ok (flags isBool values flag)⟩ := by
  have h := report_append isBool values [] flag
  simpa [report, Half.after] using h

/-! ## The records of a command line -/

/-- The words from record `i` on. -/
def Entry.wordsFrom (e : Entry) (p : Process) (i : Nat) : List Int64 :=
  p.parsed.drop (i * e.fields.length)

/-- The number of complete records. -/
def Entry.records (e : Entry) (p : Process) : Nat := p.parsed.length / e.fields.length

/-- The words are within the declared ranges. -/
def inRange (fields : List Field) (values : List Int64) : Bool :=
  (fields.zip values).all fun x => boundsCheck x.1.range x.2

/-- The names of the fields with their words. -/
def named (fields : List Field) (values : List Int64) : List (String × Int64) :=
  (fields.zip values).map fun x => (x.1.name, x.2)

/-- What the logic gives for record `i`. -/
def Entry.logicOn (e : Entry) (p : Process) (i : Nat) : Except Death Int64 :=
  e.code e.rule.logic.value (frameOf (named e.fields (e.wordsFrom p i)))

/-- What the program without a hint makes of record `i`: the words are checked first. -/
def Entry.checkedOn (e : Entry) (p : Process) (i : Nat) : Except Death Int64 :=
  if inRange e.fields (e.wordsFrom p i) then e.logicOn p i else .error .abort

/-- What it makes of words that are too few for a record: it reads on into the null pointer, if no
range check stops it before. -/
def Entry.leftover (e : Entry) (p : Process) : List (Except Death Int64) :=
  if p.parsed.length % e.fields.length = 0 then []
  else [.error (if inRange e.fields (e.wordsFrom p (e.records p)) then .signal 11 else .abort)]

/-- A rule over numbers alone, without lets, and few enough that one byte names each slot. -/
structure Entry.Plain (e : Entry) : Prop where
  /-- there are no lets -/
  lets : e.rule.logic.bindings = []
  /-- there is no context -/
  context : e.context = []
  /-- the fields are numbers -/
  numbers : ∀ f ∈ e.fields, f.ty = .number
  /-- one byte names each slot -/
  narrow : e.fields.length ≤ 16

variable {e : Entry} {p : Process}

lemma parsed_length (p : Process) : p.parsed.length = p.args.length - 1 := by
  simp [Process.parsed]

/-- The words of number fields, checked in order; the null pointer ends them. -/
lemma loadFields_numbers {fields : List Field} (hnum : ∀ f ∈ fields, f.ty = .number) {j : Nat}
    (hj : j < p.args.length) :
    loadFields p true (j + 1) fields =
      if inRange fields (p.parsed.drop j) then
        if fields.length ≤ p.parsed.length - j then .ok (named fields (p.parsed.drop j))
        else .error (.signal 11)
      else .error .abort := by
  induction fields generalizing j with
  | nil => simp [loadFields, inRange, named]
  | cons f fields ih =>
      have hf : f.ty = .number := hnum f List.mem_cons_self
      by_cases hlast : j + 1 < p.args.length
      · have hlt : j < p.parsed.length := by
          rw [parsed_length]
          omega
        obtain ⟨w, hw⟩ : ∃ w, w = p.args[j + 1] := ⟨_, rfl⟩
        have hword : p.word (j + 1) = some w := by simp [Process.word, hlast, hw]
        have hget : p.parsed[j] = atoi w.bytes := by simp [Process.parsed, hw]
        have hdrop : p.parsed.drop j = atoi w.bytes :: p.parsed.drop (j + 1) := by
          rw [List.drop_eq_getElem_cons hlt, hget]
        have ih' := ih (fun g hg => hnum g (List.mem_cons_of_mem _ hg)) hlast
        have hlength : fields.length ≤ p.parsed.length - (j + 1) ↔
            fields.length + 1 ≤ p.parsed.length - j := by
          omega
        have hload : loadField p true (j + 1) f =
            if boundsCheck f.range (atoi w.bytes) then .ok (atoi w.bytes) else .error .abort := by
          simp [loadField, hword, hf]
        simp only [loadFields, hload, ih', hdrop, inRange, named, List.zip_cons_cons,
          List.all_cons, List.map_cons, List.length_cons]
        by_cases hb : boundsCheck f.range (atoi w.bytes)
        · by_cases hr : (fields.zip (p.parsed.drop (j + 1))).all fun x => boundsCheck x.1.range x.2
          · by_cases hl : fields.length ≤ p.parsed.length - (j + 1)
            · have hl' := hlength.mp hl
              simp [hb, hr, hl, hl', bind, Except.bind, pure, Except.pure]
            · have hl' := mt hlength.mpr hl
              simp [hb, hr, hl, hl', bind, Except.bind]
          · simp [hb, hr, bind, Except.bind]
        · simp [hb, bind, Except.bind]
      · have hend : j + 1 = p.args.length := by omega
        have hword : p.word (j + 1) = none := by simp [Process.word, hend]
        have hlen : p.parsed.length = j := by
          rw [parsed_length]
          omega
        have hload : loadField p true (j + 1) f = .error (.signal 11) := by
          simp [loadField, hword, hf]
        simp [loadFields, hload, inRange, hlen, bind, Except.bind,
          List.drop_eq_nil_of_le (Nat.le_of_eq hlen)]

/-! ## The loop without a hint -/

lemma nfields_pos (e : Entry) : 0 < e.fields.length := List.length_pos_of_ne_nil e.nonempty

/-- A record is complete when its index is below their number. -/
lemma record_fits {i : Nat} (hi : i < e.records p) :
    i * e.fields.length + e.fields.length ≤ p.parsed.length := by
  have h : (i + 1) * e.fields.length ≤ p.parsed.length :=
    (Nat.le_div_iff_mul_le (nfields_pos e)).mp hi
  rw [Nat.succ_mul] at h
  exact h

/-- A complete record, in the program without a hint. -/
lemma fullRecord_complete (h : e.Plain) {i : Nat} (hi : i < e.records p) :
    e.fullRecord p [] (1 + i * e.fields.length) = e.checkedOn p i := by
  have hfit := record_fits hi
  have hpos := nfields_pos e
  have hlt : i * e.fields.length < p.args.length := by
    have := parsed_length p
    omega
  have hlen : e.fields.length ≤ p.parsed.length - i * e.fields.length := by omega
  unfold Entry.fullRecord Entry.checkedOn Entry.logicOn
  rw [Nat.add_comm 1, loadFields_numbers h.numbers hlt, if_pos hlen, h.lets]
  unfold Entry.wordsFrom
  split
  · simp [Entry.runLets, bind, Except.bind, pure, Except.pure]
  · rfl

/-- Words that are too few for a record, in the program without a hint. -/
lemma fullRecord_leftover (h : e.Plain) (hargs : p.args ≠ []) :
    e.fullRecord p [] (1 + e.records p * e.fields.length) =
      .error (if inRange e.fields (e.wordsFrom p (e.records p)) then .signal 11 else .abort) := by
  have hmod := Nat.mod_lt p.parsed.length (nfields_pos e)
  have hdiv : e.records p * e.fields.length + p.parsed.length % e.fields.length =
      p.parsed.length := by
    rw [Entry.records, Nat.mul_comm]
    exact Nat.div_add_mod _ _
  have hlt : e.records p * e.fields.length < p.args.length := by
    have := parsed_length p
    have := List.length_pos_of_ne_nil hargs
    omega
  have hlen : ¬ e.fields.length ≤ p.parsed.length - e.records p * e.fields.length := by omega
  unfold Entry.fullRecord Entry.wordsFrom
  rw [Nat.add_comm 1, loadFields_numbers h.numbers hlt, if_neg hlen]
  split
  · rfl
  · rfl

/-- The loop from record `i` on, with `k` complete records to come. -/
lemma fullLoop_eq (h : e.Plain) (hargs : p.args ≠ []) {i k : Nat} (hik : i + k = e.records p)
    (flag : Bool) :
    e.fullLoop p [] (1 + i * e.fields.length) flag =
      report e.isBool ((List.range' i k).map (e.checkedOn p) ++ e.leftover p) flag := by
  have hargsLen := parsed_length p
  have hargsPos := List.length_pos_of_ne_nil hargs
  have hpos := nfields_pos e
  induction k generalizing i flag with
  | zero =>
      have hi : i = e.records p := hik
      subst hi
      have hdiv : e.records p * e.fields.length + p.parsed.length % e.fields.length =
          p.parsed.length := by
        rw [Entry.records, Nat.mul_comm]
        exact Nat.div_add_mod _ _
      unfold Entry.fullLoop Entry.leftover
      by_cases hmod : p.parsed.length % e.fields.length = 0
      · rw [if_neg (by omega), if_pos hmod]
        rfl
      · rw [if_pos (by omega), if_neg hmod, fullRecord_leftover h hargs]
        rfl
  | succ k ih =>
      have hi : i < e.records p := by omega
      have hfit := record_fits hi
      have hnext : 1 + i * e.fields.length + e.fields.length = 1 + (i + 1) * e.fields.length := by
        rw [Nat.succ_mul]
        omega
      unfold Entry.fullLoop
      rw [if_pos (by omega), fullRecord_complete h hi, List.range'_succ, List.map_cons,
        List.cons_append]
      cases e.checkedOn p i with
      | error d => rfl
      | ok rax =>
          have hrest := ih (show i + 1 + k = e.records p by omega)
          simp only [report, hnext, hrest]

/-! ## The loop of two processes -/

/-- One displacement byte reaches the slots of sixteen fields. -/
lemma disp8_offset {i : Nat} (hi : i < 16) : disp8 (offset i) = offset i := by
  unfold disp8 offset
  omega

lemma disp8_of_le {n : Nat} (hn : n ≤ 16) : disp8 n = n := by
  unfold disp8
  omega

lemma offset_injective {i j : Nat} (h : offset i = offset j) : i = j := by
  unfold offset at h
  omega

/-- The slots are below the array. -/
lemma arrayWord_ne_offset (j i : Nat) : arrayWord j ≠ offset i := by
  unfold arrayWord offset
  omega

/-- The stores change nothing but the slots that they name. -/
lemma storeFields_of_ne {memory : Int → Int64} {rax : Int} {i n : Nat} (hn : i + n ≤ 16) {a : Int}
    (ha : ∀ k < n, a ≠ offset (i + k)) : storeFields memory rax i n a = memory a := by
  induction n generalizing memory rax i with
  | zero => rfl
  | succ n ih =>
      have hrest : ∀ k < n, a ≠ offset (i + 1 + k) := by
        intro k hk
        rw [Nat.add_assoc, Nat.add_comm 1]
        exact ha (k + 1) (by omega)
      rw [storeFields, ih (by omega) hrest, disp8_offset (by omega)]
      exact Function.update_of_ne (ha 0 (by omega)) _ _

/-- Each slot gets the word of its field. -/
lemma storeFields_slot {memory : Int → Int64} {j i n : Nat} (hn : i + n ≤ 16) {k : Nat}
    (hk : k < n) : storeFields memory j i n (offset (i + k)) = memory (arrayWord (j + k : Nat)) := by
  induction n generalizing memory j i k with
  | zero => omega
  | succ n ih =>
      rw [storeFields, disp8_offset (by omega)]
      cases k with
      | zero =>
          have hother : ∀ k < n, offset (i + 0) ≠ offset (i + 1 + k) := by
            intro k _ heq
            have := offset_injective heq
            omega
          rw [storeFields_of_ne (by omega) hother]
          exact Function.update_self _ _ _
      | succ k =>
          have hslot : offset (i + (k + 1)) = offset (i + 1 + k) := by
            rw [Nat.add_assoc, Nat.add_comm 1]
          have hcast : (j : Int) + 1 = ((j + 1 : Nat) : Int) := by omega
          rw [hslot, hcast, ih (by omega) (by omega)]
          rw [Function.update_of_ne (arrayWord_ne_offset _ _), Nat.add_assoc, Nat.add_comm 1]

/-- The array still holds the parsed words. -/
def Holds (p : Process) (memory : Int → Int64) : Prop :=
  ∀ j (hj : j < p.parsed.length), memory (arrayWord j) = p.parsed[j]

lemma holds_memory (p : Process) : Holds p p.memory := by
  intro j hj
  have hindex : ((arrayWord j - 8) / 8).toNat = j := by
    unfold arrayWord
    omega
  have hup : 8 ≤ arrayWord j := by
    unfold arrayWord
    omega
  rw [Process.memory, if_pos hup, hindex, List.getD_eq_getElem?_getD, List.getElem?_eq_getElem hj]
  rfl

lemma Holds.store {memory : Int → Int64} (h : Holds p memory) {rax : Int} {n : Nat} (hn : n ≤ 16) :
    Holds p (storeFields memory rax 0 n) := by
  intro j hj
  rw [storeFields_of_ne (by omega) (fun k _ => arrayWord_ne_offset j _)]
  exact h j hj

/-- The slots hold the words of the record. -/
lemma slotFrame_eq (h : e.Plain) {memory : Int → Int64} (hm : Holds p memory) {i : Nat}
    (hi : i < e.records p) :
    slotFrame e.fields (storeFields memory (baseIndex e.fields.length i) 0 e.fields.length) =
      frameOf (named e.fields (e.wordsFrom p i)) := by
  have hfit := record_fits hi
  have hbase : baseIndex e.fields.length i = ((i * e.fields.length : Nat) : Int) := by
    unfold baseIndex
    split
    · rw [disp8_of_le h.narrow]
      push_cast
      rfl
    · have hone : e.fields.length = 1 := by
        have := nfields_pos e
        omega
      rw [hone, Nat.mul_one]
  have hlist : (e.fields.mapIdx fun k f => (f.name,
      storeFields memory (baseIndex e.fields.length i) 0 e.fields.length (offset k))) =
      named e.fields (e.wordsFrom p i) := by
    apply List.ext_getElem
    · simp only [List.length_mapIdx, named, List.length_map, List.length_zip, Entry.wordsFrom,
        List.length_drop]
      omega
    · intro k hk _
      have hk' : k < e.fields.length := by simpa using hk
      have hslot : storeFields memory ((i * e.fields.length : Nat) : Int) 0 e.fields.length
          (offset (0 + k)) = memory (arrayWord (i * e.fields.length + k : Nat)) :=
        storeFields_slot (by simpa using h.narrow) hk'
      rw [Nat.zero_add] at hslot
      have hword := hm (i * e.fields.length + k) (by omega)
      simpa [named, Entry.wordsFrom, hbase] using hslot.trans hword
  rw [slotFrame, hlist]

/-- The loop from record `i` on, over `k` records. -/
lemma processLoop_eq (h : e.Plain) {memory : Int → Int64} (hm : Holds p memory) {i k : Nat}
    (hik : i + k ≤ e.records p) (flag : Bool) :
    e.processLoop memory i k flag =
      report e.isBool ((List.range' i k).map (e.logicOn p)) flag := by
  induction k generalizing memory i flag with
  | zero => rfl
  | succ k ih =>
      have hframe := slotFrame_eq h hm (show i < e.records p by omega)
      rw [List.range'_succ, List.map_cons]
      simp only [Entry.processLoop, hframe]
      rw [← Entry.logicOn]
      cases e.logicOn p i with
      | error d => rfl
      | ok rax =>
          have hstored : Holds p
              (storeFields memory (baseIndex e.fields.length i) 0 e.fields.length) :=
            hm.store h.narrow
          have hrest := ih hstored (show i + 1 + k ≤ e.records p by omega)
          simp only [report, hrest]

/-! ## The two reports compared -/

/-- The program without a hint answers record `i`. -/
def Entry.Answers (e : Entry) (p : Process) (i : Nat) : Prop := ∃ v, e.checkedOn p i = .ok v

/-- The result of the logic for record `i`, where it has one. -/
def Entry.result (e : Entry) (p : Process) (i : Nat) : Int64 :=
  match e.logicOn p i with
  | .ok v => v
  | .error _ => 0

/-- The results of `k` records from record `i` on. -/
def Entry.results (e : Entry) (p : Process) (i k : Nat) : List Int64 :=
  (List.range' i k).map (e.result p)

/-- An answered record is in range, and the logic gives its result. -/
lemma answers_iff {i : Nat} :
    e.Answers p i ↔ inRange e.fields (e.wordsFrom p i) = true ∧
      e.logicOn p i = .ok (e.result p i) := by
  unfold Entry.Answers Entry.checkedOn Entry.result
  constructor
  · rintro ⟨v, hv⟩
    split at hv
    · rename_i hr
      rw [hv]
      exact ⟨hr, rfl⟩
    · cases hv
  · rintro ⟨hr, hv⟩
    rw [if_pos hr]
    exact ⟨_, hv⟩

lemma Entry.Answers.checkedOn {i : Nat} (h : e.Answers p i) :
    e.checkedOn p i = .ok (e.result p i) := by
  obtain ⟨hr, hv⟩ := answers_iff.mp h
  rw [Entry.checkedOn, if_pos hr, hv]

lemma results_append (e : Entry) (p : Process) (i k l : Nat) :
    e.results p i k ++ e.results p (i + k) l = e.results p i (k + l) := by
  rw [Entry.results, Entry.results, Entry.results, ← List.map_append, List.range'_append_1]

lemma flags_append (isBool : Bool) (xs ys : List Int64) (flag : Bool) :
    flags isBool (xs ++ ys) flag = flags isBool ys (flags isBool xs flag) := by
  simp [flags, Bool.or_assoc, Bool.and_or_distrib_left]

/-- A report whose first `k` outcomes are results. -/
lemma report_results {f : Nat → Except Death Int64} {i k l : Nat}
    (hf : ∀ j, i ≤ j → j < i + k → f j = .ok (e.result p j)) (isBool flag : Bool)
    (rest : List (Except Death Int64)) :
    report isBool ((List.range' i (k + l)).map f ++ rest) flag =
      (report isBool ((List.range' (i + k) l).map f ++ rest)
        (flags isBool (e.results p i k) flag)).after (lines isBool (e.results p i k)) := by
  have hmap : (List.range' i k).map f = (e.results p i k).map .ok := by
    rw [Entry.results, List.map_map]
    apply List.map_congr_left
    intro j hj
    obtain ⟨hij, hjk⟩ := List.mem_range'_1.mp hj
    exact hf j hij hjk
  rw [← List.range'_append_1, List.map_append, List.append_assoc, hmap, report_append]

/-- Deaths differ in what is seen of them. -/
lemma Death.ending_injective {d d' : Death} (h : d.ending = d'.ending) : d = d' := by
  cases d with
  | abort =>
      cases d' with
      | abort => rfl
      | signal n => cases h
  | signal n =>
      cases d' with
      | abort => cases h
      | signal m =>
          simp only [Death.ending, End.signal.injEq] at h
          rw [h]

/-- What the program without a hint prints, as one report. -/
def Entry.fullReport (e : Entry) (p : Process) : Half :=
  report e.isBool ((List.range' 0 (e.records p)).map (e.checkedOn p) ++ e.leftover p) false

/-- The child's half. -/
def Entry.childReport (e : Entry) (p : Process) : Half :=
  report e.isBool ((List.range' 0 (e.records p / 2)).map (e.logicOn p)) false

/-- The half of the process that forked, from its flag. -/
def Entry.parentReport (e : Entry) (p : Process) (flag : Bool) : Half :=
  report e.isBool
    ((List.range' (e.records p / 2) (e.records p - e.records p / 2)).map (e.logicOn p)) flag

/-- The first record that the program without a hint does not answer, if there is one. -/
lemma all_or_first (e : Entry) (p : Process) (n : Nat) :
    (∀ i < n, e.Answers p i) ∨
      ∃ k < n, (∀ i < k, e.Answers p i) ∧ ∃ d, e.checkedOn p k = .error d := by
  induction n with
  | zero => exact Or.inl (fun i hi => absurd hi (Nat.not_lt_zero i))
  | succ n ih =>
      rcases ih with hall | ⟨k, hk, hbefore, hstop⟩
      · cases hn : e.checkedOn p n with
        | ok v =>
            refine Or.inl (fun i hi => ?_)
            rcases Nat.lt_succ_iff_lt_or_eq.mp hi with hlt | heq
            · exact hall i hlt
            · exact ⟨v, heq ▸ hn⟩
        | error d => exact Or.inr ⟨n, Nat.lt_succ_self n, hall, d, hn⟩
      · exact Or.inr ⟨k, Nat.lt_succ_of_lt hk, hbefore, hstop⟩

/-- A run that stops at record `k` printed the results before it. -/
lemma fullReport_stop {k : Nat} (hk : k < e.records p) (hbefore : ∀ i < k, e.Answers p i)
    {d : Death} (hstop : e.checkedOn p k = .error d) :
    e.fullReport p = ⟨lines e.isBool (e.results p 0 k), .error d⟩ := by
  obtain ⟨l, hl⟩ : ∃ l, e.records p = k + (l + 1) := ⟨e.records p - k - 1, by omega⟩
  unfold Entry.fullReport
  rw [hl, report_results (fun j _ hj => (hbefore j (by omega)).checkedOn), Nat.zero_add,
    List.range'_succ, List.map_cons, hstop]
  simp [report, Half.after]

/-- A run that answers every record goes on to the words that are left over. -/
lemma fullReport_all (hall : ∀ i < e.records p, e.Answers p i) :
    e.fullReport p =
      (report e.isBool (e.leftover p)
        (flags e.isBool (e.results p 0 (e.records p)) false)).after
        (lines e.isBool (e.results p 0 (e.records p))) := by
  have h := report_results (i := 0) (k := e.records p) (l := 0)
    (fun j _ hj => (hall j (by omega)).checkedOn) e.isBool false (e.leftover p)
  simpa [Entry.fullReport] using h

/-- A half of the logic's outcomes, the first `k` of them results. -/
lemma logic_results {i k l : Nat} (hbefore : ∀ j, i ≤ j → j < i + k → e.Answers p j) (flag : Bool) :
    report e.isBool ((List.range' i (k + l)).map (e.logicOn p)) flag =
      (report e.isBool ((List.range' (i + k) l).map (e.logicOn p))
        (flags e.isBool (e.results p i k) flag)).after (lines e.isBool (e.results p i k)) := by
  have h := report_results (l := l)
    (fun j hij hjk => (answers_iff.mp (hbefore j hij hjk)).2) e.isBool flag []
  simpa using h

/-- The flag that the parent takes over from a child that answered its half. -/
lemma waitedFlag_ok (e : Entry) (values : List Int64) (text : List UInt8) :
    e.waitedFlag ⟨text, .ok (flags e.isBool values false)⟩ = flags e.isBool values false := by
  unfold Entry.waitedFlag Half.ending flags
  cases e.isBool with
  | false => simp
  | true => cases hany : (values.any fun v => v.toInt8 == 0) <;> simp

/-- The child's half, answered. -/
lemma childReport_all (hall : ∀ i < e.records p / 2, e.Answers p i) :
    e.childReport p = ⟨lines e.isBool (e.results p 0 (e.records p / 2)),
      .ok (flags e.isBool (e.results p 0 (e.records p / 2)) false)⟩ := by
  have h := logic_results (i := 0) (k := e.records p / 2) (l := 0)
    (fun j _ hj => hall j (by omega)) false
  simpa [Entry.childReport, report, Half.after] using h

/-- A half that starts with a result prints it. -/
lemma report_ok_stdout {f : Nat → Except Death Int64} {i k : Nat} {v : Int64} (hf : f i = .ok v)
    (isBool flag : Bool) :
    (report isBool ((List.range' i (k + 1)).map f) flag).stdout ≠ [] := by
  rw [List.range'_succ, List.map_cons, hf, report, printResult_eq, Half.after_stdout]
  intro h
  exact printResult_ne_nil isBool v (List.append_eq_nil_iff.mp h).1

/-- A half that starts with a death is that. -/
lemma report_error {f : Nat → Except Death Int64} {i k : Nat} {d : Death} (hf : f i = .error d)
    (isBool flag : Bool) :
    report isBool ((List.range' i (k + 1)).map f) flag = ⟨[], .error d⟩ := by
  rw [List.range'_succ, List.map_cons, hf, report]

/-- The two halves of a forked run. -/
def Entry.forkedReport (e : Entry) (p : Process) : Half :=
  (e.parentReport p (e.waitedFlag (e.childReport p))).after (e.childReport p).stdout

/-- Every record answered: the two halves print the results in order and agree on the flag. -/
lemma forkedReport_all (hall : ∀ i < e.records p, e.Answers p i) :
    e.forkedReport p = ⟨lines e.isBool (e.results p 0 (e.records p)),
      .ok (flags e.isBool (e.results p 0 (e.records p)) false)⟩ := by
  have hchild := childReport_all (fun i hi => hall i (by omega : i < e.records p))
  have hsum : 0 + e.records p / 2 + (e.records p - e.records p / 2) = 0 + e.records p := by omega
  have hparent := logic_results (i := e.records p / 2) (k := e.records p - e.records p / 2)
    (l := 0) (fun j _ hj => hall j (by omega))
    (flags e.isBool (e.results p 0 (e.records p / 2)) false)
  have hjoin := results_append e p 0 (e.records p / 2) (e.records p - e.records p / 2)
  rw [Nat.zero_add, show e.records p / 2 + (e.records p - e.records p / 2) = e.records p by omega]
    at hjoin
  rw [← hjoin, flags_append, lines_append]
  rw [Entry.forkedReport, hchild, waitedFlag_ok, Entry.parentReport]
  simpa [report, Half.after] using congrArg
    (Half.after (lines e.isBool (e.results p 0 (e.records p / 2)))) hparent

/-- A stop in the child's half is seen alike only where the parent's first record dies so too. -/
lemma forkedReport_child {k : Nat} (hk : k < e.records p / 2) (hbefore : ∀ i < k, e.Answers p i)
    (d : Death) :
    (e.forkedReport p).output = ⟨lines e.isBool (e.results p 0 k), [], d.ending⟩ ↔
      (∃ d', e.logicOn p k = .error d') ∧ e.logicOn p (e.records p / 2) = .error d := by
  obtain ⟨l, hl⟩ : ∃ l, e.records p / 2 = k + (l + 1) := ⟨e.records p / 2 - k - 1, by omega⟩
  obtain ⟨r, hr⟩ : ∃ r, e.records p - e.records p / 2 = r + 1 :=
    ⟨e.records p - e.records p / 2 - 1, by omega⟩
  have hchild := logic_results (i := 0) (k := k) (l := l + 1)
    (fun j _ hj => hbefore j (by omega)) false
  rw [← hl, Nat.zero_add, ← Entry.childReport] at hchild
  unfold Entry.forkedReport Half.output
  simp only [Half.after_stdout, Half.after_ending, Output.mk.injEq, true_and]
  cases hlogic : e.logicOn p k with
  | ok v =>
      have hline := report_ok_stdout (k := l) hlogic e.isBool
        (flags e.isBool (e.results p 0 k) false)
      refine iff_of_false ?_ ?_
      · rintro ⟨hout, -⟩
        rw [hchild, Half.after_stdout, List.append_assoc, List.append_right_eq_self] at hout
        exact hline (List.append_eq_nil_iff.mp hout).1
      · rintro ⟨⟨d', hd'⟩, -⟩
        cases hd'
  | error d' =>
      rw [report_error hlogic] at hchild
      rw [hchild]
      generalize e.waitedFlag _ = flag
      unfold Entry.parentReport
      rw [hr]
      cases hmid : e.logicOn p (e.records p / 2) with
      | ok v =>
          refine iff_of_false ?_ ?_
          · rintro ⟨hout, -⟩
            rw [Half.after_stdout, List.append_nil, List.append_right_eq_self] at hout
            exact report_ok_stdout hmid e.isBool flag hout
          · rintro ⟨-, hd⟩
            cases hd
      | error d'' =>
          rw [report_error hmid]
          simp only [Half.after_stdout, List.append_nil, true_and, Half.ending, Except.error.injEq,
            exists_eq', true_and]
          exact ⟨Death.ending_injective, congrArg Death.ending⟩

/-- A stop in the parent's half is seen alike where the logic dies in the same way. -/
lemma forkedReport_parent {k : Nat} (hmid : e.records p / 2 ≤ k) (hk : k < e.records p)
    (hbefore : ∀ i < k, e.Answers p i) (d : Death) :
    (e.forkedReport p).output = ⟨lines e.isBool (e.results p 0 k), [], d.ending⟩ ↔
      e.logicOn p k = .error d := by
  obtain ⟨j, hj⟩ : ∃ j, k = e.records p / 2 + j := ⟨k - e.records p / 2, by omega⟩
  obtain ⟨r, hr⟩ : ∃ r, e.records p - e.records p / 2 = j + (r + 1) :=
    ⟨e.records p - k - 1, by omega⟩
  have hchild := childReport_all (fun i hi => hbefore i (by omega : i < k))
  have hparent := logic_results (i := e.records p / 2) (k := j) (l := r + 1)
    (fun i _ hi => hbefore i (by omega)) (e.waitedFlag (e.childReport p))
  rw [← hr, ← hj, ← Entry.parentReport] at hparent
  have hjoin := results_append e p 0 (e.records p / 2) j
  rw [Nat.zero_add, ← hj] at hjoin
  unfold Entry.forkedReport Half.output
  rw [hparent, hchild, ← hjoin, lines_append]
  simp only [Half.after_stdout, Half.after_ending, Output.mk.injEq, true_and]
  generalize flags _ _ _ = flag
  cases hlogic : e.logicOn p k with
  | ok v =>
      refine iff_of_false ?_ (fun hd => by cases hd)
      rintro ⟨hout, -⟩
      rw [← List.append_assoc, List.append_right_eq_self] at hout
      exact report_ok_stdout hlogic e.isBool flag hout
  | error d' =>
      rw [report_error hlogic]
      simp only [List.append_nil, true_and, Half.ending, Except.error.injEq]
      exact ⟨Death.ending_injective, congrArg Death.ending⟩

/-! ## When the runs are the same -/

/-- Every complete record is answered, and no word is left over; or the words that are, are refused
by a range check where a false has already raised the flag to the same status. -/
def Entry.SameEnd (e : Entry) (p : Process) : Prop :=
  (∀ i < e.records p, e.Answers p i) ∧
    (p.parsed.length % e.fields.length = 0 ∨
      (inRange e.fields (e.wordsFrom p (e.records p)) = false ∧ e.isBool = true ∧
        ∃ i < e.records p, (e.result p i).toInt8 = 0))

/-- The first record that is not answered dies in the logic too, and its death is seen: it is in
the second half and dies of the same, or the second half starts with that death. -/
def Entry.SameStop (e : Entry) (p : Process) : Prop :=
  ∃ k < e.records p, (∀ i < k, e.Answers p i) ∧
    ∃ d, e.checkedOn p k = .error d ∧ (∃ d', e.logicOn p k = .error d') ∧
      e.logicOn p (max k (e.records p / 2)) = .error d

/-- When a forked run shows what the program without a hint shows. -/
def Entry.Keeps (e : Entry) (p : Process) : Prop :=
  p.parsed.length < e.fields.length ∨ e.SameEnd p ∨ e.SameStop p

lemma not_answers {i : Nat} {d : Death} (h : e.checkedOn p i = .error d) : ¬ e.Answers p i := by
  rintro ⟨v, hv⟩
  rw [h] at hv
  cases hv

/-- The words left over end the two runs alike only under the flag. -/
lemma forked_all (hall : ∀ i < e.records p, e.Answers p i) :
    (e.forkedReport p).output = (e.fullReport p).output ↔ e.SameEnd p := by
  rw [forkedReport_all hall, fullReport_all hall]
  unfold Entry.SameEnd Entry.leftover
  generalize hfl : flags e.isBool (e.results p 0 (e.records p)) false = flag
  have hflag : flag = true ↔ e.isBool = true ∧ ∃ i < e.records p, (e.result p i).toInt8 = 0 := by
    rw [← hfl]
    simp [flags, Entry.results]
  by_cases hmod : p.parsed.length % e.fields.length = 0
  · rw [if_pos hmod]
    refine iff_of_true ?_ ⟨hall, Or.inl hmod⟩
    simp [report, Half.output, Half.after, Half.ending]
  · rw [if_neg hmod]
    simp only [hmod, false_or, ← hflag]
    rw [and_iff_right hall]
    cases hrange : inRange e.fields (e.wordsFrom p (e.records p)) <;> cases flag <;>
      simp [report, Half.output, Half.after, Half.ending, Death.ending]

/-- The first record that is not answered decides. -/
lemma forked_stop {k : Nat} (hk : k < e.records p) (hbefore : ∀ i < k, e.Answers p i) {d : Death}
    (hstop : e.checkedOn p k = .error d) :
    (e.forkedReport p).output = (e.fullReport p).output ↔ e.SameStop p := by
  have hfirst : e.SameStop p ↔ (∃ d', e.logicOn p k = .error d') ∧
      e.logicOn p (max k (e.records p / 2)) = .error d := by
    constructor
    · rintro ⟨k', hk', hbefore', d', hstop', hdies, hmax⟩
      have heq : k' = k := by
        rcases Nat.lt_trichotomy k' k with hlt | heq | hgt
        · exact absurd (hbefore k' hlt) (not_answers hstop')
        · exact heq
        · exact absurd (hbefore' k hgt) (not_answers hstop)
      subst heq
      rw [hstop] at hstop'
      cases hstop'
      exact ⟨hdies, hmax⟩
    · rintro ⟨hdies, hmax⟩
      exact ⟨k, hk, hbefore, d, hstop, hdies, hmax⟩
  rw [fullReport_stop hk hbefore hstop, hfirst]
  by_cases hmid : k < e.records p / 2
  · rw [max_eq_right (Nat.le_of_lt hmid)]
    exact forkedReport_child hmid hbefore d
  · have hle : e.records p / 2 ≤ k := Nat.le_of_not_lt hmid
    rw [max_eq_left hle]
    refine (forkedReport_parent hle hk hbefore d).trans ⟨fun hd => ⟨⟨d, hd⟩, hd⟩, fun hd => hd.2⟩

lemma forked_iff (e : Entry) (p : Process) :
    (e.forkedReport p).output = (e.fullReport p).output ↔ e.SameEnd p ∨ e.SameStop p := by
  rcases all_or_first e p (e.records p) with hall | ⟨k, hk, hbefore, d, hstop⟩
  · have hno : ¬ e.SameStop p := by
      rintro ⟨k, hk, -, d, hstop, -⟩
      exact not_answers hstop (hall k hk)
    rw [forked_all hall]
    simp [hno]
  · have hno : ¬ e.SameEnd p := fun hend => not_answers hstop (hend.1 k hk)
    rw [forked_stop hk hbefore hstop]
    simp [hno]

/-- Without a child the first half is lost: the run is the same only where that half is empty, or
nothing was to be printed. -/
lemma failed_iff (h : (e.forkedReport p).output = (e.fullReport p).output)
    (hpos : 0 < e.records p) :
    (e.parentReport p false).output = (e.fullReport p).output ↔
      e.records p ≤ 1 ∨ ¬ e.Answers p 0 := by
  by_cases hone : e.records p ≤ 1
  · refine iff_of_true ?_ (Or.inl hone)
    have hzero : e.records p / 2 = 0 := by omega
    have hchild : e.childReport p = ⟨[], .ok false⟩ := by
      simp [Entry.childReport, hzero, report]
    have hflag : e.waitedFlag ⟨[], .ok false⟩ = false := by simp [Entry.waitedFlag, Half.ending]
    rw [← h, Entry.forkedReport, hchild, hflag]
    rfl
  · simp only [hone, false_or]
    by_cases hzero : e.Answers p 0
    · refine iff_of_false ?_ (not_not_intro hzero)
      -- the forked run prints the same second half after a first half that is not empty
      intro hfailed
      obtain ⟨l, hl⟩ : ∃ l, e.records p / 2 = l + 1 := ⟨e.records p / 2 - 1, by omega⟩
      have hchild : (e.childReport p).stdout ≠ [] := by
        unfold Entry.childReport
        rw [hl]
        exact report_ok_stdout (answers_iff.mp hzero).2 _ _
      have hout := congrArg Output.stdout (h.trans hfailed.symm)
      have hparent : (e.parentReport p (e.waitedFlag (e.childReport p))).stdout =
          (e.parentReport p false).stdout := report_stdout _ _ _ _
      simp only [Half.output, Entry.forkedReport, Half.after_stdout] at hout
      rw [hparent, List.append_left_eq_self] at hout
      exact hchild hout
    · refine iff_of_true ?_ hzero
      obtain ⟨d, hstop⟩ : ∃ d, e.checkedOn p 0 = .error d := by
        cases hd : e.checkedOn p 0 with
        | ok v => exact absurd ⟨v, hd⟩ hzero
        | error d => exact ⟨d, rfl⟩
      have hbefore : ∀ i < 0, e.Answers p i := fun i hi => absurd hi (Nat.not_lt_zero i)
      obtain ⟨r, hr⟩ : ∃ r, e.records p - e.records p / 2 = r + 1 :=
        ⟨e.records p - e.records p / 2 - 1, by omega⟩
      have hfull := fullReport_stop hpos hbefore hstop
      rw [hfull] at h
      obtain ⟨-, hmid⟩ := (forkedReport_child (by omega) hbefore d).mp h
      rw [hfull, Entry.parentReport, hr, report_error hmid]
      rfl

/-! ## The loop of two lanes -/

/-- The word that a comparison leaves in `rax`. -/
def greater (threshold v : Int64) : Int64 := if threshold < v then 1 else 0

lemma laneMask_lower (a b threshold : Int64) :
    (laneMask a b threshold &&& 1 == 0) = !decide (threshold < a) := by
  unfold laneMask
  by_cases ha : threshold < a <;> by_cases hb : threshold < b <;>
    simp only [ha, hb, if_true, if_false, decide_true, decide_false] <;> decide

lemma laneMask_upper (a b threshold : Int64) :
    (laneMask a b threshold &&& 2 == 0) = !decide (threshold < b) := by
  unfold laneMask
  by_cases ha : threshold < a <;> by_cases hb : threshold < b <;>
    simp only [ha, hb, if_true, if_false, decide_true, decide_false] <;> decide

lemma printResult_greater (threshold v : Int64) (flag : Bool) :
    printResult true (greater threshold v) flag = boolArms (!decide (threshold < v)) flag := by
  unfold printResult greater
  by_cases h : threshold < v
  · simp [h]
  · simp [h]

lemma scalarLoop_eq (threshold : Int64) (values : List Int64) (flag : Bool) :
    scalarLoop threshold values flag =
      report true ((values.map (greater threshold)).map .ok) flag := by
  induction values generalizing flag with
  | nil => rfl
  | cons v values ih =>
      simp only [scalarLoop, List.map_cons, report, printResult_greater]
      rw [ih]

/-- Two elements to a turn print what one to a turn prints. -/
lemma simdLoop_eq (threshold : Int64) (values : List Int64) (flag : Bool) :
    simdLoop threshold values flag =
      report true ((values.map (greater threshold)).map .ok) flag := by
  fun_induction simdLoop threshold values flag with
  | case1 a b rest flag mask lower upper ih =>
      rw [ih]
      simp only [List.map_cons, report, printResult_greater, Half.after_after, mask, lower, upper,
        laneMask_lower, laneMask_upper]
  | case2 rest flag _ => exact scalarLoop_eq threshold rest flag

/-- The emitted comparison of the one field with the threshold, for a word in its range. -/
def Entry.Compares (e : Entry) (threshold : Int64) : Prop :=
  e.isBool = true ∧ ∀ f, e.fields = [f] → ∀ v, boundsCheck f.range v = true →
    e.code e.rule.logic.value (frameOf [(f.name, v)]) = .ok (greater threshold v)

/-- The dispatch takes two lanes for one field. -/
lemma fields_of_vectorized {threshold : Int64} (hd : e.driver = .vectorized threshold) :
    ∃ f, e.fields = [f] := by
  unfold Entry.driver at hd
  split at hd
  · rename_i hone
    rw [Bool.and_eq_true, beq_iff_eq] at hone
    exact List.length_eq_one_iff.mp hone.2
  · split at hd
    · cases hd
    · cases hd

/-- One field: a record is a word. -/
lemma vectorized_record {f : Field} (hf : e.fields = [f]) {i : Nat} (hi : i < p.parsed.length) :
    named e.fields (e.wordsFrom p i) = [(f.name, p.parsed[i])] ∧
      inRange e.fields (e.wordsFrom p i) = boundsCheck f.range p.parsed[i] := by
  have hdrop : e.wordsFrom p i = p.parsed[i] :: p.parsed.drop (i + 1) := by
    rw [Entry.wordsFrom, hf, List.length_singleton, Nat.mul_one, List.drop_eq_getElem_cons hi]
  rw [hdrop, hf]
  simp only [named, inRange, List.zip_cons_cons, List.zip_nil_left, List.map_cons, List.map_nil,
    List.all_cons, List.all_nil, Bool.and_true, and_self]

/-- The two lanes have no range check. -/
lemma vectorized_iff {threshold : Int64} (hc : e.Compares threshold) {f : Field}
    (hf : e.fields = [f]) :
    (simdLoop threshold p.parsed false).output = (e.fullReport p).output ↔
      ∀ i < e.records p, inRange e.fields (e.wordsFrom p i) = true := by
  have hrecords : e.records p = p.parsed.length := by
    rw [Entry.records, hf, List.length_singleton, Nat.div_one]
  have hleftover : e.leftover p = [] := by
    rw [Entry.leftover, hf, List.length_singleton, Nat.mod_one, if_pos rfl]
  have hanswers : ∀ i (hi : i < p.parsed.length), inRange e.fields (e.wordsFrom p i) = true →
      e.logicOn p i = .ok (greater threshold p.parsed[i]) := by
    intro i hi hr
    obtain ⟨hnamed, hrange⟩ := vectorized_record (e := e) hf hi
    rw [Entry.logicOn, hnamed]
    exact hc.2 f hf _ (hrange ▸ hr)
  have hresults : ∀ k ≤ p.parsed.length, (∀ i < k, e.Answers p i) →
      e.results p 0 k = (p.parsed.take k).map (greater threshold) := by
    intro k hk hall
    apply List.ext_getElem
    · simp [Entry.results, hk]
    · intro i hi _
      have hik : i < k := by simpa [Entry.results] using hi
      have hlogic := hanswers i (by omega) (answers_iff.mp (hall i hik)).1
      simp [Entry.results, Entry.result, hlogic]
  rw [simdLoop_eq, report_values]
  rcases all_or_first e p (e.records p) with hall | ⟨k, hk, hbefore, d, hstop⟩
  · refine iff_of_true ?_ (fun i hi => (answers_iff.mp (hall i hi)).1)
    rw [fullReport_all hall, hleftover, hrecords, hresults _ le_rfl (hrecords ▸ hall), hc.1,
      List.take_length]
    simp [report, Half.after]
  · refine iff_of_false ?_ ?_
    · rw [fullReport_stop hk hbefore hstop, hresults k (by omega) hbefore, hc.1]
      intro hout
      have hlines := congrArg Output.stdout hout
      simp only [Half.output] at hlines
      rw [← List.take_append_drop k p.parsed, List.map_append, lines_append,
        List.take_append_drop, List.append_right_eq_self] at hlines
      have hdrop := lines_eq_nil hlines
      rw [List.map_eq_nil_iff, List.drop_eq_nil_iff] at hdrop
      omega
    · intro hrange
      have hlogic := hanswers k (by omega) (hrange k hk)
      rw [Entry.checkedOn, if_pos (hrange k hk), hlogic] at hstop
      cases hstop

/-! ## The three programs -/

lemma fullRun_eq (h : e.Plain) (hargs : e.fields.length + 1 ≤ p.args.length) :
    fullRun e p = (e.fullReport p).output := by
  have hne : p.args ≠ [] := by
    intro hnil
    rw [hnil] at hargs
    exact absurd hargs (by simp)
  have hloop := fullLoop_eq h hne (i := 0) (k := e.records p) (Nat.zero_add _) false
  rw [Nat.zero_mul] at hloop
  unfold fullRun
  rw [h.context, List.length_nil, if_neg (by omega)]
  simp only [loadFields, Nat.add_zero, hloop]
  rfl

lemma parallelRun_eq (h : e.Plain) (hargs : e.fields.length + 1 ≤ p.args.length) :
    parallelRun e p .forked = (e.forkedReport p).output ∧
      parallelRun e p .failed = (e.parentReport p false).output := by
  have hchild := processLoop_eq h (holds_memory p) (i := 0) (k := e.records p / 2)
    (by omega) false
  have hparent := fun flag => processLoop_eq h (holds_memory p) (i := e.records p / 2)
    (k := e.records p - e.records p / 2) (by omega) flag
  unfold parallelRun
  rw [if_neg (by omega), if_neg (by omega)]
  rw [← Entry.records]
  simp only [hchild, hparent]
  exact ⟨rfl, rfl⟩

/-- Too few words for a record: both programs say so. -/
lemma run_notEnough (h : e.Plain) (hargs : p.args.length < e.fields.length + 1) (fork : Fork) :
    fullRun e p = notEnough ∧ parallelRun e p fork = notEnough := by
  constructor
  · rw [fullRun, h.context, List.length_nil, if_pos (by omega)]
  · rw [parallelRun, if_pos hargs]

/-- Without a stop and without words left over, status 1 says that some record gave false. -/
lemma fullRun_status (h : e.Plain) (hargs : e.fields.length + 1 ≤ p.args.length)
    (hall : ∀ i < e.records p, e.Answers p i) (hleft : p.parsed.length % e.fields.length = 0) :
    (fullRun e p).ending = .exit 1 ↔
      e.isBool = true ∧ ∃ i < e.records p, (e.result p i).toInt8 = 0 := by
  rw [fullRun_eq h hargs, fullReport_all hall, Entry.leftover, if_pos hleft]
  simp only [Half.output, report, Half.after_ending]
  rw [Half.ending, End.exit.injEq, Bool.toNat_eq_one]
  simp [flags, Entry.results]

/-- The programs of a hint against the program without one, on every command line and for every
outcome of `fork`. Two lanes: the runs are the same exactly when every word is in its declared
range. Two processes: exactly under `Keeps` when there is a child, and whatever `fork` gives exactly
when, besides, there is at most one complete record or the first is not answered. Where every
record is answered and no word is left over, status 1 says that some record gave false. -/
theorem hints_keep_run (e : Entry) (p : Process) (h : e.Plain)
    (hgt : ∀ threshold, e.driver = .vectorized threshold → e.Compares threshold) :
    (∀ threshold, e.driver = .vectorized threshold → ∀ fork,
      (hintedRun e p fork = fullRun e p ↔
        ∀ i < e.records p, inRange e.fields (e.wordsFrom p i) = true)) ∧
    (e.driver = .parallel →
      (hintedRun e p .forked = fullRun e p ↔ e.Keeps p) ∧
      ((∀ fork, hintedRun e p fork = fullRun e p) ↔
        e.Keeps p ∧ (e.records p ≤ 1 ∨ ¬ e.Answers p 0))) ∧
    (e.driver = .full → ∀ fork, hintedRun e p fork = fullRun e p) ∧
    (e.fields.length + 1 ≤ p.args.length → (∀ i < e.records p, e.Answers p i) →
      p.parsed.length % e.fields.length = 0 →
      ((fullRun e p).ending = .exit 1 ↔
        e.isBool = true ∧ ∃ i < e.records p, (e.result p i).toInt8 = 0)) := by
  refine ⟨?_, ?_, ?_, fullRun_status h⟩
  · intro threshold hd fork
    obtain ⟨f, hf⟩ := fields_of_vectorized hd
    rw [hintedRun, hd]
    simp only [vectorizedRun]
    by_cases hargs : e.fields.length + 1 ≤ p.args.length
    · have hlen : ¬ p.args.length < 2 := by
        rw [hf, List.length_singleton] at hargs
        omega
      rw [if_neg hlen, fullRun_eq h hargs]
      exact vectorized_iff (hgt threshold hd) hf
    · have hlen : p.args.length < 2 := by
        rw [hf, List.length_singleton] at hargs
        omega
      have hzero : e.records p = 0 := by
        rw [Entry.records, hf, List.length_singleton, Nat.div_one, parsed_length]
        omega
      refine iff_of_true ?_ (fun i hi => by omega)
      rw [if_pos hlen, (run_notEnough h (Nat.lt_of_not_le hargs) fork).1]
  · intro hd
    have hrun : ∀ fork, hintedRun e p fork = parallelRun e p fork := by
      intro fork
      rw [hintedRun, hd]
    have hparsed := parsed_length p
    by_cases hargs : e.fields.length + 1 ≤ p.args.length
    · obtain ⟨hforked, hfailed⟩ := parallelRun_eq (p := p) h hargs
      have hpos : 0 < e.records p := Nat.div_pos (by omega) (nfields_pos e)
      have hkeeps : hintedRun e p .forked = fullRun e p ↔ e.Keeps p := by
        have hmany : ¬ p.parsed.length < e.fields.length := by omega
        rw [hrun, hforked, fullRun_eq h hargs, forked_iff, Entry.Keeps, or_iff_right hmany]
      refine ⟨hkeeps, ?_⟩
      constructor
      · intro hall
        have hsame := (hrun .forked).symm.trans (hall .forked)
        have hother := (hrun .failed).symm.trans (hall .failed)
        rw [hforked, fullRun_eq h hargs] at hsame
        rw [hfailed, fullRun_eq h hargs] at hother
        exact ⟨hkeeps.mp (hall .forked), (failed_iff hsame hpos).mp hother⟩
      · rintro ⟨hk, hfirst⟩ fork
        have hsame := hkeeps.mpr hk
        cases fork with
        | forked => exact hsame
        | failed =>
            rw [hrun, hforked, fullRun_eq h hargs] at hsame
            rw [hrun, hfailed, fullRun_eq h hargs]
            exact (failed_iff hsame hpos).mpr hfirst
    · have hfew := Nat.lt_of_not_le hargs
      have hsame : ∀ fork, hintedRun e p fork = fullRun e p := by
        intro fork
        obtain ⟨hfull, hparallel⟩ := run_notEnough h hfew fork
        rw [hrun, hparallel, hfull]
      have hpos := nfields_pos e
      have hkeeps : e.Keeps p := Or.inl (by omega)
      have hzero : e.records p = 0 := Nat.div_eq_of_lt (by omega)
      exact ⟨iff_of_true (hsame .forked) hkeeps,
        iff_of_true hsame ⟨hkeeps, Or.inl (by omega)⟩⟩
  · intro hd fork
    rw [hintedRun, hd]

/-- `amount > 10` for amounts from 0 to 100. -/
def largeRule (hints : Hints) : Rule :=
  { name := "large", inputName := "entry", inputTy := .named "Entry", outputName := "large",
    outputTy := .bool, hints := some hints,
    logic :=
      { bindings := []
        value := .binary .gt (.field (.ident "entry") "amount") (.number 10) } }

/-- What is emitted for the comparison. -/
def largeEntry (hints : Hints) : Entry :=
  { rule := largeRule hints
    fields := [{ name := "amount", ty := .number, range := some (0, 100) }]
    code := fun _ frame =>
      match frame.words.lookup "amount" with
      | some v => .ok (greater 10 v)
      | none => .error (.signal 11)
    nonempty := by simp
    supported := by simp }

/-- A command line of texts. -/
def commandLine (words : List String) : Process :=
  { args := words.map fun w => ⟨0, utf8Bytes w⟩ }

lemma largeEntry_plain (hints : Hints) : (largeEntry hints).Plain :=
  { lets := rfl
    context := rfl
    numbers := by simp [largeEntry]
    narrow := by simp [largeEntry] }

lemma largeEntry_compares (hints : Hints) : (largeEntry hints).Compares 10 := by
  refine ⟨rfl, ?_⟩
  intro f hf v _
  cases hf
  rfl

/-- The comparison with two lanes, on the words that are in range. -/
theorem hints_keep_run_large :
    (largeEntry { vectorizable := some "each alone" }).Plain ∧
      (hintedRun (largeEntry { vectorizable := some "each alone" })
          (commandLine ["large", "5", "50"]) .forked =
        fullRun (largeEntry { vectorizable := some "each alone" })
          (commandLine ["large", "5", "50"])) := by
  have hplain := largeEntry_plain { vectorizable := some "each alone" }
  have h := hints_keep_run (largeEntry { vectorizable := some "each alone" })
    (commandLine ["large", "5", "50"]) hplain
    (fun threshold hd => by cases hd; exact largeEntry_compares _)
  exact ⟨hplain, (h.1 10 rfl .forked).mpr (by decide +kernel)⟩

/-- A word outside its declared range is answered with `true` by the program of two lanes and by
that of two processes; the program without a hint refuses it. -/
theorem hints_change_run :
    ¬ ∀ (e : Entry) (p : Process) (fork : Fork), e.Plain →
      (∀ threshold, e.driver = .vectorized threshold → e.Compares threshold) →
      hintedRun e p fork = fullRun e p := by
  intro hall
  have h := hall (largeEntry { vectorizable := some "each alone" }) (commandLine ["large", "500"])
    .forked (largeEntry_plain _) (fun threshold hd => by cases hd; exact largeEntry_compares _)
  have hstatus := congrArg Output.ending h
  rw [fullRun_eq (largeEntry_plain _) (by decide)] at hstatus
  exact absurd hstatus (by decide +kernel)

end Verbosec.Native.Hinted
