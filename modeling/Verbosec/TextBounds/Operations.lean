import Verbosec.Interpreter.Guard
import Verbosec.Lib.Except
import Verbosec.NumericBounds.Operations
import Verbosec.TextBounds.Check

/-!
# The abstract text operations stand for the runtime operations

* `Value.MemScalar`, `Value.Mem`, `Value.Wf` - the runtime values that an abstract value stands for,
  and what holds of every abstract value of the verifier.
* `utf8ByteSize_decimal` - the rendering of a number takes at most 20 bytes.
* `declaredField_spec`, `materializeInput_spec` - the entry guard establishes the declared fields.
* `joinValues_spec`, `fieldValue_spec`, `strict_sound`, `lengthValue_sound`, `concatText_sound` - one
  statement per operation: on runtime values that the abstract operands stand for, it succeeds with a
  value that the abstract result stands for.
* `callInput_spec` - an accepted argument passes the guard of the called rule.
-/

namespace Verbosec.TextBounds

open Verbosec.Lib NumericBounds Ranges
open Interpreter (ValidInput fieldValid Outcome)

/-! ## Meaning -/

namespace Value

/-- A scalar within the abstract value. -/
def MemScalar : Value → Interpreter.Value → Prop
  | number lo hi, .number n => lo ≤ n.toInt ∧ n.toInt ≤ hi
  | bool, .bool _ => True
  | text capacity, .text s => ∀ n ∈ capacity, s.utf8ByteSize ≤ n
  | _, _ => False

/-- An abstract scalar, the interval of a number being one of 64-bit numbers. -/
def WfScalar : Value → Prop
  | number lo hi => WfPiece (lo, hi)
  | bool | text _ => True
  | input _ | record _ _ => False

/-- The fields of a record are within the abstract fields. -/
def FieldsMem (abstract : Dict String Value) (fields : Dict String Interpreter.Value) : Prop :=
  ∀ n v, abstract.lookup n = some v → ∃ w, fields.lookup n = some w ∧ v.MemScalar w

/-- The runtime values that an abstract value stands for. -/
def Mem (concepts : Dict String Concept) : Value → Interpreter.Value → Prop
  | input name, .record fields => ∃ c, concepts.lookup name = some c ∧ ValidInput c fields
  | record _ abstract, .record fields => FieldsMem abstract fields
  | v, w => v.MemScalar w

/-- What holds of every abstract value of the verifier. -/
def Wf : Value → Prop
  | record _ fields => ∀ n v, fields.lookup n = some v → v.WfScalar
  | input _ => True
  | v => v.WfScalar

variable {concepts : Dict String Concept} {v : Value} {w : Interpreter.Value}

lemma WfScalar.wf (h : v.WfScalar) : v.Wf := by
  cases v <;> first | exact h | exact h.elim

lemma WfScalar.mem_iff (h : v.WfScalar) : v.Mem concepts w ↔ v.MemScalar w := by
  cases v <;> first | exact Iff.rfl | exact h.elim

lemma Wf.scalar (h : v.Wf) (hs : v.IsScalar) : v.WfScalar := by
  cases v <;> first | exact h | exact hs.elim

lemma Mem.exists_number {lo hi : Int} (h : (number lo hi).Mem concepts w) :
    ∃ n, w = .number n ∧ lo ≤ n.toInt ∧ n.toInt ≤ hi := by
  cases w <;> first | exact h.elim | exact ⟨_, rfl, h⟩

lemma Mem.exists_bool (h : bool.Mem concepts w) : ∃ b, w = .bool b := by
  cases w <;> first | exact h.elim | exact ⟨_, rfl⟩

lemma Mem.exists_text {capacity : Option Nat} (h : (text capacity).Mem concepts w) :
    ∃ s, w = .text s ∧ ∀ n ∈ capacity, s.utf8ByteSize ≤ n := by
  cases w <;> first | exact h.elim | exact ⟨_, rfl, h⟩

lemma Mem.exists_input {name : String} (h : (input name).Mem concepts w) :
    ∃ c fields, w = .record fields ∧ concepts.lookup name = some c ∧ ValidInput c fields := by
  cases w <;> first | exact h.elim | skip
  obtain ⟨c, hc, hvalid⟩ := h
  exact ⟨c, _, rfl, hc, hvalid⟩

lemma Mem.exists_record {name : String} {abstract : Dict String Value}
    (h : (record name abstract).Mem concepts w) :
    ∃ fields, w = .record fields ∧ FieldsMem abstract fields := by
  cases w <;> first | exact h.elim | exact ⟨_, rfl, h⟩

/-- The type of an abstract value is checked exactly. -/
lemma require_eq_ok {ty : Ty} : v.require ty = .ok () ↔ v.ty = ty := by
  unfold require
  split <;> simp_all

lemma ty_eq_number (h : v.ty = .number) : ∃ lo hi, v = number lo hi := by
  cases v <;> simp [ty] at h
  exact ⟨_, _, rfl⟩

lemma ty_eq_bool (h : v.ty = .bool) : v = bool := by
  cases v <;> simp [ty] at h
  rfl

lemma ty_eq_text (h : v.ty = .text) : ∃ capacity, v = text capacity := by
  cases v <;> simp [ty] at h
  exact ⟨_, rfl⟩

lemma asNumber_eq_ok {p : Interval} : v.asNumber = .ok p ↔ v = number p.1 p.2 := by
  cases v <;> simp [asNumber, Prod.ext_iff]

end Value

open Value

/-! ## Renderings -/

lemma utf8ByteSize_repr_le {n k : Nat} (hk : 0 < k) (h : n < 10 ^ k) :
    n.repr.utf8ByteSize ≤ k := by
  have hdigit : ∀ d, d < 10 → (String.singleton d.digitChar).utf8ByteSize = 1 := by decide
  induction k generalizing n with
  | zero => omega
  | succ k ih =>
      by_cases hn : n < 10
      · rw [Nat.repr_of_lt hn, hdigit n hn]
        omega
      · rw [Nat.repr_of_ge (by omega), String.utf8ByteSize_append, hdigit _ (by omega)]
        have hk' : 0 < k := by
          rcases Nat.eq_zero_or_pos k with rfl | hk'
          · omega
          · exact hk'
        have := ih (n := n / 10) hk' (by rw [pow_succ] at h; omega)
        omega

/-- The rendering of a number takes at most 20 bytes. -/
lemma utf8ByteSize_decimal (n : Int64) : (Interpreter.decimal n).utf8ByteSize ≤ 20 := by
  have hn := inI64_toInt n
  unfold InI64 minI64 maxI64 at hn
  unfold Interpreter.decimal
  rw [Int.toString_eq_repr, Int.repr_eq_if]
  split
  · have := utf8ByteSize_repr_le (n := n.toInt.toNat) (k := 19) (by omega) (by omega)
    omega
  · rw [String.utf8ByteSize_append]
    have := utf8ByteSize_repr_le (n := (-n.toInt).toNat) (k := 19) (by omega) (by omega)
    have hminus : "-".utf8ByteSize = 1 := by decide
    omega

/-! ## Declared fields -/

/-- The entry guard establishes a declared field. -/
lemma declaredField_spec {f : Field} {v : Value} (h : declaredField f = .ok v) :
    v.WfScalar ∧ ∀ fields, fieldValid f fields = true →
      ∃ w, fields.lookup f.name = some w ∧ v.MemScalar w := by
  unfold declaredField at h
  unfold fieldValid
  split at h
  · rename_i hty
    simp only at h
    split at h
    · cases h
    rename_i hle
    cases h
    refine ⟨?_, fun fields hf => ?_⟩
    · cases hr : f.range with
      | none => exact ⟨by decide, by decide, by decide⟩
      | some b =>
          simp only [hr, Option.elim_some] at hle ⊢
          exact ⟨by omega, inI64_toInt _, inI64_toInt _⟩
    · rw [hty] at hf
      split at hf <;> simp_all only [reduceCtorEq, Bool.false_eq_true]
      rename_i hlookup
      refine ⟨_, rfl, ?_⟩
      cases hr : f.range with
      | none => exact inI64_toInt _
      | some b =>
          simp only [hr, Option.elim_some, Bool.and_eq_true, decide_eq_true_eq,
            Int64.le_iff_toInt_le] at hf
          exact hf
  · rename_i hty
    cases h
    refine ⟨trivial, fun fields hf => ?_⟩
    rw [hty] at hf
    split at hf <;> simp_all only [reduceCtorEq, Bool.false_eq_true]
    refine ⟨_, rfl, fun n hn => ?_⟩
    unfold declaredCapacity at hn
    cases hr : f.range with
    | none => simp [hr] at hn
    | some b =>
        simp only [hr, Option.elim_some, decide_eq_true_eq] at hf
        simp only [hr, Option.bind_some, Option.mem_def] at hn
        split at hn
        · cases hn
          omega
        · cases hn
  · cases h

/-- The entry guard establishes every declared field. -/
lemma declaredFields_spec {c : Concept} {abstract : Dict String Value}
    (h : declaredFields c = .ok abstract) :
    (∀ n v, abstract.lookup n = some v → v.WfScalar) ∧
      ∀ fields, ValidInput c fields → FieldsMem abstract fields := by
  obtain ⟨l, hl, h⟩ := Except.bind_eq_ok.mp h
  cases h
  have hentry : ∀ n v, l.reverse.lookup n = some v →
      ∃ f ∈ c.fields, f.name = n ∧ declaredField f = .ok v := by
    intro n v hv
    obtain ⟨f, hf, hfv⟩ := Except.mem_of_mapM_eq_ok hl (List.mem_reverse.mp (Dict.mem_of_lookup hv))
    obtain ⟨v', hv', heq⟩ := Except.map_eq_ok.mp hfv
    cases heq
    exact ⟨f, hf, rfl, hv'⟩
  constructor
  · intro n v hv
    obtain ⟨f, -, -, hf⟩ := hentry n v hv
    exact (declaredField_spec hf).1
  · intro fields hvalid n v hv
    obtain ⟨f, hmem, rfl, hf⟩ := hentry n v hv
    exact (declaredField_spec hf).2 fields (hvalid f hmem)

namespace Check

variable {chk : Check}

/-- The input as a record stands for the same runtime values. -/
lemma materializeInput_spec {v v' : Value} (hv : v.Wf) (h : chk.materializeInput v = .ok v') :
    v'.Wf ∧ ∀ w, v.Mem chk.concepts w → v'.Mem chk.concepts w := by
  unfold materializeInput at h
  split at h
  · split at h
    · rename_i name c hc
      obtain ⟨abstract, habstract, heq⟩ := Except.map_eq_ok.mp h
      subst heq
      obtain ⟨hwf, hmem⟩ := declaredFields_spec habstract
      refine ⟨hwf, fun w hw => ?_⟩
      obtain ⟨c', fields, rfl, hc', hvalid⟩ := hw.exists_input
      rw [hc] at hc'
      cases hc'
      exact hmem fields hvalid
    · cases h
  · cases h
    exact ⟨hv, fun w hw => hw⟩

/-- A field of a value within an abstract record is within the abstract field. -/
lemma fieldValue_spec {base v : Value} {name : String} (hbase : base.Wf)
    (h : chk.fieldValue base name = .ok v) :
    v.WfScalar ∧ ∀ w, base.Mem chk.concepts w →
      ∃ fields x, w = .record fields ∧ fields.lookup name = some x ∧ v.MemScalar x := by
  unfold fieldValue at h
  split at h
  · rename_i cname
    unfold inputField at h
    split at h
    · cases h
    rename_i f hf
    obtain ⟨c, hc, hf⟩ := Option.bind_eq_some_iff.mp hf
    have hname : f.name = name := by simpa using List.find?_some hf
    obtain ⟨hwf, hmem⟩ := declaredField_spec h
    refine ⟨hwf, fun w hw => ?_⟩
    obtain ⟨c', fields, rfl, hc', hvalid⟩ := hw.exists_input
    rw [hc] at hc'
    cases hc'
    obtain ⟨x, hx, hxm⟩ := hmem fields (hvalid f (List.mem_of_find?_eq_some hf))
    exact ⟨fields, x, rfl, hname ▸ hx, hxm⟩
  · split at h
    · rename_i cname abstract v' hv'
      cases h
      refine ⟨hbase name v hv', fun w hw => ?_⟩
      obtain ⟨fields, rfl, hmem⟩ := hw.exists_record
      obtain ⟨x, hx, hxm⟩ := hmem name v hv'
      exact ⟨fields, x, rfl, hx, hxm⟩
    · cases h
  · cases h

end Check

/-! ## Conditionals -/

/-- The join of two scalars covers both. -/
lemma joinScalar_spec {a b v : Value} (ha : a.WfScalar) (hb : b.WfScalar)
    (h : joinScalar a b = .ok v) :
    v.WfScalar ∧ ∀ w, a.MemScalar w ∨ b.MemScalar w → v.MemScalar w := by
  obtain ⟨_, hty, h⟩ := Except.bind_eq_ok.mp h
  cases a <;> cases b <;> simp only [reduceCtorEq] at h
  case number.number lo hi lo' hi' =>
    cases h
    refine ⟨?_, fun w hw => ?_⟩
    · unfold WfScalar WfPiece InI64 at *
      simp only at *
      omega
    · cases w <;> first | exact (or_self_iff.mp hw).elim | skip
      simp only [MemScalar] at *
      omega
  case bool.bool =>
    cases h
    exact ⟨trivial, fun w hw => or_self_iff.mp hw⟩
  case text.text m n =>
    cases h
    refine ⟨trivial, fun w hw => ?_⟩
    cases w <;> first | exact (or_self_iff.mp hw).elim | skip
    intro k hk
    obtain ⟨x, hx, hk⟩ := Option.bind_eq_some_iff.mp hk
    obtain ⟨y, hy, rfl⟩ := Option.map_eq_some_iff.mp hk
    rcases hw with hw | hw
    · exact (hw x hx).trans (le_max_left _ _)
    · exact (hw y hy).trans (le_max_right _ _)

/-- The joined fields cover both records. -/
lemma joinFields_spec {name : String} {names : List String} :
    ∀ {a b joined : Dict String Value}, (∀ n v, a.lookup n = some v → v.WfScalar) →
      (∀ n v, b.lookup n = some v → v.WfScalar) → joinFields name names a b = .ok joined →
      (∀ n v, joined.lookup n = some v → v.WfScalar) ∧
        ∀ fields, FieldsMem a fields ∨ FieldsMem b fields → FieldsMem joined fields := by
  induction names with
  | nil =>
      intro a b joined ha hb h
      cases h
      exact ⟨by simp, fun fields _ n v hv => by simp at hv⟩
  | cons field rest ih =>
      intro a b joined ha hb h
      unfold joinFields at h
      split at h
      · rename_i x y hx hy
        obtain ⟨v, hv, h⟩ := Except.bind_eq_ok.mp h
        obtain ⟨joined', hjoined, h⟩ := Except.bind_eq_ok.mp h
        cases h
        have herase : ∀ {d : Dict String Value} {n v}, (d.erase field).lookup n = some v →
            d.lookup n = some v := by
          intro d n v hv
          rw [Dict.lookup_erase] at hv
          split at hv
          · cases hv
          · exact hv
        obtain ⟨hwf, hmem⟩ := ih (fun n v hv => ha n v (herase hv)) (fun n v hv => hb n v (herase hv))
          hjoined
        have hscalar : joinScalar x y = .ok v := by
          cases hj : joinScalar x y <;> simp_all [Except.mapError]
        obtain ⟨hvwf, hvmem⟩ := joinScalar_spec (ha _ _ hx) (hb _ _ hy) hscalar
        refine ⟨fun n u hu => ?_, fun fields hfields n u hu => ?_⟩
        · rw [List.lookup_cons] at hu
          split at hu
          · cases hu
            exact hvwf
          · exact hwf n u hu
        · rw [List.lookup_cons] at hu
          split at hu
          · rename_i heq
            cases hu
            obtain rfl : n = field := by simpa using heq
            rcases hfields with hf | hf
            · obtain ⟨w, hw, hwm⟩ := hf _ _ hx
              exact ⟨w, hw, hvmem w (Or.inl hwm)⟩
            · obtain ⟨w, hw, hwm⟩ := hf _ _ hy
              exact ⟨w, hw, hvmem w (Or.inr hwm)⟩
          · refine hmem fields (hfields.imp ?_ ?_) n u hu
            · exact fun hf n v hv => hf n v (herase hv)
            · exact fun hf n v hv => hf n v (herase hv)
      · cases h

/-- The abstract value of a conditional covers both arms. -/
lemma Check.joinValues_spec {chk : Check} {a b v : Value} (ha : a.Wf) (hb : b.Wf)
    (h : chk.joinValues a b = .ok v) :
    v.Wf ∧ ∀ w, a.Mem chk.concepts w ∨ b.Mem chk.concepts w → v.Mem chk.concepts w := by
  unfold Check.joinValues at h
  split at h
  · rename_i name fa name' fb
    obtain ⟨joined, hjoined, rfl⟩ := Except.map_eq_ok.mp h
    obtain ⟨hwf, hmem⟩ := joinFields_spec ha hb hjoined
    refine ⟨hwf, fun w hw => ?_⟩
    rcases hw with hw | hw
    · obtain ⟨fields, rfl, hf⟩ := hw.exists_record
      exact hmem fields (Or.inl hf)
    · obtain ⟨fields, rfl, hf⟩ := hw.exists_record
      exact hmem fields (Or.inr hf)
  · have hscalar : a.WfScalar ∧ b.WfScalar := by
      obtain ⟨_, -, h⟩ := Except.bind_eq_ok.mp h
      cases a <;> cases b <;> simp only [reduceCtorEq] at h <;> exact ⟨ha, hb⟩
    obtain ⟨hwf, hmem⟩ := joinScalar_spec hscalar.1 hscalar.2 h
    refine ⟨hwf.wf, fun w hw => ?_⟩
    rw [hscalar.1.mem_iff, hscalar.2.mem_iff] at hw
    exact hwf.mem_iff.mpr (hmem w hw)

/-! ## Operators -/

namespace Check

variable {concepts : Dict String Concept}

/-- Negation does not overflow on an accepted interval. -/
lemma negValue_sound {a v : Value} (ha : a.Wf) (h : negValue a = .ok v) :
    v.WfScalar ∧ ∀ w, a.Mem concepts w →
      ∃ w', Interpreter.applyNeg w = .ok w' ∧ v.MemScalar w' := by
  obtain ⟨p, hp, hv⟩ := Except.bind_eq_ok.mp h
  rw [Value.asNumber_eq_ok] at hp
  subst hp
  simp only at hv
  split at hv
  · cases hv
  rename_i hmin
  cases hv
  obtain ⟨hle, hlo, hhi⟩ : WfPiece (p.1, p.2) := ha
  refine ⟨?_, fun w hw => ?_⟩
  · unfold WfScalar WfPiece InI64 minI64 maxI64 at *
    omega
  · obtain ⟨n, rfl, hn⟩ := hw.exists_number
    have hfit : InI64 (-n.toInt) := by
      unfold InI64 minI64 maxI64 at *
      omega
    obtain ⟨m, hm, hval⟩ := exists_toI64? hfit
    refine ⟨.number m, ?_, ?_⟩
    · show Interpreter.arith "negate" (checkedNeg n) = _
      rw [checkedNeg_eq_some.mpr hval]
      rfl
    · show -p.2 ≤ m.toInt ∧ m.toInt ≤ -p.1
      omega

/-- The absolute value is exact on an accepted interval. -/
lemma absValue_sound {a v : Value} (ha : a.Wf) (h : absValue a = .ok v) :
    v.WfScalar ∧ ∀ w, a.Mem concepts w →
      ∃ w', Interpreter.applyAbs w = .ok w' ∧ v.MemScalar w' := by
  obtain ⟨p, hp, hv⟩ := Except.bind_eq_ok.mp h
  rw [Value.asNumber_eq_ok] at hp
  subst hp
  simp only at hv
  split at hv
  · cases hv
  rename_i hmin
  cases hv
  obtain ⟨hle, hlo, hhi⟩ : WfPiece (p.1, p.2) := ha
  refine ⟨?_, fun w hw => ?_⟩
  · unfold WfScalar WfPiece InI64 minI64 maxI64 at *
    simp only at *
    split <;> omega
  · obtain ⟨n, rfl, hn⟩ := hw.exists_number
    refine ⟨.number n.abs, rfl, ?_⟩
    have hne : n.toInt ≠ minI64 := by
      have := hlo.1
      simp only at this hmin
      omega
    simp only [MemScalar, toInt_abs hne]
    split <;> omega

/-- The minimum and the maximum stay in the computed interval. -/
lemma minMax_sound {lo hi lo' hi' : Int} (ha : (number lo hi).Wf) (hb : (number lo' hi').Wf) :
    ((number (min lo lo') (min hi hi')).WfScalar ∧ (number (max lo lo') (max hi hi')).WfScalar) ∧
      ∀ l r, (number lo hi).Mem concepts l → (number lo' hi').Mem concepts r →
        (∃ w, Interpreter.numbersOp "min" min l r = .ok w ∧
          (number (min lo lo') (min hi hi')).MemScalar w) ∧
        ∃ w, Interpreter.numbersOp "max" max l r = .ok w ∧
          (number (max lo lo') (max hi hi')).MemScalar w := by
  constructor
  · unfold Value.Wf WfScalar WfPiece InI64 at *
    simp only at *
    omega
  · intro l r hl hr
    obtain ⟨x, rfl, hx⟩ := hl.exists_number
    obtain ⟨y, rfl, hy⟩ := hr.exists_number
    refine ⟨⟨.number (min x y), rfl, ?_⟩, .number (max x y), rfl, ?_⟩
    · simp only [MemScalar, toInt_min]
      omega
    · simp only [MemScalar, toInt_max]
      omega

/-- What an accepted arithmetic operator computes. -/
lemma binaryValue_arith {op : BinOp} (hop : isArith op = true) {a b v : Value}
    (h : binaryValue op a b = .ok v) :
    ∃ p q s, a = number p.1 p.2 ∧ b = number q.1 q.2 ∧ v = number s.1 s.2 ∧
      arithmetic op p q = .ok s := by
  have h' : (do
      let a ← a.asNumber
      let b ← b.asNumber
      let range ← (arithmetic op a b).mapError ("numeric arithmetic: " ++ ·)
      .ok (number range.1 range.2) : Except String Value) = .ok v := by
    cases op <;> simp only [isArith, reduceCtorEq] at hop <;> exact h
  obtain ⟨p, hp, h'⟩ := Except.bind_eq_ok.mp h'
  obtain ⟨q, hq, h'⟩ := Except.bind_eq_ok.mp h'
  obtain ⟨s, hs, h'⟩ := Except.bind_eq_ok.mp h'
  cases h'
  refine ⟨p, q, s, Value.asNumber_eq_ok.mp hp, Value.asNumber_eq_ok.mp hq, rfl, ?_⟩
  cases harith : arithmetic op p q <;> simp_all [Except.mapError]

/-- An accepted comparison has operands of one scalar type, and a truth value as result. -/
lemma binaryValue_comparison {op : BinOp} (harith : isArith op = false)
    (hlogic : ¬ (op = .and ∨ op = .or)) {a b v : Value} (h : binaryValue op a b = .ok v) :
    v = .bool ∧ a.ty = b.ty ∧ a.IsScalar ∧ (a.ty ≠ .number → op = .eq ∨ op = .notEq) := by
  cases op <;> simp only [isArith, reduceCtorEq] at harith <;>
    simp only [reduceCtorEq, or_false, or_true, or_self, not_true_eq_false] at hlogic
  case gt | gtEq | lt | ltEq =>
    obtain ⟨_, ha, h⟩ := Except.bind_eq_ok.mp h
    obtain ⟨_, hb, h⟩ := Except.bind_eq_ok.mp h
    rw [require_eq_ok] at ha hb
    cases h
    obtain ⟨lo, hi, rfl⟩ := ty_eq_number ha
    exact ⟨rfl, hb.symm, trivial, fun hne => absurd rfl hne⟩
  case eq | notEq =>
    obtain ⟨_, hty, h⟩ := Except.bind_eq_ok.mp h
    rw [require_eq_ok] at hty
    split at h
    · cases h
      exact ⟨rfl, hty, ‹_›, fun _ => by simp⟩
    · cases h

/-- The abstract operands and the abstract result of a logical operator are truth values. -/
lemma binaryValue_logical {op : BinOp} (hlogic : op = .and ∨ op = .or) {a b v : Value}
    (h : binaryValue op a b = .ok v) : a = .bool ∧ b = .bool ∧ v = .bool := by
  rcases hlogic with rfl | rfl <;>
  · obtain ⟨_, ha, h⟩ := Except.bind_eq_ok.mp h
    obtain ⟨_, hb, h⟩ := Except.bind_eq_ok.mp h
    rw [require_eq_ok] at ha hb
    cases h
    exact ⟨ty_eq_bool ha, ty_eq_bool hb, rfl⟩

/-- The abstract result of an operator is well formed. -/
lemma binaryValue_wf {op : BinOp} {a b v : Value} (ha : a.Wf) (hb : b.Wf)
    (h : binaryValue op a b = .ok v) : v.WfScalar := by
  by_cases harith : isArith op = true
  · obtain ⟨p, q, s, rfl, rfl, rfl, hs⟩ := binaryValue_arith harith h
    exact arithmetic_wf (p := p) (q := q) ha hb hs
  · by_cases hlogic : op = .and ∨ op = .or
    · obtain ⟨-, -, rfl⟩ := binaryValue_logical hlogic h
      trivial
    · obtain ⟨rfl, -⟩ := binaryValue_comparison (by simpa using harith) hlogic h
      trivial

/-- **A strict operator succeeds on accepted operands**, with a value that the abstract result
stands for. -/
theorem strict_sound {op : BinOp} (hlogic : ¬ (op = .and ∨ op = .or)) {a b v : Value} (ha : a.Wf)
    (h : binaryValue op a b = .ok v) {l r : Interpreter.Value} (hl : a.Mem concepts l)
    (hr : b.Mem concepts r) : ∃ w, Interpreter.applyBinary op l r = .ok w ∧ v.MemScalar w := by
  by_cases harith : isArith op = true
  · obtain ⟨p, q, s, rfl, rfl, rfl, hs⟩ := binaryValue_arith harith h
    obtain ⟨x, rfl, hx⟩ := hl.exists_number
    obtain ⟨y, rfl, hy⟩ := hr.exists_number
    obtain ⟨hdiv, hfit, hmem⟩ := arithmetic_sound (p := p) (q := q) ha hs hx hy
    obtain ⟨z, hz, hval⟩ := arithNumbers_of_inI64 harith hdiv hfit
    exact ⟨.number z, applyBinary_arith harith hz, by simp only [MemScalar]; omega⟩
  · have harith' : isArith op = false := by simpa using harith
    obtain ⟨rfl, hty, hscalar, heq⟩ := binaryValue_comparison harith' hlogic h
    cases a with
    | number lo hi =>
        obtain ⟨lo', hi', rfl⟩ := ty_eq_number hty.symm
        obtain ⟨x, rfl, -⟩ := hl.exists_number
        obtain ⟨y, rfl, -⟩ := hr.exists_number
        cases op <;> simp only [isArith, reduceCtorEq] at harith' <;>
          simp only [reduceCtorEq, or_false, or_true, or_self, not_true_eq_false] at hlogic <;>
          exact ⟨_, rfl, trivial⟩
    | bool =>
        obtain rfl := ty_eq_bool hty.symm
        obtain ⟨x, rfl⟩ := hl.exists_bool
        obtain ⟨y, rfl⟩ := hr.exists_bool
        rcases heq (by simp [Value.ty]) with rfl | rfl <;> exact ⟨_, rfl, trivial⟩
    | text capacity =>
        obtain ⟨capacity', rfl⟩ := ty_eq_text hty.symm
        obtain ⟨x, rfl, -⟩ := hl.exists_text
        obtain ⟨y, rfl, -⟩ := hr.exists_text
        rcases heq (by simp [Value.ty]) with rfl | rfl <;> exact ⟨_, rfl, trivial⟩
    | input | record => exact hscalar.elim

/-- A text's byte count is in the computed interval; the one failure is a text that no host holds. -/
lemma lengthValue_sound {a v : Value} (h : lengthValue a = .ok v) :
    v.WfScalar ∧ ∀ w, a.Mem concepts w →
      Within (· = .capacity) v.MemScalar (Interpreter.applyLength w) := by
  unfold lengthValue at h
  split at h
  · rename_i capacity
    cases h
    constructor
    · cases capacity with
      | none => exact ⟨by decide, by decide, by decide⟩
      | some n =>
          simp only [Option.bind_some]
          split
          · simp only [Option.getD_some]
            unfold WfScalar WfPiece InI64 minI64
            simp only
            omega
          · exact ⟨by decide, by decide, by decide⟩
    · intro w hw
      obtain ⟨s, rfl, hs⟩ := hw.exists_text
      show Within _ _ ((Interpreter.byteLen s.utf8ByteSize).map Interpreter.Value.number)
      unfold Interpreter.byteLen
      cases hlen : toI64? (s.utf8ByteSize : Int) with
      | none => exact rfl
      | some len =>
          rw [toI64?_eq_some] at hlen
          have hmax := toInt_le_maxI64 len
          show 0 ≤ len.toInt ∧ len.toInt ≤ _
          refine ⟨by omega, ?_⟩
          cases capacity with
          | none => exact hmax
          | some n =>
              have := hs n rfl
              simp only [Option.bind_some]
              split
              · simp only [Option.getD_some]
                omega
              · exact hmax
  · cases h

/-- A part of a text within its abstract value is rendered within its capacity. -/
lemma concatPiece_sound {v : Value} {n : Option Nat} (h : v.asCapacity = .ok n)
    {w : Interpreter.Value} (hw : v.Mem concepts w) :
    w.isBytes = false ∧ ∃ piece, Interpreter.concatPiece w = .ok piece ∧
      ∀ k ∈ n, piece.utf8ByteSize ≤ k := by
  unfold asCapacity at h
  split at h
  · cases h
    obtain ⟨s, rfl, hs⟩ := hw.exists_text
    exact ⟨rfl, s, rfl, hs⟩
  · cases h
    obtain ⟨x, rfl, -⟩ := hw.exists_number
    refine ⟨rfl, _, rfl, fun k hk => ?_⟩
    cases hk
    exact utf8ByteSize_decimal x
  · cases h

/-! ## Calls -/

/-- A checked field of a constructed record passes the guard of the called rule. -/
lemma callField_spec {name : String} {values : Dict String Value} {f : Field}
    (h : callField name values f = .ok ()) {fields : Dict String Interpreter.Value}
    (hfields : FieldsMem values fields) : fieldValid f fields = true := by
  unfold callField at h
  simp only at h
  split at h
  · cases h
  rename_i v hv
  obtain ⟨w, hw, hmem⟩ := hfields _ _ hv
  obtain ⟨_, hty, h⟩ := Except.bind_eq_ok.mp h
  rw [require_eq_ok] at hty
  unfold fieldValid
  split at h
  · -- a text: the declared capacity covers the argument's
    rename_i capacity
    rw [← hty]
    split at h
    · cases h
    · cases h
    rename_i max actual hmax
    split at h
    · cases h
    rename_i hle
    cases w <;> simp only [MemScalar] at hmem
    have hsize := hmem actual rfl
    simp only [Value.ty, hw]
    unfold declaredCapacity at hmax
    obtain ⟨b, hb, hmax⟩ := Option.bind_eq_some_iff.mp hmax
    split at hmax
    · rename_i hnonneg
      rw [Int64.le_iff_toInt_le, Int64.toInt_zero] at hnonneg
      cases hmax
      simp only [hb, Option.elim_some, decide_eq_true_eq]
      omega
    · cases hmax
  · -- a number: the declared interval covers the argument's
    rename_i lo hi
    rw [← hty]
    cases w <;> simp only [MemScalar] at hmem
    simp only [Value.ty, hw]
    split at h
    · rename_i hr
      simp [hr]
    · rename_i b hr
      split at h
      · cases h
      rename_i hle
      simp only [hr, Option.elim_some, Bool.and_eq_true, decide_eq_true_eq, Int64.le_iff_toInt_le]
      omega
  · cases h

/-- **An accepted argument passes the guard of the called rule.** -/
theorem callInput_spec {chk : Check} {name : String} {v : Value}
    (h : chk.callInput name v = .ok ()) :
    ∃ callee cname, chk.rules.lookup name = some callee ∧ callee.inputTy = .named cname ∧
      ∀ w, v.Mem chk.concepts w →
        ∃ c fields, w = .record fields ∧ chk.concepts.lookup cname = some c ∧ ValidInput c fields := by
  unfold callInput at h
  split at h
  · cases h
  rename_i callee hcallee
  obtain ⟨_, hty, h⟩ := Except.bind_eq_ok.mp h
  rw [require_eq_ok] at hty
  split at h
  · refine ⟨callee, _, hcallee, hty.symm, fun w hw => ?_⟩
    exact hw.exists_input
  · rename_i cname values _
    split at h
    · cases h
    rename_i c hc
    refine ⟨callee, cname, hcallee, hty.symm, fun w hw => ?_⟩
    obtain ⟨fields, rfl, hfields⟩ := hw.exists_record
    refine ⟨c, fields, rfl, hc, fun f hf => ?_⟩
    exact callField_spec (Except.forM_eq_ok.mp h f hf) hfields
  · cases h

end Check

end Verbosec.TextBounds
