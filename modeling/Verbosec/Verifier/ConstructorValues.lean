import Verbosec.Interpreter.Eval
import Verbosec.Lib.Except
import Verbosec.Verifier.ConstructorTypes

/-!
# The types of values

* `HasType` - the values of a declared type; `Fills` - what the fields of a constructor hold.
* `Fact.Describes`, `Scoped` - what a fact says of a value, and the facts of a scope of its names.
* `hasType_of_fits`, `describes_join`, `describes_element`, `describes_collection` - the operations
  on facts keep what they say.
* `resultTy`, `hasType_of_resultTy` - the expressions whose form decides the type of their value.

Source: `constructor_types.rs`, `Fact`; `interpreter.rs`, `eval_expr`.
-/

namespace Verbosec.ConstructorTypes

open Verbosec.Lib Verbosec.Interpreter

/-! ## Types of values -/

/-- The values of a declared type. A field name declared twice counts where it is declared first. -/
inductive HasType (concepts : Dict String Concept) : Value → Ty → Prop
  | number (n : Int64) : HasType concepts (.number n) .number
  | boundsError : HasType concepts .boundsError .boundsError
  | bool (b : Bool) : HasType concepts (.bool b) .bool
  | text (s : String) : HasType concepts (.text s) .text
  | bytes (b : List UInt8) : HasType concepts (.bytes b) .bytes
  | collection {items : List Value} {name : String}
      (h : ∀ v ∈ items, HasType concepts v (itemTy name)) :
      HasType concepts (.list items) (.collection name)
  | ok {v : Value} {t e : Ty} (h : HasType concepts v t) : HasType concepts (.ok v) (.result t e)
  | err {v : Value} {t e : Ty} (h : HasType concepts v e) : HasType concepts (.err v) (.result t e)
  | record {n : String} {decl : List Field} {fields : List (String × Value)}
      (hdecl : Checker.recordDecl concepts n = some decl) (once : (fields.map (·.1)).Nodup)
      (names : ∀ name, name ∈ fields.map (·.1) ↔ name ∈ decl.map (·.name))
      (typed : ∀ f ∈ fields, ∀ d, decl.find? (·.name = f.1) = some d → HasType concepts f.2 d.ty) :
      HasType concepts (.record fields) (.named n)
  | variant {n v : String} {decl : List Field} {fields : List (String × Value)}
      (hdecl : Checker.variantDecl concepts n v = some decl) (once : (fields.map (·.1)).Nodup)
      (names : ∀ name, name ∈ fields.map (·.1) ↔ name ∈ decl.map (·.name))
      (typed : ∀ f ∈ fields, ∀ d, decl.find? (·.name = f.1) = some d → HasType concepts f.2 d.ty) :
      HasType concepts (.variant n v fields) (.named n)

/-- The fields of a constructor: each declared field once, no other, each with a value of its
declared type. -/
structure Fills (concepts : Dict String Concept) (decl : List Field)
    (fields : List (String × Value)) : Prop where
  once : (fields.map (·.1)).Nodup
  names : ∀ name, name ∈ fields.map (·.1) ↔ name ∈ decl.map (·.name)
  typed : ∀ f ∈ fields, ∀ d, decl.find? (·.name = f.1) = some d → HasType concepts f.2 d.ty

section facts

variable {concepts : Dict String Concept} {f g : Fact} {v : Value} {t : Ty}

namespace Fact

/-- What a fact says of a value. -/
def Describes (concepts : Dict String Concept) : Fact → Value → Prop
  | known t, v => HasType concepts v t
  | result a _, .ok v => a.Describes concepts v
  | result _ b, .err v => b.Describes concepts v
  | result _ _, _ => False
  | absent, _ => False
  | unknown, _ => True

lemma describes_unknown : unknown.Describes concepts v := by simp [Describes]

lemma describes_result (h : (result f g).Describes concepts v) :
    (∃ w, v = .ok w ∧ f.Describes concepts w) ∨ ∃ w, v = .err w ∧ g.Describes concepts w := by
  cases v with
  | ok w => exact .inl ⟨w, rfl, h⟩
  | err w => exact .inr ⟨w, rfl, h⟩
  | _ => exact h.elim

/-- The fact of a type describes the values of the type. -/
lemma describes_fromType (h : HasType concepts v t) : (fromType t).Describes concepts v := by
  induction h with
  | ok _ ih => exact ih
  | err _ ih => exact ih
  | number n => exact .number n
  | boundsError => exact .boundsError
  | bool b => exact .bool b
  | text s => exact .text s
  | bytes b => exact .bytes b
  | collection h => exact .collection h
  | record hdecl once names typed => exact .record hdecl once names typed
  | variant hdecl once names typed => exact .variant hdecl once names typed

/-- A fact that fits a type describes values of the type only. -/
lemma hasType_of_fits (hfits : f.fits t) (h : f.Describes concepts v) : HasType concepts v t := by
  induction f generalizing t v with
  | known actual =>
      obtain rfl : actual = t := by simpa [fits] using hfits
      exact h
  | result a b iha ihb =>
      cases t with
      | result t e =>
          simp only [fits, Bool.and_eq_true, Bool.or_eq_true, decide_eq_true_eq] at hfits
          rcases describes_result h with ⟨w, rfl, hw⟩ | ⟨w, rfl, hw⟩
          · refine .ok (iha (hfits.1.resolve_left ?_) hw)
            rintro rfl
            exact hw
          · refine .err (ihb (hfits.2.resolve_left ?_) hw)
            rintro rfl
            exact hw
      | _ => cases hfits
  | absent => exact h.elim
  | unknown => cases hfits

lemma describes_produced (valid : Bool) (h : HasType concepts v t) :
    (produced valid t).Describes concepts v := by
  cases valid with
  | false => exact describes_unknown
  | true => exact describes_fromType h

/-- The joined fact describes what either fact describes. -/
lemma describes_join : f.Describes concepts v ∨ g.Describes concepts v →
    (f.join g).Describes concepts v := by
  induction f generalizing g v with
  | absent => exact fun h => h.resolve_left id
  | result a b iha ihb =>
      intro h
      cases g with
      | absent => exact h.resolve_right id
      | result c d =>
          rw [join]
          cases v with
          | ok w => exact iha h
          | err w => exact ihb h
          | _ => exact h.elim id id
      | known t => simp [join, Describes]
      | unknown => simp [join, Describes]
  | known t =>
      intro h
      cases g with
      | absent => exact h.resolve_right id
      | known t' =>
          simp only [join]
          split
          · rename_i heq
            exact h.elim id (heq ▸ id)
          · exact describes_unknown
      | _ => simp [join, Describes]
  | unknown =>
      intro h
      cases g with
      | absent => exact describes_unknown
      | _ => simp [join, Describes]

lemma describes_bound (h : f.Describes concepts v) : f.bound.Describes concepts v := by
  cases f with
  | absent => exact h.elim
  | _ => exact h

/-- The items of a described collection are described. -/
lemma describes_element {items : List Value} (h : f.Describes concepts (.list items)) :
    ∀ v ∈ items, f.element.Describes concepts v := by
  intro v hv
  cases f with
  | known t =>
      cases h with
      | collection hitems => exact hitems v hv
  | _ => exact describes_unknown

/-- A collection of described items is described, where no concept has the name of a scalar type. -/
lemma describes_collection
    (hscalar : ∀ n c, concepts.lookup n = some c → itemTy n = .named n) {items : List Value}
    (h : ∀ v ∈ items, f.Describes concepts v) : f.collection.Describes concepts (.list items) := by
  cases f with
  | known t =>
      cases t with
      | number => exact .collection h
      | bool => exact .collection h
      | text => exact .collection h
      | bytes => exact .collection h
      | named n =>
          refine .collection fun v hv => ?_
          have hname : itemTy n = .named n := by
            cases h v hv with
            | record hdecl =>
                obtain ⟨c, hc, -⟩ := Option.bind_eq_some_iff.mp hdecl
                exact hscalar n c hc
            | variant hdecl =>
                obtain ⟨c, hc, -⟩ := Option.bind_eq_some_iff.mp hdecl
                exact hscalar n c hc
          rw [typeDisplay, hname]
          exact h v hv
      | _ => exact describes_unknown
  | _ => exact describes_unknown

/-- The facts of the payloads describe them. -/
lemma describes_payload_ok (h : f.Describes concepts (.ok v)) :
    (f.payloads.elim unknown (·.1)).Describes concepts v := by
  cases f with
  | result a b => exact describes_bound h
  | _ => exact describes_unknown

lemma describes_payload_err (h : f.Describes concepts (.err v)) :
    (f.payloads.elim unknown (·.2)).Describes concepts v := by
  cases f with
  | result a b => exact describes_bound h
  | _ => exact describes_unknown

end Fact

end facts

/-! ## Scopes -/

/-- The facts in scope describe the values of the names. -/
def Scoped (concepts : Dict String Concept) (facts : Facts) (env : Env) : Prop :=
  ∀ name v, env.lookup name = some v → ((facts.lookup name).getD .unknown).Describes concepts v

lemma Scoped.insert {concepts : Dict String Concept} {facts : Facts} {env : Env}
    (h : Scoped concepts facts env) {f : Fact} {v : Value} (hv : f.Describes concepts v)
    (name : String) : Scoped concepts (Dict.insert facts name f) (Dict.insert env name v) := by
  intro n w hw
  rw [Dict.lookup_insert] at hw ⊢
  split at hw
  · rename_i heq
    cases hw
    simpa [heq] using hv
  · rename_i hne
    simpa [hne] using h n w hw

/-! ## Forms that decide the type -/

/-- The type that an operator gives its result. -/
def opTy : BinOp → Ty
  | .add | .sub | .mul | .div | .mod => .number
  | _ => .bool

/-- The type of the value of an expression, where its form decides it. -/
def resultTy : Expr → Option Ty
  | .number _ | .nowUnix | .min _ _ | .max _ _ | .bitAnd _ _ | .bitOr _ _ | .bitXor _ _ | .shl _ _
  | .shr _ _ | .parseInt _ | .neg _ | .abs _ | .bitNot _ | .length _ | .byteAt _ _
  | .foldBytes _ _ _ _ _ _ => some .number
  | .text _ | .read _ | .jsonEscape _ | .fetch _ _ | .substring _ _ _ => some .text
  | .bytes _ | .random _ | .le32 _ | .le64 _ | .abortIf _ => some .bytes
  | .startsWith _ _ | .endsWith _ _ | .contains _ _ | .not _ | .quantifier _ _ _ _ => some .bool
  | .tryByteAt _ _ => some (.result .number .boundsError)
  | .binary op _ _ => some (opTy op)
  | _ => none

/-- There the fact is that type or nothing. -/
lemma walk_of_resultTy (chk : Checker) (env : Facts) {e : Expr} {t : Ty}
    (h : resultTy e = some t) :
    (walk chk env e).fact = Fact.fromType t ∨ (walk chk env e).fact = .unknown := by
  have hproduced : ∀ (valid : Bool) (t : Ty),
      Fact.produced valid t = Fact.fromType t ∨ Fact.produced valid t = .unknown := by
    intro valid t
    cases valid <;> simp [Fact.produced]
  cases e <;> simp only [resultTy, Option.some.injEq, reduceCtorEq] at h <;> subst h
  case quantifier kind coll var pred =>
    simp only [walk, Walked.strict]
    split
    · exact .inr rfl
    · exact hproduced _ _
  case binary op a b =>
    cases op <;> exact hproduced _ _
  all_goals first
    | exact hproduced _ _
    | exact .inl rfl

/-! ## The values of the operators -/

section operators

variable {concepts : Dict String Concept} {v w x : Value}

lemma hasType_arith {op : String} {o : Option Int64} (h : arith op o = .ok v) :
    HasType concepts v .number := by
  cases o with
  | none => cases h
  | some n =>
      cases h
      exact .number n

lemma hasType_applyBinary {op : BinOp} (hop : op ≠ .and ∧ op ≠ .or)
    (h : applyBinary op w x = .ok v) : HasType concepts v (opTy op) := by
  cases w <;> cases x <;> try cases h
  case number.number a b =>
    cases op <;> simp only [applyBinary, compareNumbers, arithNumbers, Option.getD_some] at h
    case div =>
      split at h
      · cases h
      · exact hasType_arith h
    case mod =>
      split at h
      · cases h
      · exact hasType_arith h
    case and => exact absurd rfl hop.1
    case or => exact absurd rfl hop.2
    all_goals first
      | exact hasType_arith h
      | (cases h; exact .bool _)
  all_goals
    cases op <;> cases h <;> exact .bool _

lemma hasType_numbersOp {name : String} {f : Int64 → Int64 → Int64}
    (h : numbersOp name f w x = .ok v) : HasType concepts v .number := by
  cases w <;> cases x <;> cases h
  exact .number _

lemma hasType_bitsOp {name : String} {f : Int64 → Int64 → Int64}
    (h : bitsOp name f w x = .ok v) : HasType concepts v .number := by
  cases w <;> cases x <;> cases h
  exact .number _

lemma hasType_textTest {name : String} {test : List UInt8 → List UInt8 → Bool}
    (h : textTest name test w x = .ok v) : HasType concepts v .bool := by
  cases w <;> cases x <;> cases h
  exact .bool _

lemma hasType_applyNeg (h : applyNeg w = .ok v) : HasType concepts v .number := by
  cases w <;> try cases h
  exact hasType_arith h

lemma hasType_applyAbs (h : applyAbs w = .ok v) : HasType concepts v .number := by
  cases w <;> cases h
  exact .number _

lemma hasType_applyNot (h : applyNot w = .ok v) : HasType concepts v .bool := by
  cases w <;> cases h
  exact .bool _

lemma hasType_applyLe {name : String} {width : Nat} (h : applyLe name width w = .ok v) :
    HasType concepts v .bytes := by
  cases w <;> cases h
  exact .bytes _

lemma hasType_applyAbortIf (h : applyAbortIf w = .ok v) : HasType concepts v .bytes := by
  cases w <;> try cases h
  rw [applyAbortIf] at h
  split at h <;> cases h
  exact .bytes _

lemma hasType_applyJsonEscape (h : applyJsonEscape w = .ok v) : HasType concepts v .text := by
  cases w <;> cases h
  exact .text _

lemma hasType_applyParseInt (h : applyParseInt w = .ok v) : HasType concepts v .number := by
  cases w <;> try cases h
  rw [applyParseInt] at h
  split at h <;> cases h
  exact .number _

lemma hasType_byteLen {n : Nat} (h : (byteLen n).map Value.number = .ok v) :
    HasType concepts v .number := by
  obtain ⟨n, -, rfl⟩ := Except.map_eq_ok.mp h
  exact .number n

lemma hasType_applyLength (h : applyLength w = .ok v) : HasType concepts v .number := by
  cases w <;> try cases h
  · exact hasType_byteLen h
  · exact hasType_byteLen h

lemma hasType_applySubstring {y : Value} (h : applySubstring w x y = .ok v) :
    HasType concepts v .text := by
  cases w <;> try cases h
  cases x <;> try cases h
  cases y <;> try cases h
  obtain ⟨len, -, h⟩ := Except.bind_eq_ok.mp h
  split at h <;> cases h
  exact .text _

lemma hasType_byteIn {table : List UInt8} {i : Int64} (h : byteIn table i = .ok v) :
    HasType concepts v .number := by
  obtain ⟨len, -, h⟩ := Except.bind_eq_ok.mp h
  split at h <;> cases h
  exact .number _

lemma hasType_applyByteAt (h : applyByteAt w x = .ok v) : HasType concepts v .number := by
  cases w <;> try cases h
  all_goals
    cases x <;> try cases h
    exact hasType_byteIn h

lemma hasType_tryByteIn {table : List UInt8} (h : tryByteIn table w = .ok v) :
    HasType concepts v (.result .number .boundsError) := by
  cases w <;> try cases h
  rw [tryByteIn] at h
  split at h
  · split at h <;> cases h
    · exact .ok (.number _)
    · exact .err .boundsError
  · cases h
    exact .err .boundsError

lemma hasType_drawEntropy {ctx : Context} {name : String} (h : drawEntropy ctx name = .ok v) :
    HasType concepts v .bytes := by
  rw [drawEntropy] at h
  split at h
  · cases h
  · split at h <;> cases h
    exact .bytes _

/-- A byte fold that ends yields a number where it starts with one. -/
lemma hasType_foldByteItems {step : Value → UInt8 → Nat → Outcome Value} (bs : List UInt8) :
    ∀ (n : Int64) (i : Nat), foldByteItems step (.number n) bs i = .ok v →
      HasType concepts v .number := by
  induction bs with
  | nil =>
      intro n i h
      cases h
      exact .number n
  | cons b bs ih =>
      intro n i h
      obtain ⟨a, -, h⟩ := Except.bind_eq_ok.mp h
      cases a with
      | number m => exact ih m (i + 1) h
      | _ => cases h

/-- A concatenation yields bytes where an argument is bytes, and a text elsewhere. -/
lemma hasType_concatValues {vs : List Value} (h : concatValues vs = .ok v) :
    HasType concepts v (if vs.any (·.isBytes) then .bytes else .text) := by
  rw [concatValues] at h
  split at h
  · rename_i hbytes
    obtain ⟨b, -, rfl⟩ := Except.map_eq_ok.mp h
    simpa [hbytes] using HasType.bytes b
  · rename_i hbytes
    obtain ⟨s, -, rfl⟩ := Except.map_eq_ok.mp h
    simpa [hbytes] using HasType.text s

end operators

/-- The value of an expression whose form decides the type has that type. -/
lemma hasType_of_resultTy (concepts : Dict String Concept) (ctx : Context)
    (call : Rule → Value → Outcome Value) (env : Env) {e : Expr} {t : Ty} {v : Value}
    (ht : resultTy e = some t) (h : evalExpr ctx call env e = .ok v) : HasType concepts v t := by
  cases e <;> simp only [resultTy, Option.some.injEq, reduceCtorEq] at ht <;> subst ht <;>
    simp only [evalExpr] at h
  case number | nowUnix => cases h; exact .number _
  case text | read | fetch => cases h; exact .text _
  case bytes => cases h; exact .bytes _
  case random => exact hasType_drawEntropy h
  case not => obtain ⟨w, -, h⟩ := Except.bind_eq_ok.mp h; exact hasType_applyNot h
  case neg => obtain ⟨w, -, h⟩ := Except.bind_eq_ok.mp h; exact hasType_applyNeg h
  case abs => obtain ⟨w, -, h⟩ := Except.bind_eq_ok.mp h; exact hasType_applyAbs h
  case le32 | le64 => obtain ⟨w, -, h⟩ := Except.bind_eq_ok.mp h; exact hasType_applyLe h
  case abortIf => obtain ⟨w, -, h⟩ := Except.bind_eq_ok.mp h; exact hasType_applyAbortIf h
  case jsonEscape => obtain ⟨w, -, h⟩ := Except.bind_eq_ok.mp h; exact hasType_applyJsonEscape h
  case parseInt => obtain ⟨w, -, h⟩ := Except.bind_eq_ok.mp h; exact hasType_applyParseInt h
  case length => obtain ⟨w, -, h⟩ := Except.bind_eq_ok.mp h; exact hasType_applyLength h
  case min | max =>
    obtain ⟨w, -, h⟩ := Except.bind_eq_ok.mp h
    obtain ⟨x, -, h⟩ := Except.bind_eq_ok.mp h
    exact hasType_numbersOp h
  case bitAnd | bitOr | bitXor | shl | shr =>
    obtain ⟨w, -, h⟩ := Except.bind_eq_ok.mp h
    obtain ⟨x, -, h⟩ := Except.bind_eq_ok.mp h
    exact hasType_bitsOp h
  case startsWith | endsWith | contains =>
    obtain ⟨w, -, h⟩ := Except.bind_eq_ok.mp h
    obtain ⟨x, -, h⟩ := Except.bind_eq_ok.mp h
    exact hasType_textTest h
  case byteAt =>
    obtain ⟨w, -, h⟩ := Except.bind_eq_ok.mp h
    obtain ⟨x, -, h⟩ := Except.bind_eq_ok.mp h
    exact hasType_applyByteAt h
  case substring =>
    obtain ⟨w, -, h⟩ := Except.bind_eq_ok.mp h
    obtain ⟨x, -, h⟩ := Except.bind_eq_ok.mp h
    obtain ⟨y, -, h⟩ := Except.bind_eq_ok.mp h
    exact hasType_applySubstring h
  case bitNot =>
    obtain ⟨w, -, h⟩ := Except.bind_eq_ok.mp h
    cases w <;> cases h
    exact .number _
  case tryByteAt table index =>
    cases table <;> try cases h
    all_goals
      obtain ⟨w, -, h⟩ := Except.bind_eq_ok.mp h
      exact hasType_tryByteIn h
  case quantifier =>
    obtain ⟨w, -, h⟩ := Except.bind_eq_ok.mp h
    obtain ⟨items, -, h⟩ := Except.bind_eq_ok.mp h
    obtain ⟨b, -, h⟩ := Except.bind_eq_ok.mp h
    cases h
    exact .bool b
  case foldBytes =>
    obtain ⟨w, -, h⟩ := Except.bind_eq_ok.mp h
    cases w <;> try cases h
    obtain ⟨w, -, h⟩ := Except.bind_eq_ok.mp h
    cases w <;> try cases h
    exact hasType_foldByteItems _ _ _ h
  case binary op a b =>
    obtain ⟨w, -, h⟩ := Except.bind_eq_ok.mp h
    split at h
    · rename_i hop
      have hty : opTy op = .bool := by rcases hop with rfl | rfl <;> rfl
      rw [hty]
      cases w with
      | bool b =>
          dsimp only at h
          split at h
          · cases h
            exact .bool _
          · obtain ⟨x, -, h⟩ := Except.bind_eq_ok.mp h
            cases x <;> cases h
            exact .bool _
      | _ => cases h
    · rename_i hop
      obtain ⟨x, -, h⟩ := Except.bind_eq_ok.mp h
      exact hasType_applyBinary (not_or.mp hop) h

end Verbosec.ConstructorTypes
