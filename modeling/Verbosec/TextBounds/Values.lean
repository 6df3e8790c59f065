import Verbosec.NumericBounds.Ranges
import Verbosec.RuleWalk

/-!
# Abstract values of the bounded text verifier

* `Value` - the abstract value of an expression: a number with an interval, a truth value, a text
  with a byte capacity that may be unknown, the guarded input of a rule, or a constructed record.
* `declaredField` - what the entry guard promises of an input field.
* `joinScalar`, `joinFields` - the abstract value of either of two values.

Source: `text_bounds.rs`, `Value`, `Check::declared_field`, `Check::join`.
-/

namespace Verbosec.TextBounds

open Verbosec.Lib NumericBounds

/-- The abstract value of an expression. Source: `text_bounds.rs`, `Value` -/
inductive Value where
  | number (lo hi : Int)
  | bool
  | text (capacity : Option Nat)
  | input (concept : String)
  | record (concept : String) (fields : List (String × Value))
  deriving Repr

namespace Value

/-- The type of an abstract value. Source: `text_bounds.rs`, `Value::ty` -/
def ty : Value → Ty
  | number _ _ => .number
  | bool => .bool
  | text _ => .text
  | input n | record n _ => .named n

/-- The check that a value has a type. Source: `text_bounds.rs`, `Value::require` -/
def require (v : Value) (ty : Ty) : Except String Unit :=
  if v.ty = ty then .ok () else .error ("expected " ++ ty.debug ++ ", got " ++ v.ty.debug)

/-- The interval of a number. Source: `text_bounds.rs`, `Value::number` -/
def asNumber : Value → Except String Interval
  | number lo hi => .ok (lo, hi)
  | v => .error ("expected " ++ Ty.number.debug ++ ", got " ++ v.ty.debug)

/-- The byte capacity of a value inside a `concat`; a number takes at most 20 bytes.
Source: `text_bounds.rs`, `Value::capacity` -/
def asCapacity : Value → Except String (Option Nat)
  | text n => .ok n
  | number _ _ => .ok (some 20)
  | _ => .error "concat requires text or number arguments"

/-- Numbers, truth values and texts. -/
def IsScalar : Value → Prop
  | number _ _ | bool | text _ => True
  | _ => False

instance : DecidablePred IsScalar := fun v => by
  cases v <;> unfold IsScalar <;> infer_instance

end Value

/-- The byte capacity that a declared bound gives a text field; a negative one gives none.
Source: `text_bounds.rs`, `u64::try_from` in `Check::declared_field` and `Check::call_input` -/
def declaredCapacity (f : Field) : Option Nat :=
  f.range.bind fun b => if 0 ≤ b.2 then some b.2.toInt.toNat else none

/-- What the entry guard promises of an input field.
Source: `text_bounds.rs`, `Check::declared_field` -/
def declaredField (f : Field) : Except String Value :=
  match f.ty with
  | .number =>
      let (min, max) := f.range.elim (minI64, maxI64) fun b => (b.1.toInt, b.2.toInt)
      if max < min then
        .error ("input field '" ++ f.name ++ "': invalid numeric interval " ++ showInterval min max)
      else .ok (.number min max)
  | .text => .ok (.text (declaredCapacity f))
  | _ => .error "unsupported input field type"

/-- What the entry guard promises of every field.
Source: `text_bounds.rs`, `Check::materialize_input` -/
def declaredFields (c : Concept) : Except String (Dict String Value) := do
  let fields ← c.fields.mapM fun f => (declaredField f).map fun v => (f.name, v)
  .ok fields.reverse

/-- The abstract value of either of two scalars. Source: `text_bounds.rs`, `Check::join` -/
def joinScalar (a b : Value) : Except String Value := do
  a.require b.ty
  match a, b with
  | .text m, .text n => .ok (.text (m.bind fun m => n.map fun n => max m n))
  | .number lo hi, .number lo' hi' => .ok (.number (min lo lo') (max hi hi'))
  | .bool, .bool => .ok .bool
  | _, _ => .error "incompatible conditional values"

/-- The joined fields of two records of the concept `name`, in declaration order. Fields are
scalars, so that the source's recursion ends here. Source: `text_bounds.rs`, `Check::join` -/
def joinFields (name : String) :
    List String → Dict String Value → Dict String Value → Except String (Dict String Value)
  | [], _, _ => .ok []
  | field :: rest, a, b =>
      match a.lookup field, b.lookup field with
      | some x, some y => do
          let v ← (joinScalar x y).mapError
            fun e => "conditional field '" ++ name ++ "." ++ field ++ "': " ++ e
          let joined ← joinFields name rest (a.erase field) (b.erase field)
          .ok ((field, v) :: joined)
      | _, _ => .error "missing conditional record field"

end Verbosec.TextBounds
