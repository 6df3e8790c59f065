import Verbosec.Execution.InputGrammar
import Verbosec.Interpreter.LoadJson

/-!
# A record as a line of JSON

* `emitRecordAsJson` - what the native program writes for a record: the declared fields in order,
  digits for a number, the bytes of a text as they are between two quotes.
* `fieldScalars`, `rawObject` - the same line from the values of the declared fields.
* `ReadsBack` - the line is a JSON object on one line that has exactly the declared fields.
* `Plain` - a text that stands for itself between quotes.

Source: `native.rs`, `emit_record_as_json` and `emit_itoa_to_stdout_no_newline`.
-/

namespace Verbosec.Native.RecordJson

open Verbosec.Interpreter Verbosec.Lib
open Verbosec.Interpreter.LoadJson (Scalar)

/-! ## The writer -/

/-- Why no code is emitted for a record. Source: `native.rs`, the errors of `emit_record_as_json` -/
inductive RecordError where
  /-- record is missing field -/
  | missing (field : String)
  /-- native record field has unsupported type -/
  | unsupported (field : String)
  /-- the expression is not of the declared type, which the emitters it is handed to refuse -/
  | mistyped (field : String)
  deriving DecidableEq

/-- The text of a refusal. Source: `native.rs`, `emit_record_as_json` -/
def RecordError.message : RecordError → String
  | missing field => "record is missing field '" ++ field ++ "'"
  | unsupported field => "native record field '" ++ field ++ "' has unsupported type"
  | mistyped _ => ""

/-- The digits of a magnitude, the last one first written, before those that are there.
Source: `native.rs`, the loop of `emit_itoa_to_stdout_no_newline` -/
def divLoop : Nat → Nat → List Char → List Char
  | 0, _, digits => digits
  | fuel + 1, n, digits =>
    let digits := Nat.digitChar (n % 10) :: digits
    if n / 10 = 0 then digits else divLoop fuel (n / 10) digits

/-- The digits of a number, after a minus sign for a negative one. The magnitude is unsigned, so
that the least word has one. Source: `native.rs`, `emit_itoa_to_stdout_no_newline` -/
def itoa (n : Int64) : List Char :=
  let magnitude := n.toInt.natAbs
  let digits := divLoop (magnitude + 1) magnitude []
  if n.toInt < 0 then '-' :: digits else digits

/-- One declared field. Source: `native.rs`, the loop of `emit_record_as_json` -/
def writeField (first : Bool) (decl : Field) (v : Value) : Except RecordError (List Char) :=
  let name := (if first then '{' else ',') :: '"' :: (decl.name.toList ++ ['"', ':'])
  match decl.ty, v with
  | .number, .number n => .ok (name ++ itoa n)
  | .text, .text s => .ok (name ++ '"' :: (s.toList ++ ['"']))
  | .number, _ | .text, _ => .error (.mistyped decl.name)
  | _, _ => .error (.unsupported decl.name)

section emit

variable {ε : Type} (eval : ε → Value)

/-- The expressions of a record by their names, the last one of a name.
Source: `native.rs`, `provided` in `emit_record_as_json` -/
def provided (fields : List (String × ε)) : Dict String ε :=
  fields.foldl (fun d m => d.insert m.1 m.2) []

/-- The declared fields. Source: `native.rs`, the loop of `emit_record_as_json` -/
def writeFields (exprs : Dict String ε) : Bool → List Field → Except RecordError (List Char)
  | _, [] => .ok []
  | first, decl :: decls =>
    match exprs.lookup decl.name with
    | none => .error (.missing decl.name)
    | some e => do
      let written ← writeField first decl (eval e)
      return written ++ (← writeFields exprs false decls)

/-- What the emitted code writes for a record, from what the expressions of its fields evaluate to.
Source: `native.rs`, `emit_record_as_json` -/
def emitRecordAsJson (fields : List (String × ε)) (outputConcept : Concept) :
    Except RecordError (List Char) := do
  return (← writeFields eval (provided fields) true outputConcept.fields) ++ ['}', '\n']

/-- The record that the expressions of the fields make. Source: `interpreter.rs`, `Expr::Record` -/
def recordOf (fields : List (String × ε)) : Dict String Value :=
  fields.foldl (fun d m => d.insert m.1 (eval m.2)) []

/-- A record has exactly the declared fields, with the values of another. -/
def Exactly (outputConcept : Concept) (values record : Dict String Value) : Prop :=
  ∀ key, record.lookup key =
    if key ∈ outputConcept.fields.map (·.name) then values.lookup key else none

/-- A line is an object of JSON on one line, with exactly the declared fields. -/
def ReadsBack (outputConcept : Concept) (values : Dict String Value) (line : List Char) : Prop :=
  ∃ object record, line = object ++ ['\n'] ∧ '\n' ∉ object ∧
    Execution.Input.ObjectAt object record [] ∧ Exactly outputConcept values record

/-- The array of the objects on some lines. -/
def wrap (lines : List (List Char)) : List Char :=
  '[' :: (LoadJson.join [] (lines.map List.dropLast) ++ [']'])

/-! ## The values of the fields -/

/-- A character that stands for itself between quotes. -/
def PlainChar (c : Char) : Prop := c ≠ '"' ∧ c ≠ '\\' ∧ 0x1f < c.toNat

/-- A text that stands for itself between quotes. -/
def Plain (s : String) : Prop := ∀ c ∈ s.toList, PlainChar c

instance (c : Char) : Decidable (PlainChar c) := inferInstanceAs (Decidable (_ ∧ _))

instance (s : String) : Decidable (Plain s) := List.decidableBAll PlainChar s.toList

/-- The texts of a record stand for themselves. -/
def PlainTexts (outputConcept : Concept) (values : Dict String Value) : Prop :=
  ∀ decl ∈ outputConcept.fields, ∀ s, values.lookup decl.name = some (.text s) → Plain s

/-- A number or a text. -/
def scalarOf : Value → Option Scalar
  | .number n => some (.number n)
  | .text s => some (.text s)
  | _ => none

/-- The declared fields of a record with their values. -/
def fieldScalars (values : Dict String Value) (outputConcept : Concept) :
    Option (List (String × Scalar)) :=
  outputConcept.fields.mapM fun decl =>
    ((values.lookup decl.name).bind scalarOf).map (decl.name, ·)

/-- A value as it is written. -/
def rawScalar : Scalar → List Char
  | .number n => itoa n
  | .bool b => (boolText b).toList
  | .text s => '"' :: (s.toList ++ ['"'])

/-- A field as it is written. -/
def rawMember (m : String × Scalar) : List Char :=
  '"' :: (m.1.toList ++ '"' :: ':' :: rawScalar m.2)

/-- An object as it is written. -/
def rawObject (r : List (String × Scalar)) : List Char :=
  '{' :: ([','].intercalate (r.map rawMember) ++ ['}'])

end emit

end Verbosec.Native.RecordJson
