import Verbosec.Interpreter.Value
import Verbosec.Lib.Dict

/-!
# Loading input records

* `parseJsonArray`, `parseJsonObject`, `parseJsonValue` - the reader of `--input`.
* `pieces` - how it finds the commas between records and between fields: by the depth of brackets,
  inside strings too.
* `Scalar`, `writeArray` - records of numbers, booleans and texts, and the standard text of a list
  of them, with any white space after commas and colons.

Source: `interpreter.rs`, `load_json_input`, `parse_json_array`, `parse_json_object`,
`unescape_json_string`, `parse_json_value` and `split_json_top_level`.
-/

namespace Verbosec.Interpreter.LoadJson

open Verbosec.Lib

/-! ## The reader -/

/-- Why an input is refused. -/
inductive JsonError where
  /-- input must be a JSON array -/
  | notAnArray
  /-- expected JSON object, got: what is shown of this text -/
  | notAnObject (got : List Char)
  /-- invalid JSON field -/
  | invalidField (pair : List Char)
  /-- unsupported JSON value -/
  | unsupported (s : List Char)
  /-- the nesting is deeper than the text is long, which does not happen -/
  | outOfFuel
  deriving DecidableEq

/-- Characters without white space at the ends. Source: `str::trim` -/
def trimChars (cs : List Char) : List Char :=
  ((cs.dropWhile isWhiteSpace).reverse.dropWhile isWhiteSpace).reverse

/-- Characters without quotes at the ends. Source: `trim_matches` -/
def trimQuotes (cs : List Char) : List Char :=
  ((cs.dropWhile (· = '"')).reverse.dropWhile (· = '"')).reverse

/-- The text between its first and its last character. -/
def inner (cs : List Char) : List Char := cs.tail.dropLast

/-- A text with a first and a last character. -/
def enclosed (first last : Char) (cs : List Char) : Bool :=
  cs.head? = some first && cs.getLast? = some last

/-- What a character does to the depth between records. Source: `parse_json_array` -/
def braceStep (c : Char) : Int := if c = '{' then 1 else if c = '}' then -1 else 0

/-- What a character does to the depth between fields. Source: `split_json_top_level` -/
def bracketStep (c : Char) : Int :=
  if c = '{' ∨ c = '[' then 1 else if c = '}' ∨ c = ']' then -1 else 0

/-- The pieces between the commas at depth zero. -/
def pieces (step : Char → Int) : Int → List Char → List Char → List (List Char)
  | _, current, [] => [current]
  | depth, current, c :: cs =>
    if c = ',' ∧ depth = 0 then current :: pieces step depth [] cs
    else pieces step (depth + step c) (current ++ [c]) cs

/-- The pieces of an object or a list; the last one only where it is not blank.
Source: `split_json_top_level` -/
def splitJsonTopLevel (s : List Char) : List (List Char) :=
  let parts := pieces bracketStep 0 [] s
  if trimChars (parts.getLastD []) = [] then parts.dropLast else parts

/-- The escapes of a string. Source: the loop of `unescape_json_string` -/
def unescape : List Char → List Char
  | [] => []
  | ['\\'] => ['\\']
  | '\\' :: 'n' :: cs => '\n' :: unescape cs
  | '\\' :: 't' :: cs => '\t' :: unescape cs
  | '\\' :: 'r' :: cs => '\r' :: unescape cs
  | '\\' :: '\\' :: cs => '\\' :: unescape cs
  | '\\' :: '"' :: cs => '"' :: unescape cs
  | '\\' :: '/' :: cs => '/' :: unescape cs
  | '\\' :: other :: cs => '\\' :: other :: unescape cs
  | c :: cs => c :: unescape cs

/-- The content of a string. Source: `unescape_json_string` -/
def unescapeJsonString (body : List Char) : List Char :=
  if '\\' ∈ body then unescape body else body

/-- One field of an object. Source: the loop of `parse_json_object` -/
def parsePair (value : List Char → Except JsonError Value) (fields : Dict String Value)
    (pair : List Char) : Except JsonError (Dict String Value) :=
  let pair := trimChars pair
  if pair = [] then .ok fields
  else if ':' ∈ pair then do
    let key := trimQuotes (trimChars (pair.takeWhile (· ≠ ':')))
    let v ← value (trimChars (pair.dropWhile (· ≠ ':')).tail)
    return fields.insert (String.ofList key) v
  else .error (.invalidField pair)

/-- An object, from the reader of its values. Source: `parse_json_object` -/
def parseObject (value : List Char → Except JsonError Value) (src : List Char) :
    Except JsonError (Dict String Value) :=
  let trimmed := trimChars src
  if enclosed '{' '}' trimmed then
    (splitJsonTopLevel (inner trimmed)).foldlM (parsePair value) []
  else .error (.notAnObject trimmed)

/-- A value, in a text that is nested less deep than the fuel. Source: `parse_json_value` -/
def parseJsonValue : Nat → List Char → Except JsonError Value
  | 0, _ => .error .outOfFuel
  | fuel + 1, s =>
    let s := trimChars s
    if s = "true".toList then .ok (.bool true)
    else if s = "false".toList then .ok (.bool false)
    else if enclosed '"' '"' s ∧ 2 ≤ s.length then
      .ok (.text (String.ofList (unescapeJsonString (inner s))))
    else if enclosed '[' ']' s then do
      let chunks := ((splitJsonTopLevel (inner s)).map trimChars).filter (· ≠ [])
      return .list (← chunks.mapM (parseJsonValue fuel))
    else if enclosed '{' '}' s then do
      return .record (← parseObject (parseJsonValue fuel) s)
    else
      match parseI64 s with
      | some n => .ok (.number n)
      | none => .error (.unsupported s)

/-- Source: `parse_json_object` -/
def parseJsonObject (src : List Char) : Except JsonError (Dict String Value) :=
  parseObject (parseJsonValue (src.length + 1)) src

/-- Source: `parse_json_array` -/
def parseJsonArray (src : List Char) : Except JsonError (List (Dict String Value)) :=
  let trimmed := trimChars src
  if enclosed '[' ']' trimmed then
    let chunks := ((pieces braceStep 0 [] (inner trimmed)).map trimChars).filter (· ≠ [])
    chunks.mapM parseJsonObject
  else .error .notAnArray

/-! ## The standard text -/

/-- The value of a field. -/
inductive Scalar where
  | number (n : Int64)
  | bool (b : Bool)
  | text (s : String)

/-- The value of a scalar. -/
def Scalar.value : Scalar → Value
  | .number n => .number n
  | .bool b => .bool b
  | .text s => .text s

/-- A character of a string. -/
def escapeChar (c : Char) : List Char :=
  if c = '"' then ['\\', '"']
  else if c = '\\' then ['\\', '\\']
  else if c = '\n' then ['\\', 'n']
  else if c = '\r' then ['\\', 'r']
  else if c = '\t' then ['\\', 't']
  else if c.toNat ≤ 0x1f then
    ['\\', 'u', '0', '0', Nat.digitChar (c.toNat / 16), Nat.digitChar (c.toNat % 16)]
  else [c]

/-- A string. -/
def writeString (s : String) : List Char := '"' :: (s.toList.flatMap escapeChar ++ ['"'])

/-- A scalar. -/
def Scalar.write : Scalar → List Char
  | .number n => (decimal n).toList
  | .bool b => (boolText b).toList
  | .text s => writeString s

variable (pad : List Char)

/-- Texts between commas. -/
def join : List (List Char) → List Char
  | [] => []
  | [t] => t
  | t :: ts => t ++ ',' :: (pad ++ join ts)

/-- A field. -/
def writeMember (m : String × Scalar) : List Char :=
  writeString m.1 ++ ':' :: (pad ++ m.2.write)

/-- An object. -/
def writeObject (r : List (String × Scalar)) : List Char :=
  '{' :: (join pad (r.map (writeMember pad)) ++ ['}'])

/-- An array of objects. -/
def writeArray (rs : List (List (String × Scalar))) : List Char :=
  '[' :: (join pad (rs.map (writeObject pad)) ++ [']'])

/-- The record of some fields. -/
def record (r : List (String × Scalar)) : Dict String Value :=
  r.foldl (fun d m => d.insert m.1 m.2.value) []

/-! ## When a text is read back -/

/-- No comma at depth zero, from a depth on. -/
def Inside (step : Char → Int) : Int → List Char → Prop
  | _, [] => True
  | depth, c :: cs => (c = ',' → depth ≠ 0) ∧ Inside step (depth + step c) cs

/-- The depth after a text. -/
def depthAfter (step : Char → Int) (t : List Char) : Int := (t.map step).sum

/-- Texts with no comma at depth zero, that end at depth zero but for the last. -/
def Separated (step : Char → Int) : List (List Char) → Prop
  | [] => True
  | [t] => Inside step 0 t
  | t :: ts => Inside step 0 t ∧ depthAfter step t = 0 ∧ Separated step ts

/-- The name of a field: letters, digits and underscores. -/
def Named (name : String) : Prop := ∀ c ∈ name.toList, c.isAlphanum ∨ c = '_'

/-- A scalar whose control characters have an escape that is read. -/
def Scalar.Spelled : Scalar → Prop
  | .text s => ∀ c ∈ s.toList, 0x1f < c.toNat ∨ c = '\n' ∨ c = '\r' ∨ c = '\t'
  | _ => True

/-- Records that are read back. -/
def Readable (rs : List (List (String × Scalar))) : Prop :=
  Separated braceStep (rs.map (writeObject pad)) ∧
    ∀ r ∈ rs, Separated bracketStep (r.map (writeMember pad)) ∧
      ∀ m ∈ r, Named m.1 ∧ m.2.Spelled

instance decidableInside (step : Char → Int) :
    (depth : Int) → (t : List Char) → Decidable (Inside step depth t)
  | _, [] => isTrue trivial
  | depth, c :: cs =>
    haveI := decidableInside step (depth + step c) cs
    inferInstanceAs (Decidable ((c = ',' → depth ≠ 0) ∧ Inside step (depth + step c) cs))

instance decidableSeparated (step : Char → Int) :
    (ts : List (List Char)) → Decidable (Separated step ts)
  | [] => isTrue trivial
  | [t] => inferInstanceAs (Decidable (Inside step 0 t))
  | t :: t' :: ts =>
    haveI := decidableSeparated step (t' :: ts)
    inferInstanceAs
      (Decidable (Inside step 0 t ∧ depthAfter step t = 0 ∧ Separated step (t' :: ts)))

instance (name : String) : Decidable (Named name) :=
  List.decidableBAll (fun c : Char => c.isAlphanum ∨ c = '_') name.toList

instance : (v : Scalar) → Decidable v.Spelled
  | .text s =>
    List.decidableBAll (fun c : Char => 0x1f < c.toNat ∨ c = '\n' ∨ c = '\r' ∨ c = '\t') s.toList
  | .number _ => isTrue trivial
  | .bool _ => isTrue trivial

instance (pad : List Char) (rs : List (List (String × Scalar))) : Decidable (Readable pad rs) :=
  inferInstanceAs (Decidable (_ ∧ _))

end Verbosec.Interpreter.LoadJson
