import Verbosec.Execution.Input

/-!
# The grammar of execution input

* `strip` - a text without leading white space.
* `HexAt`, `EscapeAt`, `BodyAt`, `StringAt`, `NumberText`, `ValueAt` - the tokens and what they
  denote, each with the text after it.
* `MemberAt`, `FieldsAt`, `RecordsAt`, `Document` - flat objects, and an array of them.

A relation `XAt input x rest` says that `input` is an `X` that denotes `x`, followed by `rest`.
-/

namespace Verbosec.Execution.Input

open Verbosec.Interpreter Verbosec.Lib

/-! ## Characters -/

/-- A character in the range of ASCII with a property of its byte. -/
def ascii (p : UInt8 → Bool) (c : Char) : Bool := c.toNat < 128 && p c.toNat.toUInt8

/-- What a function of bytes gives on a character in the range of ASCII. -/
def asciiBind {α : Type} (f : UInt8 → Option α) (c : Char) : Option α :=
  if c.toNat < 128 then f c.toNat.toUInt8 else none

/-- A text without leading white space: spaces, tabs and the ends of lines. -/
def strip (input : List Char) : List Char := input.dropWhile (ascii isSpace)

/-- A character after white space. -/
def Token (c : Char) (input : List Char) (_ : Unit) (rest : List Char) : Prop :=
  strip input = c :: rest

/-! ## Strings -/

/-- Hexadecimal digits and the number they denote, after others. -/
def HexAt : Nat → Nat → List Char → Nat → List Char → Prop
  | 0, value, input, n, rest => n = value ∧ rest = input
  | count + 1, value, input, n, rest =>
      ∃ c input' digit, input = c :: input' ∧ asciiBind hexDigit c = some digit ∧
        HexAt count (value * 16 + digit) input' n rest

/-- The first half of a surrogate pair. -/
def High (n : Nat) : Prop := 0xd800 ≤ n ∧ n ≤ 0xdbff

/-- The second half of a surrogate pair. -/
def Low (n : Nat) : Prop := 0xdc00 ≤ n ∧ n ≤ 0xdfff

instance (n : Nat) : Decidable (High n) := inferInstanceAs (Decidable (_ ∧ _))

instance (n : Nat) : Decidable (Low n) := inferInstanceAs (Decidable (_ ∧ _))

/-- The code of a character in an escape: four digits, or two times four for a surrogate pair. -/
def CodeAt (input : List Char) (n : Nat) (rest : List Char) : Prop :=
  ∃ code middle, HexAt 4 0 input code middle ∧
    (¬ High code ∧ n = code ∧ rest = middle ∨
      High code ∧ ∃ middle' low, middle = '\\' :: 'u' :: middle' ∧ HexAt 4 0 middle' low rest ∧
        Low low ∧ n = 0x10000 + (code - 0xd800) * 1024 + low - 0xdc00)

/-- An escape after its backslash. -/
def EscapeAt (input : List Char) (c : Char) (rest : List Char) : Prop :=
  (∃ x, input = x :: rest ∧ asciiBind (fun b => simpleEscapes.lookup b) x = some c) ∨
    ∃ input' n, input = 'u' :: input' ∧ CodeAt input' n rest ∧ n.isValidChar ∧ c = Char.ofNat n

/-- The characters of a string up to its closing quote. -/
inductive BodyAt : List Char → List Char → List Char → Prop
  | close {rest : List Char} : BodyAt ('"' :: rest) [] rest
  | plain {c : Char} {input s rest : List Char} (hquote : c ≠ '"') (hcontrol : 0x1f < c.toNat)
      (hslash : c ≠ '\\') (h : BodyAt input s rest) : BodyAt (c :: input) (c :: s) rest
  | escape {c : Char} {input middle s rest : List Char} (h : EscapeAt input c middle)
      (h' : BodyAt middle s rest) : BodyAt ('\\' :: input) (c :: s) rest

/-- A string. -/
def StringAt (input : List Char) (s : String) (rest : List Char) : Prop :=
  ∃ body, Token '"' input () body ∧ ∃ out, BodyAt body out rest ∧ s = String.ofList out

/-! ## Values -/

/-- An integer without fraction, exponent or leading zeros, in the range of a word. -/
def NumberText (t : List Char) (n : Int64) : Prop :=
  ∃ digits, (t = digits ∨ t = '-' :: digits) ∧ digits ≠ [] ∧ (∀ c ∈ digits, ascii isDigit c) ∧
    (1 < digits.length → digits.head? ≠ some '0') ∧ parseI64 t = some n

/-- A string, a truth value or an integer. -/
def ValueAt (input : List Char) (v : Value) (rest : List Char) : Prop :=
  (∃ s, StringAt input s rest ∧ v = .text s) ∨
  (strip input = "true".toList ++ rest ∧ v = .bool true) ∨
  (strip input = "false".toList ++ rest ∧ v = .bool false) ∨
  ∃ t n, strip input = t ++ rest ∧ NumberText t n ∧ (∀ c ∈ rest.head?, ¬ ascii isDigit c) ∧
    v = .number n

/-! ## Objects -/

/-- A key and its value. -/
def MemberAt (input : List Char) (m : String × Value) (rest : List Char) : Prop :=
  ∃ middle middle', StringAt input m.1 middle ∧ Token ':' middle () middle' ∧ ValueAt middle' m.2 rest

/-- The members of an object that is not empty, up to its closing brace. -/
inductive FieldsAt : List Char → List (String × Value) → List Char → Prop
  | last {input middle rest : List Char} {m : String × Value} (h : MemberAt input m middle)
      (hclose : Token '}' middle () rest) : FieldsAt input [m] rest
  | more {input middle middle' rest : List Char} {m : String × Value} {ms : List (String × Value)}
      (h : MemberAt input m middle) (hcomma : Token ',' middle () middle')
      (h' : FieldsAt middle' ms rest) : FieldsAt input (m :: ms) rest

/-- A flat object with distinct keys, and the map that it denotes. -/
def ObjectAt (input : List Char) (record : Dict String Value) (rest : List Char) : Prop :=
  ∃ middle, Token '{' input () middle ∧
    (Token '}' middle () rest ∧ record = [] ∨
      ∃ ms, FieldsAt middle ms rest ∧ (ms.map (·.1)).Nodup ∧
        record = ms.foldl (fun d m => Dict.insert d m.1 m.2) [])

/-- The objects of an array that is not empty, up to its closing bracket. -/
inductive RecordsAt : List Char → List (Dict String Value) → List Char → Prop
  | last {input middle rest : List Char} {record : Dict String Value}
      (h : ObjectAt input record middle) (hclose : Token ']' middle () rest) :
      RecordsAt input [record] rest
  | more {input middle middle' rest : List Char} {record : Dict String Value}
      {records : List (Dict String Value)} (h : ObjectAt input record middle)
      (hcomma : Token ',' middle () middle') (h' : RecordsAt middle' records rest) :
      RecordsAt input (record :: records) rest

/-- A text that is an array of flat objects. -/
def Document (text : List Char) (records : List (Dict String Value)) : Prop :=
  ∃ middle rest, Token '[' text () middle ∧
    (Token ']' middle () rest ∧ records = [] ∨ RecordsAt middle records rest) ∧ strip rest = []

/-! ## A token is not empty -/

lemma length_strip_le (input : List Char) : (strip input).length ≤ input.length :=
  (List.dropWhile_suffix _).length_le

lemma Token.length_lt {c : Char} {input rest : List Char} (h : Token c input () rest) :
    rest.length < input.length := by
  have hle := length_strip_le input
  rw [show strip input = c :: rest from h, List.length_cons] at hle
  omega

lemma HexAt.length_le {count value n : Nat} {input rest : List Char}
    (h : HexAt count value input n rest) : rest.length ≤ input.length := by
  induction count generalizing value input with
  | zero => rw [h.2]
  | succ count ih =>
      obtain ⟨c, input', digit, rfl, -, h⟩ := h
      have := ih h
      simp only [List.length_cons]
      omega

lemma EscapeAt.length_le {c : Char} {input rest : List Char} (h : EscapeAt input c rest) :
    rest.length ≤ input.length := by
  rcases h with ⟨x, rfl, -⟩ | ⟨input', n, rfl, ⟨code, middle, hhex, h⟩, -⟩
  · simp
  · have hle := hhex.length_le
    rcases h with ⟨-, -, rfl⟩ | ⟨-, middle', low, rfl, hlow, -⟩
    · simp only [List.length_cons]
      omega
    · have hle' := hlow.length_le
      simp only [List.length_cons] at hle ⊢
      omega

lemma BodyAt.length_lt {input s rest : List Char} (h : BodyAt input s rest) :
    rest.length < input.length := by
  induction h with
  | close => simp
  | plain _ _ _ _ ih =>
      simp only [List.length_cons]
      omega
  | escape h _ ih =>
      have := h.length_le
      simp only [List.length_cons]
      omega

lemma StringAt.length_lt {input rest : List Char} {s : String} (h : StringAt input s rest) :
    rest.length < input.length := by
  obtain ⟨body, htoken, out, hbody, -⟩ := h
  have := htoken.length_lt
  have := hbody.length_lt
  omega

lemma ValueAt.length_le {input rest : List Char} {v : Value} (h : ValueAt input v rest) :
    rest.length ≤ input.length := by
  have hle := length_strip_le input
  rcases h with ⟨s, h, -⟩ | ⟨h, -⟩ | ⟨h, -⟩ | ⟨t, n, h, -⟩
  · exact Nat.le_of_lt h.length_lt
  all_goals
    rw [h, List.length_append] at hle
    omega

lemma MemberAt.length_lt {input rest : List Char} {m : String × Value} (h : MemberAt input m rest) :
    rest.length < input.length := by
  obtain ⟨middle, middle', hkey, hcolon, hvalue⟩ := h
  have := hkey.length_lt
  have := hcolon.length_lt
  have := hvalue.length_le
  omega

lemma ObjectAt.length_lt {input rest : List Char} {record : Dict String Value}
    (h : ObjectAt input record rest) : rest.length < input.length := by
  obtain ⟨middle, hopen, h⟩ := h
  have hlt := hopen.length_lt
  rcases h with ⟨hclose, -⟩ | ⟨ms, hfields, -⟩
  · have := hclose.length_lt
    omega
  · have hle : rest.length < middle.length := by
      clear hopen hlt
      induction hfields with
      | last h hclose =>
          have := h.length_lt
          have := hclose.length_lt
          omega
      | more h hcomma _ ih =>
          have := h.length_lt
          have := hcomma.length_lt
          omega
    omega

end Verbosec.Execution.Input
