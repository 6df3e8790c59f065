import Verbosec.Parser.Expression

/-!
# Renderings of an expression

* `level`, `tail` - the levels of the operators, and what a level does after its first operand.
* `Grammatical` - the trees of numbers, dotted paths, calls, `not`, `-`, binary operators and
  conditionals, with names that the parser does not reserve.
* `render wrap` - the tokens of a tree, with parentheses where `wrap` puts them; `minimal` puts them
  where they are required, `full` around every operator and conditional.

Source: `parser.rs`, `parse_expr` .. `parse_primary`.
-/

namespace Verbosec.Parser

open Lexer

/-! ## Levels -/

/-- The operators of a level. -/
def opAt : Nat → TokenKind → Option BinOp
  | 0 => orOp?
  | 1 => andOp?
  | 2 => cmpOp?
  | 3 => addOp?
  | 4 => mulOp?
  | _ => fun _ => none

/-- The parser of a level, with a fuel for the nested expressions and one for the loops. -/
def level : Nat → Nat → Nat → Parse Expr
  | 0, m, n => orExpr (parseExpr m) n
  | 1, m, n => andExpr (parseExpr m) n
  | 2, m, n => cmpExpr (parseExpr m) n
  | 3, m, n => addExpr (parseExpr m) n
  | 4, m, n => mulExpr (parseExpr m) n
  | 5, m, n => unary (parseExpr m) n
  | _, m, n => primary (parseExpr m) n

/-- What a level does after its first operand: at most one comparison, or a loop, whose turns have
a fuel of their own. -/
def tail (k m n c : Nat) (left : Expr) : Parse Expr :=
  if k = 2 then do
    match (← peekKind).bind cmpOp? with
    | some op => do
        advance
        let right ← level 3 m n
        return .binary op left right
    | none => return left
  else chain (opAt k) (level (k + 1) m n) c left

lemma level_eq {k : Nat} (hk : k ≤ 4) (m n : Nat) :
    level k m n = (level (k + 1) m n >>= tail k m n n) := by
  match k, hk with
  | 0, _ => rfl
  | 1, _ => rfl
  | 2, _ => rfl
  | 3, _ => rfl
  | 4, _ => rfl

/-! ## Trees and tokens -/

end Verbosec.Parser

namespace Verbosec.BinOp

open Lexer

/-- The level of an operator. -/
def level : BinOp → Nat
  | or => 0
  | and => 1
  | eq | notEq | gt | lt | gtEq | ltEq => 2
  | add | sub => 3
  | mul | div | mod => 4

/-- The level of the left operand: comparisons do not chain. -/
def leftLevel (op : BinOp) : Nat := if op.level = 2 then 3 else op.level

/-- The token of an operator. -/
def token : BinOp → TokenKind
  | or => .ident "or"
  | and => .ident "and"
  | eq => .equalEqual
  | notEq => .notEqual
  | gt => .gt
  | lt => .lt
  | gtEq => .gtEq
  | ltEq => .ltEq
  | add => .plus
  | sub => .minus
  | mul => .star
  | div => .slash
  | mod => .percent

lemma level_le (op : BinOp) : op.level ≤ 4 := by cases op <;> decide

lemma opAt_token (op : BinOp) (k : Nat) :
    Parser.opAt k op.token = if k = op.level then some op else none := by
  match k with
  | 0 | 1 | 2 | 3 | 4 => cases op <;> decide
  | k + 5 => cases op <;> simp [Parser.opAt, level]

end Verbosec.BinOp

namespace Verbosec.Parser

open Lexer

/-- The names that start another form than an identifier. -/
def reserved : List String := ["not", "if", "match"]

/-- The names of the built-in forms. -/
def builtinNames : List String := (builtins outOfFuel 0).map (·.1)

/-- A dotted path. -/
inductive IsPath : Expr → Prop
  | ident {name : String} (h : name ∉ reserved) : IsPath (.ident name)
  | field {base : Expr} (name : String) (h : IsPath base) : IsPath (.field base name)

/-- The trees of the operators. -/
inductive Grammatical : Expr → Prop
  | number (n : Int64) : Grammatical (.number n)
  | path {e : Expr} (h : IsPath e) : Grammatical e
  | call {name : String} {args : List Expr} (hreserved : name ∉ reserved)
      (hbuiltin : name ∉ builtinNames) (hargs : ∀ a ∈ args, Grammatical a) :
      Grammatical (.call name args)
  | not {e : Expr} (h : Grammatical e) : Grammatical (.not e)
  | neg {e : Expr} (h : Grammatical e) : Grammatical (.neg e)
  | binary (op : BinOp) {l r : Expr} (hl : Grammatical l) (hr : Grammatical r) :
      Grammatical (.binary op l r)
  | ite {c t e : Expr} (hc : Grammatical c) (ht : Grammatical t) (he : Grammatical e) :
      Grammatical (.ite c t e)

/-- Where a rendering puts parentheses: around an expression at a level, and whether an operator
follows it. -/
abbrev Wrap := Nat → Bool → Expr → Bool

/-- An operator below the level is parenthesised, and a conditional that an operator follows, as its
last branch would take the operator. -/
def required : Wrap
  | k, _, .binary op _ _ => op.level < k
  | _, followed, .ite _ _ _ => followed
  | _, _, _ => false

/-- Every operator and conditional is parenthesised. -/
def everywhere : Wrap
  | _, _, .not _ | _, _, .neg _ | _, _, .binary _ _ _ | _, _, .ite _ _ _ => true
  | _, _, _ => false

/-- An expression at a level, given its tokens without parentheses. -/
def wrapped (wrap : Wrap) (k : Nat) (followed : Bool) (e : Expr)
    (body : Bool → List TokenKind) : List TokenKind :=
  if wrap k followed e then .lParen :: (body false ++ [TokenKind.rParen]) else body followed

mutual

/-- The tokens of an expression without parentheses around it. -/
def body (wrap : Wrap) (followed : Bool) : Expr → List TokenKind
  | .number n => [.number n]
  | .ident name => [.ident name]
  | .field base name => body wrap followed base ++ [TokenKind.dot, .ident name]
  | .call name args => .ident name :: .lParen :: (bodyArguments wrap args ++ [TokenKind.rParen])
  | .not e => .ident "not" :: wrapped wrap 5 followed e fun f => body wrap f e
  | .neg e => .minus :: wrapped wrap 5 followed e fun f => body wrap f e
  | .binary op l r =>
      (wrapped wrap op.leftLevel true l fun f => body wrap f l) ++
        op.token :: wrapped wrap (op.level + 1) followed r fun f => body wrap f r
  | .ite c t e =>
      .ident "if" :: (wrapped wrap 0 false c fun f => body wrap f c) ++
        TokenKind.ident "then" :: (wrapped wrap 0 false t fun f => body wrap f t) ++
        TokenKind.ident "else" :: wrapped wrap 0 false e fun f => body wrap f e
  | _ => []

/-- The tokens of the arguments of a call. -/
def bodyArguments (wrap : Wrap) : List Expr → List TokenKind
  | [] => []
  | e :: es => (wrapped wrap 0 false e fun f => body wrap f e) ++ bodyCommas wrap es

/-- The tokens of the arguments after the first. -/
def bodyCommas (wrap : Wrap) : List Expr → List TokenKind
  | [] => []
  | e :: es =>
      .comma :: (wrapped wrap 0 false e fun f => body wrap f e) ++ bodyCommas wrap es

end

/-- The tokens of an expression at a level. -/
def render (wrap : Wrap) (k : Nat) (followed : Bool) (e : Expr) : List TokenKind :=
  wrapped wrap k followed e fun f => body wrap f e

/-- The rendering with the required parentheses only. -/
def minimal (e : Expr) : List TokenKind := render required 0 false e

/-- The rendering with parentheses around every operator and conditional. -/
def full (e : Expr) : List TokenKind := render everywhere 0 false e

end Verbosec.Parser
