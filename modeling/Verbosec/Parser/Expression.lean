import Verbosec.Interpreter.Aggregates
import Verbosec.Parser.Cursor

/-!
# The expressions of the parser

* `commaList`, `arguments`, `fieldBlock` - the lists of an expression.
* `oneArgument`, `twoArguments`, `lambda`, `aggregate`, … - the shapes of the built-in forms, and
  `builtins`, the form of each name.
* `ifForm`, `matchForm`, `primary` - the forms that are not operators.
* `chain`, `unary`, `mulExpr` .. `orExpr` - the levels of the operators.
* `parseExpr fuel` - an expression; the fuel bounds the nesting and the turns of each loop.

Source: `parser.rs`, `parse_expr` .. `parse_primary`. In every definition `expr` is the parser of a
nested expression.
-/

namespace Verbosec.Parser

open Lexer
open Interpreter (Aggregate)

/-- The loops of the source end with their tokens, those of the model with their fuel. -/
def outOfFuel {α : Type} : Parse α := throw .outOfFuel

section forms

variable (expr : Parse Expr)

/-! ## Lists -/

/-- The expressions after the first of a list. Source: `parser.rs`, the loops over commas of
`parse_primary` -/
def commaList : Nat → Parse (List Expr)
  | 0 => outOfFuel
  | n + 1 => do
      if ← checkKind .comma then
        advance
        let e ← expr
        let es ← commaList n
        return e :: es
      else return []

/-- The expressions up to the closing parenthesis. Source: `parser.rs`, the arguments of `concat`
and of a call in `parse_primary` -/
def arguments (n : Nat) : Parse (List Expr) := do
  if ← checkKind .rParen then
    expectKind .rParen
    return []
  else
    let e ← expr
    let es ← commaList expr n
    expectKind .rParen
    return e :: es

/-- The assignments of a constructor, after the opening brace and not empty. Source: `parser.rs`,
the loops over the fields of a record and of a variant in `parse_primary` -/
def fieldList : Nat → Parse (List (String × Expr))
  | 0 => outOfFuel
  | n + 1 => do
      let name ← expectIdentAny
      expectKind .colon
      let value ← expr
      if ← checkKind .comma then
        advance
        if ← checkKind .rBrace then return [(name, value)]
        else
          let fields ← fieldList n
          return (name, value) :: fields
      else return [(name, value)]

/-- The assignments of a constructor and its closing brace. -/
def fieldBlock (n : Nat) : Parse (List (String × Expr)) := do
  advance
  if ← checkKind .rBrace then
    expectKind .rBrace
    return []
  else
    let fields ← fieldList expr n
    expectKind .rBrace
    return fields

/-! ## Built-in forms, after the opening parenthesis -/

/-- A form with one argument and a check of the number of arguments. Source: `parser.rs`, the forms
`json_escape`, `parse_int`, `length`, `abs`, `le32`, `le64`, `arena_scope`, `abort_if` and `bnot` -/
def oneArgument (name : String) (mk : Expr → Expr) : Parse Expr := do
  if ← checkKind .rParen then errorText (name ++ " requires exactly one argument, got zero")
  else
    let inner ← expr
    if ← checkKind .comma then
      errorText (name ++ " requires exactly one argument, got more than one")
    else
      expectKind .rParen
      return mk inner

/-- A form with two arguments and a check of their number. Source: `parser.rs`, the forms
`starts_with`, `contains`, `ends_with`, `byte_at`, `try_byte_at`, `band`, `bor`, `bxor`, `shl` and
`shr` -/
def twoArguments (need : String) (mk : Expr → Expr → Expr) : Parse Expr := do
  if ← checkKind .rParen then errorText (need ++ ", got zero")
  else
    let left ← expr
    if ← checkKind .comma then
      expectKind .comma
      let right ← expr
      if ← checkKind .comma then errorText (need ++ ", got more than two")
      else
        expectKind .rParen
        return mk left right
    else errorText (need ++ ", got one")

/-- Source: `parser.rs`, the form `substring` -/
def substringForm : Parse Expr := do
  let need := "substring requires exactly three arguments (text, start, end)"
  if ← checkKind .rParen then errorText (need ++ ", got zero")
  else
    let text ← expr
    if ← checkKind .comma then
      expectKind .comma
      let start ← expr
      if ← checkKind .comma then
        expectKind .comma
        let stop ← expr
        if ← checkKind .comma then errorText (need ++ ", got more than three")
        else
          expectKind .rParen
          return .substring text start stop
      else errorText (need ++ ", got two")
    else errorText (need ++ ", got one")

/-- A collection and a function of its elements. Source: `parser.rs`, the forms `all`, `any`, `map`
and `filter` -/
def lambda (mk : Expr → String → Expr → Expr) : Parse Expr := do
  let collection ← expr
  expectKind .comma
  let var ← expectIdentAny
  expectKind .fatArrow
  let body ← expr
  expectKind .rParen
  return mk collection var body

/-- The function of an aggregate, after the comma. -/
def aggregateFold (kind : Aggregate) (collection : Expr) : Parse Expr := do
  let var ← expectIdentAny
  expectKind .fatArrow
  let body ← expr
  expectKind .rParen
  return kind.desugar collection var body

/-- The aggregates, and the forms of `min` and `max` with two numbers. The second argument is read
twice: an arrow after it makes it the variable of a function. Source: `parser.rs`, the forms `sum`,
`count`, `min` and `max` -/
def aggregate (kind : Aggregate) (scalar : Option (Expr → Expr → Expr)) : Parse Expr := do
  let collection ← expr
  expectKind .comma
  let secondPos ← get
  let second ← expr
  let isFoldLambda ← checkKind .fatArrow
  match isFoldLambda, scalar with
  | false, some mk => do
      expectKind .rParen
      return mk collection second
  | _, _ => do
      set secondPos
      aggregateFold expr kind collection

/-- Source: `parser.rs`, the form `fold` -/
def foldForm : Parse Expr := do
  let collection ← expr
  expectKind .comma
  let init ← expr
  expectKind .comma
  let acc ← expectIdentAny
  expectKind .comma
  let item ← expectIdentAny
  expectKind .fatArrow
  let body ← expr
  expectKind .rParen
  return .fold collection init acc item body

/-- Source: `parser.rs`, the form `fold_bytes` -/
def foldBytesForm : Parse Expr := do
  let text ← expr
  expectKind .comma
  let init ← expr
  expectKind .comma
  let acc ← expectIdentAny
  expectKind .comma
  let byte ← expectIdentAny
  expectKind .comma
  let idx ← expectIdentAny
  expectKind .fatArrow
  let body ← expr
  expectKind .rParen
  return .foldBytes text init acc byte idx body

/-- The constructors of a result. Source: `parser.rs`, the forms `Ok` and `Err` -/
def resultForm (mk : Expr → Expr) : Parse Expr := do
  let inner ← expr
  expectKind .rParen
  return mk inner

/-- Source: `parser.rs`, the form `concat` -/
def concatForm (n : Nat) : Parse Expr := do
  let args ← arguments expr n
  if args.isEmpty then errorText "concat() requires at least one argument"
  else return .concat args

/-- A form whose argument is a name. Source: `parser.rs`, the forms `read` and `random` -/
def namedForm (mk : String → Expr) : Parse Expr := do
  let name ← expectIdentAny
  expectKind .rParen
  return mk name

/-- Source: `parser.rs`, the form `fetch` -/
def fetchForm : Parse Expr := do
  let connection ← expectIdentAny
  expectKind .comma
  let request ← expr
  expectKind .rParen
  return .fetch connection request

/-- Source: `parser.rs`, the form `now_unix` -/
def nowUnixForm : Parse Expr := do
  if ← checkKind .rParen then
    expectKind .rParen
    return .nowUnix
  else errorText "now_unix takes no arguments"

/-- Source: `parser.rs`, the form `match_result` -/
def matchResultForm : Parse Expr := do
  let target ← expr
  expectKind .comma
  let okVar ← expectIdentAny
  expectKind .fatArrow
  let okBody ← expr
  expectKind .comma
  let errVar ← expectIdentAny
  expectKind .fatArrow
  let errBody ← expr
  expectKind .rParen
  return .matchResult target okVar okBody errVar errBody

/-- The built-in forms by name. Source: `parser.rs`, the branches of `parse_primary` on a name
before an opening parenthesis -/
def builtins (n : Nat) : List (String × Parse Expr) :=
  [("sum", aggregate expr .sum none),
   ("count", aggregate expr .count none),
   ("min", aggregate expr .min (some .min)),
   ("max", aggregate expr .max (some .max)),
   ("fold", foldForm expr),
   ("fold_bytes", foldBytesForm expr),
   ("all", lambda expr (.quantifier .all)),
   ("any", lambda expr (.quantifier .any)),
   ("map", lambda expr .map),
   ("filter", lambda expr .filter),
   ("Ok", resultForm expr .ok),
   ("Err", resultForm expr .err),
   ("concat", concatForm expr n),
   ("read", namedForm .read),
   ("random", namedForm .random),
   ("fetch", fetchForm expr),
   ("json_escape", oneArgument expr "json_escape" .jsonEscape),
   ("parse_int", oneArgument expr "parse_int" .parseInt),
   ("now_unix", nowUnixForm),
   ("starts_with", twoArguments expr "starts_with requires exactly two arguments" .startsWith),
   ("contains", twoArguments expr "contains requires exactly two arguments" .contains),
   ("ends_with", twoArguments expr "ends_with requires exactly two arguments" .endsWith),
   ("length", oneArgument expr "length" .length),
   ("substring", substringForm expr),
   ("byte_at", twoArguments expr "byte_at requires exactly two arguments (text, index)" .byteAt),
   ("try_byte_at",
     twoArguments expr "byte_at requires exactly two arguments (text, index)" .tryByteAt),
   ("abs", oneArgument expr "abs" .abs),
   ("le32", oneArgument expr "le32" .le32),
   ("le64", oneArgument expr "le64" .le64),
   ("arena_scope", oneArgument expr "arena_scope" .arenaScope),
   ("abort_if", oneArgument expr "abort_if" .abortIf),
   ("band", twoArguments expr "band requires exactly two arguments" .bitAnd),
   ("bor", twoArguments expr "bor requires exactly two arguments" .bitOr),
   ("bxor", twoArguments expr "bxor requires exactly two arguments" .bitXor),
   ("shl", twoArguments expr "shl requires exactly two arguments" .shl),
   ("shr", twoArguments expr "shr requires exactly two arguments" .shr),
   ("bnot", oneArgument expr "bnot" .bitNot),
   ("match_result", matchResultForm expr)]

/-! ## Forms that are not operators -/

/-- The separators of a conditional that spans lines; the depth counts the indents that are open.
Source: `parser.rs`, `skip_if_separators` -/
def skipIfSeparators : Nat → Nat → Parse Nat
  | 0, _ => outOfFuel
  | n + 1, depth => do
      match ← peekKind with
      | some .newline => do
          advance
          skipIfSeparators n depth
      | some .indent => do
          advance
          skipIfSeparators n (depth + 1)
      | some .dedent =>
          if 0 < depth then do
            advance
            skipIfSeparators n (depth - 1)
          else return depth
      | _ => return depth

/-- The dedents of the indents that are open after a conditional. Source: `parser.rs`, the last loop
of the `if` of `parse_primary` -/
def balance : Nat → Nat → Parse Unit
  | 0, _ => outOfFuel
  | n + 1, depth =>
      if 0 < depth then do
        match ← peekKind with
        | some .newline => do
            advance
            balance n depth
        | some .dedent => do
            advance
            balance n (depth - 1)
        | _ => return ()
      else return ()

/-- A conditional, after its `if`. Source: `parser.rs`, the `if` of `parse_primary` -/
def ifForm (n : Nat) : Parse Expr := do
  let depth ← skipIfSeparators n 0
  let condition ← expr
  let depth ← skipIfSeparators n depth
  expectIdent "then"
  let depth ← skipIfSeparators n depth
  let thenExpr ← expr
  let depth ← skipIfSeparators n depth
  expectIdent "else"
  let depth ← skipIfSeparators n depth
  let elseExpr ← expr
  balance n depth
  return .ite condition thenExpr elseExpr

/-- The binders of an arm, after the opening parenthesis and not empty. Source: `parser.rs`, the
`match` of `parse_primary` -/
def binderList : Nat → Parse (List (Option String))
  | 0 => outOfFuel
  | n + 1 => do
      let binder ← expectIdentAny
      let binder := if binder = "_" then none else some binder
      if ← checkKind .comma then
        advance
        let binders ← binderList n
        return binder :: binders
      else return [binder]

/-- The binders of an arm with their parentheses, if there are any. -/
def binderBlock (n : Nat) : Parse (List (Option String)) := do
  if ← checkKind .lParen then
    advance
    if ← checkKind .rParen then
      expectKind .rParen
      return []
    else
      let binders ← binderList n
      expectKind .rParen
      return binders
  else return []

/-- The arms of a match, up to the dedent. Source: `parser.rs`, the `match` of `parse_primary` -/
def armList : Nat → Parse (List MatchArm)
  | 0 => outOfFuel
  | n + 1 => do
      let stop := (← checkKind .dedent) || (← atEof)
      if stop then return []
      else if ← checkKind .newline then
        advance
        armList n
      else
        let variantName ← expectIdentAny
        let binders ← binderBlock n
        expectKind .fatArrow
        let body ← expr
        expectKind .newline
        let arms ← armList n
        return .mk variantName binders body :: arms

/-- A match, after its `match`. Source: `parser.rs`, the `match` of `parse_primary` -/
def matchForm (n : Nat) : Parse Expr := do
  let scrutinee ← expr
  expectKind .colon
  expectKind .newline
  expectKind .indent
  let arms ← armList expr n
  expectKind .dedent
  return .matchVariant scrutinee arms

/-- The fields behind a name. Source: `parser.rs`, the last branch on a name of `parse_primary` -/
def fieldPath : Nat → Expr → Parse Expr
  | 0, _ => outOfFuel
  | n + 1, base => do
      if ← checkKind .dot then
        advance
        let field ← expectIdentAny
        fieldPath n (.field base field)
      else return base

/-- What follows a name: a variant, a record, a built-in form, a call, or fields. Source:
`parser.rs`, the branches on a name of `parse_primary` -/
def named (n : Nat) (name : String) : Parse Expr := do
  if ← checkKind .doubleColon then
    advance
    let variantName ← expectIdentAny
    if ← checkKind .lBrace then
      let fields ← fieldBlock expr n
      return .variantConstruct name variantName fields
    else return .variantConstruct name variantName []
  else if ← checkKind .lBrace then
    let fields ← fieldBlock expr n
    return .record name fields
  else if ← checkKind .lParen then
    advance
    match (builtins expr n).lookup name with
    | some form => form
    | none => do
        let args ← arguments expr n
        return .call name args
  else fieldPath n (.ident name)

/-- Source: `parser.rs`, `parse_primary` -/
def primary (n : Nat) : Parse Expr := do
  match ← peekKind with
  | some (.ident name) =>
      if name = "if" then do
        advance
        ifForm expr n
      else if name = "match" then do
        advance
        matchForm expr n
      else do
        advance
        named expr n name
  | some .lParen => do
      advance
      let e ← expr
      expectKind .rParen
      return e
  | some (.bytesLit b) => do
      advance
      return .bytes b
  | some (.stringLit s) => do
      advance
      return .text s
  | some (.number v) => do
      advance
      return .number v
  | _ => errorText "expected expression (number or identifier)"

/-! ## Operators -/

/-- Source: `parser.rs`, `parse_unary` -/
def unary : Nat → Parse Expr
  | 0 => outOfFuel
  | n + 1 => do
      if ← checkIdent "not" then
        advance
        let inner ← unary n
        return .not inner
      else if ← checkKind .minus then
        advance
        let inner ← unary n
        return .neg inner
      else primary expr n

end forms

/-- A loop over left associative operators. Source: `parser.rs`, the loops of `parse_or_expr`,
`parse_and_expr`, `parse_add_expr` and `parse_mul_expr` -/
def chain (op? : TokenKind → Option BinOp) (operand : Parse Expr) : Nat → Expr → Parse Expr
  | 0, _ => outOfFuel
  | n + 1, left => do
      match (← peekKind).bind op? with
      | some op => do
          advance
          let right ← operand
          chain op? operand n (.binary op left right)
      | none => return left

/-- The operators of `parse_mul_expr`. -/
def mulOp? : TokenKind → Option BinOp
  | .star => some .mul
  | .slash => some .div
  | .percent => some .mod
  | _ => none

/-- The operators of `parse_add_expr`. -/
def addOp? : TokenKind → Option BinOp
  | .plus => some .add
  | .minus => some .sub
  | _ => none

/-- The operators of `parse_cmp_expr`. -/
def cmpOp? : TokenKind → Option BinOp
  | .equalEqual => some .eq
  | .notEqual => some .notEq
  | .gt => some .gt
  | .lt => some .lt
  | .gtEq => some .gtEq
  | .ltEq => some .ltEq
  | _ => none

/-- The operator of `parse_and_expr`. -/
def andOp? (kind : TokenKind) : Option BinOp := if kind = .ident "and" then some .and else none

/-- The operator of `parse_or_expr`. -/
def orOp? (kind : TokenKind) : Option BinOp := if kind = .ident "or" then some .or else none

section levels

variable (expr : Parse Expr) (n : Nat)

/-- Source: `parser.rs`, `parse_mul_expr` -/
def mulExpr : Parse Expr := do
  let left ← unary expr n
  chain mulOp? (unary expr n) n left

/-- Source: `parser.rs`, `parse_add_expr` -/
def addExpr : Parse Expr := do
  let left ← mulExpr expr n
  chain addOp? (mulExpr expr n) n left

/-- Source: `parser.rs`, `parse_cmp_expr` -/
def cmpExpr : Parse Expr := do
  let left ← addExpr expr n
  match (← peekKind).bind cmpOp? with
  | some op => do
      advance
      let right ← addExpr expr n
      return .binary op left right
  | none => return left

/-- Source: `parser.rs`, `parse_and_expr` -/
def andExpr : Parse Expr := do
  let left ← cmpExpr expr n
  chain andOp? (cmpExpr expr n) n left

/-- Source: `parser.rs`, `parse_or_expr` -/
def orExpr : Parse Expr := do
  let left ← andExpr expr n
  chain orOp? (andExpr expr n) n left

end levels

/-- An expression, with nestings and loops up to a fuel. Source: `parser.rs`, `parse_expr` -/
def parseExpr : Nat → Parse Expr
  | 0 => outOfFuel
  | n + 1 => orExpr (parseExpr n) n

end Verbosec.Parser
