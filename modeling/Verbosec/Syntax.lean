import Mathlib.Data.List.Basic

/-!
# The abstract syntax of a program

* `Ty`, `Field`, `Variant`, `Concept` - declared types: scalars, collections, results, and concepts
  that are either records (`fields`) or sums (`variants`).
* `BinOp`, `Expr`, `MatchArm` - the expression language. Number literals are 64-bit words, as the
  parser produces them; a text literal is a string, a bytes literal a list of bytes.
* `Rule`, `Hints`, `Proofs`, `LogicStmt` - a rule: its input, its declared output, its `let`s in
  order, its value and its declared proofs.
* `Service`, `Reaction`, `Execution`, `Resource`, `Connection`, `Entropy`, `ConceptGroup`, `Item`,
  `Program` - the other top-level declarations.
* `Expr.children`, `Expr.collect` - the syntax walker that the analyses share, and `Expr.calls`,
  the rule names an expression calls.

Source: `ast.rs`; `verifier.rs`, `walk_expr_children`. Intentions and `@source` references play no
part in any analysis and are left out.
-/

namespace Verbosec

/-! ## Types and concepts -/

/-- A declared type. Source: `ast.rs`, `Type` -/
inductive Ty where
  | number
  | boundsError
  | bool
  | text
  | bytes
  | collection (item : String)
  | named (name : String)
  | result (ok err : Ty)
  deriving DecidableEq, Repr

/-- The debug rendering of a type, as it stands in diagnostics.
Source: `ast.rs`, the derived `Debug` of `Type` -/
def Ty.debug : Ty → String
  | .number => "Number"
  | .boundsError => "BoundsError"
  | .bool => "Bool"
  | .text => "Text"
  | .bytes => "Bytes"
  | .collection item => "Collection(\"" ++ item ++ "\")"
  | .named name => "Named(\"" ++ name ++ "\")"
  | .result ok err => "Result(" ++ ok.debug ++ ", " ++ err.debug ++ ")"

/-- A declared field. `range` holds the declared interval of a number; for a text its second
component is the declared byte bound. Source: `ast.rs`, `Field` -/
structure Field where
  /-- the field's name -/
  name : String
  /-- the field's declared type -/
  ty : Ty
  /-- the declared bounds -/
  range : Option (Int64 × Int64) := none
  deriving DecidableEq, Repr

/-- One variant of a sum concept. Source: `ast.rs`, `Variant` -/
structure Variant where
  /-- the variant's name -/
  name : String
  /-- its payload, in declaration order -/
  fields : List Field
  deriving DecidableEq, Repr

/-- A concept: a record when it has fields, a sum when it has variants.
Source: `ast.rs`, `Concept` -/
structure Concept where
  /-- the concept's name -/
  name : String
  /-- the fields of a record concept, in declaration order -/
  fields : List Field := []
  /-- the variants of a sum concept, in declaration order -/
  variants : List Variant := []
  deriving DecidableEq, Repr

/-! ## Expressions -/

/-- Binary operators. Source: `ast.rs`, `BinOp` -/
inductive BinOp where
  | add | sub | mul | div | mod
  | eq | notEq | gt | lt | gtEq | ltEq
  | and | or
  deriving DecidableEq, Repr

/-- The debug rendering of an operator, as it stands in diagnostics.
Source: `ast.rs`, the derived `Debug` of `BinOp` -/
def BinOp.debug : BinOp → String
  | .add => "Add"
  | .sub => "Sub"
  | .mul => "Mul"
  | .div => "Div"
  | .mod => "Mod"
  | .eq => "Eq"
  | .notEq => "NotEq"
  | .gt => "Gt"
  | .lt => "Lt"
  | .gtEq => "GtEq"
  | .ltEq => "LtEq"
  | .and => "And"
  | .or => "Or"

/-- Which quantifier a collection test is. Source: `ast.rs`, `QuantifierKind` -/
inductive QuantifierKind where
  | all | any
  deriving DecidableEq, Repr

mutual

/-- Expressions, one constructor per syntactic form. Source: `ast.rs`, `Expr` -/
inductive Expr where
  | number (n : Int64)
  | text (s : String)
  | bytes (b : List UInt8)
  | ident (name : String)
  | field (base : Expr) (name : String)
  | binary (op : BinOp) (left right : Expr)
  | call (name : String) (args : List Expr)
  | ite (cond yes no : Expr)
  | not (inner : Expr)
  | neg (inner : Expr)
  | quantifier (kind : QuantifierKind) (collection : Expr) (var : String) (predicate : Expr)
  | fold (collection initial : Expr) (acc item : String) (body : Expr)
  | map (collection : Expr) (var : String) (body : Expr)
  | filter (collection : Expr) (var : String) (predicate : Expr)
  | ok (inner : Expr)
  | err (inner : Expr)
  | matchResult (target : Expr) (okVar : String) (okBody : Expr) (errVar : String) (errBody : Expr)
  | record (concept : String) (fields : List (String × Expr))
  | concat (args : List Expr)
  | read (resource : String)
  | fetch (connection : String) (request : Expr)
  | random (entropy : String)
  | jsonEscape (inner : Expr)
  | parseInt (inner : Expr)
  | nowUnix
  | startsWith (haystack needle : Expr)
  | length (inner : Expr)
  | contains (haystack needle : Expr)
  | abs (inner : Expr)
  | le32 (inner : Expr)
  | le64 (inner : Expr)
  | endsWith (haystack needle : Expr)
  | min (left right : Expr)
  | max (left right : Expr)
  | arenaScope (inner : Expr)
  | abortIf (inner : Expr)
  | bitAnd (left right : Expr)
  | bitOr (left right : Expr)
  | bitXor (left right : Expr)
  | bitNot (inner : Expr)
  | shl (left right : Expr)
  | shr (left right : Expr)
  | substring (text start stop : Expr)
  | byteAt (text index : Expr)
  | tryByteAt (table index : Expr)
  | foldBytes (text initial : Expr) (acc byte idx : String) (body : Expr)
  | variantConstruct (concept variant : String) (fields : List (String × Expr))
  | matchVariant (scrutinee : Expr) (arms : List MatchArm)

/-- One arm of a `match`: a variant, one binder or wildcard per payload field, and a body.
Source: `ast.rs`, `MatchArm` -/
inductive MatchArm where
  | mk (variantName : String) (binders : List (Option String)) (body : Expr)

end

namespace MatchArm

/-- The variant an arm selects. -/
def variantName : MatchArm → String
  | mk v _ _ => v

/-- The binders of an arm, `none` for a wildcard. -/
def binders : MatchArm → List (Option String)
  | mk _ bs _ => bs

/-- The body of an arm. -/
def body : MatchArm → Expr
  | mk _ _ e => e

end MatchArm

namespace Expr

/-- The direct subexpressions, left to right. Source: `verifier.rs`, `walk_expr_children` -/
def children : Expr → List Expr
  | number _ | text _ | bytes _ | ident _ | read _ | random _ | nowUnix => []
  | field a _ | not a | neg a | ok a | err a | jsonEscape a | parseInt a | length a | abs a
  | le32 a | le64 a | arenaScope a | abortIf a | bitNot a | fetch _ a => [a]
  | binary _ a b | startsWith a b | endsWith a b | contains a b | min a b | max a b
  | bitAnd a b | bitOr a b | bitXor a b | shl a b | shr a b | byteAt a b | tryByteAt a b
  | quantifier _ a _ b | map a _ b | filter a _ b => [a, b]
  | ite a b c | substring a b c | fold a b _ _ c | matchResult a _ b _ c
  | foldBytes a b _ _ _ c => [a, b, c]
  | call _ args | concat args => args
  | record _ fields | variantConstruct _ _ fields => fields.map (·.2)
  | matchVariant a arms => a :: arms.map (·.body)

/-- A direct subexpression is smaller. -/
theorem sizeOf_lt_of_mem_children {c e : Expr} (h : c ∈ e.children) : sizeOf c < sizeOf e := by
  have hlist : ∀ (es : List Expr), c ∈ es → sizeOf c < sizeOf es :=
    fun es => List.sizeOf_lt_of_mem
  have hfields : ∀ fs : List (String × Expr), c ∈ fs.map (·.2) → sizeOf c < sizeOf fs := by
    intro fs hc
    obtain ⟨⟨k, x⟩, hp, rfl⟩ := List.mem_map.mp hc
    have := List.sizeOf_lt_of_mem hp
    simp only [Prod.mk.sizeOf_spec] at this
    show sizeOf x < sizeOf fs
    omega
  have harms : ∀ as : List MatchArm, c ∈ as.map (·.body) → sizeOf c < sizeOf as := by
    intro as hc
    obtain ⟨a, ha, rfl⟩ := List.mem_map.mp hc
    have := List.sizeOf_lt_of_mem ha
    cases a
    simp only [MatchArm.mk.sizeOf_spec, MatchArm.body] at this ⊢
    omega
  cases e <;> simp only [children, List.mem_cons, List.not_mem_nil, or_false] at h
  case call n args =>
    have := hlist args h
    simp only [call.sizeOf_spec]
    omega
  case concat args =>
    have := hlist args h
    simp only [concat.sizeOf_spec]
    omega
  case record n fields =>
    have := hfields fields h
    simp only [record.sizeOf_spec]
    omega
  case variantConstruct n v fields =>
    have := hfields fields h
    simp only [variantConstruct.sizeOf_spec]
    omega
  case matchVariant a arms =>
    rcases h with rfl | h
    · simp only [matchVariant.sizeOf_spec]
      omega
    · have := harms arms h
      simp only [matchVariant.sizeOf_spec]
      omega
  all_goals
    first
    | (subst h; simp +arith)
    | (rcases h with rfl | rfl <;> simp +arith)
    | (rcases h with rfl | rfl | rfl <;> simp +arith)

mutual

/-- Everything `f` finds at the nodes of an expression, in the order of the walk. -/
def collect {α : Type} (f : Expr → List α) : Expr → List α
  | number n => f (number n)
  | text s => f (text s)
  | bytes b => f (bytes b)
  | ident n => f (ident n)
  | read n => f (read n)
  | random n => f (random n)
  | nowUnix => f nowUnix
  | field a n => f (field a n) ++ collect f a
  | not a => f (not a) ++ collect f a
  | neg a => f (neg a) ++ collect f a
  | ok a => f (ok a) ++ collect f a
  | err a => f (err a) ++ collect f a
  | jsonEscape a => f (jsonEscape a) ++ collect f a
  | parseInt a => f (parseInt a) ++ collect f a
  | length a => f (length a) ++ collect f a
  | abs a => f (abs a) ++ collect f a
  | le32 a => f (le32 a) ++ collect f a
  | le64 a => f (le64 a) ++ collect f a
  | arenaScope a => f (arenaScope a) ++ collect f a
  | abortIf a => f (abortIf a) ++ collect f a
  | bitNot a => f (bitNot a) ++ collect f a
  | fetch n a => f (fetch n a) ++ collect f a
  | binary o a b => f (binary o a b) ++ collect f a ++ collect f b
  | startsWith a b => f (startsWith a b) ++ collect f a ++ collect f b
  | endsWith a b => f (endsWith a b) ++ collect f a ++ collect f b
  | contains a b => f (contains a b) ++ collect f a ++ collect f b
  | min a b => f (min a b) ++ collect f a ++ collect f b
  | max a b => f (max a b) ++ collect f a ++ collect f b
  | bitAnd a b => f (bitAnd a b) ++ collect f a ++ collect f b
  | bitOr a b => f (bitOr a b) ++ collect f a ++ collect f b
  | bitXor a b => f (bitXor a b) ++ collect f a ++ collect f b
  | shl a b => f (shl a b) ++ collect f a ++ collect f b
  | shr a b => f (shr a b) ++ collect f a ++ collect f b
  | byteAt a b => f (byteAt a b) ++ collect f a ++ collect f b
  | tryByteAt a b => f (tryByteAt a b) ++ collect f a ++ collect f b
  | quantifier k a v b => f (quantifier k a v b) ++ collect f a ++ collect f b
  | map a v b => f (map a v b) ++ collect f a ++ collect f b
  | filter a v b => f (filter a v b) ++ collect f a ++ collect f b
  | ite a b c => f (ite a b c) ++ collect f a ++ collect f b ++ collect f c
  | substring a b c => f (substring a b c) ++ collect f a ++ collect f b ++ collect f c
  | fold a b x y c => f (fold a b x y c) ++ collect f a ++ collect f b ++ collect f c
  | matchResult a x b y c =>
      f (matchResult a x b y c) ++ collect f a ++ collect f b ++ collect f c
  | foldBytes a b x y z c => f (foldBytes a b x y z c) ++ collect f a ++ collect f b ++ collect f c
  | call n args => f (call n args) ++ collectList f args
  | concat args => f (concat args) ++ collectList f args
  | record n fields => f (record n fields) ++ collectFields f fields
  | variantConstruct n v fields => f (variantConstruct n v fields) ++ collectFields f fields
  | matchVariant a arms => f (matchVariant a arms) ++ collect f a ++ collectArms f arms

/-- `collect` over the arguments of a call or a `concat`. -/
def collectList {α : Type} (f : Expr → List α) : List Expr → List α
  | [] => []
  | e :: es => collect f e ++ collectList f es

/-- `collect` over the assignments of a constructor. -/
def collectFields {α : Type} (f : Expr → List α) : List (String × Expr) → List α
  | [] => []
  | (_, e) :: es => collect f e ++ collectFields f es

/-- `collect` over the bodies of the arms of a `match`. -/
def collectArms {α : Type} (f : Expr → List α) : List MatchArm → List α
  | [] => []
  | .mk _ _ e :: arms => collect f e ++ collectArms f arms

end

section collect

variable {α : Type} (f : Expr → List α)

lemma collectList_eq (es : List Expr) : collectList f es = es.flatMap (collect f) := by
  induction es with
  | nil => rfl
  | cons e es ih => rw [collectList, ih, List.flatMap_cons]

lemma collectFields_eq (fields : List (String × Expr)) :
    collectFields f fields = (fields.map (·.2)).flatMap (collect f) := by
  induction fields with
  | nil => rfl
  | cons p fields ih => rw [collectFields, ih, List.map_cons, List.flatMap_cons]

lemma collectArms_eq (arms : List MatchArm) :
    collectArms f arms = (arms.map (·.body)).flatMap (collect f) := by
  induction arms with
  | nil => rfl
  | cons a arms ih =>
      cases a
      rw [collectArms, ih, List.map_cons, List.flatMap_cons]
      rfl

/-- The walk visits a node and then its children in order. -/
theorem collect_eq (e : Expr) : collect f e = f e ++ e.children.flatMap (collect f) := by
  cases e <;>
    simp [collect, children, collectList_eq, collectFields_eq, collectArms_eq]

end collect

/-- A property of expressions that passes from the direct subexpressions to the whole holds of
every expression. -/
theorem induction_children {P : Expr → Prop} (step : ∀ e, (∀ c ∈ e.children, P c) → P e)
    (e : Expr) : P e :=
  step e fun c _ => induction_children step c
termination_by sizeOf e
decreasing_by exact sizeOf_lt_of_mem_children ‹_›

/-- The rules an expression calls, with repetitions.
Source: `numeric_bounds.rs` and `text_bounds.rs`, `calls` -/
def calls : Expr → List String :=
  collect fun
    | call n _ => [n]
    | _ => []

end Expr

/-! ## Rules -/

/-- A dotted path, as a purity proof lists it. Source: `ast.rs`, `Path` -/
structure Path where
  /-- the segments between the dots -/
  segments : List String
  deriving DecidableEq, Repr

/-- The declared reads and calls of a rule. Source: `ast.rs`, `Purity` -/
structure Purity where
  /-- the declared reads -/
  reads : List Path := []
  /-- the declared calls -/
  calls : List Path := []
  deriving DecidableEq, Repr

/-- The declared termination argument of a rule. Source: `ast.rs`, `Termination` -/
structure Termination where
  /-- a literal bound on the iterations -/
  bound : Option Int64 := none
  /-- the parameter that shrinks structurally -/
  structural : Option String := none
  /-- the field that decreases at each self-call -/
  decreasing : Option String := none
  /-- the field that increases at each self-call -/
  increasing : Option String := none
  deriving DecidableEq, Repr

/-- The proofs a rule declares. Source: `ast.rs`, `Proofs` -/
structure Proofs where
  /-- declared reads and calls -/
  purity : Purity := {}
  /-- declared termination argument -/
  termination : Termination := {}
  deriving DecidableEq, Repr

/-- A declared output interval. Source: `ast.rs`, `OverflowHint` -/
structure OverflowHint where
  /-- the least declared result -/
  min : Int64
  /-- the largest declared result -/
  max : Int64
  deriving DecidableEq, Repr

/-- Optimisation hints. Source: `ast.rs`, `Hints` -/
structure Hints where
  /-- why the elements may be compared side by side, when it is declared -/
  vectorizable : Option String := none
  /-- why the records may be evaluated by two processes, when it is declared -/
  parallel : Option String := none
  /-- the strict output interval, when one is declared -/
  overflow : Option OverflowHint := none
  deriving DecidableEq, Repr

/-- The architectural layer of a rule. Source: `ast.rs`, `Layer` -/
inductive Layer where
  | domain | application | interface
  deriving DecidableEq, Repr

/-- The body of a rule: its `let`s in order and its value. Source: `ast.rs`, `LogicStmt` -/
structure LogicStmt where
  /-- the `let` bindings, in source order -/
  bindings : List (String × Expr) := []
  /-- the value of the rule -/
  value : Expr

/-- A rule. Source: `ast.rs`, `Rule` -/
structure Rule where
  /-- the rule's name -/
  name : String
  /-- the name its input is bound to -/
  inputName : String
  /-- the declared input type -/
  inputTy : Ty
  /-- the name of its output -/
  outputName : String
  /-- the declared output type -/
  outputTy : Ty
  /-- the declared byte bound of a text output -/
  outputTextMax : Option Nat := none
  /-- the body -/
  logic : LogicStmt
  /-- the declared proofs -/
  proofs : Proofs := {}
  /-- the declared hints -/
  hints : Option Hints := none
  /-- the declared layer -/
  layer : Option Layer := none
  /-- the name of a second, context input -/
  contextName : Option String := none
  /-- the type of a second, context input -/
  contextTy : Option Ty := none

/-- The rules that the bindings and the value of a rule call.
Source: `numeric_bounds.rs` and `text_bounds.rs`, the `edges` of `participating` -/
def Rule.deps (r : Rule) : List String :=
  (r.logic.bindings.flatMap fun b => b.2.calls) ++ r.logic.value.calls

/-! ## Services, reactions and the other declarations -/

/-- What an effect does. Source: `ast.rs`, `Effect` -/
inductive Effect where
  | print (args : List Expr)
  | appendFile (path : String) (content : Expr)

/-- The rules an effect calls. Source: `numeric_bounds.rs` and `text_bounds.rs`, `verify` -/
def Effect.calls : Effect → List String
  | .print args => args.flatMap (·.calls)
  | .appendFile _ content => content.calls

/-- A log block of a service. Source: `ast.rs`, `LogBlock` -/
structure LogBlock where
  /-- the logged effect -/
  effect : Effect

/-- The wire protocol of a service. Source: `ast.rs`, `Protocol` -/
inductive Protocol where
  | rawTcp | http10
  deriving DecidableEq, Repr

/-- How a service serves its connections. Source: `ast.rs`, `ConcurrencyMode` -/
inductive ConcurrencyMode where
  | sequential | forked | pooled
  deriving DecidableEq, Repr

/-- The literal a state field starts with. Source: `ast.rs`, `StateInit` -/
inductive StateInit where
  | number (n : Int64)
  | text (s : String)
  deriving DecidableEq, Repr

/-- A state field of a service. Source: `ast.rs`, `StateField` -/
structure StateField where
  /-- the field's name -/
  name : String
  /-- the field's type -/
  ty : Ty
  /-- the declared byte capacity of a text field -/
  maxBytes : Option Int64 := none
  /-- the initial value -/
  init : StateInit := .number 0
  deriving DecidableEq, Repr

/-- One assignment of an `after` block. Source: `ast.rs`, `StateSet` -/
structure StateSet where
  /-- the assigned state field -/
  fieldName : String
  /-- the assigned value -/
  value : Expr

/-- A service. Source: `ast.rs`, `Service` -/
structure Service where
  /-- the service's name -/
  name : String
  /-- the wire protocol -/
  protocol : Protocol
  /-- the largest accepted request, in bytes -/
  maxRequest : Nat
  /-- the rule that answers a request -/
  handler : String
  /-- the log blocks -/
  logs : List LogBlock := []
  /-- how connections are served -/
  concurrency : ConcurrencyMode := .sequential
  /-- the state fields -/
  stateFields : List StateField := []
  /-- the assignments after a response -/
  afterSets : List StateSet := []

/-- A reaction: effects run when a rule triggers. Source: `ast.rs`, `Reaction` -/
structure Reaction where
  /-- the reaction's name -/
  name : String
  /-- the rule that triggers it -/
  trigger : String
  /-- its effects, in order -/
  effects : List Effect

/-- How the phases of an execution run. Source: `ast.rs`, `ExecutionMode` -/
inductive ExecutionMode where
  | sequential (nativeStack : Nat)
  | pipeline (nativeStack : Nat)
  | concurrent (maxInFlight : Nat) (nativeMemory : Option Nat) (resultBatch : Nat)
  deriving DecidableEq, Repr

/-- An execution: rules run as ordered phases over one list of records.
Source: `ast.rs`, `Execution` -/
structure Execution where
  /-- the execution's name -/
  name : String
  /-- the input concept -/
  input : String
  /-- the rules, in phase order -/
  phases : List String
  /-- how the phases run -/
  mode : ExecutionMode
  deriving DecidableEq, Repr

/-- A declared file. Source: `ast.rs`, `Resource` -/
structure Resource where
  /-- the resource's name -/
  name : String
  /-- the largest read, in bytes -/
  maxBytes : Nat
  deriving DecidableEq, Repr

/-- A declared outbound connection. Source: `ast.rs`, `Connection` -/
structure Connection where
  /-- the connection's name -/
  name : String
  /-- the largest response, in bytes -/
  maxResponse : Nat
  deriving DecidableEq, Repr

/-- A declared source of kernel randomness. Source: `ast.rs`, `Entropy` -/
structure Entropy where
  /-- the source's name -/
  name : String
  /-- the bytes of one draw -/
  bytes : Nat
  deriving DecidableEq, Repr

/-- A group of mutually recursive sum concepts. Source: `ast.rs`, `ConceptGroup` -/
structure ConceptGroup where
  /-- the group's name -/
  name : String
  /-- the bound on the depth of a tree -/
  maxDepth : Nat
  /-- the bound on the nodes of a tree -/
  maxNodes : Nat
  /-- the concepts of the group -/
  concepts : List Concept
  deriving DecidableEq, Repr

/-- A top-level declaration. Source: `ast.rs`, `Item` -/
inductive Item where
  | concept (c : Concept)
  | rule (r : Rule)
  | reaction (rx : Reaction)
  | service (s : Service)
  | execution (e : Execution)
  | resource (r : Resource)
  | connection (c : Connection)
  | entropy (e : Entropy)
  | conceptGroup (g : ConceptGroup)

/-- A program: its declarations in source order. Source: `ast.rs`, `Program` -/
structure Program where
  /-- the declarations -/
  items : List Item

namespace Program

/-- The rules of a program, in source order. -/
def rules (p : Program) : List Rule :=
  p.items.filterMap fun
    | .rule r => some r
    | _ => none

/-- Every declared concept, those of the groups included, in source order.
Source: `ast.rs`, `iter_all_concepts` -/
def concepts (p : Program) : List Concept :=
  p.items.flatMap fun
    | .concept c => [c]
    | .conceptGroup g => g.concepts
    | _ => []

/-- The declared entropy sources, in source order. -/
def entropies (p : Program) : List Entropy :=
  p.items.filterMap fun
    | .entropy e => some e
    | _ => none

/-- The services, in source order. -/
def services (p : Program) : List Service :=
  p.items.filterMap fun
    | .service s => some s
    | _ => none

end Program

end Verbosec
