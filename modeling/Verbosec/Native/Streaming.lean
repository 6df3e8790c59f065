import Verbosec.Interpreter.Calls
import Verbosec.Lib.Except
import Verbosec.Verifier.Facts

/-!
# The streaming lowering of recursive texts and bytes

* `collectNativeCallees` - the rules that an expression calls.
* `checkStreamingTextShape`, `checkStreamingBytesShape` - calls of group members stand in tail
  positions only.
* `decideStreamingTextMode`, `decideStreamingBytesMode` - the check of a whole group.
* `walkExpr`, `walkRule` - the bytes that the lowered rules write, left to right. A member has no
  value there: a call of it where a value is needed is a failure of the walk.

Source: `native.rs`, `collect_native_callees`, `decide_streaming_text_mode`,
`decide_streaming_bytes_mode`, `emit_streaming_text_body`.
-/

namespace Verbosec

open Verbosec.Interpreter Verbosec.Lib

namespace Expr

/-! ## Callees -/

mutual

/-- The rules that an expression calls. Source: `native.rs`, `collect_native_callees` -/
def collectNativeCallees : Expr → List String
  | number _ | text _ | bytes _ | ident _ | field _ _ | read _ | random _ | nowUnix => []
  | call name args => name :: collectNativeListCallees args
  | ite a b c | matchResult a _ b _ c | fold a b _ _ c | foldBytes a b _ _ _ c | substring a b c =>
      collectNativeCallees a ++ collectNativeCallees b ++ collectNativeCallees c
  | binary _ a b | min a b | max a b | bitAnd a b | bitOr a b | bitXor a b | shl a b | shr a b
  | startsWith a b | endsWith a b | contains a b | quantifier _ a _ b | map a _ b | filter a _ b
  | byteAt a b | tryByteAt a b => collectNativeCallees a ++ collectNativeCallees b
  | ok a | err a | not a | neg a | abs a | bitNot a | length a | parseInt a | jsonEscape a | le32 a
  | le64 a | arenaScope a | abortIf a | fetch _ a => collectNativeCallees a
  | concat args => collectNativeListCallees args
  | matchVariant a arms => collectNativeCallees a ++ collectNativeArmsCallees arms
  | record _ fields | variantConstruct _ _ fields => collectNativeFieldsCallees fields

/-- `collectNativeCallees` over the arguments of a call or a `concat`. -/
def collectNativeListCallees : List Expr → List String
  | [] => []
  | e :: es => collectNativeCallees e ++ collectNativeListCallees es

/-- `collectNativeCallees` over the assignments of a constructor. -/
def collectNativeFieldsCallees : List (String × Expr) → List String
  | [] => []
  | (_, e) :: fields => collectNativeCallees e ++ collectNativeFieldsCallees fields

/-- `collectNativeCallees` over the arms of a `match`. -/
def collectNativeArmsCallees : List MatchArm → List String
  | [] => []
  | .mk _ _ body :: arms => collectNativeCallees body ++ collectNativeArmsCallees arms

end

section callees

lemma collectNativeListCallees_eq (es : List Expr) :
    collectNativeListCallees es = es.flatMap collectNativeCallees := by
  induction es with
  | nil => rfl
  | cons e es ih => rw [collectNativeListCallees, ih, List.flatMap_cons]

lemma collectNativeFieldsCallees_eq (fields : List (String × Expr)) :
    collectNativeFieldsCallees fields = fields.flatMap fun f => collectNativeCallees f.2 := by
  induction fields with
  | nil => rfl
  | cons f fields ih =>
      obtain ⟨name, e⟩ := f
      rw [collectNativeFieldsCallees, ih, List.flatMap_cons]

lemma collectNativeArmsCallees_eq (arms : List MatchArm) :
    collectNativeArmsCallees arms = arms.flatMap fun a => collectNativeCallees a.body := by
  induction arms with
  | nil => rfl
  | cons a arms ih =>
      obtain ⟨name, binders, body⟩ := a
      rw [collectNativeArmsCallees, ih, List.flatMap_cons]
      rfl

/-- No call is lost: a field access, whose base is not walked, contains none. -/
theorem mem_collectNativeCallees {e : Expr} (h : e.Spelled) {name : String} (hcall : name ∈ e.calls) :
    name ∈ e.collectNativeCallees := by
  induction e using Expr.induction_children with
  | step e ih =>
      have hmem : (∃ args, e = .call name args) ∨ ∃ c ∈ e.children, name ∈ c.calls := by
        unfold Expr.calls at hcall
        rw [Expr.collect_eq, List.mem_append, List.mem_flatMap] at hcall
        rcases hcall with hself | hcall
        · split at hself
          · rw [List.mem_singleton] at hself
            exact .inl ⟨_, by rw [hself]⟩
          · exact absurd hself List.not_mem_nil
        · exact .inr hcall
      rcases hmem with ⟨args, rfl⟩ | ⟨c, hc, hname⟩
      · exact List.mem_cons_self ..
      · have hin := ih c hc (h.children hc) hname
        clear ih hcall
        cases e <;> simp only [Expr.children, List.mem_cons, List.not_mem_nil, or_false] at hc
        case field base field =>
          subst hc
          obtain ⟨path, hpath⟩ := h.field
          rw [Verifier.calls_of_path hpath] at hname
          exact absurd hname List.not_mem_nil
        case call n args =>
          rw [collectNativeCallees, collectNativeListCallees_eq]
          exact List.mem_cons_of_mem _ (List.mem_flatMap.mpr ⟨c, hc, hin⟩)
        case concat args =>
          rw [collectNativeCallees, collectNativeListCallees_eq]
          exact List.mem_flatMap.mpr ⟨c, hc, hin⟩
        case record n fields =>
          obtain ⟨f, hf, rfl⟩ := List.mem_map.mp hc
          rw [collectNativeCallees, collectNativeFieldsCallees_eq]
          exact List.mem_flatMap.mpr ⟨f, hf, hin⟩
        case variantConstruct n v fields =>
          obtain ⟨f, hf, rfl⟩ := List.mem_map.mp hc
          rw [collectNativeCallees, collectNativeFieldsCallees_eq]
          exact List.mem_flatMap.mpr ⟨f, hf, hin⟩
        case matchVariant s arms =>
          rw [collectNativeCallees, collectNativeArmsCallees_eq]
          rcases hc with rfl | hc
          · exact List.mem_append_left _ hin
          · obtain ⟨a, ha, rfl⟩ := List.mem_map.mp hc
            exact List.mem_append_right _ (List.mem_flatMap.mpr ⟨a, ha, hin⟩)
        all_goals
          simp only [collectNativeCallees, List.mem_append]
          rcases hc with rfl | rfl | rfl <;> simp only [hin, true_or, or_true]

end callees

end Expr

/-- The rules that the `let`s and the value of a rule call. Source: `native.rs`,
`collect_scc_containing` and `reaches_target` -/
def Rule.nativeCallees (r : Rule) : List String :=
  (r.logic.bindings.flatMap fun b => b.2.collectNativeCallees) ++ r.logic.value.collectNativeCallees

lemma Rule.mem_nativeCallees {r : Rule} (h : r.Spelled) {name : String} (hname : name ∈ r.deps) :
    name ∈ r.nativeCallees := by
  rcases List.mem_append.mp hname with hname | hname
  · obtain ⟨b, hb, hname⟩ := List.mem_flatMap.mp hname
    exact List.mem_append_left _
      (List.mem_flatMap.mpr ⟨b, hb, Expr.mem_collectNativeCallees (h.1 b hb) hname⟩)
  · exact List.mem_append_right _ (Expr.mem_collectNativeCallees h.2 hname)

namespace Native

/-! ## The shape of a streaming body -/

/-- What a group of rules streams. -/
inductive Stream where
  | text
  | bytes
  deriving DecidableEq, Repr

/-- The output type of the members that stream. -/
def Stream.ty : Stream → Ty
  | text => .text
  | bytes => .bytes

/-- A call of a member where its bytes would not be in order. -/
inductive Misplaced where
  | condition
  | scrutinee
  | argument (callee : String)
  | littleEndian
  | abortIf
  | nonTail
  | binding (name : String)
  | nonMember
  deriving DecidableEq, Repr

/-- The text of a refusal. Source: `native.rs`, `check_streaming_text_shape`,
`check_streaming_bytes_shape` and the two mode decisions -/
def Misplaced.message (stream : Stream) (rule : String) (m : Misplaced) : String :=
  let word := match stream with
    | .text => "text"
    | .bytes => "bytes"
  let head := "streaming " ++ word ++ " emit: "
  let named := head ++ "rule '" ++ rule ++ "' "
  let tail := "a " ++ word ++ "-SCC call may only appear in a tail " ++ word ++
    " position (body / concat arg / if arm / match arm)"
  let inside := "calls a " ++ word ++ "-returning recursive rule inside "
  match m with
  | .condition =>
      named ++ inside ++ "an if CONDITION; " ++ tail ++
        match stream with
        | .text => " because its bytes stream to stdout during the walk."
        | .bytes => "."
  | .scrutinee =>
      named ++ inside ++ "a match SCRUTINEE; " ++
        match stream with
        | .text => tail ++ "."
        | .bytes => "a bytes-SCC call may only appear in a tail bytes position."
  | .argument callee =>
      named ++ "passes a " ++ word ++ "-returning recursive call as an ARGUMENT to '" ++ callee ++
        "'; arguments are value positions — " ++ tail ++ "."
  | .littleEndian => named ++ inside ++ "le32/le64 (a number position); " ++ tail ++ "."
  | .abortIf => named ++ inside ++ "abort_if (a number position); " ++ tail ++ "."
  | .nonTail =>
      named ++ "uses a " ++ word ++ "-returning recursive call in a non-tail position; a " ++ word ++
        "-SCC call may only appear as a direct element of the body / concat args / if arms / " ++
        "match arms" ++
        match stream with
        | .text => ", because the callee streams its bytes to stdout during the walk. " ++
            "Workaround: restructure so the call's bytes are emitted in output order, or use " ++
            "--run (interpreter)."
        | .bytes => "."
  | .binding name =>
      named ++ "let '" ++ name ++ "' references a " ++ word ++ "-returning recursive rule; let " ++
        "RHSes are evaluated before the body, so the callee's bytes would stream out of order. " ++
        "Inline the call in a tail " ++ word ++ " position instead."
  | .nonMember =>
      head ++ "non-" ++ word ++ " rule '" ++ rule ++ "' calls a " ++ word ++
        "-returning recursive rule; in streaming mode a " ++ word ++ "-SCC member writes its " ++
        "bytes to stdout and returns no usable value, so only " ++ word ++
        "-output rules may call it (in tail " ++ word ++ " positions)."

/-- Does an expression call a streaming member anywhere? Source: `native.rs`,
`expr_references_text_scc`, `expr_references_bytes_scc` -/
def references (scc : List String) (e : Expr) : Bool := e.collectNativeCallees.any (· ∈ scc)

mutual

/-- The calls of streaming members stand in tail positions. Source: `native.rs`, the common part of
`check_streaming_text_shape` and `check_streaming_bytes_shape` -/
def checkStreamingShape (stream : Stream) (scc : List String) : Expr → Except Misplaced Unit
  | .concat args => checkStreamingList stream scc args
  | .ite c a b =>
      if references scc c then .error .condition
      else do
        checkStreamingShape stream scc a
        checkStreamingShape stream scc b
  | .matchVariant s arms =>
      if references scc s then .error .scrutinee else checkStreamingArms stream scc arms
  | .call name args =>
      if name ∈ scc then
        if args.any (references scc) then .error (.argument name) else .ok ()
      else if references scc (.call name args) then .error .nonTail
      else .ok ()
  | .arenaScope a =>
      match stream with
      | .bytes => checkStreamingShape stream scc a
      | .text => if references scc a then .error .nonTail else .ok ()
  | e =>
      if references scc e then
        match stream, e with
        | .bytes, .le32 _ => .error .littleEndian
        | .bytes, .le64 _ => .error .littleEndian
        | .bytes, .abortIf _ => .error .abortIf
        | _, _ => .error .nonTail
      else .ok ()

/-- `checkStreamingShape` over the arguments of a `concat`. -/
def checkStreamingList (stream : Stream) (scc : List String) : List Expr → Except Misplaced Unit
  | [] => .ok ()
  | e :: es => do
      checkStreamingShape stream scc e
      checkStreamingList stream scc es

/-- `checkStreamingShape` over the arms of a `match`. -/
def checkStreamingArms (stream : Stream) (scc : List String) :
    List MatchArm → Except Misplaced Unit
  | [] => .ok ()
  | .mk _ _ body :: arms => do
      checkStreamingShape stream scc body
      checkStreamingArms stream scc arms

end

/-- Source: `native.rs`, `check_streaming_text_shape` -/
def checkStreamingTextShape : List String → Expr → Except Misplaced Unit :=
  checkStreamingShape .text

/-- The same for bytes, where an arena scope is a tail position too. Source: `native.rs`,
`check_streaming_bytes_shape` -/
def checkStreamingBytesShape : List String → Expr → Except Misplaced Unit :=
  checkStreamingShape .bytes

/-! ## The mode of a group -/

/-- The members that stream. -/
def streamingMembers (stream : Stream) (group : List Rule) : List String :=
  (group.filter (·.outputTy = stream.ty)).map (·.name)

/-- The check of one rule of a group. Source: `native.rs`, the loops of
`decide_streaming_text_mode` and `decide_streaming_bytes_mode` -/
def checkMember (stream : Stream) (scc : List String) (r : Rule) : Except String Unit :=
  match r.logic.bindings.find? (references scc ·.2) with
  | some (name, _) => .error ((Misplaced.binding name).message stream r.name)
  | none =>
      if r.outputTy = stream.ty then
        match checkStreamingShape stream scc r.logic.value with
        | .ok () => .ok ()
        | .error m => .error (m.message stream r.name)
      else if references scc r.logic.value then .error (Misplaced.nonMember.message stream r.name)
      else .ok ()

/-- A text body that the materializing lowering does not handle. Source: `native.rs`,
`text_body_beyond_legacy_grammar` -/
def textBodyBeyondLegacyGrammar : Expr → Bool
  | .concat _ | .matchVariant _ _ => true
  | .ite _ a b => textBodyBeyondLegacyGrammar a || textBodyBeyondLegacyGrammar b
  | .substring a _ _ => textBodyBeyondLegacyGrammar a
  | _ => false

/-- Is a group of rules with text outputs streamed? Source: `native.rs`,
`decide_streaming_text_mode` -/
def decideStreamingTextMode (group : List Rule) : Except String Bool :=
  if group.any fun r => r.outputTy = .text && textBodyBeyondLegacyGrammar r.logic.value then do
    group.forM (checkMember .text (streamingMembers .text group))
    .ok true
  else .ok false

/-- A group of rules with bytes outputs is streamed, or refused. Source: `native.rs`,
`decide_streaming_bytes_mode` -/
def decideStreamingBytesMode (group : List Rule) : Except String Unit :=
  group.forM (checkMember .bytes (streamingMembers .bytes group))

/-- Is a group accepted as a stream? -/
def Streamed (stream : Stream) (group : List Rule) : Prop :=
  match stream with
  | .text => decideStreamingTextMode group = .ok true
  | .bytes => decideStreamingBytesMode group = .ok ()

/-! ## The walk -/

/-- The bytes of a leaf. -/
def leafBytes : Stream → Value → Outcome (List UInt8)
  | .text, v => (concatPiece v).map utf8Bytes
  | .bytes, .bytes b => .ok b
  | .bytes, v => fail (.concatBytes v)

mutual

/-- The bytes that an expression in a tail position writes, with the outcomes of the calls in value
positions and the bytes that the calls of members write. Source: `native.rs`,
`emit_streaming_text_body` and `emit_streaming_bytes_body` -/
def walkExpr (ctx : Context) (stream : Stream) (scc : List String) (value : Calls)
    (write : Rule → Value → Outcome (List UInt8)) (env : Env) : Expr → Outcome (List UInt8)
  | .concat args => walkArgs ctx stream scc value write env args
  | .ite c a b => do
      match ← evalExpr ctx value env c with
      | .bool true => walkExpr ctx stream scc value write env a
      | .bool false => walkExpr ctx stream scc value write env b
      | other => fail (.operand "'if' condition must be bool" other)
  | .matchVariant s arms => do
      match ← evalExpr ctx value env s with
      | .variant concept variant fields =>
          walkArms ctx stream scc value write env concept variant fields arms
      | other => fail (.matchScrutinee other)
  | .call name args =>
      if name ∈ scc then
        match ctx.findRule name with
        | none => fail (.unknownRule name)
        | some r =>
            match args with
            | [arg] => do write r (← evalExpr ctx value env arg)
            | args => fail (.arity args.length)
      else do leafBytes stream (← evalExpr ctx value env (.call name args))
  | .arenaScope a =>
      match stream with
      | .bytes => walkExpr ctx stream scc value write env a
      | .text => do leafBytes stream (← evalExpr ctx value env (.arenaScope a))
  | e => do leafBytes stream (← evalExpr ctx value env e)

/-- The bytes of the arguments of a `concat`, in order. -/
def walkArgs (ctx : Context) (stream : Stream) (scc : List String) (value : Calls)
    (write : Rule → Value → Outcome (List UInt8)) (env : Env) : List Expr → Outcome (List UInt8)
  | [] => .ok []
  | e :: es => do
      let out ← walkExpr ctx stream scc value write env e
      let rest ← walkArgs ctx stream scc value write env es
      .ok (out ++ rest)

/-- The bytes of the arm that a variant selects. -/
def walkArms (ctx : Context) (stream : Stream) (scc : List String) (value : Calls)
    (write : Rule → Value → Outcome (List UInt8)) (env : Env) (concept variant : String)
    (fields : List (String × Value)) : List MatchArm → Outcome (List UInt8)
  | [] => fail (.noMatchArm concept variant)
  | .mk name binders body :: arms =>
      if name = variant then do
        let armEnv ← bindArm ctx concept variant fields binders env
        walkExpr ctx stream scc value write armEnv body
      else walkArms ctx stream scc value write env concept variant fields arms

end

/-- The value of a rule, with calls nested at most `fuel` deep. A streaming member has none: its
bytes are written where it is called. -/
def valueRule (ctx : Context) (scc : List String) : Nat → Rule → Value → Outcome Value
  | 0, _, _ => .error .outOfFuel
  | fuel + 1, r, v =>
      if r.name ∈ scc then fail (.shape "a streaming member has no value")
      else applyRule ctx r v (valueRule ctx scc fuel)

/-- The bytes that a streaming member writes, with calls nested at most `fuel` deep: the `let`s are
evaluated, and the value is walked. -/
def walkRule (ctx : Context) (stream : Stream) (scc : List String) :
    Nat → Rule → Value → Outcome (List UInt8)
  | 0, _, _ => .error .outOfFuel
  | fuel + 1, r, v => do
      let env ← evalBindings ctx (valueRule ctx scc fuel) [(r.inputName, v)] r.logic.bindings
      walkExpr ctx stream scc (valueRule ctx scc fuel) (walkRule ctx stream scc fuel) env
        r.logic.value

end Native

end Verbosec
