import Verbosec.Interpreter.Calls
import Verbosec.Verifier.Facts

/-!
# Layers

* `Layer.canCall` - which layer may call which.
* `checkLayerDiscipline`, `layerErrors` - the calls of a rule with a layer, against the layers of the
  rules called.
* `Evaluates` - the rules that a run evaluates, at any depth.
* `layers_sealed` - a run that starts in a layer stays in the layers that it may call.

Source: `verifier.rs`, `check_layer_discipline`; `ast.rs`, `Layer`.
-/

namespace Verbosec

/-! ## Layers -/

/-- The name of a layer. Source: `ast.rs`, `Layer::as_str` -/
def Layer.asStr : Layer → String
  | domain => "domain"
  | application => "application"
  | interface => "interface"

/-- May a rule of a layer call a rule of another? Source: `ast.rs`, `Layer::can_call` -/
def Layer.canCall : Layer → Layer → Bool
  | domain, target => target = domain
  | application, target => target = domain || target = application
  | interface, _ => true

/-- A layer calls itself, and what a layer that it calls may call. -/
lemma Layer.canCall_trans {a b c : Layer} (h : a.canCall b) (h' : b.canCall c) : a.canCall c := by
  cases a <;> cases b <;> cases c <;> simp_all [canCall]

lemma Layer.canCall_self (a : Layer) : a.canCall a := by cases a <;> rfl

namespace Verifier

/-- The calls of a rule at a layer that leave its layers. Source: `verifier.rs`,
`check_layer_discipline` -/
def checkLayerDiscipline (r : Rule) (callerLayer : Layer) (facts : LogicFacts)
    (rules : List Rule) : List VerifyError :=
  facts.calls.flatMap fun
    | [callName] =>
        match rules.find? (·.name = callName) with
        | none => []
        | some callee =>
            match callee.layer with
            | none =>
                [⟨"rule '" ++ r.name ++ "' / @layer",
                  "rule declares layer '" ++ callerLayer.asStr ++ "' but calls unlayered rule '" ++
                    callName ++ "'; a layered rule may only call other layered rules"⟩]
            | some target =>
                if callerLayer.canCall target then []
                else
                  [⟨"rule '" ++ r.name ++ "' / @layer",
                    "rule at layer '" ++ callerLayer.asStr ++ "' calls '" ++ callName ++
                      "' at layer '" ++ target.asStr ++ "'; '" ++ callerLayer.asStr ++
                      "' rules may not call '" ++ target.asStr ++ "' rules"⟩]
    | _ => []

/-- The layer errors of a program. Source: `verifier.rs`, `verify_rule` -/
def layerErrors (p : Program) : List VerifyError :=
  p.rules.flatMap fun r =>
    match r.layer with
    | some callerLayer => checkLayerDiscipline r callerLayer (collectLogicFacts r.logic) p.rules
    | none => []

/-- Without a report, a rule that a layered rule names has a layer that may be called. -/
lemma layer_of_layerErrors {p : Program} (h : layerErrors p = []) {r : Rule} (hr : r ∈ p.rules)
    {l : Layer} (hl : r.layer = some l) {name : String}
    (hcall : [name] ∈ (collectLogicFacts r.logic).calls) {callee : Rule}
    (hfind : p.rules.find? (·.name = name) = some callee) :
    ∃ l', callee.layer = some l' ∧ l.canCall l' := by
  unfold layerErrors at h
  have hrule := List.flatMap_eq_nil_iff.mp h r hr
  rw [hl] at hrule
  have hname := List.flatMap_eq_nil_iff.mp hrule [name] hcall
  simp only [hfind] at hname
  cases hlayer : callee.layer with
  | none =>
      rw [hlayer] at hname
      cases hname
  | some l' =>
      rw [hlayer] at hname
      refine ⟨l', rfl, ?_⟩
      by_contra hnot
      simp only [hnot] at hname
      cases hname

end Verifier

/-! ## Runs -/

namespace Interpreter

/-- The evaluation of a rule on an input evaluates another rule on an input: itself, or what a call
that it consults evaluates. The fuel is that of the evaluation. -/
inductive Evaluates (ctx : Context) : Nat → Rule → Value → Rule → Value → Prop
  | start {fuel : Nat} {r : Rule} {v : Value} : Evaluates ctx fuel r v r v
  | call {fuel : Nat} {r q q' : Rule} {v w w' : Value}
      (h : Consults (evalRule ctx fuel) (applyRule ctx r v) q w) (h' : Evaluates ctx fuel q w q' w') :
      Evaluates ctx (fuel + 1) r v q' w'

variable {p : Program} {world : World} (hspelled : ∀ r ∈ p.rules, r.Spelled)
  (hlayers : Verifier.layerErrors p = [])

include hspelled hlayers

/-- A call of a rule with a layer is of a rule with a layer that may be called. -/
lemma layer_of_consults {r q : Rule} (hr : r ∈ p.rules) {l : Layer} (hl : r.layer = some l)
    {call : Calls} {v w : Value} (h : Consults call (applyRule (.ofProgram p world) r v) q w) :
    q ∈ p.rules ∧ ∃ l', q.layer = some l' ∧ l.canCall l' := by
  obtain ⟨hdeps, hfind⟩ := applyRule_consults h
  refine ⟨List.mem_of_find?_eq_some hfind, ?_⟩
  exact Verifier.layer_of_layerErrors hlayers hr hl
    (Verifier.calls_collectLogicFacts (hspelled r hr) hdeps) hfind

/-- A rule that a run evaluates has a layer that the first one may call. -/
lemma layer_of_evaluates {fuel : Nat} {r q : Rule} {v w : Value}
    (hrun : Evaluates (.ofProgram p world) fuel r v q w) : r ∈ p.rules → ∀ {l : Layer},
      r.layer = some l → q ∈ p.rules ∧ ∃ l', q.layer = some l' ∧ l.canCall l' := by
  induction hrun with
  | start => exact fun hr l hl => ⟨hr, l, hl, l.canCall_self⟩
  | call h _ ih =>
      intro hr l hl
      obtain ⟨hq, l', hl', hcall⟩ := layer_of_consults hspelled hlayers hr hl h
      obtain ⟨hq', l'', hl'', hcall'⟩ := ih hq hl'
      exact ⟨hq', l'', hl'', Layer.canCall_trans hcall hcall'⟩

/-- **Sealed layers.** Every rule that a run from a layered rule evaluates has a layer, along every
call the caller's layer may call the callee's, a run from the domain evaluates domain rules only,
and a run from the application no interface rule. -/
theorem layers_sealed {r : Rule} (hr : r ∈ p.rules) {l : Layer} (hl : r.layer = some l)
    {fuel : Nat} {v : Value} {q : Rule} {w : Value}
    (hrun : Evaluates (.ofProgram p world) fuel r v q w) :
    (∃ l', q.layer = some l' ∧
      ∀ (call : Calls) (q' : Rule) (w' : Value),
        Consults call (applyRule (.ofProgram p world) q w) q' w' →
          ∃ l'', q'.layer = some l'' ∧ l'.canCall l'') ∧
    (l = .domain → q.layer = some .domain) ∧
    (l = .application → q.layer ≠ some .interface) := by
  obtain ⟨hq, l', hl', hcall⟩ := layer_of_evaluates hspelled hlayers hrun hr hl
  refine ⟨⟨l', hl', fun call q' w' h => ?_⟩, ?_, ?_⟩
  · exact (layer_of_consults hspelled hlayers hq hl' h).2
  · rintro rfl
    rw [hl']
    simpa [Layer.canCall] using hcall
  · rintro rfl
    rw [hl']
    rintro hinterface
    cases hinterface
    simp [Layer.canCall] at hcall

end Interpreter

/-! ## An example -/

namespace Layers

/-- A domain rule. -/
def priceRule : Rule where
  name := "price"
  inputName := "n"
  inputTy := .number
  outputName := "out"
  outputTy := .number
  logic := ⟨[], .binary .mul (.ident "n") (.number 3)⟩
  layer := some .domain

/-- An application rule that calls it in a `let`. -/
def quoteRule : Rule where
  name := "quote"
  inputName := "n"
  inputTy := .number
  outputName := "out"
  outputTy := .number
  logic := ⟨[("base", .call "price" [.ident "n"])], .binary .add (.ident "base") (.number 1)⟩
  layer := some .application

/-- The program of the two. -/
def quoteProgram : Program := ⟨[.rule priceRule, .rule quoteRule]⟩

end Layers

namespace Interpreter

open Layers

lemma applyRule_quote (c : Calls) :
    applyRule (.ofProgram quoteProgram {}) quoteRule (.number 4) c =
      c priceRule (.number 4) >>= fun v => applyBinary .add v (.number 1) := by
  have hguard : guarded (.ofProgram quoteProgram {}) quoteRule = false := by decide +kernel
  have hfind : (Context.ofProgram quoteProgram {}).findRule "price" = some priceRule := rfl
  have hinput : checkInput (.ofProgram quoteProgram {}) quoteRule (.number 4) = .ok () := by
    unfold checkInput
    rw [hguard]
    rfl
  unfold applyRule
  rw [hinput]
  cases h : c priceRule (.number 4) with
  | error f => simp [evalBody, quoteRule, evalBindings, evalExpr, hfind, bind, Except.bind, h]
  | ok v =>
      simp [evalBody, quoteRule, evalBindings, evalExpr, hfind, bind, Except.bind, h, checkOutput]
      cases applyBinary .add v (.number 1) <;> rfl

open Classical in
theorem layers_sealed_quote :
    Evaluates (.ofProgram quoteProgram {}) 2 quoteRule (.number 4) priceRule (.number 4) ∧
      priceRule.layer ≠ some .interface := by
  have hconsults : Consults (evalRule (.ofProgram quoteProgram {}) 1)
      (applyRule (.ofProgram quoteProgram {}) quoteRule (.number 4)) priceRule (.number 4) := by
    refine ⟨fun q w => if q = priceRule ∧ w = .number 4 then fail .divisionByZero
      else evalRule (.ofProgram quoteProgram {}) 1 q w, fun q w h => if_neg h, ?_⟩
    have hprice : evalRule (.ofProgram quoteProgram {}) 1 priceRule (.number 4) =
        .ok (.number 12) := rfl
    rw [applyRule_quote, applyRule_quote, if_pos ⟨rfl, rfl⟩, hprice]
    exact fun h => by cases h
  have hrun : Evaluates (.ofProgram quoteProgram {}) 2 quoteRule (.number 4) priceRule (.number 4) :=
    .call hconsults .start
  have hspelled : ∀ r ∈ quoteProgram.rules, r.Spelled := by
    have hrules : quoteProgram.rules = [priceRule, quoteRule] := rfl
    intro r hr
    rw [hrules, List.mem_cons, List.mem_singleton] at hr
    rcases hr with rfl | rfl
    · exact ⟨by simp [priceRule], rfl⟩
    · exact ⟨by simp [quoteRule]; rfl, rfl⟩
  exact ⟨hrun, (layers_sealed hspelled (by decide +kernel) (by simp [quoteProgram, Program.rules])
    rfl hrun).2.2 rfl⟩

end Interpreter

end Verbosec
