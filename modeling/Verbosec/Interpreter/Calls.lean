import Verbosec.Interpreter.Fuel

/-!
# The calls of an evaluation

* `Ends` - an outcome other than running out of fuel; the operators all end.
* `Supported P call f` - an evaluation `f`, open in the outcomes of rule calls, consults finitely many
  calls, each of which satisfies `P`, and ends when these do.
* `Consults call f r v` - the outcome of `f` depends on that of the call of `r` on `v`. A failure of a
  call that is made is the failure of the whole evaluation, so a call that is made is consulted.
* `Value.Inside` - a value is a payload of a variant, at any depth.
* `Scope`, `Expr.allSites site` - every call site satisfies `site`, given the names that stand for the
  input, or for a payload of it, there.
* `evalExpr_supported` - the calls that an expression consults are at such sites.
* `applyRule`, `evalRule_of_supported` - the body of a rule ends when the calls that it consults do.
-/

namespace Verbosec.Interpreter

open Verbosec.Lib

/-! ## Ending -/

/-- An outcome other than running out of fuel. -/
def Ends {α : Type} (x : Outcome α) : Prop := x ≠ .error .outOfFuel

section ends

variable {α β : Type}

@[simp] lemma ends_ok (a : α) : Ends (.ok a : Outcome α) := by simp [Ends]

@[simp] lemma ends_fail (e : RuntimeError) : Ends (fail e : Outcome α) := by simp [Ends, fail]

@[simp] lemma ends_capacity : Ends (.error .capacity : Outcome α) := by simp [Ends]

@[simp] lemma ends_arith (op : String) (n : Option Int64) : Ends (arith op n) := by
  cases n <;> simp [Ends, arith]

@[simp] lemma ends_byteLen (n : Nat) : Ends (byteLen n) := by
  unfold byteLen
  split <;> simp

lemma Ends.bind {x : Outcome α} {f : α → Outcome β} (hx : Ends x) (hf : ∀ a, Ends (f a)) :
    Ends (x >>= f) := by
  cases x with
  | error e => exact fun h => hx (by cases h; rfl)
  | ok a => exact hf a

lemma Ends.map {x : Outcome α} (f : α → β) (hx : Ends x) : Ends (x.map f) := by
  cases x with
  | error e => exact fun h => hx (by cases h; rfl)
  | ok a => exact ends_ok _

lemma ends_arithNumbers {op : BinOp} {a b : Int64} {x : Outcome Value}
    (h : arithNumbers op a b = some x) : Ends x := by
  cases op <;> simp only [arithNumbers, Option.some.injEq, reduceCtorEq] at h <;> subst h <;>
    first
    | exact ends_arith _ _
    | (split
       · exact ends_fail _
       · exact ends_arith _ _)

@[simp] lemma ends_applyBinary (op : BinOp) (l r : Value) : Ends (applyBinary op l r) := by
  unfold applyBinary
  split
  · split
    · exact ends_ok _
    · cases h : arithNumbers op _ _ with
      | none => exact ends_fail _
      | some x => exact ends_arithNumbers h
  all_goals
    first
    | exact ends_fail _
    | (split <;> simp)

@[simp] lemma ends_expectList (need : String) (v : Value) : Ends (expectList need v) := by
  cases v <;> simp [expectList]

@[simp] lemma ends_concatBytes (vs : List Value) : Ends (concatBytes vs) := by
  induction vs with
  | nil => exact ends_ok _
  | cons v vs ih =>
      cases v
      case bytes b => exact ih.bind fun rest => ends_ok _
      all_goals exact ends_fail _

@[simp] lemma ends_concatText (vs : List Value) : Ends (concatText vs) := by
  induction vs with
  | nil => exact ends_ok _
  | cons v vs ih =>
      have hpiece : Ends (concatPiece v) := by cases v <;> simp [concatPiece]
      exact hpiece.bind fun piece => ih.bind fun rest => ends_ok _

@[simp] lemma ends_concatValues (vs : List Value) : Ends (concatValues vs) := by
  unfold concatValues
  split
  · exact (ends_concatBytes vs).map _
  · exact (ends_concatText vs).map _

@[simp] lemma ends_textTest (name : String) (test : List UInt8 → List UInt8 → Bool) (h n : Value) :
    Ends (textTest name test h n) := by
  unfold textTest
  split <;> simp

@[simp] lemma ends_numbersOp (name : String) (f : Int64 → Int64 → Int64) (l r : Value) :
    Ends (numbersOp name f l r) := by
  unfold numbersOp
  split <;> simp

@[simp] lemma ends_bitsOp (name : String) (f : Int64 → Int64 → Int64) (l r : Value) :
    Ends (bitsOp name f l r) := by
  unfold bitsOp
  split <;> simp

@[simp] lemma ends_applyNot (v : Value) : Ends (applyNot v) := by cases v <;> simp [applyNot]

@[simp] lemma ends_applyNeg (v : Value) : Ends (applyNeg v) := by cases v <;> simp [applyNeg]

@[simp] lemma ends_applyAbs (v : Value) : Ends (applyAbs v) := by cases v <;> simp [applyAbs]

@[simp] lemma ends_applyLe (name : String) (width : Nat) (v : Value) :
    Ends (applyLe name width v) := by cases v <;> simp [applyLe]

@[simp] lemma ends_applyAbortIf (v : Value) : Ends (applyAbortIf v) := by
  unfold applyAbortIf
  split
  · split <;> simp
  · simp

@[simp] lemma ends_applyJsonEscape (v : Value) : Ends (applyJsonEscape v) := by
  cases v <;> simp [applyJsonEscape]

@[simp] lemma ends_applyParseInt (v : Value) : Ends (applyParseInt v) := by
  unfold applyParseInt
  split
  · split <;> simp
  · simp

@[simp] lemma ends_applyLength (v : Value) : Ends (applyLength v) := by
  cases v
  case text s => exact (ends_byteLen _).map _
  case bytes b => exact (ends_byteLen _).map _
  all_goals exact ends_fail _

@[simp] lemma ends_applySubstring (t s e : Value) : Ends (applySubstring t s e) := by
  unfold applySubstring
  split
  · refine (ends_byteLen _).bind fun len => ?_
    split <;> simp
  · simp

lemma ends_byteIn (table : List UInt8) (index : Int64) : Ends (byteIn table index) := by
  refine (ends_byteLen _).bind fun len => ?_
  split <;> simp

@[simp] lemma ends_applyByteAt (t i : Value) : Ends (applyByteAt t i) := by
  unfold applyByteAt
  split
  · exact ends_byteIn _ _
  · exact ends_byteIn _ _
  · simp

@[simp] lemma ends_tryByteIn (table : List UInt8) (i : Value) : Ends (tryByteIn table i) := by
  unfold tryByteIn
  split
  · split
    · split <;> simp
    · simp
  · simp

@[simp] lemma ends_drawEntropy (ctx : Context) (name : String) : Ends (drawEntropy ctx name) := by
  unfold drawEntropy
  split
  · simp
  · split <;> simp

lemma ends_bindPayload (concept variant : String) (fields : List (String × Value))
    (binders : List (Option String)) :
    ∀ (decl : List Field) (env : Env), Ends (bindPayload concept variant fields binders decl env) := by
  induction binders with
  | nil => exact fun decl env => by simp [bindPayload]
  | cons b binders ih =>
      intro decl env
      cases decl with
      | nil => cases b <;> simp [bindPayload]
      | cons f decl =>
          cases b with
          | none => exact ih decl env
          | some name =>
              unfold bindPayload
              split
              · exact ih _ _
              · simp

@[simp] lemma ends_bindArm (ctx : Context) (concept variant : String)
    (fields : List (String × Value)) (binders : List (Option String)) (env : Env) :
    Ends (bindArm ctx concept variant fields binders env) := by
  unfold bindArm
  split
  · simp
  · split
    · simp
    · split
      · simp
      · exact ends_bindPayload _ _ _ _ _ _

@[simp] lemma ends_checkInput (ctx : Context) (r : Rule) (v : Value) : Ends (checkInput ctx r v) := by
  unfold checkInput
  split
  · dsimp only
    split
    · simp
    · split
      · split <;> simp
      · simp
  · simp

@[simp] lemma ends_checkOutput (r : Rule) (v : Value) : Ends (checkOutput r v) := by
  unfold checkOutput
  split
  · simp
  · split
    · split <;> simp
    · simp

end ends

/-! ## Supported evaluations -/

/-- The outcomes of rule calls. -/
abbrev Calls := Rule → Value → Outcome Value

/-- An evaluation consults finitely many calls, each of which satisfies `P`, and ends when these
do. -/
def Supported {α : Type} (P : Rule → Value → Prop) (call : Calls) (f : Calls → Outcome α) : Prop :=
  ∃ made : List (Rule × Value), (∀ p ∈ made, P p.1 p.2) ∧
    (∀ call' : Calls, (∀ p ∈ made, call' p.1 p.2 = call p.1 p.2) → f call' = f call) ∧
    ((∀ p ∈ made, Ends (call p.1 p.2)) → Ends (f call))

/-- The outcome of an evaluation depends on that of one call. -/
def Consults {α : Type} (call : Calls) (f : Calls → Outcome α) (r : Rule) (v : Value) : Prop :=
  ∃ call' : Calls, (∀ q w, ¬ (q = r ∧ w = v) → call' q w = call q w) ∧ f call' ≠ f call

section Supported

variable {α β : Type} {P : Rule → Value → Prop} {call : Calls}

lemma Supported.const {x : Outcome α} (hx : Ends x) : Supported P call fun _ => x :=
  ⟨[], by simp, fun _ _ => rfl, fun _ => hx⟩

lemma Supported.made {r : Rule} {v : Value} (h : P r v) : Supported P call fun c => c r v :=
  ⟨[(r, v)], by simpa using h, fun call' hcall' => hcall' (r, v) (by simp),
    fun hends => hends (r, v) (by simp)⟩

lemma Supported.bind {f : Calls → Outcome α} {g : α → Calls → Outcome β} (hf : Supported P call f)
    (hg : ∀ a, f call = .ok a → Supported P call (g a)) :
    Supported P call fun c => f c >>= fun a => g a c := by
  obtain ⟨made, hmade, hsame, hends⟩ := hf
  cases hfc : f call with
  | error e =>
      refine ⟨made, hmade, fun call' h => ?_, fun h => ?_⟩
      · dsimp only
        rw [hsame call' h]
        rw [hfc]
        rfl
      · have hfail := hends h
        rw [hfc] at hfail
        dsimp only
        rw [hfc]
        exact fun h => hfail (by cases h; rfl)
  | ok a =>
      obtain ⟨made', hmade', hsame', hends'⟩ := hg a hfc
      refine ⟨made ++ made', ?_, fun call' h => ?_, fun h => ?_⟩
      · intro p hp
        rcases List.mem_append.mp hp with hp | hp
        · exact hmade p hp
        · exact hmade' p hp
      · dsimp only
        rw [hsame call' fun p hp => h p (List.mem_append_left _ hp), hfc]
        exact hsame' call' fun p hp => h p (List.mem_append_right _ hp)
      · dsimp only
        rw [hfc]
        exact hends' fun p hp => h p (List.mem_append_right _ hp)

/-- An evaluation consults only calls that satisfy `P`. -/
theorem Supported.consults {f : Calls → Outcome α} (hf : Supported P call f) {r : Rule} {v : Value}
    (h : Consults call f r v) : P r v := by
  obtain ⟨made, hmade, hsame, -⟩ := hf
  obtain ⟨call', hothers, hne⟩ := h
  by_contra hP
  refine hne (hsame call' fun p hp => hothers _ _ ?_)
  rintro ⟨rfl, rfl⟩
  exact hP (hmade p hp)

end Supported

/-! ## Payloads -/

/-- A value is a payload of a variant, at any depth. -/
inductive Value.Inside : Value → Value → Prop
  | payload {concept variant : String} {fields : List (String × Value)} {name : String} {w : Value}
      (h : (name, w) ∈ fields) : Inside w (.variant concept variant fields)
  | trans {u w v : Value} (h : Inside u w) (h' : Inside w v) : Inside u v

/-- A payload is smaller. -/
lemma Value.Inside.sizeOf_lt {w v : Value} (h : Value.Inside w v) : sizeOf w < sizeOf v := by
  induction h with
  | @payload concept variant fields name w h =>
      have := List.sizeOf_lt_of_mem h
      simp only [Prod.mk.sizeOf_spec] at this
      simp only [Value.variant.sizeOf_spec]
      omega
  | trans _ _ ih ih' => exact Nat.lt_trans ih ih'

/-! ## Call sites -/

/-- What is known of the names in scope. -/
structure Scope where
  /-- the names that stand for the input or for a payload of it -/
  within : List String
  /-- the names that stand for a payload of the input -/
  strict : List String
  deriving DecidableEq, Repr

namespace Scope

/-- The scope of a rule. -/
def ofRule (r : Rule) : Scope := ⟨[r.inputName], []⟩

/-- Names that are bound anew. -/
def enter (s : Scope) (names : List String) : Scope :=
  ⟨s.within.filter (· ∉ names), s.strict.filter (· ∉ names)⟩

/-- The binders of an arm: payloads, where the scrutinee is the input or a payload of it. -/
def descend (s : Scope) (scrutinee : Expr) (binders : List (Option String)) : Scope :=
  let names := binders.filterMap id
  let inner := s.enter names
  match scrutinee with
  | .ident name =>
      if name ∈ s.within then ⟨names ++ inner.within, names ++ inner.strict⟩ else inner
  | _ => inner

/-- The names have the values that the scope says. -/
structure Describes (s : Scope) (input : Value) (env : Env) : Prop where
  within : ∀ n ∈ s.within, ∀ v, env.lookup n = some v → v = input ∨ v.Inside input
  strict : ∀ n ∈ s.strict, ∀ v, env.lookup n = some v → v.Inside input

variable {s : Scope} {input : Value} {env env' : Env}

lemma Describes.ofRule (r : Rule) (input : Value) :
    (ofRule r).Describes input [(r.inputName, input)] := by
  refine ⟨fun n hn v hv => ?_, fun n hn => absurd hn List.not_mem_nil⟩
  obtain rfl := List.mem_singleton.mp hn
  simp only [List.lookup_cons_self, Option.some.injEq] at hv
  exact .inl hv.symm

/-- Names bound anew, with the others unchanged. -/
lemma Describes.enter (h : s.Describes input env) {names : List String}
    (hsame : ∀ n ∉ names, env'.lookup n = env.lookup n) : (s.enter names).Describes input env' := by
  constructor
  · intro n hn v hv
    obtain ⟨hn, hnot⟩ := List.mem_filter.mp hn
    rw [hsame n (of_decide_eq_true hnot)] at hv
    exact h.within n hn v hv
  · intro n hn v hv
    obtain ⟨hn, hnot⟩ := List.mem_filter.mp hn
    rw [hsame n (of_decide_eq_true hnot)] at hv
    exact h.strict n hn v hv

lemma Describes.insert (h : s.Describes input env) (name : String) (v : Value) :
    (s.enter [name]).Describes input (Dict.insert env name v) :=
  h.enter fun n hn => by
    rw [Dict.lookup_insert, if_neg (fun heq => hn (by simp [heq]))]

end Scope

/-- The binders of an arm are bound to payloads, and nothing else changes. -/
lemma bindPayload_ok {concept variant : String} {fields : List (String × Value)}
    (binders : List (Option String)) : ∀ {decl : List Field} {env env' : Env},
      bindPayload concept variant fields binders decl env = .ok env' →
      binders.length = decl.length →
        (∀ n ∉ binders.filterMap id, env'.lookup n = env.lookup n) ∧
          ∀ n ∈ binders.filterMap id, ∀ v, env'.lookup n = some v → ∃ name, (name, v) ∈ fields := by
  induction binders with
  | nil =>
      intro decl env env' h hlength
      rw [bindPayload] at h
      · cases h
        exact ⟨fun _ _ => rfl, fun _ hn => absurd hn List.not_mem_nil⟩
      all_goals simp
  | cons b binders ih =>
      intro decl env env' h hlength
      cases decl with
      | nil => simp at hlength
      | cons f decl =>
          have hlength' : binders.length = decl.length := by simpa using hlength
          cases b with
          | none => exact ih h hlength'
          | some name =>
              unfold bindPayload at h
              split at h
              · rename_i v hv
                obtain ⟨hsame, hfrom⟩ := ih h hlength'
                refine ⟨fun n hn => ?_, fun n hn w hw => ?_⟩
                · simp only [List.filterMap_cons, id, List.mem_cons, not_or] at hn
                  rw [hsame n hn.2, Dict.lookup_insert, if_neg hn.1]
                · by_cases hrest : n ∈ binders.filterMap id
                  · exact hfrom n hrest w hw
                  · simp only [List.filterMap_cons, id, List.mem_cons] at hn
                    rw [hsame n hrest, Dict.lookup_insert, if_pos (hn.resolve_right hrest)] at hw
                    cases hw
                    exact ⟨_, Dict.mem_of_lookup hv⟩
              · cases h

lemma bindArm_ok {ctx : Context} {concept variant : String} {fields : List (String × Value)}
    {binders : List (Option String)} {env env' : Env}
    (h : bindArm ctx concept variant fields binders env = .ok env') :
    (∀ n ∉ binders.filterMap id, env'.lookup n = env.lookup n) ∧
      ∀ n ∈ binders.filterMap id, ∀ v, env'.lookup n = some v → ∃ name, (name, v) ∈ fields := by
  unfold bindArm at h
  split at h
  · cases h
  · split at h
    · cases h
    · split at h
      · cases h
      · rename_i hlength
        exact bindPayload_ok binders h (not_not.mp hlength)

/-- The scope of an arm describes its environment. -/
lemma Scope.Describes.descend {s : Scope} {input : Value} {env env' : Env}
    (h : s.Describes input env) {ctx : Context} {call : Calls} {scrutinee : Expr}
    {concept variant : String} {fields : List (String × Value)} {binders : List (Option String)}
    (hv : evalExpr ctx call env scrutinee = .ok (.variant concept variant fields))
    (hbind : bindArm ctx concept variant fields binders env = .ok env') :
    (s.descend scrutinee binders).Describes input env' := by
  obtain ⟨hsame, hfrom⟩ := bindArm_ok hbind
  have henter := h.enter hsame
  unfold Scope.descend
  split
  · rename_i name
    split
    · rename_i hname
      have hwhole : .variant concept variant fields = input ∨
          Value.Inside (.variant concept variant fields) input := by
        unfold evalExpr at hv
        split at hv
        · rename_i v hlookup
          cases hv
          exact h.within name hname _ hlookup
        · cases hv
      have hinside : ∀ n ∈ binders.filterMap id, ∀ v, env'.lookup n = some v → v.Inside input := by
        intro n hn v hlookup
        obtain ⟨field, hfield⟩ := hfrom n hn v hlookup
        have hpayload : v.Inside (.variant concept variant fields) := .payload hfield
        rcases hwhole with rfl | hwhole
        · exact hpayload
        · exact hpayload.trans hwhole
      constructor
      · intro n hn v hlookup
        rcases List.mem_append.mp hn with hn | hn
        · exact .inr (hinside n hn v hlookup)
        · exact henter.within n hn v hlookup
      · intro n hn v hlookup
        rcases List.mem_append.mp hn with hn | hn
        · exact hinside n hn v hlookup
        · exact henter.strict n hn v hlookup
    · exact henter
  · exact henter

end Verbosec.Interpreter

namespace Verbosec.Expr

open Verbosec.Interpreter

/-! ## Checked call sites -/

mutual

/-- Every call of an expression satisfies `site`, with the scope in which it stands. -/
def allSites (site : Scope → String → List Expr → Bool) (s : Scope) : Expr → Bool
  | number _ | text _ | bytes _ | ident _ | read _ | random _ | nowUnix | fetch _ _ => true
  | field a _ | not a | neg a | ok a | err a | jsonEscape a | parseInt a | length a | abs a
  | le32 a | le64 a | arenaScope a | abortIf a | bitNot a => allSites site s a
  | binary _ a b | startsWith a b | endsWith a b | contains a b | min a b | max a b
  | bitAnd a b | bitOr a b | bitXor a b | shl a b | shr a b | byteAt a b | tryByteAt a b =>
      allSites site s a && allSites site s b
  | ite a b c | substring a b c => allSites site s a && allSites site s b && allSites site s c
  | quantifier _ a x b | map a x b | filter a x b =>
      allSites site s a && allSites site (s.enter [x]) b
  | fold a b x y c =>
      allSites site s a && allSites site s b && allSites site ((s.enter [x]).enter [y]) c
  | foldBytes a b x y z c =>
      allSites site s a && allSites site s b &&
        allSites site (((s.enter [x]).enter [y]).enter [z]) c
  | matchResult a x b y c =>
      allSites site s a && allSites site (s.enter [x]) b && allSites site (s.enter [y]) c
  | call name args => site s name args && (args.length ≠ 1 || allSitesList site s args)
  | concat args => allSitesList site s args
  | record _ fields | variantConstruct _ _ fields => allSitesFields site s fields
  | matchVariant a arms => allSites site s a && allSitesArms site s a arms

/-- `allSites` over the arguments of a call or a `concat`. -/
def allSitesList (site : Scope → String → List Expr → Bool) (s : Scope) : List Expr → Bool
  | [] => true
  | e :: es => allSites site s e && allSitesList site s es

/-- `allSites` over the assignments of a constructor. -/
def allSitesFields (site : Scope → String → List Expr → Bool) (s : Scope) :
    List (String × Expr) → Bool
  | [] => true
  | (_, e) :: fields => allSites site s e && allSitesFields site s fields

/-- `allSites` over the arms of a `match`. -/
def allSitesArms (site : Scope → String → List Expr → Bool) (s : Scope) (scrutinee : Expr) :
    List MatchArm → Bool
  | [] => true
  | .mk _ binders body :: arms =>
      allSites site (s.descend scrutinee binders) body && allSitesArms site s scrutinee arms

end

end Verbosec.Expr

namespace Verbosec.Interpreter

open Verbosec.Lib

section sites

variable {ctx : Context} {call : Calls} {P : Rule → Value → Prop} {input : Value}
  {site : Scope → String → List Expr → Bool}

/-- An expression with checked sites consults calls in `P` only. -/
def ExprSupported (ctx : Context) (call : Calls) (P : Rule → Value → Prop) (input : Value)
    (site : Scope → String → List Expr → Bool) (e : Expr) : Prop :=
  ∀ (s : Scope) (env : Env), e.allSites site s → s.Describes input env →
    Supported P call fun c => evalExpr ctx c env e

lemma evalArgs_supported {es : List Expr} (h : ∀ e ∈ es, ExprSupported ctx call P input site e)
    {s : Scope} {env : Env} (hs : Expr.allSitesList site s es) (henv : s.Describes input env) :
    Supported P call fun c => evalArgs ctx c env es := by
  induction es with
  | nil => exact .const (ends_ok _)
  | cons e es ih =>
      simp only [Expr.allSitesList, Bool.and_eq_true] at hs
      unfold evalArgs
      exact (h e (by simp) s env hs.1 henv).bind fun v _ =>
        (ih (fun e' he' => h e' (by simp [he'])) hs.2).bind fun vs _ => .const (ends_ok _)

lemma evalFields_supported {fs : List (String × Expr)}
    (h : ∀ e ∈ fs.map (·.2), ExprSupported ctx call P input site e) {s : Scope} {env : Env}
    (hs : Expr.allSitesFields site s fs) (henv : s.Describes input env) :
    Supported P call fun c => evalFields ctx c env fs := by
  induction fs with
  | nil => exact .const (ends_ok _)
  | cons p fs ih =>
      obtain ⟨name, e⟩ := p
      simp only [Expr.allSitesFields, Bool.and_eq_true] at hs
      unfold evalFields
      exact (h e (by simp) s env hs.1 henv).bind fun v _ =>
        (ih (fun e' he' => h e' (List.mem_cons_of_mem _ he')) hs.2).bind
          fun vs _ => .const (ends_ok _)

lemma evalArms_supported {arms : List MatchArm} {scrutinee : Expr}
    (h : ∀ e ∈ arms.map (·.body), ExprSupported ctx call P input site e) {s : Scope} {env : Env}
    (hs : Expr.allSitesArms site s scrutinee arms) (henv : s.Describes input env)
    {concept variant : String} {fields : List (String × Value)}
    (hv : evalExpr ctx call env scrutinee = .ok (.variant concept variant fields)) :
    Supported P call fun c => evalArms ctx c env concept variant fields arms := by
  induction arms with
  | nil => exact .const (ends_fail _)
  | cons a arms ih =>
      obtain ⟨name, binders, body⟩ := a
      simp only [Expr.allSitesArms, Bool.and_eq_true] at hs
      unfold evalArms
      by_cases hname : name = variant
      · simp only [hname, if_true]
        exact (Supported.const (ends_bindArm _ _ _ _ _ _)).bind fun armEnv harm =>
          h body (by simp [MatchArm.body]) _ armEnv hs.1 (henv.descend hv harm)
      · simp only [hname, if_false]
        exact ih (fun e' he' => h e' (List.mem_cons_of_mem _ he')) hs.2

lemma quantify_supported (stop : Bool) {p : Value → Calls → Outcome Value}
    (h : ∀ v, Supported P call (p v)) (items : List Value) :
    Supported P call fun c => quantify stop (p · c) items := by
  induction items with
  | nil => exact .const (ends_ok _)
  | cons item items ih =>
      unfold quantify
      refine (h item).bind fun v _ => ?_
      cases v with
      | bool b =>
          by_cases hb : b = stop
          · simp only [hb, if_true]
            exact .const (ends_ok _)
          · simp only [hb, if_false]
            exact ih
      | _ => exact .const (ends_fail _)

lemma filterItems_supported {p : Value → Calls → Outcome Value} (h : ∀ v, Supported P call (p v))
    (items : List Value) : Supported P call fun c => filterItems (p · c) items := by
  induction items with
  | nil => exact .const (ends_ok _)
  | cons item items ih =>
      unfold filterItems
      refine (h item).bind fun v _ => ?_
      cases v with
      | bool b => exact ih.bind fun rest _ => .const (ends_ok _)
      | _ => exact .const (ends_fail _)

lemma foldByteItems_supported {p : Value → UInt8 → Nat → Calls → Outcome Value}
    (h : ∀ v b i, Supported P call (p v b i)) (bs : List UInt8) :
    ∀ acc i, Supported P call fun c => foldByteItems (p · · · c) acc bs i := by
  induction bs with
  | nil => exact fun acc i => .const (ends_ok _)
  | cons b bs ih =>
      intro acc i
      unfold foldByteItems
      refine (h acc b i).bind fun v _ => ?_
      cases v with
      | number n => exact ih _ _
      | _ => exact .const (ends_fail _)

lemma foldlM_supported {p : Value → Value → Calls → Outcome Value}
    (h : ∀ a v, Supported P call (p a v)) (items : List Value) :
    ∀ acc, Supported P call fun c => items.foldlM (p · · c) acc := by
  induction items with
  | nil => exact fun acc => .const (ends_ok _)
  | cons item items ih =>
      intro acc
      simp only [List.foldlM_cons]
      exact (h acc item).bind fun a _ => ih a

lemma mapM_supported {p : Value → Calls → Outcome Value} (h : ∀ v, Supported P call (p v))
    (items : List Value) : Supported P call fun c => items.mapM (p · c) := by
  induction items with
  | nil => exact .const (ends_ok _)
  | cons item items ih =>
      simp only [List.mapM_cons]
      exact (h item).bind fun a _ => ih.bind fun as _ => .const (ends_ok _)

/-- **The calls that an expression consults** are at its call sites. -/
theorem evalExpr_supported
    (hsite : ∀ (s : Scope) (env : Env) (name : String) (arg : Expr) (r : Rule) (v : Value),
      site s name [arg] → s.Describes input env → ctx.findRule name = some r →
        evalExpr ctx call env arg = .ok v → P r v) (e : Expr) :
    ExprSupported ctx call P input site e := by
  induction e using Expr.induction_children with
  | step e ih =>
      intro s env hs henv
      have ih₁ : ∀ {c}, c ∈ e.children → ∀ {s : Scope} {env : Env}, c.allSites site s →
          s.Describes input env → Supported P call fun call' => evalExpr ctx call' env c :=
        fun hc => ih _ hc _ _
      have hbind : ∀ (x : String) (v : Value), (s.enter [x]).Describes input (Dict.insert env x v) :=
        henv.insert
      cases e <;> simp only [Expr.allSites, Bool.and_eq_true] at hs <;> unfold evalExpr
      case binary op a b =>
        refine (ih₁ (by simp [Expr.children]) hs.1 henv).bind fun l _ => ?_
        by_cases hop : op = .and ∨ op = .or
        · simp only [hop, if_true]
          cases l with
          | bool value =>
              by_cases hshort : shortCircuits op value
              · simp only [hshort, if_true]
                exact .const (ends_ok _)
              · simp only [hshort]
                refine (ih₁ (by simp [Expr.children]) hs.2 henv).bind fun r _ => ?_
                cases r <;> exact .const (by simp)
          | _ => exact .const (ends_fail _)
        · simp only [hop, if_false]
          exact (ih₁ (by simp [Expr.children]) hs.2 henv).bind fun r _ => .const (by simp)
      case field base name =>
        refine (ih₁ (by simp [Expr.children]) hs henv).bind fun v _ => ?_
        cases v with
        | record fields =>
            refine .const ?_
            dsimp only
            split <;> simp
        | _ => exact .const (ends_fail _)
      case ite c a b =>
        refine (ih₁ (by simp [Expr.children]) hs.1.1 henv).bind fun v _ => ?_
        cases v with
        | bool v =>
            cases v with
            | true => exact ih₁ (by simp [Expr.children]) hs.1.2 henv
            | false => exact ih₁ (by simp [Expr.children]) hs.2 henv
        | _ => exact .const (ends_fail _)
      case quantifier kind c x p =>
        exact (ih₁ (by simp [Expr.children]) hs.1 henv).bind fun v _ =>
          (Supported.const (ends_expectList _ v)).bind fun items _ =>
            (quantify_supported _ (fun item => ih₁ (by simp [Expr.children]) hs.2 (hbind x item))
              items).bind fun b _ => .const (ends_ok _)
      case fold c i x y b =>
        exact (ih₁ (by simp [Expr.children]) hs.1.1 henv).bind fun v _ =>
          (Supported.const (ends_expectList _ v)).bind fun items _ =>
            (ih₁ (by simp [Expr.children]) hs.1.2 henv).bind fun init _ =>
              foldlM_supported (fun a item => ih₁ (by simp [Expr.children]) hs.2
                ((hbind x a).insert y item)) items init
      case foldBytes t i x y z b =>
        refine (ih₁ (by simp [Expr.children]) hs.1.1 henv).bind fun v _ => ?_
        cases v with
        | text text =>
            refine (ih₁ (by simp [Expr.children]) hs.1.2 henv).bind fun v _ => ?_
            cases v with
            | number n =>
                exact foldByteItems_supported (fun a byte k => ih₁ (by simp [Expr.children]) hs.2
                  (((hbind x a).insert y _).insert z _)) _ _ _
            | _ => exact .const (ends_fail _)
        | _ => exact .const (ends_fail _)
      case map c x b =>
        exact (ih₁ (by simp [Expr.children]) hs.1 henv).bind fun v _ =>
          (Supported.const (ends_expectList _ v)).bind fun items _ =>
            (mapM_supported (fun item => ih₁ (by simp [Expr.children]) hs.2 (hbind x item))
              items).bind fun out _ => .const (ends_ok _)
      case filter c x b =>
        exact (ih₁ (by simp [Expr.children]) hs.1 henv).bind fun v _ =>
          (Supported.const (ends_expectList _ v)).bind fun items _ =>
            (filterItems_supported (fun item => ih₁ (by simp [Expr.children]) hs.2 (hbind x item))
              items).bind fun out _ => .const (ends_ok _)
      case matchResult t x a y b =>
        refine (ih₁ (by simp [Expr.children]) hs.1.1 henv).bind fun v _ => ?_
        cases v with
        | ok w => exact ih₁ (by simp [Expr.children]) hs.1.2 (hbind x w)
        | err w => exact ih₁ (by simp [Expr.children]) hs.2 (hbind y w)
        | _ => exact .const (ends_fail _)
      case matchVariant scrutinee arms =>
        refine (ih₁ (by simp [Expr.children]) hs.1 henv).bind fun v hv => ?_
        cases v with
        | variant c v fs =>
            exact evalArms_supported (fun e he => ih e (List.mem_cons_of_mem _ he)) hs.2 henv hv
        | _ => exact .const (ends_fail _)
      case record n fs =>
        exact (evalFields_supported ih hs henv).bind fun vs _ => .const (ends_ok _)
      case variantConstruct n v fs =>
        exact (evalFields_supported ih hs henv).bind fun vs _ => .const (ends_ok _)
      case concat args =>
        exact (evalArgs_supported ih hs henv).bind fun vs _ => .const (ends_concatValues _)
      case call n args =>
        cases hrule : ctx.findRule n with
        | none => exact .const (ends_fail _)
        | some r =>
            dsimp only
            split
            · rename_i arg
              simp only [Expr.allSitesList, Bool.and_true, List.length_singleton, ne_eq,
                not_true_eq_false, decide_false, Bool.false_or] at hs
              refine (ih₁ (by simp [Expr.children]) hs.2 henv).bind fun v hv => ?_
              exact .made (hsite s env n arg r v hs.1 henv hrule hv)
            · exact .const (ends_fail _)
      case tryByteAt t i =>
        split
        · exact (ih₁ (by simp [Expr.children]) hs.2 henv).bind fun v _ => .const (by simp)
        · exact (ih₁ (by simp [Expr.children]) hs.2 henv).bind fun v _ => .const (by simp)
        · exact .const (ends_fail _)
      case substring t a b =>
        exact (ih₁ (by simp [Expr.children]) hs.1.1 henv).bind fun v _ =>
          (ih₁ (by simp [Expr.children]) hs.1.2 henv).bind fun v _ =>
            (ih₁ (by simp [Expr.children]) hs.2 henv).bind fun v _ => .const (by simp)
      case arenaScope a => exact ih₁ (by simp [Expr.children]) hs henv
      case bitNot a =>
        refine (ih₁ (by simp [Expr.children]) hs henv).bind fun v _ => ?_
        cases v <;> exact .const (by simp)
      case ident name => cases env.lookup name <;> exact .const (by simp)
      case number | text | bytes | read | random | nowUnix | fetch => exact .const (by simp)
      case not | neg | abs | le32 | le64 | abortIf | jsonEscape | parseInt | length | ok | err =>
        exact (ih₁ (by simp [Expr.children]) hs henv).bind fun v _ => .const (by simp)
      all_goals
        exact (ih₁ (by simp [Expr.children]) hs.1 henv).bind fun v _ =>
          (ih₁ (by simp [Expr.children]) hs.2 henv).bind fun v _ => .const (by simp)

end sites

/-! ## Rules -/

/-- Every call of the `let`s satisfies `site`. -/
def allSitesBindings (site : Scope → String → List Expr → Bool) (s : Scope) :
    List (String × Expr) → Bool
  | [] => true
  | (name, e) :: bindings => e.allSites site s && allSitesBindings site (s.enter [name]) bindings

/-- The scope of the value, after the `let`s. -/
def Scope.afterBindings (s : Scope) (bindings : List (String × Expr)) : Scope :=
  bindings.foldl (fun s b => s.enter [b.1]) s

/-- Every call of a rule satisfies `site`. -/
def allSitesRule (site : Scope → String → List Expr → Bool) (r : Rule) : Bool :=
  allSitesBindings site (.ofRule r) r.logic.bindings &&
    r.logic.value.allSites site ((Scope.ofRule r).afterBindings r.logic.bindings)

/-- A rule applied to an input, open in the outcomes of the rules that it calls. -/
def applyRule (ctx : Context) (r : Rule) (input : Value) (call : Calls) : Outcome Value := do
  checkInput ctx r input
  evalBody ctx call r input

lemma evalRule_succ (ctx : Context) (fuel : Nat) (r : Rule) (input : Value) :
    evalRule ctx (fuel + 1) r input = applyRule ctx r input (evalRule ctx fuel) := rfl

section rules

variable {ctx : Context} {call : Calls} {P : Rule → Value → Prop} {input : Value}
  {site : Scope → String → List Expr → Bool}
  (hsite : ∀ (s : Scope) (env : Env) (name : String) (arg : Expr) (r : Rule) (v : Value),
    site s name [arg] → s.Describes input env → ctx.findRule name = some r →
      evalExpr ctx call env arg = .ok v → P r v)

include hsite

lemma evalBindings_supported (bindings : List (String × Expr)) : ∀ (s : Scope) (env : Env),
    allSitesBindings site s bindings → s.Describes input env →
      Supported (fun r v => P r v) call (fun c => evalBindings ctx c env bindings) ∧
        ∀ env', evalBindings ctx call env bindings = .ok env' →
          (s.afterBindings bindings).Describes input env' := by
  induction bindings with
  | nil =>
      intro s env _ henv
      exact ⟨.const (ends_ok _), fun env' h => by cases h; exact henv⟩
  | cons b bindings ih =>
      intro s env hs henv
      obtain ⟨name, e⟩ := b
      simp only [allSitesBindings, Bool.and_eq_true] at hs
      constructor
      · unfold evalBindings
        exact (evalExpr_supported hsite e s env hs.1 henv).bind fun v _ =>
          (ih _ _ hs.2 (henv.insert name v)).1
      · intro env' h
        unfold evalBindings at h
        cases hv : evalExpr ctx call env e with
        | error f =>
            rw [hv] at h
            cases h
        | ok v =>
            rw [hv] at h
            exact (ih _ _ hs.2 (henv.insert name v)).2 env' h

/-- **The calls that a rule consults** are at its call sites. -/
theorem applyRule_supported {r : Rule} (hr : allSitesRule site r) :
    Supported P call (applyRule ctx r input) := by
  simp only [allSitesRule, Bool.and_eq_true] at hr
  have hbindings := evalBindings_supported hsite r.logic.bindings (.ofRule r) _ hr.1 (.ofRule r input)
  unfold applyRule
  refine (Supported.const (ends_checkInput ctx r input)).bind fun _ _ => ?_
  unfold evalBody
  refine hbindings.1.bind fun env henv => ?_
  exact (evalExpr_supported hsite _ _ env hr.2 (hbindings.2 env henv)).bind
    fun v _ => .const (ends_checkOutput r v)

end rules

/-- A site whatever the scope holds for every call when it holds for the names called. -/
lemma allSites_of_calls {names : String → Bool} (e : Expr) :
    ∀ s : Scope, (∀ n ∈ e.calls, names n) → e.allSites (fun _ n _ => names n) s := by
  induction e using Expr.induction_children with
  | step e ih =>
      intro s h
      have hcalls : ∀ c ∈ e.children, ∀ n ∈ c.calls, names n := fun c hc n hn => h n (by
        unfold Expr.calls
        rw [Expr.collect_eq]
        exact List.mem_append_right _ (List.mem_flatMap.mpr ⟨c, hc, hn⟩))
      have ih' : ∀ c ∈ e.children, ∀ s, c.allSites (fun _ n _ => names n) s :=
        fun c hc s => ih c hc s (hcalls c hc)
      have hlist : ∀ es : List Expr, (∀ c ∈ es, ∀ s, c.allSites (fun _ n _ => names n) s) →
          ∀ s, Expr.allSitesList (fun _ n _ => names n) s es := by
        intro es hes s
        induction es with
        | nil => rfl
        | cons e es ih =>
            simp only [Expr.allSitesList, Bool.and_eq_true]
            exact ⟨hes e (by simp) s, ih fun c hc => hes c (by simp [hc])⟩
      have hfields : ∀ fs : List (String × Expr),
          (∀ c ∈ fs.map (·.2), ∀ s, c.allSites (fun _ n _ => names n) s) →
            ∀ s, Expr.allSitesFields (fun _ n _ => names n) s fs := by
        intro fs hfs s
        induction fs with
        | nil => rfl
        | cons f fs ih =>
            obtain ⟨name, e⟩ := f
            simp only [Expr.allSitesFields, Bool.and_eq_true]
            exact ⟨hfs e (by simp) s, ih fun c hc => hfs c (List.mem_cons_of_mem _ hc)⟩
      have harms : ∀ (arms : List MatchArm) (scrutinee : Expr),
          (∀ c ∈ arms.map (·.body), ∀ s, c.allSites (fun _ n _ => names n) s) →
            ∀ s, Expr.allSitesArms (fun _ n _ => names n) s scrutinee arms := by
        intro arms scrutinee has s
        induction arms with
        | nil => rfl
        | cons a arms ih =>
            obtain ⟨name, binders, body⟩ := a
            simp only [Expr.allSitesArms, Bool.and_eq_true]
            exact ⟨has body (by simp [MatchArm.body]) _,
              ih fun c hc => has c (List.mem_cons_of_mem _ hc)⟩
      clear ih
      cases e <;> simp only [Expr.allSites, Bool.and_eq_true]
      case call n args =>
        rw [hlist args ih' s, Bool.or_true]
        exact ⟨h n (by unfold Expr.calls; rw [Expr.collect_eq]; simp), rfl⟩
      case concat args => exact hlist args ih' s
      case record n fs => exact hfields fs ih' s
      case variantConstruct n v fs => exact hfields fs ih' s
      case matchVariant a arms =>
        exact ⟨ih' a (by simp [Expr.children]) s,
          harms arms a (fun c hc => ih' c (List.mem_cons_of_mem _ hc)) s⟩
      all_goals simp [Expr.children] at ih' ⊢
      all_goals simp [ih']

/-- The calls that an expression consults are of the rules that it names. -/
lemma evalExpr_supported_calls (ctx : Context) (call : Calls) (env : Env) (e : Expr) :
    Supported (fun q _ => q.name ∈ e.calls ∧ ctx.findRule q.name = some q) call
      fun c => evalExpr ctx c env e := by
  have hsites : e.allSites (fun _ n _ => decide (n ∈ e.calls)) ⟨[], []⟩ :=
    allSites_of_calls e _ fun n hn => decide_eq_true hn
  have henv : Scope.Describes ⟨[], []⟩ (.bool true) env :=
    ⟨fun n hn => absurd hn List.not_mem_nil, fun n hn => absurd hn List.not_mem_nil⟩
  refine evalExpr_supported ?_ e _ env hsites henv
  intro s env name arg q w hname _ hfind _
  have hq : q.name = name := by
    unfold Context.findRule at hfind
    simpa using List.find?_some hfind
  rw [hq]
  exact ⟨of_decide_eq_true hname, hfind⟩

/-- Calls that agree on the rules that an expression names. -/
lemma evalExpr_congr_calls {ctx : Context} {call call' : Calls} {env : Env} {e : Expr}
    (h : ∀ q w, q.name ∈ e.calls → ctx.findRule q.name = some q → call' q w = call q w) :
    evalExpr ctx call' env e = evalExpr ctx call env e := by
  obtain ⟨made, hmade, hsame, -⟩ := evalExpr_supported_calls ctx call env e
  exact hsame call' fun p hp => h _ _ (hmade p hp).1 (hmade p hp).2

/-- The calls that a rule consults are of the rules that it names. -/
lemma applyRule_supported_deps (ctx : Context) (call : Calls) (r : Rule) (input : Value) :
    Supported (fun q _ => q.name ∈ r.deps ∧ ctx.findRule q.name = some q) call
      (applyRule ctx r input) := by
  have hbindings : ∀ (bindings : List (String × Expr)) (s : Scope),
      (∀ b ∈ bindings, ∀ n ∈ b.2.calls, n ∈ r.deps) →
        allSitesBindings (fun _ n _ => decide (n ∈ r.deps)) s bindings := by
    intro bindings
    induction bindings with
    | nil => exact fun s _ => rfl
    | cons b bindings ih =>
        intro s hall
        simp only [allSitesBindings, Bool.and_eq_true]
        exact ⟨allSites_of_calls _ _ fun n hn => decide_eq_true (hall b (by simp) n hn),
          ih _ fun b' hb' => hall b' (by simp [hb'])⟩
  have hsites : allSitesRule (fun _ n _ => decide (n ∈ r.deps)) r := by
    simp only [allSitesRule, Bool.and_eq_true]
    exact ⟨hbindings _ _ fun b hb n hn => List.mem_append_left _ (List.mem_flatMap.mpr ⟨b, hb, hn⟩),
      allSites_of_calls _ _ fun n hn => decide_eq_true (List.mem_append_right _ hn)⟩
  refine applyRule_supported ?_ hsites
  intro s env name arg q w hname _ hfind _
  have hq : q.name = name := by
    unfold Context.findRule at hfind
    simpa using List.find?_some hfind
  rw [hq]
  exact ⟨of_decide_eq_true hname, hfind⟩

/-- The calls that a rule consults are of the rules that it names. -/
theorem applyRule_consults {ctx : Context} {call : Calls} {r r' : Rule} {input v : Value}
    (h : Consults call (applyRule ctx r input) r' v) :
    r'.name ∈ r.deps ∧ ctx.findRule r'.name = some r' :=
  (applyRule_supported_deps ctx call r input).consults h

end Verbosec.Interpreter
