import Mathlib.Data.List.Induction
import Verbosec.Verifier.TextState

/-!
# Text state stays within its capacity

* `Binds.split` - what a name of the `let`s before a point stands for.
* `yields_within` - a text whose source has a bound is at most that long, given that names are
  clear; induction on the depth of the analysis.
* `Config.Fits` - the invariant of a run: every text field is within its capacity.
* `text_state_fits` - in every reachable state of an accepted service, what an assignment to a text
  field copies is at most the inferred bound and at most the capacity.
* `text_state_overflows` - a service that binds one name twice, and outgrows its buffer.

The analysis resolves a name to the first `let` of that name, where a run sees the last one before
the point: this is the only way in which the two can part.

Source: `verifier.rs`, `text_source_worst_case`.
-/

namespace Verbosec.Verifier

open Verbosec.Lib

variable {p : Program} {s : Service} {handler : Rule}

/-! ## Names -/

section names

variable {base : Dict String Datum} {lets : List (String × Expr)} {vals : Dict String Datum}

/-- The last of some `let`s has a value over the values of the others. -/
lemma Binds.snoc_inv {name : String} {e : Expr} (h : Binds p base (lets ++ [(name, e)]) vals) :
    ∃ before v, Binds p base lets before ∧ Yields p (before ++ base) e v ∧
      vals = Dict.insert before name v := by
  generalize heq : lets ++ [(name, e)] = all at h
  cases h with
  | nil => simp at heq
  | snoc hlets hv =>
      obtain ⟨rfl, hlast⟩ := List.append_inj' heq rfl
      cases hlast
      exact ⟨_, _, hlets, hv, rfl⟩

/-- A name that no `let` binds has no value among them. -/
lemma Binds.lookup_eq_none {name : String} (h : Binds p base lets vals)
    (hname : name ∉ lets.map (·.1)) : vals.lookup name = none := by
  induction h with
  | nil => rfl
  | snoc hlets hv ih =>
      rw [List.map_append, List.mem_append, not_or] at hname
      rw [Dict.lookup_insert_of_ne _ _ (by simpa using hname.2)]
      exact ih hname.1

/-- The value of the last `let` of a name, computed from the `let`s before it. -/
lemma Binds.split {before after : List (String × Expr)} {name : String} {e : Expr}
    (hafter : name ∉ after.map (·.1)) (h : Binds p base (before ++ (name, e) :: after) vals) :
    ∃ earlier v, Binds p base before earlier ∧ Yields p (earlier ++ base) e v ∧
      vals.lookup name = some v := by
  induction after using List.reverseRecOn generalizing vals with
  | nil =>
      obtain ⟨earlier, v, hlets, hv, rfl⟩ := h.snoc_inv
      exact ⟨earlier, v, hlets, hv, Dict.lookup_insert_self ..⟩
  | append_singleton after last ih =>
      obtain ⟨m, e'⟩ := last
      rw [List.map_append, List.mem_append, not_or] at hafter
      rw [← List.cons_append, ← List.append_assoc] at h
      obtain ⟨inner, w, hlets, -, rfl⟩ := h.snoc_inv
      obtain ⟨earlier, v, hbefore, hv, hlook⟩ := ih hafter.1 hlets
      refine ⟨earlier, v, hbefore, hv, ?_⟩
      rw [Dict.lookup_insert_of_ne _ _ (by simpa using hafter.2), hlook]

/-- The analysis finds the `let` in scope when it is the first of its name. -/
lemma find?_first {before after : List (String × Expr)} {name : String} {e : Expr}
    (hbefore : name ∉ before.map (·.1)) :
    (before ++ (name, e) :: after).find? (·.1 = name) = some (name, e) := by
  rw [List.find?_append, List.find?_eq_none.mpr, Option.none_or, List.find?_cons_of_pos (by simp)]
  intro x hx
  simp only [decide_eq_true_eq]
  rintro rfl
  exact hbefore (List.mem_map_of_mem hx)

end names

/-! ## One source -/

/-- Every text field of a state is within its declared capacity. -/
def Fits (s : Service) (state : Dict String Datum) : Prop :=
  ∀ sf ∈ s.stateFields, sf.ty = .text → ∀ v, state.lookup sf.name = some v →
    ∃ b, v = .text b ∧ (b.length : Int) ≤ (sf.maxBytes.getD 0).toInt

/-- A byte string is within a bound, unless the bound is saturated. -/
def Within (n : Int) (b : List UInt8) : Prop := (b.length : Int) ≤ n ∨ n = i64Max

lemma Within.nonneg {n : Int} {b : List UInt8} (h : Within n b) : 0 ≤ n := by
  rcases h with h | rfl
  · omega
  · decide

/-- The bound of a concatenation so far, with one more argument. -/
lemma Within.append {m n : Int} {b c : List UInt8} (hb : Within m b) (hc : Within n c) :
    Within (saturatingAdd m n) (b ++ c) := by
  have hm := hb.nonneg
  have hn := hc.nonneg
  have hmax : i64Max = 2 ^ 63 - 1 := rfl
  unfold Within saturatingAdd at *
  rw [List.length_append, Nat.cast_add]
  omega

section source

variable {req : Dict String Datum}

/-- A field of the input or of the state is within the bound the analysis gives it. -/
lemma fieldBound_within (hreq : Obeys (textScope p s handler) req) {state vals : Dict String Datum}
    (hstate : Fits s state) {scope : List (String × Expr)} {start : Dict String Datum}
    (hlets : Binds p start scope vals) {base fname : String} {n : Int}
    (hbound : (textScope p s handler).fieldBound (.ident base) fname = .ok n)
    (hclear : (base = handler.inputName ∨ base = "state") → base ∉ scope.map (·.1))
    {v : Datum} (hv : Yields p (vals ++ baseEnv handler req state) (.field (.ident base) fname) v) :
    ∃ b, v = .text b ∧ Within n b := by
  cases hv with
  | other h => cases h
  | field hbase hlook =>
    cases hbase with
    | other h => cases h
    | ident henv =>
      simp only [TextScope.fieldBound] at hbound
      rw [List.lookup_append] at henv
      split at hbound
      · rename_i hinput
        rw [hlets.lookup_eq_none (hclear (.inl hinput)), Option.none_or, hinput] at henv
        simp only [textScope, baseEnv, List.lookup_cons_self, Option.some.injEq,
          Datum.record.injEq] at henv
        subst henv
        obtain ⟨hbody, hfield⟩ := hreq _ _ hlook
        unfold TextScope.inputField at hbound
        split at hbound
        · rename_i hname
          obtain ⟨b, rfl, hb⟩ := hbody hname
          cases hbound
          exact ⟨b, rfl, .inl (by exact_mod_cast hb)⟩
        · split at hbound
          · cases hbound
          · rename_i d hd
            obtain ⟨c, hc, hfind⟩ := Option.bind_eq_some_iff.mp hd
            split at hbound
            · rename_i lo hi hty hrange
              cases hbound
              obtain ⟨b, rfl, hb⟩ := hfield c d hc hfind hty lo hi hrange
              exact ⟨b, rfl, .inl hb⟩
            · cases hbound
      · rename_i hinput
        split at hbound
        · rename_i hname
          rw [hlets.lookup_eq_none (hclear (.inr hname)), Option.none_or, hname] at henv
          have hne : ("state" : String) ≠ handler.inputName := fun h => hinput (hname.trans h)
          simp only [baseEnv, List.lookup_cons, beq_false_of_ne hne, beq_self_eq_true,
            Option.some.injEq, Datum.record.injEq] at henv
          subst henv
          split at hbound
          · rename_i max hmax
            cases hbound
            have hmem := Dict.mem_of_lookup hmax
            simp only [textScope, List.mem_reverse, List.mem_map, List.mem_filter,
              decide_eq_true_eq, Prod.mk.injEq] at hmem
            obtain ⟨sf, ⟨hsf, hty⟩, rfl, rfl⟩ := hmem
            obtain ⟨b, rfl, hb⟩ := hstate sf hsf hty v hlook
            exact ⟨b, rfl, .inl hb⟩
          · cases hbound
        · cases hbound

/-- A concatenation, given its arguments, over a bound for what stands before it. -/
lemma concat_within {env : Dict String Datum} {bound : Expr → Except String Int} :
    ∀ {args : List Expr}, (∀ a ∈ args, ∀ n v, bound a = .ok n → Yields p env a v →
        ∃ b, v = .text b ∧ Within n b) →
      ∀ {total n : Int} {front : List UInt8} {v : Datum},
        (args.foldlM (fun total a => do return saturatingAdd total (← bound a)) total) = .ok n →
        Within total front → Yields p env (.concat args) v →
        ∃ b, v = .text b ∧ Within n (front ++ b)
  | [], _, total, n, front, v, hn, hfront, hv => by
      cases hv with
      | other h => cases h
      | concatNil =>
          cases hn
          exact ⟨[], rfl, by rwa [List.append_nil]⟩
  | a :: args, hargs, total, n, front, v, hn, hfront, hv => by
      cases hv with
      | other h => cases h
      | concatCons ha hpiece hrest =>
          rw [List.foldlM_cons] at hn
          obtain ⟨next, hnext, hn⟩ := Except.bind_eq_ok.mp hn
          obtain ⟨m, hm, hnext⟩ := Except.bind_eq_ok.mp hnext
          cases hnext
          obtain ⟨_, rfl, hb⟩ := hargs a List.mem_cons_self m _ hm ha
          cases hpiece
          obtain ⟨_, hr, hwithin⟩ := concat_within
            (fun c hc => hargs c (List.mem_cons_of_mem _ hc)) hn (hfront.append hb) hrest
          cases hr
          exact ⟨_, rfl, by rwa [← List.append_assoc]⟩

/-- **The inferred bound holds** of every source whose names are clear: induction on the depth of
the analysis. `start` is the state the `let`s saw, `state` the one the source sees. -/
theorem yields_within (hreq : Obeys (textScope p s handler) req) {start : Dict String Datum}
    (hstart : Fits s start) :
    ∀ (fuel : Nat) {e : Expr} {n : Int} {scope later : List (String × Expr)}
      {vals state : Dict String Datum} {v : Datum},
      textSourceWorstCase (textScope p s handler) fuel e = .ok n →
      handler.logic.bindings = scope ++ later → Clear (textScope p s handler) scope e →
      Binds p (baseEnv handler req start) scope vals → Fits s state →
      Yields p (vals ++ baseEnv handler req state) e v → ∃ b, v = .text b ∧ Within n b
  | 0, e, n, scope, later, vals, state, v, hn, _, _, _, _, _ => by cases hn
  | fuel + 1, e, n, scope, later, vals, state, v, hn, hall, hclear, hlets, hstate, hv => by
      cases hclear with
      | text =>
          cases hv with
          | other h => cases h
          | text s =>
              cases hn
              exact ⟨_, rfl, .inl (by rw [Interpreter.length_utf8Bytes])⟩
      | field h => exact fieldBound_within hreq hstate hlets hn h hv
      | read =>
          cases hv with
          | other h => cases h
          | read hmax hb =>
              simp only [textSourceWorstCase, textScope, hmax] at hn
              cases hn
              exact ⟨_, rfl, .inl (by exact_mod_cast hb)⟩
      | fetch =>
          cases hv with
          | other h => cases h
          | fetch hmax hb =>
              simp only [textSourceWorstCase, textScope, hmax] at hn
              cases hn
              exact ⟨_, rfl, .inl (by exact_mod_cast hb)⟩
      | substring h =>
          cases hv with
          | other h => cases h
          | substring htext _ _ _ _ _ =>
              obtain ⟨b, heq, hb⟩ := yields_within hreq hstart fuel hn hall h hlets hstate htext
              cases heq
              refine ⟨_, rfl, hb.imp_left fun hb => le_trans ?_ hb⟩
              rw [List.length_drop, List.length_take]
              omega
      | call => cases hn
      | concat h =>
          have hempty : Within 0 [] := .inl le_rfl
          obtain ⟨b, rfl, hb⟩ := concat_within
            (fun a ha m w hm hw => yields_within hreq hstart fuel hm hall (h a ha) hlets hstate hw)
            hn hempty hv
          exact ⟨b, rfl, hb⟩
      | ident hscope hbefore hafter he =>
          cases hv with
          | other h => cases h
          | ident henv =>
              rename_i before after name e'
              subst hscope
              obtain ⟨earlier, w, hlets', hw, hlook⟩ := hlets.split hafter
              rw [List.lookup_append, hlook, Option.some_or, Option.some.injEq] at henv
              subst henv
              -- The analysis resolves the name to the same `let`.
              have hfind : (textScope p s handler).handlerLets.find? (·.1 = name) =
                  some (name, e') := by
                show handler.logic.bindings.find? _ = _
                rw [hall, List.append_assoc, List.cons_append]
                exact find?_first hbefore
              simp only [textSourceWorstCase, hfind] at hn
              exact yields_within hreq hstart fuel hn
                (by rw [hall, List.append_assoc, List.cons_append]) he hlets' hstart hw

end source

/-! ## What an accepted service declares -/

/-- The capacity of an accepted text field, and what it starts with. -/
lemma stateFieldError_eq_nil {sf : StateField} (h : stateFieldError s sf = [])
    (hty : sf.ty = .text) : (sf.maxBytes.getD 0).toInt ≤ 65536 ∧
      ∀ lit, sf.init = .text lit → (lit.utf8ByteSize : Int) ≤ (sf.maxBytes.getD 0).toInt := by
  simp only [stateFieldError, hty, List.append_eq_nil_iff, ite_eq_right_iff, List.cons_ne_nil,
    imp_false, not_or] at h
  obtain ⟨⟨-, hmax⟩, hinit⟩ := h
  refine ⟨?_, fun lit hlit => ?_⟩
  · rw [Int64.lt_iff_toInt_lt, not_lt] at hmax
    exact hmax
  · rw [hlit] at hinit
    simpa using hinit

/-- Accepted state fields have distinct names and are in order one by one. -/
lemma stateFieldErrors_eq_nil {seen : List String} {fields : List StateField}
    (h : stateFieldErrors s seen fields = []) :
    (∀ sf ∈ fields, stateFieldError s sf = [] ∧ sf.name ∉ seen) ∧
      (fields.map (·.name)).Nodup := by
  induction fields generalizing seen with
  | nil => exact ⟨fun _ h => absurd h List.not_mem_nil, List.nodup_nil⟩
  | cons sf rest ih =>
      simp only [stateFieldErrors, List.append_eq_nil_iff, ite_eq_right_iff, List.cons_ne_nil,
        imp_false] at h
      obtain ⟨⟨hself, hseen⟩, hrest⟩ := h
      obtain ⟨hall, hnodup⟩ := ih hrest
      refine ⟨fun f hf => ?_, ?_⟩
      · rcases List.mem_cons.mp hf with rfl | hf
        · exact ⟨hself, hseen⟩
        · exact ⟨(hall f hf).1, fun hmem => (hall f hf).2 (List.mem_cons_of_mem _ hmem)⟩
      · rw [List.map_cons, List.nodup_cons]
        refine ⟨fun hmem => ?_, hnodup⟩
        obtain ⟨f, hf, hname⟩ := List.mem_map.mp hmem
        exact (hall f hf).2 (hname ▸ List.mem_cons_self)

/-- A bounded transfer is a call of a rule with a declared text bound. -/
lemma stateCall_some {set : StateSet} {rules : Dict String Rule} {callee : Rule}
    (h : TextBounds.stateCall s handler set rules = .ok (some callee)) :
    ∃ name args cap, set.value = .call name args ∧ rules.lookup name = some callee ∧
      callee.outputTextMax = some cap := by
  unfold TextBounds.stateCall at h
  split at h
  · rename_i name args hvalue
    split at h
    · cases h
    · rename_i r hr
      split at h
      · cases h
      · rename_i cap hcap
        have hcallee : r = callee := by
          split at h
          · cases h
          · split at h
            · cases h
            · split at h
              · cases h
              · split at h
                · cases h
                · split at h
                  · cases h
                  · split at h
                    · cases h
                    · cases h
                      rfl
        subst hcallee
        exact ⟨name, args, cap, hvalue, hr, hcap⟩
  · cases h

/-! ## Runs -/

/-- The invariant of a run: the state is within the capacities, and inside an `after` block so is
the state that the `let`s saw. -/
def Config.Fits (p : Program) (s : Service) (handler : Rule) : Config → Prop
  | .idle state => Verifier.Fits s state
  | .after req lets todo state =>
      Verifier.Fits s state ∧ Obeys (textScope p s handler) req ∧
        (∀ set ∈ todo, set ∈ s.afterSets) ∧ ∃ start, Verifier.Fits s start ∧
          Binds p (baseEnv handler req start) handler.logic.bindings lets

section runs

variable (hacc : Accepted p s handler)
include hacc

/-- The first field of a name is the only one. -/
lemma Accepted.eq_of_find? {sf sf' : StateField} {name : String}
    (hsf : s.stateFields.find? (·.name = name) = some sf) (hmem : sf' ∈ s.stateFields)
    (hname : sf'.name = name) : sf' = sf := by
  have h := find?_of_nodup (·.name) (stateFieldErrors_eq_nil hacc.fields).2 hmem
  rw [hname, hsf] at h
  exact (Option.some.inj h).symm

/-- The initial state is within the capacities. -/
lemma Accepted.fits_initial : Fits s (initialState s) := by
  intro sf hsf hty v hv
  obtain ⟨hall, hnodup⟩ := stateFieldErrors_eq_nil hacc.fields
  have hkeys : ((initialState s).map (·.1)).Nodup := by
    rw [initialState, List.map_map]
    exact hnodup
  have hmem := (Dict.lookup_eq_some_of_nodup hkeys).mp hv
  obtain ⟨sf', hsf', heq⟩ := List.mem_map.mp hmem
  obtain ⟨hname, rfl⟩ := Prod.mk.inj heq
  obtain rfl : sf' = sf := List.inj_on_of_nodup_map hnodup hsf' hsf hname
  obtain ⟨lit, hlit⟩ := hacc.literals sf' hsf hty
  refine ⟨Interpreter.utf8Bytes lit, by rw [hlit]; rfl, ?_⟩
  rw [Interpreter.length_utf8Bytes]
  exact (stateFieldError_eq_nil (hall sf' hsf).1 hty).2 lit hlit

/-- **One assignment**: what is copied into a text field is within the inferred bound and within the
capacity. -/
lemma Accepted.copy_within {req lets start state : Dict String Datum} {set : StateSet}
    (hset : set ∈ s.afterSets)
    (hclear : Clear (textScope p s handler) handler.logic.bindings set.value)
    (hreq : Obeys (textScope p s handler) req) (hstart : Fits s start)
    (hlets : Binds p (baseEnv handler req start) handler.logic.bindings lets)
    (hstate : Fits s state) {sf : StateField}
    (hsf : s.stateFields.find? (·.name = set.fieldName) = some sf) (hty : sf.ty = .text) {v : Datum}
    (hv : Yields p (lets ++ baseEnv handler req state) set.value v) :
    ∃ b w, v = .text b ∧ setBound p s handler set = .ok w ∧ (b.length : Int) ≤ w ∧
      (b.length : Int) ≤ (sf.maxBytes.getD 0).toInt := by
  have herr := hacc.sets set hset
  simp only [setSourceError, hsf, hty, ne_eq, not_true_eq_false, if_false] at herr
  have hmax := (stateFieldError_eq_nil
    ((stateFieldErrors_eq_nil hacc.fields).1 sf (List.mem_of_find?_eq_some hsf)).1 hty).1
  -- What the gate leaves: a bound that is at most the capacity.
  obtain ⟨w, hw, hle⟩ : ∃ w, setBound p s handler set = .ok w ∧
      w ≤ (sf.maxBytes.getD 0).toInt := by
    split at herr
    · cases herr
    · split at herr
      · cases herr
      · rename_i w hw
        exact ⟨w, hw, by simpa using herr⟩
  suffices hb : ∃ b, v = .text b ∧ (b.length : Int) ≤ w by
    obtain ⟨b, rfl, hb⟩ := hb
    exact ⟨b, w, rfl, hw, hb, hb.trans hle⟩
  unfold setBound at hw
  split at hw
  · rename_i callee hcall
    obtain ⟨name, args, cap, hvalue, hr, hcap⟩ := stateCall_some hcall
    rw [hvalue] at hv
    cases hv with
    | other h => cases h
    | call h =>
        obtain ⟨b, rfl, hb⟩ := h callee hr cap hcap
        rw [hcap] at hw
        cases hw
        exact ⟨b, rfl, by exact_mod_cast hb⟩
  · obtain ⟨b, rfl, hb | hb⟩ := yields_within hreq hstart 17 hw (List.append_nil _).symm hclear
      hlets hstate hv
    · exact ⟨b, rfl, hb⟩
    · rw [hb] at hle
      have : i64Max = 2 ^ 63 - 1 := rfl
      omega

variable (hclear : ∀ set ∈ s.afterSets, ∀ sf,
  s.stateFields.find? (·.name = set.fieldName) = some sf → sf.ty = .text →
    Clear (textScope p s handler) handler.logic.bindings set.value)
include hclear

/-- A step keeps the invariant. -/
lemma Config.Fits.step {c c' : Config} (hc : c.Fits p s handler)
    (hstep : Config.Step p s handler c c') : c'.Fits p s handler := by
  cases hstep with
  | serve hreq hlets => exact ⟨hc, hreq, fun _ h => h, _, hc, hlets⟩
  | done => exact hc.1
  | assign hv =>
      rename_i req lets state set todo v
      obtain ⟨hstate, hreq, htodo, start, hstart, hlets⟩ := hc
      refine ⟨?_, hreq, fun x hx => htodo x (List.mem_cons_of_mem _ hx), start, hstart, hlets⟩
      intro sf hsf hty w hw
      rw [Dict.lookup_insert] at hw
      split at hw
      · rename_i hname
        have hset := htodo set List.mem_cons_self
        obtain ⟨sf', hfind⟩ : ∃ sf', s.stateFields.find? (·.name = set.fieldName) = some sf' :=
          Option.isSome_iff_exists.mp (List.find?_isSome.mpr ⟨sf, hsf, by simpa using hname⟩)
        obtain rfl := hacc.eq_of_find? hfind hsf hname
        obtain ⟨b, -, rfl, -, -, hb⟩ := hacc.copy_within hset (hclear set hset sf hfind hty) hreq
          hstart hlets hstate hfind hty hv
        cases hw
        exact ⟨b, rfl, hb⟩
      · exact hstate sf hsf hty w hw

/-- The invariant holds in every reachable state. -/
theorem reachable_fits {c : Config} (h : (service p s handler).Reachable c) :
    c.Fits p s handler := by
  refine h.invariant (I := Config.Fits p s handler) ?_
    fun x y _ hx hstep => hx.step hacc hclear hstep
  rintro _ rfl
  exact hacc.fits_initial

/-- **Text state never overflows its buffer**, when the names in its sources are clear: in every
reachable state, what an assignment copies into a text field is at most the inferred bound and at
most the declared capacity, and every text field stays within its own. -/
theorem text_state_fits {req lets state : Dict String Datum} {set : StateSet} {todo : List StateSet}
    (hrun : (service p s handler).Reachable (.after req lets (set :: todo) state)) {sf : StateField}
    (hsf : s.stateFields.find? (·.name = set.fieldName) = some sf) (hty : sf.ty = .text) {v : Datum}
    (hv : Yields p (lets ++ baseEnv handler req state) set.value v) :
    ∃ b w, v = .text b ∧ setBound p s handler set = .ok w ∧ (b.length : Int) ≤ w ∧
      (b.length : Int) ≤ (sf.maxBytes.getD 0).toInt ∧ Fits s state ∧
      Fits s (Dict.insert state set.fieldName v) := by
  have hfits := reachable_fits hacc hclear hrun
  have hnext := hfits.step hacc hclear (.assign hv)
  obtain ⟨hstate, hreq, htodo, start, hstart, hlets⟩ := hfits
  have hset := htodo set List.mem_cons_self
  obtain ⟨b, w, rfl, hw, hb, hle⟩ := hacc.copy_within hset (hclear set hset sf hsf hty) hreq hstart
    hlets hstate hsf hty hv
  exact ⟨b, w, rfl, hw, hb, hle, hstate, hnext.1⟩

end runs

/-! ## A cleared name, and a hidden one -/

/-- An HTTP handler whose `let`s are given. -/
def echoHandler (lets : List (String × Expr)) : Rule where
  name := "echo"
  inputName := "req"
  inputTy := .named "HttpRequest"
  outputName := "resp"
  outputTy := .named "HttpResponse"
  logic :=
    { bindings := lets
      value := .record "HttpResponse" [("status", .number 200), ("body", .ident "x")] }

/-- A service that keeps the value of `x` in a text field of the given capacity. -/
def lastService (capacity : Int64) : Service where
  name := "last"
  protocol := .http10
  maxRequest := 64
  handler := "echo"
  stateFields := [⟨"last", .text, some capacity, .text ""⟩]
  afterSets := [⟨"last", .ident "x"⟩]

/-- A request whose body is `hi`. -/
def hiRequest : Dict String Datum := [("body", .text [104, 105])]

/-- The body of the request. -/
def bodyField : Expr := .field (.ident "req") "body"

/-- The program of a handler and a service. -/
def lastProgram (capacity : Int64) (lets : List (String × Expr)) : Program :=
  ⟨[.rule (echoHandler lets), .service (lastService capacity)]⟩

lemma obeys_hiRequest (capacity : Int64) (lets : List (String × Expr)) :
    Obeys (textScope (lastProgram capacity lets) (lastService capacity) (echoHandler lets))
      hiRequest := by
  intro f v hv
  obtain ⟨rfl, rfl⟩ : f = "body" ∧ v = .text [104, 105] := by
    have hmem := Dict.mem_of_lookup hv
    rw [hiRequest, List.mem_singleton] at hmem
    exact Prod.mk.inj hmem
  refine ⟨fun _ => ⟨_, rfl, show 2 ≤ 64 by decide⟩, fun c d hc hd _ lo hi hrange => ⟨_, rfl, ?_⟩⟩
  have hconcept : (textScope (lastProgram capacity lets) (lastService capacity)
      (echoHandler lets)).reqConcept = some (builtinHttpRequest 64) := rfl
  rw [hconcept] at hc
  cases hc
  cases hd
  cases hrange
  decide

/-- A run up to the assignment, for `let`s that the request gives values. -/
lemma reachable_assignment {capacity : Int64} {lets : List (String × Expr)}
    {vals : Dict String Datum}
    (hlets : Binds (lastProgram capacity lets)
      (baseEnv (echoHandler lets) hiRequest [("last", .text [])]) lets vals) :
    (service (lastProgram capacity lets) (lastService capacity) (echoHandler lets)).Reachable
      (.after hiRequest vals [⟨"last", .ident "x"⟩] [("last", .text [])]) :=
  (System.Reachable.init rfl).step (.serve (obeys_hiRequest capacity lets) hlets)

/-- The body of the request, over any `let`s that do not hide it. -/
lemma yields_body {p : Program} {lets : List (String × Expr)} {vals state : Dict String Datum}
    (h : vals.lookup "req" = none) :
    Yields p (vals ++ baseEnv (echoHandler lets) hiRequest state) bodyField
      (.text [104, 105]) :=
  .field (.ident (by rw [List.lookup_append, h]; rfl)) rfl

/-- The first byte of the body. -/
def headLets : List (String × Expr) := [("x", .substring bodyField (.number 0) (.number 1))]

lemma binds_headLets (p : Program) (state : Dict String Datum) :
    Binds p (baseEnv (echoHandler headLets) hiRequest state) headLets [("x", .text [104])] :=
  .snoc (show Binds p _ [] [] from .nil)
    (.substring (i := 0) (j := 1) (yields_body rfl) (.number 0) (.number 1) (by decide) (by decide)
      (by decide))

theorem text_state_fits_head : ∃ b w, Datum.text [104] = .text b ∧
    setBound (lastProgram 64 headLets) (lastService 64) (echoHandler headLets)
      ⟨"last", .ident "x"⟩ = .ok w ∧ (b.length : Int) ≤ w ∧ (b.length : Int) ≤ 64 ∧
    Fits (lastService 64) [("last", .text [])] ∧
    Fits (lastService 64) (Dict.insert [("last", .text [])] "last" (.text [104])) :=
  text_state_fits
    (show Accepted (lastProgram 64 headLets) (lastService 64) (echoHandler headLets) from
      ⟨by decide +kernel, by decide +kernel, by simp [lastService]⟩)
    (by
      intro set hset sf _ _
      obtain rfl : set = ⟨"last", .ident "x"⟩ := by simpa [lastService] using hset
      exact .ident (show headLets = [] ++ ("x", _) :: [] from rfl) (by simp) (by simp)
        (.substring (.field (by simp))))
    (reachable_assignment (binds_headLets _ _))
    (show (lastService 64).stateFields.find? _ = some ⟨"last", .text, some 64, .text ""⟩ from rfl)
    rfl (.ident rfl)

/-- Two `let`s of one name: the analysis sizes the first, a run copies the second. -/
def twiceLets : List (String × Expr) := [("x", .text "a"), ("x", bodyField)]

lemma binds_twiceLets (p : Program) (state : Dict String Datum) :
    Binds p (baseEnv (echoHandler twiceLets) hiRequest state) twiceLets
      [("x", .text [104, 105]), ("x", .text [97])] :=
  .snoc (show Binds p _ [("x", .text "a")] _ from
    .snoc (show Binds p _ [] [] from .nil) (.text "a")) (yields_body rfl)

/-- **A rebound `let` overflows the buffer**: the bound and the capacity are one byte, and two bytes
are copied. -/
theorem text_state_overflows :
    Accepted (lastProgram 1 twiceLets) (lastService 1) (echoHandler twiceLets) ∧
    setBound (lastProgram 1 twiceLets) (lastService 1) (echoHandler twiceLets)
      ⟨"last", .ident "x"⟩ = .ok 1 ∧
    ∃ req lets state b,
      (service (lastProgram 1 twiceLets) (lastService 1) (echoHandler twiceLets)).Reachable
        (.after req lets [⟨"last", .ident "x"⟩] state) ∧
      Yields (lastProgram 1 twiceLets) (lets ++ baseEnv (echoHandler twiceLets) req state)
        (.ident "x") (.text b) ∧ 1 < b.length :=
  ⟨⟨by decide +kernel, by decide +kernel, by simp [lastService]⟩, by decide +kernel,
    hiRequest, _, _, [104, 105], reachable_assignment (binds_twiceLets _ _), .ident rfl, by decide⟩

end Verbosec.Verifier
