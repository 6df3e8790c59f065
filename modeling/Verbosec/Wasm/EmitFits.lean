import Verbosec.Lib.Dict
import Verbosec.Wasm.Emit

/-!
# Code in order

* `Fits` - code that appends exactly the values of the arguments of a `concat`.
* `emit_fits`, `compileWasm_fits` - the emitter writes such code.
* `Laid`, `compileWasm_laid` - the literals lie apart, before the allocator.
-/

namespace Verbosec.Wasm.Emit

open Lib Lib.Bytes Interpreter

/-! ## Code in order -/

/-- The number of values that a piece takes for the one that it leaves. A literal has to be in the
table. -/
def Piece.pops (table : List (String × Nat)) : Piece → Option Nat
  | .literal s o => if (s, o) ∈ table then some 0 else none
  | .number | .field _ | .localText _ | .placeholder => some 0
  | .arith k => some k
  | .length | .parseInt | .jsonEscape => some 1
  | .test => some 2
  | _ => none

/-- Code that runs to its end: with `some n` inside of a `concat`, where the argument in work has
left `n` values, with `none` outside. -/
inductive Fits (table : List (String × Nat)) : Option Nat → List Piece → Prop
  | nil : Fits table none []
  | simple {p : Piece} {code k} {s s' : Option Nat} (hp : p.pops table = some k)
      (hs : s = s'.map (· + k)) (h : Fits table (s'.map (· + 1)) code) : Fits table s (p :: code)
  | branch {yes no code} {s s' : Option Nat} (hs : s = s'.map (· + 1))
      (hyes : Fits table s' (yes ++ code)) (hno : Fits table s' (no ++ code)) :
      Fits table s (.branch yes no :: code)
  | concatStart {code} (h : Fits table (some 0) code) : Fits table none (.concatStart :: code)
  | nested {n code} : Fits table (some n) (.concatStart :: code)
  | itoa {s code} (h : Fits table s (.copy :: code)) : Fits table s (.itoa :: .copy :: code)
  | copy {code} (h : Fits table (some 0) code) : Fits table (some 1) (.copy :: code)
  | concatEnd {code} (h : Fits table none code) : Fits table (some 0) (.concatEnd :: code)
  | store {slot code} (h : Fits table none code) : Fits table none (.store slot :: code)
  | storeNumber {code} (h : Fits table none code) : Fits table none (.storeNumber :: code)

/-- Code that leaves `k` values more. -/
def Leaves (table : List (String × Nat)) (k : Nat) (code : List Piece) : Prop :=
  ∀ s rest, Fits table (s.map (· + k)) rest → Fits table s (code ++ rest)

/-- Code that stands outside of every `concat`. -/
def Outside (table : List (String × Nat)) (code : List Piece) : Prop :=
  ∀ rest, Fits table none rest → Fits table none (code ++ rest)

section code

variable {table : List (String × Nat)} {a b k : Nat} {p : Piece} {code more yes no : List Piece}

lemma Leaves.outside (h : Leaves table k code) : Outside table code :=
  fun rest hrest => h none rest hrest

lemma Leaves.append (h : Leaves table a code) (h' : Leaves table b more) :
    Leaves table (a + b) (code ++ more) := by
  intro s rest hrest
  rw [List.append_assoc]
  refine h s _ (h' _ rest ?_)
  rw [Option.map_map]
  have hadd : ((· + b) ∘ (· + a) : Nat → Nat) = (· + (a + b)) := funext fun n => Nat.add_assoc n a b
  rw [hadd]
  exact hrest

lemma leaves_piece (hp : p.pops table = some 0) : Leaves table 1 [p] := fun s _ hrest =>
  .simple hp (by simp) hrest

lemma Leaves.take (h : Leaves table k code) (hp : p.pops table = some k) :
    Leaves table 1 (code ++ [p]) := by
  intro s rest hrest
  rw [List.append_assoc]
  exact h s _ (.simple hp rfl hrest)

lemma Leaves.branch (h : Leaves table 1 code) (hyes : Leaves table 1 yes)
    (hno : Leaves table 1 no) : Leaves table 1 (code ++ [Piece.arith 1, .branch yes no]) := by
  intro s rest hrest
  rw [List.append_assoc]
  refine h s _ (.simple (k := 1) rfl rfl ?_)
  exact .branch rfl (hyes s rest hrest) (hno s rest hrest)

lemma Outside.append (h : Outside table code) (h' : Outside table more) :
    Outside table (code ++ more) := by
  intro rest hrest
  rw [List.append_assoc]
  exact h _ (h' rest hrest)

lemma Outside.branch (hyes : Outside table yes) (hno : Outside table no) :
    Outside table [.arith 1, .branch yes no] :=
  fun rest hrest => .simple (k := 1) rfl (Option.map_none ..).symm
    (.branch (Option.map_none ..).symm (hyes rest hrest) (hno rest hrest))

lemma outside_piece (hp : p.pops table = some k) : Outside table [p] := fun _ hrest =>
  .simple hp (Option.map_none ..).symm hrest

lemma outside_store (slot : Option Slot) : Outside table [storePiece slot] := by
  intro rest hrest
  cases slot with
  | none => exact .storeNumber hrest
  | some slot => exact .store hrest

lemma outside_stashOk (textOk : Bool) : Outside table [stashOk textOk] := by
  intro rest hrest
  cases textOk with
  | false => exact .storeNumber hrest
  | true => exact .store hrest

/-- The arguments of a `concat`, one after another. -/
lemma args_fit {fuel : Nat} {c : Ctx}
    (ih : ∀ e code, emit fuel c e = some code → Leaves c.literals 1 code)
    {args : List Expr} {codes : List (List Piece)}
    (h : (args.mapM fun a => do
      let code ← emit fuel c a
      some (code ++ if yieldsText c.fields c.bindings a then [Piece.copy] else [.itoa, .copy])) =
        some codes) {rest : List Piece} (hrest : Fits c.literals (some 0) rest) :
    Fits c.literals (some 0) (codes.flatten ++ rest) := by
  induction args generalizing codes with
  | nil =>
      cases h
      exact hrest
  | cons a args ihargs =>
      rw [List.mapM_cons] at h
      simp only [Option.bind_eq_bind, Option.bind_eq_some_iff, Option.pure_def] at h
      obtain ⟨_, ⟨code, hcode, harg⟩, more, hmore, hcodes⟩ := h
      cases hcodes
      cases harg
      have htail := Fits.copy (ihargs hmore)
      rw [List.flatten_cons, List.append_assoc, List.append_assoc]
      refine ih a code hcode (some 0) _ ?_
      split
      · exact htail
      · exact .itoa htail

end code

/-- The code of an expression leaves its value. -/
lemma emit_fits {fuel : Nat} {c : Ctx} {e : Expr} {code : List Piece}
    (h : emit fuel c e = some code) : Leaves c.literals 1 code := by
  induction fuel generalizing c e code with
  | zero => cases h
  | succ fuel ih =>
      unfold emit at h
      split at h
      · cases h
        exact leaves_piece rfl
      · obtain ⟨offset, hoffset, rfl⟩ := Option.map_eq_some_iff.mp h
        exact leaves_piece (if_pos (Dict.mem_of_lookup hoffset))
      · split at h
        · obtain ⟨text, -, rfl⟩ := Option.map_eq_some_iff.mp h
          cases text with
          | false => exact leaves_piece rfl
          | true => exact leaves_piece rfl
        · cases h
      · obtain ⟨slot, -, rfl⟩ := Option.map_eq_some_iff.mp h
        cases slot with
        | none => exact leaves_piece rfl
        | some slot => exact leaves_piece rfl
      all_goals try simp only [Option.bind_eq_bind, Option.bind_eq_some_iff, Option.some.injEq] at h
      · obtain ⟨left, hl, right, hr, rfl⟩ := h
        exact (ih hl).branch (leaves_piece rfl) (ih hr)
      · obtain ⟨left, hl, right, hr, rfl⟩ := h
        exact (ih hl).branch (ih hr) (leaves_piece rfl)
      · obtain ⟨left, hl, right, hr, rfl⟩ := h
        exact ((ih hl).append (ih hr)).take rfl
      · obtain ⟨cond, hc, yes, hy, no, hn, rfl⟩ := h
        exact (ih hc).branch (ih hy) (ih hn)
      · obtain ⟨inner, hi, rfl⟩ := h
        exact (ih hi).take rfl
      · obtain ⟨inner, hi, rfl⟩ := h
        exact ((leaves_piece (p := .number) rfl).append (ih hi)).take rfl
      · obtain ⟨inner, hi, rfl⟩ := h
        exact (ih hi).take rfl
      · obtain ⟨left, hl, right, hr, rfl⟩ := h
        exact ((ih hl).append (ih hr)).take rfl
      · obtain ⟨left, hl, right, hr, rfl⟩ := h
        exact ((ih hl).append (ih hr)).take rfl
      · obtain ⟨codes, hcodes, rfl⟩ := h
        intro s rest hrest
        cases s with
        | none =>
            change Fits c.literals none (.concatStart :: ((codes.flatten ++ [Piece.concatEnd]) ++ rest))
            rw [List.append_assoc]
            exact .concatStart (args_fit (fun _ _ => ih) hcodes (.concatEnd hrest))
        | some n => exact .nested
      · obtain ⟨-, -, called, -, -, -, h⟩ := h
        have hinner := ih h
        exact hinner
      · obtain ⟨inner, hi, rfl⟩ := h
        exact (ih hi).take rfl
      · obtain ⟨inner, hi, rfl⟩ := h
        exact (ih hi).take rfl
      · obtain ⟨inner, hi, rfl⟩ := h
        exact (ih hi).take rfl
      · obtain ⟨left, hl, right, hr, rfl⟩ := h
        exact ((ih hl).append (ih hr)).take rfl
      · obtain ⟨left, hl, right, hr, rfl⟩ := h
        exact ((ih hl).append (ih hr)).take rfl
      · obtain ⟨left, hl, right, hr, rfl⟩ := h
        exact ((ih hl).append (ih hr)).take rfl
      · cases h

/-- The code of a body with a result stands outside of every `concat`. -/
lemma emitResultBody_fits {textOk : Bool} {fuel : Nat} {c : Ctx} {e : Expr} {code : List Piece}
    (h : emitResultBody textOk fuel c e = some code) : Outside c.literals code := by
  induction fuel generalizing c e code with
  | zero => cases h
  | succ fuel ih =>
      unfold emitResultBody at h
      split at h
      all_goals try simp only [Option.bind_eq_bind, Option.bind_eq_some_iff, Option.some.injEq] at h
      · obtain ⟨inner, hi, rfl⟩ := h
        exact ((outside_piece (p := .number) rfl).append (emit_fits hi).outside).append
          (outside_piece rfl)
      · obtain ⟨inner, hi, rfl⟩ := h
        have hempty : Outside c.literals [if textOk then Piece.placeholder else .number] := by
          split
          · exact outside_piece rfl
          · exact outside_piece rfl
        exact (outside_piece (p := .number) rfl).append (hempty.append (emit_fits hi).outside)
      · obtain ⟨cond, hc, yes, hy, no, hn, rfl⟩ := h
        exact (emit_fits hc).outside.append ((ih hy).branch (ih hn))
      · obtain ⟨callee, -, called, hcalled, ok, hok, err, herr, rfl⟩ := h
        have hokArm : Outside c.literals ((if textOk then [.localText .okStash, .store .okVar]
            else [.number, .storeNumber]) ++ ok) := by
          have hbody := ih hok
          refine Outside.append ?_ hbody
          split
          · exact (outside_piece (p := .localText _) rfl).append (outside_store (some _))
          · exact (outside_piece (p := .number) rfl).append (outside_store none)
        have hbody := ih herr
        have herrArm : Outside c.literals ([Piece.localText .errStash, .store .errVar] ++ err) :=
          ((outside_piece (p := .localText _) rfl).append (outside_store (some _))).append hbody
        exact (ih hcalled).append ((outside_store (some _)).append ((outside_stashOk textOk).append
          ((outside_store none).append ((outside_piece (p := .number) rfl).append
            (hokArm.branch herrArm)))))
      · cases h

/-- What `compileWasm` returns is the code of a rule. -/
lemma exists_compileRule {fuel : Nat} {p : Program} {name : String} {k : Compiled}
    (h : compileWasm fuel p name = some k) :
    ∃ rule fields shape callee, compileRule fuel p.rules rule fields shape callee = some k := by
  simp only [compileWasm, Option.bind_eq_bind, Option.bind_eq_some_iff] at h
  obtain ⟨rule, -, fields, -, shape, -, -, -, -, -, -, -, h⟩ := h
  exact ⟨rule, _, shape, _, h⟩

/-- The code of the bindings, one after another. -/
lemma bindings_outside {fuel : Nat} {c : Ctx} {bindings : List ((String × Expr) × Option Slot)}
    {codes : List (List Piece)}
    (h : (bindings.mapM fun b => do
      let code ← emit fuel c b.1.2
      some (code ++ [storePiece b.2])) = some codes) : Outside c.literals codes.flatten := by
  induction bindings generalizing codes with
  | nil =>
      cases h
      exact fun rest hrest => hrest
  | cons b bindings ih =>
      rw [List.mapM_cons] at h
      simp only [Option.bind_eq_bind, Option.bind_eq_some_iff, Option.pure_def,
        Option.some.injEq] at h
      obtain ⟨_, ⟨code, hcode, rfl⟩, more, hmore, rfl⟩ := h
      rw [List.flatten_cons]
      exact ((emit_fits hcode).outside.append (outside_store b.2)).append (ih hmore)

section rules

variable {fuel : Nat} {p : Program} {name : String} {k : Compiled}

/-- The code of a rule runs to its end. -/
lemma compileWasm_fits (h : compileWasm fuel p name = some k) : Fits k.literals none k.code := by
  obtain ⟨rule, fields, shape, callee, h⟩ := exists_compileRule h
  simp only [compileRule, Option.bind_eq_bind, Option.bind_eq_some_iff, Option.some.injEq] at h
  obtain ⟨bindings, hbindings, body, hbody, rfl⟩ := h
  have hend : Outside (placeLiterals ((bodies rule callee).flatMap textLiterals) [] literalBase).1
      body := by
    cases shape with
    | none => exact (emit_fits hbody).outside
    | some textOk => exact emitResultBody_fits hbody
  have hall := (bindings_outside hbindings).append hend [] .nil
  rwa [List.append_nil] at hall

/-! ## Literals -/

/-- The place of a literal is before `limit`, and no other literal meets it. -/
structure Laid (table : List (String × Nat)) (limit : Nat) : Prop where
  place : ∀ s o, (s, o) ∈ table → literalBase ≤ o ∧ o + (utf8Bytes s).length ≤ limit
  apart : ∀ s o s' o', (s, o) ∈ table → (s', o') ∈ table →
    (s, o) = (s', o') ∨ Separate o (utf8Bytes s).length o' (utf8Bytes s').length

lemma placeLiterals_laid {ss : List String} {table : List (String × Nat)} {cursor : Nat}
    (h : Laid table cursor) (hcursor : literalBase ≤ cursor) :
    Laid (placeLiterals ss table cursor).1 (placeLiterals ss table cursor).2 ∧
      literalBase ≤ (placeLiterals ss table cursor).2 := by
  induction ss generalizing table cursor with
  | nil => exact ⟨h, hcursor⟩
  | cons s ss ih =>
      rw [placeLiterals]
      split
      · exact ih h hcursor
      · refine ih ⟨fun t o ht => ?_, fun t o t' o' ht ht' => ?_⟩ (by omega)
        · rcases List.mem_cons.mp ht with heq | ht
          · cases heq
            exact ⟨hcursor, Nat.le_refl _⟩
          · have hplace := h.place t o ht
            omega
        · rcases List.mem_cons.mp ht with heq | ht <;> rcases List.mem_cons.mp ht' with heq' | ht'
          · exact .inl (heq.trans heq'.symm)
          · cases heq
            exact .inr (.inr (h.place t' o' ht').2)
          · cases heq'
            exact .inr (.inl (h.place t o ht).2)
          · exact h.apart t o t' o' ht ht'

/-- The literals of a rule are laid out before its allocator. -/
lemma compileWasm_laid (h : compileWasm fuel p name = some k) :
    Laid k.literals k.allocBase ∧ literalBase ≤ k.allocBase := by
  obtain ⟨rule, fields, shape, callee, h⟩ := exists_compileRule h
  simp only [compileRule, Option.bind_eq_bind, Option.bind_eq_some_iff, Option.some.injEq] at h
  obtain ⟨bindings, -, body, -, rfl⟩ := h
  have hempty : Laid [] literalBase :=
    ⟨fun _ _ hmem => (by cases hmem), fun _ _ _ _ hmem => (by cases hmem)⟩
  obtain ⟨hlaid, hbase⟩ := placeLiterals_laid
    hempty (Nat.le_refl _)
  refine ⟨⟨fun s o hmem => ?_, hlaid.apart⟩, ?_⟩
  · have hplace := hlaid.place s o hmem
    change _ ∧ _ ≤ (_ + 15) / 16 * 16
    omega
  · change _ ≤ (_ + 15) / 16 * 16
    omega

end rules

end Verbosec.Wasm.Emit
