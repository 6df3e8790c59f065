import Verbosec.Execution.InputWrite
import Verbosec.Interpreter.LoadJsonSound
import Verbosec.Lib.Except
import Verbosec.Native.RecordJson

/-!
# When a line of JSON reads back

* `line_of_emit` - the line is the object of the values of the declared fields.
* `bodyAt_between` - what a reader makes of a text that stands raw between quotes: something
  shorter, the text itself, or more than the text.
* `fieldsAt_raw` - the fields of a raw object as a reader sees them.
* `record_line` - the line reads back exactly if every text stands for itself.
-/

namespace Verbosec.Native.RecordJson

open Verbosec.Interpreter Verbosec.Lib Verbosec.Execution.Input
open Verbosec.Interpreter.LoadJson (Scalar Named)

/-! ## Numbers -/

lemma divLoop_eq {fuel n : Nat} (h : n < fuel) (digits : List Char) :
    divLoop fuel n digits = Nat.toDigits 10 n ++ digits := by
  induction fuel generalizing n digits with
  | zero => exact absurd h (Nat.not_lt_zero _)
  | succ fuel ih =>
      rw [divLoop]
      by_cases hzero : n / 10 = 0
      · have hlt : n < 10 := by omega
        simp only [if_pos hzero, Nat.toDigits_of_lt_base hlt, Nat.mod_eq_of_lt hlt,
          List.singleton_append]
      · simp only [if_neg hzero]
        have hdigits : Nat.toDigits 10 n = Nat.toDigits 10 (n / 10) ++ [Nat.digitChar (n % 10)] :=
          Nat.toDigits_of_base_le (by decide) (by omega)
        rw [ih (by omega), hdigits, List.append_assoc, List.singleton_append]

/-- The digits that are written are the ones of the interpreter. -/
lemma itoa_eq (n : Int64) : itoa n = (decimal n).toList := by
  have hdecimal : (decimal n).toList = n.toInt.repr.toList := rfl
  rw [hdecimal, itoa]
  simp only [divLoop_eq (Nat.lt_succ_self _), List.append_nil]
  rcases n.toInt with m | m
  · rw [if_neg (show ¬ Int.ofNat m < 0 from Int.not_lt.mpr (Int.natCast_nonneg m))]
    simp [Int.repr, Nat.repr]
  · rw [if_pos (Int.negSucc_lt_zero m)]
    simp [Int.repr, Nat.repr]

/-! ## The line -/

/-- Members between commas. -/
def rawMembers : List (String × Scalar) → List Char
  | [] => []
  | m :: ms => rawMember m ++ ms.flatMap fun m => ',' :: rawMember m

lemma rawMembers_cons_cons (m m' : String × Scalar) (ms : List (String × Scalar)) :
    rawMembers (m :: m' :: ms) = rawMember m ++ ',' :: rawMembers (m' :: ms) := by
  simp [rawMembers]

lemma rawObject_eq (r : List (String × Scalar)) : rawObject r = '{' :: (rawMembers r ++ ['}']) := by
  have hjoin : [','].intercalate (r.map rawMember) = rawMembers r := by
    induction r with
    | nil => rfl
    | cons m ms ih =>
        cases ms with
        | nil => simp [rawMembers, List.intercalate]
        | cons m' ms =>
            rw [rawMembers_cons_cons, ← ih]
            simp [List.intercalate]
  rw [rawObject, hjoin]

section emit

variable {ε : Type} (eval : ε → Value)

lemma writeField_eq {first : Bool} {decl : Field} {v : Value} {t : List Char}
    (h : writeField first decl v = .ok t) :
    ∃ s, scalarOf v = some s ∧ s.value = v ∧
      t = (if first then '{' else ',') :: rawMember (decl.name, s) := by
  unfold writeField at h
  generalize (if first then '{' else ',') = opening at h ⊢
  dsimp only at h
  split at h
  · cases h
    exact ⟨_, rfl, rfl, by simp [rawMember, rawScalar]⟩
  · cases h
    exact ⟨_, rfl, rfl, by simp [rawMember, rawScalar]⟩
  all_goals cases h

/-- The record of the fields has, of every name, the value of its expression. -/
lemma lookup_recordOf (fields : List (String × ε)) (key : String) :
    (recordOf eval fields).lookup key = ((provided fields).lookup key).map eval := by
  have hstep : ∀ (d : Dict String Value) (d' : Dict String ε),
      (∀ key, d.lookup key = (d'.lookup key).map eval) →
      (fields.foldl (fun d m => Dict.insert d m.1 (eval m.2)) d).lookup key =
        ((fields.foldl (fun d m => Dict.insert d m.1 m.2) d').lookup key).map eval := by
    induction fields with
    | nil => exact fun d d' h => h key
    | cons m fields ih =>
        intro d d' h
        refine ih _ _ fun key => ?_
        rw [Dict.lookup_insert, Dict.lookup_insert]
        split_ifs
        · rfl
        · exact h key
  exact hstep [] [] fun _ => rfl

/-- The fields after the first one. -/
lemma writeFields_eq {exprs : Dict String ε} {values : Dict String Value}
    (hvalues : ∀ key, values.lookup key = (exprs.lookup key).map eval) {decls : List Field}
    {first : Bool} {t : List Char} (h : writeFields eval exprs first decls = .ok t) :
    ∃ r, (decls.mapM fun decl => ((values.lookup decl.name).bind scalarOf).map (decl.name, ·)) =
        some r ∧ r.map (·.1) = decls.map (·.name) ∧
      (∀ m ∈ r, values.lookup m.1 = some m.2.value) ∧
      t = match r with
        | [] => []
        | m :: ms => (if first then '{' else ',') ::
            (rawMember m ++ ms.flatMap fun m => ',' :: rawMember m) := by
  induction decls generalizing first t with
  | nil =>
      cases h
      exact ⟨[], rfl, rfl, by simp, rfl⟩
  | cons decl decls ih =>
      rw [writeFields] at h
      rcases hlookup : exprs.lookup decl.name with _ | e
      · rw [hlookup] at h
        cases h
      · rw [hlookup] at h
        obtain ⟨written, hwritten, h⟩ := Except.bind_eq_ok.mp h
        obtain ⟨rest, hrest, h⟩ := Except.bind_eq_ok.mp h
        cases h
        obtain ⟨s, hs, hvalue, rfl⟩ := writeField_eq hwritten
        obtain ⟨r, hr, hnames, hlookups, rfl⟩ := ih hrest
        have hdecl : values.lookup decl.name = some s.value := by
          rw [hvalues, hlookup, Option.map_some, hvalue]
        refine ⟨(decl.name, s) :: r, ?_, ?_, ?_, ?_⟩
        · rw [List.mapM_cons, hdecl, hr, Option.bind_some, hvalue, hs]
          rfl
        · rw [List.map_cons, List.map_cons, hnames]
        · intro m hm
          rcases List.mem_cons.mp hm with rfl | hm
          · exact hdecl
          · exact hlookups m hm
        · cases r with
          | nil => simp
          | cons m ms => simp

/-- The line is the object of the values of the declared fields. -/
lemma line_of_emit {fields : List (String × ε)} {outputConcept : Concept} {line : List Char}
    (h : emitRecordAsJson eval fields outputConcept = .ok line) :
    ∃ r, fieldScalars (recordOf eval fields) outputConcept = some r ∧
      r.map (·.1) = outputConcept.fields.map (·.name) ∧
      (∀ m ∈ r, (recordOf eval fields).lookup m.1 = some m.2.value) ∧
      (r = [] → line = ['}', '\n']) ∧ (r ≠ [] → line = rawObject r ++ ['\n']) := by
  obtain ⟨t, ht, h⟩ := Except.bind_eq_ok.mp h
  cases h
  obtain ⟨r, hr, hnames, hlookups, rfl⟩ := writeFields_eq eval (lookup_recordOf eval fields) ht
  refine ⟨r, hr, hnames, hlookups, ?_, ?_⟩
  · rintro rfl
    rfl
  · intro hne
    obtain ⟨m, ms, rfl⟩ := List.exists_cons_of_ne_nil hne
    simp [rawObject_eq, rawMembers]

end emit

/-! ## Texts between quotes -/

lemma hexAt_inside {count value n : Nat} {t more middle : List Char}
    (h : HexAt count value (t ++ '"' :: more) n middle) :
    ∃ t', middle = t' ++ '"' :: more ∧ t'.length ≤ t.length := by
  induction count generalizing value t with
  | zero => exact ⟨t, h.2, le_rfl⟩
  | succ count ih =>
      obtain ⟨c, input, digit, hinput, hdigit, hrest⟩ := h
      cases t with
      | nil =>
          cases hinput
          have hnone : asciiBind hexDigit '"' = none := by decide
          rw [hnone] at hdigit
          cases hdigit
      | cons d t =>
          cases hinput
          obtain ⟨t', rfl, hle⟩ := ih hrest
          exact ⟨t', rfl, hle.trans (Nat.le_succ _)⟩

lemma hexAt_mem {count value n : Nat} {input middle : List Char} {c : Char}
    (h : HexAt count value input n middle) (hc : c ∈ middle) : c ∈ input := by
  induction count generalizing value input with
  | zero => exact h.2 ▸ hc
  | succ count ih =>
      obtain ⟨d, input', digit, rfl, -, hrest⟩ := h
      exact List.mem_cons_of_mem _ (ih hrest)

/-- An escape takes the closing quote as its letter, or stays before it. -/
lemma escapeAt_inside {t more middle : List Char} {c : Char}
    (h : EscapeAt (t ++ '"' :: more) c middle) :
    middle = more ∨ ∃ t', middle = t' ++ '"' :: more ∧ t'.length < t.length := by
  rcases h with ⟨x, hinput, -⟩ | ⟨input, n, hinput, ⟨code, middle', hhex, h⟩, -⟩
  · cases t with
    | nil =>
        cases hinput
        exact Or.inl rfl
    | cons d t =>
        cases hinput
        exact Or.inr ⟨t, rfl, Nat.lt_succ_self _⟩
  · cases t with
    | nil => cases hinput
    | cons d t =>
        cases hinput
        obtain ⟨t', rfl, hle⟩ := hexAt_inside hhex
        rcases h with ⟨-, -, rfl⟩ | ⟨-, after, low, hpair, hlow, -⟩
        · exact Or.inr ⟨t', rfl, Nat.lt_succ_of_le hle⟩
        · -- the second half of a surrogate pair begins before the quote as well
          match t', hpair with
          | [], hpair => cases hpair
          | [_], hpair => cases hpair
          | _ :: _ :: t', hpair =>
              cases hpair
              obtain ⟨t'', rfl, hle'⟩ := hexAt_inside hlow
              refine Or.inr ⟨t'', rfl, ?_⟩
              simp only [List.length_cons] at hle ⊢
              omega

/-- A text that stands raw between quotes is read as something shorter, as itself, or beyond its
closing quote. -/
lemma bodyAt_between {t more u rest : List Char} (h : BodyAt (t ++ '"' :: more) u rest) :
    u.length < t.length ∨ (u = t ∧ rest = more ∧ ∀ c ∈ t, PlainChar c) ∨ ∃ u', BodyAt more u' rest := by
  induction hn : t.length using Nat.strongRecOn generalizing t u with
  | ind n ih =>
      subst hn
      cases t with
      | nil =>
          cases h with
          | close => exact Or.inr (Or.inl ⟨rfl, rfl, by simp⟩)
          | plain hquote => exact absurd rfl hquote
      | cons c t =>
          cases h with
          | close => exact Or.inl (Nat.succ_pos _)
          | @plain _ _ s _ hquote hcontrol hslash hbody =>
              rcases ih t.length (Nat.lt_succ_self _) hbody rfl with hlt | ⟨rfl, rfl, hplain⟩ | hmore
              · exact Or.inl (Nat.succ_lt_succ hlt)
              · refine Or.inr (Or.inl ⟨rfl, rfl, ?_⟩)
                exact List.forall_mem_cons.mpr ⟨⟨hquote, hslash, hcontrol⟩, hplain⟩
              · exact Or.inr (Or.inr hmore)
          | @escape d _ middle s _ hescape hbody =>
              rcases escapeAt_inside hescape with rfl | ⟨t', rfl, hlt⟩
              · exact Or.inr (Or.inr ⟨s, hbody⟩)
              · rcases ih t'.length (hlt.trans (Nat.lt_succ_self _)) hbody rfl with
                  hshort | ⟨rfl, rfl, -⟩ | hmore
                · refine Or.inl ?_
                  simp only [List.length_cons]
                  omega
                · refine Or.inl ?_
                  simp only [List.length_cons]
                  omega
                · exact Or.inr (Or.inr hmore)

/-- A plain text between quotes is read as itself, and nothing else. -/
lemma bodyAt_plain {t more u rest : List Char} (h : BodyAt (t ++ '"' :: more) u rest)
    (hplain : ∀ c ∈ t, PlainChar c) : u = t ∧ rest = more := by
  induction t generalizing u with
  | nil =>
      cases h with
      | close => exact ⟨rfl, rfl⟩
      | plain hquote => exact absurd rfl hquote
  | cons c t ih =>
      have hc := hplain c List.mem_cons_self
      cases h with
      | close => exact absurd rfl hc.1
      | plain _ _ _ hbody =>
          obtain ⟨rfl, rfl⟩ := ih hbody fun d hd => hplain d (List.mem_cons_of_mem _ hd)
          exact ⟨rfl, rfl⟩
      | escape => exact absurd rfl hc.2.1

/-- Without a quote there is no end of a string. -/
lemma bodyAt_mem_quote {input u rest : List Char} (h : BodyAt input u rest) : '"' ∈ input := by
  induction h with
  | close => exact List.mem_cons_self
  | plain _ _ _ _ ih => exact List.mem_cons_of_mem _ ih
  | escape hescape _ ih =>
      refine List.mem_cons_of_mem _ ?_
      rcases hescape with ⟨x, rfl, -⟩ | ⟨input', n, rfl, ⟨code, middle', hhex, h⟩, -⟩
      · exact List.mem_cons_of_mem _ ih
      · refine List.mem_cons_of_mem _ (hexAt_mem hhex ?_)
        rcases h with ⟨-, -, rfl⟩ | ⟨-, after, low, rfl, hlow, -⟩
        · exact ih
        · exact List.mem_cons_of_mem _ (List.mem_cons_of_mem _ (hexAt_mem hlow ih))

/-! ## Members -/

lemma plainChar_of_escapeChar {c : Char} (h : LoadJson.escapeChar c = [c]) : PlainChar c := by
  unfold LoadJson.escapeChar at h
  split_ifs at h with hquote hslash hnewline hreturn htab hcontrol <;> cases h
  exact ⟨hquote, hslash, Nat.lt_of_not_le hcontrol⟩

/-- What the characters of a name are not. -/
lemma named_plain {c : Char} (h : c.isAlphanum ∨ c = '_') :
    PlainChar c ∧ ascii isSpace c = false ∧ c ≠ ',' ∧ c ≠ '}' := by
  obtain ⟨hescape, hwhite, -, -⟩ := LoadJson.named_char h
  refine ⟨plainChar_of_escapeChar hescape, ?_, ?_, ?_⟩
  · refine Bool.eq_false_iff.mpr fun hspace => Bool.eq_false_iff.mp hwhite ?_
    simp only [ascii, isSpace, Bool.and_eq_true, Bool.or_eq_true, decide_eq_true_eq] at hspace
    obtain ⟨hlt, hbyte⟩ := hspace
    have hcode : c.toNat.toUInt8.toNat = c.toNat := by
      rw [Nat.toUInt8, UInt8.toNat_ofNat', Nat.mod_eq_of_lt (by omega)]
    have hmem : c.toNat = 32 ∨ c.toNat = 13 ∨ c.toNat = 10 ∨ c.toNat = 9 := by
      rw [← hcode]
      rcases hbyte with ((h | h) | h) | h <;> simp [h]
    simp only [isWhiteSpace, Bool.or_eq_true, Bool.and_eq_true, decide_eq_true_eq]
    omega
  · rintro rfl
    exact absurd h (by decide)
  · rintro rfl
    exact absurd h (by decide)

/-- A value is read in one way. -/
lemma valueAt_unique {input rest rest' : List Char} {v v' : Value} (h : ValueAt input v rest)
    (h' : ValueAt input v' rest') : v' = v ∧ rest' = rest := by
  have hstart : At input 0 input := At.start
  rcases reads_value hstart with ⟨w, last, position, -, -, huniq⟩ | ⟨-, hnone⟩
  · obtain ⟨rfl, rfl⟩ := (huniq v rest).mp h
    exact (huniq v' rest').mp h'
  · exact absurd h (hnone _ _)

/-- A value that begins with a quote is a text. -/
lemma valueAt_quoted {body rest : List Char} {v : Value} (h : ValueAt ('"' :: body) v rest) :
    ∃ out, BodyAt body out rest ∧ v = .text (String.ofList out) := by
  have hstrip : strip ('"' :: body) = '"' :: body := strip_cons (by decide) _
  rcases h with ⟨s, ⟨body', htoken, out, hbody, rfl⟩, rfl⟩ | ⟨htrue, -⟩ | ⟨hfalse, -⟩ | ⟨t, n, ht, hn, -⟩
  · rw [Token, hstrip] at htoken
    cases htoken
    exact ⟨out, hbody, rfl⟩
  · rw [hstrip] at htrue
    cases htrue
  · rw [hstrip] at hfalse
    cases hfalse
  · obtain ⟨c, hhead, hc⟩ := hn.head?
    rw [hstrip] at ht
    have hquote := hhead rest
    rw [← ht, List.head?_cons, Option.some.injEq] at hquote
    subst hquote
    rcases hc with hc | hc
    · cases hc
    · exact absurd hc (by decide)

/-- The text of a member is shorter than the value of the field. -/
def Shortened (m : String × Scalar) (m' : String × Value) : Prop :=
  ∃ s u, m.2 = .text s ∧ m' = (m.1, .text u) ∧ u.toList.length < s.toList.length

/-- The text of a scalar stands for itself. -/
def PlainScalar (v : Scalar) : Prop := ∀ s, v = .text s → Plain s

/-- What a reader makes of a raw field. -/
lemma memberAt_raw {m : String × Scalar} {m' : String × Value} {c : Char} {more middle : List Char}
    (hname : Named m.1) (hc : ascii isDigit c = false) (h : MemberAt (rawMember m ++ c :: more) m' middle) :
    Shortened m m' ∨ (m' = (m.1, m.2.value) ∧ middle = c :: more ∧ PlainScalar m.2) ∨
      ∃ u, BodyAt (c :: more) u middle := by
  obtain ⟨afterKey, afterColon, ⟨body, hquote, key, hkey, hkeyName⟩, hcolon, hvalue⟩ := h
  have hbody : body = m.1.toList ++ '"' :: ':' :: (rawScalar m.2 ++ c :: more) := by
    rw [Token, rawMember, List.cons_append, strip_cons (by decide)] at hquote
    cases hquote
    simp
  subst hbody
  obtain ⟨rfl, rfl⟩ := bodyAt_plain hkey fun d hd => (named_plain (hname d hd)).1
  rw [Token, strip_cons (by decide)] at hcolon
  cases hcolon
  rw [String.ofList_toList] at hkeyName
  obtain ⟨name, v⟩ := m
  obtain ⟨name', v'⟩ := m'
  dsimp only at hkeyName hvalue
  subst hkeyName
  have hdigit : ∀ d ∈ (c :: more).head?, ¬ ascii isDigit d := by
    rintro d hd
    cases hd
    exact Bool.eq_false_iff.mp hc
  cases v with
  | number n =>
      have hwritten : ValueAt (rawScalar (.number n) ++ c :: more) (.number n) (c :: more) := by
        rw [rawScalar, itoa_eq]
        exact valueAt_jsonValue (v := .number n) trivial rfl hdigit
      obtain ⟨rfl, rfl⟩ := valueAt_unique hwritten hvalue
      exact Or.inr (Or.inl ⟨rfl, rfl, fun s hs => by cases hs⟩)
  | bool b =>
      have hwritten : ValueAt (rawScalar (.bool b) ++ c :: more) (.bool b) (c :: more) :=
        valueAt_jsonValue (v := .bool b) trivial rfl hdigit
      obtain ⟨rfl, rfl⟩ := valueAt_unique hwritten hvalue
      exact Or.inr (Or.inl ⟨rfl, rfl, fun s hs => by cases hs⟩)
  | text s =>
      have hraw : rawScalar (.text s) ++ c :: more = '"' :: (s.toList ++ '"' :: c :: more) := by
        simp [rawScalar]
      rw [hraw] at hvalue
      obtain ⟨out, hout, rfl⟩ := valueAt_quoted hvalue
      rcases bodyAt_between hout with hlt | ⟨rfl, rfl, hplain⟩ | hmore
      · exact Or.inl ⟨s, _, rfl, rfl, by rwa [String.toList_ofList]⟩
      · refine Or.inr (Or.inl ⟨by rw [String.ofList_toList]; rfl, rfl, ?_⟩)
        rintro s' hs'
        cases hs'
        exact hplain
      · exact Or.inr (Or.inr hmore)

/-! ## Objects -/

/-- The members of a raw object with their values. -/
def members (r : List (String × Scalar)) : List (String × Value) := r.map fun m => (m.1, m.2.value)

lemma not_bodyAt_brace {u rest : List Char} : ¬ BodyAt ['}'] u rest := fun h => by
  have hmem := bodyAt_mem_quote h
  exact absurd hmem (by decide)

/-- A string that begins with the comma after a field ends at the next name, after which there is
neither a comma nor a brace. -/
lemma not_token_of_comma {m : String × Scalar} {more u middle rest : List Char} {c : Char}
    (hname : Named m.1) (hbody : BodyAt (',' :: (rawMember m ++ more)) u middle)
    (htoken : Token c middle () rest) : c ≠ ',' ∧ c ≠ '}' := by
  have hmiddle : middle = m.1.toList ++ '"' :: ':' :: (rawScalar m.2 ++ more) := by
    cases hbody with
    | plain _ _ _ hbody =>
        rw [rawMember, List.cons_append] at hbody
        cases hbody with
        | close => simp
        | plain hquote => exact absurd rfl hquote
  subst hmiddle
  rcases hchars : m.1.toList with _ | ⟨d, ds⟩
  · rw [hchars, Token, List.nil_append, strip_cons (by decide)] at htoken
    cases htoken
    exact ⟨by decide, by decide⟩
  · obtain ⟨-, hspace, hcomma, hbrace⟩ := named_plain (hname d (hchars ▸ List.mem_cons_self))
    rw [hchars, Token, List.cons_append, strip_cons hspace] at htoken
    cases htoken
    exact ⟨hcomma, hbrace⟩

/-- The fields of a raw object as a reader sees them: those that were written, or one with a text
that is too short. -/
lemma fieldsAt_raw {r : List (String × Scalar)} {ms : List (String × Value)} {rest : List Char}
    (hnames : ∀ m ∈ r, Named m.1) (hne : r ≠ [])
    (h : FieldsAt (rawMembers r ++ ['}']) ms rest) :
    (∃ m ∈ r, ∃ m' ∈ ms, Shortened m m') ∨ (ms = members r ∧ ∀ m ∈ r, PlainScalar m.2) := by
  induction r generalizing ms with
  | nil => exact absurd rfl hne
  | cons m r ih =>
      have hname := hnames m List.mem_cons_self
      cases r with
      | nil =>
          have hinput : rawMembers [m] ++ ['}'] = rawMember m ++ '}' :: [] := by simp [rawMembers]
          rw [hinput] at h
          -- after the only field there is the brace, and no comma
          cases h with
          | last hmember hclose =>
              rcases memberAt_raw hname (by decide) hmember with hshort | ⟨rfl, rfl, hplain⟩ | ⟨u, hbody⟩
              · exact Or.inl ⟨m, List.mem_cons_self, _, List.mem_cons_self, hshort⟩
              · refine Or.inr ⟨rfl, fun m' hm' => ?_⟩
                rw [List.mem_singleton.mp hm']
                exact hplain
              · exact absurd hbody not_bodyAt_brace
          | more hmember hcomma =>
              rcases memberAt_raw hname (by decide) hmember with hshort | ⟨rfl, rfl, -⟩ | ⟨u, hbody⟩
              · exact Or.inl ⟨m, List.mem_cons_self, _, List.mem_cons_self, hshort⟩
              · rw [Token, strip_cons (by decide)] at hcomma
                cases hcomma
              · exact absurd hbody not_bodyAt_brace
      | cons m' r =>
          have hnext : ∃ more, rawMembers (m' :: r) ++ ['}'] = rawMember m' ++ more :=
            ⟨_, by rw [rawMembers, List.append_assoc]⟩
          obtain ⟨more, hmore⟩ := hnext
          have hname' := hnames m' (List.mem_cons_of_mem _ List.mem_cons_self)
          rw [rawMembers_cons_cons, List.append_assoc, List.cons_append] at h
          cases h with
          | last hmember hclose =>
              rcases memberAt_raw hname (by decide) hmember with hshort | ⟨rfl, rfl, -⟩ | ⟨u, hbody⟩
              · exact Or.inl ⟨m, List.mem_cons_self, _, List.mem_cons_self, hshort⟩
              · rw [Token, strip_cons (by decide)] at hclose
                cases hclose
              · rw [hmore] at hbody
                exact absurd rfl (not_token_of_comma hname' hbody hclose).2
          | more hmember hcomma htail =>
              rcases memberAt_raw hname (by decide) hmember with hshort | ⟨rfl, rfl, hplain⟩ | ⟨u, hbody⟩
              · exact Or.inl ⟨m, List.mem_cons_self, _, List.mem_cons_self, hshort⟩
              · rw [Token, strip_cons (by decide)] at hcomma
                cases hcomma
                rcases ih (fun m'' hm'' => hnames m'' (List.mem_cons_of_mem _ hm''))
                  (List.cons_ne_nil _ _) htail with ⟨m₁, hm₁, m₂, hm₂, hshort⟩ | ⟨rfl, hrest⟩
                · exact Or.inl ⟨m₁, List.mem_cons_of_mem _ hm₁, m₂, List.mem_cons_of_mem _ hm₂, hshort⟩
                · exact Or.inr ⟨rfl, List.forall_mem_cons.mpr ⟨hplain, hrest⟩⟩
              · rw [hmore] at hbody
                exact absurd rfl (not_token_of_comma hname' hbody hcomma).1

/-- A plain field is written as the standard has it. -/
lemma written_raw {m : String × Scalar} (hname : Named m.1) (hplain : PlainScalar m.2) :
    Written (rawMember m) (m.1, m.2.value) := by
  have hstring : ∀ s : String, Plain s → jsonString s = '"' :: (s.toList ++ ['"']) := by
    intro s hs
    have hchars : ∀ cs : List Char, (∀ c ∈ cs, PlainChar c) → cs.flatMap jsonChar = cs := by
      intro cs hcs
      induction cs with
      | nil => rfl
      | cons c cs ih =>
          obtain ⟨hquote, hslash, hcontrol⟩ := hcs c List.mem_cons_self
          rw [List.flatMap_cons, ih fun d hd => hcs d (List.mem_cons_of_mem _ hd), jsonChar,
            if_neg hquote, if_neg hslash, if_neg (Nat.not_le.mpr hcontrol), List.singleton_append]
    rw [jsonString, hchars _ hs]
  have hkey := hstring m.1 fun c hc => (named_plain (hname c hc)).1
  obtain ⟨name, v⟩ := m
  cases v with
  | number n => exact ⟨trivial, _, rfl, by simp [rawMember, rawScalar, jsonMember, hkey, itoa_eq]⟩
  | bool b => exact ⟨trivial, _, rfl, by simp [rawMember, rawScalar, jsonMember, hkey]⟩
  | text s =>
      exact ⟨trivial, _, rfl, by
        simp [rawMember, rawScalar, jsonMember, hkey, hstring s (hplain s rfl)]⟩

/-- The record of some fields has exactly these. -/
lemma exactly_record {outputConcept : Concept} {values : Dict String Value}
    {r : List (String × Scalar)} (hnames : r.map (·.1) = outputConcept.fields.map (·.name))
    (hlookups : ∀ m ∈ r, values.lookup m.1 = some m.2.value) :
    Exactly outputConcept values (LoadJson.record r) := by
  have hstep : ∀ (r : List (String × Scalar)) (d : Dict String Value),
      (∀ m ∈ r, values.lookup m.1 = some m.2.value) → ∀ key,
      (r.foldl (fun d m => Dict.insert d m.1 m.2.value) d).lookup key =
        if key ∈ r.map (·.1) then values.lookup key else d.lookup key := by
    intro r
    induction r with
    | nil => exact fun d _ key => by simp
    | cons m r ih =>
        intro d hr key
        rw [List.foldl_cons, ih _ (fun m' hm' => hr m' (List.mem_cons_of_mem _ hm')),
          Dict.lookup_insert, List.map_cons]
        by_cases hkey : key = m.1
        · subst hkey
          rw [if_pos rfl, if_pos List.mem_cons_self, hr m List.mem_cons_self, ite_self]
        · rw [if_neg hkey]
          simp only [List.mem_cons, hkey, false_or]
  intro key
  rw [← hnames]
  exact hstep r [] hlookups key

lemma newline_notMem_raw {r : List (String × Scalar)} (hnames : ∀ m ∈ r, Named m.1)
    (hplain : ∀ m ∈ r, PlainScalar m.2) : '\n' ∉ rawObject r := by
  have hmember : ∀ m ∈ r, '\n' ∉ rawMember m := by
    intro m hm hmem
    have hkey : '\n' ∉ m.1.toList := fun h =>
      absurd (named_plain (hnames m hm _ h)).1.2.2 (by decide)
    have hvalue : '\n' ∉ rawScalar m.2 := by
      rcases hscalar : m.2 with n | b | s
      · obtain ⟨-, c, cs, htext, hwhite, -⟩ := LoadJson.number_text n
        rw [rawScalar, itoa_eq, htext]
        exact fun h => absurd (hwhite _ h) (by decide)
      · cases b <;> decide
      · rw [rawScalar]
        intro h
        have hs : '\n' ∈ s.toList := by simpa using h
        exact absurd (hplain m hm s hscalar _ hs).2.2 (by decide)
    rw [rawMember] at hmem
    simp [hkey, hvalue] at hmem
  rw [rawObject_eq]
  cases r with
  | nil => decide
  | cons m ms =>
      have htail : ∀ m' ∈ ms, '\n' ∉ rawMember m' :=
        fun m' hm' => hmember m' (List.mem_cons_of_mem _ hm')
      simpa [rawMembers, hmember m List.mem_cons_self] using htail

lemma fieldScalars_plain {outputConcept : Concept} {values : Dict String Value}
    {r : List (String × Scalar)} (hnames : r.map (·.1) = outputConcept.fields.map (·.name))
    (hlookups : ∀ m ∈ r, values.lookup m.1 = some m.2.value) :
    PlainTexts outputConcept values ↔ ∀ m ∈ r, PlainScalar m.2 := by
  constructor
  · intro h m hm s hs
    have hmem : m.1 ∈ outputConcept.fields.map (·.name) := hnames ▸ List.mem_map_of_mem hm
    obtain ⟨decl, hdecl, hname⟩ := List.mem_map.mp hmem
    refine h decl hdecl s ?_
    rw [hname, hlookups m hm, hs]
    rfl
  · intro h decl hdecl s hs
    have hmem : decl.name ∈ r.map (·.1) := hnames ▸ List.mem_map_of_mem hdecl
    obtain ⟨m, hm, hname⟩ := List.mem_map.mp hmem
    rw [← hname, hlookups m hm, Option.some.injEq] at hs
    refine h m hm s ?_
    rcases hscalar : m.2 with n | b | s' <;> rw [hscalar] at hs <;> cases hs
    rfl

/-- A plain object is written as the standard has it. -/
lemma rawObject_eq_writeObject {r : List (String × Scalar)} (hnames : ∀ m ∈ r, Named m.1)
    (hplain : ∀ m ∈ r, PlainScalar m.2) : rawObject r = LoadJson.writeObject [] r := by
  have hescape : ∀ cs : List Char, (∀ c ∈ cs, PlainChar c) → cs.flatMap LoadJson.escapeChar = cs := by
    intro cs hcs
    induction cs with
    | nil => rfl
    | cons c cs ih =>
        obtain ⟨hquote, hslash, hcontrol⟩ := hcs c List.mem_cons_self
        have hne : ∀ d : Char, d.toNat ≤ 0x1f → c ≠ d := by
          rintro d hd rfl
          exact absurd hcontrol (Nat.not_lt.mpr hd)
        rw [List.flatMap_cons, ih fun d hd => hcs d (List.mem_cons_of_mem _ hd),
          LoadJson.escapeChar, if_neg hquote, if_neg hslash, if_neg (hne _ (by decide)),
          if_neg (hne _ (by decide)), if_neg (hne _ (by decide)),
          if_neg (Nat.not_le.mpr hcontrol), List.singleton_append]
  have hmember : ∀ m ∈ r, rawMember m = LoadJson.writeMember [] m := by
    intro m hm
    have hvalue : rawScalar m.2 = m.2.write := by
      rcases hscalar : m.2 with n | b | s
      · exact itoa_eq n
      · rfl
      · rw [rawScalar, Scalar.write, LoadJson.writeString, hescape _ (hplain m hm s hscalar)]
    rw [LoadJson.writeMember, LoadJson.writeString_name (hnames m hm), rawMember, hvalue]
    simp
  have hjoin : ∀ ts : List (List Char), LoadJson.join [] ts = [','].intercalate ts := by
    intro ts
    induction ts with
    | nil => rfl
    | cons t ts ih =>
        cases ts with
        | nil => simp [LoadJson.join, List.intercalate]
        | cons t' ts =>
            rw [LoadJson.join, ih]
            · simp [List.intercalate, List.intersperse]
            · exact List.cons_ne_nil _ _
  rw [rawObject, LoadJson.writeObject, hjoin, List.map_congr_left hmember]

section main

variable {ε : Type} (eval : ε → Value) {outputConcept : Concept}

lemma named_of_decls (hdecls : ∀ decl ∈ outputConcept.fields, Named decl.name)
    {r : List (String × Scalar)} (hnames : r.map (·.1) = outputConcept.fields.map (·.name)) :
    ∀ m ∈ r, Named m.1 := by
  intro m hm
  have hmem : m.1 ∈ outputConcept.fields.map (·.name) := hnames ▸ List.mem_map_of_mem hm
  obtain ⟨decl, hdecl, hname⟩ := List.mem_map.mp hmem
  exact hname ▸ hdecls decl hdecl

/-- A line reads back exactly if every text stands for itself. -/
lemma readsBack_iff (hdecls : ∀ decl ∈ outputConcept.fields, Named decl.name)
    {fields : List (String × ε)} {line : List Char}
    (h : emitRecordAsJson eval fields outputConcept = .ok line) :
    ReadsBack outputConcept (recordOf eval fields) line ↔
      outputConcept.fields ≠ [] ∧ (outputConcept.fields.map (·.name)).Nodup ∧
        PlainTexts outputConcept (recordOf eval fields) := by
  obtain ⟨r, -, hnames, hlookups, hempty, hline⟩ := line_of_emit eval h
  have hnil : r = [] ↔ outputConcept.fields = [] := by
    rw [← List.map_eq_nil_iff (f := (·.1)), hnames, List.map_eq_nil_iff]
  have hnamed := named_of_decls hdecls hnames
  rw [fieldScalars_plain hnames hlookups, ← hnames]
  constructor
  · rintro ⟨object, record, hobject, -, ⟨middle, hopen, hclose⟩, hexactly⟩
    have hne : r ≠ [] := by
      intro hr
      rw [hempty hr, show ['}', '\n'] = ['}'] ++ ['\n'] from rfl, List.append_cancel_right_eq]
        at hobject
      subst hobject
      rw [Token, strip_cons (by decide)] at hopen
      cases hopen
    rw [hline hne, List.append_cancel_right_eq] at hobject
    subst hobject
    rw [Token, rawObject_eq, strip_cons (by decide)] at hopen
    cases hopen
    refine ⟨fun hfields => hne (hnil.mpr hfields), ?_⟩
    rcases hclose with ⟨hclose, -⟩ | ⟨ms, hfields, hnodup, rfl⟩
    · obtain ⟨m, ms, rfl⟩ := List.exists_cons_of_ne_nil hne
      rw [Token, rawMembers, rawMember, List.append_assoc, List.cons_append,
        strip_cons (by decide)] at hclose
      cases hclose
    · rcases fieldsAt_raw hnamed hne hfields with ⟨m, hm, m', hm', s, u, hs, rfl, hlt⟩ | ⟨rfl, hplain⟩
      · -- the record has the short text where the text belongs
        have hmem : m.1 ∈ outputConcept.fields.map (·.name) := hnames ▸ List.mem_map_of_mem hm
        have hlookup := hexactly m.1
        rw [if_pos hmem, hlookups m hm, foldl_insert, List.append_nil,
          Dict.lookup_eq_some_of_nodup (by rw [List.map_reverse, List.nodup_reverse]; exact hnodup),
          List.mem_reverse, hs] at hlookup
        have hsame := List.inj_on_of_nodup_map hnodup hlookup hm' rfl
        cases hsame
        exact absurd hlt (lt_irrefl _)
      · refine ⟨?_, hplain⟩
        rw [members, List.map_map] at hnodup
        exact hnodup
  · rintro ⟨hne, hnodup, hplain⟩
    have hne : r ≠ [] := fun hr => hne (hnil.mp hr)
    refine ⟨rawObject r, LoadJson.record r, hline hne, newline_notMem_raw hnamed hplain,
      ⟨rawMembers r ++ ['}'], ?_, Or.inr ⟨members r, ?_, ?_, ?_⟩⟩,
      exactly_record hnames hlookups⟩
    · rw [Token, rawObject_eq, strip_cons (by decide)]
    · have hwritten : List.Forall₂ Written (r.map rawMember) (members r) := by
        rw [members, List.forall₂_map_left_iff, List.forall₂_map_right_iff, List.forall₂_same]
        exact fun m hm => written_raw (hnamed m hm) (hplain m hm)
      have hfields := fieldsAt_of_written hwritten (by simpa [members] using hne) []
      have hraw : rawObject r = '{' :: ([','].intercalate (r.map rawMember) ++ ['}']) := rfl
      rw [rawObject_eq, List.cons.injEq] at hraw
      rw [hraw.2]
      exact hfields
    · rw [members, List.map_map]
      exact hnodup
    · rw [members, List.foldl_map]
      rfl

/-- The lines of plain records, as what the reader of input records is given. -/
lemma lines_written (hdecls : ∀ decl ∈ outputConcept.fields, Named decl.name)
    (hne : outputConcept.fields ≠ []) {records : List (List (String × ε))}
    {lines : List (List Char)} {rs : List (List (String × Scalar))}
    (hlines : records.mapM (emitRecordAsJson eval · outputConcept) = .ok lines)
    (hrs : records.mapM (fun fields => fieldScalars (recordOf eval fields) outputConcept) = some rs)
    (hplain : ∀ fields ∈ records, PlainTexts outputConcept (recordOf eval fields)) :
    lines.map List.dropLast = rs.map (LoadJson.writeObject []) ∧
      List.Forall₂ (fun fields record => Exactly outputConcept (recordOf eval fields) record) records
        (rs.map LoadJson.record) := by
  induction records generalizing lines rs with
  | nil =>
      cases hlines
      cases hrs
      exact ⟨rfl, .nil⟩
  | cons fields records ih =>
      rw [List.mapM_cons, Except.bind_eq_ok] at hlines
      obtain ⟨line, hline, hlines⟩ := hlines
      obtain ⟨lines', hlines', hlines⟩ := Except.bind_eq_ok.mp hlines
      cases hlines
      obtain ⟨r, hr, hnames, hlookups, -, hobject⟩ := line_of_emit eval hline
      rw [List.mapM_cons, hr, Option.bind_eq_bind, Option.bind_some, Option.bind_eq_bind,
        Option.bind_eq_some_iff] at hrs
      obtain ⟨rs', hrs', hrs⟩ := hrs
      cases hrs
      obtain ⟨hwritten, hloaded⟩ := ih hlines' hrs'
        fun fields' hfields' => hplain fields' (List.mem_cons_of_mem _ hfields')
      have hr : r ≠ [] := by
        rintro rfl
        exact hne (List.map_eq_nil_iff.mp hnames.symm)
      have hplain := (fieldScalars_plain hnames hlookups).mp (hplain fields List.mem_cons_self)
      rw [List.map_cons, List.map_cons, List.map_cons, hobject hr, List.dropLast_concat, hwritten,
        rawObject_eq_writeObject (named_of_decls hdecls hnames) hplain]
      exact ⟨rfl, .cons (exactly_record hnames hlookups) hloaded⟩

/-- **A line of JSON.** A record that the native program writes is a JSON object on one line with
exactly the declared fields if and only if there are fields, they have distinct names, and no text
has a quote, a backslash or a control character. Lines of such records in an array are loaded as the
same records where every comma inside a text stands deeper than the ones between. -/
theorem record_line (hdecls : ∀ decl ∈ outputConcept.fields, Named decl.name) :
    (∀ (fields : List (String × ε)) (line : List Char),
      emitRecordAsJson eval fields outputConcept = .ok line →
      (ReadsBack outputConcept (recordOf eval fields) line ↔
        outputConcept.fields ≠ [] ∧ (outputConcept.fields.map (·.name)).Nodup ∧
          PlainTexts outputConcept (recordOf eval fields))) ∧
    ∀ (records : List (List (String × ε))) (lines : List (List Char))
      (rs : List (List (String × Scalar))),
      records.mapM (emitRecordAsJson eval · outputConcept) = .ok lines →
      records.mapM (fun fields => fieldScalars (recordOf eval fields) outputConcept) = some rs →
      outputConcept.fields ≠ [] →
      (∀ fields ∈ records, PlainTexts outputConcept (recordOf eval fields)) →
      LoadJson.Readable [] rs →
      ∃ loaded, LoadJson.parseJsonArray (wrap lines) = .ok loaded ∧
        List.Forall₂ (fun fields record => Exactly outputConcept (recordOf eval fields) record)
          records loaded := by
  refine ⟨fun fields line h => readsBack_iff eval hdecls h, ?_⟩
  intro records lines rs hlines hrs hne hplain hreadable
  obtain ⟨hwritten, hloaded⟩ := lines_written eval hdecls hne hlines hrs hplain
  refine ⟨rs.map LoadJson.record, ?_, hloaded⟩
  rw [wrap, hwritten]
  exact LoadJson.parseJsonArray_write (fun c hc => nomatch hc) hreadable

end main

/-- A concept with one text. -/
def note : Concept := { name := "Note", fields := [{ name := "t", ty := .text }] }

lemma note_named : ∀ decl ∈ note.fields, Named decl.name := by
  intro decl hdecl
  rw [List.mem_singleton.mp hdecl]
  decide

lemma note_plain : PlainTexts note (recordOf id [("t", .text "[a,b]")]) := by
  intro decl hdecl s hs
  rw [List.mem_singleton.mp hdecl] at hs
  cases hs
  decide

/-- A text without quotes, backslashes and control characters, with a comma between brackets. -/
theorem record_line_plain :
    ReadsBack note (recordOf id [("t", .text "[a,b]")]) "\x7b\"t\":\"[a,b]\"\x7d\n".toList ∧
    ∃ loaded, LoadJson.parseJsonArray (wrap ["\x7b\"t\":\"[a,b]\"\x7d\n".toList]) = .ok loaded ∧
      List.Forall₂ (fun fields record => Exactly note (recordOf id fields) record)
        [[("t", .text "[a,b]")]] loaded := by
  have h := record_line id note_named
  constructor
  · exact (h.1 [("t", .text "[a,b]")] _ rfl).mpr ⟨by decide, by decide, note_plain⟩
  · refine h.2 _ _ [[("t", .text "[a,b]")]] rfl rfl (by decide) ?_ ⟨by decide, fun r hr => ?_⟩
    · intro fields hfields
      rw [List.mem_singleton.mp hfields]
      exact note_plain
    · rw [List.mem_singleton.mp hr]
      refine ⟨by decide, fun m hm => ?_⟩
      rw [List.mem_singleton.mp hm]
      exact ⟨by decide, by decide⟩

/-- A text with a quote ends early. -/
theorem record_line_quote :
    ¬ ∀ (outputConcept : Concept) (fields : List (String × Value)) (line : List Char),
      (∀ decl ∈ outputConcept.fields, Named decl.name) →
      emitRecordAsJson id fields outputConcept = .ok line →
      ReadsBack outputConcept (recordOf id fields) line := by
  intro h
  have hread := h note [("t", .text "a\"b")] _ note_named rfl
  obtain ⟨-, -, hplain⟩ := (readsBack_iff id note_named rfl).mp hread
  exact (hplain _ List.mem_cons_self "a\"b" rfl '"' (by decide)).1 rfl

end Verbosec.Native.RecordJson
