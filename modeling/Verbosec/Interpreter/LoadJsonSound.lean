import Verbosec.Interpreter.LoadJson
import Verbosec.Execution.InputWrite

/-!
# What is read back from an input

* `pieces_join` - texts between commas are found where no comma of theirs is at depth zero and they
  end there.
* `unescape_escape` - the escapes of a string.
* `parseJsonValue_write`, `parseObject_write`, `load_readable` - a scalar, an object and a list of
  records are read back.
* `load_splits` - a text with a comma.

Brackets and commas count inside strings as they do outside, so a text decides where its record
ends.
-/

namespace Verbosec.Interpreter.LoadJson

open Verbosec.Lib

/-! ## White space at the ends -/

/-- Only white space. -/
def Blank (cs : List Char) : Prop := ∀ c ∈ cs, isWhiteSpace c

lemma trimChars_append {p t : List Char} (hp : Blank p) : trimChars (p ++ t) = trimChars t := by
  rw [trimChars, List.dropWhile_append_of_pos hp, trimChars]

/-- A text with neither end blank is trimmed. -/
lemma trimChars_of_ends {a b : Char} {t : List Char} (ha : isWhiteSpace a = false)
    (hb : isWhiteSpace b = false) : trimChars (a :: (t ++ [b])) = a :: (t ++ [b]) := by
  rw [trimChars, List.dropWhile_cons_of_neg (by simp [ha]), ← List.cons_append,
    List.reverse_append, List.reverse_singleton, List.singleton_append,
    List.dropWhile_cons_of_neg (by simp [hb]), List.reverse_cons, List.reverse_reverse]

/-! ## Pieces -/

variable {step : Char → Int} {pad : List Char}

/-- A text without commas at depth zero belongs to one piece. -/
lemma pieces_inside {depth : Int} {t : List Char} (h : Inside step depth t)
    (current rest : List Char) :
    pieces step depth current (t ++ rest) =
      pieces step (depth + depthAfter step t) (current ++ t) rest := by
  induction t generalizing depth current with
  | nil => simp [depthAfter]
  | cons c t ih =>
      obtain ⟨hcomma, hrest⟩ := h
      rw [List.cons_append, pieces, if_neg fun hc => hcomma hc.1 hc.2, ih hrest]
      simp [depthAfter, add_assoc]

/-- White space changes no depth. -/
lemma inside_blank (hstep : ∀ c, isWhiteSpace c → step c = 0) (hpad : Blank pad) :
    Inside step 0 pad ∧ depthAfter step pad = 0 := by
  induction pad with
  | nil => exact ⟨trivial, rfl⟩
  | cons c pad ih =>
      have hc := hpad c List.mem_cons_self
      obtain ⟨hinside, hdepth⟩ := ih fun d hd => hpad d (List.mem_cons_of_mem _ hd)
      have hzero := hstep c hc
      refine ⟨⟨fun hcomma => ?_, ?_⟩, ?_⟩
      · rw [hcomma] at hc
        exact absurd hc (by decide)
      · rw [hzero, add_zero]
        exact hinside
      · rw [depthAfter, List.map_cons, List.sum_cons, hzero, zero_add]
        exact hdepth

/-- **Texts between commas are the pieces**, white space at their ends aside. -/
lemma pieces_join (hstep : ∀ c, isWhiteSpace c → step c = 0) (hpad : Blank pad)
    {ts : List (List Char)} (hne : ts ≠ []) (hsep : Separated step ts)
    (htrim : ∀ t ∈ ts, trimChars t = t) {current : List Char} (hcurrent : Blank current) :
    (pieces step 0 current (join pad ts)).map trimChars = ts := by
  induction ts generalizing current with
  | nil => exact absurd rfl hne
  | cons t ts ih =>
      have hfirst : trimChars (current ++ t) = t := by
        rw [trimChars_append hcurrent, htrim t List.mem_cons_self]
      cases ts with
      | nil =>
          have hpieces := pieces_inside (t := t) hsep current []
          rw [List.append_nil] at hpieces
          rw [join, hpieces, pieces, List.map_singleton, hfirst]
      | cons t' ts =>
          obtain ⟨hinside, hdepth, hrest⟩ := hsep
          obtain ⟨hblank, hzero⟩ := inside_blank hstep hpad
          have hnext := ih (List.cons_ne_nil _ _) hrest
            (fun u hu => htrim u (List.mem_cons_of_mem _ hu)) hpad
          rw [join, pieces_inside hinside, hdepth, zero_add, pieces, if_pos ⟨rfl, rfl⟩,
            pieces_inside hblank, hzero, List.map_cons, hfirst, zero_add, List.nil_append, hnext]
          exact List.cons_ne_nil _ _

lemma braceStep_blank (c : Char) (h : isWhiteSpace c) : braceStep c = 0 := by
  unfold braceStep
  split
  · rename_i hc
    exact absurd h (by rw [hc]; decide)
  · split
    · rename_i hc
      exact absurd h (by rw [hc]; decide)
    · rfl

lemma bracketStep_blank (c : Char) (h : isWhiteSpace c) : bracketStep c = 0 := by
  unfold bracketStep
  split
  · rename_i hc
    rcases hc with hc | hc <;> exact absurd h (by rw [hc]; decide)
  · split
    · rename_i hc
      rcases hc with hc | hc <;> exact absurd h (by rw [hc]; decide)
    · rfl

/-- The pieces of an object are its members. -/
lemma splitJsonTopLevel_join (hpad : Blank pad) {ts : List (List Char)}
    (hsep : Separated bracketStep ts) (htrim : ∀ t ∈ ts, trimChars t = t ∧ t ≠ []) :
    (splitJsonTopLevel (join pad ts)).map trimChars = ts := by
  cases ts with
  | nil => rfl
  | cons t ts =>
      have hempty : Blank [] := fun c hc => by cases hc
      have hpieces := pieces_join bracketStep_blank hpad (List.cons_ne_nil t ts) hsep
        (fun u hu => (htrim u hu).1) hempty
      have hlast : trimChars ((pieces bracketStep 0 [] (join pad (t :: ts))).getLastD []) ≠ [] := by
        have hget : trimChars ((pieces bracketStep 0 [] (join pad (t :: ts))).getLastD []) =
            ((pieces bracketStep 0 [] (join pad (t :: ts))).map trimChars).getLastD [] := by
          rw [List.getLastD_eq_getLast?, List.getLastD_eq_getLast?, List.getLast?_map]
          cases (pieces bracketStep 0 [] (join pad (t :: ts))).getLast? <;> rfl
        rw [hget, hpieces, List.getLastD_eq_getLast?, List.getLast?_eq_some_getLast
          (List.cons_ne_nil t ts)]
        exact (htrim _ (List.getLast_mem _)).2
      rw [splitJsonTopLevel, if_neg hlast, hpieces]

/-! ## Scalars -/

lemma unescape_cons {c : Char} (h : c ≠ '\\') (cs : List Char) :
    unescape (c :: cs) = c :: unescape cs := by
  rw [unescape.eq_def]
  split <;> simp_all

/-- A text without backslashes is its own content. -/
lemma unescape_of_not_mem {cs : List Char} (h : '\\' ∉ cs) : unescape cs = cs := by
  induction cs with
  | nil => rw [unescape]
  | cons c cs ih =>
      rw [List.mem_cons, not_or] at h
      rw [unescape_cons (Ne.symm h.1), ih h.2]

lemma unescapeJsonString_eq (body : List Char) : unescapeJsonString body = unescape body := by
  unfold unescapeJsonString
  split
  · rfl
  · rename_i h
    exact (unescape_of_not_mem h).symm

/-- An escape is read as its character. -/
lemma unescape_escapeChar {c : Char} (h : 0x1f < c.toNat ∨ c = '\n' ∨ c = '\r' ∨ c = '\t')
    (cs : List Char) : unescape (escapeChar c ++ cs) = c :: unescape cs := by
  unfold escapeChar
  split
  · rename_i hc
    rw [hc]
    rfl
  · split
    · rename_i hc
      rw [hc]
      rfl
    · rename_i hbackslash
      rcases h with hprint | rfl | rfl | rfl
      · have hcontrol : ∀ d : Char, d.toNat ≤ 0x1f → c ≠ d := by
          rintro d hd rfl
          omega
        rw [if_neg (hcontrol _ (by decide)), if_neg (hcontrol _ (by decide)),
          if_neg (hcontrol _ (by decide)), if_neg (by omega)]
        exact unescape_cons hbackslash cs
      · rfl
      · rfl
      · rfl

/-- **A string is read back.** -/
lemma unescape_escape {s : String} (h : (Scalar.text s).Spelled) :
    unescape (s.toList.flatMap escapeChar) = s.toList := by
  simp only [Scalar.Spelled] at h
  generalize s.toList = cs at h ⊢
  induction cs with
  | nil => rw [List.flatMap_nil, unescape]
  | cons c cs ih =>
      rw [List.flatMap_cons, unescape_escapeChar (h c List.mem_cons_self),
        ih fun d hd => h d (List.mem_cons_of_mem _ hd)]

/-- A digit is neither white space nor the first character of another scalar. -/
lemma digit_plain {c : Char} (h : Execution.Input.ascii Execution.Input.isDigit c) :
    isWhiteSpace c = false ∧ c ∉ ['t', 'f', '"', '[', '{'] := by
  have hrange : 48 ≤ c.toNat ∧ c.toNat ≤ 57 := by
    simp only [Execution.Input.ascii, Execution.Input.isDigit, Bool.and_eq_true,
      decide_eq_true_eq, UInt8.le_iff_toNat_le] at h
    obtain ⟨hlt, hlow, hhigh⟩ := h
    have hbyte : c.toNat.toUInt8.toNat = c.toNat := by
      rw [Nat.toUInt8, UInt8.toNat_ofNat']
      omega
    rw [hbyte] at hlow hhigh
    exact ⟨hlow, hhigh⟩
  constructor
  · simp only [isWhiteSpace, Bool.or_eq_false_iff, Bool.and_eq_false_iff, decide_eq_false_iff_not]
    omega
  · intro hmem
    simp only [List.mem_cons, List.not_mem_nil, or_false] at hmem
    rcases hmem with rfl | rfl | rfl | rfl | rfl <;> exact absurd hrange (by decide)

/-- A number is written without white space, and not like another scalar. -/
lemma number_text (n : Int64) :
    parseI64 (decimal n).toList = some n ∧
      ∃ c cs, (decimal n).toList = c :: cs ∧ (∀ d ∈ c :: cs, isWhiteSpace d = false) ∧
        c ∉ ['t', 'f', '"', '[', '{'] := by
  obtain ⟨digits, ht, hne, hdigits, -, hparse⟩ := Execution.Input.numberText_decimal n
  obtain ⟨d, ds, rfl⟩ := List.exists_cons_of_ne_nil hne
  have hdigit : ∀ c ∈ d :: ds, isWhiteSpace c = false ∧ c ∉ ['t', 'f', '"', '[', '{'] :=
    fun c hc => digit_plain (hdigits c hc)
  refine ⟨hparse, ?_⟩
  rcases ht with ht | ht
  · exact ⟨d, ds, ht, fun c hc => (hdigit c hc).1, (hdigit d List.mem_cons_self).2⟩
  · refine ⟨'-', d :: ds, ht, ?_, by decide⟩
    intro c hc
    rcases List.mem_cons.mp hc with rfl | hrest
    · decide
    · exact (hdigit c hrest).1

/-- Text that begins and ends with quotes. -/
lemma enclosed_cons (a b : Char) (t : List Char) : enclosed a b (a :: (t ++ [b])) = true := by
  simp [enclosed, List.getLast?_cons]

lemma inner_cons (a b : Char) (t : List Char) : inner (a :: (t ++ [b])) = t := by
  rw [inner, List.tail_cons, List.dropLast_concat]

/-- What is not begun by a character is not enclosed in it. -/
lemma not_enclosed {a b c : Char} {cs : List Char} (h : c ≠ a) :
    enclosed a b (c :: cs) = false := by
  simp [enclosed, h]

/-- A text without white space is trimmed. -/
lemma trimChars_of_all {t : List Char} (h : ∀ c ∈ t, isWhiteSpace c = false) : trimChars t = t := by
  have hdrop : ∀ u : List Char, (∀ c ∈ u, isWhiteSpace c = false) →
      u.dropWhile isWhiteSpace = u := by
    intro u hu
    cases u with
    | nil => rfl
    | cons c u => exact List.dropWhile_cons_of_neg (by simp [hu c List.mem_cons_self])
  rw [trimChars, hdrop t h, hdrop _ fun c hc => h c (List.mem_reverse.mp hc), List.reverse_reverse]

/-- A written scalar is trimmed. -/
lemma trimChars_write (v : Scalar) : trimChars v.write = v.write := by
  cases v with
  | number n =>
      obtain ⟨-, c, cs, htext, hwhite, -⟩ := number_text n
      rw [Scalar.write, htext]
      exact trimChars_of_all hwhite
  | bool b => cases b <;> decide
  | text s => exact trimChars_of_ends (by decide) (by decide)

/-- **A scalar is read back.** -/
lemma parseJsonValue_write {v : Scalar} (h : v.Spelled) (fuel : Nat) :
    parseJsonValue (fuel + 1) v.write = .ok v.value := by
  rw [parseJsonValue]
  simp only [trimChars_write]
  cases v with
  | number n =>
      obtain ⟨hparse, c, cs, htext, -, hfirst⟩ := number_text n
      simp only [List.mem_cons, List.not_mem_nil, or_false, not_or] at hfirst
      obtain ⟨ht, hf, hquote, hsquare, hbrace⟩ := hfirst
      have htrue : (decimal n).toList ≠ "true".toList := by
        rw [htext]
        exact fun heq => ht (List.cons.inj heq).1
      have hfalse : (decimal n).toList ≠ "false".toList := by
        rw [htext]
        exact fun heq => hf (List.cons.inj heq).1
      simp only [Scalar.write, if_neg htrue, if_neg hfalse, hparse]
      rw [htext, not_enclosed hquote, not_enclosed hsquare, not_enclosed hbrace]
      rfl
  | bool b => cases b <;> rfl
  | text s =>
      have hquote : enclosed '"' '"' (writeString s) ∧ 2 ≤ (writeString s).length := by
        refine ⟨enclosed_cons _ _ _, ?_⟩
        simp [writeString]
      have htrue : writeString s ≠ "true".toList := fun heq => by cases heq
      have hfalse : writeString s ≠ "false".toList := fun heq => by cases heq
      rw [show (Scalar.text s).write = writeString s from rfl, if_neg htrue, if_neg hfalse,
        if_pos hquote, writeString, inner_cons, unescapeJsonString_eq, unescape_escape h, String.ofList_toList]
      rfl

/-! ## Records -/

/-- A name has no escape and no white space. -/
lemma named_char {c : Char} (h : c.isAlphanum ∨ c = '_') :
    escapeChar c = [c] ∧ isWhiteSpace c = false ∧ c ≠ ':' ∧ c ≠ '"' := by
  have hrange : (48 ≤ c.toNat ∧ c.toNat ≤ 57) ∨ (65 ≤ c.toNat ∧ c.toNat ≤ 90) ∨
      c.toNat = 95 ∨ (97 ≤ c.toNat ∧ c.toNat ≤ 122) := by
    rcases h with halpha | rfl
    · have halpha : (decide (65 ≤ c.val ∧ c.val ≤ 90) || decide (97 ≤ c.val) && decide (c.val ≤ 122))
          || decide (48 ≤ c.val) && decide (c.val ≤ 57) := halpha
      simp only [Bool.or_eq_true, Bool.and_eq_true, decide_eq_true_eq,
        UInt32.le_iff_toNat_le] at halpha
      have htoNat : c.val.toNat = c.toNat := rfl
      simp only [htoNat] at halpha
      rcases halpha with (hupper | hlower) | hdigit
      · exact Or.inr (Or.inl hupper)
      · exact Or.inr (Or.inr (Or.inr hlower))
      · exact Or.inl hdigit
    · exact Or.inr (Or.inr (Or.inl rfl))
  have hne : ∀ d : Char, ¬ ((48 ≤ d.toNat ∧ d.toNat ≤ 57) ∨ (65 ≤ d.toNat ∧ d.toNat ≤ 90) ∨
      d.toNat = 95 ∨ (97 ≤ d.toNat ∧ d.toNat ≤ 122)) → c ≠ d := by
    rintro d hd rfl
    exact hd hrange
  refine ⟨?_, ?_, hne _ (by decide), hne _ (by decide)⟩
  · unfold escapeChar
    rw [if_neg (hne _ (by decide)), if_neg (hne _ (by decide)), if_neg (hne _ (by decide)),
      if_neg (hne _ (by decide)), if_neg (hne _ (by decide)), if_neg (by omega)]
  · simp only [isWhiteSpace, Bool.or_eq_false_iff, Bool.and_eq_false_iff, decide_eq_false_iff_not]
    omega

/-- A name is written between quotes. -/
lemma writeString_name {name : String} (h : Named name) :
    writeString name = '"' :: (name.toList ++ ['"']) := by
  have hescape : ∀ cs : List Char, (∀ c ∈ cs, c.isAlphanum ∨ c = '_') →
      cs.flatMap escapeChar = cs := by
    intro cs hcs
    induction cs with
    | nil => rfl
    | cons c cs ih =>
        rw [List.flatMap_cons, (named_char (hcs c List.mem_cons_self)).1,
          ih fun d hd => hcs d (List.mem_cons_of_mem _ hd), List.singleton_append]
  rw [writeString, hescape _ h]

/-- The name between quotes. -/
lemma trimQuotes_name {name : String} (h : Named name) :
    trimQuotes ('"' :: (name.toList ++ ['"'])) = name.toList := by
  have hdrop : ∀ u : List Char, (∀ c ∈ u, c ≠ '"') → u.dropWhile (· = '"') = u := by
    intro u hu
    cases u with
    | nil => rfl
    | cons c u => exact List.dropWhile_cons_of_neg (by simpa using hu c List.mem_cons_self)
  have hplain : ∀ c ∈ name.toList, c ≠ '"' := fun c hc => (named_char (h c hc)).2.2.2
  have hfront : ('"' :: (name.toList ++ ['"'])).dropWhile (· = '"') =
      name.toList ++ ['"'] ∨ name.toList = [] := by
    cases hname : name.toList with
    | nil => exact Or.inr rfl
    | cons c cs =>
        have hc : c ≠ '"' := hplain c (by rw [hname]; exact List.mem_cons_self)
        rw [List.dropWhile_cons_of_pos (by simp), List.cons_append,
          List.dropWhile_cons_of_neg (by simpa using hc)]
        exact Or.inl rfl
  rcases hfront with hfront | hempty
  · rw [trimQuotes, hfront, List.reverse_append, List.reverse_singleton, List.singleton_append,
      List.dropWhile_cons_of_pos (by simp), hdrop _ fun c hc => hplain c (List.mem_reverse.mp hc),
      List.reverse_reverse]
  · rw [hempty]
    rfl

/-- The last character of a scalar is not blank. -/
lemma write_last (v : Scalar) : ∃ t b, v.write = t ++ [b] ∧ isWhiteSpace b = false := by
  cases v with
  | number n =>
      obtain ⟨-, c, cs, htext, hwhite, -⟩ := number_text n
      refine ⟨(c :: cs).dropLast, (c :: cs).getLast (List.cons_ne_nil _ _), ?_,
        hwhite _ (List.getLast_mem _)⟩
      rw [Scalar.write, htext, List.dropLast_append_getLast]
  | bool b => cases b <;> exact ⟨_, 'e', (List.dropLast_append_getLast (by decide)).symm, by decide⟩
  | text s => exact ⟨'"' :: s.toList.flatMap escapeChar, '"', rfl, by decide⟩

/-- A written field is trimmed. -/
lemma trimChars_writeMember (m : String × Scalar) :
    trimChars (writeMember pad m) = writeMember pad m := by
  obtain ⟨t, b, htext, hb⟩ := write_last m.2
  have hends : writeMember pad m =
      '"' :: ((m.1.toList.flatMap escapeChar ++ '"' :: ':' :: (pad ++ t)) ++ [b]) := by
    simp [writeMember, writeString, htext]
  rw [hends]
  exact trimChars_of_ends (by decide) hb

/-- **A field is read back.** -/
lemma parsePair_write (hpad : Blank pad) {m : String × Scalar} (hname : Named m.1)
    (hspelled : m.2.Spelled) (fuel : Nat) (fields : Dict String Value) :
    parsePair (parseJsonValue (fuel + 1)) fields (writeMember pad m) =
      .ok (fields.insert m.1 m.2.value) := by
  have hplain : ∀ c ∈ writeString m.1, (decide (c ≠ ':')) = true := by
    rw [writeString_name hname]
    intro c hc
    rw [decide_eq_true_eq]
    rcases List.mem_cons.mp hc with rfl | hc
    · decide
    · rcases List.mem_append.mp hc with hc | hc
      · exact (named_char (hname c hc)).2.2.1
      · rw [List.mem_singleton.mp hc]
        decide
  have hcolon : ':' ∈ writeMember pad m := List.mem_append_right _ List.mem_cons_self
  have hkey : (writeMember pad m).takeWhile (· ≠ ':') = writeString m.1 := by
    rw [writeMember, List.takeWhile_append_of_pos hplain,
      List.takeWhile_cons_of_neg (by simp), List.append_nil]
  have hvalue : ((writeMember pad m).dropWhile (· ≠ ':')).tail = pad ++ m.2.write := by
    rw [writeMember, List.dropWhile_append_of_pos hplain, List.dropWhile_cons_of_neg (by simp),
      List.tail_cons]
  have hne : writeMember pad m ≠ [] := List.ne_nil_of_mem hcolon
  have htrim : trimChars (writeString m.1) = writeString m.1 :=
    trimChars_of_ends (by decide) (by decide)
  simp only [parsePair, trimChars_writeMember, if_neg hne, if_pos hcolon, hkey, hvalue, htrim,
    trimChars_append hpad, trimChars_write, parseJsonValue_write hspelled]
  rw [writeString_name hname, trimQuotes_name hname, String.ofList_toList]
  rfl

/-- Only what is between the white space of a field matters. -/
lemma parsePair_trim {value : List Char → Except JsonError Value} {fields : Dict String Value}
    {t pair : List Char} (h : trimChars pair = t) (ht : trimChars t = t) :
    parsePair value fields pair = parsePair value fields t := by
  simp only [parsePair, h, ht]

/-- The fields of a record are read one after the other. -/
lemma foldlM_parsePair (hpad : Blank pad) (fuel : Nat) {r : List (String × Scalar)}
    (hr : ∀ m ∈ r, Named m.1 ∧ m.2.Spelled) {parts : List (List Char)}
    (hparts : parts.map trimChars = r.map (writeMember pad)) (fields : Dict String Value) :
    parts.foldlM (parsePair (parseJsonValue (fuel + 1))) fields =
      .ok (r.foldl (fun d m => d.insert m.1 m.2.value) fields) := by
  induction r generalizing parts fields with
  | nil =>
      rw [List.map_nil, List.map_eq_nil_iff] at hparts
      rw [hparts]
      rfl
  | cons m r ih =>
      obtain ⟨pair, parts, rfl, hpair, hrest⟩ := List.map_eq_cons_iff.mp hparts
      obtain ⟨hname, hspelled⟩ := hr m List.mem_cons_self
      rw [List.foldlM_cons, parsePair_trim hpair (trimChars_writeMember m),
        parsePair_write hpad hname hspelled]
      exact ih (fun m' hm' => hr m' (List.mem_cons_of_mem _ hm')) hrest _

/-- **A record is read back.** -/
lemma parseJsonObject_write (hpad : Blank pad) {r : List (String × Scalar)}
    (hsep : Separated bracketStep (r.map (writeMember pad)))
    (hr : ∀ m ∈ r, Named m.1 ∧ m.2.Spelled) :
    parseJsonObject (writeObject pad r) = .ok (record r) := by
  have htrim : trimChars (writeObject pad r) = writeObject pad r :=
    trimChars_of_ends (by decide) (by decide)
  have hmembers : ∀ t ∈ r.map (writeMember pad), trimChars t = t ∧ t ≠ [] := by
    intro t ht
    obtain ⟨m, -, rfl⟩ := List.mem_map.mp ht
    exact ⟨trimChars_writeMember m, List.ne_nil_of_mem (List.mem_append_right _ List.mem_cons_self)⟩
  have hclosed : enclosed '{' '}' (writeObject pad r) = true := enclosed_cons _ _ _
  have hinner : inner (writeObject pad r) = join pad (r.map (writeMember pad)) := inner_cons _ _ _
  simp only [parseJsonObject, parseObject, htrim, hclosed, hinner, if_true]
  exact foldlM_parsePair hpad _ hr (splitJsonTopLevel_join hpad hsep hmembers) []

/-- Records are read one after the other. -/
lemma mapM_parseJsonObject (hpad : Blank pad) {rs : List (List (String × Scalar))}
    (h : ∀ r ∈ rs, Separated bracketStep (r.map (writeMember pad)) ∧
      ∀ m ∈ r, Named m.1 ∧ m.2.Spelled) :
    (rs.map (writeObject pad)).mapM parseJsonObject = .ok (rs.map record) := by
  induction rs with
  | nil => rfl
  | cons r rs ih =>
      obtain ⟨hsep, hr⟩ := h r List.mem_cons_self
      rw [List.map_cons, List.mapM_cons, parseJsonObject_write hpad hsep hr,
        ih fun r' hr' => h r' (List.mem_cons_of_mem _ hr')]
      rfl

/-- The standard text of readable records is loaded as these records. -/
lemma parseJsonArray_write {pad : List Char} {rs : List (List (String × Scalar))} (hpad : Blank pad)
    (h : Readable pad rs) : parseJsonArray (writeArray pad rs) = .ok (rs.map record) := by
  obtain ⟨hsep, hrecords⟩ := h
  have htrim : trimChars (writeArray pad rs) = writeArray pad rs :=
    trimChars_of_ends (by decide) (by decide)
  have hclosed : enclosed '[' ']' (writeArray pad rs) = true := enclosed_cons _ _ _
  have hinner : inner (writeArray pad rs) = join pad (rs.map (writeObject pad)) := inner_cons _ _ _
  have hchunks : (((pieces braceStep 0 [] (join pad (rs.map (writeObject pad)))).map
      trimChars).filter (· ≠ [])) = rs.map (writeObject pad) := by
    by_cases hne : rs = []
    · rw [hne]
      rfl
    · have hempty : Blank [] := fun c hc => by cases hc
      have hobjects : ∀ t ∈ rs.map (writeObject pad), trimChars t = t ∧ t ≠ [] := by
        intro t ht
        obtain ⟨r, -, rfl⟩ := List.mem_map.mp ht
        exact ⟨trimChars_of_ends (by decide) (by decide), List.cons_ne_nil _ _⟩
      rw [pieces_join braceStep_blank hpad (by simpa using hne) hsep
        (fun t ht => (hobjects t ht).1) hempty, List.filter_eq_self]
      exact fun t ht => by simpa using (hobjects t ht).2
  simp only [parseJsonArray, htrim, hclosed, hinner, if_true, hchunks]
  exact mapM_parseJsonObject hpad hrecords

/-- **Readable records are read back.** -/
theorem load_readable (pad : List Char) (rs : List (List (String × Scalar))) (hpad : Blank pad)
    (h : Readable pad rs) : parseJsonArray (writeArray pad rs) = .ok (rs.map record) :=
  parseJsonArray_write hpad h

/-- A text with a brace and a comma inside it. -/
theorem load_readable_braces :
    parseJsonArray (writeArray [' '] [[("t", .text "{,}"), ("on", .bool true)]]) =
      .ok [record [("t", .text "{,}"), ("on", .bool true)]] := by
  refine load_readable [' '] _ (fun c hc => ?_) ⟨by decide, fun r hr => ?_⟩
  · rw [List.mem_singleton.mp hc]
    decide
  · rw [List.mem_singleton.mp hr]
    refine ⟨by decide, fun m hm => ?_⟩
    rcases List.mem_cons.mp hm with rfl | hm
    · exact ⟨by decide, by decide⟩
    · rw [List.mem_singleton.mp hm]
      exact ⟨by decide, trivial⟩

/-- A text with a comma is torn in two. -/
theorem load_splits :
    ¬ ∀ (pad : List Char) (rs : List (List (String × Scalar))), Blank pad →
      parseJsonArray (writeArray pad rs) = .ok (rs.map record) := by
  intro h
  have hread := h [] [[("t", .text "a,b")]] fun c hc => by cases hc
  cases hread

end Verbosec.Interpreter.LoadJson
