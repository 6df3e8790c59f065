import Verbosec.Execution.InputSound
import Mathlib.Data.List.Dedup
import Mathlib.Data.List.Sort

/-!
# Writing execution input

* `jsonString`, `jsonValue` - the writer of the execution output.
* `writeRecords` - an array of records.
* `valueAt_jsonValue` - what is written for a flat value is that value of the grammar.
* `parse_sound` - the scanner accepts exactly the documents of the grammar, fails on the others with
  an error at a byte, and reads a written array as its records.

Source: `interpreter/execution.rs`, `json_string` and `json_value`.
-/

namespace Verbosec.Execution.Input

open Verbosec.Interpreter Verbosec.Lib

/-! ## The writer -/

/-- A number below 2^16 in four hexadecimal digits. Source: the format `{:04x}` -/
def hex4 (n : Nat) : List Char :=
  [n / 4096 % 16, n / 256 % 16, n / 16 % 16, n % 16].map Nat.digitChar

/-- A character of a string. Source: `execution.rs`, `json_string` -/
def jsonChar (c : Char) : List Char :=
  if c = '"' then ['\\', '"']
  else if c = '\\' then ['\\', '\\']
  else if c.toNat ≤ 0x1f then '\\' :: 'u' :: hex4 c.toNat
  else [c]

/-- A string. Source: `execution.rs`, `json_string` -/
def jsonString (s : String) : List Char := '"' :: (s.toList.flatMap jsonChar ++ ['"'])

/-- A key and its written value. Source: `execution.rs`, the loop of `json_value` -/
def jsonMember (key : String) (value : List Char) : List Char := jsonString key ++ ':' :: value

/-- The keys of a map in order. Source: `execution.rs`, `json_value` -/
def sortedKeys {α : Type} (fields : List (String × α)) : List String :=
  (fields.map (·.1)).dedup.mergeSort (· ≤ ·)

/-- The members of an object from its written values. Source: `execution.rs`, `json_value` -/
def jsonMembers (fields : List (String × Option (List Char))) : Option (List (List Char)) :=
  (sortedKeys fields).mapM fun key => (fields.lookup key).join.map (jsonMember key)

mutual

/-- A value; none where the writer reports an unsupported result. Source: `execution.rs`,
`json_value` -/
def jsonValue : Value → Option (List Char)
  | .number n => some (decimal n).toList
  | .bool b => some (boolText b).toList
  | .text s => some (jsonString s)
  | .record fields =>
      (jsonMembers (jsonFields fields)).map fun members =>
        '{' :: ([','].intercalate members ++ ['}'])
  | .boundsError => none
  | .bytes _ => none
  | .list _ => none
  | .ok _ => none
  | .err _ => none
  | .variant _ _ _ => none

/-- The values of an object, each with its key. -/
def jsonFields : List (String × Value) → List (String × Option (List Char))
  | [] => []
  | (key, value) :: fields => (key, jsonValue value) :: jsonFields fields

end

/-- An array of records. -/
def writeRecords (records : List (Dict String Value)) : Option (List Char) :=
  (records.mapM fun record => jsonValue (.record record)).map fun texts =>
    '[' :: ([','].intercalate texts ++ [']'])

/-- A value of execution input. -/
def Flat : Value → Prop
  | .number _ | .bool _ | .text _ => True
  | _ => False

/-! ## Strings -/

lemma strip_cons {c : Char} (h : ascii isSpace c = false) (rest : List Char) :
    strip (c :: rest) = c :: rest := by
  simp [strip, h]

lemma asciiBind_digitChar {d : Nat} (h : d < 16) :
    asciiBind hexDigit (Nat.digitChar d) = some d := by
  have hall : ∀ d < 16, asciiBind hexDigit (Nat.digitChar d) = some d := by decide
  exact hall d h

lemma hexAt_hex4 {n : Nat} (h : n < 65536) (rest : List Char) : HexAt 4 0 (hex4 n ++ rest) n rest := by
  refine ⟨_, _, n / 4096 % 16, rfl, asciiBind_digitChar (Nat.mod_lt _ (by decide)),
    _, _, n / 256 % 16, rfl, asciiBind_digitChar (Nat.mod_lt _ (by decide)),
    _, _, n / 16 % 16, rfl, asciiBind_digitChar (Nat.mod_lt _ (by decide)),
    _, _, n % 16, rfl, asciiBind_digitChar (Nat.mod_lt _ (by decide)), ?_, rfl⟩
  omega

lemma bodyAt_cons {c : Char} {input s rest : List Char} (h : BodyAt input s rest) :
    BodyAt (jsonChar c ++ input) (c :: s) rest := by
  rw [jsonChar]
  split_ifs with hquote hslash hcontrol
  · subst hquote
    exact .escape (.inl ⟨'"', rfl, by decide⟩) h
  · subst hslash
    exact .escape (.inl ⟨'\\', rfl, by decide⟩) h
  · have hhigh : ¬ High c.toNat := fun hhigh => by
      have := hhigh.1
      omega
    exact .escape (.inr ⟨_, c.toNat, rfl,
      ⟨c.toNat, input, hexAt_hex4 (by omega) input, .inl ⟨hhigh, rfl, rfl⟩⟩, c.valid,
      (Char.ofNat_toNat c).symm⟩) h
  · exact .plain hquote (by omega) hslash h

lemma bodyAt_flatMap (s rest : List Char) :
    BodyAt (s.flatMap jsonChar ++ '"' :: rest) s rest := by
  induction s with
  | nil => exact .close
  | cons c s ih =>
      rw [List.flatMap_cons, List.append_assoc]
      exact bodyAt_cons ih

/-- A written string is that string. -/
lemma stringAt_jsonString (s : String) (rest : List Char) :
    StringAt (jsonString s ++ rest) s rest := by
  refine ⟨s.toList.flatMap jsonChar ++ '"' :: rest, ?_, s.toList, bodyAt_flatMap _ _, ?_⟩
  · rw [jsonString, List.cons_append, List.append_assoc]
    exact strip_cons (by decide) _
  · exact String.ofList_toList.symm

/-! ## Numbers -/

lemma ascii_of_isDigit {c : Char} (h : c.isDigit) : ascii isDigit c ∧ digit? c = some (c.toNat - 48) := by
  simp only [Char.isDigit, Bool.and_eq_true, decide_eq_true_eq, ge_iff_le] at h
  have hlow : 48 ≤ c.toNat := h.1
  have hhigh : c.toNat ≤ 57 := h.2
  refine ⟨?_, if_pos ⟨hlow, hhigh⟩⟩
  have hbyte : c.toNat.toUInt8.toNat = c.toNat := by
    simp only [Nat.toUInt8, UInt8.toNat_ofNat']
    omega
  simp only [ascii, isDigit, UInt8.le_iff_toNat_le, hbyte, Bool.and_eq_true, decide_eq_true_eq]
  exact ⟨by omega, hlow, hhigh⟩

lemma digits?_of_isDigit {l : List Char} (hne : l ≠ []) (h : ∀ c ∈ l, c.isDigit) :
    digits? l = some (Nat.ofDigitChars 10 l 0) := by
  have hfold : ∀ (l : List Char) (init : Nat), (∀ c ∈ l, c.isDigit) →
      l.foldlM (fun n c => (digit? c).map (10 * n + ·)) init =
        some (Nat.ofDigitChars 10 l init) := by
    intro l
    induction l with
    | nil => intro init _; simp
    | cons c l ih =>
        intro init hl
        rw [List.foldlM_cons, (ascii_of_isDigit (hl c (List.mem_cons_self ..))).2,
          Nat.ofDigitChars_cons]
        exact ih _ fun c' hc' => hl c' (List.mem_cons_of_mem _ hc')
  cases l with
  | nil => exact absurd rfl hne
  | cons c l => exact hfold (c :: l) 0 h

lemma head?_toDigits {n : Nat} (h : 0 < n) : (Nat.toDigits 10 n).head? ≠ some '0' := by
  induction n using Nat.strongRecOn with
  | ind n ih =>
      by_cases hlt : n < 10
      · have hall : ∀ n < 10, 0 < n → [Nat.digitChar n].head? ≠ some '0' := by decide
        rw [Nat.toDigits_of_lt_base hlt]
        exact hall n hlt h
      · have hdiv : 0 < n / 10 := by omega
        rw [Nat.toDigits_of_base_le (by decide) (by omega)]
        have hne := ih (n / 10) (by omega) hdiv
        obtain ⟨c, l, hl⟩ := List.exists_cons_of_ne_nil (Nat.toDigits_ne_nil (n := n / 10) (b := 10))
        rw [hl] at hne ⊢
        exact hne

lemma toDigits_text (m : Nat) : Nat.toDigits 10 m ≠ [] ∧
    (∀ c ∈ Nat.toDigits 10 m, c.isDigit) ∧
    (1 < (Nat.toDigits 10 m).length → (Nat.toDigits 10 m).head? ≠ some '0') ∧
    digits? (Nat.toDigits 10 m) = some m := by
  have hdigits : ∀ c ∈ Nat.toDigits 10 m, c.isDigit :=
    fun c hc => Nat.isDigit_of_mem_toDigits (by decide) (by decide) hc
  refine ⟨Nat.toDigits_ne_nil, hdigits, fun hlen => head?_toDigits ?_, ?_⟩
  · by_contra hzero
    rw [Nat.eq_zero_of_not_pos hzero, Nat.toDigits_zero] at hlen
    exact absurd hlen (by decide)
  · rw [digits?_of_isDigit Nat.toDigits_ne_nil hdigits, Nat.ofDigitChars_ten_toDigits]

/-- A written number is that number. -/
lemma numberText_decimal (n : Int64) : NumberText (decimal n).toList n := by
  have hdecimal : (decimal n).toList = n.toInt.repr.toList := rfl
  rw [hdecimal]
  rcases hn : n.toInt with m | m
  · obtain ⟨hne, hdigits, hzero, hvalue⟩ := toDigits_text m
    have htext : (Int.ofNat m).repr.toList = Nat.toDigits 10 m := Nat.toList_repr
    rw [htext]
    refine ⟨_, .inl rfl, hne, fun c hc => (ascii_of_isDigit (hdigits c hc)).1, hzero, ?_⟩
    obtain ⟨c, l, hl⟩ := List.exists_cons_of_ne_nil hne
    have hc := hdigits c (hl ▸ List.mem_cons_self ..)
    have hparse : parseI64 (Nat.toDigits 10 m) =
        (digits? (Nat.toDigits 10 m)).bind fun n => toI64? n := by
      rw [hl, parseI64]
      · rintro ds hds
        cases hds
        exact absurd hc (by decide)
      · rintro ds hds
        cases hds
        exact absurd hc (by decide)
    rw [hparse, hvalue, Option.bind_some, toI64?_eq_some]
    exact hn
  · obtain ⟨hne, hdigits, hzero, hvalue⟩ := toDigits_text (m + 1)
    have htext : (Int.negSucc m).repr.toList = '-' :: Nat.toDigits 10 (m + 1) := by
      rw [Int.repr, String.toList_append, Nat.toList_repr]
      rfl
    rw [htext]
    refine ⟨_, .inr rfl, hne, fun c hc => (ascii_of_isDigit (hdigits c hc)).1, hzero, ?_⟩
    rw [parseI64, hvalue, Option.bind_some, toI64?_eq_some, hn]
    rfl

/-! ## Values -/

lemma strip_of_head? {input : List Char} {c : Char} (h : input.head? = some c)
    (hc : ascii isSpace c = false) : strip input = input := by
  obtain ⟨rest, rfl⟩ := List.head?_eq_some_iff.mp h
  exact strip_cons hc rest

lemma not_isSpace_of_isDigit {c : Char} (h : ascii isDigit c) : ascii isSpace c = false := by
  simp only [ascii, isDigit, Bool.and_eq_true, decide_eq_true_eq, UInt8.le_iff_toNat_le] at h
  have hlow : 48 ≤ c.toNat.toUInt8.toNat := h.2.1
  have hne : ∀ n : UInt8, n.toNat < 48 → c.toNat.toUInt8 ≠ n := by
    intro n hn heq
    rw [heq] at hlow
    omega
  simp [ascii, isSpace, hne 32 (by decide), hne 13 (by decide), hne 10 (by decide),
    hne 9 (by decide)]

/-- A written flat value is that value. -/
lemma valueAt_jsonValue {v : Value} {t rest : List Char} (hflat : Flat v) (ht : jsonValue v = some t)
    (hrest : ∀ c ∈ rest.head?, ¬ ascii isDigit c) : ValueAt (t ++ rest) v rest := by
  cases v with
  | number n =>
      cases ht
      have hnumber := numberText_decimal n
      obtain ⟨c, hhead, hc⟩ := hnumber.head?
      refine .inr (.inr (.inr ⟨_, n, strip_of_head? (hhead rest) ?_, hnumber, hrest, rfl⟩))
      rcases hc with rfl | hc
      · decide
      · exact not_isSpace_of_isDigit hc
  | bool b =>
      cases ht
      cases b with
      | true => exact .inr (.inl ⟨strip_cons (by decide) _, rfl⟩)
      | false => exact .inr (.inr (.inl ⟨strip_cons (by decide) _, rfl⟩))
  | text s =>
      cases ht
      exact .inl ⟨s, stringAt_jsonString s rest, rfl⟩
  | _ => cases hflat

/-! ## Objects -/

/-- The text of a member with a flat value. -/
def Written (t : List Char) (m : String × Value) : Prop :=
  Flat m.2 ∧ ∃ value, jsonValue m.2 = some value ∧ t = jsonMember m.1 value

lemma memberAt_of_written {t : List Char} {m : String × Value} {c : Char} {rest : List Char}
    (h : Written t m) (hc : ascii isDigit c = false) :
    MemberAt (t ++ c :: rest) m (c :: rest) := by
  obtain ⟨hflat, value, hvalue, rfl⟩ := h
  refine ⟨':' :: (value ++ c :: rest), value ++ c :: rest, ?_, strip_cons (by decide) _,
    valueAt_jsonValue hflat hvalue ?_⟩
  · rw [jsonMember, List.append_assoc, List.cons_append]
    exact stringAt_jsonString m.1 _
  · rintro c' hc'
    cases hc'
    exact Bool.eq_false_iff.mp hc

lemma intercalate_cons_cons (t t' : List Char) (texts : List (List Char)) (rest : List Char) :
    [','].intercalate (t :: t' :: texts) ++ rest =
      t ++ ',' :: ([','].intercalate (t' :: texts) ++ rest) := by
  simp [List.intercalate, List.intersperse]

lemma intercalate_singleton (t : List Char) : [','].intercalate [t] = t := by
  simp [List.intercalate, List.intersperse]

lemma fieldsAt_of_written {texts : List (List Char)} {ms : List (String × Value)}
    (h : List.Forall₂ Written texts ms) (hne : ms ≠ []) (rest : List Char) :
    FieldsAt ([','].intercalate texts ++ '}' :: rest) ms rest := by
  induction h with
  | nil => exact absurd rfl hne
  | @cons t m texts ms hm htail ih =>
      cases htail with
      | nil =>
          rw [intercalate_singleton]
          exact .last (memberAt_of_written hm (by decide)) (strip_cons (by decide) _)
      | cons hm' htail' =>
          rw [intercalate_cons_cons]
          exact .more (memberAt_of_written hm (by decide)) (strip_cons (by decide) _)
            (ih (List.cons_ne_nil _ _))

/-- A record of execution input. -/
def FlatRecord (record : Dict String Value) : Prop :=
  ∀ key v, record.lookup key = some v → Flat v

lemma exists_jsonValue {v : Value} (h : Flat v) : ∃ t, jsonValue v = some t := by
  cases v with
  | number n => exact ⟨_, rfl⟩
  | bool b => exact ⟨_, rfl⟩
  | text s => exact ⟨_, rfl⟩
  | _ => cases h

lemma lookup_jsonFields (fields : List (String × Value)) (key : String) :
    (jsonFields fields).lookup key = (fields.lookup key).map jsonValue := by
  induction fields with
  | nil => rfl
  | cons m fields ih =>
      rw [jsonFields, List.lookup_cons, List.lookup_cons, ih]
      cases key == m.1 <;> rfl

lemma map_fst_jsonFields (fields : List (String × Value)) :
    (jsonFields fields).map (·.1) = fields.map (·.1) := by
  induction fields with
  | nil => rfl
  | cons m fields ih => rw [jsonFields, List.map_cons, List.map_cons, ih]

lemma nodup_sortedKeys {α : Type} (fields : List (String × α)) : (sortedKeys fields).Nodup :=
  (List.mergeSort_perm _ _).nodup_iff.mpr (List.nodup_dedup _)

lemma mem_sortedKeys {α : Type} {fields : Dict String α} {key : String} :
    key ∈ sortedKeys fields ↔ ∃ v, fields.lookup key = some v := by
  rw [sortedKeys, (List.mergeSort_perm _ _).mem_iff, List.mem_dedup]
  constructor
  · intro hmem
    by_contra hnone
    have hlookup : fields.lookup key = none :=
      Option.eq_none_iff_forall_ne_some.mpr fun v hv => hnone ⟨v, hv⟩
    obtain ⟨m, hm, rfl⟩ := List.mem_map.mp hmem
    exact absurd (List.lookup_eq_none_iff.mp hlookup m hm) (by simp)
  · rintro ⟨v, hv⟩
    exact List.mem_map.mpr ⟨(key, v), Dict.mem_of_lookup hv, rfl⟩

/-- The members of a flat record are written. -/
lemma exists_written {record : Dict String Value} (hflat : FlatRecord record) (keys : List String)
    (hkeys : ∀ key ∈ keys, ∃ v, record.lookup key = some v) :
    ∃ texts ms, keys.mapM (fun key =>
        ((jsonFields record).lookup key).join.map (jsonMember key)) = some texts ∧
      List.Forall₂ Written texts ms ∧ ms.map (·.1) = keys ∧
      ∀ m ∈ ms, record.lookup m.1 = some m.2 := by
  induction keys with
  | nil => exact ⟨[], [], rfl, .nil, rfl, fun _ hm => nomatch hm⟩
  | cons key keys ih =>
      obtain ⟨v, hv⟩ := hkeys key (List.mem_cons_self ..)
      obtain ⟨texts, ms, hmap, hwritten, hfst, hlookup⟩ :=
        ih fun key' hkey' => hkeys key' (List.mem_cons_of_mem _ hkey')
      obtain ⟨t, ht⟩ := exists_jsonValue (hflat key v hv)
      refine ⟨jsonMember key t :: texts, (key, v) :: ms, ?_,
        .cons ⟨hflat key v hv, t, ht, rfl⟩ hwritten, by rw [List.map_cons, hfst], ?_⟩
      · rw [List.mapM_cons, hmap, lookup_jsonFields, hv, Option.map_some, ht]
        rfl
      · rintro m hm
        rcases List.mem_cons.mp hm with rfl | hm
        · exact hv
        · exact hlookup m hm

/-- Two maps with the same entries. -/
def SameRecord (record record' : Dict String Value) : Prop :=
  ∀ key, record.lookup key = record'.lookup key

lemma foldl_insert (ms : List (String × Value)) (sofar : Dict String Value) :
    ms.foldl (fun d m => Dict.insert d m.1 m.2) sofar = ms.reverse ++ sofar := by
  induction ms generalizing sofar with
  | nil => rfl
  | cons m ms ih => rw [List.foldl_cons, ih, List.reverse_cons, List.append_assoc]; rfl

/-- A written record is that record. -/
lemma exists_objectAt {record : Dict String Value} (hflat : FlatRecord record) :
    ∃ t record', jsonValue (.record record) = some t ∧ SameRecord record record' ∧
      ∀ rest, ObjectAt (t ++ rest) record' rest := by
  have hkeys : ∀ key, key ∈ sortedKeys (jsonFields record) ↔ ∃ v, record.lookup key = some v := by
    intro key
    rw [← mem_sortedKeys, sortedKeys, sortedKeys, map_fst_jsonFields]
  obtain ⟨texts, ms, hmap, hwritten, hfst, hlookup⟩ :=
    exists_written hflat (sortedKeys (jsonFields record)) fun key => (hkeys key).mp
  have hnodup : (ms.map (·.1)).Nodup := hfst ▸ nodup_sortedKeys _
  refine ⟨'{' :: ([','].intercalate texts ++ ['}']),
    ms.foldl (fun d m => Dict.insert d m.1 m.2) [], ?_, fun key => ?_, fun rest => ?_⟩
  · rw [jsonValue, jsonMembers, hmap]
    rfl
  · rw [foldl_insert, List.append_nil]
    have hnodup' : (ms.reverse.map (·.1)).Nodup := by
      rw [List.map_reverse, List.nodup_reverse]
      exact hnodup
    refine Option.ext fun v => ?_
    rw [Dict.lookup_eq_some_of_nodup hnodup', List.mem_reverse]
    constructor
    · intro hv
      have hmem : key ∈ ms.map (·.1) := hfst ▸ (hkeys key).mpr ⟨v, hv⟩
      obtain ⟨m, hm, rfl⟩ := List.mem_map.mp hmem
      rw [hlookup m hm] at hv
      cases hv
      exact hm
    · exact fun hm => hlookup _ hm
  · refine ⟨[','].intercalate texts ++ '}' :: rest, ?_, ?_⟩
    · rw [List.cons_append, List.append_assoc]
      exact strip_cons (by decide) _
    · cases hwritten with
      | nil => exact .inl ⟨strip_cons (by decide) _, rfl⟩
      | cons hm htail =>
          exact .inr ⟨_, fieldsAt_of_written (.cons hm htail) (List.cons_ne_nil _ _) rest, hnodup,
            rfl⟩

/-! ## Documents -/

lemma recordsAt_of_objectAt {texts : List (List Char)} {records : List (Dict String Value)}
    (h : List.Forall₂ (fun t record => ∀ rest, ObjectAt (t ++ rest) record rest) texts records)
    (hne : records ≠ []) :
    RecordsAt ([','].intercalate texts ++ [']']) records [] := by
  induction h with
  | nil => exact absurd rfl hne
  | @cons t record texts records hrecord htail ih =>
      cases htail with
      | nil =>
          rw [intercalate_singleton]
          exact .last (hrecord _) (strip_cons (by decide) _)
      | cons hrecord' htail' =>
          rw [intercalate_cons_cons]
          exact .more (hrecord _) (strip_cons (by decide) _) (ih (List.cons_ne_nil _ _))

/-- A written array is a document, of the same records. -/
lemma exists_document {records : List (Dict String Value)} (hflat : ∀ r ∈ records, FlatRecord r) :
    ∃ t records', writeRecords records = some t ∧ List.Forall₂ SameRecord records records' ∧
      Document t records' := by
  have hall : ∃ texts records', records.mapM (fun record => jsonValue (.record record)) = some texts ∧
      List.Forall₂ SameRecord records records' ∧
      List.Forall₂ (fun t record => ∀ rest, ObjectAt (t ++ rest) record rest) texts records' := by
    induction records with
    | nil => exact ⟨[], [], rfl, .nil, .nil⟩
    | cons record records ih =>
        obtain ⟨texts, records', hmap, hsame, hobjects⟩ :=
          ih fun r hr => hflat r (List.mem_cons_of_mem _ hr)
        obtain ⟨t, record', ht, hrecord, hobject⟩ :=
          exists_objectAt (hflat record (List.mem_cons_self ..))
        refine ⟨t :: texts, record' :: records', ?_, .cons hrecord hsame, .cons hobject hobjects⟩
        rw [List.mapM_cons, ht, hmap]
        rfl
  obtain ⟨texts, records', hmap, hsame, hobjects⟩ := hall
  refine ⟨'[' :: ([','].intercalate texts ++ [']']), records', by rw [writeRecords, hmap]; rfl, hsame,
    [','].intercalate texts ++ [']'], [], strip_cons (by decide) _, ?_, rfl⟩
  cases hobjects with
  | nil => exact .inl ⟨strip_cons (by decide) _, rfl⟩
  | cons hobject htail =>
      exact .inr (recordsAt_of_objectAt (.cons hobject htail) (List.cons_ne_nil _ _))

/-- Execution input is read exactly where it is an array of flat objects with distinct keys, as the
records it denotes; every other text is refused with an error at a byte, without a panic. An array
written from flat records is read as these records. -/
theorem parse_sound (text : String) :
    (∀ records, parse text = .ok records ↔ Document text.toList records) ∧
    (∀ stop, parse text = .error stop → ∃ position message, stop = .error position message) ∧
    ∀ records : List (Dict String Value), (∀ record ∈ records, FlatRecord record) →
      ∃ t records', writeRecords records = some t ∧ parse (String.ofList t) = .ok records' ∧
        List.Forall₂ SameRecord records records' := by
  have hiff : ∀ text records, parse text = .ok records ↔ Document text.toList records := by
    intro text records
    rcases parse_cases text with ⟨records', hparse, hdoc⟩ | ⟨⟨position, message, hparse⟩, hdoc⟩
    · rw [hparse, hdoc, Except.ok.injEq]
      exact eq_comm
    · rw [hparse]
      exact ⟨fun h => (nomatch h), fun h => absurd h (hdoc records)⟩
  refine ⟨hiff text, fun stop hstop => ?_, fun records hflat => ?_⟩
  · rcases parse_cases text with ⟨records', hparse, -⟩ | ⟨⟨position, message, hparse⟩, -⟩
    · rw [hparse] at hstop
      cases hstop
    · rw [hparse] at hstop
      cases hstop
      exact ⟨position, message, rfl⟩
  · obtain ⟨t, records', ht, hsame, hdoc⟩ := exists_document hflat
    refine ⟨t, records', ht, (hiff _ _).mpr ?_, hsame⟩
    rwa [String.toList_ofList]

/-- One record with a quoted comma and the least integer. -/
theorem parse_sound_comma :
    ∃ t records', writeRecords [[("a", .text "x,\"y"), ("b", .number Int64.minValue)]] = some t ∧
      parse (String.ofList t) = .ok records' ∧
      List.Forall₂ SameRecord [[("a", .text "x,\"y"), ("b", .number Int64.minValue)]] records' := by
  refine (parse_sound "[]").2.2 _ ?_
  intro record hrecord key v hv
  rw [List.mem_singleton.mp hrecord] at hv
  have hmem := Dict.mem_of_lookup hv
  simp only [List.mem_cons, Prod.mk.injEq, List.not_mem_nil, or_false] at hmem
  rcases hmem with ⟨-, rfl⟩ | ⟨-, rfl⟩
  · exact trivial
  · exact trivial

end Verbosec.Execution.Input
