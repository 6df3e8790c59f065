import Verbosec.Execution.InputGrammar
import Mathlib.Data.List.DropRight

/-!
# Positions in execution input

* `At text position rest` - the position is the first byte of `rest`, where `rest` ends `text`.
* `sliceFrom_of_at`, `byteAt_of_at`, `At.skip` - what the scanner sees there.
* `Reads` - a scan succeeds exactly on the texts of a relation, and fails with an error on the
  others.
* `Reads.bind`, `Reads.of_iff` - how the scans of parts make the scan of a whole.
-/

namespace Verbosec.Execution.Input

open Verbosec.Interpreter Verbosec.Lib

/-! ## Bytes -/

@[simp] lemma asBytes_nil : asBytes [] = [] := rfl

@[simp] lemma asBytes_cons (c : Char) (text : List Char) :
    asBytes (c :: text) = String.utf8EncodeChar c ++ asBytes text := rfl

@[simp] lemma asBytes_append (s t : List Char) : asBytes (s ++ t) = asBytes s ++ asBytes t :=
  List.flatMap_append

lemma length_le_length_asBytes (text : List Char) : text.length ≤ (asBytes text).length := by
  induction text with
  | nil => exact Nat.le_refl 0
  | cons c text ih =>
      have := c.utf8Size_pos
      simp only [List.length_cons, asBytes_cons, List.length_append, String.length_utf8EncodeChar]
      omega

/-- A character in the range of ASCII is its byte. -/
lemma utf8EncodeChar_of_lt {c : Char} (h : c.toNat < 128) :
    String.utf8EncodeChar c = [c.toNat.toUInt8] := by
  have hle : c.val.toNat ≤ 0x7f := Nat.le_of_lt_succ h
  simp only [String.utf8EncodeChar, hle, if_true]
  rfl

lemma utf8Size_of_lt {c : Char} (h : c.toNat < 128) : c.utf8Size = 1 := by
  rw [← String.length_utf8EncodeChar, utf8EncodeChar_of_lt h, List.length_singleton]

/-- The first byte of a character outside the range of ASCII is outside it too. -/
lemma utf8EncodeChar_of_le {c : Char} (h : 128 ≤ c.toNat) :
    ∃ b bs, String.utf8EncodeChar c = b :: bs ∧ 128 ≤ b.toNat := by
  have hnot : ¬ c.val.toNat ≤ 0x7f := Nat.not_le_of_lt h
  simp only [String.utf8EncodeChar, hnot, if_false]
  split_ifs
  · refine ⟨_, _, rfl, ?_⟩
    simp
    omega
  · refine ⟨_, _, rfl, ?_⟩
    simp
    omega
  · refine ⟨_, _, rfl, ?_⟩
    simp
    omega

/-! ## Positions -/

/-- The position is the first byte of `rest`, where `rest` ends the text. -/
def At (text : List Char) (position : Nat) (rest : List Char) : Prop :=
  ∃ before, text = before ++ rest ∧ position = (asBytes before).length

section At

variable {text input rest : List Char} {position : Nat}

lemma At.start : At text 0 text := ⟨[], rfl, rfl⟩

lemma At.append {s : List Char} (h : At text position (s ++ rest)) :
    At text (position + (asBytes s).length) rest := by
  obtain ⟨before, rfl, rfl⟩ := h
  exact ⟨before ++ s, by simp, by simp⟩

lemma At.cons {c : Char} (h : At text position (c :: rest)) :
    At text (position + c.utf8Size) rest := by
  simpa using h.append (s := [c])

lemma At.cons_of_lt {c : Char} (h : At text position (c :: rest)) (hc : c.toNat < 128) :
    At text (position + 1) rest := utf8Size_of_lt hc ▸ h.cons

lemma At.length_add (h : At text position rest) :
    position + (asBytes rest).length = (asBytes text).length := by
  obtain ⟨before, rfl, rfl⟩ := h
  simp

lemma At.length_le (h : At text position rest) : rest.length ≤ (asBytes text).length := by
  have := length_le_length_asBytes rest
  have := h.length_add
  omega

lemma sliceFrom_length (before rest : List Char) :
    sliceFrom (before ++ rest) (asBytes before).length = some rest := by
  induction before with
  | nil => cases rest <;> rfl
  | cons c before ih =>
      have hpos := c.utf8Size_pos
      obtain ⟨n, hn⟩ : ∃ n, c.utf8Size + (asBytes before).length = n + 1 :=
        ⟨c.utf8Size + (asBytes before).length - 1, by omega⟩
      rw [asBytes_cons, List.length_append, String.length_utf8EncodeChar, hn, List.cons_append,
        sliceFrom, if_pos (by omega), ← hn, Nat.add_sub_cancel_left, ih]

/-- The slice from the position of a rest is the rest. -/
lemma sliceFrom_of_at (h : At text position rest) : sliceFrom text position = some rest := by
  obtain ⟨before, rfl, rfl⟩ := h
  exact sliceFrom_length before rest

/-- The byte at the position of a rest is its first one. -/
lemma byteAt_of_at (h : At text position rest) :
    Reader.byteAt text position = (asBytes rest).head? := by
  obtain ⟨before, rfl, rfl⟩ := h
  rw [Reader.byteAt, asBytes_append, List.getElem?_append_right (Nat.le_refl _), Nat.sub_self,
    List.head?_eq_getElem?]

/-- What a function of ASCII bytes gives on the byte at a position. -/
lemma byteAt_bind {α : Type} {f : UInt8 → Option α} (hf : ∀ b, 128 ≤ b.toNat → f b = none)
    (h : At text position rest) :
    (Reader.byteAt text position).bind f = rest.head?.bind (asciiBind f) := by
  rw [byteAt_of_at h]
  cases rest with
  | nil => rfl
  | cons c rest =>
      by_cases hc : c.toNat < 128
      · simp [utf8EncodeChar_of_lt hc, asciiBind, hc]
      · obtain ⟨b, bs, hb, hle⟩ := utf8EncodeChar_of_le (Nat.le_of_not_lt hc)
        simp [hb, asciiBind, hc, hf b hle]

lemma toUInt8_inj {c d : Char} (hc : c.toNat < 128) (hd : d.toNat < 128) :
    c.toNat.toUInt8 = d.toNat.toUInt8 ↔ c = d := by
  refine ⟨fun h => ?_, fun h => h ▸ rfl⟩
  have h := congrArg UInt8.toNat h
  simp only [Nat.toUInt8, UInt8.toNat_ofNat'] at h
  exact Char.toNat_inj.mp (by omega)

/-- The byte at a position is a character in the range of ASCII exactly where that character is. -/
lemma byteAt_eq_some {c : Char} (hc : c.toNat < 128) (h : At text position rest) :
    Reader.byteAt text position = some c.toNat.toUInt8 ↔ rest.head? = some c := by
  rw [byteAt_of_at h]
  cases rest with
  | nil => simp
  | cons d rest =>
      by_cases hd : d.toNat < 128
      · simp [utf8EncodeChar_of_lt hd, toUInt8_inj hd hc]
      · obtain ⟨b, bs, hb, hle⟩ := utf8EncodeChar_of_le (Nat.le_of_not_lt hd)
        have hne : d ≠ c := fun heq => hd (heq ▸ hc)
        have hb' : b ≠ c.toNat.toUInt8 := by
          rintro rfl
          simp only [Nat.toUInt8, UInt8.toNat_ofNat'] at hle
          omega
        simp [hb, hne, hb']

lemma takeWhile_asBytes {p : UInt8 → Bool} (hp : ∀ b, 128 ≤ b.toNat → p b = false)
    (input : List Char) :
    (asBytes input).takeWhile p = asBytes (input.takeWhile (ascii p)) := by
  induction input with
  | nil => rfl
  | cons c input ih =>
      by_cases hc : c.toNat < 128
      · by_cases hpc : p c.toNat.toUInt8
        · simp [utf8EncodeChar_of_lt hc, ascii, hc, hpc, ih]
        · simp [utf8EncodeChar_of_lt hc, ascii, hc, hpc]
      · obtain ⟨b, bs, hb, hle⟩ := utf8EncodeChar_of_le (Nat.le_of_not_lt hc)
        simp [hb, ascii, hc, hp b hle]

/-- Bytes are skipped as characters are. -/
lemma At.skip {p : UInt8 → Bool} (hp : ∀ b, 128 ≤ b.toNat → p b = false)
    (h : At text position input) :
    At text (Reader.skip text p position) (input.dropWhile (ascii p)) := by
  have hdrop : (asBytes text).drop position = asBytes input := by
    obtain ⟨before, rfl, rfl⟩ := h
    rw [asBytes_append, List.drop_left]
  rw [Reader.skip, hdrop, takeWhile_asBytes hp]
  exact At.append (by rwa [List.takeWhile_append_dropWhile])

lemma At.space (h : At text position input) :
    At text (Reader.space text position) (strip input) := by
  refine h.skip fun b hb => ?_
  have hne : ∀ n : UInt8, n.toNat < 128 → b ≠ n := by
    rintro n hn rfl
    omega
  simp [isSpace, hne 32 (by decide), hne 13 (by decide), hne 10 (by decide), hne 9 (by decide)]

end At

/-! ## Scans -/

/-- The scan succeeds exactly where the relation holds of a result and a rest, which are then the
only ones, and fails with an error where it holds of none. -/
def Reads {α : Type} (text : List Char) (x : Except Stop (α × Nat)) (R : α → List Char → Prop) :
    Prop :=
  (∃ v rest position, x = .ok (v, position) ∧ At text position rest ∧
    ∀ v' rest', R v' rest' ↔ v' = v ∧ rest' = rest) ∨
  (∃ position message, x = .error (.error position message)) ∧ ∀ v rest, ¬ R v rest

section Reads

variable {α β : Type} {text rest : List Char} {position : Nat} {x : Except Stop (α × Nat)}
  {R R' : α → List Char → Prop}

lemma Reads.ok (v : α) (h : At text position rest)
    (hR : ∀ v' rest', R v' rest' ↔ v' = v ∧ rest' = rest) : Reads text (.ok (v, position)) R :=
  .inl ⟨v, rest, position, rfl, h, hR⟩

lemma Reads.error (position : Nat) (message : String) (hR : ∀ v rest, ¬ R v rest) :
    Reads text (.error (.error position message)) R :=
  .inr ⟨⟨position, message, rfl⟩, hR⟩

/-- A scan is described by every equivalent relation. -/
lemma Reads.of_iff (h : Reads text x R) (hR : ∀ v rest, R' v rest ↔ R v rest) :
    Reads text x R' := by
  rcases h with ⟨v, rest, position, hx, hat, h⟩ | ⟨hx, h⟩
  · exact .inl ⟨v, rest, position, hx, hat, fun v' rest' => (hR v' rest').trans (h v' rest')⟩
  · exact .inr ⟨hx, fun v rest hv => h v rest ((hR v rest).mp hv)⟩

/-- A scan after another one. -/
lemma Reads.bind {f : α × Nat → Except Stop (β × Nat)} {S : α → List Char → β → List Char → Prop}
    (h : Reads text x R)
    (hf : ∀ v rest position, At text position rest → R v rest →
      Reads text (f (v, position)) (S v rest)) :
    Reads text (x >>= f) fun w rest' => ∃ v rest, R v rest ∧ S v rest w rest' := by
  rcases h with ⟨v, rest, position, rfl, hat, hR⟩ | ⟨⟨position, message, rfl⟩, hR⟩
  · refine Reads.of_iff (hf v rest position hat ((hR v rest).mpr ⟨rfl, rfl⟩)) fun w rest' => ?_
    constructor
    · rintro ⟨v', rest'', hv, hS⟩
      obtain ⟨rfl, rfl⟩ := (hR v' rest'').mp hv
      exact hS
    · exact fun hS => ⟨v, rest, (hR v rest).mpr ⟨rfl, rfl⟩, hS⟩
  · exact Reads.error position message fun w rest' ⟨v, rest, hv, _⟩ => hR v rest hv

end Reads

/-! ## Tokens -/

section take

variable {text input : List Char} {position : Nat}

lemma strip_strip (input : List Char) : strip (strip input) = strip input :=
  List.dropWhile_idempotent _ _

lemma token_strip {c : Char} {rest : List Char} :
    Token c (strip input) () rest ↔ Token c input () rest := by
  rw [Token, Token, strip_strip]

/-- `take` finds a character where it is the next token, and skips white space elsewhere. -/
lemma take_of_at {c : Char} (hc : c.toNat < 128) (h : At text position input) :
    (∃ position' rest, Reader.take text c.toNat.toUInt8 position = (true, position') ∧
      At text position' rest ∧ Token c input () rest) ∨
    ∃ position', Reader.take text c.toNat.toUInt8 position = (false, position') ∧
      At text position' (strip input) ∧ ∀ rest, ¬ Token c input () rest := by
  have hspace := h.space
  by_cases hhead : (strip input).head? = some c
  · obtain ⟨rest, hrest⟩ := List.head?_eq_some_iff.mp hhead
    rw [hrest] at hspace
    refine .inl ⟨Reader.space text position + 1, rest, ?_, hspace.cons_of_lt hc, hrest⟩
    rw [Reader.take, if_pos ((byteAt_eq_some hc hspace).mpr rfl)]
  · refine .inr ⟨Reader.space text position, ?_, hspace, fun rest hrest => hhead ?_⟩
    · rw [Reader.take, if_neg fun hbyte => hhead ((byteAt_eq_some hc hspace).mp hbyte)]
    · rw [show strip input = c :: rest from hrest]
      rfl

lemma reads_expect {c : Char} (hc : c.toNat < 128) (h : At text position input) :
    Reads text (Reader.expect text c.toNat.toUInt8 position) (Token c input) := by
  rcases take_of_at hc h with ⟨position', rest, htake, hat, htoken⟩ | ⟨position', htake, -, hnone⟩
  · rw [Reader.expect, htake]
    refine Reads.ok () hat fun _ rest' => ⟨fun htoken' => ⟨rfl, ?_⟩, fun heq => heq.2 ▸ htoken⟩
    exact (List.cons.inj (htoken'.symm.trans htoken)).2
  · rw [Reader.expect, htake]
    exact Reads.error _ _ fun _ rest => hnone rest

end take

end Verbosec.Execution.Input
