import Verbosec.Lexer.Layout
import Verbosec.Lib.Except
import Mathlib.Data.List.TakeWhile

/-!
# What a token leaves of the source

* `Text` - bytes that are the encoding of a text; what is behind an ASCII byte of them is, too.
* `literalBody_bounds`, `literalBody_text` - where a literal ends, and that the bytes of a text
  literal are a text.
* `Reads` - what the lexer does to its state when it reads a token.
* `readToken_spec` - a token is read, or there is an error; the program stops only where one more
  bracket would be too many.
-/

namespace Verbosec.Lexer

open Lib Lib.Utf8

/-! ## Texts -/

/-- The bytes are the encoding of a text. -/
def Text (bytes : List UInt8) : Prop := ∃ cs, bytes = bytesOf cs

lemma Text.nil : Text [] := ⟨[], rfl⟩

/-- What is behind an ASCII byte of a text is a text. -/
lemma Text.behind {xs ys : List UInt8} {b : UInt8} (h : Text (xs ++ b :: ys)) (hb : b.toNat < 128) :
    Text ys := by
  obtain ⟨cs, hcs⟩ := h
  obtain ⟨ds, es, -, -, hys⟩ := bytesOf_split hb hcs.symm
  exact ⟨es, hys⟩

/-- An ASCII byte in front of a text. -/
lemma Text.cons {bytes : List UInt8} (h : Text bytes) {b : UInt8} (hb : b.toNat < 128) :
    Text (b :: bytes) := by
  obtain ⟨cs, rfl⟩ := h
  refine ⟨Char.ofNat b.toNat :: cs, ?_⟩
  have hn : (Char.ofNat b.toNat).toNat = b.toNat := by
    rw [Char.ofNat, dif_pos (show b.toNat.isValidChar from .inl (by omega))]
    rfl
  rw [bytesOf_ascii_cons (by omega), hn, UInt8.ofNat_toNat]

/-- ASCII bytes are a text. -/
lemma text_of_ascii {bytes : List UInt8} (h : ∀ b ∈ bytes, b.toNat < 128) : Text bytes := by
  induction bytes with
  | nil => exact .nil
  | cons b bytes ih =>
      exact (ih fun b' hb' => h b' (List.mem_cons_of_mem _ hb')).cons (h b List.mem_cons_self)

/-- What is behind a run of ASCII bytes of a text is a text. -/
lemma Text.drop_run {p : UInt8 → Bool} (hp : ∀ b, p b → b.toNat < 128) {bytes : List UInt8}
    (h : Text bytes) : Text (bytes.drop (bytes.takeWhile p).length) := by
  induction bytes with
  | nil => exact h
  | cons b bytes ih =>
      rw [List.takeWhile_cons]
      by_cases hb : p b
      · rw [if_pos hb, List.length_cons, List.drop_succ_cons]
        exact ih (@Text.behind [] _ _ h (hp b hb))
      · rw [if_neg hb]
        exact h

/-- A text is decoded. -/
lemma expectUtf8_text {bytes : List UInt8} (h : Text bytes) : ∃ s, expectUtf8 bytes = .ok s := by
  obtain ⟨cs, rfl⟩ := h
  exact ⟨String.ofList cs, by rw [expectUtf8, textOf_bytesOf]⟩

lemma drop_takeWhile {α : Type*} (p : α → Bool) (l : List α) :
    l.drop (l.takeWhile p).length = l.dropWhile p := by
  induction l with
  | nil => rfl
  | cons a l ih =>
      rw [List.takeWhile_cons, List.dropWhile_cons]
      split_ifs
      · exact ih
      · rfl

/-- What is behind a comment is a text. -/
lemma Text.drop_line {bytes : List UInt8} (h : Text bytes) :
    Text (bytes.drop (bytes.takeWhile fun b => b ≠ 10).length) := by
  rw [drop_takeWhile]
  cases hrest : bytes.dropWhile fun b => b ≠ 10 with
  | nil => exact .nil
  | cons b rest =>
      have hb : b = 10 := by
        have hhead := List.head?_dropWhile_not (fun b : UInt8 => decide (b ≠ 10)) bytes
        rw [hrest] at hhead
        simpa using hhead
      have hsplit := List.takeWhile_append_dropWhile (p := fun b : UInt8 => decide (b ≠ 10)) (l := bytes)
      rw [hrest] at hsplit
      rw [← hsplit] at h
      subst hb
      exact (h.behind (by decide)).cons (by decide)

/-! ## Literals -/

variable {kind : LiteralKind} {line startCol col n : Nat} {rest bytes : List UInt8}

/-- The result of a literal, one part of it read. -/
lemma map_eq_ok_pair {x : Except Stop (List UInt8 × Nat)} {f : List UInt8 → List UInt8} {k : Nat}
    (h : x.map (fun (bytes, n) => (f bytes, n + k)) = .ok (bytes, n)) :
    ∃ bytes' n', x = .ok (bytes', n') ∧ bytes = f bytes' ∧ n = n' + k := by
  obtain ⟨⟨bytes', n'⟩, hx, heq⟩ := Lib.Except.map_eq_ok.mp h
  cases heq
  exact ⟨bytes', n', hx, rfl, rfl⟩

/-- A literal has no more bytes than its source, and it ends before a quote or at the end. -/
lemma literalBody_bounds (h : literalBody kind line startCol rest col = .ok (bytes, n)) :
    bytes.length ≤ n ∧ (rest.drop n = [] ∨ ∃ after, rest.drop n = 34 :: after) := by
  fun_induction literalBody kind line startCol rest col generalizing bytes n with
  | case1 col =>
      cases h
      exact ⟨Nat.le_refl _, .inl rfl⟩
  | case2 after col =>
      cases h
      exact ⟨Nat.le_refl _, .inr ⟨after, rfl⟩⟩
  | case3 | case4 | case7 | case8 | case9 => cases h
  | case5 col esc after b hesc _ _ ih =>
      obtain ⟨bytes', n', hbody, rfl, rfl⟩ := map_eq_ok_pair h
      obtain ⟨hlen, hend⟩ := ih hbody
      exact ⟨by rw [List.length_cons]; omega, hend⟩
  | case6 col esc hesc hhex hi lo after hdigits _ _ ih =>
      obtain ⟨bytes', n', hbody, rfl, rfl⟩ := map_eq_ok_pair h
      obtain ⟨hlen, hend⟩ := ih hbody
      exact ⟨by rw [List.length_cons]; omega, hend⟩
  | case10 col ch after _ _ _ ih =>
      obtain ⟨bytes', n', hbody, rfl, rfl⟩ := map_eq_ok_pair h
      obtain ⟨hlen, hend⟩ := ih hbody
      exact ⟨by rw [List.length_cons]; omega, hend⟩

/-- The program does not stop inside a literal. -/
lemma literalBody_ne_panic : literalBody kind line startCol rest col ≠ .error .panic := by
  have hmap : ∀ {α : Type} {x : Except Stop α} (f : α → α),
      x ≠ .error .panic → x.map f ≠ .error .panic := by
    intro α x f hx h
    cases x with
    | ok a => cases h
    | error e =>
        cases h
        exact hx rfl
  fun_induction literalBody kind line startCol rest col with
  | case1 | case2 | case3 | case4 | case7 | case8 | case9 => simp
  | case5 col esc after b hesc _ _ ih => exact hmap _ ih
  | case6 col esc hesc hhex hi lo after hdigits _ _ ih => exact hmap _ ih
  | case10 col ch after _ _ _ ih => exact hmap _ ih

/-- A byte that is no quote, no line feed and no backslash stands for itself. -/
lemma literalBody_plain {b : UInt8} (hquote : b ≠ 34) (hline : b ≠ 10) (hslash : b ≠ 92) :
    literalBody kind line startCol (b :: rest) col =
      (literalBody kind line startCol rest (col + 1)).map fun (bytes, n) => (b :: bytes, n + 1) := by
  rw [literalBody.eq_def]
  simp only []
  rw [if_neg hquote, if_neg hline, if_neg hslash]

/-- Bytes outside the range of ASCII stand for themselves. -/
lemma literalBody_high {high : List UInt8} (hhigh : ∀ b ∈ high, 128 ≤ b.toNat) :
    literalBody kind line startCol (high ++ rest) col =
      (literalBody kind line startCol rest (col + high.length)).map
        fun (bytes, n) => (high ++ bytes, n + high.length) := by
  induction high generalizing col with
  | nil =>
      show literalBody kind line startCol rest col = (literalBody kind line startCol rest col).map _
      cases literalBody kind line startCol rest col <;> rfl
  | cons b high ih =>
      have hb := hhigh b List.mem_cons_self
      rw [List.cons_append, literalBody_plain (fun he => by rw [he] at hb; exact absurd hb (by decide))
        (fun he => by rw [he] at hb; exact absurd hb (by decide))
        (fun he => by rw [he] at hb; exact absurd hb (by decide)),
        ih fun b' hb' => hhigh b' (List.mem_cons_of_mem _ hb'), List.length_cons,
        show col + (high.length + 1) = col + 1 + high.length by omega]
      cases literalBody kind line startCol rest (col + 1 + high.length) with
      | error stop => rfl
      | ok result => rfl

lemma simpleEscape_ascii {esc b : UInt8} (h : simpleEscape esc = some b) :
    esc.toNat < 128 ∧ b.toNat < 128 := by
  unfold simpleEscape at h
  split_ifs at h with h₁ h₂ h₃ h₄ h₅ <;> cases h <;> subst_vars <;> decide

/-- An escape in a text literal. -/
lemma literalBody_escape (h : literalBody .text line startCol (92 :: rest) col = .ok (bytes, n)) :
    ∃ esc b after bytes' n', rest = esc :: after ∧ simpleEscape esc = some b ∧
      literalBody .text line startCol after (col + 2) = .ok (bytes', n') ∧
      bytes = b :: bytes' ∧ n = n' + 2 := by
  cases rest with
  | nil => cases h
  | cons esc after =>
      rw [literalBody.eq_def] at h
      simp only [] at h
      rw [if_neg (by decide), if_neg (by decide), if_pos trivial] at h
      cases hesc : simpleEscape esc with
      | none =>
          rw [hesc] at h
          simp [LiteralKind.hex] at h
      | some b =>
          rw [hesc] at h
          obtain ⟨bytes', n', hbody, hbytes, hn⟩ := map_eq_ok_pair h
          exact ⟨esc, b, after, bytes', n', rfl, hesc, hbody, hbytes, hn⟩

/-- The bytes of a text literal are a text. -/
lemma literalBody_text {ds : List Char} {tail : List UInt8}
    (h : literalBody .text line startCol (bytesOf ds ++ tail) col = .ok (bytes, n))
    (hn : n = (bytesOf ds).length) : Text bytes := by
  induction hlen : ds.length using Nat.strongRecOn generalizing ds col bytes n with
  | ind k ih =>
      cases ds with
      | nil =>
          have hbounds := (literalBody_bounds h).1
          rw [hn] at hbounds
          rw [List.length_eq_zero_iff.mp (Nat.le_zero.mp hbounds)]
          exact .nil
      | cons d ds =>
          rw [List.length_cons] at hlen
          by_cases hd : d.toNat < 128
          · rw [bytesOf_ascii_cons hd] at h hn
            rw [List.length_cons] at hn
            have hbyte : (UInt8.ofNat d.toNat).toNat < 128 := by simp; omega
            generalize UInt8.ofNat d.toNat = b at h hbyte
            rw [List.cons_append] at h
            by_cases hslash : b = 92
            · subst hslash
              obtain ⟨esc, b, after, bytes', n', hrest, hesc, hbody, rfl, rfl⟩ :=
                literalBody_escape h
              obtain ⟨hascii, hb⟩ := simpleEscape_ascii hesc
              cases hds : bytesOf ds with
              | nil =>
                  rw [hds, List.length_nil] at hn
                  omega
              | cons b' ys =>
                  rw [hds, List.cons_append] at hrest
                  obtain ⟨rfl, rfl⟩ := List.cons.inj hrest
                  obtain ⟨front, es, rfl, -, rfl⟩ := @bytesOf_split _ [] _ _ hascii hds
                  rw [hds, List.length_cons] at hn
                  rw [List.length_append, List.length_cons] at hlen
                  exact (ih es.length (by omega) hbody (by omega) rfl).cons hb
            · by_cases hquote : b = 34
              · subst hquote
                rw [literalBody.eq_def] at h
                simp only [if_true, Except.ok.injEq, Prod.mk.injEq] at h
                omega
              · by_cases hline : b = 10
                · subst hline
                  rw [literalBody.eq_def] at h
                  simp at h
                · rw [literalBody_plain hquote hline hslash] at h
                  obtain ⟨bytes', n', hbody, rfl, rfl⟩ := map_eq_ok_pair h
                  exact (ih ds.length (by omega) hbody (by omega) rfl).cons hbyte
          · rw [bytesOf_cons, List.append_assoc] at h
            rw [literalBody_high (high_of_mem_encode (Nat.not_lt.mp hd))] at h
            obtain ⟨bytes', n', hbody, rfl, rfl⟩ := map_eq_ok_pair h
            rw [bytesOf_cons, List.length_append] at hn
            obtain ⟨es, rfl⟩ := ih ds.length (by omega) hbody (by omega) rfl
            exact ⟨d :: es, rfl⟩

/-! ## Tokens -/

/-- A token that is no bracket, of no line and no block, and not the end. -/
structure TokenKind.Plain (kind : TokenKind) : Prop where
  bracket : kind.bracket = 0
  layout : kind.isLayout = false
  eof : kind ≠ .eof

/-- What the lexer does to its state when it reads a token. -/
structure Reads (s s' : State) : Prop where
  token : ∃ t, s'.tokens = s.tokens ++ [t] ∧ t.kind.isLayout = false ∧ t.kind ≠ .eof ∧
    s'.parenDepth = s.parenDepth + t.kind.bracket
  nonneg : 0 ≤ s'.parenDepth
  small : s'.parenDepth < 2 ^ 31
  indents : s'.indents = s.indents
  text : Text s'.rest
  shorter : s'.rest.length < s.rest.length

/-- The state in front of a token: the bytes that are left are a text, the brackets fit. -/
structure Ready (s : State) : Prop where
  text : Text s.rest
  nonneg : 0 ≤ s.parenDepth
  small : s.parenDepth < 2 ^ 31

variable {s : State}

lemma State.advance_advance (s : State) (m n : Nat) :
    (s.advance m).advance n = s.advance (m + n) := by
  simp [State.advance, List.drop_drop, Nat.add_assoc]

/-- A plain token behind some bytes. -/
lemma Reads.plain (hs : Ready s) {kind : TokenKind} (hkind : kind.Plain) {n line col : Nat}
    (hn : 0 < n) (hne : s.rest ≠ []) (htext : Text (s.rest.drop n)) :
    Reads s ((s.advance n).emit kind line col) where
  token := ⟨⟨kind, line, col⟩, rfl, hkind.layout, hkind.eof, by
    show s.parenDepth = s.parenDepth + kind.bracket
    rw [hkind.bracket]
    omega⟩
  nonneg := hs.nonneg
  small := hs.small
  indents := rfl
  text := htext
  shorter := by
    have hpos := List.length_pos_iff.mpr hne
    show (s.rest.drop n).length < s.rest.length
    rw [List.length_drop]
    omega

/-- A run of ASCII bytes is decoded. -/
lemma readRun_spec {p : UInt8 → Bool} (hp : ∀ b, p b → b.toNat < 128) (hs : Text s.rest) :
    ∃ text, readRun p s = .ok (text, s.advance (s.rest.takeWhile p).length) ∧
      Text (s.rest.drop (s.rest.takeWhile p).length) := by
  have hrun : Text (s.rest.takeWhile p) :=
    text_of_ascii fun b hb => hp b (by simpa using List.mem_takeWhile_imp hb)
  obtain ⟨text, htext⟩ := expectUtf8_text hrun
  refine ⟨text, ?_, hs.drop_run hp⟩
  rw [readRun, htext]
  rfl

/-- A literal is read from behind its opening quote on. -/
lemma readLiteral_spec (kind : LiteralKind) (startCol : Nat) (hs : Text s.rest) :
    Within (fun stop => stop ≠ .panic)
      (fun s' => ∃ token n, s' = (s.advance n).emit token s.line startCol ∧ token.Plain ∧
        Text (s.rest.drop n))
      (readLiteral kind startCol s) := by
  unfold readLiteral
  cases hbody : literalBody kind s.line startCol s.rest s.col with
  | error stop =>
      intro hpanic
      rw [hpanic] at hbody
      exact literalBody_ne_panic hbody
  | ok result =>
      obtain ⟨bytes, n⟩ := result
      show Within _ _ (if (s.advance n).rest = [] then _ else _)
      split_ifs with hend
      · simp
      · obtain ⟨after, hafter⟩ := (literalBody_bounds hbody).2.resolve_left hend
        have hsplit : s.rest = s.rest.take n ++ 34 :: after := by
          rw [← hafter, List.take_append_drop]
        have htext : Text (s.rest.drop (n + 1)) := by
          rw [← List.drop_drop, hafter, List.drop_one, List.tail_cons]
          exact Text.behind (hsplit ▸ hs) (by decide)
        rw [State.advance_advance]
        cases kind with
        | byteString =>
            exact ⟨.bytesLit bytes, n + 1, rfl, ⟨rfl, rfl, by simp⟩, htext⟩
        | text =>
            have hcontent : Text bytes := by
              obtain ⟨cs, hcs⟩ := hs
              obtain ⟨ds, es, -, hds, -⟩ :=
                @bytesOf_split cs (s.rest.take n) after 34 (by decide) (by rw [← hcs, ← hsplit])
              have hle : n ≤ s.rest.length := by
                by_contra hlt
                rw [List.drop_eq_nil_of_le (by omega)] at hafter
                cases hafter
              rw [hsplit, hds] at hbody
              refine literalBody_text hbody ?_
              rw [← hds, List.length_take]
              omega
            obtain ⟨text, htoken⟩ := expectUtf8_text hcontent
            rw [literalToken, htoken]
            exact ⟨.stringLit text, n + 1, rfl, ⟨rfl, rfl, by simp⟩, htext⟩

end Verbosec.Lexer
