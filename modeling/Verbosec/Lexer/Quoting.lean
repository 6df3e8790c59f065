import Verbosec.Lexer.Sound

/-!
# Literals, quoted and read

* `quoteText`, `quoteBytes` - a text and a byte vector as literals of the source.
* `literalBody_text_eq`, `literalBody_bytes_eq` - what stands between the quotes is read back.
* `lexer_lawful` - layout, literals and the end of the scan, for every source.
-/

namespace Verbosec.Lexer

open Lib Lib.Utf8

/-! ## Quoting -/

/-- The double quote. -/
def quote : Char := Char.ofNat 34

/-- The backslash. -/
def backslash : Char := Char.ofNat 92

/-- A character of a text literal, escaped where it has to be. -/
def escapeChar (c : Char) : List Char :=
  if c = '\n' then [backslash, 'n']
  else if c = '\r' then [backslash, 'r']
  else if c = '\t' then [backslash, 't']
  else if c = backslash then [backslash, backslash]
  else if c = quote then [backslash, quote]
  else [c]

/-- A text as a literal. -/
def quoteText (text : List Char) : List Char := quote :: (text.flatMap escapeChar ++ [quote])

/-- A byte of a byte-string literal, as two hexadecimal digits. -/
def escapeByte (b : UInt8) : List Char :=
  [backslash, 'x', lowerHex (b.toNat / 16), lowerHex (b.toNat % 16)]

/-- A byte vector as a literal. -/
def quoteBytes (bytes : List UInt8) : List Char :=
  'b' :: quote :: (bytes.flatMap escapeByte ++ [quote])

/-! ## Reading back -/

variable {kind : LiteralKind} {line startCol col : Nat} {rest : List UInt8}

/-- An escape of one letter is read. -/
lemma literalBody_simple {esc b : UInt8} (h : simpleEscape esc = some b) :
    literalBody kind line startCol (92 :: esc :: rest) col =
      (literalBody kind line startCol rest (col + 2)).map
        fun (bytes, n) => (b :: bytes, n + 2) := by
  rw [literalBody.eq_def]
  simp only []
  rw [if_neg (by decide), if_neg (by decide), if_pos trivial, h]

/-- An escape of two hexadecimal digits is read. -/
lemma literalBody_hex {hi lo : UInt8} (hhi : isHexDigit hi) (hlo : isHexDigit lo) :
    literalBody .byteString line startCol (92 :: 120 :: hi :: lo :: rest) col =
      (literalBody .byteString line startCol rest (col + 4)).map
        fun (bytes, n) => ((hexVal hi <<< 4 ||| hexVal lo) :: bytes, n + 4) := by
  rw [literalBody.eq_def]
  simp only []
  rw [if_neg (by decide), if_neg (by decide), if_pos trivial,
    show simpleEscape 120 = none by decide]
  simp only []
  rw [if_pos ⟨rfl, .inl trivial⟩, if_pos (by rw [hhi, hlo]; rfl)]

/-- A character is escaped by one letter, or it stands for itself. -/
lemma escapeChar_cases (c : Char) :
    (∃ esc b, bytesOf (escapeChar c) = [92, esc] ∧ simpleEscape esc = some b ∧
      String.utf8EncodeChar c = [b]) ∨
    (escapeChar c = [c] ∧ c ≠ '\n' ∧ c ≠ backslash ∧ c ≠ quote) := by
  unfold escapeChar
  split_ifs with hline hreturn htab hslash hquote
  · subst hline
    exact .inl ⟨110, 10, by decide, by decide, by decide⟩
  · subst hreturn
    exact .inl ⟨114, 13, by decide, by decide, by decide⟩
  · subst htab
    exact .inl ⟨116, 9, by decide, by decide, by decide⟩
  · subst hslash
    exact .inl ⟨92, 92, by decide, by decide, by decide⟩
  · subst hquote
    exact .inl ⟨34, 34, by decide, by decide, by decide⟩
  · exact .inr ⟨rfl, hline, hslash, hquote⟩

/-- The byte of an ASCII character is that of another one only if they are the same. -/
lemma byte_ne {c d : Char} (hc : c.toNat < 128) (hd : d.toNat < 128) (hne : c ≠ d) :
    UInt8.ofNat c.toNat ≠ UInt8.ofNat d.toNat := fun h => hne <| by
  rw [← ofNat_toNat_ascii hc, h, ofNat_toNat_ascii hd]

/-- What stands between the quotes of a text is read back. -/
lemma literalBody_text_eq (text : List Char) :
    literalBody .text line startCol (bytesOf (text.flatMap escapeChar) ++ 34 :: rest) col =
      .ok (bytesOf text, (bytesOf (text.flatMap escapeChar)).length) := by
  induction text generalizing col with
  | nil =>
      rw [literalBody.eq_def]
      rfl
  | cons c text ih =>
      rw [List.flatMap_cons, bytesOf_append, List.append_assoc, bytesOf_cons c text,
        List.length_append]
      rcases escapeChar_cases c with ⟨esc, b, hescape, hb, hc⟩ | ⟨hself, hline, hslash, hquote⟩
      · rw [hescape, hc]
        show literalBody .text line startCol (92 :: esc :: (bytesOf (text.flatMap escapeChar) ++ _)) col = _
        rw [literalBody_simple hb, ih]
        simp only [Except.map, List.length_cons, List.length_nil, List.singleton_append,
          Except.ok.injEq, Prod.mk.injEq, true_and]
        omega
      · have hbytes : bytesOf [c] = String.utf8EncodeChar c := List.append_nil _
        rw [hself, hbytes]
        by_cases hascii : c.toNat < 128
        · rw [encode_ascii hascii]
          show literalBody .text line startCol
            (UInt8.ofNat c.toNat :: (bytesOf (text.flatMap escapeChar) ++ _)) col = _
          rw [literalBody_plain (byte_ne hascii (d := quote) (by decide) hquote)
            (byte_ne hascii (d := '\n') (by decide) hline)
            (byte_ne hascii (d := backslash) (by decide) hslash), ih]
          simp only [Except.map, List.length_cons, List.length_nil, List.singleton_append,
            Except.ok.injEq, Prod.mk.injEq, true_and]
          omega
        · rw [literalBody_high (high_of_mem_encode (Nat.not_lt.mp hascii)), ih]
          simp only [Except.map, Except.ok.injEq, Prod.mk.injEq, true_and]
          omega

lemma lowerHex_facts : ∀ n < 16, (lowerHex n).toNat < 128 ∧
    isHexDigit (UInt8.ofNat (lowerHex n).toNat) = true ∧
    hexVal (UInt8.ofNat (lowerHex n).toNat) = UInt8.ofNat n := by
  decide +kernel

lemma nibbles : ∀ hi < 16, ∀ lo < 16,
    UInt8.ofNat hi <<< 4 ||| UInt8.ofNat lo = UInt8.ofNat (16 * hi + lo) := by
  decide +kernel

/-- What stands between the quotes of a byte string is read back. -/
lemma literalBody_bytes_eq (bytes : List UInt8) :
    literalBody .byteString line startCol (bytesOf (bytes.flatMap escapeByte) ++ 34 :: rest) col =
      .ok (bytes, (bytesOf (bytes.flatMap escapeByte)).length) := by
  induction bytes generalizing col with
  | nil =>
      rw [literalBody.eq_def]
      rfl
  | cons b bytes ih =>
      have hlt := b.toNat_lt
      obtain ⟨hhi, hhiDigit, hhiVal⟩ := lowerHex_facts (b.toNat / 16) (by omega)
      obtain ⟨hlo, hloDigit, hloVal⟩ := lowerHex_facts (b.toNat % 16) (by omega)
      have hescape : bytesOf (escapeByte b) = [92, 120,
          UInt8.ofNat (lowerHex (b.toNat / 16)).toNat,
          UInt8.ofNat (lowerHex (b.toNat % 16)).toNat] := by
        rw [escapeByte, bytesOf_ascii_cons (by decide), bytesOf_ascii_cons (by decide),
          bytesOf_ascii_cons hhi, bytesOf_ascii_cons hlo]
        rfl
      have hvalue : UInt8.ofNat (b.toNat / 16) <<< 4 ||| UInt8.ofNat (b.toNat % 16) = b := by
        rw [nibbles _ (by omega) _ (by omega), Nat.div_add_mod, UInt8.ofNat_toNat]
      rw [List.flatMap_cons, bytesOf_append, List.append_assoc, hescape]
      show literalBody .byteString line startCol
        (92 :: 120 :: _ :: _ :: (bytesOf (bytes.flatMap escapeByte) ++ _)) col = _
      rw [literalBody_hex hhiDigit hloDigit, ih, hhiVal, hloVal, hvalue]
      simp only [Except.map, List.length_append, List.length_cons, List.length_nil,
        Except.ok.injEq, Prod.mk.injEq, true_and]
      omega

/-! ## A literal as a source -/

/-- A literal is read where what stands between its quotes is. -/
lemma readLiteral_eq {s : State} {content bytes : List UInt8} {token : TokenKind}
    (hrest : s.rest = content ++ [34])
    (hbody : literalBody kind s.line startCol (content ++ [34]) s.col = .ok (bytes, content.length))
    (htoken : literalToken kind bytes = .ok token) :
    readLiteral kind startCol s =
      .ok ((s.advance (content.length + 1)).emit token s.line startCol) := by
  unfold readLiteral
  rw [hrest, hbody]
  show (if (s.advance content.length).rest = [] then _ else _) = _
  have hquote : (s.advance content.length).rest = [34] := by
    show s.rest.drop content.length = _
    rw [hrest, List.drop_left]
  rw [hquote, if_neg (by simp), htoken, State.advance_advance]
  rfl

/-- The first turn of a source that starts with a literal or a bracket. -/
lemma turn_new {src : List Char} {c : UInt8} {after : List UInt8} (hsrc : bytesOf src = c :: after)
    (hc : c = 34 ∨ c = 98 ∨ c = 40) :
    turn (State.new src) = readToken ⟨c :: after, 1, 1, [0], [], false, 0⟩ := by
  have hnew : State.new src = ⟨c :: after, 1, 1, [0], [], true, 0⟩ := by rw [State.new, hsrc]
  rw [hnew]
  rcases hc with rfl | rfl | rfl <;> rfl

/-- The tokens of a source that is a single token. -/
lemma tokenize_token {src : List Char} {s : State} {token : TokenKind} {line col : Nat}
    (hne : bytesOf src ≠ []) (hturn : turn (State.new src) = .ok s) (hrest : s.rest = [])
    (htokens : s.tokens = [⟨token, line, col⟩]) (hindents : s.indents = [0])
    (htoken : token ≠ .newline) (turns : Nat) :
    ∃ toks, tokenize (turns + 2) src = some (.ok toks) ∧
      toks.map Token.kind = [token, .newline, .eof] := by
  have hstart : (State.new src).rest ≠ [] := hne
  refine ⟨finish s, ?_, ?_⟩
  · rw [tokenize, scan, if_neg hstart, hturn]
    simp only []
    rw [scan, if_pos hrest]
    rfl
  · rw [finish_eq, tail, htokens, hindents]
    simp [htoken]

/-- A literal as a source is read back. -/
lemma tokenize_literal {src : List Char} {content bytes : List UInt8} {token : TokenKind} {col : Nat}
    (hne : bytesOf src ≠ [])
    (hturn : turn (State.new src) = readLiteral kind 1 ⟨content ++ [34], 1, col, [0], [], false, 0⟩)
    (hbody : literalBody kind 1 1 (content ++ [34]) col = .ok (bytes, content.length))
    (htoken : literalToken kind bytes = .ok token) (hkind : token ≠ .newline) (turns : Nat) :
    ∃ toks, tokenize (turns + 2) src = some (.ok toks) ∧
      toks.map Token.kind = [token, .newline, .eof] := by
  rw [readLiteral_eq rfl hbody htoken] at hturn
  refine tokenize_token hne hturn ?_ rfl rfl hkind turns
  show (content ++ [34]).drop (content.length + 1) = []
  simp

/-- A quoted text is read back. -/
lemma tokenize_quoteText (text : List Char) (turns : Nat) :
    ∃ toks, tokenize (turns + 2) (quoteText text) = some (.ok toks) ∧
      toks.map Token.kind = [.stringLit (String.ofList text), .newline, .eof] := by
  have hsrc : bytesOf (quoteText text) = 34 :: (bytesOf (text.flatMap escapeChar) ++ [34]) := by
    rw [quoteText, bytesOf_ascii_cons (by decide), bytesOf_append]
    rfl
  have htoken : literalToken .text (bytesOf text) = .ok (.stringLit (String.ofList text)) := by
    rw [literalToken, expectUtf8, textOf_bytesOf]
    rfl
  exact tokenize_literal (by rw [hsrc]; simp) (turn_new hsrc (.inl rfl)) (literalBody_text_eq text)
    htoken (by simp) turns

/-- A quoted byte vector is read back. -/
lemma tokenize_quoteBytes (bytes : List UInt8) (turns : Nat) :
    ∃ toks, tokenize (turns + 2) (quoteBytes bytes) = some (.ok toks) ∧
      toks.map Token.kind = [.bytesLit bytes, .newline, .eof] := by
  have hsrc : bytesOf (quoteBytes bytes) =
      98 :: 34 :: (bytesOf (bytes.flatMap escapeByte) ++ [34]) := by
    rw [quoteBytes, bytesOf_ascii_cons (by decide), bytesOf_ascii_cons (by decide), bytesOf_append]
    rfl
  exact tokenize_literal (by rw [hsrc]; simp) (turn_new hsrc (.inr (.inl rfl)))
    (literalBody_bytes_eq bytes) rfl (by simp) turns

/-! ## The result -/

/-- The scan of a source ends without stopping the program, and the tokens that it returns are laid
out. -/
structure Lawful (src : List Char) : Prop where
  ends : ∃ r, r ≠ .error .panic ∧
    ∀ turns, (bytesOf src).length < turns → tokenize turns src = some r
  laid_out : ∀ turns toks, tokenize turns src = some (.ok toks) → LaidOut toks

/-- A scan that reaches a deep state is not lawful. -/
lemma not_lawful_of_deep {src : List Char} {s : State} (hreach : (scanning src).Reachable s)
    (hdeep : Deep s) : ¬ Lawful src := by
  intro hlawful
  obtain ⟨r, hr, hturns⟩ := hlawful.ends
  obtain ⟨k, hk⟩ := tokenize_deep hreach hdeep
  have hpanic := hk (bytesOf src).length
  rw [hturns _ (by omega)] at hpanic
  exact hr (Option.some.inj hpanic)

/-- The scan is lawful exactly on the sources that are shallow. A quoted text and a quoted byte vector
are read back. -/
theorem lexer_lawful (src : List Char) :
    (Lawful src ↔ Shallow src) ∧
      (∀ text turns, ∃ toks, tokenize (turns + 2) (quoteText text) = some (.ok toks) ∧
        toks.map Token.kind = [.stringLit (String.ofList text), .newline, .eof]) ∧
      ∀ bytes turns, ∃ toks, tokenize (turns + 2) (quoteBytes bytes) = some (.ok toks) ∧
        toks.map Token.kind = [.bytesLit bytes, .newline, .eof] := by
  refine ⟨⟨fun hlawful s hreach hdeep => not_lawful_of_deep hreach hdeep hlawful,
    fun hshallow => ⟨?_, ?_⟩⟩, tokenize_quoteText, tokenize_quoteBytes⟩
  · obtain ⟨r, hr, hpanic⟩ := scan_ends (bytesOf src).length (State.new src)
      (System.Reachable.init rfl) (Nat.le_refl _)
    refine ⟨r.map finish, fun hstop => ?_, fun turns hturns => ?_⟩
    · cases r with
      | ok s => cases hstop
      | error stop =>
          cases hstop
          exact hpanic hshallow rfl
    · rw [tokenize, hr turns hturns]
      rfl
  · exact fun turns toks => laidOut_tokenize

/-! ## Too many brackets -/

/-- One more bracket. -/
lemma turn_opening {s : State} {after : List UInt8} (hrest : s.rest = 40 :: after)
    (hinside : ¬ (s.atLineStart = true ∧ s.parenDepth = 0)) (hnonneg : 0 ≤ s.parenDepth)
    (hsmall : s.parenDepth < 2 ^ 31 - 1) :
    ∃ s', turn s = .ok s' ∧ s'.rest = after ∧ s'.parenDepth = s.parenDepth + 1 := by
  obtain ⟨kind, hkind, hopen⟩ := symbol_opening (.inr (.inl rfl)) s.rest[1]?
  have hread : turn s = readSymbol 40 s := by
    unfold turn
    rw [if_neg hinside]
    show readItem s = _
    unfold readItem readToken
    rw [hrest]
    rfl
  refine ⟨{ s.advance 1 with parenDepth := s.parenDepth + kind.bracket }.emit kind s.line s.col,
    ?_, ?_, ?_⟩
  · rw [hread, readSymbol, hkind]
    simp only []
    rw [if_neg (by omega), if_neg (by omega)]
  · show s.rest.drop 1 = after
    rw [hrest]
    rfl
  · show s.parenDepth + kind.bracket = s.parenDepth + 1
    rw [hopen]

/-- Opening brackets lead to a deep state. -/
lemma deep_of_opening {src : List Char} (n : Nat) : ∀ s : State, (scanning src).Reachable s →
    s.rest = List.replicate (n + 1) 40 → 0 < s.parenDepth → s.parenDepth + n = 2 ^ 31 - 1 →
    ∃ s', (scanning src).Reachable s' ∧ Deep s' := by
  induction n with
  | zero =>
      intro s hreach hrest _ hdepth
      exact ⟨s, hreach, by simpa using hdepth, 40, [], hrest, .inr (.inl rfl)⟩
  | succ n ih =>
      intro s hreach hrest hpos hdepth
      obtain ⟨s', hturn, hrest', hdepth'⟩ := turn_opening (hrest.trans List.replicate_succ)
        (by omega) (by omega) (by omega)
      refine ih s' (hreach.step ⟨?_, hturn⟩) hrest' (by omega) (by omega)
      rw [hrest]
      simp

lemma bytesOf_replicate (n : Nat) : bytesOf (List.replicate n '(') = List.replicate n 40 := by
  induction n with
  | zero => rfl
  | succ n ih =>
      rw [List.replicate_succ, bytesOf_ascii_cons (by decide), ih]
      rfl

/-- A source of opening brackets only stops the program where the counter is full. -/
lemma not_lawful_opening (n : Nat) (hn : (n : Int) + 2 = 2 ^ 31) :
    ¬ Lawful (List.replicate (n + 2) '(') := by
  have hsrc : bytesOf (List.replicate (n + 2) '(') = 40 :: List.replicate (n + 1) 40 := by
    rw [bytesOf_replicate, List.replicate_succ]
  have hturn := turn_new hsrc (.inr (.inr rfl))
  obtain ⟨s, hread, hrest, hdepth⟩ := @turn_opening
    ⟨40 :: List.replicate (n + 1) 40, 1, 1, [0], [], false, 0⟩ _ rfl (by simp) (by simp) (by simp)
  have hsame : turn ⟨40 :: List.replicate (n + 1) 40, 1, 1, [0], [], false, 0⟩ =
      readToken ⟨40 :: List.replicate (n + 1) 40, 1, 1, [0], [], false, 0⟩ := rfl
  rw [hsame] at hread
  have hreach : (scanning (List.replicate (n + 2) '(')).Reachable s := by
    refine (System.Reachable.init rfl).step ⟨?_, hturn.trans hread⟩
    show bytesOf _ ≠ []
    rw [hsrc]
    simp
  have hone : s.parenDepth = 1 := hdepth
  obtain ⟨s', hreach', hdeep⟩ := deep_of_opening n s hreach hrest (by omega) (by omega)
  exact not_lawful_of_deep hreach' hdeep

/-- A source of 2^31 opening brackets stops the program. -/
theorem too_many_brackets : ¬ ∀ src, Lawful src := by
  intro h
  exact not_lawful_opening (2 ^ 31 - 2) (by omega) (h _)

end Verbosec.Lexer
