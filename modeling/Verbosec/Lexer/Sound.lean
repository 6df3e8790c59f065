import Verbosec.Lexer.Literals
import Verbosec.Lib.Transition

/-!
# The lexer on every source

* `readToken_spec` - a token is read, or there is an error; the program stops only where one more
  bracket is too many, `Deep`.
* `Sound`, `turn_spec` - the invariant of the scan, and a turn of its loop.
* `scan_ends` - the scan ends, and the program stops only behind a deep state.
* `Shallow` - the sources that never have 2^31 brackets open.
-/

namespace Verbosec.Lexer

open Lib Lib.Utf8

variable {s s' : State}

/-! ## Symbols -/

/-- One more bracket is too many. -/
def Deep (s : State) : Prop :=
  s.parenDepth = 2 ^ 31 - 1 ∧ ∃ c after, s.rest = c :: after ∧ (c = 91 ∨ c = 40 ∨ c = 123)

lemma mem_of_lookup {α β : Type*} [BEq α] [LawfulBEq α] {l : List (α × β)} {a : α} {b : β}
    (h : l.lookup a = some b) : (a, b) ∈ l := by
  obtain ⟨front, back, rfl, -⟩ := List.lookup_eq_some_iff.mp h
  simp

/-- A symbol of one byte. -/
lemma singleSymbols_facts : ∀ p ∈ singleSymbols, p.1.toNat < 128 ∧ p.2.isLayout = false ∧
    p.2 ≠ .eof ∧ (p.2.bracket = 1 → p.1 = 91 ∨ p.1 = 40 ∨ p.1 = 123) ∧ p.2.bracket ≤ 1 := by
  decide

/-- A symbol of two bytes. -/
lemma doubleSymbols_facts : ∀ p ∈ doubleSymbols, p.1.1.toNat < 128 ∧ p.1.2.toNat < 128 ∧
    p.2.isLayout = false ∧ p.2 ≠ .eof ∧ p.2.bracket = 0 := by
  decide

/-- What a symbol is, and what it takes of the source. -/
lemma symbol_facts {c : UInt8} {next : Option UInt8} {kind : TokenKind} {n : Nat}
    (h : symbol c next = some (kind, n)) :
    c.toNat < 128 ∧ kind.isLayout = false ∧ kind ≠ .eof ∧
      (kind.bracket = 1 → c = 91 ∨ c = 40 ∨ c = 123) ∧ kind.bracket ≤ 1 ∧
      (n = 1 ∨ n = 2 ∧ ∃ b, next = some b ∧ b.toNat < 128) := by
  unfold symbol at h
  cases hdouble : next.bind fun b => doubleSymbols.lookup (c, b) with
  | some kind' =>
      rw [hdouble] at h
      cases h
      obtain ⟨b, hb, hlookup⟩ := Option.bind_eq_some_iff.mp hdouble
      obtain ⟨hc, hascii, hlayout, heof, hzero⟩ := doubleSymbols_facts _ (mem_of_lookup hlookup)
      have hbracket : kind.bracket = 0 := hzero
      exact ⟨hc, hlayout, heof, fun hone => by omega, by omega, .inr ⟨rfl, b, hb, hascii⟩⟩
  | none =>
      rw [hdouble] at h
      obtain ⟨kind', hlookup, heq⟩ := Option.map_eq_some_iff.mp h
      cases heq
      obtain ⟨hc, hlayout, heof, hopen, hone⟩ := singleSymbols_facts _ (mem_of_lookup hlookup)
      exact ⟨hc, hlayout, heof, hopen, hone, .inl rfl⟩

/-- A symbol is read, or there is an error. -/
lemma readSymbol_spec (hs : Ready s) {c : UInt8} {after : List UInt8} (hrest : s.rest = c :: after) :
    Within (fun stop => stop = .panic → Deep s) (Reads s) (readSymbol c s) := by
  unfold readSymbol
  cases hsymbol : symbol c s.rest[1]? with
  | none => simp
  | some result =>
      obtain ⟨kind, n⟩ := result
      obtain ⟨hc, hlayout, heof, hopen, hone, hn⟩ := symbol_facts hsymbol
      have htext : Text (s.rest.drop n) := by
        have hafter : Text after := @Text.behind [] after c (hrest ▸ hs.text) hc
        rcases hn with rfl | ⟨rfl, b, hb, hascii⟩
        · rw [hrest]
          exact hafter
        · rw [hrest] at hb ⊢
          cases after with
          | nil => cases hb
          | cons b' after =>
              obtain rfl := Option.some.inj hb
              exact @Text.behind [] after b' hafter hascii
      show Within _ _ (if _ then _ else _)
      split_ifs with hdeep hclosed
      · intro _
        have hnonneg := hs.nonneg
        have hsmall := hs.small
        exact ⟨by omega, c, after, hrest, hopen (by omega)⟩
      · simp
      · refine ⟨⟨_, rfl, hlayout, heof, rfl⟩, by simpa [State.emit] using hclosed,
          by simpa [State.emit] using hdeep, rfl, htext, ?_⟩
        show (s.rest.drop n).length < s.rest.length
        rw [List.length_drop, hrest, List.length_cons]
        omega

/-! ## Tokens -/

lemma isIdentContinue_ascii (b : UInt8) (h : isIdentContinue b) : b.toNat < 128 := by
  simp only [isIdentContinue, isAlphabetic, isDigit, Bool.or_eq_true, Bool.and_eq_true,
    decide_eq_true_eq] at h
  omega

lemma isDigit_ascii (b : UInt8) (h : isDigit b) : b.toNat < 128 := by
  simp only [isDigit, Bool.and_eq_true, decide_eq_true_eq] at h
  omega

lemma isIdentContinue_of_start {b : UInt8} (h : isIdentStart b) : isIdentContinue b := by
  simp only [isIdentStart, isIdentContinue, Bool.or_eq_true] at h ⊢
  tauto

/-- A run that a byte starts is not empty. -/
lemma takeWhile_pos {p : UInt8 → Bool} {c : UInt8} {after : List UInt8} (hc : p c) :
    0 < ((c :: after).takeWhile p).length := by
  rw [List.takeWhile_cons, if_pos hc]
  exact Nat.succ_pos _

/-- A token is read, or there is an error. -/
lemma readToken_spec (hs : Ready s) (hne : s.rest ≠ []) :
    Within (fun stop => stop = .panic → Deep s) (Reads s) (readToken s) := by
  obtain ⟨c, after, hrest⟩ := List.exists_cons_of_ne_nil hne
  have hbehind : c.toNat < 128 → Text (s.advance 1).rest := fun hc => by
    show Text (s.rest.drop 1)
    rw [hrest]
    exact @Text.behind [] after c (hrest ▸ hs.text) hc
  have hliteral : ∀ kind k, 0 < k → Text (s.advance k).rest →
      Within (fun stop => stop = .panic → Deep s) (Reads s)
        (readLiteral kind s.col (s.advance k)) := by
    intro kind k hk htext
    refine (readLiteral_spec kind s.col htext).mono (fun stop hstop hpanic => absurd hpanic hstop) ?_
    rintro s' ⟨token, n, rfl, htoken, hn⟩
    rw [State.advance_advance]
    refine Reads.plain hs htoken (by omega) hne ?_
    rw [← List.drop_drop]
    exact hn
  unfold readToken
  rw [hrest]
  simp only []
  by_cases hat : c = 64
  · rw [if_pos hat]
    subst hat
    obtain ⟨name, hrun, htext⟩ := readRun_spec isIdentContinue_ascii (hbehind (by decide))
    rw [hrun]
    show Within _ _ (if after.takeWhile isIdentContinue = [] then _ else _)
    split_ifs
    · simp
    · rw [State.advance_advance]
      refine Reads.plain hs ⟨rfl, rfl, by simp⟩ (by omega) hne ?_
      rw [← List.drop_drop]
      exact htext
  rw [if_neg hat]
  by_cases hquote : c = 34
  · rw [if_pos hquote]
    subst hquote
    exact hliteral .text 1 (by omega) (hbehind (by decide))
  rw [if_neg hquote]
  by_cases hdigit : isDigit c
  · rw [if_pos hdigit]
    obtain ⟨digits, hrun, htext⟩ := readRun_spec isDigit_ascii hs.text
    rw [hrun]
    simp only [bind, Except.bind]
    cases parseI64 digits with
    | none => simp
    | some n =>
        refine Reads.plain hs ⟨rfl, rfl, by simp⟩ ?_ hne htext
        rw [hrest]
        exact takeWhile_pos hdigit
  rw [if_neg hdigit]
  by_cases hbytes : c = 98 ∧ after.head? = some 34
  · rw [if_pos hbytes]
    obtain ⟨rfl, hnext⟩ := hbytes
    refine hliteral .byteString 2 (by omega) ?_
    cases after with
    | nil => cases hnext
    | cons b after =>
        obtain rfl := Option.some.inj hnext
        have hafter := hbehind (by decide)
        show Text (s.rest.drop 2)
        rw [State.advance, hrest] at hafter
        rw [hrest]
        exact @Text.behind [] after 34 hafter (by decide)
  rw [if_neg hbytes]
  by_cases hident : isIdentStart c
  · rw [if_pos hident]
    obtain ⟨name, hrun, htext⟩ := readRun_spec isIdentContinue_ascii hs.text
    rw [hrun]
    refine Reads.plain hs ⟨rfl, rfl, by simp⟩ ?_ hne htext
    rw [hrest]
    exact takeWhile_pos (isIdentContinue_of_start hident)
  rw [if_neg hident]
  exact readSymbol_spec hs hrest

/-! ## The invariant -/

/-- The invariant of the scan: the tokens are laid out, with the blocks of the stack and the brackets
of the counter open; the margin is on the stack; the bytes that are left are a text. -/
structure Sound (s : State) : Prop where
  laid : Laid s.tokens s.parenDepth ((s.indents.length : Int) - 1)
  margin : 0 ∈ s.indents
  text : Text s.rest
  small : s.parenDepth < 2 ^ 31

lemma Sound.indents_pos (hs : Sound s) : 0 < s.indents.length := List.length_pos_of_mem hs.margin

lemma Sound.ready (hs : Sound s) : Ready s := ⟨hs.text, hs.laid.nonneg, hs.small⟩

lemma sound_new (src : List Char) : Sound (State.new src) :=
  ⟨Laid.nil, List.mem_cons_self, ⟨src, rfl⟩, by simp [State.new]⟩

/-- A token that is read keeps the invariant. -/
lemma Sound.reads (hs : Sound s) (h : Reads s s') : Sound s' := by
  obtain ⟨t, htokens, hlayout, heof, hdepth⟩ := h.token
  have hpos := hs.indents_pos
  have hlaid := hs.laid.push_plain (by rw [← hdepth]; exact h.nonneg) hlayout heof (by omega)
  rw [← hdepth, ← htokens, ← h.indents] at hlaid
  exact ⟨hlaid, h.indents ▸ hs.margin, h.text, h.small⟩

lemma space_ascii (b : UInt8) (h : decide (b = 32)) : b.toNat < 128 := by
  rw [of_decide_eq_true h]
  decide

/-- The blocks that a line ends leave the margin on the stack. -/
lemma margin_left {width : Nat} {stack : List Nat} (h : 0 ∈ stack) :
    0 ∈ stack.dropWhile fun n => width < n := by
  have hsplit := @List.takeWhile_append_dropWhile _ (fun n => decide (width < n)) stack
  rw [← hsplit] at h
  rcases List.mem_append.mp h with hfront | hback
  · have hlt := List.mem_takeWhile_imp hfront
    simp at hlt
  · exact hback

/-- The indentation of a line keeps the invariant. -/
lemma handleLineStart_spec (hs : Sound s) (hdepth : s.parenDepth = 0) :
    Within (fun stop => stop ≠ .panic)
      (fun s' => Sound s' ∧ s'.parenDepth = 0 ∧ s'.rest.length ≤ s.rest.length)
      (handleLineStart s) := by
  have htext : Text (s.rest.drop (s.rest.takeWhile fun b => b = 32).length) :=
    hs.text.drop_run space_ascii
  have hpos := hs.indents_pos
  have hlaid := hs.laid
  rw [hdepth] at hlaid
  unfold handleLineStart
  generalize hwidth : (s.rest.takeWhile fun b => b = 32).length = width at htext
  have hshort : (s.rest.drop width).length ≤ s.rest.length := by
    rw [List.length_drop]
    omega
  have hdone : Sound { s.advance width with atLineStart := false } ∧ s.parenDepth = 0 ∧
      (s.rest.drop width).length ≤ s.rest.length :=
    ⟨⟨hs.laid, hs.margin, htext, hs.small⟩, hdepth, hshort⟩
  simp only []
  split
  · exact hdone
  · split_ifs with htab hline hcomment
    · simp
    · exact hdone
    · exact hdone
    · split
      · rename_i hnil
        have hnil : s.indents = [] := hnil
        rw [hnil] at hpos
        cases hpos
      · rename_i current below hindents
        have hindents : s.indents = current :: below := hindents
        split_ifs with hdeeper hshallower
        · have hpush := hlaid.push_indent (by omega) s.line 1
          refine ⟨⟨?_, List.mem_cons_of_mem _ hs.margin, htext, hs.small⟩, hdepth, hshort⟩
          show Laid (s.tokens ++ [⟨.indent, s.line, 1⟩]) s.parenDepth
            (((width :: s.indents).length : Int) - 1)
          rw [hdepth, List.length_cons]
          have hlevel : ((s.indents.length + 1 : Nat) : Int) - 1 = (s.indents.length : Int) - 1 + 1 := by
            omega
          rwa [hlevel]
        · have hmargin := @margin_left width s.indents hs.margin
          have hlengths : s.indents.length =
              (s.indents.takeWhile fun n => width < n).length +
                (s.indents.dropWhile fun n => width < n).length := by
            rw [← List.length_append, List.takeWhile_append_dropWhile]
          have hleft := List.length_pos_of_mem hmargin
          split
          · rename_i hnil
            have hnil : (s.indents.dropWhile fun n => width < n) = [] := hnil
            rw [hnil] at hmargin
            cases hmargin
          · split_ifs
            · simp
            · have hpush := hlaid.push_dedents s.line 1
                (s.indents.takeWhile fun n => width < n).length (by omega)
              refine ⟨⟨?_, hmargin, htext, hs.small⟩, hdepth, hshort⟩
              show Laid (s.tokens ++ List.replicate (s.indents.takeWhile fun n => width < n).length
                ⟨.dedent, s.line, 1⟩) s.parenDepth
                (((s.indents.dropWhile fun n => width < n).length : Int) - 1)
              rw [hdepth]
              have hlevel : ((s.indents.dropWhile fun n => width < n).length : Int) - 1 =
                  (s.indents.length : Int) - 1 -
                    ((s.indents.takeWhile fun n => width < n).length : Int) := by
                omega
              rwa [hlevel]
        · exact hdone

/-- The end of a line keeps the invariant. -/
lemma sound_newline (hs : Sound s) {after : List UInt8} (htext : Text after) :
    Sound (readNewline s after) := by
  have hpos := hs.indents_pos
  unfold readNewline
  by_cases hdepth : s.parenDepth = 0
  · have hlaid := hs.laid
    rw [hdepth] at hlaid
    rw [if_pos hdepth]
    simp only []
    split_ifs
    · have hpush := hlaid.push_newline (by omega) s.line s.col
      refine ⟨?_, hs.margin, htext, hs.small⟩
      show Laid (s.tokens ++ [⟨.newline, s.line, s.col⟩]) s.parenDepth _
      rwa [hdepth]
    · exact ⟨hs.laid, hs.margin, htext, hs.small⟩
  · rw [if_neg hdepth]
    exact ⟨hs.laid, hs.margin, htext, hs.small⟩

lemma rest_newline (s : State) (after : List UInt8) : (readNewline s after).rest = after := by
  unfold readNewline State.emit
  simp only []
  split_ifs <;> rfl

/-- What a turn does behind the indentation keeps the invariant, and takes a byte at least. -/
lemma readItem_spec (hs : Sound s) (hne : s.rest ≠ []) :
    Within (fun stop => stop = .panic → Deep s)
      (fun s' => Sound s' ∧ s'.rest.length < s.rest.length) (readItem s) := by
  obtain ⟨c, after, hrest⟩ := List.exists_cons_of_ne_nil hne
  have htext : Text (c :: after) := hrest ▸ hs.text
  unfold readItem
  rw [hrest]
  simp only []
  split_ifs with hcomment hline hblank
  · refine ⟨⟨hs.laid, hs.margin, ?_, hs.small⟩, ?_⟩
    · show Text (s.rest.drop _)
      rw [hrest]
      exact htext.drop_line
    · show (s.rest.drop _).length < (c :: after).length
      have hpos : 0 < ((c :: after).takeWhile fun b => decide (b ≠ 10)).length :=
        takeWhile_pos (by rw [hcomment.1]; decide)
      rw [hrest, List.length_drop]
      simp only [List.length_cons] at hpos ⊢
      omega
  · subst hline
    refine ⟨sound_newline hs (@Text.behind [] after 10 htext (by decide)), ?_⟩
    rw [rest_newline]
    exact Nat.lt_succ_self _
  · have hc : c.toNat < 128 := by
      rcases hblank with rfl | rfl <;> decide
    refine ⟨⟨hs.laid, hs.margin, ?_, hs.small⟩, ?_⟩
    · show Text (s.rest.drop 1)
      rw [hrest]
      exact @Text.behind [] after c htext hc
    · show (s.rest.drop 1).length < (c :: after).length
      rw [hrest]
      exact Nat.lt_succ_self _
  · refine (readToken_spec hs.ready hne).mono (fun _ h => h) fun s' h => ⟨hs.reads h, ?_⟩
    rw [← hrest]
    exact h.shorter

/-- A turn keeps the invariant, and takes a byte at least; the program stops only at a deep state. -/
theorem turn_spec (hs : Sound s) (hne : s.rest ≠ []) :
    Within (fun stop => stop = .panic → Deep s)
      (fun s' => Sound s' ∧ s'.rest.length < s.rest.length) (turn s) := by
  unfold turn
  by_cases hstart : s.atLineStart ∧ s.parenDepth = 0
  · rw [if_pos hstart]
    refine Within.bind ((handleLineStart_spec hs hstart.2).mono (fun _ h hpanic => absurd hpanic h)
      fun _ h => h) ?_
    rintro s₁ - ⟨hs₁, hdepth, hshort⟩
    by_cases hend : s₁.rest = []
    · have hitem : readItem s₁ = .ok s₁ := by
        unfold readItem
        rw [hend]
      show Within _ _ (readItem s₁)
      rw [hitem]
      refine ⟨hs₁, ?_⟩
      rw [hend]
      exact List.length_pos_iff.mpr hne
    · refine (readItem_spec hs₁ hend).mono (fun stop hdeep hpanic => ?_)
        fun s' h => ⟨h.1, h.2.trans_le hshort⟩
      have hmax := (hdeep hpanic).1
      omega
  · rw [if_neg hstart]
    exact readItem_spec hs hne

/-- An opening bracket is a symbol whatever is behind it. -/
lemma symbol_opening {c : UInt8} (hc : c = 91 ∨ c = 40 ∨ c = 123) (next : Option UInt8) :
    ∃ kind, symbol c next = some (kind, 1) ∧ kind.bracket = 1 := by
  have hdouble : (next.bind fun b => doubleSymbols.lookup (c, b)) = none := by
    cases next with
    | none => rfl
    | some b =>
        refine List.lookup_eq_none_iff.mpr fun p hp => ?_
        have hne : ∀ p ∈ doubleSymbols, p.1.1 ≠ 91 ∧ p.1.1 ≠ 40 ∧ p.1.1 ≠ 123 := by decide
        obtain ⟨h₁, h₂, h₃⟩ := hne p hp
        simp only [bne_iff_ne, ne_eq]
        intro heq
        rw [← heq] at h₁ h₂ h₃
        rcases hc with hc | hc | hc
        · exact h₁ hc
        · exact h₂ hc
        · exact h₃ hc
  unfold symbol
  rw [hdouble]
  rcases hc with rfl | rfl | rfl
  · exact ⟨.lBracket, rfl, rfl⟩
  · exact ⟨.lParen, rfl, rfl⟩
  · exact ⟨.lBrace, rfl, rfl⟩

/-- At a deep state the program stops. -/
lemma turn_deep (h : Deep s) : turn s = .error .panic := by
  obtain ⟨hdepth, c, after, hrest, hc⟩ := h
  have hitem : readItem s = readToken s := by
    unfold readItem
    rw [hrest]
    rcases hc with rfl | rfl | rfl <;> rfl
  have htoken : readToken s = readSymbol c s := by
    unfold readToken
    rw [hrest]
    rcases hc with rfl | rfl | rfl <;> rfl
  obtain ⟨kind, hkind, hopen⟩ := symbol_opening hc s.rest[1]?
  unfold turn
  rw [if_neg (by omega)]
  show readItem s = _
  rw [hitem, htoken, readSymbol, hkind]
  simp only []
  rw [if_pos (by omega)]

/-! ## The scan -/

/-- The scan of a source, state by state. -/
def scanning (src : List Char) : System State where
  init s := s = State.new src
  step s s' := s.rest ≠ [] ∧ turn s = .ok s'

/-- The states of a scan keep the invariant. -/
lemma sound_of_reachable {src : List Char} (h : (scanning src).Reachable s) : Sound s := by
  refine h.invariant (fun s hinit => ?_) fun s s' _ hs hstep => ?_
  · rw [hinit]
    exact sound_new src
  · have hturn := turn_spec hs hstep.1
    rw [hstep.2] at hturn
    exact hturn.1

/-- No state of the scan of a source is deep: it never has 2^31 - 1 brackets open where one more
stands. -/
def Shallow (src : List Char) : Prop := ∀ s, (scanning src).Reachable s → ¬ Deep s

/-- The scan ends within as many turns as there are bytes; further turns change nothing. -/
lemma scan_ends {src : List Char} : ∀ (n : Nat) (s : State), (scanning src).Reachable s →
    s.rest.length ≤ n → ∃ r, (∀ turns, n < turns → scan turns s = some r) ∧
      (Shallow src → r ≠ .error .panic) := by
  intro n
  induction n with
  | zero =>
      intro s _ hlen
      have hnil : s.rest = [] := List.length_eq_zero_iff.mp (by omega)
      refine ⟨.ok s, fun turns hturns => ?_, by simp⟩
      obtain ⟨turns, rfl⟩ := Nat.exists_eq_succ_of_ne_zero (by omega : turns ≠ 0)
      rw [Nat.succ_eq_add_one, scan, if_pos hnil]
  | succ n ih =>
      intro s hreach hlen
      by_cases hnil : s.rest = []
      · refine ⟨.ok s, fun turns hturns => ?_, by simp⟩
        obtain ⟨turns, rfl⟩ := Nat.exists_eq_succ_of_ne_zero (by omega : turns ≠ 0)
        rw [Nat.succ_eq_add_one, scan, if_pos hnil]
      · have hspec := turn_spec (sound_of_reachable hreach) hnil
        cases hturn : turn s with
        | error stop =>
            rw [hturn] at hspec
            refine ⟨.error stop, fun turns hturns => ?_, fun hshallow hpanic => ?_⟩
            · obtain ⟨turns, rfl⟩ := Nat.exists_eq_succ_of_ne_zero (by omega : turns ≠ 0)
              rw [Nat.succ_eq_add_one, scan, if_neg hnil, hturn]
            · exact hshallow s hreach (hspec (Except.error.inj hpanic))
        | ok s' =>
            rw [hturn] at hspec
            obtain ⟨r, hr, hpanic⟩ := ih s' (hreach.step ⟨hnil, hturn⟩) (by have := hspec.2; omega)
            refine ⟨r, fun turns hturns => ?_, hpanic⟩
            obtain ⟨turns, rfl⟩ := Nat.exists_eq_succ_of_ne_zero (by omega : turns ≠ 0)
            rw [Nat.succ_eq_add_one, scan, if_neg hnil, hturn]
            exact hr turns (by omega)

/-- The scan goes through the states that it reaches. -/
lemma scan_of_steps {src : List Char} (h : Relation.ReflTransGen (scanning src).step s s') :
    ∃ k, ∀ n, scan (n + k) s = scan n s' := by
  induction h using Relation.ReflTransGen.head_induction_on with
  | refl => exact ⟨0, fun n => rfl⟩
  | head hstep _ ih =>
      obtain ⟨k, hk⟩ := ih
      refine ⟨k + 1, fun n => ?_⟩
      rw [← Nat.add_assoc, scan, if_neg hstep.1, hstep.2]
      exact hk n

/-- A scan that reaches a deep state stops the program. -/
lemma tokenize_deep {src : List Char} (hreach : (scanning src).Reachable s) (hdeep : Deep s) :
    ∃ k, ∀ n, tokenize (n + 1 + k) src = some (.error .panic) := by
  obtain ⟨i, rfl, hsteps⟩ := hreach
  obtain ⟨k, hk⟩ := scan_of_steps hsteps
  have hne : s.rest ≠ [] := by
    obtain ⟨-, c, after, hrest, -⟩ := hdeep
    rw [hrest]
    simp
  refine ⟨k, fun n => ?_⟩
  rw [tokenize, hk, scan, if_neg hne, turn_deep hdeep]
  rfl

/-- The state at the end of a scan keeps the invariant. -/
lemma sound_of_scan : ∀ (turns : Nat) (s : State), Sound s →
    scan turns s = some (.ok s') → Sound s' := by
  intro turns
  induction turns with
  | zero =>
      intro s _ h
      cases h
  | succ turns ih =>
      intro s hs h
      rw [scan] at h
      split_ifs at h with hnil
      · cases h
        exact hs
      · have hspec := turn_spec hs hnil
        cases hturn : turn s with
        | error stop => simp [hturn] at h
        | ok s₁ =>
            rw [hturn] at hspec h
            exact ih s₁ hspec.1 h

/-- The tokens of a source are laid out. -/
lemma laidOut_tokenize {turns : Nat} {src : List Char} {toks : List Token}
    (h : tokenize turns src = some (.ok toks)) : LaidOut toks := by
  obtain ⟨r, hr, hfinish⟩ := Option.map_eq_some_iff.mp h
  obtain ⟨s, rfl, rfl⟩ := Lib.Except.map_eq_ok.mp hfinish
  have hs := sound_of_scan turns _ (sound_new src) hr
  exact laidOut_finish hs.laid (List.ne_nil_of_mem hs.margin)

end Verbosec.Lexer
