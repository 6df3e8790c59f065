import Mathlib.Algebra.Order.Ring.Int
import Verbosec.Lexer.Tokenize
import Mathlib.Algebra.BigOperators.Group.List.Basic
import Mathlib.Tactic.Common

/-!
# The layout of the tokens

* `depth`, `level` - the brackets and the blocks that are open behind some tokens.
* `LaidOut` - the layout of a token stream: balanced blocks, one end, no lines inside brackets.
* `Laid` - the layout of the tokens that the scan has emitted so far, `Laid.push` for one more.
* `laidOut_finish` - the tokens at the end of the source complete it.
-/

namespace Verbosec.Lexer

/-! ## Depth and level -/

/-- One more block at an indent, one less at a dedent. -/
def TokenKind.block : TokenKind → Int
  | .indent => 1
  | .dedent => -1
  | _ => 0

/-- The tokens of lines and blocks. -/
def TokenKind.isLayout : TokenKind → Bool
  | .newline | .indent | .dedent => true
  | _ => false

/-- The number of brackets that are open behind some tokens. -/
def depth (toks : List Token) : Int := (toks.map fun t => t.kind.bracket).sum

/-- The number of blocks that are open behind some tokens. -/
def level (toks : List Token) : Int := (toks.map fun t => t.kind.block).sum

/-- The indents among some tokens. -/
def indents (toks : List Token) : Nat := toks.countP fun t => t.kind = .indent

/-- The dedents among some tokens. -/
def dedents (toks : List Token) : Nat := toks.countP fun t => t.kind = .dedent

@[simp] lemma depth_nil : depth [] = 0 := rfl

@[simp] lemma level_nil : level [] = 0 := rfl

@[simp] lemma depth_append (xs ys : List Token) : depth (xs ++ ys) = depth xs + depth ys := by
  simp [depth]

@[simp] lemma level_append (xs ys : List Token) : level (xs ++ ys) = level xs + level ys := by
  simp [level]

@[simp] lemma depth_cons (t : Token) (toks : List Token) :
    depth (t :: toks) = t.kind.bracket + depth toks := by
  simp [depth]

@[simp] lemma level_cons (t : Token) (toks : List Token) :
    level (t :: toks) = t.kind.block + level toks := by
  simp [level]

/-- The level is the number of indents less the number of dedents. -/
lemma level_eq (toks : List Token) : level toks = indents toks - dedents toks := by
  induction toks with
  | nil => rfl
  | cons t toks ih =>
      rw [level_cons, ih, indents, dedents, indents, dedents, List.countP_cons, List.countP_cons]
      cases t.kind <;> simp [TokenKind.block] <;> omega

lemma bracket_of_layout {kind : TokenKind} (h : kind.isLayout) : kind.bracket = 0 := by
  cases kind <;> first | rfl | cases h

lemma block_of_not_layout {kind : TokenKind} (h : kind.isLayout = false) : kind.block = 0 := by
  cases kind <;> first | rfl | cases h

/-! ## The layout of a token stream -/

/-- What stands between a bracket and its matching one: as many closing brackets as opening ones, and
at no point more. Brackets of all kinds are matched with each other. -/
structure Nested (toks : List Token) : Prop where
  at_all_points : ∀ p, p <+: toks → 0 ≤ depth p
  total : depth toks = 0

/-- The layout of a token stream. -/
structure LaidOut (toks : List Token) : Prop where
  at_all_points : ∀ p, p <+: toks → dedents p ≤ indents p
  total : indents toks = dedents toks
  one_eof : ∃ front last, toks = front ++ [last] ∧ last.kind = .eof ∧ ∀ t ∈ front, t.kind ≠ .eof
  brackets : ∀ before opening inside closing after,
    toks = before ++ opening :: (inside ++ closing :: after) →
    opening.kind.bracket = 1 → closing.kind.bracket = -1 → Nested inside →
    ∀ t ∈ inside, t.kind.isLayout = false

/-! ## The tokens of the scan -/

/-- The blocks that are open behind some tokens, never fewer than none. -/
structure Leveled (toks : List Token) (l : Int) : Prop where
  level_eq : level toks = l
  nonneg : ∀ p, p <+: toks → 0 ≤ level p

/-- The layout of the tokens that the scan has emitted: the brackets and blocks that are open, never
fewer than none, and no line or block inside brackets. -/
structure Laid (toks : List Token) (d l : Int) : Prop where
  depth_eq : depth toks = d
  leveled : Leveled toks l
  depth_nonneg : ∀ p, p <+: toks → 0 ≤ depth p
  layout : ∀ p t, p ++ [t] <+: toks → t.kind.isLayout → depth p = 0
  no_eof : ∀ t ∈ toks, t.kind ≠ .eof

variable {toks : List Token} {d l : Int}

lemma Laid.nil : Laid [] 0 0 where
  depth_eq := rfl
  leveled := ⟨rfl, fun p hp => by simp [List.prefix_nil.mp hp]⟩
  depth_nonneg p hp := by simp [List.prefix_nil.mp hp]
  layout p t hp := by simp at hp
  no_eof t ht := by cases ht

lemma Laid.nonneg (h : Laid toks d l) : 0 ≤ d := h.depth_eq ▸ h.depth_nonneg toks (List.prefix_refl _)

/-- One more token that leaves no block open that is not there. -/
lemma Leveled.push (h : Leveled toks l) {t : Token} (hl : 0 ≤ l + t.kind.block) :
    Leveled (toks ++ [t]) (l + t.kind.block) where
  level_eq := by simp [h.level_eq]
  nonneg p hp := by
    rcases List.prefix_concat_iff.mp hp with rfl | hp
    · simpa [h.level_eq] using hl
    · exact h.nonneg p hp

/-- The ends of some blocks. -/
lemma Leveled.push_dedents (h : Leveled toks l) (line col : Nat) : ∀ n : Nat, (n : Int) ≤ l →
    Leveled (toks ++ List.replicate n ⟨.dedent, line, col⟩) (l - n) := by
  intro n
  induction n with
  | zero =>
      intro _
      simpa using h
  | succ n ih =>
      intro hn
      have hpush := (ih (by omega)).push (t := ⟨.dedent, line, col⟩)
        (by simp only [TokenKind.block]; omega)
      rw [List.replicate_succ', ← List.append_assoc]
      have hl : l - ((n + 1 : Nat) : Int) = l - n + TokenKind.dedent.block := by
        simp only [TokenKind.block]
        omega
      rw [hl]
      exact hpush

/-- One more token. -/
theorem Laid.push (h : Laid toks d l) {t : Token} (hd : 0 ≤ d + t.kind.bracket)
    (hl : 0 ≤ l + t.kind.block) (hlayout : t.kind.isLayout → d = 0) (heof : t.kind ≠ .eof) :
    Laid (toks ++ [t]) (d + t.kind.bracket) (l + t.kind.block) where
  depth_eq := by simp [h.depth_eq]
  leveled := h.leveled.push hl
  depth_nonneg p hp := by
    rcases List.prefix_concat_iff.mp hp with rfl | hp
    · simpa [h.depth_eq] using hd
    · exact h.depth_nonneg p hp
  layout p u hp hu := by
    rcases List.prefix_concat_iff.mp hp with heq | hp
    · obtain ⟨rfl, hut⟩ := List.append_inj' heq rfl
      rw [h.depth_eq]
      exact hlayout (by rwa [← List.singleton_inj.mp hut])
    · exact h.layout p u hp hu
  no_eof u hu := by
    rcases List.mem_append.mp hu with hu | hu
    · exact h.no_eof u hu
    · rwa [List.mem_singleton.mp hu]

/-- One more token that is of no line and no block. -/
lemma Laid.push_plain (h : Laid toks d l) {t : Token} (hd : 0 ≤ d + t.kind.bracket)
    (hplain : t.kind.isLayout = false) (heof : t.kind ≠ .eof) (hl : 0 ≤ l) :
    Laid (toks ++ [t]) (d + t.kind.bracket) l := by
  have hblock := block_of_not_layout hplain
  have hpush := h.push hd (by omega) (fun hlayout => by simp [hplain] at hlayout) heof
  rwa [hblock, add_zero] at hpush

/-- One more line. -/
lemma Laid.push_newline (h : Laid toks 0 l) (hl : 0 ≤ l) (line col : Nat) :
    Laid (toks ++ [⟨.newline, line, col⟩]) 0 l := by
  have hpush := h.push (t := ⟨.newline, line, col⟩) (by simp [TokenKind.bracket]) (by simpa [TokenKind.block])
    (fun _ => rfl) (by simp)
  simpa [TokenKind.bracket, TokenKind.block] using hpush

/-- One more block. -/
lemma Laid.push_indent (h : Laid toks 0 l) (hl : 0 ≤ l) (line col : Nat) :
    Laid (toks ++ [⟨.indent, line, col⟩]) 0 (l + 1) := by
  have hpush := h.push (t := ⟨.indent, line, col⟩) (by simp [TokenKind.bracket])
    (by simp only [TokenKind.block]; omega) (fun _ => rfl) (by simp)
  simpa [TokenKind.bracket, TokenKind.block] using hpush

/-- Some blocks end. -/
lemma Laid.push_dedents (h : Laid toks 0 l) (line col : Nat) :
    ∀ n : Nat, (n : Int) ≤ l →
      Laid (toks ++ List.replicate n ⟨.dedent, line, col⟩) 0 (l - n) := by
  intro n
  induction n with
  | zero =>
      intro _
      simpa using h
  | succ n ih =>
      intro hn
      have hpush := (ih (by omega)).push (t := ⟨.dedent, line, col⟩) (by simp [TokenKind.bracket])
        (by simp only [TokenKind.block]; omega) (fun _ => rfl) (by simp)
      rw [List.replicate_succ', ← List.append_assoc]
      have hl : l - ((n + 1 : Nat) : Int) = l - n + TokenKind.dedent.block := by
        simp only [TokenKind.block]
        omega
      rw [hl]
      exact hpush

/-! ## The end of the source -/

/-- Between brackets that match, the scan has emitted no line and no block. -/
lemma Laid.brackets (h : Laid toks d l) {before inside : List Token} {opening : Token}
    (hsub : before ++ opening :: inside <+: toks) (hopen : opening.kind.bracket = 1)
    (hnested : ∀ p, p <+: inside → 0 ≤ depth p) : ∀ t ∈ inside, t.kind.isLayout = false := by
  intro t ht
  by_contra hlayout
  obtain ⟨front, back, rfl⟩ := List.append_of_mem ht
  have hbefore : 0 ≤ depth before :=
    h.depth_nonneg before ((List.prefix_append _ _).trans hsub)
  have hfront := hnested front (List.prefix_append _ _)
  have hat : (before ++ opening :: front) ++ [t] <+: toks := by
    refine List.IsPrefix.trans ?_ hsub
    exact ⟨back, by simp⟩
  have hzero := h.layout _ t hat (by simpa using hlayout)
  simp only [depth_append, depth_cons, hopen] at hzero
  omega

/-- The tokens that end a stream have no brackets among them, so a closing bracket is one of those
before them. -/
lemma prefix_of_closing {toks tail before after : List Token} {closing : Token}
    (h : toks ++ tail = before ++ closing :: after) (hclosing : closing.kind.bracket = -1)
    (htail : ∀ t ∈ tail, t.kind.bracket = 0) : before <+: toks := by
  rcases List.append_eq_append_iff.mp h with ⟨mid, rfl, hmid⟩ | ⟨mid, rfl, -⟩
  · have hzero := htail closing (by rw [hmid]; simp)
    omega
  · exact List.prefix_append _ _

/-- The tokens behind those of the scan. -/
def tail (s : State) : List Token :=
  (if s.tokens.getLast?.all fun t => t.kind = .newline then []
    else [⟨.newline, s.line, s.col⟩]) ++
    List.replicate (s.indents.length - 1) ⟨.dedent, s.line, s.col⟩

lemma finish_eq (s : State) : finish s = s.tokens ++ tail s ++ [⟨.eof, s.line, s.col⟩] := by
  unfold finish tail State.emit
  by_cases h : s.tokens.getLast?.all fun t => t.kind = .newline <;> simp [h]

lemma layout_of_mem_tail {s : State} {t : Token} (ht : t ∈ tail s) : t.kind.isLayout = true := by
  unfold tail at ht
  rcases List.mem_append.mp ht with ht | ht
  · split_ifs at ht
    · cases ht
    · rw [List.mem_singleton.mp ht]
      rfl
  · rw [List.eq_of_mem_replicate ht]
    rfl

/-- The end of the source ends the blocks that are open. -/
lemma leveled_finish {s : State} (h : Leveled s.tokens ((s.indents.length : Int) - 1))
    (hne : s.indents ≠ []) : Leveled (finish s) 0 := by
  have hpos := List.length_pos_iff.mpr hne
  have hline : ∀ {toks l}, Leveled toks l → 0 ≤ l → ∀ t : Token, t.kind.block = 0 →
      Leveled (toks ++ [t]) l := by
    intro toks l hl hnonneg t ht
    simpa [ht] using hl.push (t := t) (by omega)
  have htail : Leveled (s.tokens ++ tail s) 0 := by
    unfold tail
    rw [← List.append_assoc]
    have hdedents := fun toks (hl : Leveled toks ((s.indents.length : Int) - 1)) =>
      hl.push_dedents s.line s.col (s.indents.length - 1) (by omega)
    have hzero : (s.indents.length : Int) - 1 - ((s.indents.length - 1 : Nat) : Int) = 0 := by omega
    rw [hzero] at hdedents
    refine hdedents _ ?_
    split_ifs
    · rwa [List.append_nil]
    · exact hline h (by omega) _ rfl
  rw [finish_eq]
  exact hline htail (by omega) _ rfl

/-- The tokens that end a stream: at most one line, the ends of the blocks, and the end of the
source. -/
theorem laidOut_finish {s : State} (h : Laid s.tokens s.parenDepth ((s.indents.length : Int) - 1))
    (hne : s.indents ≠ []) : LaidOut (finish s) := by
  obtain ⟨htotal, hlevels⟩ := leveled_finish h.leveled hne
  refine ⟨fun p hp => ?_, ?_, ?_, ?_⟩
  · have := hlevels p hp
    rw [level_eq] at this
    omega
  · rw [level_eq] at htotal
    omega
  · refine ⟨s.tokens ++ tail s, _, finish_eq s, rfl, fun t ht => ?_⟩
    rcases List.mem_append.mp ht with ht | ht
    · exact h.no_eof t ht
    · intro heof
      have hlayout := layout_of_mem_tail ht
      rw [heof] at hlayout
      cases hlayout
  · intro before opening inside closing after heq hopen hclosing hnested
    have hsub : before ++ opening :: inside <+: s.tokens := by
      refine @prefix_of_closing s.tokens (tail s ++ [⟨.eof, s.line, s.col⟩]) _ after closing ?_
        hclosing fun t ht => ?_
      · rw [← List.append_assoc, ← finish_eq, heq]
        simp
      · rcases List.mem_append.mp ht with ht | ht
        · exact bracket_of_layout (layout_of_mem_tail ht)
        · rw [List.mem_singleton.mp ht]
          rfl
    exact h.brackets hsub hopen hnested.at_all_points

end Verbosec.Lexer
