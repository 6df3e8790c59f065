import Verbosec.Parser.Rendering

/-!
# The parser on renderings

* `Yields` - with enough fuel, a parser succeeds; `TailYields` - so does the rest of a level.
* `tail_stop`, `tail_step`, `tail_cmp`, `Yields.through`, `Yields.lift` - the levels of the
  operators.
* `Stops` - the tokens that end an expression.
* `yields_paren`, `yields_path`, `yields_call`, `yields_ite` - the other forms.
* `Parses`, `Chains` - what holds of the tokens of a tree without parentheses around it: at its own
  level it is read, and in front of more operators of that level it is their first operand.
* `parseExpr_render` - every rendering with the required parentheses is read as its tree.

Source: `parser.rs`, `parse_expr` .. `parse_primary`.
-/

namespace Verbosec.Parser

open Lexer

/-! ## Enough fuel -/

/-- With enough fuel for the nested expressions and the loops, a parser succeeds. -/
def Yields {α : Type} (p : Nat → Nat → Parse α) (ts : List Token) (a : α) (us : List Token) :
    Prop :=
  ∃ N, ∀ m n, N ≤ m → N ≤ n → (p m n).run ts = .ok (a, us)

section yields

variable {α β : Type} {ts us vs : List Token} {t u : Token}

/-- A parser and then another. -/
lemma Yields.bind {p : Nat → Nat → Parse α} {f : Nat → Nat → α → Parse β} {a : α} {b : β}
    (hp : Yields p ts a us) (hf : Yields (fun m n => f m n a) us b vs) :
    Yields (fun m n => p m n >>= f m n) ts b vs := by
  obtain ⟨N, hN⟩ := hp
  obtain ⟨N', hN'⟩ := hf
  refine ⟨max N N', fun m n hm hn => ?_⟩
  rw [run_bind_ok (hN m n (by omega) (by omega))]
  exact hN' m n (by omega) (by omega)

/-- A step that needs no fuel, and then a parser. -/
lemma Yields.step {p : Parse α} {f : Nat → Nat → α → Parse β} {a : α} {b : β}
    (hp : p.run ts = .ok (a, us)) (hf : Yields (fun m n => f m n a) us b vs) :
    Yields (fun m n => p >>= f m n) ts b vs :=
  Yields.bind ⟨0, fun _ _ _ _ => hp⟩ hf

lemma Yields.pure (a : α) : Yields (fun _ _ => pure a) ts a ts := ⟨0, fun _ _ _ _ => rfl⟩

/-- A nested expression is an expression of the lowest level. -/
lemma Yields.expr {e : Expr} (h : Yields (level 0) ts e us) :
    Yields (fun m _ => parseExpr m) ts e us := by
  obtain ⟨N, hN⟩ := h
  refine ⟨N + 1, fun m _ hm _ => ?_⟩
  obtain ⟨m, rfl⟩ := Nat.exists_eq_add_of_le' (Nat.one_le_of_lt hm)
  exact hN m m (by omega) (by omega)

end yields

/-! ## Operators -/

/-- With enough fuel, the rest of a level succeeds after its first operand. -/
def TailYields (k : Nat) (left : Expr) (ts : List Token) (e : Expr) (us : List Token) : Prop :=
  ∃ N, ∀ m n c, N ≤ m → N ≤ n → N ≤ c → (tail k m n c left).run ts = .ok (e, us)

section operators

variable {k : Nat} {left right e : Expr} {op : BinOp} {ts us vs : List Token} {t u : Token}

/-- A token that is no operator of the level ends it. -/
lemma tail_stop (h : opAt k u.kind = none) : TailYields k left (u :: us) left (u :: us) := by
  refine ⟨1, fun m n c _ _ hc => ?_⟩
  unfold tail
  by_cases hk : k = 2
  · subst hk
    rw [if_pos rfl, run_bind_ok run_peekKind]
    simp only [Option.bind_some, show cmpOp? u.kind = none from h]
    rfl
  · obtain ⟨c, rfl⟩ := Nat.exists_eq_add_of_le' hc
    rw [if_neg hk, chain, run_bind_ok run_peekKind]
    simp only [Option.bind_some, h]
    rfl

/-- An operator of a loop takes its right operand, and the loop goes on. -/
lemma tail_step (hk : k ≠ 2) (hop : opAt k t.kind = some op) (hts : ts ≠ [])
    (hright : Yields (level (k + 1)) ts right us)
    (hrest : TailYields k (.binary op left right) us e vs) : TailYields k left (t :: ts) e vs := by
  obtain ⟨N, hN⟩ := hright
  obtain ⟨N', hN'⟩ := hrest
  refine ⟨max N N' + 1, fun m n c hm hn hc => ?_⟩
  obtain ⟨c, rfl⟩ := Nat.exists_eq_add_of_le' (Nat.one_le_of_lt hc)
  have hrest := hN' m n c (by omega) (by omega) (by omega)
  rw [tail, if_neg hk] at hrest ⊢
  rw [chain, run_bind_ok run_peekKind]
  simp only [Option.bind_some, hop]
  rw [run_bind_ok (run_advance hts), run_bind_ok (hN m n (by omega) (by omega))]
  exact hrest

/-- A comparison takes its right operand and is over. -/
lemma tail_cmp (hop : opAt 2 t.kind = some op) (hts : ts ≠ [])
    (hright : Yields (level 3) ts right us) :
    TailYields 2 left (t :: ts) (.binary op left right) us := by
  obtain ⟨N, hN⟩ := hright
  refine ⟨N, fun m n c hm hn _ => ?_⟩
  rw [tail, if_pos rfl, run_bind_ok run_peekKind]
  simp only [Option.bind_some, show cmpOp? t.kind = some op from hop]
  rw [run_bind_ok (run_advance hts), run_bind_ok (hN m n hm hn)]
  rfl

/-- A level is its first operand and the rest. -/
lemma Yields.through (hk : k ≤ 4) (h : Yields (level (k + 1)) ts left us)
    (htail : TailYields k left us e vs) : Yields (level k) ts e vs := by
  obtain ⟨N, hN⟩ := h
  obtain ⟨N', hN'⟩ := htail
  refine ⟨max N N', fun m n hm hn => ?_⟩
  rw [level_eq hk, run_bind_ok (hN m n (by omega) (by omega))]
  exact hN' m n n (by omega) (by omega) (by omega)

/-- What a level reads is read by the levels below it, if no operator of theirs follows. -/
lemma Yields.lift {j : Nat} (hkj : k ≤ j) (hj : j ≤ 5) (h : Yields (level j) ts e (u :: us))
    (hstop : ∀ i, k ≤ i → opAt i u.kind = none) : Yields (level k) ts e (u :: us) := by
  induction j with
  | zero => rwa [Nat.le_zero.mp hkj]
  | succ j ih =>
      rcases Nat.lt_or_ge k (j + 1) with hlt | hge
      · exact ih (by omega) (by omega) (h.through (by omega) (tail_stop (hstop j (by omega))))
      · rwa [show k = j + 1 by omega]

/-- A form that is not an operator is an operand. -/
lemma Yields.operand (hnot : t.kind ≠ .ident "not") (hminus : t.kind ≠ .minus)
    (h : Yields (level 6) (t :: ts) e us) : Yields (level 5) (t :: ts) e us := by
  obtain ⟨N, hN⟩ := h
  refine ⟨N + 1, fun m n hm hn => ?_⟩
  obtain ⟨n, rfl⟩ := Nat.exists_eq_add_of_le' (Nat.one_le_of_lt hn)
  show (unary (parseExpr m) (n + 1)).run (t :: ts) = _
  rw [unary, run_bind_ok (run_checkIdent _), decide_eq_false hnot, if_neg Bool.false_ne_true,
    run_bind_ok (run_checkKind _), decide_eq_false hminus, if_neg Bool.false_ne_true]
  exact hN m n (by omega) (by omega)

lemma yields_not (ht : t.kind = .ident "not") (hts : ts ≠ []) (h : Yields (level 5) ts e us) :
    Yields (level 5) (t :: ts) (.not e) us := by
  obtain ⟨N, hN⟩ := h
  refine ⟨N + 1, fun m n hm hn => ?_⟩
  obtain ⟨n, rfl⟩ := Nat.exists_eq_add_of_le' (Nat.one_le_of_lt hn)
  have hinner : (unary (parseExpr m) n).run ts = _ := hN m n (by omega) (by omega)
  show (unary (parseExpr m) (n + 1)).run (t :: ts) = _
  rw [unary, run_bind_ok (run_checkIdent _), decide_eq_true ht, if_pos rfl,
    run_bind_ok (run_advance hts), run_bind_ok hinner]
  rfl

lemma yields_neg (ht : t.kind = .minus) (hts : ts ≠ []) (h : Yields (level 5) ts e us) :
    Yields (level 5) (t :: ts) (.neg e) us := by
  obtain ⟨N, hN⟩ := h
  refine ⟨N + 1, fun m n hm hn => ?_⟩
  obtain ⟨n, rfl⟩ := Nat.exists_eq_add_of_le' (Nat.one_le_of_lt hn)
  have hinner : (unary (parseExpr m) n).run ts = _ := hN m n (by omega) (by omega)
  show (unary (parseExpr m) (n + 1)).run (t :: ts) = _
  rw [unary, run_bind_ok (run_checkIdent _), ht, decide_eq_false (by simp),
    if_neg Bool.false_ne_true, run_bind_ok (run_checkKind _), ht, decide_eq_true rfl, if_pos rfl,
    run_bind_ok (run_advance hts), run_bind_ok hinner]
  rfl

end operators

/-! ## Tokens at which an expression ends -/

/-- No form goes on at a token, and no operator of a level from `b` on. -/
def Stops (b : Nat) (kind : TokenKind) : Prop :=
  kind ∉ [TokenKind.dot, .lParen, .lBrace, .doubleColon] ∧ ∀ k, b ≤ k → opAt k kind = none

lemma Stops.mono {b b' : Nat} {kind : TokenKind} (h : Stops b kind) (hb : b ≤ b') :
    Stops b' kind := ⟨h.1, fun k hk => h.2 k (by omega)⟩

lemma stops_token {op : BinOp} {b : Nat} (h : op.level < b) : Stops b op.token :=
  ⟨by cases op <;> decide, fun k hk => by rw [op.opAt_token, if_neg (by omega)]⟩

/-- A token that is neither an operator nor a name ends an expression. -/
lemma stops_of_none {kind : TokenKind}
    (hkind : kind ∉ [TokenKind.dot, .lParen, .lBrace, .doubleColon])
    (hops : ∀ k < 5, opAt k kind = none) : Stops 0 kind :=
  ⟨hkind, fun k _ => by
    rcases Nat.lt_or_ge k 5 with h | h
    · exact hops k h
    · obtain ⟨k, rfl⟩ := Nat.exists_eq_add_of_le' h
      rfl⟩

lemma stops_rParen : Stops 0 .rParen := stops_of_none (by decide) (by decide)

lemma stops_comma : Stops 0 .comma := stops_of_none (by decide) (by decide)

lemma stops_then : Stops 0 (.ident "then") := stops_of_none (by decide) (by decide)

lemma stops_else : Stops 0 (.ident "else") := stops_of_none (by decide) (by decide)

lemma stops_eof : Stops 0 .eof := stops_of_none (by decide) (by decide)

/-! ## The other forms -/

section forms

variable {e : Expr} {name : String} {t u r : Token} {ts us vs : List Token}

lemma run_primary_number {expr : Parse Expr} {m : Nat} {v : Int64} (ht : t.kind = .number v)
    (hts : ts ≠ []) : (primary expr m).run (t :: ts) = .ok (.number v, ts) := by
  rw [primary, run_bind_ok run_peekKind, ht]
  exact run_bind_ok (run_advance hts)

lemma run_primary_named {expr : Parse Expr} {m : Nat} (ht : t.kind = .ident name)
    (hname : name ∉ reserved) (hts : ts ≠ []) :
    (primary expr m).run (t :: ts) = (named expr m name).run ts := by
  rw [primary, run_bind_ok run_peekKind, ht]
  have hif : name ≠ "if" := by rintro rfl; exact hname (by decide)
  have hmatch : name ≠ "match" := by rintro rfl; exact hname (by decide)
  simp only [hif, hmatch, if_false]
  exact run_bind_ok (run_advance hts)

/-- An expression in parentheses. -/
lemma yields_paren (ht : t.kind = .lParen) (hr : r.kind = .rParen) (hts : ts ≠ [])
    (h : Yields (fun m _ => parseExpr m) ts e (r :: u :: us)) :
    Yields (level 6) (t :: ts) e (u :: us) := by
  obtain ⟨N, hN⟩ := h
  refine ⟨N, fun m n hm hn => ?_⟩
  show (primary (parseExpr m) n).run (t :: ts) = _
  rw [primary, run_bind_ok run_peekKind, ht]
  dsimp only
  rw [run_bind_ok (run_advance hts), run_bind_ok (hN m n hm hn),
    run_bind_ok (run_expectKind hr (List.cons_ne_nil u us))]
  rfl

/-- What follows a name that is no variant, record or call. -/
lemma run_named_path {expr : Parse Expr} {n : Nat}
    (hu : u.kind ∉ [TokenKind.lParen, .lBrace, .doubleColon]) :
    (named expr n name).run (u :: us) = (fieldPath n (.ident name)).run (u :: us) := by
  simp only [List.mem_cons, List.not_mem_nil, or_false, not_or] at hu
  rw [named, run_bind_ok (run_checkKind _), decide_eq_false hu.2.2, if_neg Bool.false_ne_true,
    run_bind_ok (run_checkKind _), decide_eq_false hu.2.1, if_neg Bool.false_ne_true,
    run_bind_ok (run_checkKind _), decide_eq_false hu.1, if_neg Bool.false_ne_true]

/-- A dotted path is read up to its end, and then what follows it. -/
lemma yields_fields {wrap : Wrap} {f : Bool} (he : IsPath e) {out : Expr}
    (hts : ts.map (·.kind) = body wrap f e)
    (hu : u.kind ∉ [TokenKind.lParen, .lBrace, .doubleColon])
    (h : ∃ N, ∀ n, N ≤ n → (fieldPath n e).run (u :: us) = .ok (out, vs)) :
    Yields (level 6) (ts ++ u :: us) out vs := by
  induction he generalizing ts u us with
  | @ident name hname =>
      obtain ⟨t, rfl, ht⟩ := List.map_eq_singleton_iff.mp hts
      obtain ⟨N, hN⟩ := h
      refine ⟨N, fun m n _ hn => ?_⟩
      show (primary (parseExpr m) n).run (t :: u :: us) = _
      rw [run_primary_named ht hname (List.cons_ne_nil u us), run_named_path hu, hN n hn]
  | @field base name hbase ih =>
      rw [body, List.map_eq_append_iff] at hts
      obtain ⟨tb, tf, rfl, htb, htf⟩ := hts
      obtain ⟨d, tf, rfl, hd, htf⟩ := List.map_eq_cons_iff.mp htf
      obtain ⟨x, rfl, hx⟩ := List.map_eq_singleton_iff.mp htf
      obtain ⟨N, hN⟩ := h
      rw [List.append_assoc]
      show Yields (level 6) (tb ++ d :: x :: u :: us) out vs
      refine ih htb (u := d) (by rw [hd]; decide) ⟨N + 1, fun n hn => ?_⟩
      obtain ⟨n, rfl⟩ := Nat.exists_eq_add_of_le' (Nat.one_le_of_lt hn)
      rw [fieldPath, run_bind_ok (run_checkKind _), decide_eq_true hd, if_pos rfl,
        run_bind_ok (run_advance (List.cons_ne_nil _ _)),
        run_bind_ok (run_expectIdentAny hx (List.cons_ne_nil _ _)), hN n (by omega)]

/-- A dotted path. -/
lemma yields_path {wrap : Wrap} {f : Bool} (he : IsPath e)
    (hts : ts.map (·.kind) = body wrap f e) {b : Nat} (hu : Stops b u.kind) :
    Yields (level 6) (ts ++ u :: us) e (u :: us) := by
  have hstop := hu.1
  simp only [List.mem_cons, List.not_mem_nil, or_false, not_or] at hstop
  refine yields_fields he hts (by simp [hstop]) ⟨1, fun n hn => ?_⟩
  obtain ⟨n, rfl⟩ := Nat.exists_eq_add_of_le' hn
  rw [fieldPath, run_bind_ok (run_checkKind _), decide_eq_false hstop.1, if_neg Bool.false_ne_true]
  rfl

/-- No built-in form has another name than theirs. -/
lemma lookup_builtins {expr : Parse Expr} {n : Nat} (h : name ∉ builtinNames) :
    (builtins expr n).lookup name = none := by
  rw [List.lookup_eq_none_iff]
  intro p hp
  have hmem : p.1 ∈ builtinNames := List.mem_map_of_mem (f := (·.1)) hp
  simpa using fun heq : name = p.1 => h (heq ▸ hmem)

/-- A call. -/
lemma yields_call {args : List Expr} (hreserved : name ∉ reserved) (hbuiltin : name ∉ builtinNames)
    (ht : t.kind = .ident name) (hu : u.kind = .lParen) (hus : us ≠ [])
    (h : Yields (fun m n => arguments (parseExpr m) n) us args vs) :
    Yields (level 6) (t :: u :: us) (.call name args) vs := by
  obtain ⟨N, hN⟩ := h
  refine ⟨N, fun m n hm hn => ?_⟩
  show (primary (parseExpr m) n).run (t :: u :: us) = _
  rw [run_primary_named ht hreserved (List.cons_ne_nil u us), named,
    run_bind_ok (run_checkKind _), hu, decide_eq_false (by decide), if_neg Bool.false_ne_true,
    run_bind_ok (run_checkKind _), hu, decide_eq_false (by decide), if_neg Bool.false_ne_true,
    run_bind_ok (run_checkKind _), hu, decide_eq_true rfl, if_pos rfl,
    run_bind_ok (run_advance hus), lookup_builtins hbuiltin]
  dsimp only
  rw [run_bind_ok (hN m n hm hn)]
  rfl

/-- Nothing separates a conditional on one line. -/
lemma run_skip {n depth : Nat} (hn : 1 ≤ n)
    (ht : t.kind ∉ [TokenKind.newline, .indent, .dedent]) :
    (skipIfSeparators n depth).run (t :: ts) = .ok (depth, t :: ts) := by
  obtain ⟨n, rfl⟩ := Nat.exists_eq_add_of_le' hn
  rw [skipIfSeparators, run_bind_ok run_peekKind]
  generalize t.kind = kind at ht
  cases kind <;> first | rfl | exact absurd (by decide) ht

/-- A conditional on one line. -/
lemma yields_ite {c x y : Expr} {tc tt te : List Token} {ti tn tl : Token}
    (hi : ti.kind = .ident "if") (hn : tn.kind = .ident "then") (hl : tl.kind = .ident "else")
    (hsep : ∀ w ∈ [tc, tt, te], ∃ v vs, w = v :: vs ∧
      v.kind ∉ [TokenKind.newline, .indent, .dedent])
    (hc : Yields (fun m _ => parseExpr m) tc c (tn :: tt))
    (hx : Yields (fun m _ => parseExpr m) tt x (tl :: te))
    (hy : Yields (fun m _ => parseExpr m) te y us) :
    Yields (level 6) (ti :: tc) (.ite c x y) us := by
  obtain ⟨Nc, hc⟩ := hc
  obtain ⟨Nx, hx⟩ := hx
  obtain ⟨Ny, hy⟩ := hy
  obtain ⟨vc, tc, rfl, hvc⟩ := hsep tc (by simp)
  obtain ⟨vt, tt, rfl, hvt⟩ := hsep tt (by simp)
  obtain ⟨ve, te, rfl, hve⟩ := hsep te (by simp)
  refine ⟨max (max Nc Nx) Ny + 1, fun m n hm hn' => ?_⟩
  have hpos : 1 ≤ n := by omega
  show (primary (parseExpr m) n).run (ti :: vc :: tc) = _
  rw [primary, run_bind_ok run_peekKind, hi]
  simp only [if_true]
  rw [run_bind_ok (run_advance (List.cons_ne_nil _ _)), ifForm, run_bind_ok (run_skip hpos hvc),
    run_bind_ok (hc m n (by omega) (by omega)),
    run_bind_ok (run_skip hpos (by rw [hn]; decide)),
    run_bind_ok (run_expectIdent hn (List.cons_ne_nil _ _)), run_bind_ok (run_skip hpos hvt),
    run_bind_ok (hx m n (by omega) (by omega)),
    run_bind_ok (run_skip hpos (by rw [hl]; decide)),
    run_bind_ok (run_expectIdent hl (List.cons_ne_nil _ _)), run_bind_ok (run_skip hpos hve),
    run_bind_ok (hy m n (by omega) (by omega))]
  obtain ⟨n, rfl⟩ := Nat.exists_eq_add_of_le' hpos
  rfl

end forms

/-! ## Trees -/

/-- The level of an expression without parentheses around it. -/
def formLevel : Expr → Nat
  | .binary op _ _ => op.level
  | .not _ | .neg _ => 5
  | _ => 6

/-- The tokens no expression starts with that a list or a conditional looks for. -/
def separators : List TokenKind := [.rParen, .newline, .indent, .dedent]

section trees

variable {wrap : Wrap} {e : Expr} {k : Nat} {f : Bool} {ts us vs : List Token} {u : Token}

variable (wrap) (f) in
lemma path_start (he : IsPath e) :
    ∃ name ks, body wrap f e = .ident name :: ks ∧ name ∉ reserved ∧ formLevel e = 6 := by
  induction he with
  | @ident name h => exact ⟨name, [], rfl, h, rfl⟩
  | field _ _ ih =>
      obtain ⟨name, ks, hks, hname, -⟩ := ih
      exact ⟨name, _, by rw [body, hks]; rfl, hname, rfl⟩

variable (wrap) (k) (f) (e) in
lemma wrapped_start {ks : Bool → List TokenKind}
    (h : ∀ f, ∃ kind rest, ks f = kind :: rest ∧ kind ∉ separators) :
    ∃ kind rest, wrapped wrap k f e ks = kind :: rest ∧ kind ∉ separators := by
  unfold wrapped
  split
  · exact ⟨_, _, rfl, by decide⟩
  · exact h f

variable (wrap) (f) in
/-- The first token of an expression; an expression that is no operator starts with none. -/
lemma body_start (he : Grammatical e) : ∃ kind ks, body wrap f e = kind :: ks ∧ kind ∉ separators ∧
    (formLevel e = 6 → kind ≠ .ident "not" ∧ kind ≠ .minus) := by
  induction he generalizing f with
  | number n => exact ⟨_, _, rfl, by simp [separators], by simp⟩
  | path h =>
      obtain ⟨name, ks, hks, hname, -⟩ := path_start wrap f h
      refine ⟨_, ks, hks, by simp [separators], fun _ => ⟨?_, by simp⟩⟩
      rintro ⟨⟩
      exact hname (by decide)
  | @call name args hreserved =>
      refine ⟨_, _, rfl, by simp [separators], fun _ => ⟨?_, by simp⟩⟩
      rintro ⟨⟩
      exact hreserved (by decide)
  | not => exact ⟨_, _, rfl, by simp [separators], by simp [formLevel]⟩
  | neg => exact ⟨_, _, rfl, by simp [separators], by simp [formLevel]⟩
  | @binary op l r _ _ ihl =>
      obtain ⟨kind, rest, hks, hsep⟩ := wrapped_start wrap l op.leftLevel true fun f => by
          obtain ⟨kind, ks, hks, hsep, -⟩ := ihl f
          exact ⟨kind, ks, hks, hsep⟩
      refine ⟨kind, _, by rw [body, hks]; rfl, hsep, fun h => ?_⟩
      have := op.level_le
      simp only [formLevel] at h
      omega
  | ite => exact ⟨_, _, rfl, by simp [separators], by simp⟩

/-- The first token of a rendering. -/
lemma exists_token (he : Grammatical e) (hts : ts.map (·.kind) = render wrap k f e) :
    ∃ v vs, ts = v :: vs ∧ v.kind ∉ separators := by
  obtain ⟨kind, rest, hks, hsep⟩ := wrapped_start wrap e k f fun f => by
      obtain ⟨kind, ks, hks, hsep, -⟩ := body_start wrap f he
      exact ⟨kind, ks, hks, hsep⟩
  rw [render, hks] at hts
  obtain ⟨v, vs, rfl, rfl, -⟩ := List.map_eq_cons_iff.mp hts
  exact ⟨v, vs, rfl, hsep⟩

/-- The required parentheses are there. -/
def Suffices (wrap : Wrap) : Prop := ∀ k f e, required k f e = true → wrap k f e = true

/-- At its own level, an expression without parentheses around it is read. -/
def Parses (wrap : Wrap) (e : Expr) : Prop :=
  ∀ ⦃f : Bool⦄ ⦃ts us : List Token⦄ ⦃u : Token⦄, ts.map (·.kind) = body wrap f e →
    required 0 f e = false → Stops (if f then formLevel e else 0) u.kind →
    Yields (level (formLevel e)) (ts ++ u :: us) e (u :: us)

/-- In front of more operators of its level, an operator is their first operand. -/
def Chains (wrap : Wrap) (e : Expr) : Prop :=
  ∀ ⦃op : BinOp⦄ ⦃l r : Expr⦄, e = .binary op l r → op.level ≠ 2 →
    ∀ ⦃f : Bool⦄ ⦃ts us vs : List Token⦄ ⦃u : Token⦄ ⦃out : Expr⦄,
      ts.map (·.kind) = body wrap f e → Stops (if f then op.level + 1 else 0) u.kind →
      TailYields op.level e (u :: us) out vs → Yields (level op.level) (ts ++ u :: us) out vs

/-- What is read at its own level is read at the levels below. -/
lemma lower (he : Grammatical e) (hts : ts.map (·.kind) = body wrap f e) (hk : k ≤ 5)
    (hform : k ≤ formLevel e) (hstop : Stops k u.kind)
    (h : Yields (level (formLevel e)) (ts ++ us) e (u :: vs)) :
    Yields (level k) (ts ++ us) e (u :: vs) := by
  rcases Nat.lt_or_ge (formLevel e) 6 with hlt | hge
  · exact h.lift hform (by omega) hstop.2
  · have h6 : formLevel e = 6 := by
      have : formLevel e ≤ 6 := by
        cases e <;> simp only [formLevel, Nat.le_refl, Nat.reduceLeDiff]
        exact (BinOp.level_le _).trans (by decide)
      omega
    obtain ⟨kind, ks, hks, -, hkind⟩ := body_start wrap f he
    rw [hks] at hts
    obtain ⟨v, tb, rfl, rfl, -⟩ := List.map_eq_cons_iff.mp hts
    obtain ⟨hnot, hminus⟩ := hkind h6
    rw [h6] at h
    exact (h.operand hnot hminus).lift hk (le_refl 5) hstop.2

/-- A parenthesised expression is an operand. -/
lemma yields_parenthesised (he : Grammatical e) (hp : Parses wrap e)
    (hts : ts.map (·.kind) = .lParen :: (body wrap false e ++ [TokenKind.rParen])) :
    Yields (level 5) (ts ++ u :: us) e (u :: us) := by
  obtain ⟨t, ts, rfl, ht, hts⟩ := List.map_eq_cons_iff.mp hts
  obtain ⟨tb, tr, rfl, htb, htr⟩ := List.map_eq_append_iff.mp hts
  obtain ⟨r, rfl, hr⟩ := List.map_eq_singleton_iff.mp htr
  have hinner : Yields (level 0) (tb ++ r :: u :: us) e (r :: u :: us) :=
    lower he htb (by omega) (by omega) (by rw [hr]; exact stops_rParen)
      (hp htb (by cases e <;> rfl) (by rw [hr]; exact stops_rParen))
  have hparen : Yields (level 6) (t :: (tb ++ r :: u :: us)) e (u :: us) :=
    yields_paren ht hr (by simp) hinner.expr
  rw [List.cons_append, List.append_assoc]
  exact hparen.operand (by rw [ht]; decide) (by rw [ht]; decide)

lemma required_zero (h : required k f e = false) : required 0 f e = false := by
  cases e <;> first | rfl | exact h

/-- An expression that needs no parentheses is at the level or above. -/
lemma le_formLevel (h : required k f e = false) (hk : k ≤ 5) : k ≤ formLevel e := by
  cases e <;> simp only [formLevel] <;> try omega
  simpa [required] using h

/-- A rendering is read at its level. -/
lemma Parses.rendered (he : Grammatical e) (hp : Parses wrap e) (hw : Suffices wrap) (hk : k ≤ 5)
    (hts : ts.map (·.kind) = render wrap k f e) (hstop : Stops (if f then k else 0) u.kind) :
    Yields (level k) (ts ++ u :: us) e (u :: us) := by
  have hk' : Stops k u.kind := hstop.mono (by split <;> omega)
  unfold render wrapped at hts
  split at hts
  · exact (yields_parenthesised he hp hts).lift hk (le_refl 5) hk'.2
  · rename_i hwrap
    have hreq : required k f e = false :=
      Bool.eq_false_iff.mpr fun h => hwrap (hw k f e h)
    have hform := le_formLevel hreq hk
    exact lower he hts hk hform hk' (hp hts (required_zero hreq)
      (hstop.mono (by cases f <;> simp [hform])))

/-- The left operand of a loop is its first operand, or begins the loop. -/
lemma Parses.chained (he : Grammatical e) (hp : Parses wrap e) (hc : Chains wrap e)
    (hw : Suffices wrap) {op : BinOp} {out : Expr} (hop : op.level ≠ 2)
    (hts : ts.map (·.kind) = render wrap op.level true e) (hstop : Stops (op.level + 1) u.kind)
    (htail : TailYields op.level e (u :: us) out vs) :
    Yields (level op.level) (ts ++ u :: us) out vs := by
  have hle := op.level_le
  unfold render wrapped at hts
  split at hts
  · exact ((yields_parenthesised he hp hts).lift (by omega) (le_refl 5) hstop.2).through hle htail
  · rename_i hwrap
    have hreq : required op.level true e = false :=
      Bool.eq_false_iff.mpr fun h => hwrap (hw _ _ _ h)
    have hform := le_formLevel hreq (by omega)
    rcases Nat.lt_or_ge op.level (formLevel e) with hlt | hge
    · exact (lower he hts (by omega) hlt hstop (hp hts (required_zero hreq)
        (hstop.mono (by rw [if_pos rfl]; omega)))).through hle htail
    · -- the operand is an operator of the same level
      cases e <;> simp only [formLevel] at hform hge <;> try omega
      rename_i op' l r
      have heq : op'.level = op.level := by omega
      rw [← heq] at htail hstop hop ⊢
      exact hc rfl hop hts hstop htail

end trees

/-! ## Calls -/

section calls

variable {wrap : Wrap} {args : List Expr} {ts us : List Token} {r u : Token}

variable (us) in
/-- An argument ends at a comma or at the closing parenthesis. -/
lemma commas_start (hts : ts.map (·.kind) = bodyCommas wrap args) (hr : r.kind = .rParen) :
    ∃ v vs, ts ++ r :: us = v :: vs ∧ Stops 0 v.kind := by
  cases args with
  | nil =>
      rw [bodyCommas, List.map_eq_nil_iff] at hts
      exact ⟨r, us, by rw [hts, List.nil_append], by rw [hr]; exact stops_rParen⟩
  | cons a args =>
      rw [bodyCommas, List.cons_append] at hts
      obtain ⟨c, ts, rfl, hc, -⟩ := List.map_eq_cons_iff.mp hts
      exact ⟨c, _, rfl, by rw [hc]; exact stops_comma⟩

variable (us) in
lemma yields_argument {a : Expr} {ta : List Token} (ha : Grammatical a) (hp : Parses wrap a)
    (hw : Suffices wrap) (hta : ta.map (·.kind) = render wrap 0 false a)
    (hts : ts.map (·.kind) = bodyCommas wrap args) (hr : r.kind = .rParen) :
    Yields (fun m _ => parseExpr m) (ta ++ (ts ++ r :: us)) a (ts ++ r :: us) := by
  obtain ⟨v, vs, hv, hstop⟩ := commas_start us hts hr
  rw [hv]
  exact (Parses.rendered ha hp hw (by omega) hta hstop).expr

variable (us) in
/-- The arguments after the first. -/
lemma yields_commas (hargs : ∀ a ∈ args, Grammatical a ∧ Parses wrap a) (hw : Suffices wrap)
    (hts : ts.map (·.kind) = bodyCommas wrap args) (hr : r.kind = .rParen) :
    Yields (fun m n => commaList (parseExpr m) n) (ts ++ r :: us) args (r :: us) := by
  induction args generalizing ts with
  | nil =>
      rw [bodyCommas, List.map_eq_nil_iff] at hts
      subst hts
      refine ⟨1, fun m n _ hn => ?_⟩
      obtain ⟨n, rfl⟩ := Nat.exists_eq_add_of_le' hn
      show (commaList (parseExpr m) (n + 1)).run (r :: us) = _
      rw [commaList, run_bind_ok (run_checkKind _), hr,
        decide_eq_false (by decide), if_neg Bool.false_ne_true]
      rfl
  | cons a args ih =>
      rw [bodyCommas, List.cons_append] at hts
      obtain ⟨c, ts, rfl, hc, hts⟩ := List.map_eq_cons_iff.mp hts
      obtain ⟨ta, tb, rfl, hta, htb⟩ := List.map_eq_append_iff.mp hts
      obtain ⟨ha, hp⟩ := hargs a List.mem_cons_self
      obtain ⟨N, hN⟩ := yields_argument us ha hp hw hta htb hr
      obtain ⟨N', hN'⟩ := ih (fun b hb => hargs b (List.mem_cons_of_mem _ hb)) htb
      refine ⟨max N N' + 1, fun m n hm hn => ?_⟩
      obtain ⟨n, rfl⟩ := Nat.exists_eq_add_of_le' (Nat.one_le_of_lt hn)
      rw [List.cons_append, List.append_assoc]
      show (commaList (parseExpr m) (n + 1)).run (c :: (ta ++ (tb ++ r :: us))) = _
      rw [commaList, run_bind_ok (run_checkKind _), hc,
        decide_eq_true rfl, if_pos rfl, run_bind_ok (run_advance (by simp)),
        run_bind_ok (hN m (n + 1) (by omega) (by omega)),
        run_bind_ok (hN' m n (by omega) (by omega))]
      rfl

/-- The arguments of a call. -/
lemma yields_arguments (hargs : ∀ a ∈ args, Grammatical a ∧ Parses wrap a) (hw : Suffices wrap)
    (hts : ts.map (·.kind) = bodyArguments wrap args) (hr : r.kind = .rParen) :
    Yields (fun m n => arguments (parseExpr m) n) (ts ++ r :: u :: us) args (u :: us) := by
  cases args with
  | nil =>
      rw [bodyArguments, List.map_eq_nil_iff] at hts
      subst hts
      refine ⟨0, fun m n _ _ => ?_⟩
      show (arguments (parseExpr m) n).run (r :: u :: us) = _
      rw [arguments, run_bind_ok (run_checkKind _), hr, decide_eq_true rfl,
        if_pos rfl, run_bind_ok (run_expectKind hr (List.cons_ne_nil _ _))]
      rfl
  | cons a args =>
      rw [bodyArguments] at hts
      obtain ⟨ta, tb, rfl, hta, htb⟩ := List.map_eq_append_iff.mp hts
      obtain ⟨ha, hp⟩ := hargs a List.mem_cons_self
      obtain ⟨N, hN⟩ := yields_argument (u :: us) ha hp hw hta htb hr
      obtain ⟨N', hN'⟩ := yields_commas (u :: us)
        (fun b hb => hargs b (List.mem_cons_of_mem _ hb)) hw htb hr
      obtain ⟨v, vs, rfl, hv⟩ := exists_token ha hta
      have hclose : v.kind ≠ .rParen := fun h => hv (by rw [h]; decide)
      refine ⟨max N N', fun m n hm hn => ?_⟩
      have hfirst := hN m n (by omega) (by omega)
      rw [List.append_assoc]
      rw [List.cons_append] at hfirst ⊢
      show (arguments (parseExpr m) n).run (v :: (vs ++ (tb ++ r :: u :: us))) = _
      rw [arguments, run_bind_ok (run_checkKind _), decide_eq_false hclose,
        if_neg Bool.false_ne_true, run_bind_ok hfirst,
        run_bind_ok (hN' m n (by omega) (by omega)),
        run_bind_ok (run_expectKind hr (List.cons_ne_nil _ _))]
      rfl

end calls

/-! ## Renderings -/

section renderings

variable {wrap : Wrap} {e : Expr}

/-- A binary operator, given what holds of its operands. -/
lemma chains_binary (hw : Suffices wrap) {op : BinOp} {l r : Expr} (hl : Grammatical l)
    (hr : Grammatical r) (ihl : Parses wrap l ∧ Chains wrap l) (ihr : Parses wrap r) :
    Chains wrap (.binary op l r) := by
  rintro _ _ _ ⟨⟩ hop f ts us vs u out hts hstop htail
  have hle := op.level_le
  rw [body, BinOp.leftLevel, if_neg hop] at hts
  obtain ⟨tl, tr, rfl, htl, htr⟩ := List.map_eq_append_iff.mp hts
  obtain ⟨t, tr, rfl, ht, htr⟩ := List.map_eq_cons_iff.mp htr
  rw [List.append_assoc]
  refine Parses.chained hl ihl.1 ihl.2 hw hop htl (by rw [ht]; exact stops_token (by omega)) ?_
  exact tail_step hop (by rw [ht, BinOp.opAt_token, if_pos rfl]) (by simp)
    (Parses.rendered hr ihr hw (by omega) htr hstop) htail

lemma parses_binary (hw : Suffices wrap) {op : BinOp} {l r : Expr} (hl : Grammatical l)
    (hr : Grammatical r) (ihl : Parses wrap l ∧ Chains wrap l) (ihr : Parses wrap r) :
    Parses wrap (.binary op l r) := by
  intro f ts us u hts _ hstop
  have hle := op.level_le
  by_cases hop : op.level = 2
  · -- a comparison, between two operands of the level above
    rw [body, BinOp.leftLevel, if_pos hop] at hts
    obtain ⟨tl, tr, rfl, htl, htr⟩ := List.map_eq_append_iff.mp hts
    obtain ⟨t, tr, rfl, ht, htr⟩ := List.map_eq_cons_iff.mp htr
    rw [List.append_assoc, formLevel, hop]
    rw [hop] at htr
    rw [formLevel, hop] at hstop
    have hleft : Yields (level 3) (tl ++ t :: (tr ++ u :: us)) l (t :: (tr ++ u :: us)) :=
      Parses.rendered hl ihl.1 hw (by omega) htl
        (by rw [ht, if_pos rfl]; exact stops_token (by omega))
    have hright : Yields (level 3) (tr ++ u :: us) r (u :: us) :=
      Parses.rendered hr ihr hw (by omega) htr (hstop.mono (by split <;> omega))
    exact hleft.through (by omega)
      (tail_cmp (by rw [ht, BinOp.opAt_token, if_pos hop.symm]) (by simp) hright)
  · exact chains_binary hw hl hr ihl ihr rfl hop hts
      (hstop.mono (by simp only [formLevel]; split <;> omega))
      (tail_stop (hstop.2 _ (by simp only [formLevel]; split <;> omega)))

/-- **The operators**: without parentheses around it an expression is read at its own level. -/
theorem parses (hw : Suffices wrap) (he : Grammatical e) : Parses wrap e ∧ Chains wrap e := by
  induction he with
  | number n =>
      refine ⟨fun f ts us u hts _ _ => ?_, by rintro _ _ _ ⟨⟩⟩
      obtain ⟨t, rfl, ht⟩ := List.map_eq_singleton_iff.mp hts
      exact ⟨0, fun m n _ _ => run_primary_number ht (List.cons_ne_nil _ _)⟩
  | @path e h =>
      refine ⟨fun f ts us u hts _ hstop => ?_, by rintro _ _ _ rfl; cases h⟩
      obtain ⟨-, -, -, -, hform⟩ := path_start wrap f h
      rw [hform]
      exact yields_path h hts hstop
  | @call name args hreserved hbuiltin hargs ih =>
      refine ⟨fun f ts us u hts _ _ => ?_, by rintro _ _ _ ⟨⟩⟩
      obtain ⟨t, ts, rfl, ht, hts⟩ := List.map_eq_cons_iff.mp hts
      obtain ⟨o, ts, rfl, ho, hts⟩ := List.map_eq_cons_iff.mp hts
      obtain ⟨ta, tr, rfl, hta, htr⟩ := List.map_eq_append_iff.mp hts
      obtain ⟨r, rfl, hr⟩ := List.map_eq_singleton_iff.mp htr
      simp only [List.cons_append, List.append_assoc, List.nil_append]
      exact yields_call hreserved hbuiltin ht ho (by simp)
        (yields_arguments (fun a ha => ⟨hargs a ha, (ih a ha).1⟩) hw hta hr)
  | @not e he ih =>
      refine ⟨fun f ts us u hts _ hstop => ?_, by rintro _ _ _ ⟨⟩⟩
      obtain ⟨t, ts, rfl, ht, hts⟩ := List.map_eq_cons_iff.mp hts
      exact yields_not ht (by simp) (Parses.rendered he ih.1 hw (le_refl 5) hts hstop)
  | @neg e he ih =>
      refine ⟨fun f ts us u hts _ hstop => ?_, by rintro _ _ _ ⟨⟩⟩
      obtain ⟨t, ts, rfl, ht, hts⟩ := List.map_eq_cons_iff.mp hts
      exact yields_neg ht (by simp) (Parses.rendered he ih.1 hw (le_refl 5) hts hstop)
  | @binary op l r hl hr ihl ihr =>
      exact ⟨parses_binary hw hl hr ihl ihr.1, chains_binary hw hl hr ihl ihr.1⟩
  | @ite c x y hc hx hy ihc ihx ihy =>
      refine ⟨fun f ts us u hts hreq hstop => ?_, by rintro _ _ _ ⟨⟩⟩
      obtain rfl : f = false := hreq
      rw [body] at hts
      simp only [List.cons_append, List.append_assoc] at hts
      obtain ⟨ti, ts, rfl, hi, hts⟩ := List.map_eq_cons_iff.mp hts
      obtain ⟨tc, ts, rfl, htc, hts⟩ := List.map_eq_append_iff.mp hts
      obtain ⟨tn, ts, rfl, hn, hts⟩ := List.map_eq_cons_iff.mp hts
      obtain ⟨tt, ts, rfl, htt, hts⟩ := List.map_eq_append_iff.mp hts
      obtain ⟨tl, te, rfl, hlt, hte⟩ := List.map_eq_cons_iff.mp hts
      have hcond : Yields (level 0) (tc ++ tn :: (tt ++ tl :: (te ++ u :: us))) c
          (tn :: (tt ++ tl :: (te ++ u :: us))) :=
        Parses.rendered hc ihc.1 hw (by omega) htc (by rw [hn]; exact stops_then)
      have hthen : Yields (level 0) (tt ++ tl :: (te ++ u :: us)) x (tl :: (te ++ u :: us)) :=
        Parses.rendered hx ihx.1 hw (by omega) htt (by rw [hlt]; exact stops_else)
      have helse : Yields (level 0) (te ++ u :: us) y (u :: us) :=
        Parses.rendered hy ihy.1 hw (by omega) hte hstop
      simp only [List.cons_append, List.append_assoc]
      refine yields_ite hi hn hlt (fun w hw' => ?_) hcond.expr hthen.expr helse.expr
      have hstart : ∀ {e : Expr} {tb vs : List Token}, Grammatical e →
          tb.map (·.kind) = render wrap 0 false e → ∃ v ws, tb ++ vs = v :: ws ∧
            v.kind ∉ [TokenKind.newline, .indent, .dedent] := by
        intro e tb vs he htb
        obtain ⟨v, ws, rfl, hv⟩ := exists_token he htb
        exact ⟨v, _, rfl, fun h => hv (List.mem_cons_of_mem _ h)⟩
      simp only [List.mem_cons, List.not_mem_nil, or_false] at hw'
      rcases hw' with rfl | rfl | rfl
      · exact hstart hc htc
      · exact hstart hx htt
      · exact hstart hy hte

/-- Every rendering with the required parentheses is read as its tree, and no token more. -/
theorem parseExpr_render (hw : Suffices wrap) (he : Grammatical e) {ts us : List Token} {u : Token}
    (hts : ts.map (·.kind) = render wrap 0 false e) (hu : Stops 0 u.kind) :
    ∃ n, ∀ m, n ≤ m → (parseExpr m).run (ts ++ u :: us) = .ok (e, u :: us) := by
  obtain ⟨N, hN⟩ := (Parses.rendered he (parses hw he).1 hw (by omega) hts hu).expr
  exact ⟨N, fun m hm => hN m (max m N) hm (by omega)⟩

lemma suffices_required : Suffices required := fun _ _ _ h => h

/-- Every operator and conditional includes those that need parentheses. -/
lemma suffices_everywhere : Suffices everywhere := by
  intro k f e h
  cases e <;> first | rfl | exact absurd h (by simp [required])

end renderings

/-- **The parser implements its grammar**: the parser returns every tree of numbers, dotted paths,
calls, `not`, `-`, operators and conditionals, whose names it does not reserve, from its rendering
with the fewest parentheses and from the one with all of them, wherever the tokens stand, and
consumes exactly these tokens. -/
theorem parseExpr_exact (e : Expr) (he : Grammatical e) (ts us : List Token) (u : Token)
    (hts : ts.map (·.kind) = minimal e ∨ ts.map (·.kind) = full e) (hu : Stops 0 u.kind) :
    ∃ n, ∀ m, n ≤ m → (parseExpr m).run (ts ++ u :: us) = .ok (e, u :: us) := by
  rcases hts with hts | hts
  · exact parseExpr_render suffices_required he hts hu
  · exact parseExpr_render suffices_everywhere he hts hu

/-- The product `(a + if b then 1 else 2) * f(x.y, -3)`, up to the end of the file. -/
theorem parseExpr_exact_product :
    ∃ n, ∀ m, n ≤ m →
      (parseExpr m).run
        ([⟨.lParen, 1, 1⟩, ⟨.ident "a", 1, 2⟩, ⟨.plus, 1, 4⟩, ⟨.ident "if", 1, 6⟩,
          ⟨.ident "b", 1, 9⟩, ⟨.ident "then", 1, 11⟩, ⟨.number 1, 1, 16⟩, ⟨.ident "else", 1, 18⟩,
          ⟨.number 2, 1, 23⟩, ⟨.rParen, 1, 24⟩, ⟨.star, 1, 26⟩, ⟨.ident "f", 1, 28⟩,
          ⟨.lParen, 1, 29⟩, ⟨.ident "x", 1, 30⟩, ⟨.dot, 1, 31⟩, ⟨.ident "y", 1, 32⟩,
          ⟨.comma, 1, 33⟩, ⟨.minus, 1, 35⟩, ⟨.number 3, 1, 36⟩, ⟨.rParen, 1, 37⟩]
          ++ [⟨.eof, 2, 1⟩]) =
        .ok (.binary .mul
          (.binary .add (.ident "a") (.ite (.ident "b") (.number 1) (.number 2)))
          (.call "f" [.field (.ident "x") "y", .neg (.number 3)]), [⟨.eof, 2, 1⟩]) := by
  refine parseExpr_exact _ ?_ _ [] ⟨.eof, 2, 1⟩ (.inl rfl) stops_eof
  refine .binary _ (.binary _ (.path (.ident (by decide))) (.ite (.path (.ident (by decide)))
    (.number 1) (.number 2))) (.call (by decide) (by decide) fun a ha => ?_)
  rcases List.mem_cons.mp ha with rfl | ha
  · exact .path (.field "y" (.ident (by decide)))
  · rw [List.mem_singleton.mp ha]
    exact .neg (.number 3)

/-- The reserved names are not read as identifiers, and the built-in forms not as calls. -/
theorem reserved_not_read :
    (¬ ∃ n, ∀ m, n ≤ m → (parseExpr m).run ([⟨.ident "not", 1, 1⟩] ++ [⟨.eof, 1, 4⟩]) =
      .ok (.ident "not", [⟨.eof, 1, 4⟩])) ∧
    ¬ ∃ n, ∀ m, n ≤ m →
      (parseExpr m).run
        ([⟨.ident "abs", 1, 1⟩, ⟨.lParen, 1, 4⟩, ⟨.ident "x", 1, 5⟩, ⟨.rParen, 1, 6⟩]
          ++ [⟨.eof, 1, 7⟩]) =
        .ok (.call "abs" [.ident "x"], [⟨.eof, 1, 7⟩]) := by
  constructor
  · rintro ⟨n, hn⟩
    have hread := hn (n + 4) (by omega)
    have herror : (parseExpr (n + 4)).run ([⟨.ident "not", 1, 1⟩] ++ [⟨.eof, 1, 4⟩]) =
        .error (.error ⟨1, 4, .text "expected expression (number or identifier)"⟩) := rfl
    rw [herror] at hread
    cases hread
  · rintro ⟨n, hn⟩
    have hread := hn (n + 8) (by omega)
    have habs : (parseExpr (n + 8)).run
        ([⟨.ident "abs", 1, 1⟩, ⟨.lParen, 1, 4⟩, ⟨.ident "x", 1, 5⟩, ⟨.rParen, 1, 6⟩]
          ++ [⟨.eof, 1, 7⟩]) = .ok (.abs (.ident "x"), [⟨.eof, 1, 7⟩]) := rfl
    rw [habs] at hread
    simp at hread

end Verbosec.Parser
