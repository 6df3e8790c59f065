import Verbosec.Http.ParseSound

/-!
# The request parser against the parts of a request

* `parseDelimited` - what the scans find: the terminator of the path is written before the search for
  the empty line.
* `parser_runs` - the outcome of the parser for a count of received bytes.
* `exact_iff` - when the parser finds the parts of the request.
-/

namespace Verbosec.Http.Parse

open Lib Lib.X86 Lib.Bytes

/-! ## The request behind the terminators -/

/-- The parts that the scans find. -/
def parseDelimited (usesBody : Bool) (bytes : List UInt8) : Option Request := do
  let (method, path, tail) ← tokens bytes
  if usesBody then
    let body ← bodyAfter (0 :: tail.drop 1)
    some ⟨method, path, some body⟩
  else some ⟨method, path, none⟩

lemma bodyAfter_skip {b : UInt8} {bs : List UInt8} (h : ¬ blankLine <+: b :: bs) :
    bodyAfter (b :: bs) = bodyAfter bs := by
  rw [bodyAfter, if_neg h]

lemma bodyAfter_zero (bs : List UInt8) : bodyAfter (0 :: bs) = bodyAfter bs :=
  bodyAfter_skip fun h => absurd (List.cons_prefix_cons.mp h).1 (by decide)

/-- The empty line and the body are among the bytes. -/
lemma bodyAfter_length {bytes body : List UInt8} (h : bodyAfter bytes = some body) :
    body.length + 4 ≤ bytes.length := by
  induction bytes with
  | nil => cases h
  | cons b bs ih =>
      by_cases hprefix : blankLine <+: b :: bs
      · rw [bodyAfter, if_pos hprefix] at h
        cases h
        have hlength : 4 ≤ (b :: bs).length := hprefix.length_le
        rw [List.length_drop]
        omega
      · rw [bodyAfter_skip hprefix] at h
        rw [List.length_cons]
        have := ih h
        omega

section tokens

variable {usesBody : Bool} {bytes method path rest : List UInt8} {d : UInt8}

lemma parseDelimited_none (h : tokens bytes = none) : parseDelimited usesBody bytes = none := by
  rw [parseDelimited, h]
  rfl

lemma parseRequest_none (h : tokens bytes = none) : parseRequest usesBody bytes = none := by
  rw [parseRequest, h]
  rfl

lemma parseDelimited_body (h : tokens bytes = some (method, path, d :: rest)) :
    parseDelimited true bytes = (bodyAfter rest).map fun body => ⟨method, path, some body⟩ := by
  rw [parseDelimited, h, ← bodyAfter_zero]
  change ((bodyAfter (0 :: rest)).bind fun body => some _) = _
  cases bodyAfter (0 :: rest) <;> rfl

lemma parseRequest_body (h : tokens bytes = some (method, path, d :: rest)) :
    parseRequest true bytes = (bodyAfter (d :: rest)).map fun body => ⟨method, path, some body⟩ := by
  rw [parseRequest, h]
  change ((bodyAfter (d :: rest)).bind fun body => some _) = _
  cases bodyAfter (d :: rest) <;> rfl

lemma parseDelimited_plain (h : tokens bytes = some (method, path, d :: rest)) :
    parseDelimited false bytes = some ⟨method, path, none⟩ := by
  rw [parseDelimited, h]
  rfl

lemma parseRequest_plain : parseRequest false bytes = parseDelimited false bytes := rfl

/-- The bytes from the delimiter of the path on are not empty. -/
lemma tokens_tail {tail : List UInt8} (h : tokens bytes = some (method, path, tail)) :
    ∃ d rest, tail = d :: rest := by
  cases hmethod : splitFirst isSpace bytes with
  | none => cases (tokens_none_of_method hmethod).symm.trans h
  | some x =>
      obtain ⟨method', rest⟩ := x
      rw [tokens_of_method hmethod] at h
      split at h
      · obtain ⟨⟨path', tail'⟩, hpath, h⟩ := Option.bind_eq_some_iff.mp h
        split at h
        · cases h
          obtain ⟨d, bs, htail, -⟩ := splitFirst_tail hpath
          exact ⟨d, bs, htail⟩
        · cases h
      · cases h

/-- Does the empty line stand at the delimiter of the path, in a request whose body is read? -/
def BlankAtDelimiter (usesBody : Bool) (bytes : List UInt8) : Prop :=
  usesBody = true ∧ ∃ method path tail, tokens bytes = some (method, path, tail) ∧
    blankLine <+: tail

/-- The terminator of the path hides an empty line at the delimiter, and nothing else. -/
lemma parseDelimited_eq (h : ¬ BlankAtDelimiter usesBody bytes) :
    parseDelimited usesBody bytes = parseRequest usesBody bytes := by
  cases usesBody with
  | false => rfl
  | true =>
      cases htokens : tokens bytes with
      | none => rw [parseDelimited_none htokens, parseRequest_none htokens]
      | some x =>
          obtain ⟨method, path, tail⟩ := x
          obtain ⟨d, rest, rfl⟩ := tokens_tail htokens
          have hother : ¬ blankLine <+: d :: rest := fun hblank => h ⟨rfl, _, _, _, htokens, hblank⟩
          rw [parseDelimited_body htokens, parseRequest_body htokens, bodyAfter_skip hother]

/-- Behind an empty line at the delimiter stands the body; the scans find a shorter one or none. -/
lemma blankAtDelimiter_body (h : BlankAtDelimiter usesBody bytes) :
    ∃ method path body, parseRequest usesBody bytes = some ⟨method, path, some body⟩ ∧
      ∀ req, parseDelimited usesBody bytes = some req →
        ∃ body', req.body = some body' ∧ body'.length < body.length := by
  obtain ⟨rfl, method, path, tail, htokens, hblank⟩ := h
  obtain ⟨d, rest, rfl⟩ := tokens_tail htokens
  have hbody : bodyAfter (d :: rest) = some ((d :: rest).drop 4) := by rw [bodyAfter, if_pos hblank]
  refine ⟨method, path, (d :: rest).drop 4, by rw [parseRequest_body htokens, hbody]; rfl, ?_⟩
  intro req hreq
  rw [parseDelimited_body htokens] at hreq
  obtain ⟨body', hbody', rfl⟩ := Option.map_eq_some_iff.mp hreq
  refine ⟨body', rfl, ?_⟩
  have hlength := bodyAfter_length hbody'
  rw [List.length_drop, List.length_cons]
  omega

end tokens

/-! ## Runs -/

section parser

variable {f : Frame} {c : Core} {r : Int} {bytes : List UInt8} {P : Nat × Core → Prop}

lemma length_le32 (z : Int) : (le32 z).length = 4 := rfl

lemma size_methodPathCode (z : Int) (n : Nat) : size (methodPathCode z n) = 127 := by
  refine (size_eq_length _).trans ((congrArg List.length (encode_methodPathCode z n)).trans ?_)
  unfold parseMethodPathBytes tokenLenGuardBytes
  simp only [List.length_append, length_le32, List.length_cons, List.length_nil]

lemma size_plain (h : f.usesBody = false) : size f.code = 127 := by
  rw [Frame.code, h, size_append, size_methodPathCode]
  rfl

lemma bodySlots (f : Frame) : f.bodyPreOffset = 48 ∧ f.bodyPtrSlot = -56 ∧ f.bodyLenSlot = -64 ∨
    f.bodyPreOffset = 56 ∧ f.bodyPtrSlot = -64 ∧ f.bodyLenSlot = -72 := by
  rw [Frame.bodyPtrSlot, Frame.bodyLenSlot, Frame.bodyPreOffset]
  cases f.usesTimestamp with
  | true => exact .inr ⟨rfl, rfl, rfl⟩
  | false => exact .inl ⟨rfl, rfl, rfl⟩

lemma size_bodyParser (f : Frame) : size (bodyParser f) = 169 := by
  have hslots : -128 ≤ f.bodyPtrSlot ∧ f.bodyPtrSlot < 0 ∧ -128 ≤ f.bodyLenSlot ∧
      f.bodyLenSlot < 0 := by
    have := bodySlots f
    omega
  obtain ⟨hptr, hptr', hlen, hlen'⟩ := hslots
  rw [bodyParser, size_append, size_methodPathCode, size_eq_length, encode_bodyCode _ hptr' hlen']
  simp only [parseBodyBytes, if_pos hptr, if_pos hlen, List.length_append, length_le32,
    List.length_cons, List.length_nil]

lemma code_body (h : f.usesBody = true) : f.code = bodyParser f := by
  rw [Frame.code, h]
  rfl

/-- The parser ends behind the scan for the path. -/
lemma le_size (f : Frame) : 127 ≤ size f.code := by
  cases h : f.usesBody with
  | false => exact Nat.le_of_eq (size_plain h).symm
  | true =>
      rw [code_body h, size_bodyParser]
      decide

lemma touchable_body {B n d i : Nat} (h : f.usesBody = true)
    (hd : d = f.bodyPreOffset + 8 ∨ d = f.bodyPreOffset + 16) (hB : f.bodyPreOffset + 16 ≤ B)
    (hi : i < 8) : touchable f B n (B - d + i) = true := by
  rw [touchable, Bool.or_eq_true, Bool.or_eq_true, Bool.and_eq_true]
  exact .inl (.inr ⟨h, decide_eq_true (by omega)⟩)

/-- The body and its length go to their slots. -/
lemma found_runs {ok : Nat → Bool} {g : Regs} {m : Nat → UInt8} {zero less : Bool} {B x n : Nat}
    (hg : At g B x (n + 4)) (hB : f.bodyPreOffset + 16 ≤ B) (hB' : B < 2 ^ 63)
    (hx : x + 4 + n < 2 ^ 63)
    (hptr : ∀ i < 8, ok (B - (f.bodyPreOffset + 8) + i) = true)
    (hlen : ∀ i < 8, ok (B - (f.bodyPreOffset + 16) + i) = true)
    (k : ∀ g' zero less, Leads ok (bodyParser f)
      (169, ⟨g', writeAll (writeAll m (B - (f.bodyPreOffset + 8)) (leBytes (x + 4) 8))
        (B - (f.bodyPreOffset + 16)) (leBytes n 8), zero, less⟩) P) :
    Leads ok (bodyParser f) (153, ⟨g, m, zero, less⟩) P := by
  obtain ⟨hframe, hcursor, hleft⟩ := hg
  let g' : Regs := { g with
    rbx := ((signed g.rbx + 4) % 2 ^ 64).toNat, rax := ((signed g.rax - 4) % 2 ^ 64).toNat }
  have hbody : g'.get .rbx = x + 4 := by
    change ((signed g.rbx + ((4 : Nat) : Int)) % 2 ^ 64).toNat = x + 4
    rw [hcursor]
    exact word_add (by omega)
  have hcount : g'.get .rax = n := by
    change ((signed g.rax - signed 4) % 2 ^ 64).toNat = n
    rw [hleft, word_sub (by omega) (by omega), Nat.add_sub_cancel]
  have hslot : ∀ d, d ≤ B → displaced (g'.get .rbp) (-d) = B - d := by
    intro d hd
    have hbase : g'.get .rbp = B := hframe
    rw [hbase]
    exact displaced_neg hd (by omega)
  have hexec : execAll ok (bodyFound f.bodyPtrSlot f.bodyLenSlot) ⟨g, m, zero, less⟩ =
      some ⟨g', writeAll (writeAll m (B - (f.bodyPreOffset + 8)) (leBytes (x + 4) 8))
        (B - (f.bodyPreOffset + 16)) (leBytes n 8),
        decide ((signed g.rax - 4) % 2 ^ 64 = 0), decide (signed g.rax - 4 < 0)⟩ := by
    have hstore : ∀ zero less, Op.exec ok (.store64 .rbp f.bodyPtrSlot .rbx) ⟨g', m, zero, less⟩ =
        some ⟨g', writeAll m (B - (f.bodyPreOffset + 8)) (leBytes (x + 4) 8), zero, less⟩ := by
      intro zero less
      rw [exec_store64 (hslot (f.bodyPreOffset + 8) (by omega)) hptr, hbody]
    have hstore' : ∀ m zero less, Op.exec ok (.store64 .rbp f.bodyLenSlot .rax)
        ⟨g', m, zero, less⟩ =
          some ⟨g', writeAll m (B - (f.bodyPreOffset + 16)) (leBytes n 8), zero, less⟩ := by
      intro m zero less
      rw [exec_store64 (hslot (f.bodyPreOffset + 16) (by omega)) hlen, hcount]
    have hfirst : execAll ok (bodyFound f.bodyPtrSlot f.bodyLenSlot) ⟨g, m, zero, less⟩ =
      execAll ok [.store64 .rbp f.bodyPtrSlot .rbx, .store64 .rbp f.bodyLenSlot .rax]
        ⟨g', m, decide ((signed g.rax - 4) % 2 ^ 64 = 0), decide (signed g.rax - 4 < 0)⟩ := rfl
    rw [hfirst, execAll, hstore]
    exact execAll_one (hstore' _ _ _)
  have hcode : codeAt (bodyParser f) 153 = some (ops (bodyFound f.bodyPtrSlot f.bodyLenSlot) ++ []) :=
    rfl
  have hsize : 153 + size (ops (bodyFound f.bodyPtrSlot f.bodyLenSlot)) = 169 := by
    rcases bodySlots f with ⟨-, hptr, hlen⟩ | ⟨-, hptr, hlen⟩ <;> rw [hptr, hlen] <;> rfl
  exact Leads.ops _ hcode hexec hsize (k _ _ _)

/-- The outcome of the parser: its end, with the parts of a request, or the close label. -/
def Outcome (f : Frame) (parts : (Nat → UInt8) → Request → Prop) (expected : Option Request)
    (t : Nat × Core) : Prop :=
  match expected with
  | some req => t.1 = size f.code ∧ parts t.2.memory req
  | none => t.1 = f.fail

lemma load_slot {m : Nat → UInt8} {a v : Nat} (h : Slot m a v) (hv : v < 2 ^ 64) :
    loadBytes m a 8 = v := by
  rw [loadBytes_of_holds h, Nat.mod_eq_of_lt (by omega)]

/-- The parser after a count of received bytes. -/
theorem parser_runs (e : Entry f c r bytes) (hr : 0 ≤ r) :
    Leads (touchable f c.regs.rbp bytes.length) f.code (0, c)
      (Outcome f (Delimited f c.regs.rbp) (parseDelimited f.usesBody bytes)) := by
  have hslots := e.wf.slots
  have hframe := e.frame
  have hroom := e.room
  have hfits := e.fits
  refine head_runs e hr (fun hnone _ => ?_) fun method path d rest htokens hlength g m zero less hg
    hmethod hpath hmethod' hpath' => ?_
  · rw [parseDelimited_none hnone]
    exact rfl
  generalize c.regs.rbp = B at *
  generalize hbuf : buffer f B = buf at *
  have hpointer : buf < 2 ^ 64 := by omega
  have hpointer' : buf + method.length + 1 < 2 ^ 64 := by omega
  obtain ⟨hpath', hrest⟩ := holds_append.mp hpath'
  have hterminated : Holds m (buf + method.length + 1) (path ++ [0]) :=
    holds_append.mpr ⟨hpath', holds_cons.mpr ⟨(holds_cons.mp hrest).1, holds_nil _ _⟩⟩
  cases huses : f.usesBody with
  | false =>
      rw [parseDelimited_plain htokens]
      refine Leads.here ⟨(size_plain huses).symm, ?_, ?_, fun _ h => by cases h⟩
      · rw [load_slot hmethod hpointer]
        exact hmethod'
      · rw [load_slot hpath hpointer']
        exact hterminated
  | true =>
      rw [huses, if_pos rfl] at hslots
      rw [parseDelimited_body htokens, code_body huses]
      have hg : At g B (buf + method.length + 1 + path.length) (0 :: rest).length := hg
      refine scanBody_runs hg (by rw [List.length_cons]; omega) hrest
        (fun i hi => ?_) (fun hnone _ => ?_) fun body y hsome hy hlen g' _ _ hg' hbody => ?_
      · rw [List.length_cons] at hi
        rw [← hbuf, Nat.add_assoc, Nat.add_assoc, Nat.add_assoc]
        exact touchable_buffer (by omega)
      · rw [bodyAfter_zero] at hnone
        rw [hnone]
        exact rfl
      rw [bodyAfter_zero] at hsome
      rw [List.length_cons] at hlen
      rw [hsome, Option.map_some]
      have hpre : 48 ≤ f.bodyPreOffset := by
        have := bodySlots f
        omega
      have hbelow : buf + (method ++ [0]).length ≤ B - (f.bodyPreOffset + 16) ∧
          buf + method.length + 1 + (path ++ [0]).length ≤ B - (f.bodyPreOffset + 16) := by
        rw [List.length_append, List.length_append, List.length_singleton]
        omega
      refine found_runs hg' (by omega) hframe (by omega)
        (fun i hi => touchable_body huses (.inl rfl) (by omega) hi)
        (fun i hi => touchable_body huses (.inr rfl) (by omega) hi) fun g'' _ _ => Leads.here ?_
      -- the slots of the body lie between the buffer and the slots of the texts
      have hkept : ∀ {a : Nat} {xs : List UInt8}, Holds m a xs →
          a + xs.length ≤ B - (f.bodyPreOffset + 16) ∨ B - f.bodyPreOffset ≤ a →
          Holds (writeAll (writeAll m (B - (f.bodyPreOffset + 8)) (leBytes (y + 4) 8))
            (B - (f.bodyPreOffset + 16)) (leBytes body.length 8)) a xs := by
        intro a xs hxs hsep
        refine (hxs.writeAll ?_).writeAll ?_ <;> rw [Separate, length_leBytes] <;> omega
      have hslot : ∀ {a v : Nat}, Slot m a v → B - f.bodyPreOffset ≤ a → v < 2 ^ 64 →
          loadBytes (writeAll (writeAll m (B - (f.bodyPreOffset + 8)) (leBytes (y + 4) 8))
            (B - (f.bodyPreOffset + 16)) (leBytes body.length 8)) a 8 = v :=
        fun hv ha hlt => load_slot (hkept hv (.inr ha)) hlt
      refine ⟨by rw [code_body huses, size_bodyParser], ?_, ?_, fun body' h => ?_⟩
      · rw [hslot hmethod (by omega) hpointer]
        exact hkept hmethod' (.inl hbelow.1)
      · rw [hslot hpath (by omega) hpointer']
        exact hkept hterminated (.inl hbelow.2)
      · cases h
        refine ⟨load_slot (holds_writeAll _ _ _) (by omega), ?_⟩
        have hstart : Slot (writeAll (writeAll m (B - (f.bodyPreOffset + 8)) (leBytes (y + 4) 8))
            (B - (f.bodyPreOffset + 16)) (leBytes body.length 8)) (B - (f.bodyPreOffset + 8))
            (y + 4) := by
          refine (holds_writeAll _ m _).writeAll ?_
          rw [Separate, length_leBytes, length_leBytes]
          omega
        rw [load_slot hstart (by omega)]
        exact hkept hbody (.inl (by omega))

/-- After an error, the first byte of the buffer was not received. -/
lemma Entry.closed (e : Entry f c r bytes) (hr : r < 0) :
    touchable f c.regs.rbp bytes.length (buffer f c.regs.rbp) = false := by
  have hroom := e.room
  have hslots := e.wf.slots
  have hpositive := e.wf.positive
  have hframe := e.slots
  have hempty : bytes.length = 0 := by rw [e.count, Int.toNat_of_nonpos (Int.le_of_lt hr)]
  have hbuffer : buffer f c.regs.rbp = c.regs.rbp - (f.frameBase + f.maxRequest) := rfl
  rw [hempty, touchable, Bool.or_eq_false_iff, Bool.or_eq_false_iff, Bool.and_eq_false_iff]
  refine ⟨⟨decide_eq_false (by omega), ?_⟩, decide_eq_false (by omega)⟩
  cases huses : f.usesBody with
  | false => exact .inl rfl
  | true =>
      rw [huses, if_pos rfl] at hslots
      exact .inr (decide_eq_false (by omega))

/-- After an error the parser reads the buffer, of which no byte was received. -/
lemma stuck_runs (e : Entry f c r bytes) (hr : r < 0) :
    Leads (touchable f c.regs.rbp bytes.length) f.code (0, c) fun t =>
      t.1 = 20 ∧ step (touchable f c.regs.rbp bytes.length) f.code t = none := by
  have hlow := e.low
  have hclosed := e.closed hr
  refine start_runs e fun _ _ => ?_
  refine Leads.ops [.test .rax] (by rfl) (by rfl) (by rfl) (Leads.jcc32 (by rfl)
    (toNat_fail _ _) (fun h => ?_) fun _ => Leads.here ⟨rfl, ?_⟩)
  · have hzero : c.regs.rax = 0 := of_decide_eq_true h
    rw [e.result] at hzero
    omega
  · have hexec : ∀ x : Core, x.regs.get .rbx = buffer f c.regs.rbp →
        Op.exec (touchable f c.regs.rbp bytes.length) (.cmpMem8 .rbx 0x20) x = none := by
      intro x hx
      rw [Op.exec, hx, accessible_one, hclosed, if_neg Bool.false_ne_true]
    have hat : codeAt f.code 20 = some (.op (.cmpMem8 .rbx 0x20) :: _) := rfl
    exact step_op_none hat (hexec _ rfl)

/-- No instruction follows where the parser is done. -/
lemma step_outcome {ok : Nat → Bool} {parts : (Nat → UInt8) → Request → Prop}
    {expected : Option Request} {t : Nat × Core} (hwf : f.Wf) (h : Outcome f parts expected t) :
    step ok f.code t = none := by
  have hlabel := hwf.label
  cases expected with
  | none =>
      have hpc : t.1 = f.fail := h
      exact step_end (by rw [hpc]; omega)
  | some req => exact step_end (Nat.le_of_eq h.1.symm)

/-! ## Exactness -/

/-- The parser finds the parts of the request among the received bytes, or goes to the close label
where there is none; an access to a byte of the buffer that was not received has no next state. -/
def Exact (f : Frame) (c : Core) (bytes : List UInt8) : Prop :=
  Leads (touchable f c.regs.rbp bytes.length) f.code (0, c)
    (Outcome f (Placed f c.regs.rbp) (parseRequest f.usesBody bytes))

/-- No zero byte in the method and in the path of a request. -/
def Plain (usesBody : Bool) (bytes : List UInt8) : Prop :=
  ∀ req, parseRequest usesBody bytes = some req → 0 ∉ req.method ∧ 0 ∉ req.path

lemma exact_of (e : Entry f c r bytes) (hr : 0 ≤ r) (hplain : Plain f.usesBody bytes)
    (hblank : ¬ BlankAtDelimiter f.usesBody bytes) : Exact f c bytes := by
  have hruns := parser_runs e hr
  rw [parseDelimited_eq hblank] at hruns
  refine hruns.mono fun t ht => ?_
  cases hreq : parseRequest f.usesBody bytes with
  | none =>
      rw [hreq] at ht
      exact ht
  | some req =>
      rw [hreq] at ht
      exact ⟨ht.1, ⟨ht.2, hplain req hreq⟩⟩

lemma nonneg_of_exact (e : Entry f c r bytes) (h : Exact f c bytes) : 0 ≤ r := by
  by_contra hr
  obtain ⟨t, hreach, ht⟩ := h
  obtain ⟨u, hreach', hpc, hstuck⟩ := stuck_runs e (Int.not_le.mp hr)
  have heq := hreach.unique (step_outcome e.wf ht) hreach' hstuck
  have hlabel := e.wf.label
  have hsize := le_size f
  subst heq
  cases hreq : parseRequest f.usesBody bytes with
  | none =>
      rw [hreq] at ht
      have hfail : t.1 = f.fail := ht
      omega
  | some req =>
      rw [hreq] at ht
      have hend : t.1 = size f.code := ht.1
      omega

lemma plain_of_exact (h : Exact f c bytes) : Plain f.usesBody bytes := by
  intro req hreq
  obtain ⟨t, -, ht⟩ := h
  rw [hreq] at ht
  exact ht.2.plain

lemma not_blank_of_exact (e : Entry f c r bytes) (h : Exact f c bytes) :
    ¬ BlankAtDelimiter f.usesBody bytes := by
  intro hblank
  obtain ⟨method, path, body, hreq, hshorter⟩ := blankAtDelimiter_body hblank
  obtain ⟨t, hreach, ht⟩ := h
  obtain ⟨u, hreach', hu⟩ := parser_runs e (nonneg_of_exact e ⟨t, hreach, ht⟩)
  have heq := hreach.unique (step_outcome e.wf ht) hreach' (step_outcome e.wf hu)
  have hlabel := e.wf.label
  subst heq
  rw [hreq] at ht
  cases hfound : parseDelimited f.usesBody bytes with
  | none =>
      rw [hfound] at hu
      have hend : t.1 = size f.code := ht.1
      have hfail : t.1 = f.fail := hu
      omega
  | some req =>
      rw [hfound] at hu
      obtain ⟨body', hbody', hlt⟩ := hshorter req hfound
      have hlen := (ht.2.body body rfl).1
      have hlen' := (hu.2.body body' hbody').1
      omega

/-- When the parser is exact: the read was no error, no text of the request has a zero byte, and the
empty line before a body does not stand at the delimiter of the path. -/
theorem exact_iff (e : Entry f c r bytes) :
    Exact f c bytes ↔
      0 ≤ r ∧ Plain f.usesBody bytes ∧ ¬ BlankAtDelimiter f.usesBody bytes :=
  ⟨fun h => ⟨nonneg_of_exact e h, plain_of_exact h, not_blank_of_exact e h⟩,
    fun ⟨hr, hplain, hblank⟩ => exact_of e hr hplain hblank⟩

end parser

/-! ## A service that reads the body -/

/-- The frame of a service without other slots. -/
def sampleFrame : Frame where
  usesTimestamp := false
  usesBody := true
  frameBase := 64
  maxRequest := 4096
  fail := 1000

/-- The state behind a read with the result `r`. -/
def sampleCore (r : Int) (bytes : List UInt8) : Core where
  regs := ⟨(r % 2 ^ 64).toNat, 0, 4096, 0, 0, 2 ^ 47, 0, 0, 0⟩
  memory := writeAll (fun _ => 0) (buffer sampleFrame (2 ^ 47)) bytes
  zero := false
  less := false

lemma sampleEntry (r : Int) (bytes : List UInt8) (hlow : -2 ^ 63 ≤ r) (hhigh : r ≤ 4096)
    (hcount : bytes.length = r.toNat) : Entry sampleFrame (sampleCore r bytes) r bytes where
  wf :=
    { positive := by decide
      slots := by decide
      offsets := by decide
      label := by
        rw [code_body (f := sampleFrame) rfl, size_bodyParser]
        decide }
  room := show 64 + 4096 ≤ 2 ^ 47 by decide
  frame := show 2 ^ 47 < 2 ^ 63 by decide
  result := rfl
  low := hlow
  high := hhigh
  count := hcount
  received := holds_writeAll _ _ _

/-- The bytes of `POST / HTTP/1.0`, without other headers, and of the body `hi`. -/
def sampleRequest : List UInt8 :=
  [0x50, 0x4F, 0x53, 0x54, 0x20, 0x2F, 0x20, 0x48, 0x54, 0x54, 0x50, 0x2F, 0x31, 0x2E, 0x30,
    0x0D, 0x0A, 0x0D, 0x0A, 0x68, 0x69]

theorem exact_iff_post : Exact sampleFrame (sampleCore 21 sampleRequest) sampleRequest := by
  have hreq : parseRequest true sampleRequest =
      some ⟨[0x50, 0x4F, 0x53, 0x54], [0x2F], some [0x68, 0x69]⟩ := by decide
  have htokens : tokens sampleRequest =
      some ([0x50, 0x4F, 0x53, 0x54], [0x2F], sampleRequest.drop 6) := by decide
  refine (exact_iff (sampleEntry 21 _ (by decide) (by decide) rfl)).mpr
    ⟨by decide, fun req h => ?_, ?_⟩
  · cases hreq.symm.trans h
    decide
  · rintro ⟨-, method, path, tail, h, hblank⟩
    cases htokens.symm.trans h
    exact absurd hblank (by decide)

/-- The connection is reset before the read: the parser does not close it, it reads on. -/
theorem reset_not_exact : Entry sampleFrame (sampleCore (-104) []) (-104) [] ∧
    ¬ Exact sampleFrame (sampleCore (-104) []) [] :=
  have e := sampleEntry (-104) [] (by decide) (by decide) rfl
  ⟨e, fun h => absurd (nonneg_of_exact e h) (by decide)⟩

end Verbosec.Http.Parse
