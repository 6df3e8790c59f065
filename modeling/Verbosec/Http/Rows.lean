import Verbosec.Http.Grammar

/-!
# The rows of the table by classes of bytes

* `Rows` - the table with a row as a list of classes of bytes, `Rows.build` its construction.
* `Sim` - a step of the two constructions keeps the tables the same.
* `sim_build` - the two constructions give the same table.
-/

namespace Verbosec.Http

/-! ## Rows by classes of bytes -/

/-- The bytes of the transitions of a state. -/
inductive Class where
  | byte (b : UInt8)
  | token | field | digit | target
  deriving DecidableEq, Repr

/-- Is a byte of a class? -/
def Class.test : Class → UInt8 → Bool
  | byte c, b => b = c
  | token, b => Http.token b
  | field, b => fieldByte b
  | digit, b => digitByte b
  | target, b => targetByte b

/-- The transitions of a state, the last one first. -/
abbrev Edges := List (Class × Nat)

/-- The entry of a byte. -/
def Edges.entry (row : Edges) (b : UInt8) : Nat :=
  ((row.find? fun e => e.1.test b).map (·.2)).getD 0

@[simp] lemma Edges.entry_nil (b : UInt8) : Edges.entry [] b = 0 := rfl

@[simp] lemma Edges.entry_cons (c : Class) (n : Nat) (row : Edges) (b : UInt8) :
    Edges.entry ((c, n) :: row) b = if c.test b then n else Edges.entry row b := by
  unfold Edges.entry
  rw [List.find?_cons]
  split <;> simp_all

/-- The rows of the states built so far. -/
abbrev Rows := List Edges

namespace Rows

/-- The entry of a state and a byte. -/
def entry (t : Rows) (s : Nat) (b : UInt8) : Nat := (t.getD s []).entry b

/-- A step of the construction by classes; it fails where a row is copied that does not exist. -/
abbrev Build := StateT Rows Option

/-- A new state. -/
def state : Build Nat := do
  let t ← get
  set (t ++ [[]])
  pure t.length

/-- The transitions of a class. -/
def edge (s : Nat) (c : Class) (next : Nat) : Build Unit :=
  modify fun t => t.modify s ((c, next) :: ·)

/-- A state with the transitions of another one. -/
def copy (s n : Nat) : Build Unit := fun t =>
  if s < t.length then some ((), t.set n (t.getD s [])) else none

/-- The states of a header name. -/
def nameStates (headers genericName : Nat) (name : List UInt8) (destination : Nat) :
    Build Unit := do
  let last ← name.foldlM (fun s b => do
    let existing := (← get).entry s b
    if existing ≠ genericName ∧ existing ≠ 0 then pure existing
    else do
      let n ← state
      copy genericName n
      edge s (.byte b) n
      edge s (.byte (upper b)) n
      pure n) headers
  edge last (.byte 58) destination

/-- The construction of the table by classes. -/
def build : Build Unit := do
  let headers ← state
  let endLf ← state
  edge headers (.byte 13) endLf
  edge endLf (.byte 10) doneState
  let genericName ← state
  let value ← state
  let valueLf ← state
  (do
    edge headers .token genericName
    edge genericName .token genericName
    edge value .field value)
  edge genericName (.byte 58) value
  edge value (.byte 13) valueLf
  edge valueLf (.byte 10) headers
  let leading ← state
  let digits ← state
  let trailing ← state
  [leading, trailing].forM fun s => do
    edge s (.byte 32) s
    edge s (.byte 9) s
  (do
    edge leading .digit (digits ||| digitFlag)
    edge digits .digit (digits ||| digitFlag))
  edge digits (.byte 32) trailing
  edge digits (.byte 9) trailing
  edge digits (.byte 13) valueLf
  edge trailing (.byte 13) valueLf
  nameStates headers genericName contentLength (leading ||| lengthFlag)
  nameStates headers genericName transferEncoding 0
  nameStates headers genericName expectName 0
  let targetStart ← state
  let target ← state
  edge targetStart (.byte 47) (target ||| targetFlag)
  edge target .target (target ||| targetFlag)
  let version ← state
  edge target (.byte 32) version
  let last ← versionPrefix.foldlM (fun s b => do
    let n ← state
    edge s (.byte b) n
    pure n) version
  let versionCr ← state
  let versionLf ← state
  edge last (.byte 48) versionCr
  edge last (.byte 49) versionCr
  edge versionCr (.byte 13) versionLf
  edge versionLf (.byte 10) headers
  let last ← (List.range 8).foldlM (fun s count => do
    if 0 < count then edge s (.byte 32) targetStart
    let n ← state
    edge s .token n
    pure n) startState
  edge last (.byte 32) targetStart

end Rows

/-! ## The two constructions -/

/-- The tables have the same states, with a row for each. -/
structure Sized (t : Table) (r : Rows) : Prop where
  length : t.length = r.length
  rows : ∀ row ∈ t, row.length = 256

/-- The tables have the same column of a byte. -/
def ShowsAt (b : UInt8) (t : Table) (r : Rows) : Prop := ∀ s, t.entry s b = r.entry s b

/-- The tables are the same. -/
structure Shows (t : Table) (r : Rows) : Prop extends Sized t r where
  column : ∀ b, ShowsAt b t r

/-- A step of the construction does what one by classes does. -/
structure Sim {α : Type} (m : Build α) (m' : Rows.Build α) : Prop where
  run : ∀ {t r a r'}, Shows t r → m'.run r = some (a, r') →
    (m.run t).1 = a ∧ Shows (m.run t).2 r'

namespace Sim

variable {α β : Type}

lemma pure (a : α) : Sim (pure a) (pure a) where
  run := by
    rintro t r _ _ h ⟨⟩
    exact ⟨rfl, h⟩

lemma bind {m : Build α} {m' : Rows.Build α} {f : α → Build β} {f' : α → Rows.Build β}
    (h : Sim m m') (hf : ∀ a, Sim (f a) (f' a)) : Sim (m >>= f) (m' >>= f') := by
  refine ⟨fun hs hrun => ?_⟩
  obtain ⟨⟨a, r'⟩, hm, hrest⟩ := Option.bind_eq_some_iff.mp hrun
  obtain ⟨ha, hs'⟩ := h.run hs hm
  have hfa := (hf a).run hs' hrest
  rw [← ha] at hfa
  exact hfa

lemma foldlM {f : β → α → Build β} {f' : β → α → Rows.Build β} (h : ∀ b a, Sim (f b a) (f' b a))
    (l : List α) : ∀ b, Sim (l.foldlM f b) (l.foldlM f' b) := by
  induction l with
  | nil => exact fun b => .pure b
  | cons a l ih => exact fun b => (h b a).bind ih

lemma forM {f : α → Build Unit} {f' : α → Rows.Build Unit} (h : ∀ a, Sim (f a) (f' a))
    (l : List α) : Sim (l.forM f) (l.forM f') := by
  induction l with
  | nil => exact .pure ()
  | cons a l ih => exact (h a).bind fun _ => ih

end Sim

/-! ### Steps -/

lemma getD_replicate_zero (k i : Nat) : (List.replicate k 0).getD i 0 = 0 := by
  rw [List.getD_eq_getElem?_getD, List.getElem?_replicate]
  split <;> rfl

lemma Table.entry_eq (t : Table) (s : Nat) (b : UInt8) :
    t.entry s b = (t[s]?.getD []).getD b.toNat 0 := by
  exact congrArg (List.getD · b.toNat 0) List.getD_eq_getElem?_getD

lemma Rows.entry_eq (r : Rows) (s : Nat) (b : UInt8) :
    r.entry s b = Edges.entry (r[s]?.getD []) b := by
  rw [Rows.entry, List.getD_eq_getElem?_getD]

section steps

variable {t : Table} {r : Rows} {s n : Nat} {b c : UInt8}

lemma Sized.edge (h : Sized t r) (s : Nat) (b : UInt8) (k : Class) (n : Nat) :
    Sized ((edge s b n).run t).2 (r.modify s ((k, n) :: ·)) where
  length := by
    change (t.modify s _).length = _
    rw [List.length_modify, List.length_modify, h.length]
  rows row hrow := by
    obtain ⟨i, hi⟩ := List.getElem?_of_mem hrow
    change (t.modify s fun row => row.set b.toNat n)[i]? = some row at hi
    rw [List.getElem?_modify] at hi
    obtain ⟨row', hrow', rfl⟩ := Option.map_eq_some_iff.mp hi
    have hlength := h.rows row' (List.mem_of_getElem? hrow')
    split <;> simpa using hlength

/-- The column of a byte after a transition of it. -/
lemma ShowsAt.edge (h : ShowsAt b t r) (hs : Sized t r) {k : Class} (hk : k.test b = true)
    (s n : Nat) : ShowsAt b ((edge s b n).run t).2 (r.modify s ((k, n) :: ·)) := by
  intro s'
  have hentry := h s'
  change Table.entry (t.modify s fun row => row.set b.toNat n) s' b = _
  rw [Table.entry_eq, Rows.entry_eq] at hentry ⊢
  rw [List.getElem?_modify, List.getElem?_modify]
  by_cases hss : s = s'
  · subst hss
    have hlength := hs.length
    cases ht : t[s]? with
    | none =>
        have hr : r[s]? = none := by
          rw [List.getElem?_eq_none_iff] at ht ⊢
          omega
        simp [hr]
    | some row =>
        obtain ⟨hlt, rfl⟩ := List.getElem?_eq_some_iff.mp ht
        have hr : r[s]? = some r[s] := List.getElem?_eq_getElem (by omega)
        have hrow := hs.rows _ (List.getElem_mem hlt)
        have hb := b.toNat_lt
        simp [hr, hk, hrow, List.getD_eq_getElem?_getD, hb]
  · simpa [hss] using hentry

/-- The other columns keep their entries. -/
lemma ShowsAt.edge_ne (h : ShowsAt c t r) (hc : c ≠ b) (s n : Nat) :
    ShowsAt c ((Http.edge s b n).run t).2 r := by
  intro s'
  have hentry := h s'
  change Table.entry (t.modify s fun row => row.set b.toNat n) s' c = _
  rw [Table.entry_eq] at hentry ⊢
  rw [List.getElem?_modify]
  have hne : b.toNat ≠ c.toNat := fun he => hc (UInt8.toNat_inj.mp he.symm)
  by_cases hss : s = s'
  · subst hss
    cases ht : t[s]? with
    | none => simpa [ht] using hentry
    | some row => simpa [ht, List.getD_eq_getElem?_getD, hne] using hentry
  · simpa [hss] using hentry

/-- Transitions of a class without the byte. -/
lemma ShowsAt.skip (h : ShowsAt b t r) {k : Class} (hk : k.test b = false) (s n : Nat) :
    ShowsAt b t (r.modify s ((k, n) :: ·)) := by
  intro s'
  rw [h s', Rows.entry_eq, Rows.entry_eq, List.getElem?_modify]
  by_cases hss : s = s'
  · subst hss
    cases r[s]? <;> simp [hk]
  · simp [hss]

end steps

namespace Sim

lemma state : Sim Http.state Rows.state := by
  refine ⟨?_⟩
  rintro t r _ _ h ⟨⟩
  refine ⟨h.length, ⟨?_, fun row hrow => ?_⟩, fun b s => ?_⟩
  · change (t ++ [_]).length = (r ++ [_]).length
    rw [List.length_append, List.length_append, h.length]
    rfl
  · rcases List.mem_append.mp hrow with hrow | hrow
    · exact h.rows row hrow
    · rw [List.mem_singleton.mp hrow, List.length_replicate]
  · have hentry := h.column b s
    change Table.entry (t ++ [List.replicate 256 0]) s b = Rows.entry (r ++ [[]]) s b
    rw [Table.entry_eq, Rows.entry_eq] at hentry ⊢
    rw [List.getElem?_append, List.getElem?_append, h.length]
    split
    · exact hentry
    · cases s - r.length with
      | zero => exact getD_replicate_zero 256 _
      | succ i => rfl

/-- The entry that is read while a header name is built. -/
lemma entry (s : Nat) (b : UInt8) :
    Sim (do return (← get).entry s b) (do return (← get).entry s b) := by
  refine ⟨?_⟩
  rintro t r _ _ h ⟨⟩
  exact ⟨h.column b s, h⟩

lemma copy (s n : Nat) : Sim (modify fun t : Table => t.set n (t.getD s [])) (Rows.copy s n) := by
  refine ⟨fun {t r a r'} h hrun => ?_⟩
  have hs : s < r.length ∧ (r.set n (r.getD s [])) = r' := by
    change (if s < r.length then some ((), r.set n (r.getD s [])) else none) = some (a, r') at hrun
    split at hrun
    · next hs =>
        cases hrun
        exact ⟨hs, rfl⟩
    · cases hrun
  obtain ⟨hs, rfl⟩ := hs
  have ht : s < t.length := h.length ▸ hs
  refine ⟨rfl, ⟨?_, fun row hrow => ?_⟩, fun b s' => ?_⟩
  · change (t.set n _).length = _
    rw [List.length_set, List.length_set, h.length]
  · rcases List.mem_or_eq_of_mem_set hrow with hrow | rfl
    · exact h.rows row hrow
    · rw [List.getD_eq_getElem _ _ ht]
      exact h.rows _ (List.getElem_mem ht)
  · have hentry := h.column b s'
    have hcopied := h.column b s
    change Table.entry (t.set n (t.getD s [])) s' b = _
    rw [Table.entry, Rows.entry] at hcopied
    rw [Table.entry_eq, Rows.entry_eq] at hentry ⊢
    rw [List.getElem?_set, List.getElem?_set, h.length]
    split_ifs
    · exact hcopied
    · rfl
    · exact hentry

/-- One transition. -/
lemma edge (s : Nat) (b : UInt8) (n : Nat) : Sim (Http.edge s b n) (Rows.edge s (.byte b) n) := by
  refine ⟨?_⟩
  rintro t r _ _ h ⟨⟩
  refine ⟨rfl, h.toSized.edge s b (.byte b) n, fun c => ?_⟩
  by_cases hc : c = b
  · subst hc
    exact (h.column c).edge h.toSized (by simp [Class.test]) s n
  · exact ((h.column c).edge_ne hc s n).skip (by simp [Class.test, hc]) s n

lemma ite {α : Type} {m m₁ : Build α} {m' m₁' : Rows.Build α} {c : Prop} [Decidable c]
    (h : Sim m m') (h₁ : Sim m₁ m₁') : Sim (if c then m else m₁) (if c then m' else m₁') := by
  split
  · exact h
  · exact h₁

end Sim

/-! ### Classes of bytes -/

/-- The step of a byte changes its own column as a step by classes does, and no other column. -/
structure ColumnSim (f : UInt8 → Build Unit) (m : Rows.Build Unit) : Prop where
  length : ∀ {r r'}, m.run r = some ((), r') → r'.length = r.length
  sized : ∀ {b t r}, Sized t r → Sized ((f b).run t).2 r
  own : ∀ {b t r r'}, Sized t r → m.run r = some ((), r') → ShowsAt b t r →
    ShowsAt b ((f b).run t).2 r'
  other : ∀ {b c t r}, c ≠ b → ShowsAt c t r → ShowsAt c ((f b).run t).2 r

namespace ColumnSim

variable {f g : UInt8 → Build Unit} {m m' : Rows.Build Unit}

lemma edge (s : Nat) (k : Class) (n : Nat) :
    ColumnSim (fun b => if k.test b then Http.edge s b n else pure ()) (Rows.edge s k n) where
  length := by
    rintro r _ ⟨⟩
    exact List.length_modify _ _ _
  sized {b t r} h := by
    split
    · exact ⟨(h.edge s b k n).length.trans (List.length_modify _ _ _), (h.edge s b k n).rows⟩
    · exact h
  own := by
    rintro b t r _ hs ⟨⟩ h
    split
    · next hk => exact h.edge hs hk s n
    · next hk => exact h.skip (by simpa using hk) s n
  other {b c t r} hc h := by
    split
    · exact h.edge_ne hc s n
    · exact h

lemma bind (h : ColumnSim f m) (h' : ColumnSim g m') :
    ColumnSim (fun b => do f b; g b) (do m; m') where
  length hrun := by
    obtain ⟨⟨_, r₁⟩, hm, hm'⟩ := Option.bind_eq_some_iff.mp hrun
    exact (h'.length hm').trans (h.length hm)
  sized hs := h'.sized (h.sized hs)
  own {b t r r'} hs hrun hshows := by
    obtain ⟨⟨_, r₁⟩, hm, hm'⟩ := Option.bind_eq_some_iff.mp hrun
    have hs₁ := h.sized (b := b) hs
    exact h'.own ⟨hs₁.length.trans (h.length hm).symm, hs₁.rows⟩ hm' (h.own hs hm hshows)
  other hc hshows := h'.other hc (h.other hc hshows)

lemma congr (h : ColumnSim f m) (hfg : ∀ b, g b = f b) : ColumnSim g m := by
  rwa [funext hfg]

/-- The loop over some bytes, each of them once. -/
lemma forM (h : ColumnSim f m) {r r' : Rows} (hm : m.run r = some ((), r')) (l : List UInt8) :
    ∀ t, l.Nodup → Sized t r → (∀ b ∈ l, ShowsAt b t r) → (∀ b ∉ l, ShowsAt b t r') →
      Shows ((l.forM f).run t).2 r' := by
  induction l with
  | nil =>
      intro t _ hs _ hrest
      exact ⟨⟨hs.length.trans (h.length hm).symm, hs.rows⟩, fun b => hrest b (List.not_mem_nil)⟩
  | cons b l ih =>
      intro t hnodup hs hall hrest
      obtain ⟨hb, hnodup⟩ := List.nodup_cons.mp hnodup
      refine ih _ hnodup (h.sized hs) (fun c hc => ?_) fun c hc => ?_
      · exact h.other (fun he => hb (he ▸ hc)) (hall c (List.mem_cons_of_mem _ hc))
      · by_cases he : c = b
        · subst he
          exact h.own hs hm (hall c List.mem_cons_self)
        · exact h.other he (hrest c (by simp [he, hc]))

lemma sim (h : ColumnSim f m) : Sim (allBytes.forM f) m := by
  refine ⟨fun {t r _ r'} hs hm => ?_⟩
  have htoNat : ∀ i ∈ List.range 256, (UInt8.ofNat i).toNat = i := fun i hi => by
    have hi := List.mem_range.mp hi
    rw [UInt8.toNat_ofNat']
    omega
  have hmem : ∀ b : UInt8, b ∈ allBytes := fun b =>
    List.mem_map.mpr ⟨b.toNat, List.mem_range.mpr b.toNat_lt, UInt8.ofNat_toNat⟩
  have hnodup : allBytes.Nodup := List.Nodup.map_on (fun i hi j hj he => by
    rw [← htoNat i hi, he, htoNat j hj]) List.nodup_range
  exact ⟨Subsingleton.elim _ _, h.forM hm allBytes t hnodup hs.toSized (fun b _ => hs.column b)
    fun b hb => absurd (hmem b) hb⟩

lemma filter (p : UInt8 → Bool) (h : ColumnSim (fun b => if p b then f b else pure ()) m) :
    Sim ((allBytes.filter p).forM f) m := by
  have hfilter : ∀ l : List UInt8,
      (l.filter p).forM f = l.forM fun b => if p b then f b else pure () := by
    intro l
    induction l with
    | nil => rfl
    | cons b l ih =>
        rw [List.filter_cons]
        cases hb : p b with
        | true =>
            rw [if_pos rfl]
            change (f b >>= fun _ => (l.filter p).forM f) = _
            rw [ih]
            change _ = ((if p b then f b else pure ()) >>= fun _ => l.forM _)
            rw [if_pos hb]
        | false =>
            rw [if_neg (by simp), ih]
            change _ = ((if p b then f b else pure ()) >>= fun _ => l.forM _)
            rw [if_neg (by simp [hb])]
            rfl
  rw [hfilter]
  exact h.sim

end ColumnSim

/-! ### The constructions -/

lemma sim_nameStates (headers genericName : Nat) (name : List UInt8) (destination : Nat) :
    Sim (nameStates headers genericName name destination)
      (Rows.nameStates headers genericName name destination) := by
  refine .bind (.foldlM (fun s b => ?_) name headers) fun last => .edge last 58 destination
  refine .bind (.entry s b) fun existing => .ite (c := existing ≠ genericName ∧ existing ≠ 0)
    (.pure existing) ?_
  exact .bind .state fun n => .bind (.copy genericName n) fun _ => .bind (.edge s b n) fun _ =>
    .bind (.edge s (upper b) n) fun _ => .pure n

lemma sim_build : Sim build Rows.build := by
  refine .bind .state fun headers => .bind .state fun endLf => .bind (.edge ..) fun _ =>
    .bind (.edge ..) fun _ => .bind .state fun genericName => .bind .state fun value =>
    .bind .state fun valueLf => ?_
  have hclasses : ColumnSim (fun b => do
        if token b then
          edge headers b genericName
          edge genericName b genericName
        if fieldByte b then edge value b value)
      (do
        Rows.edge headers .token genericName
        Rows.edge genericName .token genericName
        Rows.edge value .field value) := by
    refine ((ColumnSim.edge headers .token genericName).bind
      ((ColumnSim.edge genericName .token genericName).bind (.edge value .field value))).congr
      fun b => ?_
    cases ht : token b <;> simp only [Class.test, ht] <;> rfl
  have hdigits : ∀ leading digits, ColumnSim (fun b => if digitByte b then (do
        edge leading b (digits ||| digitFlag)
        edge digits b (digits ||| digitFlag)) else pure ())
      (do
        Rows.edge leading .digit (digits ||| digitFlag)
        Rows.edge digits .digit (digits ||| digitFlag)) := by
    intro leading digits
    refine ((ColumnSim.edge leading .digit (digits ||| digitFlag)).bind
      (.edge digits .digit (digits ||| digitFlag))).congr fun b => ?_
    cases ht : digitByte b <;> simp only [Class.test, ht] <;> rfl
  refine .bind hclasses.sim fun _ => .bind (.edge ..) fun _ => .bind (.edge ..) fun _ =>
    .bind (.edge ..) fun _ => .bind .state fun leading => .bind .state fun digits =>
    .bind .state fun trailing =>
    .bind (.forM (fun s => .bind (.edge ..) fun _ => .edge ..) _) fun _ =>
    .bind (ColumnSim.filter _ (hdigits leading digits)) fun _ => .bind (.edge ..) fun _ =>
    .bind (.edge ..) fun _ => .bind (.edge ..) fun _ => .bind (.edge ..) fun _ =>
    .bind (sim_nameStates ..) fun _ => .bind (sim_nameStates ..) fun _ =>
    .bind (sim_nameStates ..) fun _ => .bind .state fun targetStart => .bind .state fun target =>
    .bind (.edge ..) fun _ => .bind (ColumnSim.filter _ (.edge target .target _)) fun _ =>
    .bind .state fun version => .bind (.edge ..) fun _ => ?_
  refine .bind (.foldlM (fun s b => .bind .state fun n => .bind (.edge ..) fun _ => .pure n) _ _)
    fun last => .bind .state fun versionCr => .bind .state fun versionLf =>
    .bind (.edge ..) fun _ => .bind (.edge ..) fun _ => .bind (.edge ..) fun _ =>
    .bind (.edge ..) fun _ => ?_
  refine .bind (.foldlM (fun s count => ?_) _ _) fun last => .edge ..
  have hlast : Sim (do
      let n ← state
      (allBytes.filter token).forM fun b => edge s b n
      pure n) (do
      let n ← Rows.state
      Rows.edge s .token n
      pure n) :=
    .bind .state fun n => .bind (ColumnSim.filter _ (.edge s .token n)) fun _ => .pure n
  by_cases hcount : 0 < count
  · simp only [if_pos hcount]
    exact .bind (.edge ..) fun _ => hlast
  · simp only [if_neg hcount]
    exact hlast

end Verbosec.Http
