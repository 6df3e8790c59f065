import Verbosec.Native.ServiceState

/-!
# A native service computes with values

* `locate_spec` - what the code of an expression leaves is its value.
* `value_congr` - a value depends on no `let` but the ones that are mentioned.
* `lets_agree`, `sets_agree` - the two parts of a request.
* `run_agrees` - every run in memory is the run by value, where no assignment mentions a `let` that
  looks into an overwritten buffer.
-/

namespace Verbosec.Native.ServiceState

open Verbosec.Lib Verbosec.Verifier

/-! ## Places -/

/-- The place is inside the buffer that it names. -/
def Loc.Inside (m : Memory) : Loc → Prop
  | .still _ => True
  | .state f start len =>
    ∃ buffer n, m.lookup f = some (.text buffer n) ∧ start + len ≤ buffer.length

/-- The place of a slot is inside its buffer. -/
def Slot.Inside (m : Memory) : Slot → Prop
  | .text l => l.Inside m
  | .scalar _ => True

/-- The texts of the state are not longer than their buffers. -/
def Memory.Sound (m : Memory) : Prop :=
  ∀ f buffer n, m.lookup f = some (.text buffer n) → n ≤ buffer.length

lemma inside_fresh (m : Memory) (v : Datum) : (Slot.fresh v).Inside m := by
  cases v <;> trivial

@[simp] lemma read_fresh (m : Memory) (v : Datum) : m.read (Slot.fresh v) = some v := by
  cases v <;> rfl

lemma inside_stateSlot {m : Memory} (hm : m.Sound) {f : String} {c : Cell}
    (h : m.lookup f = some c) : (stateSlot f c).Inside m := by
  cases c with
  | text buffer n => exact ⟨buffer, n, h, by rw [Nat.zero_add]; exact hm f buffer n h⟩
  | scalar v => trivial

lemma read_stateSlot {m : Memory} {f : String} {c : Cell} (h : m.lookup f = some c) :
    m.read (stateSlot f c) = some c.value := by
  cases c with
  | text buffer n => simp [stateSlot, Memory.read, Memory.bytes, h, Cell.value]
  | scalar v => rfl

lemma positions_le {start stop : Datum} {len i j : Nat}
    (h : positions start stop len = some (i, j)) : i ≤ j ∧ j ≤ len := by
  unfold positions at h
  split at h
  · split_ifs at h with hle
    cases h
    exact hle
  · cases h

/-- A part of a place has the part of its bytes. -/
lemma bytes_cut {m : Memory} {l l' : Loc} {i j : Datum} (hin : l.Inside m)
    (h : l.cut i j = some l') :
    l'.Inside m ∧ ∃ b b', m.bytes l = some b ∧ cut i j b = some b' ∧ m.bytes l' = some b' := by
  cases l with
  | still b =>
      obtain ⟨b', hb', rfl⟩ := Option.map_eq_some_iff.mp h
      exact ⟨trivial, b, b', rfl, hb', rfl⟩
  | state f first len =>
      obtain ⟨buffer, n, hlookup, hle⟩ := hin
      obtain ⟨⟨start, stop⟩, hpos, rfl⟩ := Option.map_eq_some_iff.mp h
      obtain ⟨hij, hj⟩ := positions_le hpos
      have hlength : ((buffer.drop first).take len).length = len := by
        rw [List.length_take, List.length_drop]
        omega
      refine ⟨⟨buffer, n, hlookup, by omega⟩, (buffer.drop first).take len,
        (((buffer.drop first).take len).take stop).drop start, ?_, ?_, ?_⟩
      · rw [Memory.bytes, hlookup]
      · rw [cut, hlength, hpos]
        rfl
      · rw [Memory.bytes, hlookup]
        simp only [List.take_take, Nat.min_eq_left hj, List.drop_take, List.drop_drop]

/-! ## Expressions -/

lemma value_other {inputName : String} {other : Env → Expr → Option Datum} {env : Env} {e : Expr}
    (hident : ∀ x, e = .ident x → False)
    (hfield : ∀ base fname, e = .field (.ident base) fname → False)
    (hite : ∀ cond yes no, e = .ite cond yes no → False)
    (hsub : ∀ text start stop, e = .substring text start stop → False) :
    value inputName other env e = other env e := by
  unfold value
  split
  · exact absurd rfl (hident _)
  · exact absurd rfl (hfield _ _)
  · exact absurd rfl (hite _ _ _)
  · exact absurd rfl (hsub _ _ _)
  · rfl

section expressions

variable {protocol : Protocol} {h : Handler} {r : Request} {bs : Bindings} {m : Memory}

/-- Every slot of a name is inside its buffer. -/
def Bindings.Inside (bs : Bindings) (m : Memory) : Prop :=
  (∀ x slot, bs.offsets.lookup x = some slot → slot.Inside m) ∧
    ∀ x slot, bs.texts.lookup x = some slot → slot.Inside m

lemma slot_inside (hbs : bs.Inside m) (hm : m.Sound) {key : Key} {slot : Slot}
    (hslot : bs.slot protocol r m key = some slot) : slot.Inside m := by
  cases key with
  | input f =>
      rw [Bindings.slot] at hslot
      split_ifs at hslot
      rcases hoff : bs.offsets.lookup (requestKey protocol f) with _ | slot'
      · rw [hoff] at hslot
        exact hbs.2 _ _ hslot
      · rw [hoff] at hslot
        cases hslot
        exact hbs.1 _ _ hoff
  | state f =>
      obtain ⟨c, hc, rfl⟩ := Option.map_eq_some_iff.mp hslot
      exact inside_stateSlot hm hc
  | bound x =>
      rw [Bindings.slot] at hslot
      rcases htext : bs.texts.lookup x with _ | slot'
      · rw [htext] at hslot
        exact hbs.1 _ _ hslot
      · rw [htext] at hslot
        cases hslot
        exact hbs.2 _ _ htext

/-- What the code of an expression leaves is inside its buffer, and is the value. -/
lemma locate_spec (hbs : bs.Inside m) (hm : m.Sound) {e : Expr} {slot : Slot}
    (hloc : locate protocol h r bs m e = some slot) :
    slot.Inside m ∧ value h.inputName r.other (bs.env protocol r m) e = m.read slot := by
  fun_induction locate protocol h r bs m e generalizing slot with
  | case1 x =>
      refine ⟨slot_inside hbs hm hloc, ?_⟩
      rw [value, Bindings.env, hloc]
      rfl
  | case2 base fname key hkey =>
      refine ⟨slot_inside hbs hm hloc, ?_⟩
      rw [value, hkey]
      dsimp only
      rw [Bindings.env, hloc]
      rfl
  | case3 base fname hkey =>
      obtain ⟨v, hv, rfl⟩ := Option.map_eq_some_iff.mp hloc
      rw [value, hkey]
      exact ⟨inside_fresh m v, by rw [read_fresh]; exact hv⟩
  | case4 cond yes no hcond ih =>
      rw [value, hcond]
      exact ih hloc
  | case5 cond yes no hcond ih =>
      rw [value, hcond]
      exact ih hloc
  | case6 => cases hloc
  | case7 text start stop l i j hstop hstart htext ih =>
      obtain ⟨l', hcut, rfl⟩ := Option.map_eq_some_iff.mp hloc
      obtain ⟨hin, htextValue⟩ := ih htext
      obtain ⟨hin', b, b', hb, hb', hbytes⟩ := bytes_cut hin hcut
      refine ⟨hin', ?_⟩
      rw [value, htextValue, hstart, hstop, Memory.read, hb]
      simp [Memory.read, hb', hbytes]
  | case8 => cases hloc
  | case9 e hident hfield hite hsub =>
      obtain ⟨v, hv, rfl⟩ := Option.map_eq_some_iff.mp hloc
      rw [value_other hident hfield hite hsub]
      exact ⟨inside_fresh m v, by rw [read_fresh]; exact hv⟩

end expressions

/-! ## What a value depends on -/

lemma idents_subset {c e : Expr} (hc : c ∈ e.children) {x : String} (hx : x ∈ idents c) :
    x ∈ idents e := by
  rw [idents, Expr.collect_eq]
  exact List.mem_append_right _ (List.mem_flatMap.mpr ⟨c, hc, hx⟩)

/-- A value depends on no `let` but the ones that are mentioned. -/
lemma value_congr {inputName : String} {other : Env → Expr → Option Datum} (hreads : Reads other)
    {env env' : Env} (hinput : ∀ f, env (.input f) = env' (.input f))
    (hstate : ∀ f, env (.state f) = env' (.state f)) {e : Expr}
    (hbound : ∀ x ∈ idents e, env (.bound x) = env' (.bound x)) :
    value inputName other env e = value inputName other env' e := by
  have hkey : ∀ {base fname key}, accessKey inputName base fname = some key →
      env key = env' key := by
    intro base fname key hkey
    unfold accessKey at hkey
    split_ifs at hkey <;> cases hkey
    · exact hinput fname
    · exact hstate fname
  fun_induction value inputName other env e with
  | case1 x =>
      rw [value]
      exact hbound x (by simp [idents, Expr.collect])
  | case2 base fname key h =>
      rw [value, h]
      exact hkey h
  | case3 base fname h =>
      rw [value, h]
      exact hreads env env' _ hinput hstate hbound
  | case4 cond yes no hcond ihCond ih =>
      have hsub := ihCond fun x hx => hbound x (idents_subset (by simp [Expr.children]) hx)
      rw [value, ← hsub, hcond]
      exact ih fun x hx => hbound x (idents_subset (by simp [Expr.children]) hx)
  | case5 cond yes no hcond ihCond ih =>
      have hsub := ihCond fun x hx => hbound x (idents_subset (by simp [Expr.children]) hx)
      rw [value, ← hsub, hcond]
      exact ih fun x hx => hbound x (idents_subset (by simp [Expr.children]) hx)
  | case6 cond yes no htrue hfalse ihCond =>
      have hsub := ihCond fun x hx => hbound x (idents_subset (by simp [Expr.children]) hx)
      rw [value, ← hsub]
      split
      · exact absurd ‹_› htrue
      · exact absurd ‹_› hfalse
      · rfl
  | case7 text start stop b i j htext hstart hstop ihStop ihStart ihText =>
      rw [value,
        ← ihText fun x hx => hbound x (idents_subset (by simp [Expr.children]) hx),
        ← ihStart fun x hx => hbound x (idents_subset (by simp [Expr.children]) hx),
        ← ihStop fun x hx => hbound x (idents_subset (by simp [Expr.children]) hx),
        htext, hstart, hstop]
  | case8 text start stop hnone ihStop ihStart ihText =>
      rw [value,
        ← ihText fun x hx => hbound x (idents_subset (by simp [Expr.children]) hx),
        ← ihStart fun x hx => hbound x (idents_subset (by simp [Expr.children]) hx),
        ← ihStop fun x hx => hbound x (idents_subset (by simp [Expr.children]) hx)]
      split
      · exact absurd ‹_› (hnone _ _ _ ‹_› ‹_›)
      · rfl
  | case9 e hident hfield hite hsub =>
      rw [value_other hident hfield hite hsub]
      exact hreads env env' _ hinput hstate hbound

/-! ## Tables -/

section tables

variable {κ κ' α β : Type*} [DecidableEq κ] [DecidableEq κ']

/-- What is found in a table whose entries are all rewritten stands under a rewritten key. -/
lemma lookup_map_some {key : κ → κ'} (hkey : Function.Injective key) {g : α → β} {d : Dict κ α}
    {x : κ'} {b : β} (h : List.lookup x (d.map fun e => (key e.1, g e.2)) = some b) :
    ∃ k a, d.lookup k = some a ∧ x = key k ∧ b = g a := by
  obtain ⟨e, -, he⟩ := List.mem_map.mp (Dict.mem_of_lookup h)
  cases he
  rw [Dict.lookup_map_entries hkey] at h
  obtain ⟨a, ha, hb⟩ := Option.map_eq_some_iff.mp h
  exact ⟨e.1, a, ha, rfl, hb.symm⟩

end tables

@[simp] lemma values_lookup (m : Memory) (f : String) :
    m.values.lookup f = (m.lookup f).map Cell.value :=
  Dict.lookup_map_entries Function.injective_id Cell.value m f

@[simp] lemma values_insert (m : Memory) (f : String) (c : Cell) :
    Memory.values (m.insert f c) = m.values.insert f c.value := rfl

lemma requestKey_injective (protocol : Protocol) :
    Function.Injective (requestKey protocol) := by
  intro f g hfg
  cases protocol with
  | rawTcp => simpa [requestKey] using hfg
  | http10 => exact hfg

/-! ## The `let`s -/

/-- The state fields whose buffers a slot looks into. -/
def Slot.roots : Slot → List String
  | .text (.state f _ _) => [f]
  | _ => []

lemma roots_fresh (v : Datum) : (Slot.fresh v).roots = [] := by
  cases v <;> rfl

lemma read_inside {m : Memory} {slot : Slot} (hin : slot.Inside m) : ∃ v, m.read slot = some v := by
  rcases slot with (b | ⟨f, start, len⟩) | v
  · exact ⟨_, rfl⟩
  · obtain ⟨buffer, n, hlookup, -⟩ := hin
    exact ⟨.text ((buffer.drop start).take len), by rw [Memory.read, Memory.bytes, hlookup]; rfl⟩
  · exact ⟨v, rfl⟩

/-- A `let` is found under its name. -/
lemma slot_bind_self {protocol : Protocol} {r : Request} {bs : Bindings} {m : Memory} {x : String}
    (hx : bs.texts.lookup x = none) (slot : Slot) :
    (bs.bind x slot).slot protocol r m (.bound x) = some slot := by
  cases slot with
  | text l => simp [Bindings.slot, Bindings.bind]
  | scalar v => simp [Bindings.slot, Bindings.bind, hx]

lemma lookup_bind {bs : Bindings} {x y : String} (h : y ≠ x) (slot : Slot) :
    (bs.bind x slot).texts.lookup y = bs.texts.lookup y ∧
      (bs.bind x slot).offsets.lookup y = bs.offsets.lookup y := by
  cases slot with
  | text l => exact ⟨Dict.lookup_insert_of_ne _ _ h, rfl⟩
  | scalar v => exact ⟨rfl, Dict.lookup_insert_of_ne _ _ h⟩

lemma inside_bind {bs : Bindings} {m : Memory} (hbs : bs.Inside m) (x : String) {slot : Slot}
    (hslot : slot.Inside m) : (bs.bind x slot).Inside m := by
  have hinsert : ∀ (d : Dict String Slot), (∀ y s, d.lookup y = some s → s.Inside m) →
      ∀ y s, (d.insert x slot).lookup y = some s → s.Inside m := by
    intro d hd y s hs
    rw [Dict.lookup_insert] at hs
    split_ifs at hs
    · cases hs
      exact hslot
    · exact hd y s hs
  cases slot with
  | text l => exact ⟨hbs.1, hinsert bs.texts hbs.2⟩
  | scalar v => exact ⟨hinsert bs.offsets hbs.1, hbs.2⟩

/-- The slots of the names while the `let`s run: those of the request are its fields, and those of
the `let`s so far hold their values and look only into the buffers that are recorded. -/
structure Bindings.Agrees (protocol : Protocol) (r : Request) (bs : Bindings) (m : Memory)
    (bound : Dict String Datum) (roots : Dict String (List String)) : Prop where
  inside : bs.Inside m
  input : ∀ f, bs.slot protocol r m (.input f) = (r.field f).map Slot.fresh
  bound : ∀ x, ¬RequestKey protocol r x → bs.env protocol r m (.bound x) = bound.lookup x
  roots : ∀ x, ¬RequestKey protocol r x → ∀ slot, bs.slot protocol r m (.bound x) = some slot →
    slot.roots ⊆ (roots.lookup x).getD []

section lets

variable {protocol : Protocol} {h : Handler} {r : Request}

lemma texts_lookup_request (x : String) (slot : Slot)
    (hx : (requestBindings protocol r).texts.lookup x = some slot) :
    RequestKey protocol r x ∧ ∃ v, slot = Slot.fresh v := by
  obtain ⟨f, v, hf, rfl, rfl⟩ := lookup_map_some (requestKey_injective protocol) hx
  refine ⟨⟨f, ?_, rfl⟩, v, rfl⟩
  rw [Request.field]
  rcases r.pointers.lookup f with _ | w
  · rw [Option.orElse_none, hf]
    rfl
  · rfl

lemma offsets_lookup_request (x : String) (slot : Slot)
    (hx : (requestBindings protocol r).offsets.lookup x = some slot) :
    RequestKey protocol r x ∧ ∃ v, slot = Slot.fresh v := by
  obtain ⟨f, v, hf, rfl, rfl⟩ := lookup_map_some (requestKey_injective protocol) hx
  refine ⟨⟨f, ?_, rfl⟩, v, rfl⟩
  rw [Request.field, hf]
  rfl

/-- Before the first `let`. -/
lemma agrees_request (m : Memory) :
    (requestBindings protocol r).Agrees protocol r m [] [] := by
  have hnone : ∀ x, ¬RequestKey protocol r x →
      (requestBindings protocol r).slot protocol r m (.bound x) = none := by
    intro x hx
    rw [Bindings.slot, Option.eq_none_iff_forall_not_mem.mpr fun slot hslot =>
        hx (texts_lookup_request x slot hslot).1,
      Option.eq_none_iff_forall_not_mem.mpr fun slot hslot =>
        hx (offsets_lookup_request x slot hslot).1]
    rfl
  refine ⟨⟨fun x slot hx => ?_, fun x slot hx => ?_⟩, fun f => ?_, fun x hx => ?_,
    fun x hx slot hslot => ?_⟩
  · obtain ⟨-, v, rfl⟩ := offsets_lookup_request x slot hx
    exact inside_fresh m v
  · obtain ⟨-, v, rfl⟩ := texts_lookup_request x slot hx
    exact inside_fresh m v
  · rw [Bindings.slot, requestBindings, Dict.lookup_map_entries (requestKey_injective protocol),
      Dict.lookup_map_entries (requestKey_injective protocol), Request.field]
    rcases r.pointers.lookup f with _ | v <;> rcases r.texts.lookup f with _ | w <;> rfl
  · rw [Bindings.env, hnone x hx]
    rfl
  · rw [hnone x hx] at hslot
    cases hslot

/-- A `let` with a new name. -/
lemma agrees_bind {bs : Bindings} {m : Memory} {bound : Dict String Datum}
    {roots : Dict String (List String)} (hbs : bs.Agrees protocol r m bound roots) {x : String}
    (hkey : ¬RequestKey protocol r x) (hx : bs.texts.lookup x = none) {slot : Slot} {v : Datum}
    (hin : slot.Inside m) (hread : m.read slot = some v) {into : List String}
    (hinto : slot.roots ⊆ into) :
    (bs.bind x slot).Agrees protocol r m (bound.insert x v) (roots.insert x into) := by
  have hother : ∀ y, y ≠ x → (bs.bind x slot).slot protocol r m (.bound y) =
      bs.slot protocol r m (.bound y) := by
    intro y hy
    rw [Bindings.slot, Bindings.slot, (lookup_bind hy slot).1, (lookup_bind hy slot).2]
  refine ⟨inside_bind hbs.inside x hin, fun f => ?_, fun y hy => ?_, fun y hy s hs => ?_⟩
  · rw [← hbs.input f, Bindings.slot, Bindings.slot]
    by_cases hf : (r.field f).isSome
    · have hne : requestKey protocol f ≠ x := by
        rintro rfl
        exact hkey ⟨f, hf, rfl⟩
      rw [(lookup_bind hne slot).1, (lookup_bind hne slot).2]
    · rw [if_neg hf, if_neg hf]
  · by_cases hyx : y = x
    · rw [hyx, Bindings.env, slot_bind_self hx, Dict.lookup_insert_self]
      exact hread
    · rw [Bindings.env, hother y hyx, Dict.lookup_insert_of_ne _ _ hyx]
      exact hbs.bound y hy
  · by_cases hyx : y = x
    · rw [hyx, slot_bind_self hx] at hs
      cases hs
      rw [hyx, Dict.lookup_insert_self]
      exact hinto
    · rw [hother y hyx] at hs
      rw [Dict.lookup_insert_of_ne _ _ hyx]
      exact hbs.roots y hy s hs

end lets

section run

variable {protocol : Protocol} {h : Handler} {r : Request}

/-- A place looks only into the buffers of its text. -/
lemma roots_cut {l l' : Loc} {i j : Datum} (hcut : l.cut i j = some l') :
    (Slot.text l').roots = (Slot.text l).roots := by
  cases l with
  | still b =>
      obtain ⟨b', -, rfl⟩ := Option.map_eq_some_iff.mp hcut
      rfl
  | state f first len =>
      obtain ⟨p, -, rfl⟩ := Option.map_eq_some_iff.mp hcut
      rfl

/-- What the code of an expression leaves looks only into the recorded buffers. -/
lemma locate_roots {bs : Bindings} {m : Memory} {bound : Dict String Datum}
    {roots : Dict String (List String)} (hbs : bs.Agrees protocol r m bound roots) {e : Expr}
    (hnames : ∀ x ∈ idents e, ¬RequestKey protocol r x) {slot : Slot}
    (hloc : locate protocol h r bs m e = some slot) : slot.roots ⊆ looksInto h roots e := by
  fun_induction locate protocol h r bs m e generalizing slot with
  | case1 x => exact hbs.roots x (hnames x (by simp [idents, Expr.collect])) slot hloc
  | case2 base fname key hkey =>
      rw [looksInto, hkey]
      cases key with
      | input f =>
          rw [hbs.input] at hloc
          obtain ⟨v, -, rfl⟩ := Option.map_eq_some_iff.mp hloc
          rw [roots_fresh]
          exact List.nil_subset _
      | state f =>
          obtain ⟨c, -, rfl⟩ := Option.map_eq_some_iff.mp hloc
          cases c with
          | text buffer n => exact List.Subset.refl _
          | scalar v => exact List.nil_subset _
      | bound x =>
          unfold accessKey at hkey
          split_ifs at hkey <;> cases hkey
  | case3 base fname hkey =>
      obtain ⟨v, -, rfl⟩ := Option.map_eq_some_iff.mp hloc
      rw [roots_fresh]
      exact List.nil_subset _
  | case4 cond yes no hcond ih =>
      have hsub := ih (fun x hx => hnames x (idents_subset (by simp [Expr.children]) hx)) hloc
      exact List.subset_append_of_subset_left _ hsub
  | case5 cond yes no hcond ih =>
      have hsub := ih (fun x hx => hnames x (idents_subset (by simp [Expr.children]) hx)) hloc
      exact List.subset_append_of_subset_right _ hsub
  | case6 => cases hloc
  | case7 text start stop l i j hstop hstart htext ih =>
      obtain ⟨l', hcut, rfl⟩ := Option.map_eq_some_iff.mp hloc
      rw [roots_cut hcut]
      exact ih (fun x hx => hnames x (idents_subset (by simp [Expr.children]) hx)) htext
  | case8 => cases hloc
  | case9 e hident hfield hite hsub =>
      obtain ⟨v, -, rfl⟩ := Option.map_eq_some_iff.mp hloc
      rw [roots_fresh]
      exact List.nil_subset _

/-- The values that the code of an expression finds give its value by value. -/
lemma value_native {bs : Bindings} {m : Memory} {bound : Dict String Datum}
    (hreads : Reads r.other)
    (hinput : ∀ f, bs.slot protocol r m (.input f) = (r.field f).map Slot.fresh) {e : Expr}
    (hbound : ∀ x ∈ idents e, bs.env protocol r m (.bound x) = bound.lookup x) :
    value h.inputName r.other (bs.env protocol r m) e =
      value h.inputName r.other (refEnv r m.values bound) e := by
  refine value_congr hreads (fun f => ?_) (fun f => ?_) hbound
  · rw [Bindings.env, hinput, refEnv]
    rcases r.field f with _ | v
    · rfl
    · exact read_fresh m v
  · rw [Bindings.env, refEnv, values_lookup, Bindings.slot]
    rcases hc : m.lookup f with _ | c
    · rfl
    · exact read_stateSlot hc

/-- The `let`s in memory are the `let`s by value. -/
lemma lets_agree {m : Memory} (hm : m.Sound) (hreads : Reads r.other)
    (lets : List (String × Expr)) {bs bs' : Bindings} {bound : Dict String Datum}
    {roots : Dict String (List String)} (hbs : bs.Agrees protocol r m bound roots)
    (hnew : ∀ x ∈ lets.map (·.1), bs.texts.lookup x = none)
    (hnodup : (lets.map (·.1)).Nodup)
    (hnames : ∀ x ∈ lets.map (·.1) ++ lets.flatMap (fun l => idents l.2),
      ¬RequestKey protocol r x)
    (hrun : nativeLets protocol h r m lets bs = some bs') :
    ∃ bound', refLets h r m.values lets bound = some bound' ∧
      bs'.Agrees protocol r m bound' (letRoots h lets roots) := by
  induction lets generalizing bs bound roots with
  | nil =>
      cases hrun
      exact ⟨bound, rfl, hbs⟩
  | cons l lets ih =>
      obtain ⟨x, e⟩ := l
      obtain ⟨slot, hloc, hrest⟩ := Option.bind_eq_some_iff.mp hrun
      have hidents : ∀ y ∈ idents e, ¬RequestKey protocol r y := fun y hy =>
        hnames y (List.mem_append_right _ (List.mem_flatMap.mpr ⟨(x, e), by simp, hy⟩))
      obtain ⟨hin, hvalue⟩ := locate_spec hbs.inside hm hloc
      obtain ⟨v, hv⟩ := read_inside hin
      have href : value h.inputName r.other (refEnv r m.values bound) e = some v := by
        rw [← value_native hreads hbs.input (fun y hy => hbs.bound y (hidents y hy)), hvalue, hv]
      have hbind := agrees_bind hbs (hnames x (by simp)) (hnew x (by simp)) hin hv
        (locate_roots hbs hidents hloc)
      have hnew' : ∀ y ∈ lets.map (·.1), (bs.bind x slot).texts.lookup y = none := by
        intro y hy
        have hne : y ≠ x := by
          rintro rfl
          exact (List.nodup_cons.mp hnodup).1 hy
        rw [(lookup_bind hne slot).1]
        exact hnew y (List.mem_cons_of_mem _ hy)
      have hnames' : ∀ y ∈ lets.map (·.1) ++ lets.flatMap (fun l => idents l.2),
          ¬RequestKey protocol r y := by
        intro y hy
        apply hnames y
        rcases List.mem_append.mp hy with hy | hy
        · exact List.mem_append_left _ (List.mem_cons_of_mem _ hy)
        · rw [List.flatMap_cons]
          exact List.mem_append_right _ (List.mem_append_right _ hy)
      obtain ⟨bound', hbound', hagrees⟩ :=
        ih hbind hnew' (List.nodup_cons.mp hnodup).2 hnames' hrest
      exact ⟨bound', by rw [refLets, href]; exact hbound', hagrees⟩

/-! ## The assignments -/

/-- A store assigns the value of the slot, keeps every place inside its buffer, and changes nothing
that does not look into the buffer. -/
lemma store_spec {m m' : Memory} {f : String} {slot : Slot} (hm : m.Sound)
    (hstore : store m f slot = some m') :
    m'.Sound ∧ (∃ v, m.read slot = some v ∧ m'.values = m.values.insert f v) ∧
      (∀ s : Slot, s.Inside m → s.Inside m') ∧
      ∀ s : Slot, f ∉ s.roots → m'.read s = m.read s := by
  have hread : ∀ (c : Cell) (s : Slot), f ∉ s.roots → Memory.read (m.insert f c) s = m.read s := by
    intro c s hs
    rcases s with (b | ⟨g, start, len⟩) | v
    · rfl
    · have hne : g ≠ f := by
        rintro rfl
        exact hs (by simp [Slot.roots])
      rw [Memory.read, Memory.read, Memory.bytes, Memory.bytes, Dict.lookup_insert_of_ne _ _ hne]
    · rfl
  cases slot with
  | text l =>
      obtain ⟨b, hb, hrest⟩ := Option.bind_eq_some_iff.mp hstore
      split at hrest
      · rename_i buffer n hlookup
        split_ifs at hrest with hle
        cases hrest
        have hlength : (b ++ buffer.drop b.length).length = buffer.length := by
          rw [List.length_append, List.length_drop]
          omega
        refine ⟨fun g buffer' n' hg => ?_, ⟨.text b, by rw [Memory.read, hb]; rfl, ?_⟩,
          fun s hs => ?_, hread _⟩
        · rw [Dict.lookup_insert] at hg
          split_ifs at hg
          · cases hg
            omega
          · exact hm g buffer' n' hg
        · rw [values_insert, Cell.value, List.take_left]
        · rcases s with (b' | ⟨g, start, len⟩) | v
          · trivial
          · obtain ⟨buffer', n', hg, hbound⟩ := hs
            by_cases hgf : g = f
            · rw [hgf, hlookup] at hg
              cases hg
              exact ⟨_, _, by rw [hgf, Dict.lookup_insert_self], by omega⟩
            · exact ⟨buffer', n', by rw [Dict.lookup_insert_of_ne _ _ hgf]; exact hg, hbound⟩
          · trivial
      · cases hrest
  | scalar v =>
      rw [store] at hstore
      split at hstore
      · rename_i w hlookup
        cases hstore
        refine ⟨fun g buffer' n' hg => ?_, ⟨v, rfl, rfl⟩, fun s hs => ?_, hread _⟩
        · rw [Dict.lookup_insert] at hg
          split_ifs at hg
          · cases hg
          · exact hm g buffer' n' hg
        · rcases s with (b' | ⟨g, start, len⟩) | v
          · trivial
          · obtain ⟨buffer', n', hg, hbound⟩ := hs
            have hgf : g ≠ f := by
              rintro rfl
              rw [hlookup] at hg
              cases hg
            exact ⟨buffer', n', by rw [Dict.lookup_insert_of_ne _ _ hgf]; exact hg, hbound⟩
          · trivial
      · cases hstore

/-- The assignments in memory are the assignments by value. -/
lemma sets_agree (hreads : Reads r.other) {bs : Bindings} {bound : Dict String Datum}
    {roots : Dict String (List String)} (sets : List StateSet) {m m' : Memory}
    {written : List String} (hm : m.Sound) (hin : bs.Inside m)
    (hinput : ∀ f, bs.slot protocol r m (.input f) = (r.field f).map Slot.fresh)
    (hroots : ∀ x, ¬RequestKey protocol r x → ∀ slot,
      bs.slot protocol r m (.bound x) = some slot → slot.roots ⊆ (roots.lookup x).getD [])
    (hbound : ∀ x, ¬RequestKey protocol r x →
      (∀ f ∈ (roots.lookup x).getD [], f ∉ written) →
      bs.env protocol r m (.bound x) = bound.lookup x)
    (hnames : ∀ x ∈ sets.flatMap (fun set => idents set.value), ¬RequestKey protocol r x)
    (hstale : NoStale roots written sets)
    (hrun : nativeSets protocol h r bs sets m = some m') :
    refSets h r bound sets m.values = some m'.values ∧ m'.Sound := by
  induction sets generalizing m written with
  | nil =>
      cases hrun
      exact ⟨rfl, hm⟩
  | cons set sets ih =>
      obtain ⟨slot, hloc, hrest⟩ := Option.bind_eq_some_iff.mp hrun
      obtain ⟨m₁, hstore, hrest⟩ := Option.bind_eq_some_iff.mp hrest
      obtain ⟨hfresh, hstale⟩ := hstale
      have hidents : ∀ x ∈ idents set.value, ¬RequestKey protocol r x := fun x hx =>
        hnames x (List.mem_flatMap.mpr ⟨set, by simp, hx⟩)
      obtain ⟨-, hvalue⟩ := locate_spec hin hm hloc
      obtain ⟨hm₁, ⟨v, hv, hvalues⟩, hkeeps, hreadsSame⟩ := store_spec hm hstore
      have href : value h.inputName r.other (refEnv r m.values bound) set.value = some v := by
        rw [← value_native hreads hinput
          (fun x hx => hbound x (hidents x hx) (hfresh x hx)), hvalue, hv]
      have hbound' : ∀ x, ¬RequestKey protocol r x →
          (∀ f ∈ (roots.lookup x).getD [], f ∉ set.fieldName :: written) →
          bs.env protocol r m₁ (.bound x) = bound.lookup x := by
        intro x hx hwritten
        rw [← hbound x hx fun f hf hmem => hwritten f hf (List.mem_cons_of_mem _ hmem)]
        rcases hslot : bs.slot protocol r m (.bound x) with _ | s
        · rw [Bindings.env, Bindings.env, hslot]
          change Option.bind (bs.slot protocol r m (.bound x)) _ = _
          rw [hslot]
          rfl
        · have hroot : set.fieldName ∉ s.roots := fun hmem =>
            hwritten _ (hroots x hx s hslot hmem) (by simp)
          rw [Bindings.env, Bindings.env, hslot]
          change Option.bind (bs.slot protocol r m (.bound x)) _ = _
          rw [hslot]
          exact hreadsSame s hroot
      have hrec := ih hm₁ ⟨fun x s hs => hkeeps s (hin.1 x s hs),
        fun x s hs => hkeeps s (hin.2 x s hs)⟩ hinput hroots hbound'
        (fun x hx => hnames x (by rw [List.flatMap_cons]; exact List.mem_append_right _ hx))
        hstale hrest
      rw [hvalues] at hrec
      exact ⟨by rw [refSets, href]; exact hrec.1, hrec.2⟩

/-! ## Requests -/

/-- One request in memory is the request by value. -/
lemma request_agrees (hreads : Reads r.other) (hdistinct : Distinct protocol h r)
    (hstale : h.NoStale) {m m' : Memory} (hm : m.Sound) {response : Datum}
    (hrun : native protocol h r m = some (response, m')) :
    reference h r m.values = some (response, m'.values) ∧ m'.Sound := by
  obtain ⟨bs, hlets, hrest⟩ := Option.bind_eq_some_iff.mp hrun
  obtain ⟨v, hresponse, hrest⟩ := Option.bind_eq_some_iff.mp hrest
  obtain ⟨m₁, hsets, hrest⟩ := Option.bind_eq_some_iff.mp hrest
  cases hrest
  obtain ⟨hnodup, hnames⟩ := hdistinct
  have hnew : ∀ x ∈ h.lets.map (·.1), (requestBindings protocol r).texts.lookup x = none := by
    intro x hx
    refine Option.eq_none_iff_forall_not_mem.mpr fun slot hslot => ?_
    exact hnames x (by simp only [Handler.names, List.mem_append]; tauto)
      (texts_lookup_request x slot hslot).1
  obtain ⟨bound, hbound, hagrees⟩ := lets_agree hm hreads h.lets (agrees_request m) hnew hnodup
    (fun x hx => hnames x (by
      rw [Handler.names, List.append_assoc, List.append_assoc, ← List.append_assoc]
      exact List.mem_append_left _ hx)) hlets
  have href : value h.inputName r.other (refEnv r m.values bound) h.response = some response := by
    rw [← value_native hreads hagrees.input (fun x hx => hagrees.bound x
      (hnames x (by simp only [Handler.names, List.mem_append]; tauto)))]
    exact hresponse
  obtain ⟨hstate, hm₁⟩ := sets_agree hreads h.sets hm hagrees.inside hagrees.input hagrees.roots
    (fun x hx _ => hagrees.bound x hx)
    (fun x hx => hnames x (by simp only [Handler.names, List.mem_append]; tauto)) hstale hsets
  refine ⟨?_, hm₁⟩
  rw [reference, hbound]
  change (value h.inputName r.other (refEnv r m.values bound) h.response).bind _ = _
  rw [href]
  change (refSets h r bound h.sets m.values).bind _ = _
  rw [hstate]
  rfl

end run

/-- Every run in memory is the run by value. -/
lemma run_agrees_from {protocol : Protocol} {h : Handler} (hstale : h.NoStale) (rs : List Request)
    (hreads : ∀ r ∈ rs, Reads r.other) (hdistinct : ∀ r ∈ rs, Distinct protocol h r)
    {m m' : Memory} (hm : m.Sound) {responses : List Datum}
    (hrun : nativeRun protocol h rs m = some (responses, m')) :
    referenceRun h rs m.values = some (responses, m'.values) := by
  induction rs generalizing m responses with
  | nil =>
      cases hrun
      rfl
  | cons r rs ih =>
      obtain ⟨⟨response, m₁⟩, hfirst, hrest⟩ := Option.bind_eq_some_iff.mp hrun
      obtain ⟨⟨rest, m₂⟩, htail, hrest⟩ := Option.bind_eq_some_iff.mp hrest
      cases hrest
      obtain ⟨href, hm₁⟩ :=
        request_agrees (hreads r (by simp)) (hdistinct r (by simp)) hstale hm hfirst
      have hrec := ih (fun r' hr' => hreads r' (List.mem_cons_of_mem _ hr'))
        (fun r' hr' => hdistinct r' (List.mem_cons_of_mem _ hr')) hm₁ htail
      rw [referenceRun, href]
      change (referenceRun h rs m₁.values).bind _ = _
      rw [hrec]
      rfl

lemma initialMemory_values (s : Service) : (initialMemory s).values = initialState s := by
  unfold initialMemory initialState Memory.values
  rw [List.map_map]
  refine List.map_congr_left fun sf _ => ?_
  rcases hinit : sf.init with n | lit
  · simp [hinit, Cell.value, StateInit.datum]
  · simp [hinit, Cell.value, StateInit.datum]

lemma initialMemory_sound (s : Service) : (initialMemory s).Sound := by
  intro f buffer n hlookup
  obtain ⟨sf, -, hsf⟩ := List.mem_map.mp (Dict.mem_of_lookup hlookup)
  rcases hinit : sf.init with k | lit
  · rw [hinit] at hsf
    cases hsf
  · rw [hinit] at hsf
    cases hsf
    simp

/-- A service that records the body of a request and the one before it. -/
def recorder (sets : List StateSet) : Service where
  name := "recorder"
  protocol := .http10
  maxRequest := 4
  handler := "answer"
  stateFields := [⟨"seen", .text, some 4, .text "--"⟩, ⟨"before", .text, some 4, .text "--"⟩]
  afterSets := sets

/-- A handler that answers with the text it has seen last. -/
def answer : Rule where
  name := "answer"
  inputName := "req"
  inputTy := .named "HttpRequest"
  outputName := "resp"
  outputTy := .named "HttpResponse"
  logic := ⟨[("s", .field (.ident "state") "seen")], .ident "s"⟩

/-- A request with a body. -/
def post (body : List UInt8) : Request where
  pointers := [("method", .text [80, 79, 83, 84]), ("path", .text [47])]
  texts := [("body", .text body)]
  other := fun _ _ => none

lemma post_reads (body : List UInt8) : Reads (post body).other := fun _ _ _ _ _ _ => rfl

lemma post_keys {body : List UInt8} {x : String} (h : RequestKey .http10 (post body) x) :
    x = "method" ∨ x = "path" ∨ x = "body" := by
  obtain ⟨f, hf, rfl⟩ := h
  by_contra hne
  push Not at hne
  obtain ⟨hmethod, hpath, hbody⟩ := hne
  simp [post, Request.field, List.lookup_cons, beq_false_of_ne hmethod, beq_false_of_ne hpath,
    beq_false_of_ne hbody] at hf

end Verbosec.Native.ServiceState
