import Verbosec.Wasm.EmitFits

/-!
# Text values keep their bytes

* `Intact` - what should hold at any time of a call.
* `Clear` - the steps that spare the `concat` under construction and the texts of the host.
* `Sound` - the regions of the live texts; `Step.sound` keeps it.
* `texts_kept` - the texts keep their bytes in the runs whose steps are all clear.
-/

namespace Verbosec.Wasm.Emit

open Lib Lib.Bytes Interpreter

/-! ## What should hold -/

/-- The text has the bytes that it had when it was made. -/
def Text.Held (m : Nat → UInt8) (t : Text) : Prop := t.bytes.length = t.len ∧ Holds m t.ptr t.bytes

/-- Regions without a common byte, where an empty one has none. -/
def Apart (a len a' len' : Nat) : Prop := len = 0 ∨ len' = 0 ∨ Separate a len a' len'

lemma Apart.symm {a len a' len' : Nat} (h : Apart a len a' len') : Apart a' len' a len := by
  rw [Apart, Separate] at h ⊢
  omega

/-- The text can still be used. -/
def Machine.Live (x : Machine) (t : Text) : Prop :=
  .text t ∈ x.stack ∨ .text t ∈ x.below ∨ ∃ slot, x.locals slot = t

/-- The texts of a call are as they were made, the one under construction is what is copied so far,
and their regions are apart. -/
structure Intact (k : Compiled) (x : Machine) : Prop where
  held : ∀ t, x.Live t → t.Held x.memory
  built : x.opened = true →
    x.cursor = x.resultPtr + x.built.length ∧ Holds x.memory x.resultPtr x.built
  /-- two values of the call are the same one or lie apart -/
  apart : ∀ s t, x.Live s → x.Live t → s.origin ≠ .input → t.origin ≠ .input →
    s = t ∨ Apart s.ptr s.len t.ptr t.len
  /-- the text under construction lies apart from the others, and from the digits -/
  building : x.opened = true → 48 ≤ x.resultPtr ∧
    ∀ t, x.Live t → Apart t.ptr t.len x.resultPtr (x.cursor - x.resultPtr)
  /-- the literals are there, and apart from what is allocated and from the digits -/
  literals : ∀ s o, (s, o) ∈ k.literals → Holds x.memory o (utf8Bytes s) ∧ 48 ≤ o ∧
    (x.opened = true → o + (utf8Bytes s).length ≤ x.resultPtr) ∧
    ∀ t, x.Live t → t.origin = .allocated → o + (utf8Bytes s).length ≤ t.ptr
  /-- the digits are in their buffer, and the other values are not -/
  rendered : ∀ t, x.Live t → (t.origin = .rendered → 16 ≤ t.ptr ∧ t.ptr + t.len ≤ 48) ∧
    (t.origin = .literal ∨ t.origin = .allocated → 48 ≤ t.ptr)

/-! ## Clear steps -/

/-- The end of what the next piece writes by the allocator. -/
def Machine.written (x : Machine) : Nat := match x.code, x.stack with
  | .copy :: _, .text t :: _ => x.cursor + t.len
  | .jsonEscape :: _, .text t :: _ => x.bump + (escapeOf t).length
  | _, _ => 0

/-- The next step spares what it should. -/
structure Clear (h : Host) (x : Machine) : Prop where
  /-- the allocator stays below the texts of the host -/
  fits : x.written ≤ h.top
  /-- no `concat` starts inside of another one -/
  nested : x.opened = true → ∀ rest, x.code ≠ .concatStart :: rest
  /-- inside of a `concat` nothing is escaped over the bytes that are copied -/
  escape : x.opened = true → ∀ rest, x.code = .jsonEscape :: rest →
    x.cursor ≤ x.bump ∨ x.written = x.bump

/-- The runs whose steps are all clear. -/
def clearCall (k : Compiled) (h : Host) (m : Nat → UInt8) : System Machine where
  init x := x = start k m
  step x y := Clear h x ∧ Step h x y

/-! ## Regions -/

/-- The text lies outside of the digit buffer and below `limit`, or with the host. -/
structure Text.Under (h : Host) (limit : Nat) (t : Text) : Prop where
  digits : t.ptr + t.len ≤ 16 ∨ 48 ≤ t.ptr
  limit : t.ptr + t.len ≤ limit ∨ h.top ≤ t.ptr
  size : t.ptr + t.len ≤ h.size

/-- Where a text lies, by its origin. -/
def Text.Known (k : Compiled) (t : Text) : Prop := match t.origin with
  | .input => True
  | .literal => ∃ s, (s, t.ptr) ∈ k.literals ∧ t.bytes = utf8Bytes s ∧ t.len = (utf8Bytes s).length
  | .rendered => 16 ≤ t.ptr ∧ t.ptr + t.len ≤ 48
  | .allocated => k.allocBase ≤ t.ptr

/-- A text that stays where it is while the allocator works from `limit` on. -/
structure Text.Settled (k : Compiled) (h : Host) (m : Nat → UInt8) (limit : Nat) (t : Text) :
    Prop where
  known : t.Known k
  held : t.Held m
  under : t.Under h limit

/-- A call can start: the literals and the texts of the host are in the memory, and the texts of the
host are out of the way of the digits and of the allocator. -/
structure Ready (k : Compiled) (h : Host) (m : Nat → UInt8) : Prop where
  memory : h.size ≤ 2 ^ 32
  top : k.allocBase ≤ h.top ∧ h.top ≤ h.size ∧ h.top < 2 ^ 32
  literals : ∀ s o, (s, o) ∈ k.literals → Holds m o (utf8Bytes s)
  fields : ∀ name, (h.fields name).origin = .input ∧ (h.fields name).Settled k h m k.allocBase

/-- Where nothing live is written over. -/
def Machine.floor (x : Machine) : Nat := if x.opened then x.resultPtr else x.bump

/-- The values that the argument in work has left. -/
def Machine.temps (x : Machine) : Option Nat := if x.opened then some x.stack.length else none

/-- A text that an argument has left. -/
structure Machine.Temp (k : Compiled) (h : Host) (x : Machine) (t : Text) : Prop where
  known : t.Known k
  held : t.Held x.memory
  place : (t.Under h x.bump ∧ (x.opened = true →
      Apart t.ptr t.len x.resultPtr (x.cursor - x.resultPtr))) ∨
    t.origin = .rendered ∧ ∃ rest, x.code = .copy :: rest

/-- The regions of a call. -/
structure Machine.Sound (k : Compiled) (h : Host) (x : Machine) : Prop where
  fits : Fits k.literals x.temps x.code
  literals : ∀ s o, (s, o) ∈ k.literals → Holds x.memory o (utf8Bytes s)
  fields : ∀ name, (h.fields name).Held x.memory
  base : k.allocBase ≤ x.floor
  bump : x.floor ≤ x.bump ∧ x.bump ≤ h.top
  closed : x.opened = false → x.below = []
  built : x.opened = true → x.cursor = x.resultPtr + x.built.length ∧
    Holds x.memory x.resultPtr x.built ∧ x.cursor ≤ h.top
  below : ∀ t, .text t ∈ x.below → t.Settled k h x.memory x.floor
  locals : ∀ slot, (x.locals slot).Settled k h x.memory x.floor
  stack : ∀ t, .text t ∈ x.stack → x.Temp k h t
  apart : ∀ s t, x.Live s → x.Live t → s.origin = .allocated → t.origin = .allocated →
    s = t ∨ Apart s.ptr s.len t.ptr t.len

section sound

variable {k : Compiled} {h : Host} {m m' : Nat → UInt8} {x y : Machine} {t : Text}
  {limit limit' : Nat}

lemma Text.Held.same (ht : t.Held m) (hsame : ∀ z, t.ptr ≤ z → z < t.ptr + t.len → m' z = m z) :
    t.Held m' :=
  ⟨ht.1, ht.2.congr fun z hz hz' => hsame z hz (by rw [← ht.1]; exact hz')⟩

lemma Text.Under.mono (ht : t.Under h limit) (hle : limit ≤ limit') : t.Under h limit' :=
  ⟨ht.digits, ht.limit.imp_left fun hlimit => hlimit.trans hle, ht.size⟩

lemma Text.Settled.mono (ht : t.Settled k h m limit) (hle : limit ≤ limit') :
    t.Settled k h m limit' := ⟨ht.known, ht.held, ht.under.mono hle⟩

/-- A settled text stays where the digits or bytes from `limit` on are written. -/
lemma Text.Settled.same {a b : Nat} (ht : t.Settled k h m limit) (hsame : SameOutside a b m m')
    (hplace : 16 ≤ a ∧ b ≤ 48 ∨ limit ≤ a ∧ b ≤ h.top) : t.Settled k h m' limit := by
  refine ⟨ht.known, ht.held.same fun z hz hz' => hsame z ?_, ht.under⟩
  have hdigits := ht.under.digits
  have hlimit := ht.under.limit
  omega

lemma emptyText_settled (k : Compiled) (h : Host) (m : Nat → UInt8) (limit : Nat) :
    emptyText.Settled k h m limit :=
  ⟨trivial, ⟨rfl, holds_nil _ _⟩, .inl (Nat.zero_le _), .inl (Nat.zero_le _), Nat.zero_le _⟩

namespace Machine.Sound

lemma ne_copy {p : Piece} {rest : List Piece} (hcode : x.code = p :: rest) (hp : p ≠ .copy)
    (rest' : List Piece) : x.code ≠ .copy :: rest' :=
  fun heq => hp (List.cons.inj (hcode.symm.trans heq)).1

/-- A text that is none of the digits lies below the allocator. -/
lemma under (hx : x.Sound k h) (hcode : ∀ rest, x.code ≠ .copy :: rest)
    (ht : .text t ∈ x.stack) : t.Settled k h x.memory x.bump ∧
      (x.opened = true → Apart t.ptr t.len x.resultPtr (x.cursor - x.resultPtr)) := by
  obtain ⟨hknown, hheld, hplace | ⟨-, rest, hrest⟩⟩ := hx.stack t ht
  · exact ⟨⟨hknown, hheld, hplace.1⟩, hplace.2⟩
  · exact absurd hrest (hcode rest)

/-- A settled text lies apart from the text under construction. -/
lemma building (hx : x.Sound k h) (hopened : x.opened = true)
    (ht : t.Settled k h x.memory x.floor) :
    Apart t.ptr t.len x.resultPtr (x.cursor - x.resultPtr) := by
  have hlimit := ht.under.limit
  have hcursor := (hx.built hopened).1
  have htop := (hx.built hopened).2.2
  rw [floor, if_pos hopened] at hlimit
  rw [Apart, Separate]
  omega

lemma temp (hx : x.Sound k h) (ht : t.Settled k h x.memory x.floor) : x.Temp k h t :=
  ⟨ht.known, ht.held, .inl ⟨ht.under.mono hx.bump.1, fun hopened => hx.building hopened ht⟩⟩

/-- A step that only moves texts. -/
lemma shuffle (hx : x.Sound k h) (hcode : ∀ rest, x.code ≠ .copy :: rest)
    (hfits : Fits k.literals y.temps y.code) (hmemory : y.memory = x.memory) (hbump : y.bump = x.bump)
    (hcursor : y.cursor = x.cursor) (hresult : y.resultPtr = x.resultPtr)
    (hopened : y.opened = x.opened) (hbuilt : y.built = x.built) (hbelow : y.below = x.below)
    (hstack : ∀ t, .text t ∈ y.stack → .text t ∈ x.stack ∨
      t.Settled k h x.memory x.floor ∧ (t.origin = .allocated → x.Live t))
    (hlocals : ∀ slot, y.locals slot = x.locals slot ∨
      x.opened = false ∧ .text (y.locals slot) ∈ x.stack) : y.Sound k h := by
  have hfloor : y.floor = x.floor := by rw [floor, floor, hopened, hresult, hbump]
  have hlive : ∀ t, y.Live t → t.origin = .allocated → x.Live t := by
    rintro t (ht | ht | ⟨slot, rfl⟩) horigin
    · exact (hstack t ht).elim .inl fun h => h.2 horigin
    · exact .inr (.inl (hbelow ▸ ht))
    · exact (hlocals slot).elim (fun heq => .inr (.inr ⟨slot, heq.symm⟩)) fun h => .inl h.2
  refine ⟨hfits, ?_, ?_, ?_, ?_, ?_, ?_, ?_, fun slot => ?_, fun t ht => ?_,
    fun s t hs ht hs' ht' => hx.apart s t (hlive s hs hs') (hlive t ht ht') hs' ht'⟩
  · rw [hmemory]
    exact hx.literals
  · rw [hmemory]
    exact hx.fields
  · rw [hfloor]
    exact hx.base
  · rw [hfloor, hbump]
    exact hx.bump
  · rw [hopened, hbelow]
    exact hx.closed
  · rw [hopened, hcursor, hresult, hbuilt, hmemory]
    exact hx.built
  · rw [hbelow, hmemory, hfloor]
    exact hx.below
  · rw [hmemory, hfloor]
    rcases hlocals slot with heq | ⟨hclosed, hmem⟩
    · rw [heq]
      exact hx.locals slot
    · have hsettled := (hx.under hcode hmem).1
      rwa [floor, if_neg (by rw [hclosed]; exact Bool.false_ne_true)]
  · have htemp : x.Temp k h t := (hstack t ht).elim (hx.stack t) fun h => hx.temp h.1
    obtain ⟨hknown, hheld, hplace⟩ := htemp
    refine ⟨hknown, hmemory ▸ hheld, .inl ?_⟩
    rw [hbump, hopened, hresult, hcursor]
    exact hplace.resolve_right fun ⟨_, rest, hrest⟩ => hcode rest hrest

end Machine.Sound

/-! ## What the code can go on with -/

section code

variable {table : List (String × Nat)}

lemma Fits.simple_inv {p : Piece} {n : Nat} {s : Option Nat} {code : List Piece}
    (hfits : Fits table s (p :: code)) (hp : p.pops table = some n) :
    ∃ s' : Option Nat, s = s'.map (· + n) ∧ Fits table (s'.map (· + 1)) code := by
  cases hfits with
  | simple hp' hs hcode =>
      cases hp.symm.trans hp'
      exact ⟨_, hs, hcode⟩
  | branch => cases hp
  | concatStart => cases hp
  | nested => cases hp
  | itoa => cases hp
  | copy => cases hp
  | concatEnd => cases hp
  | store => cases hp
  | storeNumber => cases hp

lemma Fits.literal_mem {lit : String} {o : Nat} {s : Option Nat} {code : List Piece}
    (hfits : Fits table s (.literal lit o :: code)) : (lit, o) ∈ table := by
  cases hfits with
  | simple hp =>
      rw [Piece.pops] at hp
      split at hp
      · assumption
      · cases hp

lemma Fits.branch_inv {yes no code : List Piece} {s : Option Nat}
    (hfits : Fits table s (.branch yes no :: code)) :
    ∃ s' : Option Nat, s = s'.map (· + 1) ∧ Fits table s' (yes ++ code) ∧ Fits table s' (no ++ code) := by
  cases hfits with
  | simple hp => cases hp
  | branch hs hyes hno => exact ⟨_, hs, hyes, hno⟩

lemma Fits.store_inv {slot : Slot} {code : List Piece} {s : Option Nat}
    (hfits : Fits table s (.store slot :: code)) : s = none ∧ Fits table none code := by
  cases hfits with
  | simple hp => cases hp
  | store hcode => exact ⟨rfl, hcode⟩

lemma Fits.storeNumber_inv {code : List Piece} {s : Option Nat}
    (hfits : Fits table s (.storeNumber :: code)) : s = none ∧ Fits table none code := by
  cases hfits with
  | simple hp => cases hp
  | storeNumber hcode => exact ⟨rfl, hcode⟩

lemma Fits.copy_inv {code : List Piece} {s : Option Nat} (hfits : Fits table s (.copy :: code)) :
    s = some 1 ∧ Fits table (some 0) code := by
  cases hfits with
  | simple hp => cases hp
  | copy hcode => exact ⟨rfl, hcode⟩

lemma Fits.itoa_inv {code : List Piece} {s : Option Nat} (hfits : Fits table s (.itoa :: code)) :
    Fits table s code ∧ ∃ rest, code = .copy :: rest := by
  cases hfits with
  | simple hp => cases hp
  | itoa hcode => exact ⟨hcode, _, rfl⟩

lemma Fits.concatEnd_inv {code : List Piece} {s : Option Nat} (hfits : Fits table s (.concatEnd :: code)) :
    s = some 0 ∧ Fits table none code := by
  cases hfits with
  | simple hp => cases hp
  | concatEnd hcode => exact ⟨rfl, hcode⟩

lemma Fits.concatStart_inv {code : List Piece} (hfits : Fits table none (.concatStart :: code)) :
    Fits table (some 0) code := by
  cases hfits with
  | simple hp => cases hp
  | concatStart hcode => exact hcode

end code

/-- The values that stay, and some more. -/
lemma temps_shift {opened : Bool} {a n : Nat} {s : Option Nat}
    (hs : (if opened = true then some (a + n) else none) = s.map (· + n)) (j : Nat) :
    (if opened = true then some (a + j) else none) = s.map (· + j) := by
  cases opened with
  | false =>
      cases s with
      | none => rfl
      | some i => cases hs
  | true =>
      cases s with
      | none => cases hs
      | some i =>
          have hi : a + n = i + n := Option.some.inj hs
          exact congrArg some (congrArg (· + j) (Nat.add_right_cancel hi))

lemma Machine.opened_of_temps {n : Nat} (htemps : x.temps = some n) :
    x.opened = true ∧ x.stack.length = n := by
  rw [temps] at htemps
  split at htemps
  · rename_i hopened
    exact ⟨hopened, Option.some.inj htemps⟩
  · cases htemps

lemma Machine.closed_of_temps (htemps : x.temps = none) : x.opened = false := by
  rw [temps] at htemps
  split at htemps
  · cases htemps
  · rename_i hopened
    exact Bool.eq_false_iff.mpr hopened

namespace Machine.Sound

/-- A piece that takes values and leaves one. -/
lemma simple (hx : x.Sound k h) {p : Piece} {n : Nat} {rest : List Piece}
    (hcode : x.code = p :: rest) (hp : p.pops k.literals = some n) {taken stack : List Val} {v : Val}
    (hstack : x.stack = taken ++ stack) (hlength : taken.length = n)
    (hv : ∀ t, v = .text t →
      t.Settled k h x.memory x.floor ∧ (t.origin = .allocated → x.Live t)) :
    Sound k h { x with code := rest, stack := v :: stack } := by
  have hne := ne_copy hcode (by
    rintro rfl
    cases hp)
  have hfits := hx.fits
  rw [hcode] at hfits
  obtain ⟨s', hs', hfits⟩ := hfits.simple_inv hp
  rw [temps, hstack, List.length_append, hlength, Nat.add_comm] at hs'
  have hgo : Fits k.literals (if x.opened = true then some (stack.length + 1) else none) rest := by
    rw [temps_shift hs' 1]
    exact hfits
  refine hx.shuffle hne hgo rfl rfl rfl rfl rfl rfl rfl (fun t ht => ?_) fun slot => .inl rfl
  rcases List.mem_cons.mp ht with heq | ht
  · exact .inr (hv t heq.symm)
  · exact .inl (hstack ▸ List.mem_append_right _ ht)

/-- A branch goes on with one of its arms. -/
lemma branch (hx : x.Sound k h) {yes no rest arm : List Piece} {n : Int64} {stack : List Val}
    (hcode : x.code = .branch yes no :: rest) (hstack : x.stack = .number n :: stack)
    (harm : arm = yes ∨ arm = no) :
    Sound k h { x with code := arm ++ rest, stack := stack } := by
  have hne := ne_copy hcode fun heq => by cases heq
  have hfits := hx.fits
  rw [hcode] at hfits
  obtain ⟨s', hs', hyes, hno⟩ := hfits.branch_inv
  rw [temps, hstack, List.length_cons] at hs'
  have hgo : Fits k.literals (if x.opened = true then some stack.length else none) (arm ++ rest) := by
    have hsame := temps_shift hs' 0
    simp only [Nat.add_zero, Option.map_id_fun'] at hsame
    rw [hsame]
    rcases harm with rfl | rfl
    · exact hyes
    · exact hno
  refine hx.shuffle hne hgo rfl rfl rfl rfl rfl rfl rfl (fun t ht => .inl ?_) fun slot => .inl rfl
  rw [hstack]
  exact List.mem_cons_of_mem _ ht

/-- A value goes into its local, or is dropped. -/
lemma store (hx : x.Sound k h) {p : Piece} {rest : List Piece} {v : Val} {stack : List Val}
    {locals : Slot → Text} (hcode : x.code = p :: rest) (hp : p ≠ .copy)
    (hclosed : x.temps = none) (hfits : Fits k.literals none rest) (hstack : x.stack = v :: stack)
    (hlocals : ∀ slot, locals slot = x.locals slot ∨ .text (locals slot) = v) :
    Sound k h { x with code := rest, stack := stack, locals := locals } := by
  have hne := ne_copy hcode hp
  have hopened := closed_of_temps hclosed
  have hgo : Fits k.literals (if x.opened = true then some stack.length else none) rest := by
    rw [if_neg (by rw [hopened]; exact Bool.false_ne_true)]
    exact hfits
  refine hx.shuffle hne hgo rfl rfl rfl rfl rfl rfl rfl (fun t ht => .inl ?_)
    fun slot => (hlocals slot).imp_right fun heq => ⟨hopened, ?_⟩
  · rw [hstack]
    exact List.mem_cons_of_mem _ ht
  · rw [hstack, heq]
    exact List.mem_cons_self ..

/-- A `concat` starts at the end of what is allocated. -/
lemma concatStart (hx : x.Sound k h) {rest : List Piece} (hcode : x.code = .concatStart :: rest)
    (hclear : Clear h x) :
    Sound k h { x with
      code := rest, stack := [], below := x.stack ++ x.below, cursor := x.bump
      resultPtr := x.bump, opened := true, built := [] } := by
  have hopened : x.opened = false := by
    by_contra hopened
    exact hclear.nested (Bool.eq_true_of_not_eq_false hopened) rest hcode
  have htemps : x.temps = none := if_neg (by rw [hopened]; exact Bool.false_ne_true)
  have hfloor : x.floor = x.bump := if_neg (by rw [hopened]; exact Bool.false_ne_true)
  have hne := ne_copy hcode fun heq => by cases heq
  have hfits := hx.fits
  rw [hcode, htemps] at hfits
  have hbase := hx.base
  have hbelow := hx.below
  have hlocals := hx.locals
  rw [hfloor] at hbase hbelow hlocals
  refine ⟨hfits.concatStart_inv, hx.literals, hx.fields, hbase, ⟨Nat.le_refl _, hx.bump.2⟩,
    fun h => (by cases h), fun _ => ⟨rfl, holds_nil _ _, hx.bump.2⟩, fun t ht => ?_, hlocals,
    fun t ht => (by cases ht), fun s t hs ht => hx.apart s t ?_ ?_⟩
  · rcases List.mem_append.mp ht with ht | ht
    · exact (hx.under hne ht).1
    · exact hbelow t ht
  · rcases hs with hs | hs | hs
    · cases hs
    · exact (List.mem_append.mp hs).elim .inl fun hs => .inr (.inl hs)
    · exact .inr (.inr hs)
  · rcases ht with ht | ht | ht
    · cases ht
    · exact (List.mem_append.mp ht).elim .inl fun ht => .inr (.inl ht)
    · exact .inr (.inr ht)

end Machine.Sound

/-! ## Helpers -/

/-- What the number writer does. -/
lemma itoa_effect {size ptr len : Nat} {n : Int64} (hsize : 48 ≤ size)
    (hcall : Wasm.itoa.Returns [.i64 (Lib.Wasm.unsigned 64 n.toInt)] m size
      [.i32 ptr, .i32 len] m') :
    len = (utf8Bytes (decimal n)).length ∧ 16 ≤ ptr ∧ ptr + len ≤ 48 ∧
      Holds m' ptr (utf8Bytes (decimal n)) ∧ SameOutside 16 48 m m' := by
  obtain ⟨p, m'', hreturns, hlow, hhigh, hholds, hsame⟩ := writesNumber hsize m n
  obtain ⟨hresults, rfl⟩ := hcall.unique hreturns rfl
  cases hresults
  exact ⟨rfl, hlow, hhigh, hholds, hsame⟩

/-- The escape of a text that it does not write over. -/
lemma escape_returns {size bump : Nat} (hsize : size ≤ 2 ^ 32) (ht : t.Held m)
    (hfit : t.ptr + t.len ≤ size) (hout : bump + (escapeOf t).length ≤ size)
    (hbump : bump + (escapeOf t).length < 2 ^ 32)
    (hsep : Separate t.ptr t.len bump (escapeOf t).length) :
    ∃ m', jsonEscapeHelper.Returns [.i32 t.ptr, .i32 t.len, .i32 bump] m size
        [.i32 bump, .i32 (escapeOf t).length, .i32 (bump + (escapeOf t).length)] m' ∧
      Holds m' bump (escapeOf t) ∧ SameOutside bump (bump + (escapeOf t).length) m m' := by
  obtain ⟨hlength, hholds⟩ := ht
  have hruns : Lib.Wasm.Runs jsonEscapeHelper.body
      (jsonEscapeHelper.start [.i32 t.ptr, .i32 t.len, .i32 bump] m size)
      (Lib.Wasm.Ends (WritesAt m bump (escapeOf t))) := by
    rw [← hlength] at hfit hsep ⊢
    by_cases hshort : t.len < 2 ^ 31
    · rw [escapeOf, if_pos hshort] at *
      exact jsonEscape_short (hlength ▸ hshort) hsize (by omega) hfit hout hsep hholds
    · rw [escapeOf, if_neg hshort] at *
      exact jsonEscape_long (by omega) (by omega) (by omega)
  obtain ⟨results, m', hreturns, hstack, hwritten, hsame⟩ := Lib.Wasm.Func.returns_of_runs hruns
  rw [hstack, Lib.Wasm.lowBits_eq hbump] at hreturns
  exact ⟨m', hreturns, hwritten, hsame⟩

/-- What a call of the escape leaves. -/
lemma escape_effect {size bump ptr len bump' : Nat} (hsize : size ≤ 2 ^ 32) (ht : t.Held m)
    (hfit : t.ptr + t.len ≤ size) (hout : bump + (escapeOf t).length ≤ size)
    (hbump : bump + (escapeOf t).length < 2 ^ 32)
    (hsep : Separate t.ptr t.len bump (escapeOf t).length)
    (hcall : jsonEscapeHelper.Returns [.i32 t.ptr, .i32 t.len, .i32 bump] m size
      [.i32 ptr, .i32 len, .i32 bump'] m') :
    ptr = bump ∧ len = (escapeOf t).length ∧ bump' = bump + (escapeOf t).length ∧
      Holds m' bump (escapeOf t) ∧ SameOutside bump (bump + (escapeOf t).length) m m' := by
  obtain ⟨m'', hreturns, hwritten, hsame⟩ := escape_returns hsize ht hfit hout hbump hsep
  obtain ⟨hresults, rfl⟩ := hcall.unique hreturns rfl
  cases hresults
  exact ⟨rfl, rfl, rfl, hwritten, hsame⟩

lemma loadBytes_held (ht : t.Held m) : loadBytes m t.ptr t.len = t.bytes := by
  rw [← ht.1]
  refine List.ext_getElem (by simp [loadBytes]) fun i hi hi' => ?_
  simpa [loadBytes] using ht.2 i hi'

namespace Machine.Sound

variable {m₀ : Nat → UInt8}

/-- The texts of the host stay where the digits are written, or the allocator works. -/
lemma fields_same (hready : Ready k h m₀) (hx : x.Sound k h) {a b : Nat}
    (hsame : SameOutside a b x.memory m') (hplace : 16 ≤ a ∧ b ≤ 48 ∨ x.floor ≤ a ∧ b ≤ h.top)
    (name : String) : (h.fields name).Held m' := by
  have hsettled := (hready.fields name).2
  exact (Text.Settled.same ⟨hsettled.known, hx.fields name, hsettled.under.mono hx.base⟩ hsame
    hplace).held

/-- The literals stay as well. -/
lemma literals_same (hlaid : Laid k.literals k.allocBase) (hx : x.Sound k h) {a b : Nat}
    (hsame : SameOutside a b x.memory m') (hplace : b ≤ 48 ∨ x.floor ≤ a) (s : String) (o : Nat)
    (hmem : (s, o) ∈ k.literals) : Holds m' o (utf8Bytes s) := by
  refine (hx.literals s o hmem).congr fun z hz hz' => hsame z ?_
  obtain ⟨hlow, hhigh⟩ := hlaid.place s o hmem
  have hbase := hx.base
  rw [literalBase] at hlow
  omega

/-- The text under construction stays as well. -/
lemma built_same (hx : x.Sound k h) (hopened : x.opened = true) {a b : Nat}
    (hsame : SameOutside a b x.memory m') (hplace : b ≤ x.resultPtr ∨ x.cursor ≤ a) :
    Holds m' x.resultPtr x.built := by
  obtain ⟨hcursor, hholds, -⟩ := hx.built hopened
  exact hholds.congr fun z hz hz' => hsame z (by omega)

/-- A number is written as digits. -/
lemma itoa (hready : Ready k h m₀) (hlaid : Laid k.literals k.allocBase)
    (hbase : literalBase ≤ k.allocBase) (hx : x.Sound k h) {rest : List Piece} {n : Int64}
    {stack : List Val} {ptr len : Nat} (hcode : x.code = .itoa :: rest)
    (hstack : x.stack = .number n :: stack)
    (hcall : Wasm.itoa.Returns [.i64 (Lib.Wasm.unsigned 64 n.toInt)] x.memory h.size
      [.i32 ptr, .i32 len] m') :
    Sound k h { x with
      code := rest, memory := m'
      stack := .text ⟨.rendered, ptr, len, utf8Bytes (decimal n)⟩ :: stack } := by
  have hfloor := hx.base
  have htop := hready.top
  rw [literalBase] at hbase
  obtain ⟨rfl, hlow, hhigh, hholds, hsame⟩ := itoa_effect (by omega) hcall
  have hne := ne_copy hcode fun heq => by cases heq
  have hfits := hx.fits
  rw [hcode, temps, hstack] at hfits
  obtain ⟨hgo, hcopy⟩ := hfits.itoa_inv
  refine ⟨hgo, hx.literals_same hlaid hsame (.inl (Nat.le_refl _)),
    hx.fields_same hready hsame (.inl ⟨Nat.le_refl _, Nat.le_refl _⟩), hfloor, hx.bump, hx.closed,
    fun hopened => ?_, fun t ht => (hx.below t ht).same hsame (.inl ⟨Nat.le_refl _, Nat.le_refl _⟩),
    fun slot => (hx.locals slot).same hsame (.inl ⟨Nat.le_refl _, Nat.le_refl _⟩), fun t ht => ?_,
    fun s t hs ht hs' ht' => hx.apart s t ?_ ?_ hs' ht'⟩
  · obtain ⟨hcursor, -, hend⟩ := hx.built hopened
    have hresult : x.floor = x.resultPtr := if_pos hopened
    exact ⟨hcursor, hx.built_same hopened hsame (.inl (by omega)), hend⟩
  · rcases List.mem_cons.mp ht with heq | ht
    · cases heq
      exact ⟨⟨hlow, hhigh⟩, ⟨rfl, hholds⟩, .inr ⟨rfl, hcopy⟩⟩
    · obtain ⟨hsettled, happart⟩ := hx.under hne (hstack ▸ List.mem_cons_of_mem _ ht)
      have hstays := hsettled.same hsame (.inl ⟨Nat.le_refl _, Nat.le_refl _⟩)
      exact ⟨hstays.known, hstays.held, .inl ⟨hstays.under, happart⟩⟩
  · rcases hs with hs | hs
    · rcases List.mem_cons.mp hs with heq | hs
      · cases heq
        cases hs'
      · exact .inl (hstack ▸ List.mem_cons_of_mem _ hs)
    · exact .inr hs
  · rcases ht with ht | ht
    · rcases List.mem_cons.mp ht with heq | ht
      · cases heq
        cases ht'
      · exact .inl (hstack ▸ List.mem_cons_of_mem _ ht)
    · exact .inr ht

/-- An argument is appended. -/
lemma copy (hready : Ready k h m₀) (hlaid : Laid k.literals k.allocBase) (hx : x.Sound k h)
    {rest : List Piece} {stack : List Val} (hcode : x.code = .copy :: rest)
    (hstack : x.stack = .text t :: stack) (hclear : Clear h x) :
    Sound k h { x with
      code := rest, stack := stack
      memory := writeAll x.memory x.cursor (loadBytes x.memory t.ptr t.len)
      cursor := x.cursor + t.len, built := x.built ++ t.bytes } := by
  have hfits := hx.fits
  rw [hcode] at hfits
  obtain ⟨htemps, hgo⟩ := hfits.copy_inv
  obtain ⟨hopened, hone⟩ := opened_of_temps htemps
  have hnil : stack = [] := by
    rw [hstack, List.length_cons] at hone
    exact List.length_eq_zero_iff.mp (by omega)
  subst hnil
  have hheld := (hx.stack t (hstack ▸ List.mem_cons_self ..)).held
  rw [loadBytes_held hheld]
  have hwritten := hclear.fits
  rw [written, hcode, hstack] at hwritten
  have hsame := sameOutside_writeAll t.bytes x.memory x.cursor
  rw [hheld.1] at hsame
  obtain ⟨hcursor, hholds, hend⟩ := hx.built hopened
  have hfloor : x.floor = x.resultPtr := if_pos hopened
  have hplace : x.floor ≤ x.cursor ∧ x.cursor + t.len ≤ h.top := ⟨by omega, hwritten⟩
  have htempsNew : (if x.opened = true then some ([] : List Val).length else none) = some 0 :=
    if_pos hopened
  refine ⟨?_, hx.literals_same hlaid hsame (.inr hplace.1),
    hx.fields_same hready hsame (.inr hplace), hx.base, hx.bump, hx.closed,
    fun _ => ⟨?_, ?_, hwritten⟩,
    fun s hs => (hx.below s hs).same hsame (.inr hplace),
    fun slot => (hx.locals slot).same hsame (.inr hplace), fun s hs => (by cases hs),
    fun s u hs hu => hx.apart s u (hs.elim (fun hs => by cases hs) .inr)
      (hu.elim (fun hu => by cases hu) .inr)⟩
  · change Fits k.literals (if x.opened = true then some ([] : List Val).length else none) rest
    rw [htempsNew]
    exact hgo
  · rw [List.length_append, hheld.1, hcursor, Nat.add_assoc]
  · refine holds_append.mpr ⟨hholds.writeAll (.inl (by omega)), ?_⟩
    rw [← hcursor]
    exact holds_writeAll _ _ _

/-- A `concat` is complete. -/
lemma concatEnd (hlaid : literalBase ≤ k.allocBase) (hready : Ready k h m₀) (hx : x.Sound k h)
    {rest : List Piece} (hcode : x.code = .concatEnd :: rest) :
    Sound k h { x with
      code := rest
      stack := .text ⟨.allocated, x.resultPtr, x.cursor - x.resultPtr, x.built⟩ ::
        (x.stack ++ x.below)
      below := [], bump := x.cursor, opened := false } := by
  have hfits := hx.fits
  rw [hcode] at hfits
  obtain ⟨htemps, hgo⟩ := hfits.concatEnd_inv
  obtain ⟨hopened, hnone⟩ := opened_of_temps htemps
  have hnil : x.stack = [] := List.length_eq_zero_iff.mp hnone
  obtain ⟨hcursor, hholds, hend⟩ := hx.built hopened
  have hfloor : x.floor = x.resultPtr := if_pos hopened
  have hbase := hx.base
  have hbelow := hx.below
  have hlocals := hx.locals
  rw [hfloor] at hbase hbelow hlocals
  rw [literalBase] at hlaid
  have hle : x.resultPtr ≤ x.cursor := by omega
  have htop := hready.top
  have hapart : ∀ t : Text, t.Settled k h x.memory x.resultPtr →
      Apart x.resultPtr (x.cursor - x.resultPtr) t.ptr t.len := by
    intro t ht
    have hlimit := ht.under.limit
    rw [Apart, Separate]
    omega
  have hlive : ∀ t : Text, .text t ∈ x.below ∨ (∃ slot, x.locals slot = t) →
      t.Settled k h x.memory x.resultPtr := by
    rintro t (ht | ⟨slot, rfl⟩)
    · exact hbelow t ht
    · exact hlocals slot
  rw [hnil, List.nil_append]
  refine ⟨hgo, hx.literals, hx.fields, hbase.trans hle, ⟨Nat.le_refl _, hend⟩, fun _ => rfl,
    fun h => (by cases h), fun t ht => (by cases ht), fun slot => (hlocals slot).mono hle,
    fun t ht => ?_, fun s t hs ht hs' ht' => ?_⟩
  · rcases List.mem_cons.mp ht with heq | ht
    · cases heq
      refine ⟨hbase, ⟨?_, hholds⟩, .inl ⟨⟨.inr ?_, .inl ?_, ?_⟩, fun h => (by cases h)⟩⟩
      · change x.built.length = x.cursor - x.resultPtr
        omega
      · exact (by omega : 48 ≤ k.allocBase).trans hbase
      · change x.resultPtr + (x.cursor - x.resultPtr) ≤ x.cursor
        omega
      · change x.resultPtr + (x.cursor - x.resultPtr) ≤ h.size
        omega
    · have hsettled := (hbelow t ht).mono hle
      exact ⟨hsettled.known, hsettled.held, .inl ⟨hsettled.under, fun h => (by cases h)⟩⟩
  · have hcases : ∀ t, Live { x with
        code := rest
        stack := .text ⟨.allocated, x.resultPtr, x.cursor - x.resultPtr, x.built⟩ :: x.below
        below := [], bump := x.cursor, opened := false } t →
        t = ⟨.allocated, x.resultPtr, x.cursor - x.resultPtr, x.built⟩ ∨
          (.text t ∈ x.below ∨ ∃ slot, x.locals slot = t) := by
      rintro t (ht | ht | ht)
      · rcases List.mem_cons.mp ht with heq | ht
        · cases heq
          exact .inl rfl
        · exact .inr (.inl ht)
      · cases ht
      · exact .inr (.inr ht)
    rcases hcases s hs with rfl | hs <;> rcases hcases t ht with rfl | ht
    · exact .inl rfl
    · exact .inr (hapart t (hlive t ht))
    · exact .inr (hapart s (hlive s hs)).symm
    · exact hx.apart s t (.inr hs) (.inr ht) hs' ht'

/-- A text is escaped at the end of what is allocated. -/
lemma jsonEscape (hready : Ready k h m₀) (hlaid : Laid k.literals k.allocBase)
    (hlow : literalBase ≤ k.allocBase) (hx : x.Sound k h) {rest : List Piece} {stack : List Val}
    {ptr len bump : Nat} (hcode : x.code = .jsonEscape :: rest)
    (hstack : x.stack = .text t :: stack)
    (hcall : jsonEscapeHelper.Returns [.i32 t.ptr, .i32 t.len, .i32 x.bump] x.memory h.size
      [.i32 ptr, .i32 len, .i32 bump] m') (hclear : Clear h x) :
    Sound k h { x with
      code := rest, memory := m', bump := bump
      stack := .text ⟨.allocated, ptr, len, escapeOf t⟩ :: stack } := by
  have hne := ne_copy hcode fun heq => by cases heq
  have hmem : .text t ∈ x.stack := hstack ▸ List.mem_cons_self ..
  have hwritten : x.written = x.bump + (escapeOf t).length := by rw [written, hcode, hstack]
  have hend := hclear.fits
  have hescape : x.opened = true → x.cursor ≤ x.bump ∨ (escapeOf t).length = 0 := by
    intro hopened
    exact (hclear.escape hopened rest hcode).imp_right fun h => by omega
  rw [hwritten] at hend
  have htop := hready.top
  have hmemory := hready.memory
  have hbase := hx.base
  have hbump := hx.bump
  rw [literalBase] at hlow
  obtain ⟨hsettled, -⟩ := hx.under hne hmem
  have hsep : Separate t.ptr t.len x.bump (escapeOf t).length := by
    have hlimit := hsettled.under.limit
    rw [Separate]
    omega
  obtain ⟨rfl, rfl, rfl, hholds, hsame⟩ := escape_effect hmemory hsettled.held hsettled.under.size
    (by omega) (by omega) hsep hcall
  have hplace : x.floor ≤ x.bump ∧ x.bump + (escapeOf t).length ≤ h.top := ⟨hbump.1, hend⟩
  have hle : x.bump ≤ x.bump + (escapeOf t).length := Nat.le_add_right _ _
  have hfits := hx.fits
  rw [hcode, temps, hstack, List.length_cons] at hfits
  obtain ⟨s', hs', hgo⟩ := hfits.simple_inv (n := 1) rfl
  have hgoes : Fits k.literals (if x.opened = true then some (stack.length + 1) else none) rest := by
    rw [temps_shift hs' 1]
    exact hgo
  have hfloor : Machine.floor { x with
      code := rest, memory := m', bump := x.bump + (escapeOf t).length
      stack := .text ⟨.allocated, x.bump, (escapeOf t).length, escapeOf t⟩ :: stack } =
        if x.opened then x.resultPtr else x.bump + (escapeOf t).length := rfl
  have hfloorLe : x.floor ≤ if x.opened then x.resultPtr else x.bump + (escapeOf t).length := by
    rw [floor]
    split
    · exact Nat.le_refl _
    · exact hle
  have hfloorEnd : (if x.opened then x.resultPtr else x.bump + (escapeOf t).length) ≤
      x.bump + (escapeOf t).length := by
    have hresult := hbump.1
    rw [floor] at hresult
    split at hresult <;> rename_i hopened
    · rw [if_pos hopened]
      exact hresult.trans hle
    · rw [if_neg hopened]
  have hold : ∀ s : Text, .text s ∈ x.stack → s.Settled k h m' x.bump ∧
      (x.opened = true → Apart s.ptr s.len x.resultPtr (x.cursor - x.resultPtr)) := by
    intro s hs
    obtain ⟨hset, happart⟩ := hx.under hne hs
    exact ⟨hset.same hsame (.inr ⟨Nat.le_refl _, hend⟩), happart⟩
  have hapart : ∀ s : Text, x.Live s → Apart x.bump (escapeOf t).length s.ptr s.len := by
    intro s hs
    have hset : s.Settled k h x.memory x.bump := by
      rcases hs with hs | hs | ⟨slot, rfl⟩
      · exact (hx.under hne hs).1
      · exact (hx.below s hs).mono hbump.1
      · exact (hx.locals slot).mono hbump.1
    have hlimit := hset.under.limit
    rw [Apart, Separate]
    omega
  refine ⟨hgoes, hx.literals_same hlaid hsame (.inr hplace.1),
    hx.fields_same hready hsame (.inr hplace), ?_, ?_, hx.closed, fun hopened => ?_,
    fun s hs => ?_, fun slot => ?_, fun s hs => ?_, fun s u hs hu hs' hu' => ?_⟩
  · rw [hfloor]
    exact hbase.trans hfloorLe
  · rw [hfloor]
    exact ⟨hfloorEnd, hend⟩
  · obtain ⟨hcursor, hheld, hlimit⟩ := hx.built hopened
    refine ⟨hcursor, ?_, hlimit⟩
    rcases hescape hopened with hle' | hzero
    · exact hx.built_same hopened hsame (.inr hle')
    · refine hheld.congr fun z hz hz' => hsame z ?_
      omega
  · rw [hfloor]
    exact ((hx.below s hs).same hsame (.inr hplace)).mono hfloorLe
  · rw [hfloor]
    exact ((hx.locals slot).same hsame (.inr hplace)).mono hfloorLe
  · rcases List.mem_cons.mp hs with heq | hs
    · cases heq
      refine ⟨hbase.trans hbump.1, ⟨rfl, hholds⟩, .inl ⟨⟨.inr ?_, .inl (Nat.le_refl _), ?_⟩, ?_⟩⟩
      · exact (by omega : 48 ≤ x.bump)
      · exact hend.trans htop.2.1
      · intro hopened
        have hlimit := hescape hopened
        change Apart x.bump (escapeOf t).length x.resultPtr (x.cursor - x.resultPtr)
        have hcursor := (hx.built hopened).1
        rw [Apart, Separate]
        omega
    · obtain ⟨hset, happart⟩ := hold s (hstack ▸ List.mem_cons_of_mem _ hs)
      exact ⟨hset.known, hset.held, .inl ⟨hset.under.mono hle, happart⟩⟩
  · have hcases : ∀ s : Text, Live { x with
        code := rest, memory := m', bump := x.bump + (escapeOf t).length
        stack := .text ⟨.allocated, x.bump, (escapeOf t).length, escapeOf t⟩ :: stack } s →
        s = ⟨.allocated, x.bump, (escapeOf t).length, escapeOf t⟩ ∨ x.Live s := by
      rintro s (hs | hs)
      · rcases List.mem_cons.mp hs with heq | hs
        · cases heq
          exact .inl rfl
        · exact .inr (.inl (hstack ▸ List.mem_cons_of_mem _ hs))
      · exact .inr (.inr hs)
    rcases hcases s hs with rfl | hs <;> rcases hcases u hu with rfl | hu
    · exact .inl rfl
    · exact .inr (hapart u hu)
    · exact .inr (hapart s hs).symm
    · exact hx.apart s u hs hu hs' hu'

end Machine.Sound

/-- What one clear step keeps. -/
lemma Step.sound {m₀ : Nat → UInt8} (hready : Ready k h m₀) (hlaid : Laid k.literals k.allocBase)
    (hbase : literalBase ≤ k.allocBase) (hx : x.Sound k h) (hclear : Clear h x)
    (hstep : Step h x y) : y.Sound k h := by
  have hsettled : ∀ slot, (x.locals slot).Settled k h x.memory x.floor := hx.locals
  cases hstep with
  | number hcode n =>
      exact hx.simple hcode rfl (List.nil_append _).symm rfl fun t ht => (by cases ht)
  | @literal rest s o hcode =>
      have hfits := hx.fits
      rw [hcode] at hfits
      have hmem : (s, o) ∈ k.literals := hfits.literal_mem
      obtain ⟨hlow, hhigh⟩ := hlaid.place s o hmem
      have htop := hready.top
      have hfloor := hx.base
      rw [literalBase] at hlow
      refine hx.simple hcode (if_pos hmem) (List.nil_append _).symm rfl fun t ht => ?_
      cases ht
      refine ⟨⟨⟨s, hmem, rfl, rfl⟩, ⟨rfl, hx.literals s o hmem⟩, .inr ?_, .inl ?_, ?_⟩,
        fun h => by cases h⟩
      · exact (by omega : 48 ≤ o)
      · exact hhigh.trans hfloor
      · exact hhigh.trans (htop.1.trans htop.2.1)
  | @field rest name hcode =>
      refine hx.simple hcode rfl (List.nil_append _).symm rfl fun t ht => ?_
      cases ht
      obtain ⟨horigin, hset⟩ := hready.fields name
      exact ⟨⟨hset.known, hx.fields name, hset.under.mono hx.base⟩, fun h => by
        rw [horigin] at h
        cases h⟩
  | @localText rest slot hcode =>
      refine hx.simple hcode rfl (List.nil_append _).symm rfl fun t ht => ?_
      cases ht
      exact ⟨hx.locals slot, fun _ => .inr (.inr ⟨slot, rfl⟩)⟩
  | placeholder hcode =>
      refine hx.simple hcode rfl (List.nil_append _).symm rfl fun t ht => ?_
      cases ht
      exact ⟨emptyText_settled k h _ _, fun h => by cases h⟩
  | arith hcode ns hns hstack n =>
      exact hx.simple hcode rfl hstack (by rw [List.length_map, hns]) fun t ht => (by cases ht)
  | branch hcode hstack harm => exact hx.branch hcode hstack harm
  | concatStart hcode => exact hx.concatStart hcode hclear
  | itoa hcode hstack hcall => exact hx.itoa hready hlaid hbase hcode hstack hcall
  | copy hcode hstack hfit => exact hx.copy hready hlaid hcode hstack hclear
  | concatEnd hcode => exact hx.concatEnd hbase hready hcode
  | @length rest t stack hcode hstack n =>
      have htaken : x.stack = [Val.text t] ++ stack := hstack
      exact hx.simple hcode rfl htaken rfl fun t ht => (by cases ht)
  | @parseInt rest t stack hcode hstack n =>
      have htaken : x.stack = [Val.text t] ++ stack := hstack
      exact hx.simple hcode rfl htaken rfl fun t ht => (by cases ht)
  | jsonEscape hcode hstack hcall =>
      exact hx.jsonEscape hready hlaid hbase hcode hstack hcall hclear
  | @test rest s t stack hcode hstack n =>
      have htaken : x.stack = [Val.text s, .text t] ++ stack := hstack
      exact hx.simple hcode rfl htaken rfl fun t ht => (by cases ht)
  | @store rest slot t stack hcode hstack =>
      have hfits := hx.fits
      rw [hcode] at hfits
      obtain ⟨htemps, hgo⟩ := hfits.store_inv
      refine hx.store hcode (fun heq => by cases heq) htemps hgo hstack fun slot' => ?_
      by_cases heq : slot' = slot
      · subst heq
        exact .inr (by rw [Function.update_self])
      · exact .inl (Function.update_of_ne heq _ _)
  | storeNumber hcode hstack =>
      have hfits := hx.fits
      rw [hcode] at hfits
      obtain ⟨htemps, hgo⟩ := hfits.storeNumber_inv
      exact hx.store hcode (fun heq => by cases heq) htemps hgo hstack fun slot => .inl rfl

/-- The start of a call. -/
lemma start_sound {fuel : Nat} {p : Program} {name : String} {m₀ : Nat → UInt8}
    (hcompile : compileWasm fuel p name = some k) (hready : Ready k h m₀) :
    (start k m₀).Sound k h := by
  refine ⟨compileWasm_fits hcompile, hready.literals, fun name => (hready.fields name).2.held,
    Nat.le_refl _, ⟨Nat.le_refl _, hready.top.1⟩, fun _ => rfl, fun h => (by cases h),
    fun t ht => (by cases ht), fun slot => emptyText_settled k h _ _, fun t ht => (by cases ht),
    fun s t hs ht hs' ht' => ?_⟩
  rcases hs with hs | hs | ⟨slot, rfl⟩
  · cases hs
  · cases hs
  · cases hs'

/-- The regions are as they should be in every state that clear steps reach. -/
lemma reachable_sound {fuel : Nat} {p : Program} {name : String} {m₀ : Nat → UInt8}
    (hcompile : compileWasm fuel p name = some k) (hready : Ready k h m₀)
    (hx : (clearCall k h m₀).Reachable x) : x.Sound k h := by
  obtain ⟨hlaid, hbase⟩ := compileWasm_laid hcompile
  refine System.Reachable.invariant (s := clearCall k h m₀) (I := fun y => y.Sound k h)
    (fun y hy => ?_)
    (fun y z _ hy hstep => hstep.2.sound hready hlaid hbase hy hstep.1) hx
  rw [show y = start k m₀ from hy]
  exact start_sound hcompile hready

/-! ## Texts -/

namespace Machine.Sound

lemma live_known (hx : x.Sound k h) (ht : x.Live t) : t.Known k ∧ t.Held x.memory := by
  rcases ht with ht | ht | ⟨slot, rfl⟩
  · exact ⟨(hx.stack t ht).known, (hx.stack t ht).held⟩
  · exact ⟨(hx.below t ht).known, (hx.below t ht).held⟩
  · exact ⟨(hx.locals slot).known, (hx.locals slot).held⟩

lemma rendered_place (hx : x.Sound k h) (ht : x.Live t) (horigin : t.origin = .rendered) :
    16 ≤ t.ptr ∧ t.ptr + t.len ≤ 48 := by
  have hknown := (hx.live_known ht).1
  rw [Text.Known, horigin] at hknown
  exact hknown

lemma allocated_place (hx : x.Sound k h) (ht : x.Live t) (horigin : t.origin = .allocated) :
    k.allocBase ≤ t.ptr := by
  have hknown := (hx.live_known ht).1
  rw [Text.Known, horigin] at hknown
  exact hknown

lemma literal_known (hx : x.Sound k h) (ht : x.Live t) (horigin : t.origin = .literal) :
    ∃ s, (s, t.ptr) ∈ k.literals ∧ t.bytes = utf8Bytes s ∧ t.len = (utf8Bytes s).length := by
  have hknown := (hx.live_known ht).1
  rw [Text.Known, horigin] at hknown
  exact hknown

lemma literal_place (hlaid : Laid k.literals k.allocBase) (hx : x.Sound k h) (ht : x.Live t)
    (horigin : t.origin = .literal) : 1024 ≤ t.ptr ∧ t.ptr + t.len ≤ k.allocBase := by
  obtain ⟨s, hmem, -, hlen⟩ := hx.literal_known ht horigin
  rw [hlen]
  exact hlaid.place s t.ptr hmem

/-- There is one place for digits. -/
lemma rendered_unique {s : Text} (hx : x.Sound k h) (hs : x.Live s) (ht : x.Live t)
    (horigin : s.origin = .rendered) (horigin' : t.origin = .rendered) :
    s = t ∨ Apart s.ptr s.len t.ptr t.len := by
  have hempty : ∀ u : Text, u.Known k → u.origin = .rendered → ∀ limit, u.Under h limit →
      u.len = 0 := by
    intro u hknown hu limit hunder
    rw [Text.Known, hu] at hknown
    have hknown' : 16 ≤ u.ptr ∧ u.ptr + u.len ≤ 48 := hknown
    have hdigits := hunder.digits
    omega
  have hstack : ∀ u : Text, x.Live u → u.origin = .rendered →
      u.len = 0 ∨ .text u ∈ x.stack ∧ ∃ rest, x.code = .copy :: rest := by
    rintro u (hu | hu | ⟨slot, rfl⟩) hrendered
    · obtain ⟨hknown, -, hplace | ⟨-, hcode⟩⟩ := hx.stack u hu
      · exact .inl (hempty u hknown hrendered _ hplace.1)
      · exact .inr ⟨hu, hcode⟩
    · exact .inl (hempty u (hx.below u hu).known hrendered _ (hx.below u hu).under)
    · exact .inl (hempty _ (hx.locals slot).known hrendered _ (hx.locals slot).under)
  rcases hstack s hs horigin with hzero | ⟨hs, rest, hcode⟩
  · exact .inr (.inl hzero)
  rcases hstack t ht horigin' with hzero | ⟨ht, -⟩
  · exact .inr (.inr (.inl hzero))
  have hfits := hx.fits
  rw [hcode] at hfits
  obtain ⟨v, hv⟩ := List.length_eq_one_iff.mp (opened_of_temps hfits.copy_inv.1).2
  rw [hv] at hs ht
  have hsame := (List.mem_singleton.mp hs).trans (List.mem_singleton.mp ht).symm
  exact .inl (Val.text.inj hsame)

/-- Two values of the call are the same one or lie apart. -/
lemma live_apart {s : Text} (hlaid : Laid k.literals k.allocBase) (hlow : literalBase ≤ k.allocBase)
    (hx : x.Sound k h) (hs : x.Live s) (ht : x.Live t) (hinput : s.origin ≠ .input)
    (hinput' : t.origin ≠ .input) : s = t ∨ Apart s.ptr s.len t.ptr t.len := by
  rw [literalBase] at hlow
  cases hso : s.origin with
  | input => exact absurd hso hinput
  | literal =>
      cases hto : t.origin with
      | input => exact absurd hto hinput'
      | literal =>
          obtain ⟨lit, hmem, hbytes, hlen⟩ := hx.literal_known hs hso
          obtain ⟨lit', hmem', hbytes', hlen'⟩ := hx.literal_known ht hto
          rcases hlaid.apart lit s.ptr lit' t.ptr hmem hmem' with heq | hsep
          · obtain ⟨hlit, hptr⟩ := Prod.mk.inj heq
            subst hlit
            exact .inl (Text.ext (hso.trans hto.symm) hptr (hlen.trans hlen'.symm)
              (hbytes.trans hbytes'.symm))
          · rw [← hlen, ← hlen'] at hsep
            exact .inr (.inr (.inr hsep))
      | rendered => exact .inr (.inr (.inr (.inr (by
          have := hx.literal_place hlaid hs hso
          have := hx.rendered_place ht hto
          omega))))
      | allocated => exact .inr (.inr (.inr (.inl (by
          have := hx.literal_place hlaid hs hso
          have := hx.allocated_place ht hto
          omega))))
  | rendered =>
      cases hto : t.origin with
      | input => exact absurd hto hinput'
      | literal => exact .inr (.inr (.inr (.inl (by
          have := hx.rendered_place hs hso
          have := hx.literal_place hlaid ht hto
          omega))))
      | rendered => exact hx.rendered_unique hs ht hso hto
      | allocated => exact .inr (.inr (.inr (.inl (by
          have := hx.rendered_place hs hso
          have := hx.allocated_place ht hto
          omega))))
  | allocated =>
      cases hto : t.origin with
      | input => exact absurd hto hinput'
      | literal => exact .inr (.inr (.inr (.inr (by
          have := hx.literal_place hlaid ht hto
          have := hx.allocated_place hs hso
          omega))))
      | rendered => exact .inr (.inr (.inr (.inr (by
          have := hx.rendered_place ht hto
          have := hx.allocated_place hs hso
          omega))))
      | allocated => exact hx.apart s t hs ht hso hto

/-- Sound regions keep the texts. -/
lemma intact (hlaid : Laid k.literals k.allocBase) (hlow : literalBase ≤ k.allocBase)
    (hx : x.Sound k h) : Intact k x := by
  have hbase := hx.base
  have hlow' := hlow
  rw [literalBase] at hlow'
  refine ⟨fun t ht => (hx.live_known ht).2, fun hopened => ?_,
    fun s t hs ht hs' ht' => hx.live_apart hlaid hlow hs ht hs' ht', fun hopened => ?_,
    fun s o hmem => ?_, fun t ht => ⟨hx.rendered_place ht, fun horigin => ?_⟩⟩
  · exact ⟨(hx.built hopened).1, (hx.built hopened).2.1⟩
  · have hfloor : x.floor = x.resultPtr := if_pos hopened
    refine ⟨by omega, ?_⟩
    rintro t (ht | ht | ⟨slot, rfl⟩)
    · obtain ⟨hknown, -, hplace | ⟨horigin, -⟩⟩ := hx.stack t ht
      · exact hplace.2 hopened
      · have hplace := hx.rendered_place (.inl ht) horigin
        exact .inr (.inr (.inl (by omega)))
    · exact hx.building hopened (hx.below t ht)
    · exact hx.building hopened (hx.locals slot)
  · obtain ⟨hfirst, hlast⟩ := hlaid.place s o hmem
    rw [literalBase] at hfirst
    refine ⟨hx.literals s o hmem, by omega, fun hopened => ?_, fun t ht horigin => ?_⟩
    · have hfloor : x.floor = x.resultPtr := if_pos hopened
      omega
    · exact hlast.trans (hx.allocated_place ht horigin)
  · rcases horigin with horigin | horigin
    · have hplace := hx.literal_place hlaid ht horigin
      omega
    · exact (by omega : 48 ≤ k.allocBase).trans (hx.allocated_place ht horigin)

end Machine.Sound

end sound

/-- Runs of clear steps are runs. -/
lemma unclear {k : Compiled} {h : Host} {m : Nat → UInt8} {x : Machine}
    (hx : (clearCall k h m).Reachable x) : (call k h m).Reachable x := by
  refine System.Reachable.invariant (s := clearCall k h m)
    (I := fun y => (call k h m).Reachable y) (fun y hy => ?_) (fun y z _ hy hstep => ?_) hx
  · exact .init hy
  · exact hy.step hstep.2

/-! ## An escape behind a literal -/

/-- The value of the rule is `concat("ab", json_escape(r.x))`. -/
def sampleProgram : Program where
  items :=
    [.concept { name := "R", fields := [{ name := "x", ty := .text }] },
      .rule {
        name := "f", inputName := "r", inputTy := .named "R", outputName := "y", outputTy := .text
        logic := { value := .concat [.text "ab", .jsonEscape (.field (.ident "r") "x")] } }]

/-- Its code. -/
def sampleCompiled : Compiled where
  code := [.concatStart, .literal "ab" 1024, .copy, .field "x", .jsonEscape, .copy, .concatEnd]
  literals := [("ab", 1024)]
  allocBase := 1040

/-- The literal, and the text `cd` of the host. -/
def sampleMemory : Nat → UInt8 := writeAll (writeAll (fun _ => 0) 1024 [97, 98]) 2000 [99, 100]

/-- The host, with its text at 2000. -/
def sampleHost : Host where
  fields _ := ⟨.input, 2000, 2, [99, 100]⟩
  size := 65536
  top := 2000

/-- The literal is copied. -/
def sampleCopied : Machine where
  code := [.field "x", .jsonEscape, .copy, .concatEnd]
  stack := []
  below := []
  locals _ := emptyText
  memory := writeAll sampleMemory 1040 (loadBytes sampleMemory 1024 2)
  bump := 1040
  cursor := 1042
  resultPtr := 1040
  opened := true
  built := [97, 98]

/-- The `concat` is under construction. -/
def sampleOpened : Machine :=
  { sampleCopied with
    code := .literal "ab" 1024 :: .copy :: sampleCopied.code
    memory := sampleMemory, cursor := 1040, built := [] }

/-- The literal is on the stack. -/
def sampleLiteral : Machine :=
  { sampleOpened with
    code := .copy :: sampleCopied.code, stack := [.text ⟨.literal, 1024, 2, [97, 98]⟩] }

lemma sampleCompiles : compileWasm 3 sampleProgram "f" = some sampleCompiled := rfl

lemma sampleReady : Ready sampleCompiled sampleHost sampleMemory := by
  refine ⟨by decide, ⟨by decide, by decide, by decide⟩, fun s o hmem => ?_, fun name => ?_⟩
  · cases List.mem_singleton.mp hmem
    exact (holds_writeAll [97, 98] _ _).writeAll (.inl (by decide))
  · refine ⟨rfl, trivial, ⟨rfl, holds_writeAll _ _ _⟩, ?_⟩
    exact ⟨.inr (show 48 ≤ 2000 by decide), .inr (show 2000 ≤ 2000 by decide),
      show 2000 + 2 ≤ 65536 by decide⟩

/-- Three clear steps. -/
lemma sampleCopied_reachable :
    (clearCall sampleCompiled sampleHost sampleMemory).Reachable sampleCopied := by
  have hstart := System.Reachable.init (s := clearCall sampleCompiled sampleHost sampleMemory)
    (x := start sampleCompiled sampleMemory) rfl
  have hopen : (clearCall sampleCompiled sampleHost sampleMemory).Reachable sampleOpened :=
    hstart.step ⟨⟨Nat.zero_le _, fun h => (by cases h), fun h => (by cases h)⟩, Step.concatStart rfl⟩
  have hpush : Step sampleHost sampleOpened sampleLiteral := by
    have hliteral := Step.literal (h := sampleHost) (x := sampleOpened) (s := "ab") rfl
    exact hliteral
  have hcopy : Step sampleHost sampleLiteral sampleCopied :=
    Step.copy (x := sampleLiteral) (t := ⟨.literal, 1024, 2, [97, 98]⟩) rfl rfl
      (show 1040 + 2 ≤ 65536 by decide)
  have hliteral := hopen.step ⟨⟨Nat.zero_le _, fun _ rest h => (by cases h),
    fun _ rest h => (by cases h)⟩, hpush⟩
  exact hliteral.step ⟨⟨show 1042 ≤ 2000 by decide, fun _ rest h => (by cases h),
    fun _ rest h => (by cases h)⟩, hcopy⟩

end Verbosec.Wasm.Emit
