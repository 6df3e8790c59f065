import Verbosec.Http.Rows

/-!
# The states of the framing machine

* `Phase` - the states by name, `Phase.encode` their numbers in the table.
* `Phase.next` - the transitions by cases, with the action on the byte.
* `Phase.edges` - the transitions by classes of bytes, the rows of the table.
* `entry_encode` - the table is these transitions.
-/

namespace Verbosec.Http

/-! ## States -/

/-- The states of the machine. -/
inductive Phase where
  /-- after `k` bytes of the method -/
  | method (k : Nat)
  | targetStart
  | target
  /-- after `k` bytes of the version prefix -/
  | version (k : Nat)
  | versionCr
  | versionLf
  | headers
  | endLf
  | genericName
  /-- after `k` bytes of a recognised header name -/
  | name (w : HeaderName) (k : Nat)
  | value
  | valueLf
  | leading
  | digits
  | trailing
  | done
  deriving DecidableEq, Repr

/-- What a transition does with its byte. -/
inductive Action where
  | none | digit | length | target
  deriving DecidableEq, Repr

/-- The bit of an action. -/
def Action.flag : Action → Nat
  | none => 0
  | digit => digitFlag
  | length => lengthFlag
  | target => targetFlag

namespace Phase

/-- The number of a state. -/
def encode : Phase → Nat
  | done => 1
  | method 0 => 2
  | headers => 3
  | endLf => 4
  | genericName => 5
  | value => 6
  | valueLf => 7
  | leading => 8
  | digits => 9
  | trailing => 10
  | name .contentLength k => 10 + k
  | name .transferEncoding k => 24 + k
  | name .expect k => 41 + k
  | targetStart => 48
  | target => 49
  | version k => 50 + k
  | versionCr => 58
  | versionLf => 59
  | method (k + 1) => 60 + k

/-- All states, in the order of their numbers. -/
def all : List Phase :=
  [done, method 0, headers, endLf, genericName, value, valueLf, leading, digits, trailing] ++
  ([HeaderName.contentLength, .transferEncoding, .expect].flatMap fun w =>
    (List.range w.bytes.length).map fun k => name w (k + 1)) ++
  [targetStart, target] ++ (List.range 8).map version ++ [versionCr, versionLf] ++
  (List.range 8).map fun k => method (k + 1)

/-- The counters of a state are in range. -/
def Valid : Phase → Prop
  | method k => k ≤ 8
  | version k => k ≤ versionPrefix.length
  | name w k => 0 < k ∧ k ≤ w.bytes.length
  | _ => True

/-- After the colon of a recognised header name. -/
def afterName : HeaderName → Option (Phase × Action)
  | .contentLength => some (leading, .length)
  | .transferEncoding | .expect => none

/-- A byte of a header name that is recognised up to `k` bytes. -/
def nextName (w : HeaderName) (k : Nat) (b : UInt8) : Option (Phase × Action) :=
  if b = 58 then if k = w.bytes.length then afterName w else some (value, .none)
  else if w.bytes[k]? = some (lower b) then some (name w (k + 1), .none)
  else if token b then some (genericName, .none)
  else none

/-- The first byte of a header line. -/
def nextHeader (b : UInt8) : Option (Phase × Action) :=
  if b = 13 then some (endLf, .none)
  else if lower b = 99 then some (name .contentLength 1, .none)
  else if lower b = 116 then some (name .transferEncoding 1, .none)
  else if lower b = 101 then some (name .expect 1, .none)
  else if token b then some (genericName, .none)
  else none

/-- The transitions of the machine; `none` rejects. -/
def next : Phase → UInt8 → Option (Phase × Action)
  | method k, b =>
      if b = 32 ∧ 0 < k then some (targetStart, .none)
      else if token b ∧ k < 8 then some (method (k + 1), .none)
      else none
  | targetStart, b => if b = 47 then some (target, .target) else none
  | target, b =>
      if b = 32 then some (version 0, .none)
      else if targetByte b then some (target, .target)
      else none
  | version k, b =>
      if versionPrefix[k]? = some b then some (version (k + 1), .none)
      else if k = versionPrefix.length ∧ (b = 48 ∨ b = 49) then some (versionCr, .none)
      else none
  | versionCr, b => if b = 13 then some (versionLf, .none) else none
  | versionLf, b => if b = 10 then some (headers, .none) else none
  | headers, b => nextHeader b
  | endLf, b => if b = 10 then some (done, .none) else none
  | genericName, b =>
      if b = 58 then some (value, .none)
      else if token b then some (genericName, .none)
      else none
  | name w k, b => nextName w k b
  | value, b =>
      if b = 13 then some (valueLf, .none)
      else if fieldByte b then some (value, .none)
      else none
  | valueLf, b => if b = 10 then some (headers, .none) else none
  | leading, b =>
      if b = 32 ∨ b = 9 then some (leading, .none)
      else if digitByte b then some (digits, .digit)
      else none
  | digits, b =>
      if b = 13 then some (valueLf, .none)
      else if b = 32 ∨ b = 9 then some (trailing, .none)
      else if digitByte b then some (digits, .digit)
      else none
  | trailing, b =>
      if b = 13 then some (valueLf, .none)
      else if b = 32 ∨ b = 9 then some (trailing, .none)
      else none
  | done, _ => none

/-- The entry of a transition. -/
def code : Option (Phase × Action) → Nat
  | none => 0
  | some (p, a) => p.encode ||| a.flag

end Phase

/-! ## The rows of the states -/

namespace Phase

/-- The transitions of a state by classes, the last one first. -/
def edges : Phase → Edges
  | method 0 => [(.token, encode (method 1))]
  | method k =>
      if k < 8 then [(.token, encode (method (k + 1))), (.byte 32, encode targetStart)]
      else [(.byte 32, encode targetStart)]
  | targetStart => [(.byte 47, encode target ||| targetFlag)]
  | target => [(.byte 32, encode (version 0)), (.target, encode target ||| targetFlag)]
  | version k =>
      match versionPrefix[k]? with
      | some b => [(.byte b, encode (version (k + 1)))]
      | none => [(.byte 49, encode versionCr), (.byte 48, encode versionCr)]
  | versionCr => [(.byte 13, encode versionLf)]
  | versionLf => [(.byte 10, encode headers)]
  | headers =>
      ([HeaderName.expect, .transferEncoding, .contentLength].flatMap fun w =>
        let b := w.bytes.headD 0
        [(.byte (upper b), encode (name w 1)), (.byte b, encode (name w 1))]) ++
      [(.token, encode genericName), (.byte 13, encode endLf)]
  | endLf => [(.byte 10, encode done)]
  | genericName => [(.byte 58, encode value), (.token, encode genericName)]
  | name w k =>
      (match w.bytes[k]? with
        | some b =>
            [(.byte (upper b), encode (name w (k + 1))), (.byte b, encode (name w (k + 1)))]
        | none => [(.byte 58, code (afterName w))]) ++
      [(.byte 58, encode value), (.token, encode genericName)]
  | value => [(.byte 13, encode valueLf), (.field, encode value)]
  | valueLf => [(.byte 10, encode headers)]
  | leading =>
      [(.digit, encode digits ||| digitFlag), (.byte 9, encode leading), (.byte 32, encode leading)]
  | digits =>
      [(.byte 13, encode valueLf), (.byte 9, encode trailing), (.byte 32, encode trailing),
        (.digit, encode digits ||| digitFlag)]
  | trailing =>
      [(.byte 13, encode valueLf), (.byte 9, encode trailing), (.byte 32, encode trailing)]
  | done => []

end Phase

/-- The numbers of the states are their positions. -/
lemma encode_all : Phase.all.map Phase.encode = (List.range 67).map (· + 1) := by decide +kernel

/-- The construction by classes gives the rows of the states, after one for the number of
rejection. -/
lemma rows_eq :
    Rows.build.run (List.replicate 3 []) = some ((), [] :: Phase.all.map Phase.edges) := by
  decide +kernel

lemma Phase.Valid.mem_all {p : Phase} (hp : p.Valid) : p ∈ Phase.all := by
  cases p with
  | method k =>
      cases k with
      | zero => simp [Phase.all]
      | succ k =>
          have hk : k < 8 := hp
          simp [Phase.all, hk]
  | version k =>
      have hk : k < 8 := Nat.lt_succ_of_le hp
      simp [Phase.all, hk]
  | name w k =>
      obtain ⟨j, rfl⟩ := Nat.exists_eq_add_of_lt hp.1
      have hj : j < w.bytes.length := by
        have := hp.2
        omega
      cases w <;> simpa [Phase.all] using hj
  | _ => simp [Phase.all]

/-- A letter in either case. -/
lemma lower_eq_iff {b c : UInt8} (hc : lower c = c) : lower b = c ↔ b = c ∨ b = upper c := by
  have hb := b.toNat_lt
  have hsub : 32 ≤ c.toNat → (c - 32).toNat = c.toNat - 32 := fun h =>
    UInt8.toNat_sub_of_le _ _ (UInt8.le_iff_toNat_le.mpr h)
  simp only [lower, upper, UInt8.le_iff_toNat_le, Bool.and_eq_true, decide_eq_true_eq,
    UInt8.reduceToNat] at hc ⊢
  split_ifs at hc ⊢ <;>
    simp only [← UInt8.toNat_inj, UInt8.toNat_add, UInt8.reduceToNat] at hc ⊢ <;>
    omega

/-- The letters of a header name are in lower case. -/
lemma lower_bytes (w : HeaderName) : ∀ c ∈ w.bytes, lower c = c ∧ c ≠ 58 ∧ upper c ≠ 58 := by
  cases w <;> decide +kernel

@[simp] lemma Phase.code_none : Phase.code none = 0 := rfl

@[simp] lemma Phase.code_some (p : Phase) (a : Action) :
    Phase.code (some (p, a)) = p.encode ||| a.flag := rfl

@[simp] lemma Action.flag_none : Action.none.flag = 0 := rfl

/-- The first byte of a header line by classes. -/
lemma Phase.headers_entry (b : UInt8) : headers.edges.entry b = Phase.code (headers.next b) := by
  have hrow : edges headers = [(.byte 69, 42), (.byte 101, 42), (.byte 84, 25), (.byte 116, 25),
      (.byte 67, 11), (.byte 99, 11), (.token, 5), (.byte 13, 4)] := by decide
  have hlower : ∀ c : UInt8, lower c = c → (lower b = c ↔ b = c ∨ b = upper c) := fun c hc =>
    lower_eq_iff hc
  by_cases hb : b = 69 ∨ b = 101 ∨ b = 84 ∨ b = 116 ∨ b = 67 ∨ b = 99 ∨ b = 13
  · rcases hb with rfl | rfl | rfl | rfl | rfl | rfl | rfl <;> decide
  · simp only [not_or] at hb
    obtain ⟨h69, h101, h84, h116, h67, h99, h13⟩ := hb
    rw [hrow]
    simp only [next, nextHeader, hlower 99 rfl, hlower 116 rfl, hlower 101 rfl,
      Edges.entry_cons, Edges.entry_nil, Class.test, show upper 99 = 67 from rfl,
      show upper 116 = 84 from rfl, show upper 101 = 69 from rfl, h69, h101, h84, h116, h67, h99,
      h13, decide_false, Bool.false_eq_true, if_false, or_self]
    split_ifs <;> rfl

/-- The transitions by classes are those by cases. -/
lemma Phase.entry_edges {p : Phase} (hp : p.Valid) (b : UInt8) :
    p.edges.entry b = Phase.code (p.next b) := by
  cases p with
  | method k =>
      have hspace : b = 32 → token b = false := by rintro rfl; rfl
      cases k with
      | zero => simp only [edges, next, Edges.entry_cons, Class.test]; split_ifs <;> simp_all
      | succ k =>
          simp only [edges, next]
          split_ifs <;> simp_all [Class.test]
  | version k =>
      cases hc : versionPrefix[k]? with
      | some c =>
          have hlt := (List.getElem?_eq_some_iff.mp hc).1
          simp only [edges, next, hc, Option.some.injEq, hlt.ne, false_and, if_false,
            eq_comm (a := c)]
          split_ifs <;> simp_all [Class.test]
      | none =>
          have hk : k = versionPrefix.length :=
            Nat.le_antisymm hp (List.getElem?_eq_none_iff.mp hc)
          simp only [edges, next, hk, true_and]
          split_ifs <;> simp_all [Class.test]; grind
  | headers => exact headers_entry b
  | name w k =>
      simp only [edges, next, nextName]
      cases hc : w.bytes[k]? with
      | some c =>
          obtain ⟨hlt, rfl⟩ := List.getElem?_eq_some_iff.mp hc
          obtain ⟨hlower, h58, hupper⟩ := lower_bytes w _ (List.getElem_mem hlt)
          simp only [Option.some.injEq, eq_comm (b := lower b), lower_eq_iff hlower, hlt.ne,
            if_false]
          split_ifs <;> simp_all [Class.test] <;> grind
      | none =>
          have hk : k = w.bytes.length := Nat.le_antisymm hp.2 (List.getElem?_eq_none_iff.mp hc)
          simp only [hk, if_true, reduceCtorEq, if_false]
          split_ifs <;> simp_all [Class.test]
  | leading | digits | trailing =>
      have hdigit : b = 32 ∨ b = 9 → digitByte b = false := by rintro (rfl | rfl) <;> rfl
      simp only [edges, next, Edges.entry_cons, Class.test]
      split_ifs <;> simp_all [Action.flag]
  | done => rfl
  | _ =>
      simp only [edges, next]
      split_ifs <;> simp_all [Class.test, Action.flag]

/-- **The table is the transitions by name.** -/
theorem entry_encode {p : Phase} (hp : p.Valid) (b : UInt8) :
    table.entry p.encode b = Phase.code (p.next b) := by
  have hshows : Shows table ([] :: Phase.all.map Phase.edges) := by
    refine (sim_build.run ⟨⟨rfl, fun row hrow => ?_⟩, fun b s => ?_⟩ rows_eq).2
    · rw [List.eq_of_mem_replicate hrow, List.length_replicate]
    · rw [Table.entry_eq, Rows.entry_eq, List.getElem?_replicate, List.getElem?_replicate]
      split
      · exact getD_replicate_zero 256 _
      · rfl
  obtain ⟨i, hi⟩ := List.getElem?_of_mem hp.mem_all
  have hcode : p.encode = i + 1 := by
    have h : (Phase.all.map Phase.encode)[i]? = some p.encode := by simp [hi]
    rw [encode_all, List.getElem?_map, Option.map_eq_some_iff] at h
    obtain ⟨j, hj, hcode⟩ := h
    obtain ⟨_, rfl⟩ := List.getElem?_eq_some_iff.mp hj
    simpa using hcode.symm
  rw [hshows.column b p.encode, Rows.entry_eq, hcode, List.getElem?_cons_succ,
    List.getElem?_map, hi]
  exact Phase.entry_edges hp b

/-- Transitions keep the counters in range. -/
lemma Phase.Valid.next {p q : Phase} {a : Action} (hp : p.Valid) {b : UInt8}
    (h : p.next b = some (q, a)) : q.Valid := by
  cases p with
  | method k => grind [Phase.next, Phase.Valid]
  | version k => grind [Phase.next, Phase.Valid]
  | name w k => cases w <;> grind [Phase.next, Phase.nextName, Phase.afterName, Phase.Valid]
  | headers =>
      have hpos : ∀ w : HeaderName, 0 < w.bytes.length := by intro w; cases w <;> decide
      grind [Phase.next, Phase.nextHeader, Phase.Valid]
  | _ => grind [Phase.next, Phase.Valid]

end Verbosec.Http
