import Verbosec.Native.ClientAbort
import Mathlib.Data.List.Nodup
import Mathlib.Data.List.Perm.Basic

/-!
# A failed check closes one connection

* `Scoped` - the discipline of the code: which descriptors are held before each piece of it, and that
  a failed check goes where those are closed.
* `compile_sound` - what is emitted obeys it.
* `Inv`, `inv_step` - the descriptors, `rsp` and the state of a running process.
* `client_loses_connection` - every run in which a check fails only while no assignment of its
  request has changed a field.
-/

namespace Verbosec.Native.ClientAbort

open Verbosec.Lib

/-! ## The discipline of the code -/

/-- What is held before a piece of code. -/
structure Live where
  /-- the descriptor of the connection -/
  client : Bool
  /-- a descriptor in `r15` -/
  r15 : Bool
  /-- is `rsp` where it stands at `accept_top`? -/
  clean : Bool

/-- Every piece of the code runs where its descriptors are held, and the jumps of its checks go where
they are closed. -/
def Scoped (p : Program) : Live → List Instr → Prop
  | _, [] => True
  | l, .accept :: c =>
    l.client = false ∧ l.r15 = false ∧ l.clean = true ∧ Scoped p { l with client := true } c
  | l, .receive :: c => l.client = true ∧ l.r15 = false ∧ Scoped p l c
  | l, .call :: c => Scoped p l c
  | l, .openR15 _ :: c => l.r15 = false ∧ Scoped p { l with r15 := true } c
  | l, .io _ :: c => Scoped p l c
  | l, .closeR15 :: c => l.r15 = true ∧ Scoped p { l with r15 := false } c
  | l, .eval sites _ :: c =>
    l.client = true ∧
      (∀ site ∈ sites, p.target site = some (if l.r15 then .closeR15 else .close)) ∧
      Scoped p { l with clean := false } c
  | l, .respond :: c => l.client = true ∧ l.r15 = false ∧ Scoped p l c
  | l, .store _ :: c => Scoped p l c
  | l, .closeClient :: c =>
    l.client = true ∧ l.r15 = false ∧ Scoped p { l with client := false } c
  | l, .resetRsp :: c => Scoped p { l with clean := true } c
  | l, .jump .acceptTop :: _ => l.client = false ∧ l.r15 = false ∧ l.clean = true
  | l, .jump .close :: _ => l.client = true ∧ l.r15 = false
  | _, .jump _ :: _ => False
  | _, .exit _ :: _ => True

/-- The code after a failed check. -/
def returning : List (List Instr) :=
  [[.closeR15, .jump .close], [.jump .close], [.closeClient, .resetRsp, .jump .acceptTop],
    [.resetRsp, .jump .acceptTop], [.jump .acceptTop]]

/-- A program whose code obeys the discipline. -/
structure Program.Sound (p : Program) : Prop where
  main : Scoped p ⟨false, false, true⟩ p.main
  accept : ∃ c, p.main = .accept :: c
  close : p.close = [.closeClient, .resetRsp, .jump .acceptTop]
  stub : ∀ site, p.target site = some .closeR15 → p.stub = [.closeR15, .jump .close]

section invariant

variable {p : Program} {α : Type} {start : Machine α}

/-- The descriptors that are held for the request. -/
def held (l : Live) (m : Machine α) : List Nat :=
  (if l.r15 then m.r15.toList else []) ++ if l.client then m.client.toList else []

/-- What holds of a running process. -/
structure Inv (p : Program) (start m : Machine α) (l : Live) : Prop where
  code : Scoped p l m.rest
  fds : m.fds.Perm (held l m ++ start.fds)
  nodup : m.fds.Nodup
  clean : l.clean = true → m.rsp = 0
  listener : m.listener = start.listener
  stray : m.stray = []
  running : m.rest ≠ [] → m.exited = none
  kept : m.failed = true → m.stored = false
  same : m.stored = false → m.state = m.stateBefore
  back : m.failed = true → m.rest = p.main ∨ m.rest ∈ returning

/-- The code of a piece that is not on the way back runs while no check has failed. -/
lemma Inv.not_failed {m : Machine α} {l : Live} (h : Inv p start m l) (hp : p.Sound) {i : Instr}
    {c : List Instr} (hrest : m.rest = i :: c)
    (hi : i ≠ .accept ∧ i ≠ .closeR15 ∧ i ≠ .closeClient ∧ i ≠ .resetRsp ∧
      i ≠ .jump .close ∧ i ≠ .jump .acceptTop) : m.failed = false := by
  rcases hfailed : m.failed with _ | _
  · rfl
  · obtain ⟨c', hmain⟩ := hp.accept
    rcases h.back hfailed with hm | hm
    · rw [hrest, hmain] at hm
      exact absurd (List.cons.inj hm).1 hi.1
    · rw [hrest] at hm
      simp [returning] at hm
      tauto

/-- Going on with other code. -/
lemma Inv.goto {m : Machine α} {l l' : Live} (h : Inv p start m l) (hexited : m.exited = none)
    (hfailed : m.failed = false) {c : List Instr} (hscoped : Scoped p l' c) (hclient : l'.client = l.client)
    (hr15 : l'.r15 = l.r15) (hclean : l'.clean = true → l.clean = true) :
    Inv p start { m with rest := c } l' where
  code := hscoped
  fds := by
    have hheld : held l' { m with rest := c } = held l m := by
      rw [held, held, hclient, hr15]
    rw [hheld]
    exact h.fds
  nodup := h.nodup
  clean := fun hl => h.clean (hclean hl)
  listener := h.listener
  stray := h.stray
  running := fun _ => hexited
  kept := h.kept
  same := h.same
  back := fun hf => absurd (hfailed.symm.trans hf) Bool.false_ne_true

lemma scoped_close (hp : p.Sound) {l : Live} (hclient : l.client = true) (hr15 : l.r15 = false) :
    Scoped p l p.close := by
  rw [hp.close]
  exact ⟨hclient, hr15, rfl, hr15, rfl⟩

/-- An accept: the request before is forgotten, and a connection is held if there is one. -/
lemma Inv.accepted {m : Machine α} {l : Live} (h : Inv p start m l) (hexited : m.exited = none)
    {c : List Instr} (hclient : l.client = false) (hr15 : l.r15 = false) {fds : List Nat} {client : Option Nat}
    (hfds : fds.Perm (client.toList ++ m.fds)) (hnodup : fds.Nodup)
    (hscoped : Scoped p { l with client := true } c) :
    Inv p start { m.accepted with rest := c, fds := fds, client := client }
      { l with client := true } where
  code := hscoped
  fds := by
    have hheld : held l m = [] := by simp [held, hclient, hr15]
    have hstart : m.fds.Perm start.fds := by simpa [hheld] using h.fds
    simpa [held, hr15, Machine.accepted] using hfds.trans (hstart.append_left _)
  nodup := hnodup
  clean := h.clean
  listener := h.listener
  stray := h.stray
  running := fun _ => hexited
  kept := fun hf => by cases hf
  same := fun _ => rfl
  back := fun hf => by cases hf

/-- An accept that ends the process. -/
lemma Inv.stops {m : Machine α} {l : Live} (h : Inv p start m l) (hexited : m.exited = none)
    (status : Nat) :
    Inv p start { m.accepted with rest := [.exit status] } l where
  code := trivial
  fds := h.fds
  nodup := h.nodup
  clean := h.clean
  listener := h.listener
  stray := h.stray
  running := fun _ => hexited
  kept := fun hf => by cases hf
  same := fun _ => rfl
  back := fun hf => by cases hf

/-- A descriptor that is held is closed. -/
lemma close_held {m : Machine α} {fd : Option Nat} {rest : List Nat}
    (hfds : m.fds.Perm (fd.toList ++ rest)) (hnodup : m.fds.Nodup) :
    (m.close fd).fds.Perm rest ∧ (m.close fd).fds.Nodup ∧
      m.close fd = { m with fds := (m.close fd).fds } := by
  rcases fd with _ | fd
  · exact ⟨hfds, hnodup, rfl⟩
  · have hmem : fd ∈ m.fds := hfds.mem_iff.mpr (by simp)
    have hclose : m.close (some fd) = { m with fds := m.fds.erase fd } := by
      rw [Machine.close, if_pos hmem]
    rw [hclose]
    refine ⟨?_, hnodup.erase fd, rfl⟩
    have hperm := hfds.erase fd
    rwa [Option.toList_some, List.singleton_append, List.erase_cons_head] at hperm

/-- The code after a failed check goes on with the code after a failed check. -/
lemma returning_tail {i : Instr} {c : List Instr} (h : i :: c ∈ returning)
    (hi : i ≠ .jump .close ∧ i ≠ .jump .acceptTop) : c ∈ returning := by
  simp only [returning, List.mem_cons, List.cons.injEq, List.not_mem_nil, or_false] at h
  rcases h with ⟨rfl, rfl⟩ | ⟨rfl, rfl⟩ | ⟨rfl, rfl⟩ | ⟨rfl, rfl⟩ | ⟨rfl, rfl⟩
  · simp [returning]
  · exact absurd rfl hi.1
  · simp [returning]
  · simp [returning]
  · exact absurd rfl hi.2

/-- Where a check has failed the code is on the way back, unless an accept comes next. -/
lemma Inv.on_return {m : Machine α} {l : Live} (h : Inv p start m l) (hp : p.Sound) {i : Instr}
    {c : List Instr} (hrest : m.rest = i :: c) (hi : i ≠ .accept) (hfailed : m.failed = true) :
    i :: c ∈ returning := by
  obtain ⟨c', hmain⟩ := hp.accept
  rcases h.back hfailed with hm | hm
  · rw [hrest, hmain] at hm
    exact absurd (List.cons.inj hm).1 hi
  · rwa [hrest] at hm

lemma Step.rest_ne {m m' : Machine α} (h : Step p m m') : m.rest ≠ [] := by
  cases h <;> simp [*]

/-- A step keeps what holds of a running process, where a check fails only while no assignment of
its request has changed a field. -/
lemma inv_step (hp : p.Sound) {m m' : Machine α} {l : Live} (h : Inv p start m l)
    (hstep : Step p m m') (hsettled : m'.failed = true → m.failed = false → m.stored = false) :
    ∃ l', Inv p start m' l' := by
  have hcode := h.code
  have hexited := h.running hstep.rest_ne
  cases hstep with
  | @accept c fd hrest hfresh =>
      rw [hrest] at hcode
      obtain ⟨hclient, hr15, -, hcode⟩ := hcode
      exact ⟨_, h.accepted hexited hclient hr15 (List.Perm.refl _)
        (List.nodup_cons.mpr ⟨hfresh, h.nodup⟩) hcode⟩
  | @acceptFails c hrest =>
      rw [hrest] at hcode
      obtain ⟨hclient, hr15, -, hcode⟩ := hcode
      exact ⟨_, h.accepted hexited hclient hr15 (List.Perm.refl _) h.nodup hcode⟩
  | @acceptAborts c hrest => exact ⟨l, h.stops hexited 1⟩
  | @acceptStops c hrest => exact ⟨l, h.stops hexited 0⟩
  | @receive c hrest =>
      rw [hrest] at hcode
      have hfailed := h.not_failed hp hrest (by simp)
      exact ⟨l, h.goto hexited hfailed hcode.2.2 rfl rfl id⟩
  | @malformed c hrest =>
      rw [hrest] at hcode
      have hfailed := h.not_failed hp hrest (by simp)
      exact ⟨l, h.goto hexited hfailed (scoped_close hp hcode.1 hcode.2.1) rfl rfl id⟩
  | @call c hrest =>
      rw [hrest] at hcode
      exact ⟨l, h.goto hexited (h.not_failed hp hrest (by simp)) hcode rfl rfl id⟩
  | @callAborts c hrest =>
      exact ⟨l, h.goto hexited (h.not_failed hp hrest (by simp)) trivial rfl rfl id⟩
  | @openR15 c policy fd hrest hfresh =>
      rw [hrest] at hcode
      obtain ⟨hr15, hcode⟩ := hcode
      have hfailed := h.not_failed hp hrest (by simp)
      refine ⟨{ l with r15 := true }, hcode, ?_, List.nodup_cons.mpr ⟨hfresh, h.nodup⟩, h.clean,
        h.listener, h.stray, fun _ => hexited, h.kept, h.same, fun hf => ?_⟩
      · have hfds := h.fds
        rw [held, hr15] at hfds
        simpa [held] using hfds
      · exact absurd (hfailed.symm.trans hf) Bool.false_ne_true
  | @openDrops c hrest =>
      rw [hrest] at hcode
      obtain ⟨hr15, hcode⟩ := hcode
      have hfailed := h.not_failed hp hrest (by simp)
      refine ⟨{ l with r15 := true }, hcode, ?_, h.nodup, h.clean, h.listener, h.stray, fun _ => hexited,
        h.kept, h.same, fun hf => ?_⟩
      · have hfds := h.fds
        rw [held, hr15] at hfds
        simpa [held] using hfds
      · exact absurd (hfailed.symm.trans hf) Bool.false_ne_true
  | @openAborts c hrest =>
      exact ⟨l, h.goto hexited (h.not_failed hp hrest (by simp)) trivial rfl rfl id⟩
  | @io c policy hrest =>
      rw [hrest] at hcode
      exact ⟨l, h.goto hexited (h.not_failed hp hrest (by simp)) hcode rfl rfl id⟩
  | @ioAborts c hrest =>
      exact ⟨l, h.goto hexited (h.not_failed hp hrest (by simp)) trivial rfl rfl id⟩
  | @closeR15 c hrest =>
      rw [hrest] at hcode
      obtain ⟨hr15, hcode⟩ := hcode
      have hfds := h.fds
      rw [held, if_pos hr15, List.append_assoc] at hfds
      obtain ⟨hperm, hnodup, hclose⟩ := close_held hfds h.nodup
      rw [hclose]
      exact ⟨{ l with r15 := false }, hcode, by simpa [held] using hperm, hnodup, h.clean,
        h.listener, h.stray, fun _ => hexited, h.kept, h.same,
        fun hf => .inr (returning_tail (h.on_return hp hrest (by simp) hf) (by simp))⟩
  | @eval c sites exits depth hrest =>
      rw [hrest] at hcode
      have hfailed := h.not_failed hp hrest (by simp)
      exact ⟨{ l with clean := false }, hcode.2.2, h.fds, h.nodup, fun hl => (by cases hl),
        h.listener, h.stray, fun _ => hexited, h.kept, h.same,
        fun hf => absurd (hfailed.symm.trans hf) Bool.false_ne_true⟩
  | @checkFails c sites exits site target depth hrest hsite htarget =>
      rw [hrest] at hcode
      obtain ⟨hclient, hsites, -⟩ := hcode
      have hfailed := h.not_failed hp hrest (by simp)
      have hstored : m.stored = false := hsettled rfl hfailed
      have hback : Scoped p { l with clean := false } (p.code target) ∧
          p.code target ∈ returning := by
        have htarget' := hsites site hsite
        rw [htarget] at htarget'
        rcases hr15 : l.r15 with _ | _
        · rw [hr15] at htarget'
          cases htarget'
          refine ⟨scoped_close hp hclient rfl, ?_⟩
          change p.close ∈ returning
          simp [hp.close, returning]
        · rw [hr15] at htarget'
          cases htarget'
          change Scoped p _ p.stub ∧ p.stub ∈ returning
          rw [hp.stub site htarget]
          exact ⟨⟨rfl, hclient, rfl⟩, by simp [returning]⟩
      exact ⟨{ l with clean := false }, hback.1, h.fds, h.nodup, fun hl => (by cases hl),
        h.listener, h.stray, fun _ => hexited, fun _ => hstored, h.same, fun _ => .inr hback.2⟩
  | @resourceExits c sites hrest =>
      exact ⟨l, h.goto hexited (h.not_failed hp hrest (by simp)) trivial rfl rfl id⟩
  | @respond c hrest =>
      rw [hrest] at hcode
      exact ⟨l, h.goto hexited (h.not_failed hp hrest (by simp)) hcode.2.2 rfl rfl id⟩
  | @respondFails c hrest =>
      rw [hrest] at hcode
      have hfailed := h.not_failed hp hrest (by simp)
      exact ⟨l, h.goto hexited hfailed (scoped_close hp hcode.1 hcode.2.1) rfl rfl id⟩
  | @storeSame c f hrest =>
      rw [hrest] at hcode
      exact ⟨l, h.goto hexited (h.not_failed hp hrest (by simp)) hcode rfl rfl id⟩
  | @storeNew c f v hrest hv =>
      rw [hrest] at hcode
      have hfailed := h.not_failed hp hrest (by simp)
      exact ⟨l, hcode, h.fds, h.nodup, h.clean, h.listener, h.stray, fun _ => hexited,
        fun hf => absurd (hfailed.symm.trans hf) Bool.false_ne_true, fun hs => (by cases hs),
        fun hf => absurd (hfailed.symm.trans hf) Bool.false_ne_true⟩
  | @storeAborts c f hrest =>
      exact ⟨l, h.goto hexited (h.not_failed hp hrest (by simp)) trivial rfl rfl id⟩
  | @closeClient c hrest =>
      rw [hrest] at hcode
      obtain ⟨hclient, hr15, hcode⟩ := hcode
      have hfds := h.fds
      rw [held, hr15, if_pos hclient] at hfds
      obtain ⟨hperm, hnodup, hclose⟩ := close_held (by simpa using hfds) h.nodup
      rw [hclose]
      exact ⟨{ l with client := false }, hcode, by simpa [held, hr15] using hperm, hnodup, h.clean,
        h.listener, h.stray, fun _ => hexited, h.kept, h.same,
        fun hf => .inr (returning_tail (h.on_return hp hrest (by simp) hf) (by simp))⟩
  | @resetRsp c hrest =>
      rw [hrest] at hcode
      exact ⟨{ l with clean := true }, hcode, h.fds, h.nodup, fun _ => rfl, h.listener, h.stray,
        fun _ => hexited, h.kept, h.same,
        fun hf => .inr (returning_tail (h.on_return hp hrest (by simp) hf) (by simp))⟩
  | @jump c target hrest =>
      rw [hrest] at hcode
      cases target with
      | acceptTop =>
          obtain ⟨hclient, hr15, hclean⟩ := hcode
          refine ⟨⟨false, false, true⟩, hp.main, ?_, h.nodup, fun _ => h.clean hclean, h.listener,
            h.stray, fun _ => hexited, h.kept, h.same, fun _ => .inl rfl⟩
          have hfds := h.fds
          rw [held, hclient, hr15] at hfds
          exact hfds
      | close =>
          obtain ⟨hclient, hr15⟩ := hcode
          refine ⟨l, scoped_close hp hclient hr15, h.fds, h.nodup, h.clean, h.listener, h.stray,
            fun _ => hexited, h.kept, h.same, fun _ => .inr ?_⟩
          change p.close ∈ returning
          simp [hp.close, returning]
      | closeR15 => exact hcode.elim
      | abort => exact hcode.elim
  | @exit c status hrest =>
      have hfailed := h.not_failed hp hrest (by simp)
      exact ⟨l, trivial, h.fds, h.nodup, h.clean, h.listener, h.stray,
        fun hne => absurd rfl hne, h.kept, h.same,
        fun hf => absurd (hfailed.symm.trans hf) Bool.false_ne_true⟩

end invariant

/-! ## What is emitted -/

/-- Code that runs while the connection is held and nothing is in `r15`. -/
def Ready (p : Program) (c : List Instr) : Prop := ∀ clean, Scoped p ⟨true, false, clean⟩ c

/-- The jumps of some checks are recorded in the open scope. -/
lemma emitChecks_spec (cs : List Check) {s : Emitter} {v : List Site} (hs : s.scope = some v) :
    (emitChecks cs s).2.scope = some (v ++ (emitChecks cs s).1.1) ∧
      s.size ≤ (emitChecks cs s).2.size ∧
      ∀ x ∈ (emitChecks cs s).1.1, s.size ≤ x ∧ x < (emitChecks cs s).2.size := by
  induction cs generalizing s v with
  | nil => exact ⟨by simp [emitChecks, hs], Nat.le_refl _, fun x hx => by cases hx⟩
  | cons c cs ih =>
      rw [emitChecks]
      by_cases hres : c.isResource = true
      · obtain ⟨hscope, hsize, hsites⟩ := @ih { s with size := s.size + c.jumps } v hs
        simp only [hres, if_true]
        dsimp only at hsize hsites
        exact ⟨hscope, by omega, fun x hx => ⟨by have := (hsites x hx).1; omega, (hsites x hx).2⟩⟩
      · obtain ⟨hscope, hsize, hsites⟩ :=
          @ih ⟨s.size + c.jumps, some (v ++ List.range' s.size c.jumps)⟩ _ rfl
        have hroute : ({ s with size := s.size + c.jumps } : Emitter).routeClientAbort
            (List.range' s.size c.jumps) =
              (true, ⟨s.size + c.jumps, some (v ++ List.range' s.size c.jumps)⟩) := by
          simp [Emitter.routeClientAbort, hs]
        simp only [hres, hroute, if_true, Bool.false_eq_true, if_false]
        dsimp only at hsize hsites
        refine ⟨by rw [hscope, List.append_assoc], by omega, fun x hx => ?_⟩
        rcases List.mem_append.mp hx with hx | hx
        · rw [List.mem_range'_1] at hx
          exact ⟨hx.1, Nat.lt_of_lt_of_le hx.2 hsize⟩
        · exact ⟨Nat.le_trans (Nat.le_add_right _ _) (hsites x hx).1, (hsites x hx).2⟩

section emit

variable {emitted : Expr → List Check} {β : Type} {expr : β → Expr}
  {wrap : β → Instr → List Instr}

/-- Each expression with the code around it is ready, if it is wherever its jumps go to one label. -/
def Wraps (wrap : β → Instr → List Instr) (target : Label) : Prop :=
  ∀ (p : Program) b sites exits c, (∀ x ∈ sites, p.target x = some target) → Ready p c →
    Ready p (wrap b (.eval sites exits) ++ c)

lemma emitEach_spec {target : Label} (hwrap : Wraps wrap target) (bs : List β) {s : Emitter}
    {v : List Site} (hs : s.scope = some v) :
    ∃ sites, (emitEach emitted expr wrap bs s).2.scope = some (v ++ sites) ∧
      s.size ≤ (emitEach emitted expr wrap bs s).2.size ∧
      (∀ x ∈ sites, s.size ≤ x ∧ x < (emitEach emitted expr wrap bs s).2.size) ∧
      ∀ (p : Program) c, (∀ x ∈ sites, p.target x = some target) → Ready p c →
        Ready p ((emitEach emitted expr wrap bs s).1 ++ c) := by
  induction bs generalizing s v with
  | nil => exact ⟨[], by simp [emitEach, hs], Nat.le_refl _, by simp, fun p c _ hc => hc⟩
  | cons b bs ih =>
      obtain ⟨hscope, hsize, hsites⟩ := emitChecks_spec (emitted (expr b)) hs
      obtain ⟨sites, hscope', hsize', hsites', hready⟩ := ih hscope
      refine ⟨(emitChecks (emitted (expr b)) s).1.1 ++ sites, ?_, Nat.le_trans hsize hsize',
        fun x hx => ?_, fun p c htarget hc => ?_⟩
      · rw [List.append_assoc] at hscope'
        exact hscope'
      · rcases List.mem_append.mp hx with hx | hx
        · exact ⟨(hsites x hx).1, Nat.lt_of_lt_of_le (hsites x hx).2 hsize'⟩
        · exact ⟨Nat.le_trans hsize (hsites' x hx).1, (hsites' x hx).2⟩
      · rw [emitEach, List.append_assoc]
        exact hwrap p b _ _ _ (fun x hx => htarget x (List.mem_append_left _ hx))
          (hready p c (fun x hx => htarget x (List.mem_append_right _ hx)) hc)

/-- What is emitted in a scope: its jumps lie between the lengths of the code before and after, and
it is ready if they go to one label. -/
structure Recorded (s : Emitter) (out : List Instr × List Site × Emitter) (target : Label) :
    Prop where
  size : s.size ≤ out.2.2.size
  sites : ∀ x : Nat, x ∈ out.2.1 → s.size ≤ x ∧ x < out.2.2.size
  ready : ∀ (p : Program) c, (∀ x ∈ out.2.1, p.target x = some target) → Ready p c →
    Ready p (out.1 ++ c)

lemma recorded_inScope (emitted : Expr → List Check) (expr : β → Expr) {target : Label}
    (hwrap : Wraps wrap target) (bs : List β) (s : Emitter) :
    Recorded s (inScope (emitEach emitted expr wrap bs) s) target := by
  obtain ⟨sites, hscope, hsize, hsites, hready⟩ :=
    @emitEach_spec emitted β expr wrap target hwrap bs { s with scope := some [] } [] rfl
  have hrecorded : (inScope (emitEach emitted expr wrap bs) s).2.1 = sites := by
    rw [inScope, hscope]
    rfl
  exact ⟨hsize, by rw [hrecorded]; exact hsites, by rw [hrecorded]; exact hready⟩

end emit

lemma wraps_bare {β : Type} : Wraps (fun (_ : β) i => [i]) .close :=
  fun _ _ _ _ _ hsites hc _ => ⟨rfl, hsites, hc false⟩

lemma wraps_r15 {β : Type} (before after : β → Policy) :
    Wraps (fun (b : β) i => [.openR15 (before b), i, .io (after b), .closeR15]) .closeR15 :=
  fun _ _ _ _ _ hsites hc _ => ⟨rfl, rfl, hsites, rfl, hc false⟩

lemma wraps_store : Wraps (fun (set : StateSet) i => [i, .store set.fieldName]) .close :=
  fun _ _ _ _ _ hsites hc _ => ⟨rfl, hsites, hc false⟩

lemma ready_resources {p : Program} {c : List Instr} (hc : Ready p c) (n : Nat) :
    Ready p ((List.replicate n [Instr.openR15 .abort, .io .abort, .closeR15]).flatten ++ c) := by
  induction n with
  | zero => exact hc
  | succ n ih =>
      rw [List.replicate_succ, List.flatten_cons, List.append_assoc]
      exact fun clean => ⟨rfl, rfl, ih clean⟩

lemma ready_calls {p : Program} {c : List Instr} (hc : Ready p c) (n : Nat) :
    Ready p (List.replicate n Instr.call ++ c) := by
  induction n with
  | zero => exact hc
  | succ n ih => exact fun clean => ih clean

/-- What is emitted obeys the discipline. -/
lemma compile_sound (emitted : Expr → List Check) (parts : Parts) :
    (compile emitted parts).Sound := by
  have hfetches := recorded_inScope emitted id (wraps_r15 (fun _ => .abort) fun _ => .abort)
    parts.requests ⟨0, none⟩
  have hhandler := recorded_inScope emitted id wraps_bare (parts.lets ++ [parts.body])
    (inScope (emitFetches emitted parts.requests) ⟨0, none⟩).2.2
  have hlogs := recorded_inScope emitted (·.2) (wraps_r15 (·.1) (·.1)) parts.logs
    (inScope (emitHandler emitted (parts.lets ++ [parts.body]))
      (inScope (emitFetches emitted parts.requests) ⟨0, none⟩).2.2).2.2
  have hafter := recorded_inScope emitted (·.value) wraps_store parts.sets
    (inScope (emitLogs emitted parts.logs) (inScope (emitHandler emitted
      (parts.lets ++ [parts.body]))
      (inScope (emitFetches emitted parts.requests) ⟨0, none⟩).2.2).2.2).2.2
  have hp : ∃ p, p = compile emitted parts := ⟨_, rfl⟩
  obtain ⟨p, hp⟩ := hp
  have hcompile := hp
  rw [compile] at hcompile
  rw [← hp]
  change Recorded _ (inScope (emitFetches emitted parts.requests) ⟨0, none⟩) _ at hfetches
  generalize inScope (emitFetches emitted parts.requests) ⟨0, none⟩ = fetches at *
  change Recorded _ (inScope (emitHandler emitted (parts.lets ++ [parts.body])) fetches.2.2) _
    at hhandler
  generalize inScope (emitHandler emitted (parts.lets ++ [parts.body])) fetches.2.2 = handler at *
  change Recorded _ (inScope (emitLogs emitted parts.logs) handler.2.2) _ at hlogs
  generalize inScope (emitLogs emitted parts.logs) handler.2.2 = logs at *
  change Recorded _ (inScope (emitSets emitted parts.sets) logs.2.2) _ at hafter
  generalize inScope (emitSets emitted parts.sets) logs.2.2 = after at *
  have htarget : ∀ x, p.target x = if x ∈ fetches.2.1 ++ logs.2.1 then some .closeR15 else
      if x ∈ handler.2.1 ++ after.2.1 then some .close else none := by
    intro x
    rw [hcompile]
    rfl
  have hr15 : ∀ x ∈ fetches.2.1 ++ logs.2.1, p.target x = some .closeR15 := by
    intro x hx
    rw [htarget, if_pos hx]
  have hclose : ∀ x ∈ handler.2.1 ++ after.2.1, p.target x = some .close := by
    intro x hx
    rw [htarget, if_neg, if_pos hx]
    -- the jumps of the four scopes lie one behind the other
    have h₁ := hfetches.size
    have h₂ := hhandler.size
    have h₃ := hlogs.size
    intro hx'
    rcases List.mem_append.mp hx with hx | hx <;> rcases List.mem_append.mp hx' with hx' | hx'
    · have := hhandler.sites x hx
      have := hfetches.sites x hx'
      omega
    · have := hhandler.sites x hx
      have := hlogs.sites x hx'
      omega
    · have := hafter.sites x hx
      have := hfetches.sites x hx'
      omega
    · have := hafter.sites x hx
      have := hlogs.sites x hx'
      omega
  have hback : Ready p [.closeClient, .resetRsp, .jump .acceptTop] :=
    fun clean => ⟨rfl, rfl, rfl, rfl, rfl⟩
  have hsets := hafter.ready p _ (fun x hx => hclose x (List.mem_append_right _ hx)) hback
  have hrespond : Ready p (Instr.respond :: (after.1 ++ [Instr.closeClient, .resetRsp, .jump .acceptTop])) :=
    fun clean => ⟨rfl, rfl, hsets clean⟩
  have hlog := hlogs.ready p _ (fun x hx => hr15 x (List.mem_append_right _ hx)) hrespond
  have hhandle := hhandler.ready p _ (fun x hx => hclose x (List.mem_append_left _ hx)) hlog
  have hfetch := hfetches.ready p _ (fun x hx => hr15 x (List.mem_append_left _ hx))
    (ready_calls hhandle parts.entropies)
  have hreceive : Ready p (Instr.receive :: (fetches.1 ++ (List.replicate parts.entropies Instr.call ++
      (handler.1 ++ (logs.1 ++ (Instr.respond :: (after.1 ++
        [Instr.closeClient, .resetRsp, .jump .acceptTop]))))))) :=
    fun clean => ⟨rfl, rfl, hfetch clean⟩
  have hresources := ready_resources hreceive parts.resources
  have hmain : p.main = .accept :: ((List.replicate parts.resources
      [Instr.openR15 .abort, .io .abort, .closeR15]).flatten ++ (Instr.receive :: (fetches.1 ++
        (List.replicate parts.entropies Instr.call ++ (handler.1 ++ (logs.1 ++ (Instr.respond :: (after.1 ++
          [Instr.closeClient, .resetRsp, .jump .acceptTop])))))))) := by
    rw [hcompile]
    simp only [List.append_assoc, List.cons_append, List.nil_append]
  refine ⟨?_, ⟨_, hmain⟩, by rw [hcompile], fun site hsite => ?_⟩
  · rw [hmain]
    exact ⟨rfl, rfl, rfl, hresources true⟩
  · rw [hcompile]
    refine if_neg fun hnone => ?_
    rw [htarget, hnone, if_neg List.not_mem_nil] at hsite
    split_ifs at hsite
    cases hsite

/-! ## Runs -/

section runs

variable {p : Program} {α : Type}

lemma Step.of_jump {m m' : Machine α} {l : Label} {c : List Instr} (hrest : m.rest = .jump l :: c)
    (h : Step p m m') : m' = { m with rest := p.code l } := by
  cases h <;> simp_all

lemma Step.of_closeR15 {m m' : Machine α} {c : List Instr} (hrest : m.rest = .closeR15 :: c)
    (h : Step p m m') : m' = { m.close m.r15 with rest := c } := by
  cases h <;> simp_all

lemma Step.of_closeClient {m m' : Machine α} {c : List Instr} (hrest : m.rest = .closeClient :: c)
    (h : Step p m m') : m' = { m.close m.client with rest := c } := by
  cases h <;> simp_all

lemma Step.of_resetRsp {m m' : Machine α} {c : List Instr} (hrest : m.rest = .resetRsp :: c)
    (h : Step p m m') : m' = { m with rest := c, rsp := 0 } := by
  cases h <;> simp_all

/-- After a failed check there is only one way on. -/
lemma step_unique {m m₁ m₂ : Machine α} (hrest : m.rest ∈ returning) (h₁ : Step p m m₁)
    (h₂ : Step p m m₂) : m₁ = m₂ := by
  simp only [returning, List.mem_cons, List.not_mem_nil, or_false] at hrest
  rcases hrest with hrest | hrest | hrest | hrest | hrest
  · rw [h₁.of_closeR15 hrest, h₂.of_closeR15 hrest]
  · rw [h₁.of_jump hrest, h₂.of_jump hrest]
  · rw [h₁.of_closeClient hrest, h₂.of_closeClient hrest]
  · rw [h₁.of_resetRsp hrest, h₂.of_resetRsp hrest]
  · rw [h₁.of_jump hrest, h₂.of_jump hrest]

/-- After a failed check the code goes back to `accept_top`. -/
lemma returns (hp : p.Sound) {m : Machine α} (hrest : m.rest ∈ returning) :
    ∃ m', Relation.ReflTransGen (Step p) m m' ∧ m'.rest = p.main := by
  have hjump : ∀ m : Machine α, m.rest = [.jump .acceptTop] →
      ∃ m', Relation.ReflTransGen (Step p) m m' ∧ m'.rest = p.main :=
    fun m h => ⟨_, .single (.jump h), rfl⟩
  have hreset : ∀ m : Machine α, m.rest = [.resetRsp, .jump .acceptTop] →
      ∃ m', Relation.ReflTransGen (Step p) m m' ∧ m'.rest = p.main := by
    intro m h
    obtain ⟨m', hrun, hm'⟩ := hjump { m with rest := [.jump .acceptTop], rsp := 0 } rfl
    exact ⟨m', .head (.resetRsp h) hrun, hm'⟩
  have hclient : ∀ m : Machine α, m.rest = [.closeClient, .resetRsp, .jump .acceptTop] →
      ∃ m', Relation.ReflTransGen (Step p) m m' ∧ m'.rest = p.main := by
    intro m h
    obtain ⟨m', hrun, hm'⟩ :=
      hreset { m.close m.client with rest := [.resetRsp, .jump .acceptTop] } rfl
    exact ⟨m', .head (.closeClient h) hrun, hm'⟩
  have hclose : ∀ m : Machine α, m.rest = [.jump .close] →
      ∃ m', Relation.ReflTransGen (Step p) m m' ∧ m'.rest = p.main := by
    intro m h
    obtain ⟨m', hrun, hm'⟩ := hclient { m with rest := p.close } hp.close
    exact ⟨m', .head (.jump h) hrun, hm'⟩
  simp only [returning, List.mem_cons, List.not_mem_nil, or_false] at hrest
  rcases hrest with hrest | hrest | hrest | hrest | hrest
  · obtain ⟨m', hrun, hm'⟩ := hclose { m.close m.r15 with rest := [.jump .close] } rfl
    exact ⟨m', .head (.closeR15 hrest) hrun, hm'⟩
  · exact hclose m hrest
  · exact hclient m hrest
  · exact hreset m hrest
  · exact hjump m hrest

/-- Every state of the runs has the invariant. -/
lemma reachable_inv (hp : p.Sound) {start m : Machine α} (hstart : start.Starts p)
    (hm : (settled p start).Reachable m) : ∃ l, Inv p start m l := by
  refine System.Reachable.invariant (I := fun m => ∃ l, Inv p start m l) ?_ ?_ hm
  · rintro m rfl
    refine ⟨⟨false, false, true⟩, ?_, List.Perm.refl _, hstart.nodup, fun _ => hstart.rsp, rfl,
      hstart.stray, fun _ => hstart.exited, fun hf => ?_, fun _ => hstart.stateBefore.symm,
      fun _ => .inl hstart.rest⟩
    · rw [hstart.rest]
      exact hp.main
    · exact absurd (hstart.failed.symm.trans hf) Bool.false_ne_true
  · rintro m m' - ⟨l, hl⟩ ⟨hstep, hsettled⟩
    exact inv_step hp hl hstep hsettled

end runs

/-- A byte of a text at a position. -/
def probe : Expr := .byteAt (.field (.ident "req") "path") (.number 50)

/-- The checks of `probe`, and none elsewhere. -/
def probeChecks : Expr → List Check
  | .byteAt .. => [⟨1, false⟩]
  | _ => []

/-- A service that answers with `probe`. -/
def probing : Parts where
  resources := 0
  requests := []
  entropies := 0
  lets := []
  body := probe
  logs := []
  sets := []

/-- A service that counts, and then records `probe`. -/
def counting : Parts where
  resources := 0
  requests := []
  entropies := 0
  lets := []
  body := .text "ok"
  logs := []
  sets := [⟨"hits", .number 1⟩, ⟨"last", probe⟩]

/-- A process that has bound descriptor 3. -/
def listening (p : Program) : Machine Nat where
  rest := p.main
  rsp := 0
  fds := [3]
  stray := []
  listener := 3
  client := none
  r15 := none
  state := fun _ => 0
  exited := none
  failed := false
  stored := false
  stateBefore := fun _ => 0

lemma listening_starts (p : Program) : (listening p).Starts p :=
  ⟨rfl, rfl, by simp [listening], by simp [listening], rfl, rfl, rfl, rfl⟩

end Verbosec.Native.ClientAbort
