import Mathlib.Data.List.Infix
import Mathlib.Data.List.Nodup
import Mathlib.Tactic.Common
import Verbosec.Native.StepLoop

/-!
# Conversations are bounded and isolated

* `Child.Sound` - what holds of a child at every place; `ChildStep.sound` keeps it.
* `World.Sound` - what holds of the parent and its children; `Step.sound` keeps it.
* `conversations_isolated` - the bounds of a conversation, what its runs find, what it answers, and
  what it leaves to the parent.
-/

namespace Verbosec.Native.StepLoop

open Verbosec.Lib

variable {σ : Type} {s : StepService σ}

/-! ## A conversation alone -/

namespace StepService

lemma stateAfter_snoc (requests : List (List UInt8)) (request : List UInt8) (state : σ) :
    s.stateAfter (requests ++ [request]) state =
      (s.stateAfter requests state).bind (s.next request) := by
  induction requests generalizing state with
  | nil =>
      rw [List.nil_append, stateAfter, stateAfter, Option.bind_some]
      cases s.next request state <;> rfl
  | cons first requests ih =>
      rw [List.cons_append, stateAfter, stateAfter]
      cases s.next first state with
      | none => rfl
      | some state' => exact ih state'

lemma responses_snoc {requests : List (List UInt8)} {request : List UInt8} {state state' : σ}
    (h : s.stateAfter requests state = some state') :
    s.responses (requests ++ [request]) state =
      s.responses requests state ++ writes (s.handle request state').1 := by
  induction requests generalizing state with
  | nil =>
      cases h
      rw [List.nil_append, responses, responses, List.nil_append]
      cases s.next request state' <;> exact List.append_nil _
  | cons first requests ih =>
      rw [stateAfter] at h
      obtain ⟨state₁, hnext, hafter⟩ := Option.bind_eq_some_iff.mp h
      rw [List.cons_append, responses, responses, hnext]
      simp only [Option.map_some, Option.getD_some]
      rw [ih hafter, List.append_assoc]

lemma writes_append (xs ys : List Action) : writes (xs ++ ys) = writes xs ++ writes ys := by
  induction xs with
  | nil => rfl
  | cons x xs ih =>
      cases x with
      | write bytes => rw [List.cons_append, writes, writes, ih, List.cons_append]
      | push size => rw [List.cons_append, writes, writes, ih]

end StepService

open StepService

/-- The handler finds the bytes of the read, whatever was in the buffer. -/
lemma request_received (f : Frame σ) (bytes : List UInt8) : (f.received bytes).request = bytes :=
  List.take_left

/-! ## Children -/

namespace Child

variable (s) (c : Child σ)

/-- The requests of the runs. -/
def requests : List (List UInt8) := c.runs.map Prod.fst

/-- Between two runs: every read has been answered, and the state block holds what the `after` blocks
have left. -/
structure Between : Prop where
  reads : c.reads = c.requests
  state : s.stateAfter c.requests s.initial = some c.frame.state
  written : c.written = s.responses c.requests s.initial

/-- Within a run of the handler: it is the run of the last read, with the state block that the runs
before have left, and some of its actions are done. -/
structure Within (actions : List Action) (ending : Ending σ) : Prop where
  reads : c.reads = c.requests
  step : c.frame.step = c.reads.length
  run : ∃ earlier request, c.runs = earlier ++ [(request, c.frame.state)] ∧
    s.stateAfter (earlier.map Prod.fst) s.initial = some c.frame.state ∧
    ∃ before, s.handle request c.frame.state = (before ++ actions, ending) ∧
      c.written = s.responses (earlier.map Prod.fst) s.initial ++ writes before

/-- What holds at a place. -/
def Holds : Prop :=
  match c.pc with
  | .setTimeout => c.Between s ∧ c.reads = [] ∧ c.rsp = -s.frameSize
  | .clearStep => c.Between s ∧ c.reads = [] ∧ c.rsp = -s.frameSize - 16
  | .stepTop => c.Between s ∧ c.frame.step = c.reads.length ∧ c.rsp = -s.frameSize
  | .read => c.Between s ∧ c.frame.step = c.reads.length + 1 ∧ c.frame.step ≤ s.maxSteps
  | .run actions ending => c.Within s actions ending
  | .stepTail => c.Between s ∧ c.frame.step = c.reads.length
  | .close | .ended => True

/-- What holds of a child: its bounds, what its runs have found, what it has answered. -/
structure Sound : Prop where
  place : c.Holds s
  bounded : c.reads.length ≤ s.maxSteps
  sizes : ∀ bytes ∈ c.reads, bytes.length ≤ s.maxRequest
  /-- a run finds the bytes of its read, and the state that the runs before it have left -/
  finds : ∀ (i : Nat) (request : List UInt8) (state : σ), c.runs[i]? = some (request, state) →
    c.reads[i]? = some request ∧ s.stateAfter (c.requests.take i) s.initial = some state
  answers : c.written <+: s.responses c.requests s.initial

end Child

section children

variable {c c' : Child σ}

/-- There is a read for every run. -/
lemma Child.Sound.runs_le (h : c.Sound s) : c.runs.length ≤ c.reads.length := by
  by_contra hlt
  have hlast : c.reads.length < c.runs.length := Nat.lt_of_not_le hlt
  have hget := List.getElem?_eq_getElem hlast
  have hread := (h.finds _ _ _ hget).1
  rw [List.getElem?_eq_none (Nat.le_refl _)] at hread
  cases hread

/-- Another place, with the same frame and history. -/
lemma Child.Sound.move (h : c.Sound s) (hreads : c'.reads = c.reads) (hruns : c'.runs = c.runs)
    (hwritten : c'.written = c.written) (hplace : c'.Holds s) : c'.Sound s where
  place := hplace
  bounded := by rw [hreads]; exact h.bounded
  sizes := by rw [hreads]; exact h.sizes
  finds := by
    rw [hreads, Child.requests, hruns]
    exact h.finds
  answers := by
    rw [hwritten, Child.requests, hruns]
    exact h.answers

/-- A read that delivers bytes starts a run. -/
lemma Child.Sound.read (h : c.Sound s) (hpc : c.pc = .read) {bytes : List UInt8}
    (hsize : bytes.length ≤ s.maxRequest) : Child.Sound s { c with
      pc := .run (s.handle bytes c.frame.state).1 (s.handle bytes c.frame.state).2
      frame := c.frame.received bytes
      reads := c.reads ++ [bytes]
      runs := c.runs ++ [(bytes, c.frame.state)] } := by
  have hplace := h.place
  rw [Child.Holds, hpc] at hplace
  obtain ⟨hbetween, hstep, hcap⟩ := hplace
  have hreads : c.reads = c.runs.map Prod.fst := hbetween.reads
  have hlength : c.reads.length = c.runs.length := by rw [hreads, List.length_map]
  have hstate : s.stateAfter (c.runs.map Prod.fst) s.initial = some c.frame.state :=
    hbetween.state
  refine ⟨⟨?_, ?_, c.runs, bytes, rfl, hstate, [], rfl, ?_⟩, ?_, ?_,
    fun i request state hrun => ?_, ?_⟩
  · change c.reads ++ [bytes] = (c.runs ++ [(bytes, c.frame.state)]).map Prod.fst
    rw [hreads, List.map_append]
    rfl
  · change c.frame.step = (c.reads ++ [bytes]).length
    rw [hstep, List.length_append]
    rfl
  · change c.written = s.responses (c.runs.map Prod.fst) s.initial ++ []
    rw [List.append_nil]
    exact hbetween.written
  · change (c.reads ++ [bytes]).length ≤ s.maxSteps
    rw [List.length_append]
    exact hstep ▸ hcap
  · intro b hb
    rcases List.mem_append.mp hb with hb | hb
    · exact h.sizes b hb
    · cases List.mem_singleton.mp hb
      exact hsize
  · change (c.reads ++ [bytes])[i]? = some request ∧ s.stateAfter
      (((c.runs ++ [(bytes, c.frame.state)]).map Prod.fst).take i) s.initial = some state
    have hi : i < (c.runs ++ [(bytes, c.frame.state)]).length := (List.getElem?_eq_some_iff.mp hrun).1
    rw [List.length_append, List.length_singleton] at hi
    rw [List.map_append]
    rcases Nat.lt_or_ge i c.runs.length with hlt | hge
    · have hrun' : c.runs[i]? = some (request, state) := by
        rw [← hrun]
        exact (List.getElem?_append_left hlt).symm
      obtain ⟨hread, hafter⟩ := h.finds i request state hrun'
      rw [List.getElem?_append_left (by omega),
        List.take_append_of_le_length (by rw [List.length_map]; omega)]
      exact ⟨hread, hafter⟩
    · have hlast : i = c.runs.length := by omega
      subst hlast
      have hrun' : (c.runs ++ [(bytes, c.frame.state)])[c.runs.length]? =
          some (bytes, c.frame.state) := List.getElem?_concat_length
      cases hrun'.symm.trans hrun
      refine ⟨by rw [← hlength]; exact List.getElem?_concat_length, ?_⟩
      rw [List.take_append_of_le_length (by rw [List.length_map]),
        List.take_of_length_le (by rw [List.length_map])]
      exact hstate
  · change c.written <+: s.responses ((c.runs ++ [(bytes, c.frame.state)]).map Prod.fst) s.initial
    rw [List.map_append, hbetween.written]
    exact ⟨_, (responses_snoc hstate).symm⟩

/-- A write is one of the response. -/
lemma Child.Sound.write (h : c.Sound s) {bytes : List UInt8} {actions : List Action}
    {ending : Ending σ} (hpc : c.pc = .run (.write bytes :: actions) ending) : Child.Sound s { c with
      pc := .run actions ending, written := c.written ++ [bytes] } := by
  have hplace := h.place
  rw [Child.Holds, hpc] at hplace
  obtain ⟨hreads, hstep, earlier, request, hruns, hstate, before, hhandle, hwritten⟩ := hplace
  have hbefore : writes (before ++ [Action.write bytes]) = writes before ++ [bytes] := writes_append _ _
  refine ⟨⟨hreads, hstep, earlier, request, hruns, hstate, before ++ [Action.write bytes], ?_, ?_⟩,
    h.bounded, h.sizes, h.finds, ?_⟩
  · rw [hhandle, List.append_assoc]
    rfl
  · change c.written ++ [bytes] = _
    rw [hwritten, hbefore, List.append_assoc]
  · change c.written ++ [bytes] <+: s.responses (c.runs.map Prod.fst) s.initial
    rw [hruns, List.map_append]
    refine ⟨writes actions, ?_⟩
    have hsnoc : s.responses (earlier.map Prod.fst ++ [request]) s.initial = _ :=
      responses_snoc hstate
    rw [hhandle, writes_append, writes] at hsnoc
    change _ = s.responses (earlier.map Prod.fst ++ [request]) s.initial
    rw [hsnoc, hwritten, List.append_assoc, List.append_assoc]
    rfl

/-- What one step of a child keeps. -/
lemma ChildStep.sound (h : c.Sound s) (hstep : ChildStep s c c') : c'.Sound s := by
  have hplace := h.place
  cases hstep with
  | setTimeout hpc =>
      rw [Child.Holds, hpc] at hplace
      obtain ⟨hbetween, hreads, hrsp⟩ := hplace
      refine h.move rfl rfl rfl ⟨⟨hbetween.reads, hbetween.state, hbetween.written⟩, hreads, ?_⟩
      change c.rsp - 16 = _
      rw [hrsp]
  | clearStep hpc =>
      rw [Child.Holds, hpc] at hplace
      obtain ⟨hbetween, hreads, hrsp⟩ := hplace
      refine h.move rfl rfl rfl
        ⟨⟨hbetween.reads, hbetween.state, hbetween.written⟩, ?_, ?_⟩
      · change 0 = c.reads.length
        rw [hreads]
        rfl
      · change c.rsp + 16 = _
        rw [hrsp, Int.sub_add_cancel]
  | stepCap hpc hcap => exact h.move rfl rfl rfl trivial
  | step hpc hcap =>
      rw [Child.Holds, hpc] at hplace
      obtain ⟨hbetween, hcount, -⟩ := hplace
      -- the counter is far from the end of its word
      have hnext : (c.frame.step + 1) % 2 ^ 64 = c.frame.step + 1 := by
        have := s.steps.2
        omega
      refine h.move rfl rfl rfl ⟨⟨hbetween.reads, hbetween.state, hbetween.written⟩, ?_, ?_⟩
      · change (c.frame.step + 1) % 2 ^ 64 = c.reads.length + 1
        rw [hnext, hcount]
      · change (c.frame.step + 1) % 2 ^ 64 ≤ s.maxSteps
        rw [hnext]
        exact hcap
  | readFails hpc =>
      rw [Child.Holds, hpc] at hplace
      obtain ⟨hbetween, hcount, hcap⟩ := hplace
      refine ⟨trivial, ?_, fun b hb => ?_, fun i request state hrun => ?_, h.answers⟩
      · change (c.reads ++ [[]]).length ≤ s.maxSteps
        rw [List.length_append]
        exact hcount ▸ hcap
      · rcases List.mem_append.mp hb with hb | hb
        · exact h.sizes b hb
        · cases List.mem_singleton.mp hb
          exact Nat.zero_le _
      · obtain ⟨hread, hafter⟩ := h.finds i request state hrun
        have hi := (List.getElem?_eq_some_iff.mp hread).1
        exact ⟨(List.getElem?_append_left hi).trans hread, hafter⟩
  | read hpc bytes hpos hsize =>
      rw [request_received]
      exact h.read hpc hsize
  | write hpc => exact h.write hpc
  | @push size actions ending hpc =>
      rw [Child.Holds, hpc] at hplace
      obtain ⟨hreads, hcount, earlier, request, hruns, hstate, before, hhandle, hwritten⟩ := hplace
      refine h.move rfl rfl rfl ⟨hreads, hcount, earlier, request, hruns, hstate,
        before ++ [Action.push size], ?_, ?_⟩
      · rw [hhandle, List.append_assoc]
        rfl
      · rw [writes_append]
        exact hwritten.trans (congrArg _ (List.append_nil _).symm)
  | @after state hpc =>
      rw [Child.Holds, hpc] at hplace
      obtain ⟨hreads, hcount, earlier, request, hruns, hstate, before, hhandle, hwritten⟩ := hplace
      rw [List.append_nil] at hhandle
      have hrequests : c.requests = earlier.map Prod.fst ++ [request] := by
        rw [Child.requests, hruns, List.map_append]
        rfl
      have hnext : s.next request c.frame.state = some state := by rw [next, hhandle]
      refine h.move rfl rfl rfl ⟨⟨hreads, ?_, ?_⟩, hcount⟩
      · change s.stateAfter c.requests s.initial = some state
        rw [hrequests, stateAfter_snoc, hstate, Option.bind_some, hnext]
      · change c.written = s.responses c.requests s.initial
        rw [hrequests, responses_snoc hstate, hwritten, hhandle]
  | clientAbort hpc => exact h.move rfl rfl rfl trivial
  | operatorAbort hpc => exact h.move rfl rfl rfl trivial
  | stepTail hpc =>
      rw [Child.Holds, hpc] at hplace
      obtain ⟨hbetween, hcount⟩ := hplace
      exact h.move rfl rfl rfl
        ⟨⟨hbetween.reads, hbetween.state, hbetween.written⟩, hcount, rfl⟩
  | close hpc => exact h.move rfl rfl rfl trivial
  | killed => exact h.move rfl rfl rfl trivial

end children

/-! ## The parent -/

/-- A step of a child is not one of another connection. -/
lemma ChildStep.same {c c' : Child σ} (h : ChildStep s c c') :
    c'.connection = c.connection ∧ c'.frame.clientFd = c.frame.clientFd := by
  cases h <;> exact ⟨rfl, rfl⟩

variable (s) (stale : Frame σ)

/-- What holds of the parent and its children. -/
structure World.Sound (w : World σ) : Prop where
  children : ∀ c ∈ w.children, c.Sound s
  frame : w.parent.frame = { startFrame s stale with clientFd := w.parent.frame.clientFd }
  rsp : w.parent.rsp = -s.frameSize
  /-- all descriptors are closed, or all but the one in the slot -/
  closed : w.parent.pc = .accept ∧ w.parent.accepted = w.parent.closed ∨
    w.parent.pc ≠ .accept ∧ w.parent.accepted = w.parent.closed ++ [w.parent.frame.clientFd]
  descriptors : ∀ c ∈ w.children, w.parent.accepted[c.connection]? = some c.frame.clientFd
  once : (w.children.map Child.connection).Nodup
  /-- the last connection has no process before the fork -/
  fresh : w.parent.pc = .fork → ∀ c ∈ w.children, c.connection + 1 < w.parent.accepted.length

variable {s stale}

section world

variable {w w' : World σ}

/-- The child of a fork has the initial state, and nothing of another connection. -/
lemma sound_forked {p : Parent σ} (hstate : p.frame.state = s.initial)
    (hrsp : p.rsp = -s.frameSize) : p.forked.Sound s where
  place := ⟨⟨rfl, congrArg some hstate.symm, rfl⟩, rfl, hrsp⟩
  bounded := Nat.zero_le _
  sizes := fun _ h => by cases h
  finds := fun _ _ _ h => by cases h
  answers := List.nil_prefix

/-- What one step of the parent keeps. -/
lemma ParentStep.sound (h : w.Sound s stale) (hstep : ParentStep w w') : w'.Sound s stale := by
  have hframe := h.frame
  cases hstep with
  | accept hpc fd =>
      rcases h.closed with ⟨-, hclosed⟩ | ⟨hne, -⟩
      · refine ⟨h.children, ?_, h.rsp, .inr ⟨by simp, ?_⟩, fun c hc => ?_, h.once, fun _ c hc => ?_⟩
        · exact congrArg (fun f : Frame σ => { f with clientFd := fd }) hframe
        · exact congrArg (· ++ [fd]) hclosed
        · have hget := h.descriptors c hc
          exact (List.getElem?_append_left (List.getElem?_eq_some_iff.mp hget).1).trans hget
        · have hlt := (List.getElem?_eq_some_iff.mp (h.descriptors c hc)).1
          rw [List.length_append]
          exact Nat.succ_lt_succ hlt
      · exact absurd hpc hne
  | @fork p cs hpc =>
      rcases h.closed with ⟨haccept, -⟩ | ⟨-, hclosed⟩
      · cases hpc.symm.trans haccept
      have hstate : p.frame.state = s.initial := congrArg Frame.state hframe
      have hclosed : p.accepted = p.closed ++ [p.frame.clientFd] := hclosed
      have hconnection : p.forked.connection = p.closed.length := by
        rw [Parent.forked, hclosed, List.length_append]
        rfl
      refine ⟨fun c hc => ?_, hframe, h.rsp, .inr ⟨by simp, hclosed⟩, fun c hc => ?_, ?_,
        fun hfork => by cases hfork⟩
      · rcases List.mem_append.mp hc with hc | hc
        · exact h.children c hc
        · cases List.mem_singleton.mp hc
          exact sound_forked hstate h.rsp
      · rcases List.mem_append.mp hc with hc | hc
        · exact h.descriptors c hc
        · cases List.mem_singleton.mp hc
          change p.accepted[p.forked.connection]? = some p.frame.clientFd
          rw [hconnection, hclosed]
          exact List.getElem?_concat_length
      · rw [List.map_append]
        refine List.Nodup.append h.once (List.nodup_singleton _) fun k hk hk' => ?_
        obtain ⟨c, hc, rfl⟩ := List.mem_map.mp hk
        have heq : c.connection = p.closed.length := (List.mem_singleton.mp hk').trans hconnection
        have hlt : c.connection + 1 < p.accepted.length := h.fresh hpc c hc
        rw [hclosed, List.length_append, List.length_singleton] at hlt
        omega
  | forkFails hpc =>
      rcases h.closed with ⟨haccept, -⟩ | ⟨-, hclosed⟩
      · cases hpc.symm.trans haccept
      exact ⟨h.children, hframe, h.rsp, .inr ⟨by simp, hclosed⟩, h.descriptors, h.once,
        fun hfork => by cases hfork⟩
  | forkError hpc =>
      rcases h.closed with ⟨haccept, -⟩ | ⟨-, hclosed⟩
      · cases hpc.symm.trans haccept
      exact ⟨h.children, hframe, h.rsp, .inr ⟨by simp, hclosed⟩, h.descriptors, h.once,
        fun hfork => by cases hfork⟩
  | close hpc =>
      rcases h.closed with ⟨haccept, -⟩ | ⟨-, hclosed⟩
      · cases hpc.symm.trans haccept
      exact ⟨h.children, hframe, h.rsp, .inl ⟨rfl, hclosed⟩, h.descriptors, h.once,
        fun hfork => by cases hfork⟩

/-- What one step keeps. -/
lemma Step.sound (h : w.Sound s stale) (hstep : Step s w w') : w'.Sound s stale := by
  cases hstep with
  | parent hparent => exact hparent.sound h
  | @child p before c c' after hchild =>
      obtain ⟨hconnection, hfd⟩ := hchild.same
      have hmem : ∀ {d}, d ∈ before ++ c' :: after → d = c' ∨ d ∈ before ++ c :: after := by
        intro d hd
        simp only [List.mem_append, List.mem_cons] at hd ⊢
        tauto
      have hc : c ∈ before ++ c :: after := List.mem_append_right _ List.mem_cons_self
      refine ⟨fun d hd => ?_, h.frame, h.rsp, h.closed, fun d hd => ?_, ?_, fun hfork d hd => ?_⟩
      · rcases hmem hd with rfl | hd
        · exact hchild.sound (h.children c hc)
        · exact h.children d hd
      · rcases hmem hd with rfl | hd
        · rw [hconnection, hfd]
          exact h.descriptors c hc
        · exact h.descriptors d hd
      · have honce := h.once
        simp only [List.map_append, List.map_cons] at honce ⊢
        rw [hconnection]
        exact honce
      · rcases hmem hd with rfl | hd
        · rw [hconnection]
          exact h.fresh hfork c hc
        · exact h.fresh hfork d hd

/-- What holds in every run. -/
lemma reachable_sound (h : (stepService s stale).Reachable w) : w.Sound s stale := by
  refine h.invariant (I := World.Sound s stale) (fun w hw => ?_) fun _ _ _ hsound hstep =>
    Step.sound hsound hstep
  cases hw
  exact ⟨fun _ hc => absurd hc List.not_mem_nil, rfl, rfl, .inl ⟨rfl, rfl⟩,
    fun _ hc => absurd hc List.not_mem_nil, List.nodup_nil, fun hfork => by cases hfork⟩

/-- A system call of the parent brings it nearer to the next `accept`. -/
lemma ParentStep.distance_lt (hstep : ParentStep w w') (hpc : w.parent.pc ≠ .accept) :
    w'.parent.pc.distance < w.parent.pc.distance := by
  have hlt : ∀ {a b pc : ParentPc}, pc = b → a.distance < b.distance → a.distance < pc.distance :=
    fun h hab => h ▸ hab
  cases hstep with
  | accept h => exact absurd h hpc
  | fork h => exact hlt (a := .close) h (by decide)
  | forkFails h => exact hlt (a := .forkError) h (by decide)
  | forkError h => exact hlt (a := .close) h (by decide)
  | close h => exact hlt (a := .accept) h (by decide)

/-- The parent has no last system call. -/
lemma exists_parentStep (p : Parent σ) (cs : List (Child σ)) : ∃ w, ParentStep ⟨p, cs⟩ w := by
  cases hpc : p.pc with
  | accept => exact ⟨_, .accept hpc 0⟩
  | fork => exact ⟨_, .fork hpc⟩
  | forkError => exact ⟨_, .forkError hpc⟩
  | close => exact ⟨_, .close hpc⟩

end world

/-! ## Conversations -/

variable (s) (stale)

/-- What a connection gets: bounded work, runs on its own reads and its own state, and the answers
that its own requests give; the stack is the same at the top of every step. -/
structure Child.Served (c : Child σ) : Prop where
  runs : c.runs.length ≤ s.maxSteps
  reads : c.reads.length ≤ s.maxSteps
  sizes : ∀ bytes ∈ c.reads, bytes.length ≤ s.maxRequest
  finds : ∀ (i : Nat) (request : List UInt8) (state : σ), c.runs[i]? = some (request, state) →
    c.reads[i]? = some request ∧ s.stateAfter (c.requests.take i) s.initial = some state
  answers : c.written <+: s.responses c.requests s.initial
  stepTop : c.pc = .stepTop → c.rsp = -s.frameSize ∧ c.requests = c.reads ∧
    c.written = s.responses c.reads s.initial

/-- What is left to the parent: its frame but for the descriptor, every accepted descriptor closed
once, and the way back to `accept`. -/
structure Parent.Serves (p : Parent σ) (children : List (Child σ)) : Prop where
  frame : p.frame = { startFrame s stale with clientFd := p.frame.clientFd }
  rsp : p.rsp = -s.frameSize
  closed : p.pc = .accept ∧ p.accepted = p.closed ∨
    p.pc ≠ .accept ∧ p.accepted = p.closed ++ [p.frame.clientFd]
  next : ∃ w, ParentStep ⟨p, children⟩ w
  returns : p.pc ≠ .accept →
    ∀ w, ParentStep ⟨p, children⟩ w → w.parent.pc.distance < p.pc.distance

variable {s stale}

lemma Child.Sound.served {c : Child σ} (h : c.Sound s) : c.Served s where
  runs := Nat.le_trans h.runs_le h.bounded
  reads := h.bounded
  sizes := h.sizes
  finds := h.finds
  answers := h.answers
  stepTop := by
    intro hpc
    have hplace := h.place
    rw [Child.Holds, hpc] at hplace
    obtain ⟨hbetween, -, hrsp⟩ := hplace
    refine ⟨hrsp, hbetween.reads.symm, ?_⟩
    rw [hbetween.reads]
    exact hbetween.written

/-- In every run of a service with several steps, whatever the order of connections, forks, reads,
aborts and signals: every connection has at most one process, which is served as if it were alone,
and the parent is left as it was and returns to `accept`. -/
theorem conversations_isolated {w : World σ} (h : (stepService s stale).Reachable w) :
    (∀ c ∈ w.children, c.Served s ∧ w.parent.accepted[c.connection]? = some c.frame.clientFd) ∧
      (w.children.map Child.connection).Nodup ∧ w.parent.Serves s stale w.children := by
  have hsound := reachable_sound h
  refine ⟨fun c hc => ⟨(hsound.children c hc).served, hsound.descriptors c hc⟩, hsound.once,
    hsound.frame, hsound.rsp, hsound.closed, exists_parentStep _ _, fun hpc w' hstep => ?_⟩
  exact hstep.distance_lt hpc

/-- A step of the first child. -/
lemma Step.first {p : Parent σ} {c c' : Child σ} {cs : List (Child σ)} (h : ChildStep s c c') :
    Step s ⟨p, c :: cs⟩ ⟨p, c' :: cs⟩ :=
  @Step.child σ s p [] c c' cs h

/-- A service that answers with the number of the step. -/
def counter : StepService Nat where
  maxSteps := 2
  steps := by decide
  maxRequest := 4
  frameSize := 76
  initial := 0
  handle _ n := ([.push 16, .write [UInt8.ofNat n]], .after (n + 1))

theorem conversations_isolated_counter : ∃ w : World Nat,
    (stepService counter ⟨0, 0, 0, 0, [7, 7, 7, 7]⟩).Reachable w ∧
      (∃ c ∈ w.children, c.written = [[0]] ∧ c.frame.state = 1 ∧ c.Served counter) := by
  have h₀ := System.Reachable.init (s := stepService counter ⟨0, 0, 0, 0, [7, 7, 7, 7]⟩) rfl
  have h₁ := h₀.step (.parent (.accept rfl 5))
  have h₂ := h₁.step (.parent (.fork rfl))
  have h₃ := h₂.step (.first (.setTimeout rfl))
  have h₄ := h₃.step (.first (.clearStep rfl))
  have h₅ := h₄.step (.first (.step rfl (by decide)))
  have h₆ := h₅.step (.first (.read rfl [0x61] (by decide) (by decide)))
  have h₇ := h₆.step (.first (.push rfl))
  have h₈ := h₇.step (.first (.write rfl))
  have h₉ := h₈.step (.first (.after rfl))
  exact ⟨_, h₉, _, List.mem_cons_self, rfl, rfl,
    ((conversations_isolated h₉).1 _ List.mem_cons_self).1⟩

end Verbosec.Native.StepLoop
