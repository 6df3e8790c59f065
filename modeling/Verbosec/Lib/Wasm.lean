import Mathlib.Algebra.Order.Ring.Int
import Mathlib.Data.Nat.Bitwise
import Mathlib.Data.Nat.Basic
import Mathlib.Logic.Function.Basic

/-!
# WebAssembly functions

* `Value`, `State` - numbers as unsigned numbers, locals, the bytes of the memory, the stack.
* `Op`, `Op.eval` - instructions without control.
* `Instr`, `Exec` - structured control: blocks, loops, branches.
* `Exec.unique` - an execution has one outcome.
* `Runs` - rules for what holds at the end of an execution; `Runs.loop` has an invariant and a
  variant.
* `decodeFunc` - a function from the bytes of its body.

The instructions are those of the integer part of WebAssembly that move bytes: 32-bit and 64-bit
arithmetic, byte loads and stores, and control with the empty block type.
-/

namespace Verbosec.Lib.Wasm

/-! ## States -/

/-- A number, as an unsigned number. -/
inductive Value where
  | i32 (n : Nat)
  | i64 (n : Nat)
  deriving DecidableEq, Repr

/-- The locals of a function, the bytes of the memory and its size, the operand stack. -/
structure State where
  locals : List Value
  memory : Nat → UInt8
  size : Nat
  stack : List Value

/-- Why an instruction has no next state. -/
inductive Fault where
  | trap
  | invalid
  deriving DecidableEq, Repr

/-- The signed reading of a number of `bits` bits. -/
def signed (bits n : Nat) : Int := if n < 2 ^ (bits - 1) then n else n - 2 ^ bits

/-- The number of `bits` bits that reads as `z`. -/
def unsigned (bits : Nat) (z : Int) : Nat := (z % 2 ^ bits).toNat

/-- The sum of two numbers of `bits` bits. -/
def addBits (bits a b : Nat) : Nat := (a + b) % 2 ^ bits

/-- The difference of two numbers of `bits` bits. -/
def subBits (bits a b : Nat) : Nat := (a + (2 ^ bits - b)) % 2 ^ bits

/-- The product of two numbers of `bits` bits. -/
def mulBits (bits a b : Nat) : Nat := a * b % 2 ^ bits

/-- The low bits of a number. -/
def lowBits (bits a : Nat) : Nat := a % 2 ^ bits

lemma addBits_eq {bits a b : Nat} (h : a + b < 2 ^ bits) : addBits bits a b = a + b :=
  Nat.mod_eq_of_lt h

lemma subBits_eq {bits a b : Nat} (h : b ≤ a) (ha : a < 2 ^ bits) : subBits bits a b = a - b := by
  rw [subBits, show a + (2 ^ bits - b) = a - b + 2 ^ bits by omega, Nat.add_mod_right,
    Nat.mod_eq_of_lt (by omega)]

lemma mulBits_eq {bits a b : Nat} (h : a * b < 2 ^ bits) : mulBits bits a b = a * b :=
  Nat.mod_eq_of_lt h

lemma lowBits_eq {bits a : Nat} (h : a < 2 ^ bits) : lowBits bits a = a := Nat.mod_eq_of_lt h

lemma signed_of_lt {bits n : Nat} (h : n < 2 ^ (bits - 1)) : signed bits n = n := if_pos h

/-- The number of a truth value. -/
def truth (b : Bool) : Value := .i32 b.toNat

namespace State

/-- A value on the stack. -/
def push (s : State) (v : Value) : Except Fault State := .ok { s with stack := v :: s.stack }

/-- A 32-bit operand. -/
def unary32 (f : Nat → Value) (s : State) : Except Fault State :=
  match s.stack with
  | .i32 a :: rest => .ok { s with stack := f a :: rest }
  | _ => .error .invalid

/-- A 64-bit operand. -/
def unary64 (f : Nat → Value) (s : State) : Except Fault State :=
  match s.stack with
  | .i64 a :: rest => .ok { s with stack := f a :: rest }
  | _ => .error .invalid

/-- Two 32-bit operands. -/
def binary32 (f : Nat → Nat → Value) (s : State) : Except Fault State :=
  match s.stack with
  | .i32 b :: .i32 a :: rest => .ok { s with stack := f a b :: rest }
  | _ => .error .invalid

/-- Two 64-bit operands. -/
def binary64 (f : Nat → Nat → Value) (s : State) : Except Fault State :=
  match s.stack with
  | .i64 b :: .i64 a :: rest => .ok { s with stack := f a b :: rest }
  | _ => .error .invalid

end State

/-! ## Instructions without control -/

/-- An instruction without control. -/
inductive Op where
  | i32Const (n : Nat)
  | i64Const (n : Nat)
  | localGet (i : Nat)
  | localSet (i : Nat)
  | i32Load8U (offset : Nat)
  | i32Store8 (offset : Nat)
  | i32Eqz
  | i32Eq
  | i32LtS
  | i32GtS
  | i32GeS
  | i32Add
  | i32Sub
  | i32And
  | i32ShrU
  | i32WrapI64
  | i64Eqz
  | i64Ne
  | i64LtS
  | i64Add
  | i64Sub
  | i64Mul
  | i64DivU
  | i64RemU
  | i64ExtendI32S
  | select
  deriving DecidableEq, Repr

/-- The state after an instruction. -/
def Op.eval (o : Op) (s : State) : Except Fault State :=
  match o with
  | .i32Const n => s.push (.i32 n)
  | .i64Const n => s.push (.i64 n)
  | .localGet i =>
      match s.locals[i]? with
      | some v => s.push v
      | none => .error .invalid
  | .localSet i =>
      match s.stack with
      | v :: rest =>
          if i < s.locals.length then .ok { s with locals := s.locals.set i v, stack := rest }
          else .error .invalid
      | [] => .error .invalid
  | .i32Load8U offset =>
      match s.stack with
      | .i32 a :: rest =>
          if a + offset < s.size then
            .ok { s with stack := .i32 (s.memory (a + offset)).toNat :: rest }
          else .error .trap
      | _ => .error .invalid
  | .i32Store8 offset =>
      match s.stack with
      | .i32 v :: .i32 a :: rest =>
          if a + offset < s.size then
            .ok { s with
              memory := Function.update s.memory (a + offset) (UInt8.ofNat v), stack := rest }
          else .error .trap
      | _ => .error .invalid
  | .i32Eqz => s.unary32 fun a => truth (a = 0)
  | .i32Eq => s.binary32 fun a b => truth (a = b)
  | .i32LtS => s.binary32 fun a b => truth (signed 32 a < signed 32 b)
  | .i32GtS => s.binary32 fun a b => truth (signed 32 b < signed 32 a)
  | .i32GeS => s.binary32 fun a b => truth (signed 32 b ≤ signed 32 a)
  | .i32Add => s.binary32 fun a b => .i32 (addBits 32 a b)
  | .i32Sub => s.binary32 fun a b => .i32 (subBits 32 a b)
  | .i32And => s.binary32 fun a b => .i32 (a &&& b)
  | .i32ShrU => s.binary32 fun a b => .i32 (a >>> (b % 32))
  | .i32WrapI64 => s.unary64 fun a => .i32 (lowBits 32 a)
  | .i64Eqz => s.unary64 fun a => truth (a = 0)
  | .i64Ne => s.binary64 fun a b => truth (a ≠ b)
  | .i64LtS => s.binary64 fun a b => truth (signed 64 a < signed 64 b)
  | .i64Add => s.binary64 fun a b => .i64 (addBits 64 a b)
  | .i64Sub => s.binary64 fun a b => .i64 (subBits 64 a b)
  | .i64Mul => s.binary64 fun a b => .i64 (mulBits 64 a b)
  | .i64DivU =>
      match s.stack with
      | .i64 b :: .i64 a :: rest =>
          if b = 0 then .error .trap else .ok { s with stack := .i64 (a / b) :: rest }
      | _ => .error .invalid
  | .i64RemU =>
      match s.stack with
      | .i64 b :: .i64 a :: rest =>
          if b = 0 then .error .trap else .ok { s with stack := .i64 (a % b) :: rest }
      | _ => .error .invalid
  | .i64ExtendI32S => s.unary32 fun a => .i64 (unsigned 64 (signed 32 a))
  | .select =>
      match s.stack with
      | .i32 c :: b :: a :: rest => .ok { s with stack := (if c ≠ 0 then a else b) :: rest }
      | _ => .error .invalid

/-! ## Control -/

/-- An instruction; the blocks take and leave nothing on the stack. -/
inductive Instr where
  | op (o : Op)
  | block (body : List Instr)
  | loop (body : List Instr)
  | ite (yes no : List Instr)
  | br (label : Nat)
  | brIf (label : Nat)
  | ret
  | unreachable

/-- How instructions end. -/
inductive Outcome where
  | next (s : State)
  | br (label : Nat) (s : State)
  | ret (s : State)
  | trap

/-- What an outcome of a block is outside of it; `none` where the block is left to what follows. -/
def Outcome.outer : Outcome → Option Outcome
  | .next _ => none
  | .br 0 _ => none
  | .br (n + 1) s => some (.br n s)
  | .ret s => some (.ret s)
  | .trap => some .trap

/-- The state after a block, with the stack from before it. -/
def Outcome.after (stack : List Value) : Outcome → Option State
  | .next s => some { s with stack }
  | .br 0 s => some { s with stack }
  | _ => none

/-- The execution of instructions. -/
inductive Exec : List Instr → State → Outcome → Prop where
  | nil {s} : Exec [] s (.next s)
  | op {o is s s' r} (h : o.eval s = .ok s') (k : Exec is s' r) : Exec (.op o :: is) s r
  | opTrap {o is s} (h : o.eval s = .error .trap) : Exec (.op o :: is) s .trap
  | block {body is s r s' r'} (h : Exec body { s with stack := [] } r)
      (ha : r.after s.stack = some s') (k : Exec is s' r') : Exec (.block body :: is) s r'
  | blockOut {body is s r r'} (h : Exec body { s with stack := [] } r) (ho : r.outer = some r') :
      Exec (.block body :: is) s r'
  | ite {yes no is s c rest r s' r'} (hc : s.stack = .i32 c :: rest)
      (h : Exec (if c ≠ 0 then yes else no) { s with stack := [] } r) (ha : r.after rest = some s')
      (k : Exec is s' r') : Exec (.ite yes no :: is) s r'
  | iteOut {yes no is s c rest r r'} (hc : s.stack = .i32 c :: rest)
      (h : Exec (if c ≠ 0 then yes else no) { s with stack := [] } r) (ho : r.outer = some r') :
      Exec (.ite yes no :: is) s r'
  | loop {body is s s' r} (h : Exec body { s with stack := [] } (.next s'))
      (k : Exec is { s' with stack := s.stack } r) : Exec (.loop body :: is) s r
  | loopAgain {body is s s' r} (h : Exec body { s with stack := [] } (.br 0 s'))
      (k : Exec (.loop body :: is) { s' with stack := s.stack } r) : Exec (.loop body :: is) s r
  | loopOut {body is s r r'} (h : Exec body { s with stack := [] } r) (ho : r.outer = some r') :
      Exec (.loop body :: is) s r'
  | br {n is s} : Exec (.br n :: is) s (.br n s)
  | brIf {n is s c rest} (hc : s.stack = .i32 c :: rest) (h : c ≠ 0) :
      Exec (.brIf n :: is) s (.br n { s with stack := rest })
  | brIfNot {n is s rest r} (hc : s.stack = .i32 0 :: rest) (k : Exec is { s with stack := rest } r) :
      Exec (.brIf n :: is) s r
  | ret {is s} : Exec (.ret :: is) s (.ret s)
  | unreachable {is s} : Exec (.unreachable :: is) s .trap

lemma Outcome.outer_of_after {r : Outcome} {stack : List Value} {s : State}
    (h : r.after stack = some s) : r.outer = none := by
  rcases r with s' | ⟨_ | n, s'⟩ | s' | _
  · rfl
  · rfl
  all_goals cases h

/-- An execution has one outcome. -/
theorem Exec.unique {is : List Instr} {s : State} {r r' : Outcome} (h : Exec is s r)
    (h' : Exec is s r') : r = r' := by
  induction h generalizing r' with
  | nil =>
      cases h'
      rfl
  | op ho _ ih =>
      cases h' with
      | op ho' k' =>
          rw [ho] at ho'
          cases ho'
          exact ih k'
      | opTrap ho' =>
          rw [ho] at ho'
          cases ho'
  | opTrap ho =>
      cases h' with
      | op ho' k' =>
          rw [ho] at ho'
          cases ho'
      | opTrap ho' => rfl
  | block hb ha _ ihb ih =>
      cases h' with
      | block hb' ha' k' =>
          obtain rfl := ihb hb'
          rw [ha] at ha'
          cases ha'
          exact ih k'
      | blockOut hb' ho' =>
          obtain rfl := ihb hb'
          rw [Outcome.outer_of_after ha] at ho'
          cases ho'
  | blockOut hb ho ihb =>
      cases h' with
      | block hb' ha' k' =>
          obtain rfl := ihb hb'
          rw [Outcome.outer_of_after ha'] at ho
          cases ho
      | blockOut hb' ho' =>
          obtain rfl := ihb hb'
          rw [ho] at ho'
          exact Option.some.inj ho'
  | ite hc hb ha _ ihb ih =>
      cases h' with
      | ite hc' hb' ha' k' =>
          rw [hc] at hc'
          cases hc'
          obtain rfl := ihb hb'
          rw [ha] at ha'
          cases ha'
          exact ih k'
      | iteOut hc' hb' ho' =>
          rw [hc] at hc'
          cases hc'
          obtain rfl := ihb hb'
          rw [Outcome.outer_of_after ha] at ho'
          cases ho'
  | iteOut hc hb ho ihb =>
      cases h' with
      | ite hc' hb' ha' k' =>
          rw [hc] at hc'
          cases hc'
          obtain rfl := ihb hb'
          rw [Outcome.outer_of_after ha'] at ho
          cases ho
      | iteOut hc' hb' ho' =>
          rw [hc] at hc'
          cases hc'
          obtain rfl := ihb hb'
          rw [ho] at ho'
          exact Option.some.inj ho'
  | loop hb _ ihb ih =>
      cases h' with
      | loop hb' k' =>
          cases ihb hb'
          exact ih k'
      | loopAgain hb' k' => cases ihb hb'
      | loopOut hb' ho' =>
          obtain rfl := ihb hb'
          cases ho'
  | loopAgain hb _ ihb ih =>
      cases h' with
      | loop hb' k' => cases ihb hb'
      | loopAgain hb' k' =>
          cases ihb hb'
          exact ih k'
      | loopOut hb' ho' =>
          obtain rfl := ihb hb'
          cases ho'
  | loopOut hb ho ihb =>
      cases h' with
      | loop hb' k' =>
          obtain rfl := ihb hb'
          cases ho
      | loopAgain hb' k' =>
          obtain rfl := ihb hb'
          cases ho
      | loopOut hb' ho' =>
          obtain rfl := ihb hb'
          rw [ho] at ho'
          exact Option.some.inj ho'
  | br =>
      cases h'
      rfl
  | brIf hc hne =>
      cases h' with
      | brIf hc' _ =>
          rw [hc] at hc'
          cases hc'
          rfl
      | brIfNot hc' _ =>
          rw [hc] at hc'
          cases hc'
          exact absurd rfl hne
  | brIfNot hc _ ih =>
      cases h' with
      | brIf hc' hne =>
          rw [hc] at hc'
          cases hc'
          exact absurd rfl hne
      | brIfNot hc' k' =>
          rw [hc] at hc'
          cases hc'
          exact ih k'
  | ret =>
      cases h'
      rfl
  | unreachable =>
      cases h'
      rfl

/-! ## Rules -/

/-- The instructions end, and the outcome satisfies `Q`. -/
def Runs (is : List Instr) (s : State) (Q : Outcome → Prop) : Prop := ∃ r, Exec is s r ∧ Q r

/-- What has to hold at the end of a block that is followed by `is`. -/
def Leaves (is : List Instr) (stack : List Value) (Q : Outcome → Prop) : Outcome → Prop
  | .next s => Runs is { s with stack } Q
  | .br 0 s => Runs is { s with stack } Q
  | .br (n + 1) s => Q (.br n s)
  | .ret s => Q (.ret s)
  | .trap => Q .trap

/-- What has to hold at the end of a round of a loop that is followed by `is`. -/
def Rounds (Inv : State → Prop) (μ : State → Nat) (bound : Nat) (is : List Instr)
    (stack : List Value) (Q : Outcome → Prop) : Outcome → Prop
  | .next s => Runs is { s with stack } Q
  | .br 0 s => Inv { s with stack := [] } ∧ μ { s with stack := [] } < bound
  | .br (n + 1) s => Q (.br n s)
  | .ret s => Q (.ret s)
  | .trap => Q .trap

section rules

variable {is body yes no : List Instr} {s s' : State} {Q : Outcome → Prop}

lemma Runs.nil (h : Q (.next s)) : Runs [] s Q := ⟨_, .nil, h⟩

lemma Runs.op {o : Op} (h : o.eval s = .ok s') (k : Runs is s' Q) : Runs (.op o :: is) s Q :=
  k.imp fun _ hr => ⟨.op h hr.1, hr.2⟩

lemma Runs.opTrap {o : Op} (h : o.eval s = .error .trap) (k : Q .trap) : Runs (.op o :: is) s Q :=
  ⟨_, .opTrap h, k⟩

lemma Runs.br {n : Nat} (h : Q (.br n s)) : Runs (.br n :: is) s Q := ⟨_, .br, h⟩

/-- A branch on a truth value. -/
lemma Runs.brIf {n : Nat} {b : Bool} {rest : List Value} (hc : s.stack = truth b :: rest)
    (hyes : b = true → Q (.br n { s with stack := rest }))
    (hno : b = false → Runs is { s with stack := rest } Q) : Runs (.brIf n :: is) s Q := by
  cases b with
  | true => exact ⟨_, .brIf hc Nat.one_ne_zero, hyes rfl⟩
  | false => exact (hno rfl).imp fun _ k => ⟨.brIfNot hc k.1, k.2⟩

lemma Runs.ret (h : Q (.ret s)) : Runs (.ret :: is) s Q := ⟨_, .ret, h⟩

lemma Runs.unreachable (h : Q .trap) : Runs (.unreachable :: is) s Q := ⟨_, .unreachable, h⟩

lemma Runs.mono {P : Outcome → Prop} (h : Runs is s P) (hPQ : ∀ r, P r → Q r) : Runs is s Q :=
  h.imp fun r hr => ⟨hr.1, hPQ r hr.2⟩

/-- A block, and what follows it. -/
lemma Runs.block (h : Runs body { s with stack := [] } (Leaves is s.stack Q)) :
    Runs (.block body :: is) s Q := by
  obtain ⟨r, hr, hq⟩ := h
  rcases r with s' | ⟨_ | n, s'⟩ | s' | _
  · exact hq.imp fun _ k => ⟨.block hr rfl k.1, k.2⟩
  · exact hq.imp fun _ k => ⟨.block hr rfl k.1, k.2⟩
  · exact ⟨_, .blockOut hr rfl, hq⟩
  · exact ⟨_, .blockOut hr rfl, hq⟩
  · exact ⟨_, .blockOut hr rfl, hq⟩

/-- A conditional, and what follows it. -/
lemma Runs.ite {c : Nat} {rest : List Value} (hc : s.stack = .i32 c :: rest)
    (h : Runs (if c ≠ 0 then yes else no) { s with stack := [] } (Leaves is rest Q)) :
    Runs (.ite yes no :: is) s Q := by
  obtain ⟨r, hr, hq⟩ := h
  rcases r with s' | ⟨_ | n, s'⟩ | s' | _
  · exact hq.imp fun _ k => ⟨.ite hc hr rfl k.1, k.2⟩
  · exact hq.imp fun _ k => ⟨.ite hc hr rfl k.1, k.2⟩
  · exact ⟨_, .iteOut hc hr rfl, hq⟩
  · exact ⟨_, .iteOut hc hr rfl, hq⟩
  · exact ⟨_, .iteOut hc hr rfl, hq⟩

/-- A conditional on a truth value. -/
lemma Runs.iteTruth {b : Bool} {rest : List Value} (hc : s.stack = truth b :: rest)
    (h : Runs (if b then yes else no) { s with stack := [] } (Leaves is rest Q)) :
    Runs (.ite yes no :: is) s Q := by
  refine Runs.ite hc ?_
  cases b <;> exact h

/-- A loop, and what follows it. Every round keeps the invariant and makes the variant smaller, or
leaves the loop. -/
lemma Runs.loop (Inv : State → Prop) (μ : State → Nat) (hinit : Inv { s with stack := [] })
    (hround : ∀ s', Inv s' → s'.stack = [] → Runs body s' (Rounds Inv μ (μ s') is s.stack Q)) :
    Runs (.loop body :: is) s Q := by
  suffices hall : ∀ n s', s'.stack = s.stack → Inv { s' with stack := [] } →
      μ { s' with stack := [] } = n → Runs (.loop body :: is) s' Q from hall _ s rfl hinit rfl
  intro n
  induction n using Nat.strong_induction_on with
  | _ n ih =>
      intro s' hstack hinv hn
      obtain ⟨r, hr, hq⟩ := hround _ hinv rfl
      rw [← hstack] at hq
      rcases r with t | ⟨_ | k, t⟩ | t | _
      · exact hq.imp fun _ k => ⟨.loop hr k.1, k.2⟩
      · obtain ⟨hinv', hlt⟩ := hq
        rw [hn] at hlt
        have hagain := ih _ hlt { t with stack := s'.stack } hstack hinv' rfl
        exact hagain.imp fun _ k => ⟨.loopAgain hr k.1, k.2⟩
      · exact ⟨_, .loopOut hr rfl, hq⟩
      · exact ⟨_, .loopOut hr rfl, hq⟩
      · exact ⟨_, .loopOut hr rfl, hq⟩

end rules

/-! ## Straight-line code -/

/-- Instructions without control, as instructions. -/
def ops (os : List Op) : List Instr := os.map .op

/-- The state after instructions without control. -/
def evalAll : List Op → State → Except Fault State
  | [], s => .ok s
  | o :: os, s => o.eval s >>= evalAll os

@[simp] lemma evalAll_nil (s : State) : evalAll [] s = .ok s := rfl

lemma evalAll_cons (o : Op) (os : List Op) (s : State) :
    evalAll (o :: os) s = o.eval s >>= evalAll os := rfl

/-- One instruction, and then the others. -/
lemma evalAll_step {o : Op} {os : List Op} {s s' : State} (h : o.eval s = .ok s') :
    evalAll (o :: os) s = evalAll os s' := by
  rw [evalAll_cons, h]
  rfl

section eval

variable {l : List Value} {m : Nat → UInt8} {z a b c i n k : Nat} {u v : Value} {st : List Value}
  {os : List Op}

@[simp] lemma evalAll_i32Const :
    evalAll (.i32Const n :: os) ⟨l, m, z, st⟩ = evalAll os ⟨l, m, z, .i32 n :: st⟩ :=
  evalAll_step (by rfl)

@[simp] lemma evalAll_i64Const :
    evalAll (.i64Const n :: os) ⟨l, m, z, st⟩ = evalAll os ⟨l, m, z, .i64 n :: st⟩ :=
  evalAll_step (by rfl)

@[simp] lemma evalAll_localGet (h : i < l.length) :
    evalAll (.localGet i :: os) ⟨l, m, z, st⟩ = evalAll os ⟨l, m, z, l[i] :: st⟩ :=
  evalAll_step (by simp only [Op.eval, List.getElem?_eq_getElem h, State.push])

@[simp] lemma evalAll_localSet (h : i < l.length) :
    evalAll (.localSet i :: os) ⟨l, m, z, v :: st⟩ = evalAll os ⟨l.set i v, m, z, st⟩ :=
  evalAll_step (if_pos h)

@[simp] lemma evalAll_i32Load8U (h : a + n < z) :
    evalAll (.i32Load8U n :: os) ⟨l, m, z, .i32 a :: st⟩ =
      evalAll os ⟨l, m, z, .i32 (m (a + n)).toNat :: st⟩ :=
  evalAll_step (if_pos h)

@[simp] lemma evalAll_i32Store8 (h : a + n < z) :
    evalAll (.i32Store8 n :: os) ⟨l, m, z, .i32 b :: .i32 a :: st⟩ =
      evalAll os ⟨l, Function.update m (a + n) (UInt8.ofNat b), z, st⟩ :=
  evalAll_step (if_pos h)

@[simp] lemma evalAll_i32Eqz :
    evalAll (.i32Eqz :: os) ⟨l, m, z, .i32 a :: st⟩ = evalAll os ⟨l, m, z, truth (a = 0) :: st⟩ :=
  evalAll_step (by rfl)

@[simp] lemma evalAll_i32Eq :
    evalAll (.i32Eq :: os) ⟨l, m, z, .i32 b :: .i32 a :: st⟩ =
      evalAll os ⟨l, m, z, truth (a = b) :: st⟩ :=
  evalAll_step (by rfl)

@[simp] lemma evalAll_i32LtS :
    evalAll (.i32LtS :: os) ⟨l, m, z, .i32 b :: .i32 a :: st⟩ =
      evalAll os ⟨l, m, z, truth (signed 32 a < signed 32 b) :: st⟩ :=
  evalAll_step (by rfl)

@[simp] lemma evalAll_i32GtS :
    evalAll (.i32GtS :: os) ⟨l, m, z, .i32 b :: .i32 a :: st⟩ =
      evalAll os ⟨l, m, z, truth (signed 32 b < signed 32 a) :: st⟩ :=
  evalAll_step (by rfl)

@[simp] lemma evalAll_i32GeS :
    evalAll (.i32GeS :: os) ⟨l, m, z, .i32 b :: .i32 a :: st⟩ =
      evalAll os ⟨l, m, z, truth (signed 32 b ≤ signed 32 a) :: st⟩ :=
  evalAll_step (by rfl)

@[simp] lemma evalAll_i32Add :
    evalAll (.i32Add :: os) ⟨l, m, z, .i32 b :: .i32 a :: st⟩ =
      evalAll os ⟨l, m, z, .i32 (addBits 32 a b) :: st⟩ :=
  evalAll_step (by rfl)

@[simp] lemma evalAll_i32Sub :
    evalAll (.i32Sub :: os) ⟨l, m, z, .i32 b :: .i32 a :: st⟩ =
      evalAll os ⟨l, m, z, .i32 (subBits 32 a b) :: st⟩ :=
  evalAll_step (by rfl)

@[simp] lemma evalAll_i32And :
    evalAll (.i32And :: os) ⟨l, m, z, .i32 b :: .i32 a :: st⟩ =
      evalAll os ⟨l, m, z, .i32 (a &&& b) :: st⟩ :=
  evalAll_step (by rfl)

@[simp] lemma evalAll_i32ShrU :
    evalAll (.i32ShrU :: os) ⟨l, m, z, .i32 b :: .i32 a :: st⟩ =
      evalAll os ⟨l, m, z, .i32 (a >>> (b % 32)) :: st⟩ :=
  evalAll_step (by rfl)

@[simp] lemma evalAll_i32WrapI64 :
    evalAll (.i32WrapI64 :: os) ⟨l, m, z, .i64 a :: st⟩ = evalAll os ⟨l, m, z, .i32 (lowBits 32 a) :: st⟩ :=
  evalAll_step (by rfl)

@[simp] lemma evalAll_i64Eqz :
    evalAll (.i64Eqz :: os) ⟨l, m, z, .i64 a :: st⟩ = evalAll os ⟨l, m, z, truth (a = 0) :: st⟩ :=
  evalAll_step (by rfl)

@[simp] lemma evalAll_i64Ne :
    evalAll (.i64Ne :: os) ⟨l, m, z, .i64 b :: .i64 a :: st⟩ =
      evalAll os ⟨l, m, z, truth (a ≠ b) :: st⟩ :=
  evalAll_step (by rfl)

@[simp] lemma evalAll_i64LtS :
    evalAll (.i64LtS :: os) ⟨l, m, z, .i64 b :: .i64 a :: st⟩ =
      evalAll os ⟨l, m, z, truth (signed 64 a < signed 64 b) :: st⟩ :=
  evalAll_step (by rfl)

@[simp] lemma evalAll_i64Add :
    evalAll (.i64Add :: os) ⟨l, m, z, .i64 b :: .i64 a :: st⟩ =
      evalAll os ⟨l, m, z, .i64 (addBits 64 a b) :: st⟩ :=
  evalAll_step (by rfl)

@[simp] lemma evalAll_i64Sub :
    evalAll (.i64Sub :: os) ⟨l, m, z, .i64 b :: .i64 a :: st⟩ =
      evalAll os ⟨l, m, z, .i64 (subBits 64 a b) :: st⟩ :=
  evalAll_step (by rfl)

@[simp] lemma evalAll_i64Mul :
    evalAll (.i64Mul :: os) ⟨l, m, z, .i64 b :: .i64 a :: st⟩ =
      evalAll os ⟨l, m, z, .i64 (mulBits 64 a b) :: st⟩ :=
  evalAll_step (by rfl)

@[simp] lemma evalAll_i64ExtendI32S :
    evalAll (.i64ExtendI32S :: os) ⟨l, m, z, .i32 a :: st⟩ =
      evalAll os ⟨l, m, z, .i64 (unsigned 64 (signed 32 a)) :: st⟩ :=
  evalAll_step (by rfl)

@[simp] lemma evalAll_i64DivU (h : b ≠ 0) :
    evalAll (.i64DivU :: os) ⟨l, m, z, .i64 b :: .i64 a :: st⟩ =
      evalAll os ⟨l, m, z, .i64 (a / b) :: st⟩ :=
  evalAll_step (if_neg h)

@[simp] lemma evalAll_i64RemU (h : b ≠ 0) :
    evalAll (.i64RemU :: os) ⟨l, m, z, .i64 b :: .i64 a :: st⟩ =
      evalAll os ⟨l, m, z, .i64 (a % b) :: st⟩ :=
  evalAll_step (if_neg h)

@[simp] lemma evalAll_select {t : Bool} :
    evalAll (.select :: os) ⟨l, m, z, truth t :: .i32 b :: .i32 a :: st⟩ =
      evalAll os ⟨l, m, z, .i32 (if t then a else b) :: st⟩ :=
  evalAll_step (by cases t <;> rfl)

end eval

/-- Instructions without control, and what follows them. -/
lemma Runs.ops {os : List Op} {is : List Instr} {s t : State} {Q : Outcome → Prop}
    (h : evalAll os s = .ok t) (k : Runs is t Q) : Runs (Wasm.ops os ++ is) s Q := by
  induction os generalizing s with
  | nil =>
      cases h
      exact k
  | cons o os ih =>
      rw [evalAll_cons] at h
      cases ho : o.eval s with
      | error e =>
          rw [ho] at h
          cases h
      | ok r =>
          rw [ho] at h
          exact .op ho (ih h)

/-! ## Functions -/

/-- A function: the initial values of its locals beside its parameters, and its body. -/
structure Func where
  locals : List Value
  body : List Instr

/-- The state in which a call starts. -/
def Func.start (f : Func) (args : List Value) (memory : Nat → UInt8) (size : Nat) : State :=
  ⟨args ++ f.locals, memory, size, []⟩

/-- A call ends with the results, the first one lowest on the stack, and with the memory. -/
def Func.Returns (f : Func) (args : List Value) (memory : Nat → UInt8) (size : Nat)
    (results : List Value) (memory' : Nat → UInt8) : Prop :=
  ∃ s, (Exec f.body (f.start args memory size) (.next s) ∨
      Exec f.body (f.start args memory size) (.ret s)) ∧
    s.stack.take results.length = results.reverse ∧ s.memory = memory'

/-- The instructions end without a trap and inside of the function, with a stack and a memory that
satisfy `P`. -/
def Ends (P : List Value → (Nat → UInt8) → Prop) : Outcome → Prop
  | .next s => P s.stack s.memory
  | .ret s => P s.stack s.memory
  | .br _ _ => False
  | .trap => False

/-- A body that ends is a call that returns. -/
lemma Func.returns_of_runs {f : Func} {args : List Value} {memory : Nat → UInt8} {size : Nat}
    {P : List Value → (Nat → UInt8) → Prop}
    (h : Runs f.body (f.start args memory size) (Ends P)) :
    ∃ results memory', f.Returns args memory size results.reverse memory' ∧ P results memory' := by
  obtain ⟨r, hr, hP⟩ := h
  cases r with
  | next s =>
      exact ⟨s.stack, s.memory, ⟨s, .inl hr, by rw [List.length_reverse, List.take_length,
        List.reverse_reverse], rfl⟩, hP⟩
  | ret s =>
      exact ⟨s.stack, s.memory, ⟨s, .inr hr, by rw [List.length_reverse, List.take_length,
        List.reverse_reverse], rfl⟩, hP⟩
  | br n s => exact hP.elim
  | trap => exact hP.elim

/-- A call traps. -/
def Func.Traps (f : Func) (args : List Value) (memory : Nat → UInt8) (size : Nat) : Prop :=
  Exec f.body (f.start args memory size) .trap

lemma Func.traps_of_runs {f : Func} {args : List Value} {memory : Nat → UInt8} {size : Nat}
    (h : Runs f.body (f.start args memory size) (· = .trap)) : f.Traps args memory size := by
  obtain ⟨_, hr, rfl⟩ := h
  exact hr

/-- A call that traps does not return. -/
lemma Func.Traps.not_returns {f : Func} {args : List Value} {memory memory' : Nat → UInt8}
    {size : Nat} {results : List Value} (h : f.Traps args memory size) :
    ¬ f.Returns args memory size results memory' := by
  rintro ⟨s, hs | hs, -⟩
  · cases h.unique hs
  · cases h.unique hs

/-- A call has one number of results' worth of results, and one memory. -/
lemma Func.Returns.unique {f : Func} {args : List Value} {memory m m' : Nat → UInt8} {size : Nat}
    {results results' : List Value} (h : f.Returns args memory size results m)
    (h' : f.Returns args memory size results' m') (hlen : results.length = results'.length) :
    results = results' ∧ m = m' := by
  obtain ⟨s, hs, hstack, rfl⟩ := h
  obtain ⟨s', hs', hstack', rfl⟩ := h'
  have hsame : s = s' := by
    rcases hs with hs | hs <;> rcases hs' with hs' | hs'
    · exact Outcome.next.inj (hs.unique hs')
    · cases hs.unique hs'
    · cases hs.unique hs'
    · exact Outcome.ret.inj (hs.unique hs')
  subst hsame
  rw [hlen] at hstack
  exact ⟨List.reverse_inj.mp (hstack.symm.trans hstack'), rfl⟩

/-! ## Bytes -/

/-- A signed number in LEB128. -/
def sleb : List UInt8 → Option (Int × List UInt8)
  | [] => none
  | b :: rest =>
      if b.toNat < 128 then some (if b.toNat < 64 then b.toNat else (b.toNat : Int) - 128, rest)
      else (sleb rest).map fun x => ((b.toNat : Int) - 128 + 128 * x.1, x.2)

/-- An unsigned number in LEB128. -/
def uleb : List UInt8 → Option (Nat × List UInt8)
  | [] => none
  | b :: rest =>
      if b.toNat < 128 then some (b.toNat, rest)
      else (uleb rest).map fun x => (b.toNat - 128 + 128 * x.1, x.2)

/-- An instruction without control from its bytes. -/
def decodeOp : List UInt8 → Option (Op × List UInt8)
  | [] => none
  | b :: rest =>
      match b.toNat with
      | 0x1B => some (.select, rest)
      | 0x20 => (uleb rest).map fun x => (.localGet x.1, x.2)
      | 0x21 => (uleb rest).map fun x => (.localSet x.1, x.2)
      | 0x2D => do
          let (_, rest) ← uleb rest
          let (offset, rest) ← uleb rest
          some (.i32Load8U offset, rest)
      | 0x3A => do
          let (_, rest) ← uleb rest
          let (offset, rest) ← uleb rest
          some (.i32Store8 offset, rest)
      | 0x41 => (sleb rest).map fun x => (.i32Const (unsigned 32 x.1), x.2)
      | 0x42 => (sleb rest).map fun x => (.i64Const (unsigned 64 x.1), x.2)
      | 0x45 => some (.i32Eqz, rest)
      | 0x46 => some (.i32Eq, rest)
      | 0x48 => some (.i32LtS, rest)
      | 0x4A => some (.i32GtS, rest)
      | 0x4E => some (.i32GeS, rest)
      | 0x50 => some (.i64Eqz, rest)
      | 0x52 => some (.i64Ne, rest)
      | 0x53 => some (.i64LtS, rest)
      | 0x6A => some (.i32Add, rest)
      | 0x6B => some (.i32Sub, rest)
      | 0x71 => some (.i32And, rest)
      | 0x76 => some (.i32ShrU, rest)
      | 0x7C => some (.i64Add, rest)
      | 0x7D => some (.i64Sub, rest)
      | 0x7E => some (.i64Mul, rest)
      | 0x80 => some (.i64DivU, rest)
      | 0x82 => some (.i64RemU, rest)
      | 0xA7 => some (.i32WrapI64, rest)
      | 0xAC => some (.i64ExtendI32S, rest)
      | _ => none

/-- How a sequence of instructions is closed. -/
inductive Close where
  | fin
  | els
  deriving DecidableEq

/-- Instructions up to the `end` or the `else` that closes them. -/
def decodeExpr : Nat → List UInt8 → Option (List Instr × Close × List UInt8)
  | 0, _ => none
  | _ + 1, [] => none
  | fuel + 1, b :: rest =>
      match b.toNat with
      | 0x0B => some ([], .fin, rest)
      | 0x05 => some ([], .els, rest)
      | 0x00 => do
          let (is, close, rest) ← decodeExpr fuel rest
          some (.unreachable :: is, close, rest)
      | 0x0F => do
          let (is, close, rest) ← decodeExpr fuel rest
          some (.ret :: is, close, rest)
      | 0x0C => do
          let (n, rest) ← uleb rest
          let (is, close, rest) ← decodeExpr fuel rest
          some (.br n :: is, close, rest)
      | 0x0D => do
          let (n, rest) ← uleb rest
          let (is, close, rest) ← decodeExpr fuel rest
          some (.brIf n :: is, close, rest)
      | 0x02 =>
          match rest with
          | 0x40 :: rest => do
              let (body, _, rest) ← decodeExpr fuel rest
              let (is, close, rest) ← decodeExpr fuel rest
              some (.block body :: is, close, rest)
          | _ => none
      | 0x03 =>
          match rest with
          | 0x40 :: rest => do
              let (body, _, rest) ← decodeExpr fuel rest
              let (is, close, rest) ← decodeExpr fuel rest
              some (.loop body :: is, close, rest)
          | _ => none
      | 0x04 =>
          match rest with
          | 0x40 :: rest => do
              let (yes, close, rest) ← decodeExpr fuel rest
              match close with
              | .fin => do
                  let (is, close, rest) ← decodeExpr fuel rest
                  some (.ite yes [] :: is, close, rest)
              | .els => do
                  let (no, _, rest) ← decodeExpr fuel rest
                  let (is, close, rest) ← decodeExpr fuel rest
                  some (.ite yes no :: is, close, rest)
          | _ => none
      | _ => do
          let (o, rest) ← decodeOp (b :: rest)
          let (is, close, rest) ← decodeExpr fuel rest
          some (.op o :: is, close, rest)

/-- The groups of locals of a function. -/
def decodeLocals : Nat → List UInt8 → Option (List Value × List UInt8)
  | 0, bytes => some ([], bytes)
  | n + 1, bytes => do
      let (count, bytes) ← uleb bytes
      match bytes with
      | 0x7F :: bytes => do
          let (vs, bytes) ← decodeLocals n bytes
          some (List.replicate count (.i32 0) ++ vs, bytes)
      | 0x7E :: bytes => do
          let (vs, bytes) ← decodeLocals n bytes
          some (List.replicate count (.i64 0) ++ vs, bytes)
      | _ => none

/-- A function from its bytes. -/
def decodeFunc (bytes : List UInt8) : Option Func := do
  let (groups, rest) ← uleb bytes
  let (locals, rest) ← decodeLocals groups rest
  let (body, close, rest) ← decodeExpr rest.length rest
  if close = .fin ∧ rest = [] then some ⟨locals, body⟩ else none

end Verbosec.Lib.Wasm
