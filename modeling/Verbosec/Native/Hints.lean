import Verbosec.Interpreter.Value
import Verbosec.Lib.Dict
import Mathlib.Logic.Function.Basic

/-!
# The programs that a hint selects

A scalar rule becomes a program over the words of its command line, one record after the other.

* `fullRun` - the program of a rule without a hint.
* `parallelRun` - the program of a rule with `parallel`: it parses every word, forks, lets the child
  print the first half of the records and waits for it before it prints the second.
* `vectorizedRun` - the program of `field > N` with `vectorizable`: two elements to a comparison.
* `hintedRun` - the program that the dispatch selects.

A program is described by what it shows: the bytes it writes and how its process ends. `Entry.code`
stands for the instructions that `emit_eval_expr` emits for an expression, run in a frame; they give
the word left in `rax`, or the death of the process, and leave the stack pointer and the registers
of the loops where they were. The resources and the clock are read once before the first record, by
the same code in the two programs that have any; they stand inside `Entry.code`.

Source: `native.rs`, `emit_full_program`, `emit_record_loop_prologue`, `emit_record_loop_end`,
`emit_parallel_program`, `emit_vectorized_program`.
-/

namespace Verbosec.Native.Hinted

open Verbosec.Lib Verbosec.Interpreter

/-! ## What a run shows -/

/-- What stops a process before its records are done. -/
inductive Death where
  /-- `sys_exit(1)` of the shared abort tail. Source: `native.rs`, `emit_resource_abort_tail` -/
  | abort
  /-- a fault, with the number of the signal -/
  | signal (number : Nat)
  deriving DecidableEq, Repr

/-- How a process ended. -/
inductive End where
  /-- `sys_exit` with this status -/
  | exit (status : Nat)
  /-- the signal that ended it -/
  | signal (number : Nat)
  deriving DecidableEq, Repr

/-- The end that a death is. -/
def Death.ending : Death → End
  | .abort => .exit 1
  | .signal n => .signal n

/-- What a run shows. -/
structure Output where
  /-- the bytes written to descriptor 1 -/
  stdout : List UInt8
  /-- the bytes written to descriptor 2 -/
  stderr : List UInt8
  /-- how the process ended -/
  ending : End
  deriving DecidableEq, Repr

/-- A loop over records: what it printed, and the exit flag at its end, or what stopped it. -/
structure Half where
  /-- the bytes written to descriptor 1 -/
  stdout : List UInt8
  /-- the exit flag after the last record, or what stopped the loop before -/
  ended : Except Death Bool

/-- The loop with bytes that were written before it. -/
def Half.after (text : List UInt8) (h : Half) : Half := { h with stdout := text ++ h.stdout }

/-- The exit flag is the status of `sys_exit`. Source: `native.rs`, `emit_record_loop_end` -/
def Half.ending (h : Half) : End :=
  match h.ended with
  | .ok flag => .exit flag.toNat
  | .error d => d.ending

/-- A loop that is the whole run. -/
def Half.output (h : Half) : Output := ⟨h.stdout, [], h.ending⟩

/-- Too few words. Source: `native.rs`, `emit_argc_guard` -/
def notEnough : Output := ⟨[], utf8Bytes "error: not enough arguments\n", .exit 1⟩

/-! ## Words in and lines out -/

/-- A word of the command line: where it is and its bytes up to the terminating zero. -/
structure Word where
  /-- its address -/
  address : Int64
  /-- its bytes -/
  bytes : List UInt8

/-- The accumulator over the bytes of a word, whatever they are. -/
def digits (rax : Int64) (bytes : List UInt8) : Int64 :=
  bytes.foldl (fun rax b => rax * 10 + Int64.ofNat (b - 48).toNat) rax

/-- Source: `native.rs`, `emit_atoi_inline` -/
def atoi (bytes : List UInt8) : Int64 :=
  match bytes with
  | 45 :: rest => -(digits 0 rest)
  | _ => digits 0 bytes

/-- Source: `native.rs`, `emit_itoa_inline` -/
def itoa (rax : Int64) : List UInt8 := utf8Bytes (toString rax.toInt) ++ [10]

/-- The two arms of a boolean result: the line, and the sticky flag.
Source: `native.rs`, `emit_bool_arms` -/
def boolArms (zero flag : Bool) : List UInt8 × Bool :=
  if zero then (utf8Bytes "false\n", true) else (utf8Bytes "true\n", flag)

/-- What a program prints for a record: `test al, al` selects the arm of a boolean. -/
def printResult (isBool : Bool) (rax : Int64) (flag : Bool) : List UInt8 × Bool :=
  if isBool then boolArms (rax.toInt8 == 0) flag else (itoa rax, flag)

/-! ## A rule and the process that runs it -/

/-- The slots that the emitted code reads. -/
structure Frame where
  /-- the words, by name. Source: `binding_offsets` -/
  words : Dict String Int64 := []
  /-- the pointer and the length of the texts, by name. Source: `text_bindings` -/
  texts : Dict String (Int64 × Int64) := []

/-- A rule as the scalar programs compile it. A program without a hint refuses fields of other types
at compile time. -/
structure Entry where
  /-- the rule -/
  rule : Rule
  /-- the fields of its input concept -/
  fields : List Field
  /-- the fields of its context concept -/
  context : List Field := []
  /-- the code of an expression -/
  code : Expr → Frame → Except Death Int64
  /-- is the right side of a `let` a text? Source: `native.rs`, `let_rhs_is_text` -/
  isText : Expr → Bool := fun _ => false
  /-- the code of a text. Source: `native.rs`, `emit_text_produce_ptrlen` -/
  textCode : Expr → Frame → Except Death (Int64 × Int64) := fun _ _ => .ok (0, 0)
  /-- the input concept has a field -/
  nonempty : fields ≠ []
  /-- the fields are numbers or texts -/
  supported : ∀ f ∈ fields ++ context, f.ty = .number ∨ f.ty = .text

/-- Does the rule give a boolean? -/
def Entry.isBool (e : Entry) : Bool := e.rule.outputTy == .bool

/-- A process at its first instruction. -/
structure Process where
  /-- the words of `argv` -/
  args : List Word
  /-- what is above the null pointer that ends `argv` -/
  beyond : Nat → Option Word := fun _ => none
  /-- the words on the stack that the program has not written, by their distance from `rbp` -/
  stale : Int → Int64 := fun _ => 0

/-- `argv[i]`, or nothing for a null pointer. -/
def Process.word (p : Process) (i : Nat) : Option Word :=
  if i < p.args.length then p.args[i]? else if i = p.args.length then none else p.beyond i

/-! ## The program without a hint -/

/-- `cmp rax, min; jl`, `cmp rax, max; jg`. Source: `native.rs`, `emit_bounds_check` -/
def boundsCheck (range : Option (Int64 × Int64)) (rax : Int64) : Bool :=
  match range with
  | some (min, max) => !(rax < min) && !(max < rax)
  | none => true

/-- A zero within the declared length. Source: `native.rs`, `emit_text_bound_check` -/
def textBoundCheck (range : Option (Int64 × Int64)) (bytes : List UInt8) : Bool :=
  match range with
  | some (_, max) => decide ((bytes.length : Int) ≤ max.toInt)
  | none => true

/-- One field from `argv[r14]`; the numbers of a context are not checked. A null pointer is read by
`atoi` and by the scan of a bounded text, and stored for a text without a bound.
Source: `native.rs`, the field loops of `emit_record_loop_prologue` -/
def loadField (p : Process) (checked : Bool) (r14 : Nat) (f : Field) : Except Death Int64 :=
  match p.word r14 with
  | none => if f.ty = .text ∧ f.range = none then .ok 0 else .error (.signal 11)
  | some w =>
    if f.ty = .text then
      if textBoundCheck f.range w.bytes then .ok w.address else .error .abort
    else if !checked || boundsCheck f.range (atoi w.bytes) then .ok (atoi w.bytes)
    else .error .abort

/-- The fields from `argv[r14]` on. -/
def loadFields (p : Process) (checked : Bool) :
    Nat → List Field → Except Death (List (String × Int64))
  | _, [] => .ok []
  | r14, f :: fs => do
    let v ← loadField p checked r14 f
    let rest ← loadFields p checked (r14 + 1) fs
    return (f.name, v) :: rest

/-- The slots of named words, the last of a name in force. -/
def frameOf (loaded : List (String × Int64)) : Frame :=
  { words := loaded.foldl (fun d b => d.insert b.1 b.2) [] }

/-- The lets, each in its own slots. Source: `native.rs`, the end of `emit_record_loop_prologue` -/
def Entry.runLets (e : Entry) (bindings : List (String × Expr)) (frame : Frame) :
    Except Death Frame :=
  bindings.foldlM (fun frame b =>
    if e.isText b.2 then do
      let v ← e.textCode b.2 frame
      return { frame with texts := frame.texts.insert b.1 v }
    else do
      let v ← e.code b.2 frame
      return { frame with words := frame.words.insert b.1 v }) frame

/-- One turn of the loop up to the print: the fields, the slots of the context over them, the lets
and the logic. -/
def Entry.fullRecord (e : Entry) (p : Process) (context : List (String × Int64)) (r14 : Nat) :
    Except Death Int64 := do
  let loaded ← loadFields p true r14 e.fields
  let frame ← e.runLets e.rule.logic.bindings (frameOf (loaded ++ context))
  e.code e.rule.logic.value frame

/-- The record loop from `argv[r14]` on. Source: `native.rs`, `emit_full_program` -/
def Entry.fullLoop (e : Entry) (p : Process) (context : List (String × Int64)) (r14 : Nat)
    (flag : Bool) : Half :=
  if r14 < p.args.length then
    match e.fullRecord p context r14 with
    | .error d => ⟨[], .error d⟩
    | .ok rax =>
      let printed := printResult e.isBool rax flag
      (e.fullLoop p context (r14 + e.fields.length) printed.2).after printed.1
  else ⟨[], .ok flag⟩
termination_by p.args.length - r14
decreasing_by
  have := List.length_pos_of_ne_nil e.nonempty
  omega

/-- Source: `native.rs`, `emit_full_program` -/
def fullRun (e : Entry) (p : Process) : Output :=
  if p.args.length < e.context.length + e.fields.length + 1 then notEnough
  else
    match loadFields p false 1 e.context with
    | .error d => ⟨[], [], d.ending⟩
    | .ok context => (e.fullLoop p context (1 + e.context.length) false).output

/-! ## The program of two processes -/

/-- The parsed words: every word of the command line but the first. -/
def Process.parsed (p : Process) : List Int64 := p.args.tail.map fun w => atoi w.bytes

/-- The slot of a field. Source: `native.rs`, `field_offsets` -/
def offset (i : Nat) : Int := -((i : Int) + 1) * 8

/-- The value of one displacement or immediate byte, which the processor sign-extends. -/
def disp8 (z : Int) : Int := (z + 128) % 256 - 128

/-- Where a parsed word is: the array begins above the saved `rbp`. -/
def arrayWord (j : Int) : Int := 8 + 8 * j

/-- The stack after the words are parsed, by its distance from `rbp`. -/
def Process.memory (p : Process) (a : Int) : Int64 :=
  if 8 ≤ a then p.parsed.getD ((a - 8) / 8).toNat (p.stale a) else p.stale a

/-- The stores of a record: `[r15 + rax*8]` into the slot of the field, which the instruction names
with one byte. -/
def storeFields (memory : Int → Int64) (rax : Int) (i : Nat) : Nat → Int → Int64
  | 0 => memory
  | n + 1 =>
    storeFields (Function.update memory (disp8 (offset i)) (memory (arrayWord rax))) (rax + 1)
      (i + 1) n

/-- The index of a record's first word: `imul rax, rax, nfields` with one immediate byte. -/
def baseIndex (nfields rcx : Nat) : Int :=
  if nfields > 1 then rcx * disp8 nfields else rcx

/-- The slots of the fields. -/
def slotFrame (fields : List Field) (memory : Int → Int64) : Frame :=
  frameOf ((fields.mapIdx fun i f => (f.name, memory (offset i))))

/-- The loop over `count` records from record `rcx` on; the lets have no code here.
Source: `native.rs`, `emit_parallel_program`, the process loop -/
def Entry.processLoop (e : Entry) (memory : Int → Int64) (rcx : Nat) : Nat → Bool → Half
  | 0, flag => ⟨[], .ok flag⟩
  | count + 1, flag =>
    let memory := storeFields memory (baseIndex e.fields.length rcx) 0 e.fields.length
    match e.code e.rule.logic.value (slotFrame e.fields memory) with
    | .error d => ⟨[], .error d⟩
    | .ok rax =>
      let printed := printResult e.isBool rax flag
      (e.processLoop memory (rcx + 1) count printed.2).after printed.1

/-- What `fork` gives: a second process, or an error number, which is no zero either. -/
inductive Fork where
  /-- the process is two -/
  | forked
  /-- the process is still one, and `wait4` has no child to wait for -/
  | failed
  deriving DecidableEq, Repr

/-- The flag of the parent after `wait4`: any status but that of `sys_exit(0)` is a one. -/
def Entry.waitedFlag (e : Entry) (child : Half) : Bool :=
  e.isBool && decide (child.ending ≠ .exit 0)

/-- Source: `native.rs`, `emit_parallel_program` -/
def parallelRun (e : Entry) (p : Process) (fork : Fork) : Output :=
  if p.args.length < e.fields.length + 1 then notEnough
  else
    let records := p.parsed.length / e.fields.length
    let midpoint := records / 2
    match fork with
    | .forked =>
      let child := e.processLoop p.memory 0 midpoint false
      let parent := e.processLoop p.memory midpoint (records - midpoint) (e.waitedFlag child)
      (parent.after child.stdout).output
    | .failed => (e.processLoop p.memory midpoint (records - midpoint) false).output

/-! ## The program of two lanes -/

/-- The mask of `pcmpgtq` and `movmskpd`: bit 0 for the lower lane, bit 1 for the upper. -/
def laneMask (lower upper threshold : Int64) : UInt8 :=
  (if threshold < lower then 1 else 0) ||| (if threshold < upper then 2 else 0)

/-- The elements that are left over, one at a time. -/
def scalarLoop (threshold : Int64) : List Int64 → Bool → Half
  | [], flag => ⟨[], .ok flag⟩
  | a :: rest, flag =>
    let printed := boolArms (!decide (threshold < a)) flag
    (scalarLoop threshold rest printed.2).after printed.1

/-- Two elements to a turn while there are two. -/
def simdLoop (threshold : Int64) : List Int64 → Bool → Half
  | a :: b :: rest, flag =>
    let mask := laneMask a b threshold
    let lower := boolArms (mask &&& 1 == 0) flag
    let upper := boolArms (mask &&& 2 == 0) lower.2
    (simdLoop threshold rest upper.2).after (lower.1 ++ upper.1)
  | rest, flag => scalarLoop threshold rest flag

/-- Source: `native.rs`, `emit_vectorized_program` -/
def vectorizedRun (threshold : Int64) (p : Process) : Output :=
  if p.args.length < 2 then notEnough else (simdLoop threshold p.parsed false).output

/-! ## The dispatch -/

/-- The threshold of a rule that is `field > N`. Source: `native.rs`, `extract_simple_gt` -/
def extractSimpleGt (r : Rule) : Option Int64 :=
  match r.logic.value with
  | .binary .gt (.field (.ident name) _) (.number n) => if name = r.inputName then some n else none
  | _ => none

/-- The programs of a scalar rule. -/
inductive Driver where
  | vectorized (threshold : Int64)
  | parallel
  | full
  deriving DecidableEq, Repr

/-- Source: `native.rs`, the last branches of the dispatch -/
def Entry.driver (e : Entry) : Driver :=
  if (e.rule.hints.bind (·.vectorizable)).isSome && e.fields.length == 1 then
    match extractSimpleGt e.rule with
    | some threshold => .vectorized threshold
    | none => .full
  else if (e.rule.hints.bind (·.parallel)).isSome then .parallel
  else .full

/-- The run of the program that the dispatch selects. -/
def hintedRun (e : Entry) (p : Process) (fork : Fork) : Output :=
  match e.driver with
  | .vectorized threshold => vectorizedRun threshold p
  | .parallel => parallelRun e p fork
  | .full => fullRun e p

end Verbosec.Native.Hinted
