import Mathlib.Data.Nat.Bitwise
import Verbosec.Syntax

/-!
# The arena of a concept group

* `arenaFieldOffset`, `computeArenaEntrySize`, `arenaSize` - where a node and its payload lie.
* `variantTag` - the tags of the variants.
* `construct` - a variant is built: its payload is pushed, the count is compared, the tag and the
  payload are stored.
* `dispatch` - a match on the index of a node: the tags of the arms are compared one by one, and the
  payload is loaded.
* `binderSlots`, `armSlots` - the slots of the binders of nested arms.

A sum of widths is a natural number here; `Accepted` has the bound under which it is the 32-bit sum
of the source.

Source: `native.rs`, the arms `VariantConstruct` and `MatchVariant` of `emit_eval_expr`, and the
layout of the arena in `emit_record_loop_prologue` and `emit_callable_into`.
-/

namespace Verbosec.Native.Arena

/-! ## Memory -/

/-- A 64-bit word, as the eight bytes that it is stored in. -/
abbrev Word := Fin 8 → UInt8

/-- The memory of the arena, from its base on. -/
abbrev Memory := Nat → UInt8

/-- A word is stored. -/
def storeWord (m : Memory) (a : Nat) (w : Word) : Memory := fun x =>
  if h : a ≤ x ∧ x < a + 8 then w ⟨x - a, by omega⟩ else m x

/-- A word is loaded. -/
def loadWord (m : Memory) (a : Nat) : Word := fun i => m (a + i)

/-- A byte is stored. -/
def storeByte (m : Memory) (a : Nat) (b : UInt8) : Memory := Function.update m a b

/-! ## Layout -/

/-- Source: `native.rs`, `arena_field_byte_width` -/
def arenaFieldByteWidth : Ty → Nat
  | .text => 16
  | _ => 8

/-- Source: `native.rs`, `arena_variant_payload_bytes` -/
def arenaVariantPayloadBytes (fields : List Field) : Nat :=
  (fields.map fun f => arenaFieldByteWidth f.ty).sum

/-- Source: `native.rs`, `arena_field_offset` -/
def arenaFieldOffset (fields : List Field) (i : Nat) : Nat :=
  8 + arenaVariantPayloadBytes (fields.take i)

section group

variable (g : ConceptGroup)

/-- The variants of a group, in declaration order. -/
def groupVariants : List Variant := g.concepts.flatMap (·.variants)

/-- One byte for the tag and the widest payload, rounded up to eight bytes.
Source: `native.rs`, `compute_arena_entry_size` -/
def computeArenaEntrySize : Nat :=
  let maxPayloadBytes :=
    ((groupVariants g).map fun v => arenaVariantPayloadBytes v.fields).foldr max 0
  (1 + maxPayloadBytes + 7) / 8 * 8

/-- The product of two 32-bit numbers. Source: `native.rs`, `emit_record_loop_prologue` -/
def arenaSize : Int := Int.bmod (g.maxNodes * computeArenaEntrySize g : Nat) (2 ^ 32)

/-- What is checked of a group: it has room for a node, its size is a 32-bit number, and the names
of its variants are distinct. Source: `verifier.rs`, `verify_concept_group` -/
structure Accepted : Prop where
  room : 0 < g.maxNodes
  size : g.maxNodes * computeArenaEntrySize g ≤ 2 ^ 31 - 1
  names : ((groupVariants g).map (·.name)).Nodup

/-- The tag of a variant, counted by a byte in declaration order. Source: `native.rs`, the maps
`variant_tags` -/
def variantTag (name : String) : Option UInt8 :=
  ((groupVariants g).findIdx? (·.name = name)).map UInt8.ofNat

/-- The payload of a variant. Source: `native.rs`, the maps `variant_fields` -/
def variantFields (name : String) : Option (List Field) :=
  ((groupVariants g).find? (·.name = name)).map (·.fields)

end group

/-! ## Construction -/

/-- The value of a payload field: a number or the index of a node, or the address and the length of
a text. -/
inductive Payload where
  | word (w : Word)
  | text (ptr len : Word)

/-- The value is of the type of the field. -/
def Payload.Fits : Payload → Field → Prop
  | .word _, f => f.ty ≠ .text
  | .text _ _, f => f.ty = .text

/-- The values of the fields are pushed in declaration order, the length of a text last. -/
def pushFields : List Payload → List Word → List Word
  | [], stack => stack
  | .word w :: ps, stack => pushFields ps (w :: stack)
  | .text ptr len :: ps, stack => pushFields ps (len :: ptr :: stack)

/-- The value of a field is popped and stored at `off`. -/
def popField (off : Nat) (f : Field) (s : Memory × List Word) : Memory × List Word :=
  match f.ty, s.2 with
  | .text, len :: ptr :: stack => (storeWord (storeWord s.1 (off + 8) len) off ptr, stack)
  | _, w :: stack => (storeWord s.1 off w, stack)
  | _, [] => s

/-- The values of the fields are popped in reverse order and stored, the first one at `off`. -/
def popFields : Nat → List Field → Memory × List Word → Memory × List Word
  | _, [], s => s
  | off, f :: fs, s => popField off f (popFields (off + arenaFieldByteWidth f.ty) fs s)

/-- The arena: its bytes, and the number of its nodes, which is stored after them. -/
structure State where
  mem : Memory
  nodeCount : Nat

section code

variable (g : ConceptGroup)

/-- A variant is built. The process exits when the arena is full; else the index of the node is the
count before. -/
def construct (name : String) (ps : List Payload) (s : State) : Except State (Nat × State) :=
  match variantTag g name, variantFields g name with
  | some tag, some fields =>
    let stack := pushFields ps []
    if g.maxNodes ≤ s.nodeCount then .error s
    else
      let entry := s.nodeCount * computeArenaEntrySize g
      let mem := storeByte s.mem entry tag
      let out := popFields (entry + 8) fields (mem, stack)
      .ok (s.nodeCount, { mem := out.1, nodeCount := s.nodeCount + 1 })
  | _, _ => .error s

/-- A variant and its payload. -/
structure Node where
  name : String
  payload : List Payload

/-- Variants are built one after the other. -/
def constructAll : List Node → State → Except State State
  | [], s => .ok s
  | n :: ns, s => do
    let (_, s) ← construct g n.name n.payload s
    constructAll ns s

/-! ## Matching -/

/-- `cmp rcx, imm8`: the loaded byte is extended with zeros, the immediate with its sign. -/
def tagEquals (loaded imm : UInt8) : Bool := (loaded.toNat : Int) = imm.toInt8.toInt

/-- A payload field is loaded. -/
def loadField (m : Memory) (off : Nat) (f : Field) : Payload :=
  match f.ty with
  | .text => .text (loadWord m off) (loadWord m (off + 8))
  | _ => .word (loadWord m off)

/-- The named binders of an arm and the values that are loaded for them. -/
def bindFields (m : Memory) : Nat → List (Option String) → List Field → List (String × Payload)
  | off, some x :: bs, f :: fs =>
    (x, loadField m off f) :: bindFields m (off + arenaFieldByteWidth f.ty) bs fs
  | off, none :: bs, f :: fs => bindFields m (off + arenaFieldByteWidth f.ty) bs fs
  | _, _, _ => []

/-- A match on the index of a node: the first arm whose tag is found and the values of its binders;
nothing where the process exits with status 2. -/
def dispatch (s : State) (idx : Nat) : List MatchArm → Option (MatchArm × List (String × Payload))
  | [] => none
  | arm :: arms => do
    let tag ← variantTag g arm.variantName
    let fields ← variantFields g arm.variantName
    let entry := idx * computeArenaEntrySize g
    if tagEquals (s.mem entry) tag then
      return (arm, bindFields s.mem (entry + 8) arm.binders fields)
    else dispatch s idx arms

end code

/-! ## The slots of binders -/

/-- The slots of the binders of an arm, from `cursor` down: two for a text, one else; a wildcard
leaves its slots unused. -/
def binderSlots : Int → List (Option String) → List Field → List Int
  | cursor, b :: bs, f :: fs =>
    let width : Int := arenaFieldByteWidth f.ty
    let slots := if f.ty = .text then [cursor, cursor - 8] else [cursor]
    (if b.isSome then slots else []) ++ binderSlots (cursor - width) bs fs
  | _, _, _ => []

/-- The slot of the first binder: below everything in the tables and below the floor. All slots lie
at or below -8. Source: `native.rs`, `lowest_offset` and `binder_base` -/
def binderBase (live : List Int) (floor : Int) : Int := live.foldr min (min (-8) floor) - 8

/-- The slots of the binders of arms nested in each other, the outermost first. -/
def armSlots (floor : Int) : List Int → List (List (Option String) × List Field) → List Int
  | _, [] => []
  | live, (bs, fs) :: arms =>
    let slots := binderSlots (binderBase live floor) bs fs
    slots ++ armSlots floor (live ++ slots) arms

/-- The bytes of the slots that nested arms can take. -/
def armBytes (arms : List (List (Option String) × List Field)) : Nat :=
  (arms.map fun arm => arenaVariantPayloadBytes (arm.2.take arm.1.length)).sum

end Verbosec.Native.Arena
