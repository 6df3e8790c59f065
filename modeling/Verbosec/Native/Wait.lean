import Mathlib.Tactic.Common

/-!
# Children and wait statuses

* `Child` - a forked child that its parent has not reaped, with its wait status once it has ended.
* `stopped` - the test that tells a stop from an end.
-/

namespace Verbosec.Native

/-- A forked child that has not been reaped. -/
structure Child where
  /-- its process number -/
  pid : Int
  /-- its wait status, once it has ended -/
  ended : Option Nat
  deriving DecidableEq, Repr

/-- Does a wait status say that the child was stopped? Source: `native/admission.rs`, `reap`, and
`native/pool/shutdown.rs`, `start` -/
def stopped (status : Nat) : Bool := status &&& 0x7f = 0x7f

end Verbosec.Native
