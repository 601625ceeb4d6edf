import Fluxion.Function.Definition
import Fluxion.Tape.Replay

/-!
Callables that replay a tape. From outside nothing but the numbers shows, so a function over one is as
opaque as any other.
-/
set_option autoImplicit false

namespace Fluxion

/-- A Jacobian that a callable computes itself: a tape for each block, or a message when it fails. -/
structure TapedJacobian (K : Type) where
  /-- A later tape counts instead of an earlier one for the same block. -/
  blocks : List ((Nat × Nat) × Tape K)
  failure? : Option String

structure Taped (K : Type) where
  inputs : Array Pattern
  outputs : Array Pattern
  tape : Tape K
  /-- The message of a callable that always fails. -/
  failure? : Option String
  /-- The message of one that fails when the first entry of its first input is negative. There has to be
  such an entry. -/
  negativeFailure? : Option String
  /-- The patterns of blocks that it reports, a later one instead of an earlier one. -/
  patterns : List ((Nat × Nat) × Pattern)
  jacobian? : Option (TapedJacobian K)

namespace Taped

variable {K : Type} [Number K]

/-- Sorts expressions for a callable that never fails and knows nothing of its Jacobian. -/
def ofExpressions (inputs outputs : Array (Matrix (Expr K))) : Except Fault (Taped K) := do
  return ⟨inputs.map (·.pattern), outputs.map (·.pattern),
    ← Tape.ofGraph inputs outputs true .depthFirst, none, none, [], none⟩

/-- A fault inside a callable shows as its message. -/
def failure : Fault → Failure
  | .violation cause => .violation cause
  | f => .message (f.message?.getD "")

def replay (t : Tape K) (x : Block K) : Except Failure (Block K) := (t.evalNumeric x).mapError failure

/-- Whether the first entry of the first input is negative. -/
def startsNegative (x : Block K) : Except Failure Bool :=
  match x.get? 0 0 with
  | some v => return Number.less v Number.zero
  | none => throw (.violation .slotOutside)

def evaluate (c : Taped K) (x : Block K) : Except Failure (Block K) :=
  match c.failure?, c.negativeFailure? with
  | some s, _ => throw (.message s)
  | none, some s => do if ← startsNegative x then throw (.message s) else replay c.tape x
  | none, none => replay c.tape x

def block (j : TapedJacobian K) (i o : Nat) (x : Block K) : Except Failure (Array K) :=
  match j.failure?, j.blocks.reverse.lookup (i,o) with
  | some s, _ => throw (.message s)
  | none, none => throw (.message s!"no block {i} {o}")
  | none, some t => return (← replay t x).getD 0 #[]

def callable (c : Taped K) : Callable K where
  inputs := c.inputs
  outputs := c.outputs
  evaluate := c.evaluate
  jacPattern i o := c.patterns.reverse.lookup (i,o)
  jacobian i o := c.jacobian?.map (block · i o)

end Taped

end Fluxion
