import Fluxion.Options
import Fluxion.Tape.Replay

/-!
Function definitions: an evaluator with the patterns of its inputs and outputs. The evaluator is a tape
sorted from expressions, an opaque callable, or derivatives of another function taken numerically.
-/
set_option autoImplicit false

namespace Fluxion

/-- Why a callable has no answer: it gave a message, or a precondition was broken inside. -/
inductive Failure where
  | message (text : String)
  | violation (cause : Violation)
  deriving DecidableEq, Repr

/-- As a fault of the function that the callable evaluates. -/
def Failure.fault (function : String) : Failure → Fault
  | message text => .external function text
  | violation cause => .violation cause

/-- An opaque numeric evaluator, which answers the entries of all outputs or fails. It may know the
patterns of its Jacobian blocks, over entries, and may compute their values itself. -/
structure Callable (K : Type) where
  inputs : Array Pattern
  outputs : Array Pattern
  evaluate : Block K → Except Failure (Block K)
  jacPattern : Nat → Nat → Option Pattern
  jacobian : Nat → Nat → Option (Block K → Except Failure (Array K))

/-- What all definitions have. Two functions share a definition if its number is the same. -/
structure Signature (K : Type) where
  uid : Nat
  options : Options K
  inputs : Array Pattern
  outputs : Array Pattern

/-- Seeds of sweeps, one for each color: of input entries, or of output entries. -/
inductive Partition where
  | forward (seeds : Pattern)
  | adjoint (seeds : Pattern)
  deriving DecidableEq, Repr

namespace Partition

def direction : Partition → Direction
  | forward _ => .forward
  | adjoint _ => .reverse

def seeds : Partition → Pattern
  | forward s | adjoint s => s

/-- Number of sweeps. -/
def colors (p : Partition) : Nat := p.seeds.nrow

end Partition

/-- The first output of a derivative function: a Jacobian block with a row for each output entry, or the
gradient of a scalar output on the pattern of the input. -/
inductive Layout where
  | jacobian | gradient
  deriving DecidableEq, Repr

/-- Where the values of a numeric Jacobian come from: sweeps of the parent, or its callable. -/
inductive Source where
  | sweeps (p : Partition)
  | callable
  deriving DecidableEq, Repr

/-- A Jacobian block of a parent function; the pattern is over entries. -/
structure JacobianBlock where
  iind : Nat
  oind : Nat
  layout : Layout
  pattern : Pattern
  source : Source

inductive Definition (K : Type) where
  | expressions (sig : Signature K) (tape : Tape K) (inputs : Array (Matrix (Expr K)))
  | external (sig : Signature K) (callable : Callable K)
  | jacobian (sig : Signature K) (block : JacobianBlock) (parent : Definition K)
  | derivative (sig : Signature K) (forward adjoint : Nat) (parent : Definition K)

namespace Signature

variable {K : Type}

def name (s : Signature K) : String := s.options.name

def inputSizes (s : Signature K) : Array Nat := s.inputs.map Pattern.nnz

def outputSizes (s : Signature K) : Array Nat := s.outputs.map Pattern.nnz

def outOfRange (s : Signature K) (place : Place) (index available : Nat) : Fault :=
  .indexOutOfRange place index s.name available

def checkInput (s : Signature K) (i : Nat) : Except Fault Pattern :=
  match s.inputs[i]? with
  | some p => return p
  | none => throw (s.outOfRange .input i s.inputs.size)

def checkOutput (s : Signature K) (i : Nat) : Except Fault Pattern :=
  match s.outputs[i]? with
  | some p => return p
  | none => throw (s.outOfRange .output i s.outputs.size)

def checkLength (s : Signature K) (place : Place) (index expected got : Nat) : Except Fault Unit :=
  if expected = got then return () else throw (.length place index s.name expected got)

def checkCount (s : Signature K) (got : Nat) : Except Fault Unit :=
  if got = s.inputs.size then return () else throw (.inputCount s.name s.inputs.size got)

/-- A derivative that needs an output of one element. -/
def checkScalar (s : Signature K) (what : String) (i : Nat) : Except Fault Unit := do
  let p ← s.checkOutput i
  if p.isScalar then return () else throw (.nonScalarOutput what i p.nrow p.ncol)

/-- Options of a function derived from this one. -/
def derivedOptions (s : Signature K) (label : String) : Options K :=
  s.options.named s!"{label}_{s.name}"

end Signature

namespace Definition

variable {K : Type}

def sig : Definition K → Signature K
  | expressions s _ _ | external s _ | jacobian s _ _ | derivative s _ _ _ => s

def uid (d : Definition K) : Nat := d.sig.uid

def tape? : Definition K → Option (Tape K)
  | expressions _ t _ => some t
  | _ => none

def callable? : Definition K → Option (Callable K)
  | external _ c => some c
  | _ => none

/-- Symbols that the outputs depend on and that are no inputs. -/
def freeSymbols (d : Definition K) : Array Symbol := (d.tape?.map (·.free)).getD #[]

/-- The definition and the ones it is evaluated through, down to one that stands on its own. -/
def lineage : Definition K → List (Signature K)
  | expressions s _ _ | external s _ => [s]
  | jacobian s _ p | derivative s _ _ p => s :: p.lineage

/-- The one that stands on its own. -/
def root : Definition K → Signature K
  | expressions s _ _ | external s _ => s
  | jacobian _ _ p | derivative _ _ _ p => p.root

def kind : Definition K → String
  | expressions _ _ _ => "sx"
  | external _ _ => "external"
  | jacobian _ _ _ => "numeric jacobian"
  | derivative _ _ _ _ => "numeric derivative"

/-- Sorts outputs into a tape over inputs. Free symbols are refused unless the options allow them. -/
def ofExpressions [Number K] (inputs outputs : Array (Matrix (Expr K))) (o : Options K) :
    Make (Definition K) := do
  let t ← Tape.ofGraph inputs outputs o.liveVariables o.sorting
  if !t.free.isEmpty && !o.allowFree then throw (t.unresolved o.name)
  let uid ← Fresh.next
  return .expressions ⟨uid, o, inputs.map (·.pattern), outputs.map (·.pattern)⟩ t inputs

/-- Wraps a callable. The step of its differences has to be positive. -/
def ofCallable [Number K] (c : Callable K) (o : Options K) : Make (Definition K) := do
  if !(Number.less Number.zero o.step && Number.finite o.step) then
    throw (.optionType "fd_step" .positiveFinite)
  let uid ← Fresh.next
  return .external ⟨uid, o, c.inputs, c.outputs⟩ c

end Definition

end Fluxion
