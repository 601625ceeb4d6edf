import Fluxion.Function.Definition

/-!
The state of an instance while it runs: its buffers and counters, those of the instances it runs through,
and a journal.
-/
set_option autoImplicit false

namespace Fluxion

/-- Evaluations, and forward and adjoint directions that were swept. -/
structure Stats where
  evaluations : Nat
  forward : Nat
  adjoint : Nat
  deriving DecidableEq, Repr

def Stats.zero : Stats := ⟨0, 0, 0⟩

structure Frame (K : Type) where
  buffers : Buffers K
  stats : Stats

/-- Warnings, and how often the callable at the root was asked for values and for a Jacobian. -/
structure Journal where
  warnings : Array String
  evaluations : Nat
  jacobians : Nat

def Journal.empty : Journal := ⟨#[], 0, 0⟩

/-- The frame of an instance; the frames of the instances of its parent, of the parent's parent and so
on, as far as they exist yet; and the journal. -/
structure Machine (K : Type) where
  frame : Frame K
  inner : List (Frame K)
  journal : Journal

/-- An action of an instance. What it changed before a fault stays changed. -/
abbrev Run (K : Type) := ExceptT Fault (StateM (Machine K))

variable {K : Type}

/-- A fresh frame, with the directions that the options ask for. -/
def Signature.frame [Number K] (s : Signature K) : Frame K :=
  ⟨.filled s.inputSizes s.outputSizes s.options.initialForward s.options.initialAdjoint Number.zero,
    .zero⟩

namespace Run

def buffers : Run K (Buffers K) := do return (← get).frame.buffers

def modifyBuffers (f : Buffers K → Buffers K) : Run K Unit :=
  modify fun m => {m with frame := {m.frame with buffers := f m.frame.buffers}}

def modifyJournal (f : Journal → Journal) : Run K Unit :=
  modify fun m => {m with journal := f m.journal}

def warn (s : String) : Run K Unit := modifyJournal fun j => {j with warnings := j.warnings.push s}

/-- The outcome of an action as a value. -/
def observe {α : Type} (act : Run K α) : Run K (Except Fault α) := ExceptT.lift act.run

/-- As `observe`, but a violation ends the caller as well. -/
def outcome {α : Type} (act : Run K α) : Run K (Except Fault α) := do
  match ← observe act with
  | .error (.violation c) => throw (.violation c)
  | r => return r

/-- Runs an action in the instance of the parent, which starts with a fresh frame the first time. -/
def inParent {α : Type} (fresh : Frame K) (act : Run K α) : Run K α := ExceptT.mk fun m =>
  let (frame, rest) := match m.inner with
    | [] => (fresh, [])
    | f :: rest => (f, rest)
  let (r, n) := act.run ⟨frame, rest, m.journal⟩
  (r, {m with inner := n.frame :: n.inner, journal := n.journal})

end Run

namespace Signature

/-- Sets the entries of an input. -/
def setInput (s : Signature K) (i : Nat) (values : Array K) : Run K Unit := do
  let p ← s.checkInput i
  s.checkLength .input i p.nnz values.size
  Run.modifyBuffers fun b => {b with input := b.input.setIfInBounds i values}

def setInputs (s : Signature K) (values : Block K) : Run K Unit :=
  values.zipIdx.toList.forM fun (x, i) => s.setInput i x

def checkForward (s : Signature K) (d : Nat) : Run K Unit := do
  let b ← Run.buffers
  if b.forward ≤ d then throw (s.outOfRange .forwardDirection d b.forward)

def checkAdjoint (s : Signature K) (d : Nat) : Run K Unit := do
  let b ← Run.buffers
  if b.adjoint ≤ d then throw (s.outOfRange .adjointDirection d b.adjoint)

def setForwardSeed (s : Signature K) (d i : Nat) (values : Array K) : Run K Unit := do
  s.checkForward d
  let p ← s.checkInput i
  s.checkLength .forwardSeed i p.nnz values.size
  Run.modifyBuffers fun b => {b with forwardSeed := b.forwardSeed.modify d (·.setIfInBounds i values)}

def setAdjointSeed (s : Signature K) (d i : Nat) (values : Array K) : Run K Unit := do
  s.checkAdjoint d
  let p ← s.checkOutput i
  s.checkLength .adjointSeed i p.nnz values.size
  Run.modifyBuffers fun b => {b with adjointSeed := b.adjointSeed.modify d (·.setIfInBounds i values)}

def input (s : Signature K) (i : Nat) : Run K (Array K) := do
  let _ ← s.checkInput i
  return (← Run.buffers).input.getD i #[]

def output (s : Signature K) (i : Nat) : Run K (Array K) := do
  let _ ← s.checkOutput i
  return (← Run.buffers).output.getD i #[]

/-- An output on its pattern. -/
def outputMatrix (s : Signature K) (i : Nat) : Run K (Matrix K) := do
  return ⟨← s.checkOutput i, ← s.output i⟩

def forwardSens (s : Signature K) (d i : Nat) : Run K (Array K) := do
  s.checkForward d
  let _ ← s.checkOutput i
  return ((← Run.buffers).forwardSens.getD d #[]).getD i #[]

def adjointSens (s : Signature K) (d i : Nat) : Run K (Array K) := do
  s.checkAdjoint d
  let _ ← s.checkInput i
  return ((← Run.buffers).adjointSens.getD d #[]).getD i #[]

/-- Makes room for at least the given directions, up to the limits of the options, and answers how many
there are now. -/
def requestDirections [Number K] (s : Signature K) (forward adjoint : Nat) : Run K (Nat × Nat) := do
  let o := s.options
  if o.maxForward < forward then
    Run.warn s!"\"{o.name}\": {forward} forward directions requested, capped at {o.maxForward}"
  if o.maxAdjoint < adjoint then
    Run.warn s!"\"{o.name}\": {adjoint} adjoint directions requested, capped at {o.maxAdjoint}"
  let b ← Run.buffers
  let f := max b.forward (min forward o.maxForward)
  let a := max b.adjoint (min adjoint o.maxAdjoint)
  Buffers.checkRoom f
  Run.modifyBuffers fun b => b.growForward f Number.zero
  Buffers.checkRoom a
  Run.modifyBuffers fun b => b.growAdjoint a Number.zero
  return (f, a)

end Signature

end Fluxion
