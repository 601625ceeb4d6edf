import Fluxion.Detect.Propagation
import Fluxion.Function.Machine
import Fluxion.Function.Recover

/-!
Values of a Jacobian block from directional derivatives, one for each color, in batches of as many
directions as the instance has.
-/
set_option autoImplicit false

namespace Fluxion

/-- Evaluates the outputs and the first forward and adjoint directions. -/
abbrev Evaluation (K : Type) := Nat → Nat → Run K Report

namespace Assemble

variable {K : Type} [Number K]

/-- Directions of a batch. An instance that has none asks for one. -/
def batchSize (sig : Signature K) (dir : Direction) : Run K Nat := do
  let b ← Run.buffers
  match dir with
  | .forward =>
    let n ← if b.forward = 0 then do pure (← sig.requestDirections 1 0).1 else pure b.forward
    if n = 0 then throw (.unsupported sig.name .forwardDirections) else return n
  | .reverse =>
    let n ← if b.adjoint = 0 then do pure (← sig.requestDirections 0 1).2 else pure b.adjoint
    if n = 0 then throw (.unsupported sig.name .adjointDirections) else return n

/-- One at the members of a color in block `slot`, zero everywhere else. -/
def unitSeed (sizes : Array Nat) (slot : Nat) (members : Array Nat) : Block K :=
  (Block.filled sizes Number.zero).modify slot fun v =>
    members.foldl (fun v i => v.setIfInBounds i Number.one) v

/-- A Jacobian block with its pattern, the pattern's transpose and the map between their entries, and
the coloring that is swept. -/
structure Job where
  iind : Nat
  oind : Nat
  pattern : Pattern
  transpose : Pattern
  map : Array Nat
  partition : Partition
  symmetric : Bool

def Job.of (iind oind : Nat) (p : Pattern) (partition : Partition) (symmetric : Bool) : Job :=
  ⟨iind, oind, p, p.transpose, p.transposeMap, partition, symmetric⟩

/-- Seeds direction `d` with color `k`. -/
def Job.seed (j : Job) (sig : Signature K) (d k : Nat) : Run K Unit :=
  let members := j.partition.seeds.row k
  match j.partition with
  | .forward _ =>
    let seed := unitSeed sig.inputSizes j.iind members
    Run.modifyBuffers fun b => {b with forwardSeed := b.forwardSeed.setIfInBounds d seed}
  | .adjoint _ =>
    let seed := unitSeed sig.outputSizes j.oind members
    Run.modifyBuffers fun b => {b with adjointSeed := b.adjointSeed.setIfInBounds d seed}

/-- Takes the entries of color `k` from a list of sensitivities. -/
def Job.recover {T : Type} (j : Job) (k : Nat) (sens : Array T) (s : Array Nat × Array T) :
    Array Nat × Array T :=
  let members := j.partition.seeds.row k
  match j.partition with
  | .forward _ =>
    if j.symmetric then Recover.symmetric j.pattern j.transpose j.map members sens s
    else (s.1, Recover.forward j.transpose j.map members sens s.2)
  | .adjoint _ => (s.1, Recover.adjoint j.pattern members sens s.2)

/-- Sweeps `n` colors from color `start` on at once. -/
def Job.batch (j : Job) (sig : Signature K) (eval : Evaluation K) (start n : Nat)
    (s : Array Nat × Array K) : Run K (Array Nat × Array K) := do
  (List.range n).forM fun d => j.seed sig d (start+d)
  let _ ← match j.partition with
    | .forward _ => eval n 0
    | .adjoint _ => eval 0 n
  let b ← Run.buffers
  return (List.range n).foldl (fun s d =>
    let sens := match j.partition with
      | .forward _ => (b.forwardSens.getD d #[]).getD j.oind #[]
      | .adjoint _ => (b.adjointSens.getD d #[]).getD j.iind #[]
    j.recover (start+d) sens s) s

/-- Values in the order of the pattern. The outputs are evaluated with them. -/
def Job.run (j : Job) (sig : Signature K) (eval : Evaluation K) : Run K (Array K) := do
  let zeros : Array K := .replicate j.pattern.nnz Number.zero
  let n := j.partition.colors
  if n = 0 then
    let _ ← eval 0 0
    return zeros
  let size ← batchSize sig j.partition.direction
  let (_, values) ← (List.range (ceilDiv n size)).foldlM (fun s r =>
    j.batch sig eval (r*size) (min size (n - r*size)) s) (.replicate j.pattern.nrow 0, zeros)
  return values

end Assemble

end Fluxion
