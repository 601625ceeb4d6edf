import Fluxion.Function.Assemble
import Fluxion.Function.Sparsity

/-!
Symbolic derivatives: a tape is replayed over expressions, with symbols or units as seeds, and the
sensitivities are sorted into a new function.
-/
set_option autoImplicit false

namespace Fluxion.Symbolic

variable {K : Type} [Number K]

def matrices (ps : Array Pattern) (values : Block (Expr K)) : Array (Matrix (Expr K)) :=
  ps.zipWith Matrix.mk values

/-- Buffers of a replay at the input symbols, everything else one zero. -/
def buffers (sig : Signature K) (inputs : Array (Matrix (Expr K))) (f a : Nat) :
    Fresh (Buffers (Expr K)) := do
  let zero ← Expr.newConst Number.zero
  return {Buffers.filled sig.inputSizes sig.outputSizes f a zero with
    input := inputs.map (·.values)}

def replay (t : Tape K) (b : Buffers (Expr K)) (f a : Nat) : Make (Buffers (Expr K)) := do
  let r ← (t.evaluate .symbolic b f a).run
  match r with
  | .ok b => return b
  | .error s => throw s.fault

/-- A new unit at every member of a color. -/
def units (seed : Block (Expr K)) (slot : Nat) (members : Array Nat) : Fresh (Block (Expr K)) :=
  members.foldlM (fun seed i => do return seed.set slot i (← Expr.newConst Number.one)) seed

def seedColors (seeds : Array (Block (Expr K))) (slot : Nat) (p : Pattern) :
    Fresh (Array (Block (Expr K))) :=
  seeds.zipIdx.mapM fun (seed, k) => units seed slot (p.row k)

/-- The gradient of a scalar output, on the pattern of the input, from one reverse sweep. -/
def gradient (d : Definition K) (t : Tape K) (inputs : Array (Matrix (Expr K))) (iind oind : Nat)
    (o : Options K) : Make (Definition K) := do
  let sig := d.sig
  let b ← buffers sig inputs 0 1
  let one ← Expr.newConst Number.one
  let b := {b with adjointSeed := b.adjointSeed.modify 0 (·.modify oind (·.map fun _ => one))}
  let b ← replay t b 0 1
  let g := (b.adjointSens.getD 0 #[]).getD iind #[]
  Definition.ofExpressions inputs
    (#[⟨sig.inputs.getD iind default, g⟩] ++ matrices sig.outputs b.output) o

/-- A Jacobian block from one sweep for each color of its coloring. -/
def jacobian (d : Definition K) (t : Tape K) (inputs : Array (Matrix (Expr K))) (iind oind : Nat)
    (compact symmetric : Bool) (o : Options K) : Make (Definition K) := do
  let sig := d.sig
  let p ← d.jacSparsity iind oind true symmetric
  let partition ← d.partition iind oind true symmetric
  let n := partition.colors
  let (f, a) := match partition with
    | .forward _ => (n, 0)
    | .adjoint _ => (0, n)
  let b ← buffers sig inputs f a
  let b := {b with
    forwardSeed := ← seedColors b.forwardSeed iind partition.seeds
    adjointSeed := ← seedColors b.adjointSeed oind partition.seeds}
  let b ← replay t b f a
  let zero ← Expr.newConst Number.zero
  let job := Assemble.Job.of iind oind p partition symmetric
  let (_, values) := (List.range n).foldl (fun s k =>
    let sens := match partition with
      | .forward _ => (b.forwardSens.getD k #[]).getD oind #[]
      | .adjoint _ => (b.adjointSens.getD k #[]).getD iind #[]
    job.recover k sens s) (.replicate p.nrow 0, .replicate p.nnz zero)
  let first ← if compact then pure p else d.enlarge p iind oind
  Definition.ofExpressions inputs (#[⟨first, values⟩] ++ matrices sig.outputs b.output) o

/-- Seed symbols for `n` directions over the given patterns. -/
def seedSymbols (label part : String) (ps : Array Pattern) (n : Nat) :
    Fresh (Array (Array (Matrix (Expr K)))) :=
  (Array.range n).mapM fun d => ps.zipIdx.mapM fun (p, k) =>
    Matrix.symbols s!"{label}{d}_{part}{k}" p

/-- The outputs with `f` forward and `a` adjoint directions, whose seeds are further inputs. -/
def derivative (d : Definition K) (t : Tape K) (inputs : Array (Matrix (Expr K))) (f a : Nat)
    (o : Options K) : Make (Definition K) := do
  let sig := d.sig
  let fs ← seedSymbols "fwd" "i" sig.inputs f
  let as ← seedSymbols "adj" "o" sig.outputs a
  let b ← buffers sig inputs f a
  let values (m : Array (Matrix (Expr K))) : Block (Expr K) := m.map (·.values)
  let b ← replay t {b with forwardSeed := fs.map values, adjointSeed := as.map values} f a
  Definition.ofExpressions (inputs ++ fs.flatten ++ as.flatten)
    (matrices sig.outputs b.output ++ b.forwardSens.flatMap (matrices sig.outputs) ++
      b.adjointSens.flatMap (matrices sig.inputs)) o

/-- The outputs at symbolic arguments with as many entries as the inputs. Free symbols stay. -/
def outputsAt (d : Definition K) (args : Array (Matrix (Expr K))) :
    Make (Array (Matrix (Expr K))) := do
  let some t := d.tape? | throw (.unsupported d.sig.name .symbolicEvaluation)
  d.sig.checkCount args.size
  (args.zip d.sig.inputs).zipIdx.toList.forM fun ((m, p), k) =>
    d.sig.checkLength .input k p.nnz m.nnz
  let b ← buffers d.sig args 0 0
  let b ← replay t b 0 0
  return matrices d.sig.outputs b.output

end Fluxion.Symbolic
