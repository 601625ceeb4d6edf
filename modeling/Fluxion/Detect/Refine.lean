import Std.Data.HashMap
import Fluxion.Detect.Blocks

/-!
One refinement step. Every coarse block is split, and the parts of a seed block are given bit lanes. Seed
blocks of one color share lanes, because no coarse sensitivity block depends on two of them; a sweep goes
out whenever all lanes are taken.
-/
set_option autoImplicit false

namespace Fluxion.Detect

variable {σ : Type}

/-- Coarse and fine blocks on both sides of a sweep. -/
structure Split where
  fineSeed : Array Nat
  fineSens : Array Nat
  firstSeed : Array Nat
  firstSens : Array Nat

def Split.of (seedBounds sensBounds : List Nat) : Split :=
  let fineSeed := subdivide seedBounds
  let fineSens := subdivide sensBounds
  ⟨fineSeed.toArray, fineSens.toArray, (firstFine seedBounds fineSeed).toArray,
    (firstFine sensBounds fineSens).toArray⟩

/-- Number of parts of coarse seed block `m`. -/
def Split.width (s : Split) (m : Nat) : Nat := s.firstSeed.getD (m+1) 0 - s.firstSeed.getD m 0

/-- Lanes taken since the last sweep. The owner of a lane, as a coarse sensitivity block sees it, is the
one fine seed block in it; there is none once two of them claim it. -/
structure Lanes where
  seed : Array Word
  owner : Std.HashMap (Nat × Nat) (Option Nat)
  used : Nat
  found : Array (Nat × Nat)
  sweeps : Nat

namespace Lanes

def clear (l : Lanes) : Lanes :=
  {l with seed := .replicate l.seed.size 0, owner := ∅, used := 0}

def claim (l : Lanes) (coarse lane fine : Nat) : Lanes :=
  {l with owner := l.owner.alter (coarse, lane) fun
    | none => some (some fine)
    | some o => some (if o = some fine then o else none)}

/-- The next free lane goes to part `j` of block `m`, in the eyes of all blocks that depend on `m`. -/
def assign (l : Lanes) (s : Split) (dependents : Array Nat) (m j : Nat) : Lanes :=
  let fine := s.firstSeed.getD m 0 + j
  let lo := s.fineSeed.getD fine 0
  let width := s.fineSeed.getD (fine+1) 0 - lo
  let seed := (List.range width).foldl
    (fun seed i => seed.modify (lo+i) (· ||| Word.bit l.used)) l.seed
  dependents.foldl (fun l c => l.claim c l.used fine) {l with seed}

/-- Pairs of a fine sensitivity block and the owner of a lane that reached it. -/
def decode (l : Lanes) (s : Split) (symmetric : Bool) (sens : Array Word) : Array (Nat × Nat) :=
  (Array.range (s.firstSens.size - 1)).flatMap fun coarse =>
    let first := s.firstSens.getD coarse 0
    (Array.range (s.firstSens.getD (coarse+1) 0 - first)).flatMap fun i =>
      let fine := first+i
      let w := Word.sup (sens.extract (s.fineSens.getD fine 0) (s.fineSens.getD (fine+1) 0))
      (w.bits.flatMap fun lane =>
        match l.owner[(coarse, lane)]? with
        | some (some seed) => if symmetric then [(fine, seed), (seed, fine)] else [(fine, seed)]
        | _ => []).toArray

/-- Sends the lanes out, unless none is taken. -/
def flush (l : Lanes) (p : Propagation σ) (dir : Direction) (s : Split) (symmetric : Bool) :
    StateM σ Lanes := do
  if l.used = 0 then return l
  let sens ← p.sweep dir l.seed
  let found := l.found ++ l.decode s symmetric sens
  return {l.clear with found, sweeps := l.sweeps+1}

/-- One lane for part `j` of every member of a color. -/
def takeLane (p : Propagation σ) (dir : Direction) (s : Split) (symmetric : Bool)
    (dependents : Pattern) (members : Array Nat) (l : Lanes) (j : Nat) : StateM σ Lanes := do
  let l ← if l.used = Word.size then l.flush p dir s symmetric else pure l
  let l := members.foldl (fun l m =>
    if j < s.width m then l.assign s (dependents.row m) m j else l) l
  return {l with used := l.used+1}

end Lanes

/-- What one step found: the fine blocks and the pairs of dependent ones, sensitivity first. -/
structure Refinement where
  fineSeed : List Nat
  fineSens : List Nat
  found : Array (Nat × Nat)
  sweeps : Nat

/-- The rows of `coarse` are sensitivity blocks, its columns seed blocks, which `seeds` colors. -/
def refine (p : Propagation σ) (dir : Direction) (symmetric : Bool) (coarse seeds : Pattern)
    (seedBounds sensBounds : List Nat) : StateM σ Refinement := do
  let s := Split.of seedBounds sensBounds
  let dependents := coarse.transpose
  let l : Lanes := ⟨.replicate (seedBounds.getLastD 0) 0, ∅, 0, #[], 0⟩
  let l ← (List.range seeds.nrow).foldlM (fun l k => do
    let members := seeds.row k
    let widest := members.foldl (fun w m => max w (s.width m)) 0
    (List.range widest).foldlM (Lanes.takeLane p dir s symmetric dependents members) l) l
  let l ← l.flush p dir s symmetric
  return ⟨s.fineSeed.toList, s.fineSens.toList, l.found, l.sweeps⟩

end Fluxion.Detect
