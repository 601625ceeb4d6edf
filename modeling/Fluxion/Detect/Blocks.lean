import Fluxion.Detect.Propagation

/-!
Blocks of indices, given by their boundaries: block `i` lies between boundary `i` and boundary `i + 1`.
-/
set_option autoImplicit false

namespace Fluxion.Detect

/-- Size of the parts of a block of `n` indices: at most a word of parts. -/
def partSize (n : Nat) : Nat := max 1 (ceilDiv n Word.size)

/-- Boundaries after `lo` up to `hi`, one part apart; the last part may be shorter. -/
def parts (lo hi : Nat) : List Nat :=
  let step := partSize (hi-lo)
  (List.range (ceilDiv (hi-lo) step - 1)).map (fun j => lo+(j+1)*step) ++ [hi]

def subdivideAfter (lo : Nat) : List Nat → List Nat
  | [] => []
  | hi :: rest => parts lo hi ++ subdivideAfter hi rest

/-- Splits every block into at most a word of parts. -/
def subdivide : List Nat → List Nat
  | [] => []
  | lo :: rest => lo :: subdivideAfter lo rest

def positions : List Nat → List (Nat × Nat) → List Nat
  | [], _ => []
  | c :: cs, fine =>
    match fine.dropWhile (·.1 ≠ c) with
    | [] => []
    | (b,j) :: rest => j :: positions cs ((b,j) :: rest)

/-- Position of every coarse boundary among the fine ones. -/
def firstFine (coarse fine : List Nat) : List Nat := positions coarse fine.zipIdx

def maxBlock (bounds : List Nat) : Nat :=
  (bounds.zip bounds.tail).foldl (fun m (lo,hi) => max m (hi-lo)) 0

end Fluxion.Detect
