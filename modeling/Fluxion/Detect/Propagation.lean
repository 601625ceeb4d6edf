import Fluxion.Mode
import Fluxion.Pattern.Basic

/-!
Propagation of dependency words. Bit `j` of a word says that a value may depend on seed direction `j`.
-/
set_option autoImplicit false

namespace Fluxion

abbrev Word := UInt64

namespace Word

/-- Directions that one sweep carries. -/
def size : Nat := 64

def bit (j : Nat) : Word := 1 <<< UInt64.ofNat j

def test (w : Word) (j : Nat) : Bool := (w >>> UInt64.ofNat j) &&& 1 == 1

/-- Positions of the bits that are set, lowest first. -/
def bits (w : Word) : List Nat := if w = 0 then [] else (List.range size).filter w.test

theorem mem_bits {w : Word} {j : Nat} : j ∈ w.bits ↔ j < size ∧ w.test j = true := by
  by_cases h : w = 0
  · simp [bits, h, test]
  · simp [bits, h]

def sup (ws : Array Word) : Word := ws.foldl (· ||| ·) 0

end Word

def ceilDiv (n d : Nat) : Nat := (n+(d-1))/d

/-- Sweeps through one block of a function. A forward sweep takes a word for each input entry and answers
one for each output entry; a reverse sweep goes the other way. A sweep may keep a state of its own. -/
structure Propagation (σ : Type) where
  nnzIn : Nat
  nnzOut : Nat
  can : Direction → Bool
  sweep : Direction → Array Word → StateM σ (Array Word)

namespace Propagation

variable {σ : Type}

def seedSize (s : Propagation σ) : Direction → Nat
  | .forward => s.nnzIn
  | .reverse => s.nnzOut

def sensSize (s : Propagation σ) : Direction → Nat
  | .forward => s.nnzOut
  | .reverse => s.nnzIn

/-- The direction asked for when it is available, else the one that is; `automatic` decides when both
are. -/
def choose (s : Propagation σ) (mode : AdMode) (automatic : Direction) : Direction :=
  match mode, s.can .forward, s.can .reverse with
  | .forward, true, _ => .forward
  | .reverse, _, true => .reverse
  | _, _, false => .forward
  | _, false, true => .reverse
  | _, true, true => automatic

end Propagation

/-- Exact propagation through a known pattern: a word of the result is the union of the seeds in its row,
or in its column. -/
def Pattern.push (p : Pattern) (dir : Direction) (seed : Array Word) : Array Word :=
  let q := match dir with
    | .forward => p
    | .reverse => p.transpose
  (Array.range q.nrow).map fun r => Word.sup ((q.row r).map fun c => seed.getD c 0)

end Fluxion
