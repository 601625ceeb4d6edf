import Fluxion.Number
import Fluxion.Pattern.Basic

/-!
Sparse matrices: one value for each entry of a pattern.
-/
set_option autoImplicit false

namespace Fluxion

structure Matrix (T : Type) where
  pattern : Pattern
  values : Array T
  deriving Repr, Inhabited

namespace Matrix

variable {T U : Type}

def ofValues (p : Pattern) (values : Array T) : Except Fault (Matrix T) :=
  if values.size = p.nnz then return ⟨p, values⟩
  else throw (.invalidPattern (.valueCount values.size p.nnz))

def nnz (m : Matrix T) : Nat := m.values.size

def dense (nrow ncol : Nat) (values : Array T) : Except Fault (Matrix T) := do
  ofValues (← Pattern.dense? nrow ncol) values

def column (values : Array T) : Matrix T := ⟨.column values.size, values⟩

def scalar (x : T) : Matrix T := ⟨.scalar, #[x]⟩

def filled (p : Pattern) (x : T) : Matrix T := ⟨p, .replicate p.nnz x⟩

def get? (m : Matrix T) (r c : Nat) : Option T := (m.pattern.find? r c).bind (m.values[·]?)

def map (f : T → U) (m : Matrix T) : Matrix U := ⟨m.pattern, m.values.map f⟩

def transpose (m : Matrix T) : Matrix T :=
  ⟨m.pattern.transpose, m.pattern.transposeMap.filterMap (m.values[·]?)⟩

/-- As `transpose`, for a matrix that may have too many rows or columns. -/
def transpose? (m : Matrix T) : Except Fault (Matrix T) := do
  m.pattern.checkTranspose
  return m.transpose

/-- All elements row by row, with `zero` where the pattern has no entry. -/
def toRows (zero : T) (m : Matrix T) : Array (Array T) :=
  (m.pattern.entries.zip m.values).foldl (fun rows ((r,c), x) => rows.modify r (·.setIfInBounds c x))
    (.replicate m.pattern.nrow (.replicate m.pattern.ncol zero))

/-- As `toRows`, for a matrix that may have too many rows or columns. A row is kept as a place, a length
and a capacity, 8 bytes each. -/
def toRows? (zero : T) (m : Matrix T) : Except Fault (Array (Array T)) := do
  Count.checkRoom m.pattern.ncol 8
  Count.checkRoom m.pattern.nrow 24
  return m.toRows zero

end Matrix

end Fluxion
