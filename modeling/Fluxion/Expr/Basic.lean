import Fluxion.Number

/-!
Expressions. Every node carries a number of its own, so a node that several parents share is recognised;
two nodes built apart are different even when they look alike.
-/
set_option autoImplicit false

namespace Fluxion

/-- A variable. Symbols of one name with different numbers are different variables. -/
structure Symbol where
  id : Nat
  name : String
  deriving DecidableEq, Repr, Inhabited

inductive Expr (K : Type) where
  | symbol (s : Symbol)
  | const (id : Nat) (value : K)
  | unary (id : Nat) (op : Op) (a : Expr K)
  | binary (id : Nat) (op : Op) (a b : Expr K)
  deriving Repr

/-- Nodes are numbered from a supply that never gives a number twice. -/
abbrev Fresh := StateM Nat

def Fresh.next : Fresh Nat := modifyGet fun n => (n, n+1)

namespace Expr

variable {K : Type}

instance : Inhabited (Expr K) := ⟨.symbol default⟩

def id : Expr K → Nat
  | symbol s => s.id
  | const i _ | unary i _ _ | binary i _ _ _ => i

/-- The operation of a node; a symbol counts as a parameter. -/
def op : Expr K → Op
  | symbol _ => .parameter
  | const _ _ => .const
  | unary _ op _ | binary _ op _ _ => op

def operands : Expr K → List (Expr K)
  | symbol _ | const _ _ => []
  | unary _ _ a => [a]
  | binary _ _ a b => [a,b]

def symbol? : Expr K → Option Symbol
  | symbol s => some s
  | _ => none

def constant? : Expr K → Option K
  | const _ v => some v
  | _ => none

/-- Nodes of the expression as a tree, shared ones counted every time. -/
def size : Expr K → Nat
  | symbol _ | const _ _ => 1
  | unary _ _ a => 1+a.size
  | binary _ _ a b => 1+a.size+b.size

theorem size_pos (e : Expr K) : 0 < e.size := by cases e <;> simp only [size] <;> omega

/-- The node itself and everything below it. -/
def Reaches (e : Expr K) : Expr K → Prop
  | t@(unary _ _ a) => e = t ∨ Reaches e a
  | t@(binary _ _ a b) => e = t ∨ Reaches e a ∨ Reaches e b
  | t => e = t

variable [Number K]

/-- The value of an expression, from the values of its symbols. -/
def value (ρ : Symbol → K) : Expr K → K
  | symbol s => ρ s
  | const _ v => v
  | unary _ op a => Number.eval op (a.value ρ) (a.value ρ)
  | binary _ op a b => Number.eval op (a.value ρ) (b.value ρ)

/-- A constant that is numerically equal to `k`. -/
def isConst (e : Expr K) (k : K) : Bool := e.constant?.any (Number.equal · k)

def isZero (e : Expr K) : Bool := e.isConst Number.zero

def isOne (e : Expr K) : Bool := e.isConst Number.one

end Expr

end Fluxion
