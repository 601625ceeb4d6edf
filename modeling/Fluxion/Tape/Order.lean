import Std.Data.HashMap
import Std.Data.HashSet
import Fluxion.Grouping
import Fluxion.Matrix
import Fluxion.Expr.Basic

/-!
The order of a tape: every node after its operands and every output store after its expression,
depth-first from the outputs or level by level.
-/
set_option autoImplicit false

namespace Fluxion

/-- An expression node, or the store of an output entry that has the node with the given number. -/
inductive Node (K : Type) where
  | expr (e : Expr K)
  | store (index entry id : Nat)
  deriving Inhabited

namespace Order

variable {K : Type}

/-- Nodes in order, and the numbers of the expression nodes among them. -/
structure State (K : Type) where
  nodes : Array (Node K)
  seen : Std.HashSet Nat

def State.emit (s : State K) (e : Expr K) : State K := ⟨s.nodes.push (.expr e), s.seen.insert e.id⟩

/-- To descend into a node, or to place it once its operands stand. -/
inductive Task (K : Type) where
  | visit (e : Expr K)
  | emit (e : Expr K)

/-- Bound for the tasks that a task leads to. -/
def Task.weight : Task K → Nat
  | visit e => 3*e.size
  | emit _ => 1

/-- Works off a stack of tasks. Of two operands the one with more operands of its own comes first, so
that leaves stand close to their consumers. -/
def run (todo : List (Task K)) (s : State K) : State K :=
  match todo with
  | [] => s
  | .emit e :: rest => run rest (s.emit e)
  | .visit e :: rest =>
    if s.seen.contains e.id then run rest s
    else match e with
      | .symbol _ | .const _ _ => run rest (s.emit e)
      | .unary _ _ a => run (.visit a :: .emit e :: rest) s
      | .binary _ _ a b =>
        if a.operands.length < b.operands.length then
          run (.visit b :: .visit a :: .emit e :: rest) s
        else run (.visit a :: .visit b :: .emit e :: rest) s
  termination_by todo.foldr (fun task n => task.weight + n) 0
  decreasing_by
    all_goals
      have := Expr.size_pos e
      simp only [List.foldr_cons, Task.weight, Expr.size] at *
      omega

/-- Depth-first from every output entry in turn, each followed by its store. -/
def depthFirst (outputs : Array (Matrix (Expr K))) : Array (Node K) :=
  let s := outputs.zipIdx.foldl (fun s (m, index) =>
    m.values.zipIdx.foldl (fun s (e, entry) =>
      let s := run [.visit e] s
      {s with nodes := s.nodes.push (.store index entry e.id)}) s) (⟨#[], ∅⟩ : State K)
  s.nodes

/-- A leaf has level zero, an operation one more than the highest level of its operands. -/
def levels (nodes : Array (Node K)) : Std.HashMap Nat Nat :=
  nodes.foldl (fun level node =>
    match node with
    | .store _ _ _ => level
    | .expr e => level.insert e.id
        (e.operands.foldl (fun l a => max l (level.getD a.id 0 + 1)) 0)) ∅

/-- The number of levels, of which there is at least one. -/
def levelCount (level : Std.HashMap Nat Nat) (nodes : Array (Node K)) : Nat :=
  nodes.foldl (fun count node =>
    match node with
    | .store _ _ _ => count
    | .expr e => max count (level.getD e.id 0 + 1)) 1

/-- By levels, each in the order given; the stores come last. -/
def byLevel (nodes : Array (Node K)) : Array (Node K) :=
  let level := levels nodes
  let count := levelCount level nodes
  Grouping.arrange (count+1) (fun
    | .expr e => level.getD e.id 0
    | .store _ _ _ => count) nodes

/-- Where every expression node stands. -/
def positions (nodes : Array (Node K)) : Std.HashMap Nat Nat :=
  nodes.zipIdx.foldl (fun at' (node, i) =>
    match node with
    | .expr e => at'.insert e.id i
    | .store _ _ _ => at') ∅

end Order

end Fluxion
