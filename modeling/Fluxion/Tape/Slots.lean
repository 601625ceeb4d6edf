import Fluxion.Tape.Basic

/-!
Work slots. Elements that refer to each other by their positions are given slots of a work array; with
live variables a slot is free again once the last consumer of its value has read it.
-/
set_option autoImplicit false

namespace Fluxion.Tape

variable {K : Type}

/-- Consumers that are still to come and the slot of every position, free slots with the latest first,
and the number of slots in use so far. -/
structure Slots where
  uses : Array Nat
  slot : Array Nat
  unused : List Nat
  count : Nat

namespace Slots

/-- Positions that an element reads. -/
def reads (el : Element K) : List Nat := [el.left, el.right].take el.op.arity

def start (els : Array (Element K)) : Slots :=
  ⟨els.foldl (fun uses el => (reads el).foldl (fun uses p => uses.modify p (· + 1)) uses)
      (.replicate els.size 0),
    .replicate els.size 0, [], 0⟩

/-- One consumer of a value has read it. -/
def release (s : Slots) (p : Nat) : Slots :=
  let n := s.uses.getD p 0 - 1
  {s with
    uses := s.uses.setIfInBounds p n
    unused := if n = 0 then s.slot.getD p 0 :: s.unused else s.unused}

/-- A slot for a new value: the one freed last, or one more. -/
def take (s : Slots) (live : Bool) (p : Nat) : Nat × Slots :=
  match live, s.unused with
  | true, k :: rest => (k, {s with unused := rest, slot := s.slot.setIfInBounds p k})
  | _, _ => (s.count, {s with count := s.count+1, slot := s.slot.setIfInBounds p s.count})

/-- Operands are released, the last one first, before the result takes its slot, which may therefore be
the slot of an operand. -/
def assign (live : Bool) (s : Slots) (el : Element K) (p : Nat) : Element K × Slots :=
  let s := (reads el).foldr (fun q s => s.release q) s
  if el.op = .output then ({el with left := s.slot.getD el.left 0}, s)
  else
    let (k, s) := s.take live p
    let el := {el with result := k}
    match el.op.arity with
    | 0 => (el, s)
    | 1 => ({el with left := s.slot.getD el.left 0, right := s.slot.getD el.left 0}, s)
    | _ => ({el with left := s.slot.getD el.left 0, right := s.slot.getD el.right 0}, s)

end Slots

/-- The elements on slots, and the number of slots. -/
def allocate (live : Bool) (els : Array (Element K)) : Array (Element K) × Nat :=
  let (done, s) := els.zipIdx.foldl (fun (done, s) (el, p) =>
    let (el, s) := s.assign live el p
    (done.push el, s)) (#[], Slots.start els)
  (done, s.count)

end Fluxion.Tape
