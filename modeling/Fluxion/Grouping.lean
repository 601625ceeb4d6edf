/-!
Grouping by counting. The elements of every group are counted, the counts are summed to the places where the
groups begin, and then each element goes to the next place of its group.
-/
set_option autoImplicit false

namespace Fluxion.Grouping

variable {α : Type}

/-- Where the groups begin that stand one after the other, and in the end where the last one ends. An element is
given by the number of its group. -/
def starts (groups : Nat) (keys : Array Nat) : Array Nat :=
  let counts := keys.foldl (fun counts g => counts.modify (g+1) (· + 1)) (.replicate (groups+1) 0)
  (List.range groups).foldl (fun sums g =>
    let before := sums.getD g 0
    sums.modify (g+1) (· + before)) counts

/-- The next place of every group, and what has been placed. -/
structure State (α : Type) where
  next : Array Nat
  placed : Array (Option α)

def State.place (groups : Nat) (key : α → Nat) (s : State α) (x : α) : State α :=
  if key x < groups then
    ⟨s.next.modify (key x) (· + 1), s.placed.setIfInBounds (s.next.getD (key x) 0) (some x)⟩
  else s

/-- Group after group, the elements of a group in the order given. An element of no group is left out. -/
def arrange (groups : Nat) (key : α → Nat) (xs : Array α) : Array α :=
  (xs.foldl (State.place groups key)
    ⟨starts groups (xs.map key), .replicate xs.size none⟩).placed.filterMap id

end Fluxion.Grouping
