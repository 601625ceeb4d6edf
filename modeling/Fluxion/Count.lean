import Fluxion.Fault

/-!
Counts are words of 64 bits: a product is taken modulo the word, and a list too long for an address space
is refused.
-/
set_option autoImplicit false

namespace Fluxion.Count

/-- The word that holds a sum or a product. -/
def wrap (n : Nat) : Nat := n % UInt64.size

theorem wrap_of_lt {n : Nat} (h : n < UInt64.size) : wrap n = n := Nat.mod_eq_of_lt h

/-- Whether a list of `n` items of the given number of bytes fits an address space. -/
def hasRoom (n bytes : Nat) : Bool := n*bytes < UInt64.size / 2

/-- A shorter list fits where a longer one does. -/
theorem hasRoom_mono {m n bytes : Nat} (h : m ≤ n) (hn : hasRoom n bytes) : hasRoom m bytes :=
  decide_eq_true (Nat.lt_of_le_of_lt (Nat.mul_le_mul_right bytes h) (of_decide_eq_true hn))

/-- Refuses a list without room. -/
def checkRoom (n bytes : Nat) : Except Fault Unit :=
  if hasRoom n bytes then return () else throw (.violation .noRoom)

theorem checkRoom_eq_ok_iff {n bytes : Nat} : checkRoom n bytes = .ok () ↔ hasRoom n bytes := by
  cases h : hasRoom n bytes <;>
    simp [checkRoom, h, throw, throwThe, MonadExceptOf.throw, pure, Except.pure]

end Fluxion.Count
