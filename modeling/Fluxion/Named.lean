/-!
Values by name. A name has at most one value.
-/
set_option autoImplicit false

namespace Fluxion

structure Named (α : Type) where
  entries : List (String × α)

namespace Named

variable {α : Type}

def empty : Named α := ⟨[]⟩

def find? (t : Named α) (name : String) : Option α := t.entries.lookup name

/-- Without a name and its value. -/
def erase (t : Named α) (name : String) : Named α := ⟨t.entries.filter (·.1 ≠ name)⟩

/-- Gives a value to a name, which may have had another one. -/
def put (t : Named α) (name : String) (x : α) : Named α := ⟨(name,x) :: (t.erase name).entries⟩

def map (f : α → α) (t : Named α) : Named α := ⟨t.entries.map fun (name, x) => (name, f x)⟩

/-- Whether some value has a property. -/
def any (t : Named α) (p : α → Bool) : Bool := t.entries.any fun (_, x) => p x

theorem find?_empty (name : String) : (empty : Named α).find? name = none := rfl

theorem find?_put_self (t : Named α) (name : String) (x : α) : (t.put name x).find? name = some x := by
  simp [find?, put]

theorem find?_erase_self (t : Named α) (name : String) : (t.erase name).find? name = none := by
  simp only [find?, erase, List.lookup_eq_none_iff, List.mem_filter, decide_eq_true_eq]
  rintro ⟨a, x⟩ ⟨_, h⟩
  simpa using fun e => h e.symm

theorem lookup_filter_of_ne {a b : String} (h : b ≠ a) (es : List (String × α)) :
    (es.filter (·.1 ≠ a)).lookup b = es.lookup b := by
  induction es with
  | nil => rfl
  | cons e r ih =>
    obtain ⟨c, x⟩ := e
    by_cases hc : c = a
    · have hb : (b == c) = false := by simpa [hc] using h
      rw [List.filter_cons_of_neg (by simpa using hc), ih, List.lookup_cons, hb]
    · rw [List.filter_cons_of_pos (by simpa using hc), List.lookup_cons, List.lookup_cons, ih]

theorem find?_erase_of_ne (t : Named α) {a b : String} (h : b ≠ a) :
    (t.erase a).find? b = t.find? b := lookup_filter_of_ne h t.entries

theorem find?_put_of_ne (t : Named α) {a b : String} (h : b ≠ a) (x : α) :
    (t.put a x).find? b = t.find? b := by
  have hb : (b == a) = false := by simpa using h
  rw [← t.find?_erase_of_ne h]
  simp [find?, put, List.lookup_cons, hb]

end Named

end Fluxion
