import Fluxion.Proofs.Function.Assemble
import Fluxion.Proofs.Function.SymmetricRecovery

/-!
Recovery looks at places only: what it does with sensitivities it does with their images, and every value
that it leaves was a sensitivity or was there before.
-/
set_option autoImplicit false

namespace Fluxion

variable {T U : Type}

namespace Recover

theorem map_puts (g : T → U) (writes : List (Nat × Option T)) (values : Array T) :
    (puts writes values).map g = puts (writes.map fun w => (w.1, w.2.map g)) (values.map g) := by
  induction writes generalizing values with
  | nil => rfl
  | cons w writes ih =>
    have hput : (put values w.1 w.2).map g = put (values.map g) w.1 (w.2.map g) := by
      cases hw : w.2 <;> simp [put, Array.map_setIfInBounds]
    change (puts writes (put values w.1 w.2)).map g = _
    rw [ih, hput]
    rfl

theorem mem_puts {writes : List (Nat × Option T)} {values : Array T} {x : T} (h : x ∈ puts writes values) :
    x ∈ values ∨ ∃ w ∈ writes, w.2 = some x := by
  induction writes generalizing values with
  | nil => exact .inl h
  | cons w writes ih =>
    obtain hx | ⟨w', hw', hx⟩ := ih h
    · dsimp only at hx
      cases hw : w.2 with
      | none =>
        rw [hw, put] at hx
        exact .inl hx
      | some y =>
        rw [hw, put] at hx
        obtain hx | rfl := Array.mem_or_eq_of_mem_setIfInBounds hx
        · exact .inl hx
        · exact .inr ⟨w, by simp, hw⟩
    · exact .inr ⟨w', by simp [hw'], hx⟩

end Recover

namespace Assemble

variable (j : Job) (k : Nat)

/-- Recovery is a list of writes, each from a place of the sensitivities. -/
theorem Job.recover_writes (hits : Array Nat) : ∃ hits' : Array Nat, ∃ writes : List (Nat × Nat),
    ∀ {T : Type} (sens values : Array T), j.recover k sens (hits,values) =
      (hits', Recover.puts (writes.map fun w => (w.1, sens[w.2]?)) values) := by
  obtain ⟨iind, oind, p, t, map, side, symmetric⟩ := j
  cases side with
  | adjoint s =>
    refine ⟨hits, (s.row k).toList.flatMap fun r =>
      (p.row r).toList.zipIdx.map fun e => (p.start r + e.2, e.1), fun sens values => ?_⟩
    refine congrArg (Prod.mk hits) ((Recover.adjoint_eq _ _ _ _).trans ?_)
    simp [List.map_flatMap, Function.comp_def, Partition.seeds]
  | forward s =>
    cases symmetric with
    | false =>
      refine ⟨hits, (s.row k).toList.flatMap fun c => (Recover.columnOf t map c).map fun e => (e.2, e.1),
        fun sens values => ?_⟩
      refine congrArg (Prod.mk hits) ((Recover.forward_eq _ _ _ _ _).trans ?_)
      simp [List.map_flatMap, Function.comp_def, Partition.seeds]
    | true =>
      have hmirrored {T : Type} (hits : Array Nat) (sens : Array T) (c : Nat) :
          Recover.mirrored p hits sens c = fun e =>
            (if hits.getD e.1 0 = 1 then (e.2,e.1) :: (p.find? c e.1).toList.map fun i => (i,e.1)
              else []).map fun w => (w.1, sens[w.2]?) := by
        funext e
        rw [Recover.mirrored]
        split <;> simp [Function.comp_def]
      refine ⟨Recover.clearHits t (s.row k) (Recover.countHits t (s.row k) hits),
        (s.row k).toList.flatMap fun c => (Recover.columnOf t map c).flatMap fun e =>
          if (Recover.countHits t (s.row k) hits).getD e.1 0 = 1 then
            (e.2,e.1) :: (p.find? c e.1).toList.map fun i => (i,e.1)
          else [], fun sens values => ?_⟩
      refine (Recover.symmetric_eq p t map (s.row k) hits sens values).trans ?_
      simp only [List.map_flatMap, hmirrored]

theorem Job.recover_map (g : T → U) (sens : Array T) (s : Array Nat × Array T) :
    j.recover k (sens.map g) (s.1, s.2.map g) =
      ((j.recover k sens s).1, (j.recover k sens s).2.map g) := by
  obtain ⟨hits, values⟩ := s
  obtain ⟨hits', writes, h⟩ := j.recover_writes k hits
  rw [h, h, Recover.map_puts, List.map_map]
  simp [Function.comp_def]

/-- Colors one after the other. -/
theorem Job.foldl_recover_map (g : T → U) (sens : Nat → Array T) (colors : List Nat)
    (s : Array Nat × Array T) :
    colors.foldl (fun s k => j.recover k ((sens k).map g) s) (s.1, s.2.map g) =
      ((colors.foldl (fun s k => j.recover k (sens k) s) s).1,
        (colors.foldl (fun s k => j.recover k (sens k) s) s).2.map g) := by
  induction colors generalizing s with
  | nil => rfl
  | cons k colors ih => rw [List.foldl_cons, List.foldl_cons, j.recover_map k g, ih]

theorem Job.mem_foldl_recover {sens : Nat → Array T} {colors : List Nat} {s : Array Nat × Array T} {x : T}
    (h : x ∈ (colors.foldl (fun s k => j.recover k (sens k) s) s).2) :
    x ∈ s.2 ∨ ∃ k ∈ colors, x ∈ sens k := by
  induction colors generalizing s with
  | nil => exact .inl h
  | cons k colors ih =>
    obtain hx | ⟨l, hl, hx⟩ := ih h
    · obtain ⟨hits, values⟩ := s
      obtain ⟨hits', writes, he⟩ := j.recover_writes k hits
      dsimp only at hx
      rw [he] at hx
      obtain hx | ⟨w, hw, hx⟩ := Recover.mem_puts hx
      · exact .inl hx
      · obtain ⟨⟨i, r⟩, -, rfl⟩ := List.mem_map.mp hw
        exact .inr ⟨k, by simp, Array.mem_of_getElem? hx⟩
    · exact .inr ⟨l, by simp [hl], hx⟩

end Assemble

end Fluxion
