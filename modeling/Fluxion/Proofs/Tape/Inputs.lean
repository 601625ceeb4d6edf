import Fluxion.Proofs.Order.DepthFirst
import Fluxion.Tape.Build

/-!
Inputs of a tape. Their entries have to be distinct symbols, and then each symbol has one place.
-/
set_option autoImplicit false

namespace Fluxion

variable {K : Type}

/-- Every entry is a symbol of its own. -/
structure DistinctSymbols (inputs : Array (Matrix (Expr K))) : Prop where
  symbol : ∀ e ∈ Matrix.entries inputs, ∃ s, e = .symbol s
  nodup : ((Matrix.entries inputs).map Expr.id).Nodup

namespace Order

theorem targets_map (ms : Array (Matrix (Expr K))) :
    (targets ms).map (fun t => t.2.2) = Matrix.entries ms := by
  simp only [targets, Matrix.entries, List.map_flatMap, List.map_map, Function.comp_def]
  rw [List.flatMap_def, List.flatMap_def]
  congr 1
  have hinner (m : Matrix (Expr K)) : m.values.toList.zipIdx.map (fun x => x.1) = m.values.toList :=
    List.zipIdx_map_fst 0 _
  simp only [hinner]
  conv_rhs => rw [← List.zipIdx_map_fst 0 ms.toList]
  rw [List.map_map]
  rfl

end Order

theorem foldlM_flatMap {α β γ : Type} {m : Type → Type} [Monad m] [LawfulMonad m] (f : γ → β → m γ)
    (g : α → List β) (l : List α) (init : γ) :
    (l.flatMap g).foldlM f init = l.foldlM (fun acc x => (g x).foldlM f acc) init := by
  induction l generalizing init with
  | nil => rfl
  | cons x l ih => simp [List.foldlM_append, ih]

namespace Tape

/-- One entry of the inputs: it has to be a symbol without a place. -/
def claim (places : Std.HashMap Nat (Nat × Nat)) (t : Nat × Nat × Expr K) :
    Except Fault (Std.HashMap Nat (Nat × Nat)) :=
  match t.2.2 with
  | .symbol s =>
    if places.contains s.id then throw (.invalidInput t.1 t.2.1)
    else return places.insert s.id (t.1,t.2.1)
  | _ => throw (.invalidInput t.1 t.2.1)

theorem inputPlaces_eq (inputs : Array (Matrix (Expr K))) :
    inputPlaces inputs = (Order.targets inputs).foldlM claim ∅ := by
  simp only [inputPlaces, Order.targets, ← Array.foldlM_toList, Array.toList_zipIdx,
    foldlM_flatMap, List.foldlM_map]
  rfl

/-- An entry is accepted exactly when it is a symbol without a place, and then it gets its own. -/
theorem claim_eq_ok_iff {places places' : Std.HashMap Nat (Nat × Nat)} {t : Nat × Nat × Expr K} :
    claim places t = .ok places' ↔
      (∃ s, t.2.2 = .symbol s) ∧ t.2.2.id ∉ places ∧ places' = places.insert t.2.2.id (t.1,t.2.1) := by
  obtain ⟨i, k, e⟩ := t
  cases e with
  | symbol s =>
    by_cases h : s.id ∈ places
    · simp [claim, Expr.id, h, throw, throwThe, MonadExceptOf.throw]
    · simpa [claim, Expr.id, h, pure, Except.pure] using eq_comm
  | _ => simp [claim, throw, throwThe, MonadExceptOf.throw]

/-- What acceptance of some entries says about them and about the places. -/
structure Claimed (places places' : Std.HashMap Nat (Nat × Nat)) (ts : List (Nat × Nat × Expr K)) :
    Prop where
  symbol : ∀ t ∈ ts, ∃ s, t.2.2 = .symbol s
  nodup : (ts.map fun t => t.2.2.id).Nodup
  fresh : ∀ t ∈ ts, t.2.2.id ∉ places
  get : ∀ t ∈ ts, places'[t.2.2.id]? = some (t.1,t.2.1)
  rest : ∀ id, (∀ t ∈ ts, t.2.2.id ≠ id) → places'[id]? = places[id]?

theorem foldlM_claim {ts : List (Nat × Nat × Expr K)} {places places' : Std.HashMap Nat (Nat × Nat)}
    (h : ts.foldlM claim places = .ok places') : Claimed places places' ts := by
  induction ts generalizing places with
  | nil =>
    cases h
    exact ⟨by simp, by simp, by simp, by simp, fun _ _ => rfl⟩
  | cons t ts ih =>
    rw [List.foldlM_cons] at h
    cases hc : claim places t with
    | error f => rw [hc] at h; cases h
    | ok mid =>
      rw [hc] at h
      obtain ⟨hs, hn, rfl⟩ := claim_eq_ok_iff.mp hc
      have hr := ih h
      have hne : ∀ u ∈ ts, u.2.2.id ≠ t.2.2.id := by
        intro u hu he
        exact hr.fresh u hu (by simp [he])
      refine ⟨?_, ?_, ?_, ?_, ?_⟩
      · exact List.forall_mem_cons.mpr ⟨hs, hr.symbol⟩
      · refine List.nodup_cons.mpr ⟨?_, hr.nodup⟩
        simpa using fun i k e hu => hne (i,k,e) hu
      · refine List.forall_mem_cons.mpr ⟨hn, fun u hu hm => hr.fresh u hu ?_⟩
        exact Std.HashMap.mem_insert.mpr (.inr hm)
      · refine List.forall_mem_cons.mpr ⟨?_, hr.get⟩
        rw [hr.rest _ hne]
        simp
      · intro id hid
        obtain ⟨hti, hid⟩ := List.forall_mem_cons.mp hid
        rw [hr.rest id hid, Std.HashMap.getElem?_insert, if_neg (by simpa using hti)]

theorem exists_foldlM_claim {ts : List (Nat × Nat × Expr K)}
    {places : Std.HashMap Nat (Nat × Nat)} (hs : ∀ t ∈ ts, ∃ s, t.2.2 = .symbol s)
    (hd : (ts.map fun t => t.2.2.id).Nodup) (hf : ∀ t ∈ ts, t.2.2.id ∉ places) :
    ∃ places', ts.foldlM claim places = .ok places' := by
  induction ts generalizing places with
  | nil => exact ⟨places, rfl⟩
  | cons t ts ih =>
    obtain ⟨hst, hs⟩ := List.forall_mem_cons.mp hs
    obtain ⟨hft, hf⟩ := List.forall_mem_cons.mp hf
    obtain ⟨hdt, hd⟩ := List.nodup_cons.mp hd
    have hc := claim_eq_ok_iff.mpr ⟨hst, hft, rfl⟩
    rw [List.foldlM_cons, hc]
    refine ih hs hd fun u hu hm => ?_
    obtain he | hm := Std.HashMap.mem_insert.mp hm
    · exact hdt (List.mem_map.mpr ⟨u, hu, (by simpa using he : t.2.2.id = u.2.2.id).symm⟩)
    · exact hf u hu hm

/-- The places of the input symbols, by number. -/
structure Places (inputs : Array (Matrix (Expr K))) (places : Std.HashMap Nat (Nat × Nat)) : Prop where
  distinct : DistinctSymbols inputs
  get : ∀ i k e, (i,k,e) ∈ Order.targets inputs → places[e.id]? = some (i,k)
  mem : ∀ id i k, places[id]? = some (i,k) → ∃ e, (i,k,e) ∈ Order.targets inputs ∧ e.id = id

theorem inputPlaces_places {inputs : Array (Matrix (Expr K))} {places : Std.HashMap Nat (Nat × Nat)}
    (h : inputPlaces inputs = .ok places) : Places inputs places := by
  rw [inputPlaces_eq] at h
  have hc := foldlM_claim h
  refine ⟨⟨?_, ?_⟩, fun i k e ht => hc.get _ ht, fun id i k hid => ?_⟩
  · intro e he
    rw [← Order.targets_map] at he
    obtain ⟨t, ht, rfl⟩ := List.mem_map.mp he
    exact hc.symbol t ht
  · rw [← Order.targets_map, List.map_map]
    exact hc.nodup
  · by_cases hn : ∀ t ∈ Order.targets inputs, t.2.2.id ≠ id
    · rw [hc.rest id hn] at hid
      simp at hid
    · simp only [not_forall, not_not] at hn
      obtain ⟨t, ht, rfl⟩ := hn
      rw [hc.get t ht] at hid
      cases hid
      exact ⟨t.2.2, ht, rfl⟩

theorem exists_inputPlaces {inputs : Array (Matrix (Expr K))} (h : DistinctSymbols inputs) :
    ∃ places, inputPlaces inputs = .ok places := by
  rw [inputPlaces_eq]
  refine exists_foldlM_claim (fun t ht => ?_) ?_ (by simp)
  · exact h.symbol _ (by rw [← Order.targets_map]; exact List.mem_map_of_mem ht)
  · have hn := h.nodup
    rwa [← Order.targets_map, List.map_map] at hn

end Tape

end Fluxion
