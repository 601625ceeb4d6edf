import Fluxion.Proofs.Tape.Values

/-!
Symbols of a tape. Inputs are symbols of their own, and the first entry that is not is reported; the symbols that the
outputs reach beyond them are the free ones of the tape.
-/
set_option autoImplicit false

namespace Fluxion.Tape

variable {K : Type} {inputs outputs : Array (Matrix (Expr K))}

/-- Input entry number `n` is no symbol, or one that is an input already. -/
def Unfit (inputs : Array (Matrix (Expr K))) (n : Nat) : Prop :=
  ∃ t, (Order.targets inputs)[n]? = some t ∧
    ((∀ s, t.2.2 ≠ .symbol s) ∨ ∃ u ∈ (Order.targets inputs).take n, u.2.2 = t.2.2)

/-- What is reported is where the entry is. -/
theorem claim_eq_error {places : Std.HashMap Nat (Nat × Nat)} {t : Nat × Nat × Expr K}
    (h : ∀ places', claim places t ≠ .ok places') : claim places t = .error (.invalidInput t.1 t.2.1) := by
  obtain ⟨i, k, e⟩ := t
  cases e with
  | symbol s =>
    by_cases hs : places.contains s.id
    · exact if_pos hs
    · exact absurd (if_neg hs) (h _)
  | _ => rfl

theorem Claimed.mem_iff {places : Std.HashMap Nat (Nat × Nat)} {ts : List (Nat × Nat × Expr K)}
    (h : Claimed ∅ places ts) {id : Nat} : id ∈ places ↔ ∃ t ∈ ts, t.2.2.id = id := by
  rw [Std.HashMap.mem_iff_isSome_getElem?]
  by_cases hid : ∃ t ∈ ts, t.2.2.id = id
  · obtain ⟨t, ht, rfl⟩ := hid
    simpa [h.get t ht] using ⟨t.1, t.2.1, t.2.2, ht, rfl⟩
  · have hrest := h.rest id fun t ht he => hid ⟨t, ht, he⟩
    simp only [hrest, iff_false_right hid]
    simp

section Inputs

variable {live : Bool} {sorting : Sorting} {n i k : Nat} {e : Expr K}

theorem exists_symbol (hfit : ∀ m < n, ¬Unfit inputs m) {t : Nat × Nat × Expr K}
    (ht : t ∈ (Order.targets inputs).take n) : ∃ s, t.2.2 = .symbol s := by
  obtain ⟨m, hmn, hm⟩ := Order.exists_getElem?_of_mem_take ht
  by_contra hnone
  exact hfit m hmn ⟨t, hm, .inl fun s hs => hnone ⟨s, hs⟩⟩

theorem nodup_of_fit (h : Expr.Coherent (Matrix.entries inputs)) (hfit : ∀ m < n, ¬Unfit inputs m) :
    (((Order.targets inputs).take n).map fun t => t.2.2.id).Nodup := by
  refine List.nodup_iff_getElem?_ne_getElem?.mpr fun p q hpq hq heq => ?_
  rw [List.length_map, List.length_take] at hq
  have hqn : q < n := by omega
  rw [List.getElem?_map, List.getElem?_map, List.getElem?_take_of_lt hqn, List.getElem?_take_of_lt (by omega)] at heq
  obtain ⟨u, hu⟩ : ∃ u, (Order.targets inputs)[p]? = some u := ⟨_, List.getElem?_eq_getElem (by omega)⟩
  obtain ⟨t, ht⟩ : ∃ t, (Order.targets inputs)[q]? = some t := ⟨_, List.getElem?_eq_getElem (by omega)⟩
  rw [hu, ht] at heq
  have hentry {t : Nat × Nat × Expr K} {p : Nat} (ht : (Order.targets inputs)[p]? = some t) :
      Expr.ReachedFrom (Matrix.entries inputs) t.2.2 :=
    .root (Order.mem_targets_entries (List.mem_of_getElem? ht))
  have hsame := h.unique _ _ (hentry hu) (hentry ht) (Option.some.inj heq)
  refine hfit q hqn ⟨t, ht, .inr ⟨u, List.mem_iff_getElem?.mpr ⟨p, ?_⟩, hsame⟩⟩
  rw [List.getElem?_take_of_lt hpq, hu]

/-- Entries of which none is unfit get places. -/
theorem exists_claimed (h : Expr.Coherent (Matrix.entries inputs)) (hfit : ∀ m < n, ¬Unfit inputs m) :
    ∃ places, ((Order.targets inputs).take n).foldlM claim ∅ = .ok places :=
  exists_foldlM_claim (fun _ ht => exists_symbol hfit ht) (nodup_of_fit h hfit) (by simp)

theorem inputPlaces_unfit (h : Expr.Coherent (Matrix.entries inputs)) (hn : (Order.targets inputs)[n]? = some (i,k,e))
    (hunfit : Unfit inputs n) (hfit : ∀ m < n, ¬Unfit inputs m) : inputPlaces inputs = .error (.invalidInput i k) := by
  obtain ⟨places, hplaces⟩ := exists_claimed h hfit
  have hrefused : ∀ places', claim places (i,k,e) ≠ .ok places' := by
    intro places' hc
    obtain ⟨⟨s, hs⟩, hfresh, -⟩ := claim_eq_ok_iff.mp hc
    obtain ⟨t, ht, hnot | ⟨u, hu, hsame⟩⟩ := hunfit
    · rw [hn] at ht
      cases ht
      exact hnot s hs
    · rw [hn] at ht
      cases ht
      exact hfresh ((foldlM_claim hplaces).mem_iff.mpr ⟨u, hu, congrArg Expr.id hsame⟩)
  obtain ⟨hlt, hget⟩ := List.getElem?_eq_some_iff.mp hn
  rw [inputPlaces_eq, ← List.take_append_drop n (Order.targets inputs), List.drop_eq_getElem_cons hlt, hget,
    List.foldlM_append, hplaces]
  change List.foldlM claim places ((i,k,e) :: (Order.targets inputs).drop (n+1)) = _
  rw [List.foldlM_cons, claim_eq_error hrefused]
  rfl

theorem distinctSymbols_of_fit (h : Expr.Coherent (Matrix.entries inputs)) (hfit : ∀ n, ¬Unfit inputs n) :
    DistinctSymbols inputs := by
  obtain ⟨places, hplaces⟩ := exists_claimed h (n := (Order.targets inputs).length) fun m _ => hfit m
  rw [List.take_length, ← inputPlaces_eq] at hplaces
  exact (inputPlaces_places hplaces).distinct

variable [Number K]

/-- A tape cannot be made exactly when some input entry is unfit. -/
theorem ofGraph_error_iff (h : Expr.Coherent (Matrix.entries inputs)) :
    (∃ f, ofGraph inputs outputs live sorting = .error f) ↔ ∃ n, Unfit inputs n := by
  classical
  constructor
  · rintro ⟨f, hf⟩
    by_contra hnone
    obtain ⟨t, ht⟩ := exists_ofGraph (distinctSymbols_of_fit h (not_exists.mp hnone)) outputs live sorting
    cases hf.symm.trans ht
  · intro hsome
    obtain ⟨⟨i, k, e⟩, hn, -⟩ := Nat.find_spec hsome
    have hplaces := inputPlaces_unfit h hn (Nat.find_spec hsome) fun m hm => Nat.find_min hsome hm
    exact ⟨.invalidInput i k, by rw [ofGraph_eq, hplaces]; rfl⟩

end Inputs

/-- The free symbols of a tape of `outputs` over `inputs` whose elements are in the order `l`: those that the outputs
reach and that are no inputs. Each stands once, where the element that loads it says. -/
structure Frees (inputs outputs : Array (Matrix (Expr K))) (l : List (Node K)) (t : Tape K) : Prop where
  nodup : t.free.toList.Nodup
  mem : ∀ s, s ∈ t.free ↔ Expr.ReachedFrom (Matrix.entries outputs) (.symbol s) ∧ .symbol s ∉ Matrix.entries inputs
  loads : (t.elements.toList.filter (·.op = .parameter)).map Element.left = List.range t.free.size
  symbol : ∀ (p : Nat) (el : Element K), t.elements[p]? = some el → el.op = .parameter →
    ∃ s, l[p]? = some (.expr (.symbol s)) ∧ t.free[el.left]? = some s
  loaded : ∀ s ∈ t.free, ∃ (p : Nat) (el : Element K), l[p]? = some (.expr (.symbol s)) ∧ t.elements[p]? = some el ∧
    el.op = .parameter ∧ t.free[el.left]? = some s

section Free

variable [Number K] {places : Std.HashMap Nat (Nat × Nat)} {l : List (Node K)} {slot : Nat → Nat} {t : Tape K}

omit [Number K] in
theorem Places.getElem?_eq_none (hp : Places inputs places)
    (h : Expr.Coherent (Matrix.entries inputs ++ Matrix.entries outputs)) {s : Symbol}
    (hs : Expr.ReachedFrom (Matrix.entries outputs) (.symbol s)) :
    places[s.id]? = none ↔ .symbol s ∉ Matrix.entries inputs := by
  constructor
  · intro hnone hmem
    obtain ⟨i, k, m, hm, hk⟩ := Matrix.mem_entries.mp hmem
    have hget := hp.get i k _ (Order.mem_targets.mpr ⟨m, hm, hk⟩)
    rw [Expr.id, hnone] at hget
    cases hget
  · intro hnot
    cases hplace : places[s.id]? with
    | none => rfl
    | some p =>
      obtain ⟨e, he, hid⟩ := hp.mem _ p.1 p.2 hplace
      have hinput := Order.mem_targets_entries he
      have hreached := hs.mono fun e he => .root (List.mem_append_right (Matrix.entries inputs) he)
      obtain rfl := h.unique e _ (.root (List.mem_append_left _ hinput)) hreached hid
      exact absurd hinput hnot

theorem elementAt_free {s : Symbol} (hs : places[s.id]? = none) (slot : Nat → Nat) (free : Nat) :
    elementAt places slot free (.expr (.symbol s)) = (⟨.parameter, slot s.id, free, 0, Number.zero⟩ : Element K) := by
  simp [elementAt, hs]

theorem op_elementAt_eq_parameter {free : Nat} {n : Node K} (hn : n.Proper) :
    (elementAt places slot free n).op = .parameter ↔ ∃ s, n = .expr (.symbol s) ∧ places[s.id]? = none := by
  constructor
  · intro hop
    cases n with
    | store i k id => cases hop
    | expr e =>
      cases e with
      | symbol s =>
        cases hs : places[s.id]? with
        | none => exact ⟨s, rfl, hs⟩
        | some p => simp [elementAt, hs] at hop
      | const i v => cases hop
      | unary i op a =>
        obtain rfl : op = .parameter := hop
        cases hn.1
      | binary i op a b =>
        obtain rfl : op = .parameter := hop
        cases hn.1
  · rintro ⟨s, rfl, hs⟩
    rw [elementAt_free hs]

/-- The free symbols are numbered as they are loaded. -/
theorem left_layout (hl : ∀ n ∈ l, n.Proper) :
    ((layout places slot l).filter (·.op = .parameter)).map Element.left =
      List.range (freeAmong places (Order.exprs l)).length := by
  induction l using List.reverseRecOn with
  | nil => rfl
  | append_singleton l n ih =>
    rw [layout_snoc, List.filter_append, List.map_append, ih fun m hm => hl m (List.mem_append_left _ hm),
      Order.exprs_append, freeAmong_append, List.length_append]
    generalize (freeAmong places (Order.exprs l)).length = free
    by_cases hfree : ∃ s, n = .expr (.symbol s) ∧ places[s.id]? = none
    · obtain ⟨s, rfl, hs⟩ := hfree
      simp [elementAt_free hs, freeAmong, Expr.symbol?, hs, List.range_succ]
    · have hop : (elementAt places slot free n).op ≠ .parameter :=
        mt (op_elementAt_eq_parameter (hl n (by simp))).mp hfree
      have hnone : freeAmong places (Order.exprs [n]) = [] := List.eq_nil_iff_forall_not_mem.mpr fun s hs => by
        obtain ⟨hmem, hs⟩ := mem_freeAmong.mp hs
        exact hfree ⟨s, (List.mem_singleton.mp (Order.mem_exprs.mp hmem)).symm, hs⟩
      simp [hop, hnone]

theorem Compiled.frees (hc : Compiled inputs outputs places l slot t)
    (h : Expr.Coherent (Matrix.entries inputs ++ Matrix.entries outputs)) : Frees inputs outputs l t := by
  have hproper := hc.complete.proper (h.mono fun e he => .root (List.mem_append_right _ he))
  have hmem (s : Symbol) : s ∈ t.free ↔ .symbol s ∈ Order.exprs l ∧ places[s.id]? = none := by
    rw [← Array.mem_toList_iff, hc.free, mem_freeAmong]
  have hgetElem (p : Nat) : t.elements[p]? = (layout places slot l)[p]? := by
    rw [← Array.getElem?_toList, hc.elements]
  -- A free symbol is loaded by the number that it has where its node stands.
  have hnumber {p : Nat} {s : Symbol} (hp : l[p]? = some (.expr (.symbol s))) (hs : places[s.id]? = none) :
      ∃ el, t.elements[p]? = some el ∧ el.op = .parameter ∧ t.free[el.left]? = some s := by
    obtain ⟨hlt, hn⟩ := List.getElem?_eq_some_iff.mp hp
    have hsplit : l = l.take p ++ .expr (.symbol s) :: l.drop (p+1) := by
      rw [← hn, ← List.drop_eq_getElem_cons hlt, List.take_append_drop]
    refine ⟨_, by rw [hgetElem, layout_getElem?, hp]; rfl, ?_⟩
    rw [elementAt_free hs]
    exact ⟨rfl, hc.free_symbol hsplit hs⟩
  refine ⟨?_, fun s => ?_, ?_, fun p el hel hop => ?_, fun s hs => ?_⟩
  · rw [hc.free, freeAmong]
    refine .filter _ (hc.complete.placed.nodup.of_map.filterMap fun a b s ha hb => ?_)
    cases a <;> cases ha
    cases b <;> cases hb
    rfl
  · rw [hmem, hc.complete.mem_exprs]
    exact and_congr_right fun hs => hc.placed.getElem?_eq_none h hs
  · rw [hc.elements, left_layout hproper, ← hc.free, Array.length_toList]
  · rw [hgetElem, layout_getElem?] at hel
    obtain ⟨n, hn, rfl⟩ := Option.map_eq_some_iff.mp hel
    obtain ⟨s, rfl, hs⟩ := (op_elementAt_eq_parameter (hproper n (List.mem_of_getElem? hn))).mp hop
    obtain ⟨el, hel', -, hfree⟩ := hnumber hn hs
    rw [hgetElem, layout_getElem?, hel] at hel'
    cases hel'
    exact ⟨s, hn, hfree⟩
  · obtain ⟨he, hnone⟩ := (hmem s).mp hs
    obtain ⟨p, hp⟩ := List.mem_iff_getElem?.mp (Order.mem_exprs.mp he)
    obtain ⟨el, hel, hop, hfree⟩ := hnumber hp hnone
    exact ⟨p, el, hp, hel, hop, hfree⟩

end Free

end Fluxion.Tape
