import Fluxion.Proofs.Function.Gradient

/-!
Symbols for seeds. They take the next numbers one after the other, so they are different from each other and
from all symbols that were there.
-/
set_option autoImplicit false

namespace Fluxion

variable {K : Type}

namespace Expr

/-- Symbols that have the numbers from `n` up to `m`, in this order. -/
structure Consecutive (n m : Nat) (es : List (Expr K)) : Prop where
  le : n ≤ m
  symbol : ∀ e ∈ es, ∃ s, e = .symbol s
  ids : es.map Expr.id = List.range' n (m-n)

theorem consecutive_nil (n : Nat) : Consecutive n n ([] : List (Expr K)) :=
  ⟨le_rfl, by simp, by simp⟩

theorem Consecutive.append {n m k : Nat} {es es' : List (Expr K)} (h : Consecutive n m es)
    (h' : Consecutive m k es') : Consecutive n k (es ++ es') := by
  have hn := h.le
  have hm := h'.le
  refine ⟨hn.trans hm, fun e he => (List.mem_append.mp he).elim (h.symbol e) (h'.symbol e), ?_⟩
  rw [List.map_append, h.ids, h'.ids]
  have hsplit := List.range'_append_1 (s := n) (m := m-n) (n := k-m)
  rw [Nat.add_sub_cancel' hn] at hsplit
  rw [hsplit]
  congr 1
  omega

theorem Consecutive.id_mem {n m : Nat} {es : List (Expr K)} (h : Consecutive n m es) {e : Expr K}
    (he : e ∈ es) : n ≤ e.id ∧ e.id < m := by
  have hid : e.id ∈ es.map Expr.id := List.mem_map_of_mem he
  have hle := h.le
  rw [h.ids, List.mem_range'_1] at hid
  omega

/-- The action makes symbols with the next numbers, and a result of which `P` holds. -/
def MakesSymbols {α : Type} (entries : α → List (Expr K)) (P : α → Prop) (act : Fresh α) : Prop :=
  ∀ n, Consecutive n (act.run n).2 (entries (act.run n).1) ∧ P (act.run n).1

theorem makesSymbols_newSymbol (name : String) :
    MakesSymbols (fun e : Expr K => [e]) (fun e => e.symbol?.map Symbol.name = some name)
      (newSymbol name) := by
  refine fun n => ⟨⟨Nat.le_succ n, ?_, ?_⟩, rfl⟩
  · intro e he
    exact ⟨_, List.mem_singleton.mp he⟩
  · change [n] = List.range' n (n+1-n)
    simp

theorem makesSymbols_mapM {T U V : Type} {entries : U → List (Expr K)} {P : U → Prop} {g : U → V} {h : T → V}
    {step : T → Fresh U} {a : Array T}
    (hstep : ∀ x ∈ a, MakesSymbols entries (fun y => P y ∧ g y = h x) (step x)) :
    MakesSymbols (fun ys : Array U => ys.toList.flatMap entries)
      (fun ys => (∀ y ∈ ys, P y) ∧ ys.map g = a.map h) (a.mapM step) := by
  have hlist (l : List T) (hl : ∀ x ∈ l, MakesSymbols entries (fun y => P y ∧ g y = h x) (step x)) :
      MakesSymbols (List.flatMap entries) (fun ys => (∀ y ∈ ys, P y) ∧ ys.map g = l.map h)
        (l.mapM step) := by
    induction l with
    | nil => exact fun n => ⟨consecutive_nil n, fun y hy => (List.not_mem_nil hy).elim, rfl⟩
    | cons x l ih =>
      obtain ⟨hx, hl⟩ := List.forall_mem_cons.mp hl
      intro n
      obtain ⟨hsym, hp, hg⟩ := hx n
      obtain ⟨hsyms, hps, hgs⟩ := ih hl ((step x).run n).2
      rw [List.mapM_cons]
      exact ⟨hsym.append hsyms, List.forall_mem_cons.mpr ⟨hp, hps⟩, congrArg₂ List.cons hg hgs⟩
  intro n
  obtain ⟨hsym, hp, hg⟩ := hlist a.toList (fun x hx => hstep x (by simpa using hx)) n
  have hrun : (a.mapM step).run n =
      (((a.toList.mapM step).run n).1.toArray, ((a.toList.mapM step).run n).2) := by
    rw [Array.mapM_eq_mapM_toList]
    rfl
  rw [hrun]
  refine ⟨hsym, fun y hy => hp y (by simpa using hy), ?_⟩
  rw [← Array.toList_inj, Array.toList_map, Array.toList_map]
  exact hg

end Expr

open Fluxion.Expr

theorem Matrix.makesSymbols_symbols (name : String) (p : Pattern) :
    MakesSymbols (fun m : Matrix (Expr K) => m.values.toList) (fun m => m.Sized ∧ m.pattern = p)
      (Matrix.symbols name p) := by
  intro n
  rw [Matrix.symbols]
  split
  · next h =>
    have hs := (makesSymbols_newSymbol (K := K) name n).1
    simp only [Bool.and_eq_true, decide_eq_true_eq] at h
    exact ⟨hs, h.1.symm, rfl⟩
  · have hname (k : Nat) : MakesSymbols (fun e : Expr K => [e])
        (fun e => True ∧ e.symbol?.map Symbol.name = some s!"{name}_{k}") (newSymbol s!"{name}_{k}") :=
      fun n => ⟨(makesSymbols_newSymbol _ n).1, trivial, (makesSymbols_newSymbol _ n).2⟩
    obtain ⟨hs, -, hnames⟩ := makesSymbols_mapM (a := Array.range p.nnz) (fun k _ => hname k) n
    refine ⟨?_, ?_, rfl⟩
    · dsimp only at hs
      rw [List.flatMap_singleton'] at hs
      exact hs
    · have hsize := congrArg Array.size hnames
      simp only [Array.size_map, Array.size_range] at hsize
      exact hsize

namespace Symbolic

/-- Seed matrices for each of `n` directions, on the given patterns. -/
structure Seeds (ps : Array Pattern) (n : Nat) (ss : Array (Array (Matrix (Expr K)))) : Prop where
  pattern : ss.map (·.map (·.pattern)) = Array.replicate n ps
  sized : ∀ ms ∈ ss, ∀ m ∈ ms, m.Sized

theorem makesSymbols_seedSymbols (label part : String) (ps : Array Pattern) (n : Nat) :
    MakesSymbols (fun ss : Array (Array (Matrix (Expr K))) => Matrix.entries ss.flatten) (Seeds ps n)
      (seedSymbols label part ps n) := by
  have hrow (d : Nat) : MakesSymbols (fun ms : Array (Matrix (Expr K)) => Matrix.entries ms)
      (fun ms => (∀ m ∈ ms, m.Sized) ∧ ms.map Matrix.pattern = ps) (ps.zipIdx.mapM fun x =>
        Matrix.symbols s!"{label}{d}_{part}{x.2}" x.1) := by
    have hmap := makesSymbols_mapM (K := K) (a := ps.zipIdx) (g := Matrix.pattern) (h := Prod.fst)
      fun x _ => Matrix.makesSymbols_symbols s!"{label}{d}_{part}{x.2}" x.1
    rw [Array.zipIdx_map_fst] at hmap
    exact hmap
  intro start
  obtain ⟨hs, hsized, hpattern⟩ := makesSymbols_mapM (a := Array.range n) (h := fun _ => ps)
    (fun d _ => hrow d) start
  refine ⟨?_, ?_, hsized⟩
  · dsimp only
    rw [Matrix.entries_flatten]
    exact hs
  · refine hpattern.trans (Array.ext_getElem? fun i => ?_)
    by_cases hi : i < n <;> simp [hi]

end Symbolic

theorem DistinctSymbols.append {inputs ms : Array (Matrix (Expr K))} (h : DistinctSymbols inputs) {n m : Nat}
    (hlt : ∀ e ∈ Matrix.entries inputs, e.id < n) (hs : Consecutive n m (Matrix.entries ms)) :
    DistinctSymbols (inputs ++ ms) ∧ ∀ e ∈ Matrix.entries (inputs ++ ms), e.id < m := by
  have hle := hs.le
  refine ⟨⟨fun e he => ?_, ?_⟩, fun e he => ?_⟩
  · rw [Matrix.entries_append, List.mem_append] at he
    exact he.elim (h.symbol e) (hs.symbol e)
  · rw [Matrix.entries_append, List.map_append, List.nodup_append]
    refine ⟨h.nodup, hs.ids ▸ List.nodup_range', ?_⟩
    rintro i hi j hj rfl
    obtain ⟨e, he, rfl⟩ := List.mem_map.mp hi
    obtain ⟨d, hd, hid⟩ := List.mem_map.mp hj
    have := hlt e he
    have := (hs.id_mem hd).1
    omega
  · rw [Matrix.entries_append, List.mem_append] at he
    obtain he | he := he
    · exact (hlt e he).trans_le hle
    · exact (hs.id_mem he).2

end Fluxion
