import Mathlib
import Fluxion.Proofs.Detect.Filling

/-!
Which lane of which sweep a fine block gets. The lanes of a step are numbered through, color after color and a
word of them to each sweep. The seeds of all sweeps are kept in a log, which no answer and no later seed depends on.
-/
set_option autoImplicit false

namespace Fluxion

variable {σ : Type}

/-- The same sweeps, with a log of their seeds. -/
def Propagation.logged (p : Propagation σ) : Propagation (σ × List (Array Word)) where
  nnzIn := p.nnzIn
  nnzOut := p.nnzOut
  can := p.can
  sweep dir seed t := ((p.sweep dir seed t.1).1, (p.sweep dir seed t.1).2, t.2 ++ [seed])

namespace Detect

variable {coarse seeds : Pattern} {bounds sensBounds : List Nat} {n : Nat} {p : Propagation σ}
  {dir : Direction} {symmetric : Bool}

/-! ### The log -/

section Erases

variable {α β : Type}

/-- Without its log the first computation is the second. -/
def Erases (x : StateM (σ × List (Array Word)) α) (y : StateM σ α) : Prop :=
  ∀ t, (x t).1 = (y t.1).1 ∧ (x t).2.1 = (y t.1).2

theorem Erases.pure (a : α) : Erases (σ := σ) (Pure.pure a) (Pure.pure a) := fun _ => ⟨rfl, rfl⟩

theorem Erases.bind {x : StateM (σ × List (Array Word)) α} {y : StateM σ α}
    {f : α → StateM (σ × List (Array Word)) β} {g : α → StateM σ β} (h : Erases x y)
    (hf : ∀ a, Erases (f a) (g a)) : Erases (x >>= f) (y >>= g) := by
  intro t
  obtain ⟨ha, hs⟩ := h t
  change ((f (x t).1) (x t).2).1 = ((g (y t.1).1) (y t.1).2).1 ∧
    ((f (x t).1) (x t).2).2.1 = ((g (y t.1).1) (y t.1).2).2
  rw [← ha, ← hs]
  exact hf _ _

theorem Erases.foldlM {f : β → α → StateM (σ × List (Array Word)) β} {g : β → α → StateM σ β}
    (h : ∀ b a, Erases (f b a) (g b a)) (xs : List α) (b : β) : Erases (xs.foldlM f b) (xs.foldlM g b) := by
  induction xs generalizing b with
  | nil => exact .pure b
  | cons a xs ih => exact (h b a).bind ih

end Erases

theorem erases_flush (l : Lanes) (s : Split) :
    Erases (l.flush p.logged dir s symmetric) (l.flush p dir s symmetric) := by
  unfold Lanes.flush
  split
  · exact .pure l
  · exact Erases.bind (fun _ => ⟨rfl, rfl⟩) fun _ => .pure _

theorem erases_takeLane (l : Lanes) (s : Split) (dependents : Pattern) (members : Array Nat) (j : Nat) :
    Erases (l.takeLane p.logged dir s symmetric dependents members j)
      (l.takeLane p dir s symmetric dependents members j) := by
  unfold Lanes.takeLane
  split
  · exact (erases_flush l s).bind fun _ => .pure _
  · exact (Erases.pure l).bind fun _ => .pure _

theorem erases_refine (p : Propagation σ) (dir : Direction) (symmetric : Bool) (coarse seeds : Pattern)
    (bounds sensBounds : List Nat) : Erases (refine p.logged dir symmetric coarse seeds bounds sensBounds)
      (refine p dir symmetric coarse seeds bounds sensBounds) := by
  rw [refine_eq, refine_eq]
  refine (Erases.foldlM (fun l job => ?_) _ _).bind fun l => (erases_flush l _).bind fun _ => .pure _
  exact erases_takeLane l _ _ job.1 job.2

/-- Sweep `i` of the log seeds the parts that hold its lanes, and no others. -/
structure Records (bounds : List Nat) (n : Nat) (sent : List (Array Nat × Nat)) (log : List (Array Word)) :
    Prop where
  length : log.length = ceilDiv sent.length Word.size
  seed : ∀ i b c, i < log.length → b < Word.size → c < n → (((log.getD i #[]).getD c 0).test b = true ↔
    ∃ m j, Holds bounds (sent.getD (Word.size*i+b) (#[],0)) m j ∧ InBlock (subdivide bounds) (part bounds m j) c)

theorem lasting_records (p : Propagation σ) (dir : Direction) (symmetric : Bool) (coarse : Pattern)
    (bounds sensBounds : List Nat) (n : Nat) : Lasting p.logged dir symmetric coarse bounds sensBounds n
      fun sent _ t => Records bounds n sent t.2 := by
  intro sent jobs l t hf hne h
  have hsent := hf.sent
  have hroom := hf.room
  have hpos := List.length_pos_of_ne_nil hne
  have hlog : t.2.length = l.sweeps := by
    rw [h.length, hsent]
    unfold ceilDiv Word.size
    omega
  refine ⟨?_, fun i b c hi hb hc => ?_⟩
  · change (t.2 ++ [l.seed]).length = _
    rw [List.length_append, List.length_append, List.length_singleton, hlog]
    unfold ceilDiv
    unfold Word.size at hsent hroom ⊢
    omega
  · change i < (t.2 ++ [l.seed]).length at hi
    change ((((t.2 ++ [l.seed]).getD i #[]).getD c 0).test b = true ↔ _)
    rw [List.length_append, List.length_singleton] at hi
    rw [getD_snoc]
    by_cases hlast : i = t.2.length
    · -- The lanes held until now make up this sweep.
      rw [if_pos hlast, hf.packing.seed c b hc hb, List.getD_append_right _ _ _ _ (by rw [hsent, hlast, hlog]; omega)]
      rw [hsent, hlast, hlog, Nat.add_sub_cancel_left]
    · have hlt : Word.size*i+b < sent.length := by
        have hi : i+1 ≤ l.sweeps := by omega
        have hmul := Nat.mul_le_mul_left Word.size hi
        rw [Nat.mul_succ] at hmul
        omega
      rw [if_neg hlast, List.getD_append _ _ _ _ hlt]
      exact h.seed i b c (by omega) hb hc

/-! ### Numbers of lanes -/

theorem length_flatMap_range {α : Type} (f : Nat → List α) (n : Nat) :
    ((List.range n).flatMap f).length = ∑ k ∈ Finset.range n, (f k).length := by
  induction n with
  | zero => rfl
  | succ n ih => simp [List.range_succ, Finset.sum_range_succ, ih]

/-- Piece `k` starts after the pieces before it. -/
theorem getElem?_flatMap_range {α : Type} (f : Nat → List α) {n k j : Nat} (hk : k < n) (hj : j < (f k).length) :
    ((List.range n).flatMap f)[∑ i ∈ Finset.range k, (f i).length + j]? = (f k)[j]? := by
  induction n with
  | zero => omega
  | succ n ih =>
    rw [List.range_succ, List.flatMap_append]
    rcases Nat.lt_succ_iff_lt_or_eq.mp hk with hlt | rfl
    · have hi := ih hlt
      have hsome : ((List.range n).flatMap f)[∑ i ∈ Finset.range k, (f i).length + j]?.isSome := by
        rw [hi]
        simpa using hj
      rw [List.getElem?_append_left (by simpa using hsome), hi]
    · rw [← length_flatMap_range, List.getElem?_append_right (by omega)]
      simp

theorem foldl_max_eq_sup (f : Nat → Nat) (xs : List Nat) (w : Nat) :
    xs.foldl (fun w m => max w (f m)) w = max w (xs.toFinset.sup f) := by
  induction xs generalizing w with
  | nil => simp
  | cons x xs ih => simp [ih, max_assoc]

/-- Number of the fine blocks in block `m`. -/
def fineCount (bounds : List Nat) (m : Nat) : Nat :=
  ((Finset.range ((subdivide bounds).length - 1)).filter fun x =>
    InBlock bounds m ((subdivide bounds).getD x 0)).card

/-- Number of the fine blocks in the largest of the members. -/
def widest (bounds : List Nat) (members : Array Nat) : Nat := members.toList.toFinset.sup (fineCount bounds)

/-- Number of the lanes that the first `k` colors ask for. -/
def lanesBefore (bounds : List Nat) (seeds : Pattern) (k : Nat) : Nat :=
  ∑ i ∈ Finset.range k, widest bounds (seeds.row i)

theorem lanesBefore_succ (bounds : List Nat) (seeds : Pattern) (k : Nat) :
    lanesBefore bounds seeds (k+1) = lanesBefore bounds seeds k + widest bounds (seeds.row k) :=
  Finset.sum_range_succ _ _

theorem lanesBefore_le (bounds : List Nat) (seeds : Pattern) {k n : Nat} (h : k ≤ n) :
    lanesBefore bounds seeds k ≤ lanesBefore bounds seeds n :=
  Finset.sum_le_sum_of_subset (Finset.range_subset_range.mpr h)

theorem exists_of_lt_lanesBefore {t n : Nat} (h : t < lanesBefore bounds seeds n) :
    ∃ k j, k < n ∧ j < widest bounds (seeds.row k) ∧ t = lanesBefore bounds seeds k + j := by
  induction n with
  | zero => simp [lanesBefore] at h
  | succ n ih =>
    rw [lanesBefore_succ] at h
    by_cases hlt : t < lanesBefore bounds seeds n
    · obtain ⟨k, j, hk, hj⟩ := ih hlt
      exact ⟨k, j, by omega, hj⟩
    · exact ⟨n, t - lanesBefore bounds seeds n, by omega, by omega, by omega⟩

theorem fineCount_eq (hb : bounds.Pairwise (· < ·)) {m : Nat} (hm : m+1 < bounds.length) :
    fineCount bounds m = partCount bounds m := by
  have hr := refines_firstFine (sublist_subdivide bounds)
  have hf := subdivide_strict hb
  have hlast := hr.lt (m+1) hm
  have hfilter : ((Finset.range ((subdivide bounds).length - 1)).filter fun x =>
      InBlock bounds m ((subdivide bounds).getD x 0)) =
        Finset.Ico ((firstFine bounds (subdivide bounds)).getD m 0)
          ((firstFine bounds (subdivide bounds)).getD (m+1) 0) := by
    ext x
    rw [Finset.mem_filter, Finset.mem_range, Finset.mem_Ico]
    constructor
    · rintro ⟨hx, hin⟩
      exact (hr.inBlock_iff hf hm (inBlock_getD hf (by omega))).mp hin
    · intro hx
      have hlt : x+1 < (subdivide bounds).length := by omega
      exact ⟨by omega, (hr.inBlock_iff hf hm (inBlock_getD hf hlt)).mpr hx⟩
  rw [fineCount, hfilter, Nat.card_Ico, partCount]

/-- Fine block `x` is a part of a block of color `k`. -/
def HasColor (bounds : List Nat) (seeds : Pattern) (k x : Nat) : Prop :=
  ∃ m, (k,m) ∈ seeds.entries ∧ InBlock bounds m ((subdivide bounds).getD x 0)

/-- Lane `t` belongs to the color of fine block `x` and has the number of `x` among the parts of its block. -/
def LaneOf (bounds : List Nat) (seeds : Pattern) (x t : Nat) : Prop :=
  ∃ k m j, (k,m) ∈ seeds.entries ∧ j < partCount bounds m ∧ x = part bounds m j ∧
    t = lanesBefore bounds seeds k + j

section Colored

variable (hb : bounds.Pairwise (· < ·)) (hn : seeds.ncol+1 = bounds.length)
include hb hn

theorem part_inj {m j m' j' : Nat} (hm : m < seeds.ncol) (hj : j < partCount bounds m) (hm' : m' < seeds.ncol)
    (hj' : j' < partCount bounds m') (h : part bounds m j = part bounds m' j') : m = m' ∧ j = j' := by
  obtain ⟨c, hx⟩ : ∃ c, InBlock (subdivide bounds) (part bounds m j) c :=
    ⟨_, inBlock_getD (subdivide_strict hb) (part_lt (by omega) hj)⟩
  have hin := inBlock_of_part hb (by omega) hj hx
  have hin' := inBlock_of_part hb (by omega) hj' (h ▸ hx)
  obtain rfl := hin.unique hb hin'
  unfold part at h
  exact ⟨rfl, by omega⟩

theorem exists_laneOf (hone : ∀ m < seeds.ncol, ∃! k, (k,m) ∈ seeds.entries) {x : Nat}
    (hx : x+1 < (subdivide bounds).length) : ∃ t, LaneOf bounds seeds x t := by
  obtain ⟨m, j, hm, hj, rfl⟩ := exists_part hb hx
  obtain ⟨k, hk, -⟩ := hone m (by omega)
  exact ⟨_, k, m, j, hk, hj, rfl, rfl⟩

variable (hv : seeds.Valid)
include hv

theorem lanes_row {k : Nat} (hk : k < seeds.nrow) (s : List Nat) :
    (seeds.row k).foldl (fun w m => max w ((Split.of bounds s).width m)) 0 = widest bounds (seeds.row k) := by
  rw [← Array.foldl_toList, foldl_max_eq_sup, Nat.zero_max]
  refine Finset.sup_congr rfl fun m hm => ?_
  have hlt := hv.bound k hk m (by simpa using hm)
  rw [Split.width_of, fineCount_eq hb (by omega)]

theorem length_lanesOf (s : List Nat) : (lanesOf (Split.of bounds s) seeds).length =
    lanesBefore bounds seeds seeds.nrow := by
  rw [lanesOf, length_flatMap_range]
  refine Finset.sum_congr rfl fun k hk => ?_
  rw [List.length_map, List.length_range, lanes_row hb hn hv (Finset.mem_range.mp hk)]

theorem getD_lanesOf (s : List Nat) {k j : Nat} (hk : k < seeds.nrow) (hj : j < widest bounds (seeds.row k)) :
    (lanesOf (Split.of bounds s) seeds).getD (lanesBefore bounds seeds k + j) (#[],0) =
      (seeds.row k, j) := by
  have hwidth {i : Nat} (hi : i < seeds.nrow) := lanes_row hb hn hv hi s
  have hsum : lanesBefore bounds seeds k = ∑ i ∈ Finset.range k,
      ((List.range ((seeds.row i).foldl (fun w m => max w ((Split.of bounds s).width m)) 0)).map
        fun j => (seeds.row i, j)).length := by
    refine Finset.sum_congr rfl fun i hi => ?_
    have hi := Finset.mem_range.mp hi
    rw [List.length_map, List.length_range, hwidth (by omega)]
  rw [List.getD_eq_getElem?_getD, hsum, lanesOf, getElem?_flatMap_range _ hk]
  · simp [hwidth hk, hj]
  · rw [List.length_map, List.length_range, hwidth hk]
    exact hj

theorem partCount_le_widest {k m : Nat} (hm : (k,m) ∈ seeds.entries) :
    partCount bounds m ≤ widest bounds (seeds.row k) := by
  have hlt := (hv.entry_lt hm).2
  rw [← fineCount_eq hb (by omega)]
  exact Finset.le_sup (f := fineCount bounds) (by simpa using (Pattern.mem_entries.mp hm).2)

theorem LaneOf.lt {x t : Nat} (h : LaneOf bounds seeds x t) :
    t < lanesBefore bounds seeds seeds.nrow := by
  obtain ⟨k, m, j, hm, hj, -, rfl⟩ := h
  have hk := (Pattern.mem_entries.mp hm).1
  have hle := partCount_le_widest hb hn hv hm
  have hsucc := lanesBefore_le bounds seeds (Nat.succ_le_of_lt hk)
  rw [lanesBefore_succ] at hsucc
  omega

/-- Every lane is the lane of some fine block. -/
theorem exists_laneOf_of_lt {t : Nat} (h : t < lanesBefore bounds seeds seeds.nrow) :
    ∃ x, x+1 < (subdivide bounds).length ∧ LaneOf bounds seeds x t := by
  obtain ⟨k, j, hk, hj, rfl⟩ := exists_of_lt_lanesBefore h
  obtain ⟨m, hm, hsup⟩ := Finset.lt_sup_iff.mp hj
  have hm : m ∈ seeds.row k := by simpa using hm
  have hlt := hv.bound k hk m hm
  rw [fineCount_eq hb (by omega)] at hsup
  exact ⟨part bounds m j, part_lt (by omega) hsup, k, m, j, Pattern.mem_entries.mpr ⟨hk, hm⟩, hsup, rfl, rfl⟩

variable (hone : ∀ m < seeds.ncol, ∃! k, (k,m) ∈ seeds.entries)
include hone

theorem LaneOf.unique {x t t' : Nat} (h : LaneOf bounds seeds x t) (h' : LaneOf bounds seeds x t') : t = t' := by
  obtain ⟨k, m, j, hm, hj, rfl, rfl⟩ := h
  obtain ⟨k', m', j', hm', hj', he, rfl⟩ := h'
  have hlt := (hv.entry_lt hm).2
  obtain ⟨rfl, rfl⟩ := part_inj hb hn hlt hj (hv.entry_lt hm').2 hj' he
  rw [(hone m hlt).unique hm hm']

theorem LaneOf.color {x t k : Nat} (h : LaneOf bounds seeds x t) (hk : HasColor bounds seeds k x) :
    ∃ m j, (k,m) ∈ seeds.entries ∧ j < partCount bounds m ∧ x = part bounds m j ∧
      t = lanesBefore bounds seeds k + j := by
  obtain ⟨l, m, j, hm, hj, rfl, rfl⟩ := h
  obtain ⟨m', hm', hin'⟩ := hk
  have hlt := (hv.entry_lt hm).2
  have hin := inBlock_of_part hb (by omega) hj (inBlock_getD (subdivide_strict hb) (part_lt (by omega) hj))
  obtain rfl := hin.unique hb hin'
  obtain rfl := (hone m hlt).unique hm hm'
  exact ⟨m, j, hm, hj, rfl, rfl⟩

/-- A lane is for blocks of one color. -/
theorem LaneOf.color_unique {x y t k k' : Nat} (hx : LaneOf bounds seeds x t) (hy : LaneOf bounds seeds y t)
    (hk : HasColor bounds seeds k x) (hk' : HasColor bounds seeds k' y) : k = k' := by
  obtain ⟨m, j, hm, hj, -, ht⟩ := hx.color hb hn hv hone hk
  obtain ⟨m', j', hm', hj', -, ht'⟩ := hy.color hb hn hv hone hk'
  have hjob := getD_lanesOf hb hn hv bounds (Pattern.mem_entries.mp hm).1
    (Nat.lt_of_lt_of_le hj (partCount_le_widest hb hn hv hm))
  have hjob' := getD_lanesOf hb hn hv bounds (Pattern.mem_entries.mp hm').1
    (Nat.lt_of_lt_of_le hj' (partCount_le_widest hb hn hv hm'))
  rw [← ht] at hjob
  rw [← ht', hjob] at hjob'
  have hrow : seeds.row k = seeds.row k' := congrArg Prod.fst hjob'
  have hmem : (k',m) ∈ seeds.entries :=
    Pattern.mem_entries.mpr ⟨(Pattern.mem_entries.mp hm').1, hrow ▸ (Pattern.mem_entries.mp hm).2⟩
  exact (hone m (hv.entry_lt hm).2).unique hm hmem

/-- In the log a fine block has the bit of its lane, and no other. -/
theorem Records.test_iff {s : List Nat} {log : List (Array Word)}
    (h : Records bounds n (lanesOf (Split.of bounds s) seeds) log) {x t : Nat} (hx : LaneOf bounds seeds x t)
    {i b c : Nat} (hi : i < log.length) (hword : b < Word.size) (hc : c < n)
    (hin : InBlock (subdivide bounds) x c) :
    ((log.getD i #[]).getD c 0).test b = true ↔ Word.size*i+b = t := by
  obtain ⟨k, m, j, hm, hj, rfl, rfl⟩ := hx
  have hlt := (hv.entry_lt hm).2
  rw [h.seed i b c hi hword hc]
  constructor
  · rintro ⟨m', j', hholds, hin'⟩
    have hlane : Word.size*i+b < lanesBefore bounds seeds seeds.nrow := by
      by_contra hge
      rw [List.getD_eq_default _ _ (by rw [length_lanesOf hb hn hv]; omega)] at hholds
      simpa using hholds.1
    obtain ⟨k', l, hk', hl, he⟩ := exists_of_lt_lanesBefore hlane
    rw [he, getD_lanesOf hb hn hv s hk' hl] at hholds
    obtain ⟨hm', rfl, hj'⟩ := hholds
    have hpart := hin'.unique (subdivide_strict hb) hin
    obtain ⟨rfl, rfl⟩ := part_inj hb hn (hv.bound k' hk' m' hm') hj' hlt hj hpart
    obtain rfl := (hone m' hlt).unique hm (Pattern.mem_entries.mpr ⟨hk', hm'⟩)
    exact he
  · intro he
    rw [he, getD_lanesOf hb hn hv s (Pattern.mem_entries.mp hm).1
      (Nat.lt_of_lt_of_le hj (partCount_le_widest hb hn hv hm))]
    exact ⟨m, j, ⟨(Pattern.mem_entries.mp hm).2, rfl, hj⟩, hin⟩

end Colored

/-- Where the log seeds the fine blocks: lane `b` of sweep `i` has number `64 i + b`. -/
structure Schedule (bounds : List Nat) (seeds : Pattern) (log : List (Array Word)) (lane : Nat → Nat) : Prop where
  /-- Every sweep seeds a block in the lane of the block, if it has this lane, and in no other. -/
  seeded : ∀ x, x+1 < (subdivide bounds).length → ∀ i b c, i < log.length → b < Word.size →
    InBlock (subdivide bounds) x c → (((log.getD i #[]).getD c 0).test b = true ↔ Word.size*i+b = lane x)
  apart : ∀ x y k k', x+1 < (subdivide bounds).length → y+1 < (subdivide bounds).length → lane x = lane y →
    HasColor bounds seeds k x → HasColor bounds seeds k' y → k = k'
  lt : ∀ x, x+1 < (subdivide bounds).length → lane x < lanesBefore bounds seeds seeds.nrow
  /-- No lane is left out before the last. -/
  onto : ∀ t, t < lanesBefore bounds seeds seeds.nrow → ∃ x, x+1 < (subdivide bounds).length ∧ lane x = t

/-- Whatever the sweeps answer, a step seeds each fine block in one lane of one sweep, and blocks of different colors
in different lanes. It uses all lanes of a sweep before the next one, so there are no more sweeps than the lanes of
the largest members need. -/
theorem refine_schedule (p : Propagation σ) (dir : Direction) (symmetric : Bool) {coarse seeds : Pattern}
    {seedBounds : List Nat} (hc : coarse.Valid) (hb : seedBounds.Pairwise (· < ·))
    (hn : coarse.ncol+1 = seedBounds.length) (hv : seeds.Valid) (hs : seeds.ncol = coarse.ncol)
    (hone : ∀ m < coarse.ncol, ∃! k, (k,m) ∈ seeds.entries) (sensBounds : List Nat) (st : σ) :
    ∃ (r : Refinement) (st' : σ) (log : List (Array Word)) (lane : Nat → Nat),
      refine p dir symmetric coarse seeds seedBounds sensBounds st = (r, st') ∧
      refine p.logged dir symmetric coarse seeds seedBounds sensBounds (st, []) = (r, st', log) ∧
      r.fineSeed = subdivide seedBounds ∧ r.sweeps = log.length ∧
      log.length = ceilDiv (lanesBefore seedBounds seeds seeds.nrow) Word.size ∧
      Schedule seedBounds seeds log lane := by
  rw [← hs] at hn hone
  obtain ⟨found, ⟨st', log⟩, hlogged, hrec⟩ := refine_run hb hc (hs ▸ hn) hv hs
    (lasting_records p dir symmetric coarse seedBounds sensBounds _) (st, []) ⟨rfl, by simp⟩
  obtain ⟨hval, hstate⟩ := erases_refine p dir symmetric coarse seeds seedBounds sensBounds (st, [])
  rw [hlogged] at hval hstate
  have hlane (x : Nat) : ∃ t, x+1 < (subdivide seedBounds).length → LaneOf seedBounds seeds x t := by
    by_cases hx : x+1 < (subdivide seedBounds).length
    · obtain ⟨t, ht⟩ := exists_laneOf hb hn hone hx
      exact ⟨t, fun _ => ht⟩
    · exact ⟨0, fun h => absurd h hx⟩
  choose lane hlane using hlane
  refine ⟨_, st', log, lane, Prod.ext hval.symm hstate.symm, hlogged, rfl, hrec.length.symm, ?_, ?_⟩
  · rw [hrec.length, length_lanesOf hb hn hv]
  · refine ⟨fun x hx i b c hi hword hin => ?_, fun x y k k' hx hy he hk hk' => ?_, fun x hx => ?_, fun t ht => ?_⟩
    · have hlast : (subdivide seedBounds).getLastD 0 = seedBounds.getLastD 0 := by
        rw [List.getLastD_eq_getLast?, getLast?_subdivide, ← List.getLastD_eq_getLast?]
      exact hrec.test_iff hb hn hv hone (hlane x hx) hi hword (hlast ▸ hin.lt_getLastD (subdivide_strict hb)) hin
    · exact (hlane x hx).color_unique hb hn hv hone (he ▸ hlane y hy) hk hk'
    · exact (hlane x hx).lt hb hn hv
    · obtain ⟨x, hx, hxt⟩ := exists_laneOf_of_lt hb hn hv ht
      exact ⟨x, hx, (hlane x hx).unique hb hn hv hone hxt⟩

/-- Two seed blocks with a color each, and one block that depends on both. -/
def wideSeeds : Pattern := .ofRows 2 #[#[0], #[1]]

theorem refine_schedule_sample : ∃ (r : Refinement) (log : List (Array Word)) (lane : Nat → Nat),
    refine (floodSweeps 72 5) .forward false (.dense 1 2) wideSeeds [2,42,72] [0,5] () = (r, ()) ∧ log.length = 2 ∧
      Schedule [2,42,72] wideSeeds log lane := by
  have hv : wideSeeds.Valid := Pattern.valid_ofRows (by simp) (by simp)
  have hentries : wideSeeds.entries = #[(0,0),(1,1)] := by cbv
  have hb : [2,42,72].Pairwise (· < ·) := by decide
  have hone : ∀ m < 2, ∃! k, (k,m) ∈ wideSeeds.entries := by
    intro m hm
    refine ⟨m, ?_, fun k hk => ?_⟩
    · rw [hentries]
      simp
      omega
    · rw [hentries] at hk
      simp at hk
      omega
  obtain ⟨r, ⟨⟩, log, lane, hrun, -, -, -, hlength, h⟩ := refine_schedule (floodSweeps 72 5) .forward false
    (Pattern.valid_dense 1 2) hb rfl hv rfl hone [0,5] ()
  have hlanes : lanesBefore [2,42,72] wideSeeds wideSeeds.nrow = 70 := by decide +kernel
  rw [hlanes] at hlength
  exact ⟨r, log, lane, hrun, hlength, h⟩

end Detect

end Fluxion
