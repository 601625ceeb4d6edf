import Fluxion.Coloring.Basic
import Fluxion.Proofs.Pattern.Merge

/-!
Greedy coloring. Each index of the order takes the least color that is left, so whatever a color was
forbidden for stays true of the whole coloring.
-/
set_option autoImplicit false

namespace Fluxion.Coloring

theorem getElem?_forbid (marks : Marks) (v : Nat) (taken : List Nat) (k : Nat) :
    (marks.forbid v taken)[k]? = if k ∈ taken ∧ k < marks.size then some (some v) else marks[k]? := by
  unfold Marks.forbid
  induction taken generalizing marks with
  | nil => simp
  | cons l taken ih =>
    rw [List.foldl_cons, ih, Array.size_setIfInBounds, Array.getElem?_setIfInBounds]
    by_cases hk : l = k
    · subst hk
      by_cases hs : l < marks.size
      · simp [hs]
      · simp [hs]
    · have hk' : k ≠ l := fun e => hk e.symm
      simp [hk, hk']

theorem size_forbid (marks : Marks) (v : Nat) (taken : List Nat) : (marks.forbid v taken).size = marks.size := by
  unfold Marks.forbid
  induction taken generalizing marks with
  | nil => rfl
  | cons k taken ih => rw [List.foldl_cons, ih, Array.size_setIfInBounds]

/-- Color `k` is the least that is not in the list, and the marks stay those of `v` and of indices before. -/
structure Takes (marks : Marks) (v : Nat) (taken : List Nat) (k : Nat) (marks' : Marks) : Prop where
  le : k ≤ marks.size
  free : k < marks.size → k ∉ taken
  least : ∀ l, l < k → l ∈ taken
  size : marks'.size = max marks.size (k+1)
  marked : ∀ l w : Nat, marks'[l]? = some (some w) → w = v ∨ marks[l]? = some (some w)

/-- As no mark is for `v` before, old marks forbid nothing. -/
theorem takes_take {marks : Marks} {v : Nat} (hfresh : ∀ l : Nat, marks[l]? ≠ some (some v)) (taken : List Nat) :
    Takes marks v taken ((marks.forbid v taken).take v).1 ((marks.forbid v taken).take v).2 := by
  have hread (l : Nat) := getElem?_forbid marks v taken l
  have hsize := size_forbid marks v taken
  have hmem (l : Nat) (hl : l < (marks.forbid v taken).size) : (marks.forbid v taken)[l] = some v ↔ l ∈ taken := by
    rw [hsize] at hl
    have hget := hread l
    have hold := hfresh l
    rw [Array.getElem?_eq_getElem (by omega)] at hget
    by_cases ht : l ∈ taken
    · simpa [ht, hl] using hget
    · rw [if_neg fun h => ht h.1] at hget
      exact ⟨fun h => absurd (hget.symm.trans (congrArg some h)) hold, fun h => absurd h ht⟩
  have hmarked (l w : Nat) (hw : (marks.forbid v taken)[l]? = some (some w)) :
      w = v ∨ marks[l]? = some (some w) := by
    rw [hread] at hw
    split at hw
    · exact .inl (Option.some.inj (Option.some.inj hw)).symm
    · exact .inr hw
  generalize marks.forbid v taken = m at hsize hmem hmarked ⊢
  rw [Marks.take]
  cases hf : m.findIdx? (· != some v) with
  | none =>
    have hall := Array.findIdx?_eq_none_iff.mp hf
    refine ⟨Nat.le_of_eq hsize, fun h => absurd hsize (Nat.ne_of_lt h), fun l hl => ?_, ?_, fun l w hw => ?_⟩
    · exact (hmem l hl).mp (by simpa using hall m[l] (Array.getElem_mem hl))
    · simp [hsize]
    · rw [Array.getElem?_push] at hw
      split at hw
      · cases hw
      · exact hmarked l w hw
  | some k =>
    obtain ⟨hk, hfree, hbefore⟩ := Array.findIdx?_eq_some_iff_getElem.mp hf
    refine ⟨?_, fun _ ht => ?_, fun l hl => ?_, ?_, hmarked⟩
    · exact hsize ▸ Nat.le_of_lt hk
    · simp [(hmem k hk).mpr ht] at hfree
    · exact (hmem l (Nat.lt_trans hl hk)).mp (by simpa using hbefore l hl)
    · dsimp only
      omega

theorem perm_largestFirst (degree : Nat → Nat) (n : Nat) :
    (largestFirst degree n).Perm (List.range n) :=
  List.mergeSort_perm _ _

theorem color_set (cs : Colors) (v w : Nat) (k : Nat) (hv : v < cs.size) :
    color (cs.setIfInBounds v (some k)) w = if v = w then some k else color cs w := by
  unfold color
  rw [Array.getElem?_setIfInBounds]
  by_cases h : v = w
  · subst h
    simp [hv]
  · simp [h]

theorem color_replicate (n v : Nat) : color (.replicate n none) v = none := by
  unfold color
  rw [Array.getElem?_replicate]
  split <;> rfl

/-- The indices of a list are colored and no others, with all colors below a count, and the coloring has
a property. -/
structure Colored (property : Colors → Prop) (n : Nat) (done : List Nat) (cs : Colors) (count : Nat) :
    Prop where
  size : cs.size = n
  colored : ∀ v, (∃ k, color cs v = some k) ↔ v ∈ done
  bound : ∀ v k, color cs v = some k → k < count
  used : ∀ k, k < count → ∃ v, color cs v = some k
  has : property cs

/-- The least color that is not forbidden keeps the property. -/
def Keeps (forbidden : Colors → Nat → List Nat) (n : Nat) (property : Colors → Prop) : Prop :=
  ∀ cs v k, cs.size = n → v < n → color cs v = none → k ∉ forbidden cs v → (∀ l < k, l ∈ forbidden cs v) →
    property cs → property (cs.setIfInBounds v (some k))

theorem Keeps.and {forbidden : Colors → Nat → List Nat} {n : Nat} {p q : Colors → Prop} (hp : Keeps forbidden n p)
    (hq : Keeps forbidden n q) : Keeps forbidden n fun cs => p cs ∧ q cs :=
  fun cs v k hsize hn hnone hfree hleast h =>
    ⟨hp cs v k hsize hn hnone hfree hleast h.1, hq cs v k hsize hn hnone hfree hleast h.2⟩

/-- As `Colored` for as many colors as there are marks, and no mark is for an index to come. -/
structure Reached (property : Colors → Prop) (n : Nat) (done : List Nat) (cs : Colors) (marks : Marks) : Prop
    extends Colored property n done cs marks.size where
  past : ∀ k v : Nat, marks[k]? = some (some v) → v ∈ done

section Step

variable {property : Colors → Prop} {forbidden : Colors → Nat → List Nat} {n : Nat}

theorem Reached.step {done : List Nat} {cs : Colors} {marks : Marks} {v : Nat} (keeps : Keeps forbidden n property)
    (sound : ∀ cs v k, v < n → k ∈ forbidden cs v → ∃ w, color cs w = some k)
    (h : Reached property n done cs marks) (hn : v < n) (hv : v ∉ done) :
    Reached property n (v :: done) (next forbidden cs marks v).1 (next forbidden cs marks v).2 := by
  have htakes := takes_take (fun l hl => hv (h.past l v hl)) (forbidden cs v)
  rw [next]
  generalize (marks.forbid v (forbidden cs v)).take v = next at htakes ⊢
  obtain ⟨k, marks'⟩ := next
  dsimp only at htakes ⊢
  have hset (w : Nat) := color_set cs v w k (by rw [h.size]; exact hn)
  have hfree : k ∉ forbidden cs v := by
    intro hk
    obtain ⟨w, hw⟩ := sound cs v k hn hk
    exact htakes.free (h.bound w k hw) hk
  -- The vertex has no color yet, as it has not been taken.
  have hnone : color cs v = none := by
    rw [Option.eq_none_iff_forall_ne_some]
    intro k hk
    exact hv ((h.colored v).mp ⟨k, hk⟩)
  have hhas := keeps cs v k h.size hn hnone hfree htakes.least h.has
  have hle := htakes.le
  have hmax := htakes.size
  refine ⟨⟨by simpa using h.size, ?_, ?_, ?_, hhas⟩, ?_⟩
  · intro w
    rw [hset, List.mem_cons]
    by_cases he : v = w
    · simp [he]
    · have he' : w ≠ v := fun e => he e.symm
      simp [he, he', h.colored]
  · intro w l hl
    rw [hset] at hl
    split at hl
    · cases hl
      omega
    · have hb := h.bound w l hl
      omega
  · intro l hl
    by_cases hlk : l = k
    · exact ⟨v, by rw [hset, if_pos rfl, hlk]⟩
    · obtain ⟨w, hw⟩ := h.used l (by omega)
      have he : v ≠ w := by
        rintro rfl
        exact hv ((h.colored v).mp ⟨l, hw⟩)
      exact ⟨w, by rw [hset, if_neg he, hw]⟩
  · intro l w hw
    rcases htakes.marked l w hw with rfl | hw
    · exact .head _
    · exact .tail _ (h.past l w hw)

theorem Reached.foldl {order done : List Nat} {cs : Colors} {marks : Marks} (keeps : Keeps forbidden n property)
    (sound : ∀ cs v k, v < n → k ∈ forbidden cs v → ∃ w, color cs w = some k)
    (h : Reached property n done cs marks) (bound : ∀ v ∈ order, v < n) (nodup : order.Nodup)
    (fresh : ∀ v ∈ order, v ∉ done) :
    ∃ cs' marks', order.foldl (fun (cs, marks) v => next forbidden cs marks v) (cs, marks) = (cs', marks') ∧
      Reached property n (order.reverse ++ done) cs' marks' := by
  induction order generalizing done cs marks with
  | nil => exact ⟨cs, marks, rfl, h⟩
  | cons v order ih =>
    obtain ⟨hv, hnd⟩ := List.nodup_cons.mp nodup
    have hs := h.step keeps sound (bound v (by simp)) (fresh v (by simp))
    obtain ⟨cs', marks', he, hc⟩ := ih hs (fun w hw => bound w (by simp [hw])) hnd (by
      intro w hw hm
      rcases List.mem_cons.mp hm with rfl | hm
      · exact hv hw
      · exact fresh w (by simp [hw]) hm)
    exact ⟨cs', marks', by rw [List.foldl_cons]; exact he, by simpa using hc⟩

/-- A greedy coloring in any order of all indices colors each of them, and has each property that no
color breaks unless it is forbidden. -/
theorem greedy_colored {order : List Nat} (start : property (.replicate n none))
    (keeps : Keeps forbidden n property)
    (sound : ∀ cs v k, v < n → k ∈ forbidden cs v → ∃ w, color cs w = some k)
    (ho : order.Perm (List.range n)) :
    ∃ cs count, greedy forbidden n order = (cs, count) ∧
      Colored property n (List.range n) cs count := by
  have hstart : Reached property n [] (.replicate n none) #[] := by
    refine ⟨⟨by simp, ?_, ?_, ?_, start⟩, ?_⟩
    · simp [color_replicate]
    · intro v k hk
      simp [color_replicate] at hk
    · intro k hk
      cases hk
    · intro k v hv
      simp at hv
  obtain ⟨cs, marks, he, h⟩ := hstart.foldl keeps sound
    (fun v hv => List.mem_range.mp (ho.mem_iff.mp hv)) (ho.nodup_iff.mpr List.nodup_range) (by simp)
  refine ⟨cs, marks.size, by rw [greedy, he], h.size, ?_, h.bound, h.used, h.has⟩
  intro v
  rw [h.colored v]
  simp [ho.mem_iff]

end Step

/-- No two related indices have one color. -/
def Apart (conflict : Nat → Nat → Prop) (cs : Colors) : Prop :=
  ∀ v w k, color cs v = some k → color cs w = some k → conflict v w → v = w

theorem apart_replicate (conflict : Nat → Nat → Prop) (n : Nat) : Apart conflict (.replicate n none) := by
  intro v w k hv
  simp [color_replicate] at hv

/-- Colors of related indices are forbidden. -/
theorem keeps_apart {conflict : Nat → Nat → Prop} {forbidden : Colors → Nat → List Nat} {n : Nat}
    (symm : ∀ v w, conflict v w → conflict w v)
    (forbids : ∀ cs v w k, conflict v w → v ≠ w → color cs w = some k → k ∈ forbidden cs v) :
    Keeps forbidden n (Apart conflict) := by
  intro cs v k hsize hn _ hfree _ h u w l hu hw hc
  have hset (w : Nat) := color_set cs v w k (by rw [hsize]; exact hn)
  rw [hset] at hu hw
  split at hu <;> split at hw
  · rename_i h₁ h₂
    rw [← h₁, ← h₂]
  · rename_i h₁ h₂
    cases hu
    subst h₁
    exact absurd (forbids cs v w k hc h₂ hw) hfree
  · rename_i h₁ h₂
    cases hw
    subst h₂
    exact absurd (forbids cs v u k (symm _ _ hc) h₁ hu) hfree
  · exact h u w l hu hw hc

/-- Each color less than that of an index is the color of a related one. -/
def FirstFit (conflict : Nat → Nat → Prop) (cs : Colors) : Prop :=
  ∀ v k, color cs v = some k → ∀ l < k, ∃ w, w ≠ v ∧ conflict v w ∧ color cs w = some l

theorem firstFit_replicate (conflict : Nat → Nat → Prop) (n : Nat) : FirstFit conflict (.replicate n none) := by
  intro v k hv
  simp [color_replicate] at hv

/-- Only colors of related indices are forbidden. -/
theorem keeps_firstFit {conflict : Nat → Nat → Prop} {forbidden : Colors → Nat → List Nat} {n : Nat}
    (forbids : ∀ cs v l, v < n → l ∈ forbidden cs v → ∃ w, conflict v w ∧ color cs w = some l) :
    Keeps forbidden n (FirstFit conflict) := by
  intro cs v k hsize hn hnone _ hleast h u m hu l hl
  have hset (w : Nat) := color_set cs v w k (by rw [hsize]; exact hn)
  -- An index that has a color is not the one that gets one.
  have hne {w j : Nat} (hw : color cs w = some j) : v ≠ w := by
    rintro rfl
    exact Option.some_ne_none j (hw.symm.trans hnone)
  obtain ⟨w, hwu, hconflict, hw⟩ : ∃ w, w ≠ u ∧ conflict u w ∧ color cs w = some l := by
    rw [hset] at hu
    split at hu
    · next huv =>
      cases hu
      subst huv
      obtain ⟨w, hconflict, hw⟩ := forbids cs v l hn (hleast l hl)
      exact ⟨w, (hne hw).symm, hconflict, hw⟩
    · exact h u m hu l hl
  exact ⟨w, hwu, hconflict, by rw [hset, if_neg (hne hw), hw]⟩

@[simp] theorem nrow_seeds (cs : Colors) (count : Nat) : (seeds cs count).nrow = count := by
  simp [seeds]

theorem mem_seeds {cs : Colors} {count k i : Nat} :
    (k,i) ∈ (seeds cs count).entries ↔ k < count ∧ color cs i = some k := by
  by_cases hk : k < count
  · rw [seeds, Pattern.mem_entries_ofEntries hk]
    simp only [hk, true_and, Array.mem_filterMap, Array.mem_zipIdx_iff_getElem?, color]
    constructor
    · rintro ⟨⟨k?, j⟩, hj, he⟩
      obtain ⟨l, rfl, he⟩ := Option.map_eq_some_iff.mp he
      cases he
      simp [hj]
    · intro h
      exact ⟨(some k, i), Option.join_eq_some_iff.mp h, rfl⟩
  · rw [Pattern.mem_entries, nrow_seeds]
    simp [hk]

theorem valid_seeds (cs : Colors) (count : Nat) : (seeds cs count).Valid := by
  apply Pattern.valid_ofEntries
  intro k i h
  simp only [Array.mem_filterMap, Array.mem_zipIdx_iff_getElem?] at h
  obtain ⟨⟨k?, j⟩, hj, he⟩ := h
  obtain ⟨l, rfl, he⟩ := Option.map_eq_some_iff.mp he
  cases he
  exact (Array.getElem?_eq_some_iff.mp hj).1

/-- Seeds by which every index below `n` has one color, and every color an index. -/
structure Seeds (n : Nat) (s : Pattern) : Prop where
  valid : s.Valid
  ncol : s.ncol = n
  covered : ∀ c, c < n → ∃ k, (k,c) ∈ s.entries
  single : ∀ k l c, (k,c) ∈ s.entries → (l,c) ∈ s.entries → k = l
  used : ∀ k, k < s.nrow → ∃ c, (k,c) ∈ s.entries

theorem Colored.seeded {property : Colors → Prop} {n count : Nat} {cs : Colors}
    (h : Colored property n (List.range n) cs count) : Seeds n (seeds cs count) where
  valid := valid_seeds cs count
  ncol := h.size
  covered c hc := by
    obtain ⟨k, hk⟩ := (h.colored c).mpr (List.mem_range.mpr hc)
    exact ⟨k, mem_seeds.mpr ⟨h.bound c k hk, hk⟩⟩
  single k l c hk hl := by
    have hc := (mem_seeds.mp hk).2
    rw [(mem_seeds.mp hl).2] at hc
    cases hc
    rfl
  used k hk := by
    rw [nrow_seeds] at hk
    obtain ⟨c, hc⟩ := h.used k hk
    exact ⟨c, mem_seeds.mpr ⟨hk, hc⟩⟩

end Fluxion.Coloring
