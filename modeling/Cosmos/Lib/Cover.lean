import Mathlib.Algebra.BigOperators.Group.Finset.Basic
import Mathlib.Algebra.Order.BigOperators.Group.Finset
import Mathlib.Tactic.Linarith

/-!
# Counting how often an index is covered

A **segment** is a run of consecutive indices.  For a list of segments the
function `cover` counts, for one index, how many entries of the list contain
it.  A family of segments tiles a set exactly when its cover is the indicator
of that set, and every step a block allocator takes (cut a segment, join two,
move one from a list to another) keeps the sum of the covers involved.  So an
ownership invariant stated with `cover` is preserved by linear arithmetic, and
disjointness, completeness and "no block listed twice" are read off it at the
end.

## Main results

* `Seg.ind_cut` : cutting a segment keeps the count.
* `cover_erase` : removing a listed segment subtracts its indicator.
* `disjoint_of_cover_le` : two entries of a list of cover at most one do not
  meet.
* `sum_update` : a sum over a family of counters after one of them changed.
-/

namespace Cosmos.Lib.Cover

/-- The indices `start, …, start + len - 1`. -/
structure Seg where
  start : Nat
  len : Nat
deriving DecidableEq, Repr

/-- Membership of an index in a segment. -/
def Seg.Has (b : Seg) (i : Nat) : Prop :=
  b.start ≤ i ∧ i < b.start + b.len

instance (b : Seg) (i : Nat) : Decidable (b.Has i) :=
  inferInstanceAs (Decidable (b.start ≤ i ∧ i < b.start + b.len))

theorem Seg.has_mk {s n i : Nat} (h1 : s ≤ i) (h2 : i < s + n) : (Seg.mk s n).Has i :=
  ⟨h1, h2⟩

/-- Indicator of a segment. -/
def Seg.ind (b : Seg) (i : Nat) : Nat :=
  if b.start ≤ i ∧ i < b.start + b.len then 1 else 0

theorem Seg.ind_of_has {b : Seg} {i : Nat} (h : b.Has i) : b.ind i = 1 :=
  if_pos h

/-- **Cutting** a segment in two keeps the count at every index. -/
theorem Seg.ind_cut (s m n i : Nat) :
    (Seg.mk s (m + n)).ind i = (Seg.mk s m).ind i + (Seg.mk (s + m) n).ind i := by
  simp only [Seg.ind]
  split <;> split <;> split <;> omega

/-- How many entries of `l` contain `i`. -/
def cover (l : List Seg) (i : Nat) : Nat := (l.map (fun b => b.ind i)).sum

@[simp] theorem cover_nil (i : Nat) : cover [] i = 0 := rfl

@[simp] theorem cover_cons (b : Seg) (l : List Seg) (i : Nat) :
    cover (b :: l) i = b.ind i + cover l i := by
  simp [cover]

@[simp] theorem cover_append (l₁ l₂ : List Seg) (i : Nat) :
    cover (l₁ ++ l₂) i = cover l₁ i + cover l₂ i := by
  simp [cover]

/-- Removing a listed segment subtracts its indicator. -/
theorem cover_erase {b : Seg} {l : List Seg} (h : b ∈ l) (i : Nat) :
    cover (l.erase b) i + b.ind i = cover l i := by
  have hperm := List.perm_cons_erase h
  have hsum := (hperm.map (fun c => c.ind i)).sum_eq
  simp only [List.map_cons, List.sum_cons] at hsum
  unfold cover
  omega

/-- A listed segment contributes to the cover. -/
theorem ind_le_cover {b : Seg} {l : List Seg} (h : b ∈ l) (i : Nat) :
    b.ind i ≤ cover l i := by
  have := cover_erase h i
  omega

/-- A covered index lies in some entry. -/
theorem exists_of_cover_pos {l : List Seg} {i : Nat} (h : 0 < cover l i) :
    ∃ b ∈ l, b.Has i := by
  induction l with
  | nil => simp at h
  | cons b l ih =>
      by_cases hb : b.Has i
      · exact ⟨b, by simp, hb⟩
      · have hzero : b.ind i = 0 := if_neg hb
        rw [cover_cons, hzero, Nat.zero_add] at h
        obtain ⟨c, hc, hi⟩ := ih h
        exact ⟨c, by simp [hc], hi⟩

/-- Two different entries of a list of cover at most one do not meet. -/
theorem disjoint_of_cover_le {l : List Seg} (hl : ∀ i, cover l i ≤ 1)
    {b c : Seg} (hb : b ∈ l) (hc : c ∈ l) (hne : b ≠ c) (i : Nat) :
    ¬ (b.Has i ∧ c.Has i) := by
  rintro ⟨hbi, hci⟩
  have hmem : c ∈ l.erase b := (List.mem_erase_of_ne (Ne.symm hne)).mpr hc
  have h1 := cover_erase hb i
  have h2 := ind_le_cover hmem i
  have h3 := hl i
  rw [Seg.ind_of_has hbi] at h1
  rw [Seg.ind_of_has hci] at h2
  omega

/-- The entries of a list of cover at most one do not meet pairwise. -/
theorem pairwise_of_cover_le {l : List Seg} (hl : ∀ i, cover l i ≤ 1) :
    l.Pairwise fun b c => ∀ i, b.Has i → ¬ c.Has i := by
  induction l with
  | nil => exact List.Pairwise.nil
  | cons b l ih =>
      refine List.Pairwise.cons (fun c hc i hb hci => ?_) (ih fun i => ?_)
      · have h1 := ind_le_cover hc i
        have h2 := hl i
        rw [cover_cons, Seg.ind_of_has hb] at h2
        rw [Seg.ind_of_has hci] at h1
        omega
      · have := hl i
        rw [cover_cons] at this
        omega

/-- A list of nonempty segments of cover at most one lists none twice. -/
theorem nodup_of_cover_le {l : List Seg} (hl : ∀ i, cover l i ≤ 1)
    (hlen : ∀ b ∈ l, 0 < b.len) : l.Nodup := by
  induction l with
  | nil => exact List.nodup_nil
  | cons b l ih =>
      have htail : ∀ i, cover l i ≤ 1 := by
        intro i
        have := hl i
        rw [cover_cons] at this
        omega
      refine List.nodup_cons.mpr ⟨?_, ih htail fun c hc => hlen c (by simp [hc])⟩
      intro hmem
      have hhas : b.Has b.start := by
        have := hlen b (by simp)
        exact ⟨Nat.le_refl _, by omega⟩
      have h1 := ind_le_cover hmem b.start
      have h2 := hl b.start
      rw [cover_cons] at h2
      rw [Seg.ind_of_has hhas] at h1 h2
      omega

/-! ## Segments of one length -/

/-- The segments of length `n` with the given starts. -/
def segs (n : Nat) (starts : List Nat) : List Seg := starts.map (fun s => ⟨s, n⟩)

@[simp] theorem segs_nil (n : Nat) : segs n [] = [] := rfl

@[simp] theorem segs_cons (n s : Nat) (l : List Nat) :
    segs n (s :: l) = ⟨s, n⟩ :: segs n l := rfl

theorem mem_segs {n : Nat} {l : List Nat} {b : Seg} :
    b ∈ segs n l ↔ b.start ∈ l ∧ b.len = n := by
  constructor
  · intro h
    obtain ⟨s, hs, rfl⟩ := List.mem_map.mp h
    exact ⟨hs, rfl⟩
  · rintro ⟨hs, hn⟩
    exact List.mem_map.mpr ⟨b.start, hs, by cases b; simp_all⟩

/-- Removing a start removes one segment. -/
theorem cover_segs_erase {n s : Nat} {l : List Nat} (h : s ∈ l) (i : Nat) :
    cover (segs n (l.erase s)) i + (Seg.mk s n).ind i = cover (segs n l) i := by
  have hperm := List.perm_cons_erase h
  have hsum := ((hperm.map (fun t => Seg.mk t n)).map (fun c => c.ind i)).sum_eq
  simp only [List.map_cons, List.sum_cons] at hsum
  unfold cover segs
  omega

/-! ## One segment for each index of a set -/

/-- The indices below `N` that satisfy `D`, each a segment of its own. -/
def singles (N : Nat) (D : Nat → Prop) [DecidablePred D] : List Seg :=
  segs 1 ((List.range N).filter D)

/-- The singles of a set cover the set. -/
theorem cover_singles (N : Nat) (D : Nat → Prop) [DecidablePred D] (i : Nat) :
    cover (singles N D) i = if i < N ∧ D i then 1 else 0 := by
  induction N with
  | zero => simp [singles, segs]
  | succ N ih =>
      have hsplit : singles (N + 1) D
          = singles N D ++ if D N then [⟨N, 1⟩] else [] := by
        unfold singles segs
        rw [List.range_succ, List.filter_append, List.map_append]
        by_cases hN : D N
        · simp [hN]
        · simp [hN]
      rw [hsplit, cover_append, ih]
      by_cases hi : i = N
      · subst hi
        by_cases hD : D i
        · simp [hD, Seg.ind]
        · simp [hD]
      · have hlast : cover (if D N then [⟨N, 1⟩] else []) i = 0 := by
          split
          · rw [cover_cons, cover_nil]
            have hind : (Seg.mk N 1).ind i = 0 := by
              simp only [Seg.ind]
              exact if_neg (by omega)
            omega
          · rfl
        have hlt : i < N + 1 ↔ i < N := by omega
        rw [hlast, Nat.add_zero]
        exact if_congr (and_congr_left fun _ => hlt.symm) rfl rfl

/-- A run of indices of the set, taken together. -/
theorem cover_singles_run {N s n : Nat} {D D' : Nat → Prop} [DecidablePred D]
    [DecidablePred D'] (hrun : ∀ i, s ≤ i → i < s + n → i < N ∧ D i)
    (hD : ∀ i, D' i ↔ D i ∧ ¬ (s ≤ i ∧ i < s + n)) (i : Nat) :
    cover (singles N D) i = cover (⟨s, n⟩ :: singles N D') i := by
  rw [cover_cons, cover_singles, cover_singles]
  unfold Seg.ind
  simp only [hD]
  by_cases hin : s ≤ i ∧ i < s + n
  · have := hrun i hin.1 hin.2
    simp [hin, this]
  · simp [hin]

/-! ## Sums over a family of counters -/

/-- Changing one counter of a family changes the sum by the difference. -/
theorem sum_update {n k : Nat} (hk : k < n) (f : Nat → Nat) (v : Nat) :
    (∑ j ∈ Finset.range n, Function.update f k v j) + f k
      = (∑ j ∈ Finset.range n, f j) + v := by
  have hmem : k ∈ Finset.range n := Finset.mem_range.mpr hk
  rw [← Finset.add_sum_erase _ _ hmem, ← Finset.add_sum_erase _ f hmem,
    Function.update_self]
  have hrest : ∑ j ∈ (Finset.range n).erase k, Function.update f k v j
      = ∑ j ∈ (Finset.range n).erase k, f j :=
    Finset.sum_congr rfl fun j hj =>
      Function.update_of_ne (Finset.ne_of_mem_erase hj) v f
  rw [hrest]
  omega

/-- One counter of a family is at most the sum. -/
theorem le_sum {n k : Nat} (hk : k < n) (f : Nat → Nat) :
    f k ≤ ∑ j ∈ Finset.range n, f j :=
  Finset.single_le_sum (f := f) (fun _ _ => Nat.zero_le _) (Finset.mem_range.mpr hk)

end Cosmos.Lib.Cover
