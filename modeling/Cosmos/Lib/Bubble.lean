import Mathlib.Logic.Equiv.Basic
import Mathlib.Order.Lattice

/-!
# Bubble sort in place

An array is a function of its index, and sorting it means composing it with a
permutation of the first indices.  A pass over the indices `0, …, n` carries the
largest of these entries to index `n`; `n` passes, each one step shorter than
the one before, sort the indices `0, …, n`.

## Main results

* `Rearranged` : what a sort may do to an array.
* `bubbleSort_rearranged`, `bubbleSort_sorted` : the sort rearranges and sorts.
-/

namespace Cosmos.Lib.Bubble

variable {α β : Type} [LinearOrder β]

/-- Exchange two entries. -/
def swapAt (a : Nat → α) (i j : Nat) : Nat → α := fun k => a (Equiv.swap i j k)

/-- Compare two neighbours and exchange them when they are out of order. -/
def bubbleStep (key : α → β) (a : Nat → α) (i : Nat) : Nat → α :=
  if key (a (i + 1)) < key (a i) then swapAt a i (i + 1) else a

/-- One pass over the neighbours `0, 1`, …, `n - 1, n`. -/
def bubblePass (key : α → β) (n : Nat) (a : Nat → α) : Nat → α :=
  (List.range n).foldl (bubbleStep key) a

/-- The passes over the indices `0, …, n`. -/
def bubbleSort (key : α → β) (n : Nat) (a : Nat → α) : Nat → α :=
  (List.range n).foldl (fun a j => bubblePass key (n - j) a) a

/-! ## Rearranging -/

/-- The entries at `0, …, n` were permuted. -/
def Rearranged (n : Nat) (a a' : Nat → α) : Prop :=
  ∃ e : Equiv.Perm Nat, (∀ i, n < i → e i = i) ∧ ∀ i, a' i = a (e i)

theorem Rearranged.refl (n : Nat) (a : Nat → α) : Rearranged n a a :=
  ⟨Equiv.refl Nat, fun _ _ => rfl, fun _ => rfl⟩

theorem Rearranged.trans {n : Nat} {a a' a'' : Nat → α} (h : Rearranged n a a')
    (h' : Rearranged n a' a'') : Rearranged n a a'' := by
  obtain ⟨e, hfix, he⟩ := h
  obtain ⟨f, hfix', hf⟩ := h'
  refine ⟨f.trans e, fun i hi => ?_, fun i => ?_⟩
  · rw [Equiv.trans_apply, hfix' i hi, hfix i hi]
  · rw [hf, he]
    rfl

theorem Rearranged.mono {n m : Nat} {a a' : Nat → α} (h : Rearranged n a a') (hle : n ≤ m) :
    Rearranged m a a' := by
  obtain ⟨e, hfix, he⟩ := h
  exact ⟨e, fun i hi => hfix i (by omega), he⟩

/-- The entries behind stay where they are. -/
theorem Rearranged.above {n : Nat} {a a' : Nat → α} (h : Rearranged n a a') {i : Nat}
    (hi : n < i) : a' i = a i := by
  obtain ⟨e, hfix, he⟩ := h
  rw [he, hfix i hi]

/-- Each entry comes from one of the indices, and two entries from two. -/
theorem Rearranged.origin {n : Nat} {a a' : Nat → α} (h : Rearranged n a a') :
    ∃ f : Nat → Nat, (∀ i, i ≤ n → f i ≤ n ∧ a' i = a (f i)) ∧
      (∀ i j, f i = f j → i = j) ∧ ∀ j, j ≤ n → ∃ i, i ≤ n ∧ f i = j := by
  obtain ⟨e, hfix, he⟩ := h
  refine ⟨e, fun i hi => ⟨?_, he i⟩, fun i j hij => e.injective hij, fun j hj => ?_⟩
  · by_contra hgt
    have hsame := e.injective (hfix (e i) (by omega))
    omega
  · refine ⟨e.symm j, ?_, e.apply_symm_apply j⟩
    by_contra hgt
    have hsame := hfix (e.symm j) (by omega)
    rw [e.apply_symm_apply] at hsame
    omega

/-! ## One pass -/

section Pass

variable (key : α → β)

theorem bubbleStep_rearranged (a : Nat → α) (i : Nat) :
    Rearranged (i + 1) a (bubbleStep key a i) := by
  unfold bubbleStep
  split
  · refine ⟨Equiv.swap i (i + 1), fun j hj => ?_, fun _ => rfl⟩
    exact Equiv.swap_apply_of_ne_of_ne (by omega) (by omega)
  · exact Rearranged.refl _ a

theorem bubblePass_succ (n : Nat) (a : Nat → α) :
    bubblePass key (n + 1) a = bubbleStep key (bubblePass key n a) n := by
  unfold bubblePass
  rw [List.range_succ, List.foldl_append]
  rfl

theorem bubblePass_rearranged (n : Nat) (a : Nat → α) :
    Rearranged n a (bubblePass key n a) := by
  induction n with
  | zero => exact Rearranged.refl 0 a
  | succ n ih =>
      rw [bubblePass_succ]
      exact (ih.mono (Nat.le_succ n)).trans (bubbleStep_rearranged key _ n)

/-- A step keeps the largest entry in front. -/
theorem bubbleStep_max {a : Nat → α} {n : Nat} (h : ∀ i, i ≤ n → key (a i) ≤ key (a n)) :
    ∀ i, i ≤ n + 1 → key (bubbleStep key a n i) ≤ key (bubbleStep key a n (n + 1)) := by
  intro i hi
  unfold bubbleStep
  by_cases hlt : key (a (n + 1)) < key (a n)
  · rw [if_pos hlt]
    unfold swapAt
    rw [Equiv.swap_apply_right]
    rcases (by omega : i = n + 1 ∨ i = n ∨ i < n) with rfl | rfl | hin
    · rw [Equiv.swap_apply_right]
    · rw [Equiv.swap_apply_left]
      exact le_of_lt hlt
    · rw [Equiv.swap_apply_of_ne_of_ne (by omega) (by omega)]
      exact h i (by omega)
  · rw [if_neg hlt]
    have hle := not_lt.mp hlt
    rcases (by omega : i = n + 1 ∨ i ≤ n) with rfl | hin
    · exact le_refl _
    · exact le_trans (h i hin) hle

/-- **A pass** leaves the largest entry at the end. -/
theorem bubblePass_max (n : Nat) (a : Nat → α) :
    ∀ i, i ≤ n → key (bubblePass key n a i) ≤ key (bubblePass key n a n) := by
  induction n with
  | zero =>
      intro i hi
      rw [Nat.le_zero.mp hi]
  | succ n ih =>
      rw [bubblePass_succ]
      exact bubbleStep_max key ih

end Pass

/-! ## All passes -/

section Passes

variable (key : α → β)

/-- The first `j` passes. -/
theorem bubbleSort_passes (n : Nat) (a : Nat → α) : ∀ j, j ≤ n →
    Rearranged n a ((List.range j).foldl (fun a j => bubblePass key (n - j) a) a) ∧
    ∀ p q, p < q → q ≤ n → n < q + j →
      key ((List.range j).foldl (fun a j => bubblePass key (n - j) a) a p)
        ≤ key ((List.range j).foldl (fun a j => bubblePass key (n - j) a) a q) := by
  intro j
  induction j with
  | zero =>
      intro _
      exact ⟨Rearranged.refl n a, fun p q _ h1 h2 => absurd h2 (by omega)⟩
  | succ j ih =>
      intro hj
      obtain ⟨hre, hsort⟩ := ih (by omega)
      rw [List.range_succ, List.foldl_append]
      simp only [List.foldl_cons, List.foldl_nil]
      generalize (List.range j).foldl (fun a j => bubblePass key (n - j) a) a = c at hre hsort
      have hpass := bubblePass_rearranged key (n - j) c
      refine ⟨hre.trans (hpass.mono (Nat.sub_le n j)), fun p q hpq hq hlast => ?_⟩
      rcases (by omega : q = n - j ∨ n - j < q) with rfl | hgt
      · exact bubblePass_max key (n - j) c p (by omega)
      · -- the entries behind were sorted before, whichever comes to `p`
        rw [hpass.above hgt]
        rcases (by omega : p ≤ n - j ∨ n - j < p) with hle | hpgt
        · obtain ⟨f, hf, _⟩ := hpass.origin
          obtain ⟨hfle, hfp⟩ := hf p hle
          rw [hfp]
          exact hsort (f p) q (by omega) hq (by omega)
        · rw [hpass.above hpgt]
          exact hsort p q hpq hq (by omega)

theorem bubbleSort_rearranged (n : Nat) (a : Nat → α) :
    Rearranged n a (bubbleSort key n a) :=
  (bubbleSort_passes key n a n (Nat.le_refl n)).1

/-- **The sort sorts.** -/
theorem bubbleSort_sorted (n : Nat) (a : Nat → α) {p q : Nat} (hpq : p < q) (hq : q ≤ n) :
    key (bubbleSort key n a p) ≤ key (bubbleSort key n a q) :=
  (bubbleSort_passes key n a n (Nat.le_refl n)).2 p q hpq hq (by omega)

end Passes

end Cosmos.Lib.Bubble
