import Mathlib.Data.Nat.ModEq
import Mathlib.Logic.Function.Basic

/-!
# Copying bytes within a memory

A block copy between ranges that may overlap: upwards from the last byte, downwards
from the first.  Addresses are reduced modulo the size `M` of the address space, and
`moved` is what a copy is meant to do.

## Main results

* `copyBack_eq`: copying to a higher address from the last byte on moves the range.
* `copyForth_eq`: copying to a lower address from the first byte on moves the range.
* `copyFrom_hit` and `copyFrom_miss`: copying from elsewhere, also around the end of the
  address space.
-/

namespace Cosmos.Lib.Copy

variable {α : Type} {M s d n : Nat} {f : Nat → α}

/-- The `n` cells at `s` are moved to `d`, and every other cell is left alone. -/
def moved (f : Nat → α) (s d n : Nat) (a : Nat) : α :=
  if d ≤ a ∧ a < d + n then f (s + (a - d)) else f a

theorem moved_in {k : Nat} (hk : k < n) : moved f s d n (d + k) = f (s + k) := by
  rw [moved, if_pos (by omega), Nat.add_sub_cancel_left]

theorem moved_out {a : Nat} (ha : a < d ∨ d + n ≤ a) : moved f s d n a = f a := by
  rw [moved, if_neg (by omega)]

theorem moved_self (f : Nat → α) (s n : Nat) : moved f s s n = f := by
  funext a
  unfold moved
  split
  · congr 1
    omega
  · rfl

/-- Copy cell after cell, the last one first. -/
def copyBack (M s d : Nat) : Nat → (Nat → α) → Nat → α
  | 0, f => f
  | i + 1, f => copyBack M s d i (Function.update f ((d + i) % M) (f ((s + i) % M)))

/-- Copy cell after cell from cell `j` on. -/
def copyForth (M s d : Nat) : Nat → Nat → (Nat → α) → Nat → α
  | 0, _, f => f
  | n + 1, j, f => copyForth M s d n (j + 1) (Function.update f ((d + j) % M) (f ((s + j) % M)))

/-- A copy upwards stores to the destination only. -/
theorem copyBack_out {a : Nat} (hd : d + n ≤ M) (ha : a < d ∨ d + n ≤ a) :
    copyBack M s d n f a = f a := by
  induction n generalizing f with
  | zero => rfl
  | succ i ih =>
      rw [copyBack, ih (by omega) (by omega), Nat.mod_eq_of_lt (by omega),
        Function.update_of_ne (by omega)]

/-- A copy downwards stores to the destination only. -/
theorem copyForth_out (j : Nat) {a : Nat} (hd : d + j + n ≤ M) (ha : a < d + j ∨ d + j + n ≤ a) :
    copyForth M s d n j f a = f a := by
  induction n generalizing f j with
  | zero => rfl
  | succ n ih =>
      rw [copyForth, ih (j + 1) (by omega) (by omega), Nat.mod_eq_of_lt (by omega),
        Function.update_of_ne (by omega)]

/-- **Copying upwards** from the last cell on: no cell is read after it was written. -/
theorem copyBack_eq (hsd : s ≤ d) (hd : d + n ≤ M) : copyBack M s d n f = moved f s d n := by
  induction n generalizing f with
  | zero =>
      funext a
      rw [moved_out (by omega)]
      rfl
  | succ i ih =>
      rw [copyBack, Nat.mod_eq_of_lt (show d + i < M by omega),
        Nat.mod_eq_of_lt (show s + i < M by omega), ih (by omega)]
      funext a
      unfold moved
      by_cases hlast : a = d + i
      · subst hlast
        rw [if_neg (by omega), if_pos (by omega), Function.update_self, Nat.add_sub_cancel_left]
      · by_cases hin : d ≤ a ∧ a < d + i
        · rw [if_pos hin, if_pos (by omega), Function.update_of_ne (by omega)]
        · rw [if_neg hin, if_neg (by omega), Function.update_of_ne hlast]

/-- The cells from `j` on of a copy downwards. -/
theorem copyForth_at (hds : d ≤ s) (j a : Nat) (hs : s + j + n ≤ M) :
    copyForth M s d n j f a = if d + j ≤ a ∧ a < d + j + n then f (s + (a - d)) else f a := by
  induction n generalizing f j with
  | zero =>
      rw [if_neg (by omega)]
      rfl
  | succ n ih =>
      rw [copyForth, Nat.mod_eq_of_lt (show d + j < M by omega),
        Nat.mod_eq_of_lt (show s + j < M by omega), ih (j + 1) (by omega)]
      by_cases hfirst : a = d + j
      · subst hfirst
        rw [if_neg (by omega), if_pos (by omega), Function.update_self]
        congr 1
        omega
      · by_cases hin : d + (j + 1) ≤ a ∧ a < d + (j + 1) + n
        · rw [if_pos hin, if_pos (by omega), Function.update_of_ne (by omega)]
        · rw [if_neg hin, if_neg (by omega), Function.update_of_ne hfirst]

/-- **Copying downwards** from the first cell on. -/
theorem copyForth_eq (hds : d ≤ s) (hs : s + n ≤ M) :
    copyForth M s d n 0 f = moved f s d n := by
  funext a
  rw [copyForth_at hds 0 a (by omega)]
  rfl

/-- Copy the first `n` cells of another memory to `d`. -/
def copyFrom (M d : Nat) (g : Nat → α) : Nat → (Nat → α) → Nat → α
  | 0, f => f
  | n + 1, f => Function.update (copyFrom M d g n f) ((d + n) % M) (g n)

variable {g : Nat → α}

theorem copyFrom_miss {a : Nat} (h : ∀ i < n, (d + i) % M ≠ a) : copyFrom M d g n f a = f a := by
  induction n with
  | zero => rfl
  | succ n ih =>
      rw [copyFrom, Function.update_of_ne (Ne.symm (h n (by omega))),
        ih fun i hi => h i (by omega)]

/-- Each cell is written once, as long as there are not more than the memory has. -/
theorem copyFrom_hit (hn : n ≤ M) {i : Nat} (hi : i < n) :
    copyFrom M d g n f ((d + i) % M) = g i := by
  induction n with
  | zero => exact absurd hi (Nat.not_lt_zero i)
  | succ n ih =>
      rw [copyFrom]
      by_cases hlast : i = n
      · subst hlast
        exact Function.update_self _ _ _
      · have hne : (d + i) % M ≠ (d + n) % M := by
          intro he
          have hsub := Nat.ModEq.add_left_cancel' d (he : d + i ≡ d + n [MOD M])
          have hlt : i < M ∧ n < M := by omega
          exact hlast (by rwa [Nat.ModEq, Nat.mod_eq_of_lt hlt.1, Nat.mod_eq_of_lt hlt.2] at hsub)
        rw [Function.update_of_ne hne, ih (by omega) (by omega)]

end Cosmos.Lib.Copy
