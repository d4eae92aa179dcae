import Mathlib.Data.Nat.Bitwise
import Mathlib.Tactic.Linarith

/-!
# Cutting a run into powers of two

A run of `n` indices is cut, from its low end, into the blocks of the binary
representation of `n`, the largest block first.  The block of size `2 ^ k` is
there when bit `k` of `n` is set, and the blocks before it are those of the
higher bits.  `isPiece_add` is the greedy step that produces this cut: take the
largest power of two that fits and go on with the rest.
-/

namespace Cosmos.Lib.BinaryCut

/-- The cut of the `n` indices from `s` on has a block of `2 ^ k` indices that
starts at `t`. -/
def IsPiece (s n t k : Nat) : Prop :=
  n.testBit k = true ∧ t = s + n / 2 ^ (k + 1) * 2 ^ (k + 1)

instance (s n t k : Nat) : Decidable (IsPiece s n t k) :=
  inferInstanceAs (Decidable (_ ∧ _))

/-- An empty run has no pieces. -/
theorem not_isPiece_zero (s t k : Nat) : ¬ IsPiece s 0 t k := by
  rintro ⟨h, _⟩
  rw [Nat.zero_testBit] at h
  cases h

/-- The parts of a run above the bit `k`. -/
theorem div_mul_add {K k r : Nat} (hk : k < K) :
    (2 ^ K + r) / 2 ^ (k + 1) * 2 ^ (k + 1) = 2 ^ K + r / 2 ^ (k + 1) * 2 ^ (k + 1) := by
  obtain ⟨j, rfl⟩ := Nat.exists_eq_add_of_le (show k + 1 ≤ K by omega)
  have hpos := Nat.two_pow_pos (k + 1)
  rw [Nat.pow_add, Nat.mul_comm (2 ^ (k + 1)) (2 ^ j), Nat.add_comm,
    Nat.add_mul_div_right r (2 ^ j) hpos, Nat.add_mul, Nat.add_comm]

/-- **The greedy step**: the largest power of two is cut off first. -/
theorem isPiece_add {K r : Nat} (hr : r < 2 ^ K) (s t k : Nat) :
    IsPiece s (2 ^ K + r) t k ↔ (t = s ∧ k = K) ∨ IsPiece (s + 2 ^ K) r t k := by
  unfold IsPiece
  rcases Nat.lt_trichotomy k K with hlt | rfl | hgt
  · rw [Nat.testBit_two_pow_add_gt hlt, div_mul_add hlt]
    constructor
    · rintro ⟨hbit, ht⟩
      exact Or.inr ⟨hbit, by omega⟩
    · rintro (⟨_, rfl⟩ | ⟨hbit, ht⟩)
      · exact absurd hlt (Nat.lt_irrefl k)
      · exact ⟨hbit, by omega⟩
  · have hpow : 2 ^ (k + 1) = 2 ^ k + 2 ^ k := by
      rw [Nat.pow_succ]
      omega
    rw [Nat.testBit_two_pow_add_eq, Nat.testBit_lt_two_pow hr,
      Nat.div_eq_of_lt (show 2 ^ k + r < 2 ^ (k + 1) by omega)]
    simp
  · have hle : 2 ^ (K + 1) ≤ 2 ^ k := Nat.pow_le_pow_right (by decide) hgt
    have hpow : 2 ^ (K + 1) = 2 ^ K + 2 ^ K := by
      rw [Nat.pow_succ]
      omega
    rw [Nat.testBit_lt_two_pow (show 2 ^ K + r < 2 ^ k by omega),
      Nat.testBit_lt_two_pow (show r < 2 ^ k by omega)]
    constructor
    · rintro ⟨h, _⟩
      cases h
    · rintro (⟨_, rfl⟩ | ⟨h, _⟩)
      · exact absurd hgt (Nat.lt_irrefl k)
      · cases h

/-- A piece lies inside the run. -/
theorem IsPiece.le {s n t k : Nat} (h : IsPiece s n t k) : s ≤ t ∧ t + 2 ^ k ≤ s + n := by
  obtain ⟨hbit, rfl⟩ := h
  have hdiv := Nat.div_add_mod' n (2 ^ (k + 1))
  -- the bit is part of the remainder
  have hmod : 2 ^ k ≤ n % 2 ^ (k + 1) := by
    have hrem : (n % 2 ^ (k + 1)).testBit k = true := by
      rw [Nat.testBit_mod_two_pow, hbit]
      simp
    exact Nat.ge_two_pow_of_testBit hrem
  omega

/-- Seven indices are cut into four, two and one. -/
example : IsPiece 10 7 10 2 ∧ IsPiece 10 7 14 1 ∧ IsPiece 10 7 16 0 := by decide

end Cosmos.Lib.BinaryCut
