import Mathlib.Data.Nat.Bits
import Mathlib.Tactic.Ring

/-!
# Unsigned 64-bit arithmetic on natural numbers

A machine word is a `Nat` below `2 ^ 64`; every operation reduces its result
modulo `2 ^ 64`, as unsigned arithmetic in C does.  The lemmas below say when
the reduction does nothing, which is what a "no wrap-around" argument needs:
`add64_eq` and `sub64_eq` rewrite a word operation to the operation on `Nat`
under the bound that makes it exact.
-/

namespace Cosmos.Lib.Word64

/-- Number of distinct 64-bit words. -/
abbrev wordMod : Nat := 2 ^ 64

/-- `a + b` on words. -/
def add64 (a b : Nat) : Nat := (a + b) % wordMod

/-- `a - b` on words. -/
def sub64 (a b : Nat) : Nat := (a + (wordMod - b % wordMod)) % wordMod

theorem add64_lt (a b : Nat) : add64 a b < wordMod :=
  Nat.mod_lt _ (by decide)

theorem sub64_lt (a b : Nat) : sub64 a b < wordMod :=
  Nat.mod_lt _ (by decide)

/-- An addition that stays below `2 ^ 64` is exact. -/
theorem add64_eq {a b : Nat} (h : a + b < wordMod) : add64 a b = a + b :=
  Nat.mod_eq_of_lt h

/-- A subtraction that does not go below zero is exact. -/
theorem sub64_eq {a b : Nat} (ha : a < wordMod) (h : b ≤ a) :
    sub64 a b = a - b := by
  unfold sub64
  rw [Nat.mod_eq_of_lt (Nat.lt_of_le_of_lt h ha)]
  have hsplit : a + (wordMod - b) = a - b + wordMod := by omega
  rw [hsplit, Nat.add_mod_right, Nat.mod_eq_of_lt (by omega)]

/-- The last of `b` words from `a` on, also when the next one wraps to zero. -/
theorem sub64_add64_one {a b : Nat} (hb : 0 < b) (h : a + b ≤ wordMod) :
    sub64 (add64 a b) 1 = a + b - 1 := by
  rcases Nat.lt_or_ge (a + b) wordMod with hlt | hge
  · rw [add64_eq hlt, sub64_eq hlt (by omega)]
  · have htop : a + b = wordMod := by omega
    unfold add64
    rw [htop, Nat.mod_self]
    decide

/-- Subtracting undoes adding, even when the addition wrapped. -/
theorem sub64_add64 {a b : Nat} (ha : a < wordMod) (hb : b < wordMod) :
    sub64 (add64 a b) b = a := by
  unfold sub64 add64
  rw [Nat.mod_eq_of_lt hb, Nat.mod_add_mod]
  have hsplit : a + b + (wordMod - b) = a + wordMod := by omega
  rw [hsplit, Nat.add_mod_right, Nat.mod_eq_of_lt ha]

/-- Adding undoes subtracting, even when the subtraction wrapped. -/
theorem add64_sub64 {a b : Nat} (ha : a < wordMod) (hb : b < wordMod) :
    add64 (sub64 a b) b = a := by
  unfold sub64 add64
  rw [Nat.mod_eq_of_lt hb, Nat.mod_add_mod]
  have hsplit : a + (wordMod - b) + b = a + wordMod := by omega
  rw [hsplit, Nat.add_mod_right, Nat.mod_eq_of_lt ha]

end Cosmos.Lib.Word64
