import Mathlib.Data.List.Rotate

/-!
# Going round a list

Taking the first element of a list again and again, and putting it back at the end each time.
Any stretch of it that is as long as the list is the list itself, begun somewhere else.
-/

namespace Cosmos.Lib.Round

variable {α : Type}

/-- The first `m` elements that are met. -/
def goRound : List α → Nat → List α
  | _, 0 => []
  | [], _ => []
  | t :: q, m + 1 => t :: goRound (q ++ [t]) m

theorem goRound_zero (q : List α) : goRound q 0 = [] := by
  cases q <;> rfl

theorem goRound_nil (m : Nat) : goRound ([] : List α) m = [] := by
  cases m <;> rfl

/-- Once round. -/
theorem goRound_length_append (q r : List α) : goRound (q ++ r) q.length = q := by
  induction q generalizing r with
  | nil => exact goRound_zero _
  | cons t q ih =>
      show t :: goRound (q ++ r ++ [t]) q.length = t :: q
      rw [List.append_assoc, ih]

/-- Where the round stands after `k` elements. -/
theorem goRound_drop (k m : Nat) (q : List α) :
    (goRound q (k + m)).drop k = goRound (q.rotate k) m := by
  induction k generalizing q with
  | zero => rw [Nat.zero_add, List.drop_zero, List.rotate_zero]
  | succ k ih =>
      cases q with
      | nil => rw [goRound_nil, List.rotate_nil, goRound_nil, List.drop_nil]
      | cons t q =>
          rw [Nat.add_right_comm, List.rotate_cons_succ]
          exact ih (q ++ [t])

theorem goRound_take (k m : Nat) (q : List α) :
    (goRound q (k + m)).take k = goRound q k := by
  induction k generalizing q with
  | zero => rw [List.take_zero, goRound_zero]
  | succ k ih =>
      cases q with
      | nil => rw [goRound_nil, goRound_nil, List.take_nil]
      | cons t q =>
          rw [Nat.add_right_comm]
          exact congrArg (t :: ·) (ih (q ++ [t]))

theorem length_goRound (m : Nat) {q : List α} (hq : q ≠ []) : (goRound q m).length = m := by
  induction m generalizing q with
  | zero => rw [goRound_zero, List.length_nil]
  | succ m ih =>
      obtain ⟨t, r, rfl⟩ := List.exists_cons_of_ne_nil hq
      exact congrArg (· + 1) (ih (by simp))

/-- **Any stretch as long as the list** is the list, begun where the round stands. -/
theorem goRound_window {k m : Nat} {q : List α} (h : k + q.length ≤ (goRound q m).length) :
    ((goRound q m).drop k).take q.length = q.rotate k := by
  by_cases hq : q = []
  · subst hq
    rw [List.length_nil, List.take_zero, List.rotate_nil]
  · rw [length_goRound m hq] at h
    obtain ⟨r, rfl⟩ := Nat.exists_eq_add_of_le h
    have hlen := goRound_length_append (q.rotate k) []
    rw [List.append_nil, List.length_rotate] at hlen
    rw [Nat.add_assoc, goRound_drop, goRound_take, hlen]

/-- When another element leaves, one comes nearer to the front, or stays where it is. -/
theorem exists_getElem?_erase [DecidableEq α] {q : List α} {i : Nat} {t c : α}
    (h : q[i]? = some t) (hne : t ≠ c) : ∃ j ≤ i, (q.erase c)[j]? = some t := by
  induction q generalizing i with
  | nil => simp at h
  | cons u q ih =>
      by_cases hu : u = c
      · subst hu
        rw [List.erase_cons_head]
        cases i with
        | zero => simp [Ne.symm hne] at h
        | succ i => exact ⟨i, Nat.le_succ i, by simpa using h⟩
      · rw [List.erase_cons_tail (by simpa using hu)]
        cases i with
        | zero => exact ⟨0, Nat.le_refl 0, by simpa using h⟩
        | succ i =>
            obtain ⟨j, hj, hget⟩ := ih (by simpa using h)
            exact ⟨j + 1, Nat.succ_le_succ hj, by simpa using hget⟩

end Cosmos.Lib.Round
