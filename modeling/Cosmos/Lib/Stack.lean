import Cosmos.Lib.Bytes
import Mathlib.Data.List.Basic

/-!
# Words on a stack

64-bit words in a byte-addressed store, at any alignment, and a stack of them that grows to lower
addresses.  `Words f a ws` says that the words `ws` stand one behind the other from `a` on, and
`Pushed f a g ws` that the store `g` is `f` with `ws` pushed on a stack whose pointer was `a`.

## Main results

* `words_append` : words stand at an address when two parts of them stand one behind the other.
* `Pushed.trans`, `Pushed.words` : pushes one after the other, and what they leave on the stack.
-/

namespace Cosmos.Lib.Stack

open Cosmos.Lib.Bytes

variable {f g k : Nat → UInt8} {a b n : Nat} {w : BitVec 64} {ws xs ys : List (BitVec 64)}

/-- The word at `a`. -/
def load (f : Nat → UInt8) (a : Nat) : BitVec 64 := BitVec.ofNat 64 (rd64 f a)

/-- The store with the word `w` at `a`. -/
def store (f : Nat → UInt8) (a : Nat) (w : BitVec 64) : Nat → UInt8 := put f a (le64 w.toNat)

@[simp] theorem load_store : load (store f a w) a = w := by
  unfold load store
  rw [rd64_put w.isLt]
  exact BitVec.ofNat_toNat .. |>.trans (BitVec.setWidth_eq w)

theorem load_congr (h : ∀ o, a ≤ o → o < a + 8 → g o = f o) : load g a = load f a := by
  unfold load
  rw [rd64_congr fun i hi => h (a + i) (by omega) (by omega)]

theorem store_out {o : Nat} (h : o < a ∨ a + 8 ≤ o) : store f a w o = f o :=
  put_out (by simpa using h)

/-- The words `ws` stand from `a` on. -/
def Words (f : Nat → UInt8) (a : Nat) : List (BitVec 64) → Prop
  | [] => True
  | w :: ws => load f a = w ∧ Words f (a + 8) ws

@[simp] theorem words_nil : Words f a [] := trivial

@[simp] theorem words_cons : Words f a (w :: ws) ↔ load f a = w ∧ Words f (a + 8) ws := Iff.rfl

theorem words_congr (h : ∀ o, a ≤ o → o < a + 8 * ws.length → g o = f o) :
    Words f a ws → Words g a ws := by
  induction ws generalizing a with
  | nil => exact fun _ => trivial
  | cons w ws ih =>
      rw [List.length_cons] at h
      rintro ⟨hw, hws⟩
      refine ⟨(load_congr fun o h1 h2 => h o h1 (by omega)).trans hw, ih (fun o h1 h2 => ?_) hws⟩
      exact h o (by omega) (by omega)

/-- **Words one behind the other.** -/
theorem words_append : Words f a (xs ++ ys) ↔ Words f a xs ∧ Words f (a + 8 * xs.length) ys := by
  induction xs generalizing a with
  | nil => simp
  | cons x xs ih =>
      rw [List.cons_append, words_cons, words_cons, ih, List.length_cons, and_assoc,
        show a + 8 + 8 * xs.length = a + 8 * (xs.length + 1) by omega]

theorem Words.drop (h : Words f a ws) (hn : n ≤ ws.length) : Words f (a + 8 * n) (ws.drop n) := by
  rw [← List.take_append_drop n ws, words_append, List.length_take, Nat.min_eq_left hn] at h
  exact h.2

theorem Words.get (h : Words f a ws) (hn : n < ws.length) : load f (a + 8 * n) = ws[n] := by
  have hrest := h.drop (Nat.le_of_lt hn)
  rw [List.drop_eq_getElem_cons hn] at hrest
  exact hrest.1

/-- The store with words from `a` on. -/
def storeWords (f : Nat → UInt8) (a : Nat) : List (BitVec 64) → Nat → UInt8
  | [] => f
  | w :: ws => store (storeWords f (a + 8) ws) a w

theorem storeWords_out {o : Nat} (h : o < a ∨ a + 8 * ws.length ≤ o) :
    storeWords f a ws o = f o := by
  induction ws generalizing a with
  | nil => rfl
  | cons w ws ih =>
      rw [List.length_cons] at h
      rw [storeWords, store_out (by omega), ih (by omega)]

theorem words_storeWords : Words (storeWords f a ws) a ws := by
  induction ws generalizing a with
  | nil => trivial
  | cons w ws ih =>
      refine ⟨load_store, words_congr (fun o h1 _ => ?_) ih⟩
      exact store_out (.inr h1)

/-! ## Pushing -/

/-- `g` is `f` with `ws` pushed below `a`, the last word pushed first in the list. -/
structure Pushed (f : Nat → UInt8) (a : Nat) (g : Nat → UInt8) (ws : List (BitVec 64)) :
    Prop where
  room : 8 * ws.length ≤ a
  words : Words g (a - 8 * ws.length) ws
  out : ∀ o, o < a - 8 * ws.length ∨ a ≤ o → g o = f o

theorem Pushed.nil : Pushed f a f [] := ⟨Nat.zero_le a, trivial, fun _ _ => rfl⟩

theorem pushed_store (h : 8 ≤ a) : Pushed f a (store f (a - 8) w) [w] where
  room := h
  words := ⟨load_store, trivial⟩
  out _ ho := store_out (by simp only [List.length_singleton] at ho; omega)

/-- **Pushes one after the other.** -/
theorem Pushed.trans (h₁ : Pushed f a g xs) (h₂ : Pushed g (a - 8 * xs.length) k ys) :
    Pushed f a k (ys ++ xs) := by
  have hr₁ := h₁.room
  have hr₂ := h₂.room
  have hadr : a - 8 * (ys ++ xs).length = a - 8 * xs.length - 8 * ys.length := by
    rw [List.length_append]
    omega
  refine ⟨by rw [List.length_append]; omega, ?_, fun o ho => ?_⟩
  · rw [hadr, words_append]
    refine ⟨h₂.words, ?_⟩
    rw [show a - 8 * xs.length - 8 * ys.length + 8 * ys.length = a - 8 * xs.length by omega]
    exact words_congr (fun o h1 _ => h₂.out o (.inr h1)) h₁.words
  · rw [hadr] at ho
    rw [h₂.out o (by omega), h₁.out o (by omega)]

/-- What stood above is still there. -/
theorem Pushed.append (h : Pushed f a g xs) (hys : Words f a ys) :
    Words g (a - 8 * xs.length) (xs ++ ys) := by
  refine words_append.mpr ⟨h.words, ?_⟩
  rw [Nat.sub_add_cancel h.room]
  exact words_congr (fun o h1 _ => h.out o (.inr h1)) hys

end Cosmos.Lib.Stack
