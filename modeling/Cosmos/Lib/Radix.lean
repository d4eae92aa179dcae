import Mathlib.Logic.Function.Basic

/-!
# Trees of tables

A radix tree is a store of tables: `nxt f i` is the table entry `i` of table `f`
points to, if any.  A path is the list of the indices taken from the root, the
last one first, and `walk` follows it.  Where different paths lead to different
tables, changing one entry changes the walk of one path only.
-/

namespace Cosmos.Lib.Radix

variable {ν : Type}

/-- Where a path leads. -/
def walk (nxt : ν → Nat → Option ν) (root : ν) : List Nat → Option ν
  | [] => some root
  | i :: p => (walk nxt root p).bind fun f => nxt f i

@[simp] theorem walk_nil (nxt : ν → Nat → Option ν) (root : ν) : walk nxt root [] = some root :=
  rfl

theorem walk_cons {nxt : ν → Nat → Option ν} {root f : ν} {p : List Nat}
    (h : walk nxt root p = some f) (i : Nat) : walk nxt root (i :: p) = nxt f i := by
  rw [walk, h]
  rfl

theorem walk_cons_none {nxt : ν → Nat → Option ν} {root : ν} {p : List Nat}
    (h : walk nxt root p = none) (i : Nat) : walk nxt root (i :: p) = none := by
  rw [walk, h]
  rfl

/-- Different paths of at most `d` steps lead to different tables. -/
def Apart (nxt : ν → Nat → Option ν) (root : ν) (ok : List Nat → Prop) (d : Nat) : Prop :=
  ∀ p q f, ok p → ok q → p.length ≤ d → q.length ≤ d →
    walk nxt root p = some f → walk nxt root q = some f → p = q

section Change

variable {nxt nxt' : ν → Nat → Option ν} {root f : ν} {ok : List Nat → Prop} {d i : Nat}
  {p : List Nat} {o : Option ν}

/-- The tables of the tree are as before. -/
theorem walk_congr (hok : ∀ j q, ok (j :: q) → ok q)
    (hsame : ∀ q f, ok q → q.length ≤ d → walk nxt root q = some f → nxt' f = nxt f) :
    ∀ q, ok q → q.length ≤ d + 1 → walk nxt' root q = walk nxt root q := by
  intro q
  induction q with
  | nil => exact fun _ _ => rfl
  | cons j q ih =>
      intro hq hlen
      rw [List.length_cons] at hlen
      have ihq := ih (hok j q hq) (by omega)
      cases hw : walk nxt root q with
      | none =>
          rw [hw] at ihq
          rw [walk_cons_none hw, walk_cons_none ihq]
      | some f =>
          rw [hw] at ihq
          rw [walk_cons hw, walk_cons ihq, hsame q f (hok j q hq) (by omega) hw]

/-- **One entry changed.**  Entry `i` of the table at path `p` becomes `o`, no
other entry of the tree changes, and nothing hangs below it before or after: then
only the path through that entry leads elsewhere. -/
theorem walk_set (hok : ∀ j q, ok (j :: q) → ok q) (hap : Apart nxt root ok d) (hokp : ok p)
    (hlen : p.length ≤ d) (hp : walk nxt root p = some f)
    (hsame : ∀ q h, ok q → q.length ≤ d → walk nxt root q = some h → ∀ j, (h = f → j ≠ i) →
      nxt' h j = nxt h j)
    (hset : nxt' f i = o)
    (hbelow : p.length < d → ∀ g, nxt f i = some g → ∀ j, ok (j :: i :: p) → nxt g j = none)
    (hbelow' : p.length < d → ∀ g, o = some g → ∀ j, ok (j :: i :: p) → nxt' g j = none) :
    ∀ q, ok q → q.length ≤ d + 1 →
      walk nxt' root q = Function.update (walk nxt root) (i :: p) o q := by
  intro q
  induction q with
  | nil =>
      intro _ _
      rw [Function.update_of_ne (by simp)]
      rfl
  | cons j q ih =>
      intro hq hqlen
      rw [List.length_cons] at hqlen
      have ihq := ih (hok j q hq) (by omega)
      by_cases hqi : q = i :: p
      · -- below the changed entry
        subst hqi
        rw [Function.update_self] at ihq
        rw [Function.update_of_ne (fun he => by simpa using congrArg List.length he)]
        have hlt : p.length < d := by
          rw [List.length_cons] at hqlen
          omega
        have hold : walk nxt root (j :: i :: p) = none := by
          cases hg : nxt f i with
          | none =>
              refine walk_cons_none ?_ j
              rw [walk_cons hp, hg]
          | some g =>
              rw [walk_cons (f := g) (by rw [walk_cons hp, hg])]
              exact hbelow hlt g hg j hq
        rw [hold]
        cases ho : o with
        | none => exact walk_cons_none (ihq.trans ho) j
        | some g =>
            rw [walk_cons (ihq.trans ho)]
            exact hbelow' hlt g ho j hq
      · rw [Function.update_of_ne hqi] at ihq
        cases hw : walk nxt root q with
        | none =>
            rw [hw] at ihq
            have hne : j :: q ≠ i :: p := by
              rintro he
              cases he
              rw [hw] at hp
              cases hp
            rw [walk_cons_none ihq, Function.update_of_ne hne, walk_cons_none hw]
        | some h =>
            rw [hw] at ihq
            by_cases hjq : j :: q = i :: p
            · cases hjq
              rw [hp] at hw
              cases hw
              rw [walk_cons ihq, Function.update_self, hset]
            · rw [walk_cons ihq, Function.update_of_ne hjq, walk_cons hw]
              refine hsame q h (hok j q hq) (by omega) hw j fun hf hj => hjq ?_
              subst hf
              rw [hap q p h (hok j q hq) hokp (by omega) hlen hw hp, hj]

/-- A new table keeps the paths apart. -/
theorem Apart.link {g : ν} (hap : Apart nxt root ok d)
    (hwalk : ∀ q, ok q → q.length ≤ d + 1 →
      walk nxt' root q = Function.update (walk nxt root) (i :: p) (some g) q)
    (hnew : ∀ q, ok q → q.length ≤ d → walk nxt root q ≠ some g) : Apart nxt' root ok d := by
  have hcase : ∀ q h, ok q → q.length ≤ d → walk nxt' root q = some h →
      (q = i :: p ∧ h = g) ∨ (q ≠ i :: p ∧ walk nxt root q = some h) := by
    intro q h hq hlen hw
    rw [hwalk q hq (by omega)] at hw
    by_cases hqi : q = i :: p
    · subst hqi
      rw [Function.update_self] at hw
      exact Or.inl ⟨rfl, (Option.some.inj hw).symm⟩
    · rw [Function.update_of_ne hqi] at hw
      exact Or.inr ⟨hqi, hw⟩
  intro q₁ q₂ h ok₁ ok₂ len₁ len₂ hw₁ hw₂
  rcases hcase q₁ h ok₁ len₁ hw₁ with ⟨h₁, hg₁⟩ | ⟨_, h₁⟩ <;>
    rcases hcase q₂ h ok₂ len₂ hw₂ with ⟨h₂, hg₂⟩ | ⟨_, h₂⟩
  · rw [h₁, h₂]
  · exact absurd (hg₁ ▸ h₂) (hnew q₂ ok₂ len₂)
  · exact absurd (hg₂ ▸ h₁) (hnew q₁ ok₁ len₁)
  · exact hap q₁ q₂ h ok₁ ok₂ len₁ len₂ h₁ h₂

/-- Cutting an entry off, or changing a last one, keeps the paths apart. -/
theorem Apart.cut (hap : Apart nxt root ok d)
    (hwalk : ∀ q, ok q → q.length ≤ d + 1 →
      walk nxt' root q = Function.update (walk nxt root) (i :: p) o q)
    (ho : p.length < d → o = none) : Apart nxt' root ok d := by
  have hcase : ∀ q h, ok q → q.length ≤ d → walk nxt' root q = some h →
      walk nxt root q = some h := by
    intro q h hq hlen hw
    rw [hwalk q hq (by omega)] at hw
    by_cases hqi : q = i :: p
    · subst hqi
      rw [Function.update_self, ho hlen] at hw
      cases hw
    · rw [Function.update_of_ne hqi] at hw
      exact hw
  intro q₁ q₂ h ok₁ ok₂ len₁ len₂ hw₁ hw₂
  exact hap q₁ q₂ h ok₁ ok₂ len₁ len₂ (hcase q₁ h ok₁ len₁ hw₁) (hcase q₂ h ok₂ len₂ hw₂)

end Change

end Cosmos.Lib.Radix
