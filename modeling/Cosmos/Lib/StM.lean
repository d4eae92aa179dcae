import Mathlib.Logic.Basic

/-!
# Computations on a state that may stop

Partial correctness of computations in `StateT σ (Except ε)`: `Ensures P x Q`
says that from a state that meets `P` the computation `x` stops with an error or
returns a value and a state that meet `Q`.  One rule for each way such a
computation is built lets a proof follow the lines of the code.
-/

namespace Cosmos.Lib.StM

variable {σ ε α β : Type}

/-- From `P`, what `x` returns meets `Q`. -/
def Ensures (P : σ → Prop) (x : StateT σ (Except ε) α) (Q : α → σ → Prop) : Prop :=
  ∀ s a s', P s → x.run s = .ok (a, s') → Q a s'

variable {P : σ → Prop} {Q : α → σ → Prop}

theorem Ensures.bind {x : StateT σ (Except ε) α} {f : α → StateT σ (Except ε) β}
    {R : β → σ → Prop} (hx : Ensures P x Q) (hf : ∀ a, Ensures (Q a) (f a) R) :
    Ensures P (x >>= f) R := by
  intro s b s' hs hrun
  rw [StateT.run_bind] at hrun
  cases hr : x.run s with
  | error e =>
      rw [hr] at hrun
      cases hrun
  | ok p =>
      rw [hr] at hrun
      exact hf p.1 p.2 b s' (hx s p.1 p.2 hs hr) hrun

theorem Ensures.pure {a : α} (h : ∀ s, P s → Q a s) :
    Ensures P (Pure.pure a : StateT σ (Except ε) α) Q := by
  intro s b s' hs hrun
  cases hrun
  exact h s hs

theorem Ensures.get {Q : σ → σ → Prop} (h : ∀ s, P s → Q s s) :
    Ensures P (MonadState.get : StateT σ (Except ε) σ) Q := by
  intro s b s' hs hrun
  cases hrun
  exact h s hs

theorem Ensures.set {t : σ} {Q : PUnit → σ → Prop} (h : ∀ s, P s → Q ⟨⟩ t) :
    Ensures P (MonadStateOf.set t : StateT σ (Except ε) PUnit) Q := by
  intro s b s' hs hrun
  cases hrun
  exact h s hs

theorem Ensures.throw {e : ε} : Ensures P (throw e : StateT σ (Except ε) α) Q := by
  intro s b s' _ hrun
  cases hrun

theorem Ensures.ite {c : Prop} [Decidable c] {x y : StateT σ (Except ε) α}
    (hx : c → Ensures P x Q) (hy : ¬ c → Ensures P y Q) : Ensures P (if c then x else y) Q := by
  by_cases hc : c
  · rw [if_pos hc]
    exact hx hc
  · rw [if_neg hc]
    exact hy hc

/-- Stronger precondition, weaker postcondition. -/
theorem Ensures.weaken {P' : σ → Prop} {Q' : α → σ → Prop} {x : StateT σ (Except ε) α}
    (h : Ensures P x Q) (hP : ∀ s, P' s → P s) (hQ : ∀ a s, Q a s → Q' a s) :
    Ensures P' x Q' :=
  fun s a s' hs hrun => hQ a s' (h s a s' (hP s hs) hrun)

/-- A precondition that says something about other things than the state. -/
theorem Ensures.of_pre {c : Prop} {x : StateT σ (Except ε) α} (h : c → Ensures P x Q)
    (hc : ∀ s, P s → c) : Ensures P x Q :=
  fun s a s' hs hrun => h (hc s hs) s a s' hs hrun

/-- The rest of a computation whose first part returned. -/
theorem run_bind_ok {x : StateT σ (Except ε) α} {f : α → StateT σ (Except ε) β} {s s' : σ} {a : α}
    (h : x.run s = .ok (a, s')) : (x >>= f).run s = (f a).run s' := by
  rw [StateT.run_bind, h]
  rfl

/-- Reading the state first. -/
theorem run_get_bind {f : σ → StateT σ (Except ε) β} {s : σ} :
    ((get : StateT σ (Except ε) σ) >>= f).run s = (f s).run s := rfl

/-- What returned did so part by part. -/
theorem run_bind_inv {x : StateT σ (Except ε) α} {f : α → StateT σ (Except ε) β} {s s'' : σ}
    {b : β} (h : (x >>= f).run s = .ok (b, s'')) :
    ∃ a s', x.run s = .ok (a, s') ∧ (f a).run s' = .ok (b, s'') := by
  rw [StateT.run_bind] at h
  cases hx : x.run s with
  | error e =>
      rw [hx] at h
      cases h
  | ok p =>
      rw [hx] at h
      exact ⟨p.1, p.2, rfl, h⟩

/-- A part that leaves the state alone. -/
theorem run_liftM_inv {e : Except ε α} {s s' : σ} {a : α}
    (h : (liftM e : StateT σ (Except ε) α).run s = .ok (a, s')) : e = .ok a ∧ s' = s := by
  cases e with
  | error e => cases h
  | ok b =>
      cases h
      exact ⟨rfl, rfl⟩

/-- A computation that went past a check. -/
theorem run_unless_inv {c : Prop} [Decidable c] {f : PUnit → StateT σ (Except ε) β} {e : ε}
    {s s' : σ} {b : β} (h : (if c then f ⟨⟩ else throw e >>= f).run s = .ok (b, s')) :
    c ∧ (f ⟨⟩).run s = .ok (b, s') := by
  by_cases hc : c
  · rw [if_pos hc] at h
    exact ⟨hc, h⟩
  · rw [if_neg hc] at h
    cases h

/-- A computation that went past a check that stops it. -/
theorem run_when_inv {c : Prop} [Decidable c] {f : PUnit → StateT σ (Except ε) β} {e : ε}
    {s s' : σ} {b : β} (h : (if c then throw e >>= f else f ⟨⟩).run s = .ok (b, s')) :
    ¬ c ∧ (f ⟨⟩).run s = .ok (b, s') := by
  by_cases hc : c
  · rw [if_pos hc] at h
    cases h
  · rw [if_neg hc] at h
    exact ⟨hc, h⟩

end Cosmos.Lib.StM
