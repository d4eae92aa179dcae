/-!
# Runs of a machine whose steps can stop

A machine is a partial step function `step : σ → ι → Except ε σ`: it consumes
one request and either moves on or stops with an error.  `run` feeds it a list
of requests, `run_inv` is the induction principle every safety theorem about
whole runs uses, and `run_inv_of_allSteps` its form for invariants that only
steps under a side condition preserve.  `run_sim` relates the runs of two machines.
-/

namespace Cosmos.Lib.Run

variable {σ ι ε : Type}

/-- Feed a list of requests to the machine, oldest first. -/
def run (step : σ → ι → Except ε σ) : List ι → σ → Except ε σ
  | [], s => .ok s
  | op :: ops, s =>
      match step s op with
      | .error e => .error e
      | .ok s' => run step ops s'

@[simp] theorem run_nil (step : σ → ι → Except ε σ) (s : σ) :
    run step [] s = .ok s := rfl

theorem run_cons_ok {step : σ → ι → Except ε σ} {s s' : σ} {op : ι}
    {ops : List ι} (h : step s op = .ok s') :
    run step (op :: ops) s = run step ops s' := by
  simp [run, h]

theorem run_cons {step : σ → ι → Except ε σ} {op : ι} {ops : List ι} {s : σ} :
    run step (op :: ops) s = step s op >>= run step ops := by
  rw [run]
  cases step s op with
  | error e => rfl
  | ok s' => rfl

/-- Requests one behind the other. -/
theorem run_append {step : σ → ι → Except ε σ} {ops ops' : List ι} (s : σ) :
    run step (ops ++ ops') s = run step ops s >>= run step ops' := by
  induction ops generalizing s with
  | nil => rfl
  | cons op ops ih =>
      rw [List.cons_append, run_cons, run_cons]
      cases step s op with
      | error e => rfl
      | ok s' => exact ih s'

/-- A run that gets through its first request does so by a step. -/
theorem run_cons_inv {step : σ → ι → Except ε σ} {s t : σ} {op : ι}
    {ops : List ι} (h : run step (op :: ops) s = .ok t) :
    ∃ s', step s op = .ok s' ∧ run step ops s' = .ok t := by
  cases hs : step s op with
  | error e => simp [run, hs] at h
  | ok s' => exact ⟨s', rfl, by simpa [run, hs] using h⟩

/-- **Invariance.**  What every step preserves, every run preserves. -/
theorem run_inv {step : σ → ι → Except ε σ} (Inv : σ → Prop)
    (hstep : ∀ s op s', Inv s → step s op = .ok s' → Inv s') :
    ∀ (ops : List ι) (s t : σ), Inv s → run step ops s = .ok t → Inv t := by
  intro ops
  induction ops with
  | nil =>
      intro s t hs hrun
      cases hrun
      exact hs
  | cons op ops ih =>
      intro s t hs hrun
      obtain ⟨s', hop, hrest⟩ := run_cons_inv hrun
      exact ih s' t (hstep s op s' hs hop) hrest

/-- Invariance relative to a side condition that each request of the run must
meet in the state it is consumed in. -/
def AllSteps (step : σ → ι → Except ε σ) (P : σ → ι → Prop) : List ι → σ → Prop
  | [], _ => True
  | op :: ops, s =>
      P s op ∧ ∀ s', step s op = .ok s' → AllSteps step P ops s'

/-- What every step that meets the side condition preserves, every run whose
steps all meet it preserves. -/
theorem run_inv_of_allSteps {step : σ → ι → Except ε σ} (Inv : σ → Prop)
    (P : σ → ι → Prop)
    (hstep : ∀ s op s', Inv s → P s op → step s op = .ok s' → Inv s') :
    ∀ (ops : List ι) (s t : σ), Inv s → AllSteps step P ops s →
      run step ops s = .ok t → Inv t := by
  intro ops
  induction ops with
  | nil =>
      intro s t hs _ hrun
      cases hrun
      exact hs
  | cons op ops ih =>
      intro s t hs hall hrun
      obtain ⟨s', hop, hrest⟩ := run_cons_inv hrun
      obtain ⟨hP, htail⟩ := hall
      exact ih s' t (hstep s op s' hs hP hop) (htail s' hop) hrest

/-- **A run that gets through.**  If each step that meets the side condition can be taken, keeps
the invariant and has a property, so does every run whose steps all meet it. -/
theorem run_total_of_allSteps {step : σ → ι → Except ε σ} (Inv : σ → Prop) (P Q : σ → ι → Prop)
    (hstep : ∀ s op, Inv s → P s op → Q s op ∧ ∃ s', step s op = .ok s' ∧ Inv s') :
    ∀ (ops : List ι) (s : σ), Inv s → AllSteps step P ops s →
      (∃ t, run step ops s = .ok t) ∧ AllSteps step Q ops s := by
  intro ops
  induction ops with
  | nil =>
      intro s _ _
      exact ⟨⟨s, rfl⟩, trivial⟩
  | cons op ops ih =>
      intro s hs hall
      obtain ⟨hQ, s', hop, hs'⟩ := hstep s op hs hall.1
      obtain ⟨⟨t, hrun⟩, hrest⟩ := ih s' hs' (hall.2 s' hop)
      refine ⟨⟨t, (run_cons_ok hop).trans hrun⟩, hQ, fun s'' hop' => ?_⟩
      rw [hop] at hop'
      cases hop'
      exact hrest

/-- A side condition on the requests alone. -/
theorem allSteps_of_forall {step : σ → ι → Except ε σ} {P : ι → Prop} :
    ∀ (ops : List ι) (s : σ), (∀ op ∈ ops, P op) → AllSteps step (fun _ op => P op) ops s := by
  intro ops
  induction ops with
  | nil =>
      intro s _
      trivial
  | cons op ops ih =>
      intro s h
      exact ⟨h op List.mem_cons_self, fun s' _ =>
        ih s' fun op' hop' => h op' (List.mem_cons_of_mem _ hop')⟩

theorem AllSteps.and {step : σ → ι → Except ε σ} {P Q : σ → ι → Prop} :
    ∀ {ops : List ι} {s : σ}, AllSteps step P ops s → AllSteps step Q ops s →
      AllSteps step (fun s op => P s op ∧ Q s op) ops s := by
  intro ops
  induction ops with
  | nil =>
      intro s _ _
      trivial
  | cons op ops ih =>
      intro s hP hQ
      exact ⟨⟨hP.1, hQ.1⟩, fun s' hs' => ih (hP.2 s' hs') (hQ.2 s' hs')⟩

theorem AllSteps.imp {step : σ → ι → Except ε σ} {P Q : σ → ι → Prop}
    (h : ∀ s op, P s op → Q s op) : ∀ {ops : List ι} {s : σ}, AllSteps step P ops s →
      AllSteps step Q ops s := by
  intro ops
  induction ops with
  | nil =>
      intro s _
      trivial
  | cons op ops ih =>
      intro s hP
      exact ⟨h s op hP.1, fun s' hs' => ih (hP.2 s' hs')⟩

/-- **Where an invariant holds along a run.**  If each step from a state with it leads to one
with it exactly when `P` says so, it holds in every state of a run exactly when `P` says so
of every step. -/
theorem allSteps_iff {step : σ → ι → Except ε σ} (Inv J : σ → Prop) (P Q : σ → ι → Prop)
    (hJ : ∀ s op s', J s → Q s op → step s op = .ok s' → J s')
    (hstep : ∀ s op s', J s → Inv s → Q s op → step s op = .ok s' → (Inv s' ↔ P s op)) :
    ∀ (ops : List ι) (s t : σ), J s → Inv s → AllSteps step Q ops s → run step ops s = .ok t →
      (AllSteps step (fun s _ => Inv s) ops s ∧ Inv t ↔ AllSteps step P ops s) := by
  intro ops
  induction ops with
  | nil =>
      intro s t _ hs _ hrun
      cases hrun
      exact iff_of_true ⟨trivial, hs⟩ trivial
  | cons op ops ih =>
      intro s t hj hs hQ hrun
      obtain ⟨s', hop, hrest⟩ := run_cons_inv hrun
      have hiff := hstep s op s' hj hs hQ.1 hop
      have htail : Inv s' → (AllSteps step (fun s _ => Inv s) ops s' ∧ Inv t ↔
          AllSteps step P ops s') := fun hs' =>
        ih s' t (hJ s op s' hj hQ.1 hop) hs' (hQ.2 s' hop) hrest
      constructor
      · rintro ⟨⟨-, hall⟩, ht⟩
        have hs' : Inv s' := by
          cases ops with
          | nil =>
              cases hrest
              exact ht
          | cons op' ops' => exact (hall s' hop).1
        have hP := (htail hs').mp ⟨hall s' hop, ht⟩
        refine ⟨hiff.mp hs', fun s'' hop' => ?_⟩
        rw [hop] at hop'
        cases hop'
        exact hP
      · rintro ⟨hp, hall⟩
        obtain ⟨hInv, ht⟩ := (htail (hiff.mpr hp)).mpr (hall s' hop)
        refine ⟨⟨hs, fun s'' hop' => ?_⟩, ht⟩
        rw [hop] at hop'
        cases hop'
        exact hInv

/-- What every step of these requests preserves holds after each of them. -/
theorem allSteps_reach {step : σ → ι → Except ε σ} (Inv : σ → Prop) (P : ι → Prop)
    (hstep : ∀ s op s', Inv s → P op → step s op = .ok s' → Inv s') :
    ∀ (ops : List ι) (s : σ), Inv s → (∀ op ∈ ops, P op) →
      AllSteps step (fun s op => ∀ s', step s op = .ok s' → Inv s') ops s := by
  intro ops
  induction ops with
  | nil =>
      intro s _ _
      trivial
  | cons op ops ih =>
      intro s hs hops
      have hone : ∀ s', step s op = .ok s' → Inv s' := fun s' hs' =>
        hstep s op s' hs (hops op List.mem_cons_self) hs'
      exact ⟨hone, fun s' hs' =>
        ih s' (hone s' hs') fun op' hop' => hops op' (List.mem_cons_of_mem _ hop')⟩

/-- **Simulation.**  If each step of the first machine is also one of the second, from related
states to related states, so is each run. -/
theorem run_sim {τ δ : Type} {step : σ → ι → Except ε σ} {step' : τ → ι → Except δ τ}
    (R : σ → τ → Prop)
    (hstep : ∀ s t op s', R s t → step s op = .ok s' → ∃ t', step' t op = .ok t' ∧ R s' t') :
    ∀ (ops : List ι) (s s' : σ) (t : τ), R s t → run step ops s = .ok s' →
      ∃ t', run step' ops t = .ok t' ∧ R s' t' := by
  intro ops
  induction ops with
  | nil =>
      intro s s' t hr hrun
      cases hrun
      exact ⟨t, rfl, hr⟩
  | cons op ops ih =>
      intro s s' t hr hrun
      obtain ⟨s₁, hop, hrest⟩ := run_cons_inv hrun
      obtain ⟨t₁, hop', hr'⟩ := hstep s t op s₁ hr hop
      obtain ⟨t', hrun', hr''⟩ := ih s₁ s' t₁ hr' hrest
      exact ⟨t', (run_cons_ok hop').trans hrun', hr''⟩

/-- A result that was changed afterwards. -/
theorem exists_of_map_ok {α β : Type} {e : Except ε α} {f : α → β} {b : β}
    (h : e.map f = .ok b) : ∃ a, e = .ok a ∧ f a = b := by
  cases e with
  | error e => cases h
  | ok a =>
      cases h
      exact ⟨a, rfl, rfl⟩

/-- A computation followed by another one. -/
theorem exists_of_bind_ok {α β : Type} {e : Except ε α} {f : α → Except ε β} {b : β}
    (h : e >>= f = .ok b) : ∃ a, e = .ok a ∧ f a = .ok b := by
  cases e with
  | error e => exact nomatch h
  | ok a => exact ⟨a, rfl, h⟩

/-! ## Running a machine on concrete requests -/

/-- Test a condition at each step of a run. -/
def checkSteps (step : σ → ι → Except ε σ) (p : σ → ι → Bool) : List ι → σ → Bool
  | [], _ => true
  | op :: ops, s =>
      p s op && match step s op with
        | .error _ => true
        | .ok s' => checkSteps step p ops s'

theorem allSteps_of_check {step : σ → ι → Except ε σ} {P : σ → ι → Prop} {p : σ → ι → Bool}
    (hp : ∀ s op, p s op = true → P s op) :
    ∀ (ops : List ι) (s : σ), checkSteps step p ops s = true → AllSteps step P ops s := by
  intro ops
  induction ops with
  | nil =>
      intro s _
      trivial
  | cons op ops ih =>
      intro s h
      rw [checkSteps, Bool.and_eq_true] at h
      refine ⟨hp s op h.1, fun s' hs' => ?_⟩
      have hrest := h.2
      rw [hs'] at hrest
      exact ih s' hrest

/-- The computation succeeds with a value that passes the test. -/
def okAnd {α : Type} (e : Except ε α) (q : α → Bool) : Bool :=
  match e with
  | .error _ => false
  | .ok a => q a

theorem exists_of_okAnd {α : Type} {e : Except ε α} {q : α → Bool} (h : okAnd e q = true) :
    ∃ a, e = .ok a ∧ q a = true := by
  cases e with
  | error e => cases h
  | ok a => exact ⟨a, rfl, h⟩

end Cosmos.Lib.Run
