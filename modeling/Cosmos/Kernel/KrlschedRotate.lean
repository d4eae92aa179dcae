import Cosmos.Lib.Round
import Cosmos.Kernel.KrlschedRun

/-!
# Whose turn it is

The threads of one priority take turns: the ready list with the thread kept in `tdl_curruntd`
behind it is a queue, of which `krlsched_select_thread` takes the first thread and which it goes
back to the end of.  `schedul_select` says this for one selection, and the rest follows from
`Cosmos.Lib.Round`.

## Main results

* `runPlaced_of_run` : what the lists say of the threads that can run, in every state.
* `select_rotates` and `select_not_rotates` : the choice, and the turns of a priority.
-/

namespace Cosmos.Kernel

open Cosmos.Lib.Placement Cosmos.Lib.Run Cosmos.Lib.Round

/-- The threads of a priority in the order of their turns. -/
def Thrdlst.queue (l : Thrdlst) : List Nat := l.tdlLsth ++ l.tdlCurruntd.toList

/-- A thread that may be chosen. -/
def CanBeChosen (st : SchedState) (t : Nat) : Prop :=
  t ∈ st.created ∧ (st.s.thread t).tdStus.canRun = true

/-- The threads below priority `n` are where the scheduler looks for them. -/
structure QueuesOk (n : Nat) (st : SchedState) : Prop where
  own : ∀ q < n, ∀ t ∈ (st.s.schda.sdaThdlst q).queue,
    CanBeChosen st t ∧ (st.s.thread t).tdPriority = q
  started : st.s.schda.sdaSchdflgs ≠ needStartCpuildeSchedFlgs

/-- The threads that can run are on the ready lists or in `tdl_curruntd`, each once. -/
structure RunPlaced (st : SchedState) (idle : Nat) : Prop where
  queues : ∀ n, QueuesOk n st
  all : ∀ t, CanBeChosen st t → t ∈ (st.s.schda.sdaThdlst (st.s.thread t).tdPriority).queue
  once : ∀ p, (st.s.schda.sdaThdlst p).queue.Nodup
  pity : ∀ t, CanBeChosen st t → (st.s.thread t).tdPriority < prityMax
  cpuidle : st.s.schda.sdaCpuidle = some idle

/-- The threads that the selections of a run return. -/
def selections : List SchedOp → SchedState → List Nat
  | [], _ => []
  | op :: ops, st =>
      match schedStep st op with
      | .error _ => []
      | .ok st' =>
          (if op = .schedul then st'.s.schda.sdaCurrtd.toList else []) ++ selections ops st'

/-- The priority of the thread that a call adds, or lets wait, wakes or ends. -/
def SchedOp.pity (st : SchedState) : SchedOp → Option Nat
  | .addThread _ pity => some pity
  | .schedul => none
  | .wait _ => st.s.schda.sdaCurrtd.map fun t => (st.s.thread t).tdPriority
  | .up w => (st.s.wlst w).wlList.head?.map fun t => (st.s.thread t).tdPriority
  | .exit => st.s.schda.sdaCurrtd.map fun t => (st.s.thread t).tdPriority

/-- The call concerns no priority below `n`. -/
def SchedOp.Above (n : Nat) (st : SchedState) (op : SchedOp) : Prop := ∀ q ∈ op.pity st, n ≤ q

instance (n : Nat) (st : SchedState) (op : SchedOp) : Decidable (op.Above n st) :=
  inferInstanceAs (Decidable (∀ q ∈ op.pity st, n ≤ q))

/-! ## One selection -/

section Select

variable {s : Sched}

/-- The choice within one priority takes the first thread of the queue. -/
theorem selectOn_queue {l : Thrdlst} (hrun : ∀ t ∈ l.queue, (s.thread t).tdStus.canRun = true) :
    (l.queue = [] → selectOn s l = none) ∧
      ∀ t r, l.queue = t :: r → ∃ l', selectOn s l = some (l', t) ∧ l'.queue = r ++ [t] := by
  obtain ⟨lsth, cur, nr⟩ := l
  unfold selectOn Thrdlst.queue at *
  cases lsth with
  | nil =>
      cases cur with
      | none => exact ⟨fun _ => rfl, fun t r h => (by cases h)⟩
      | some c =>
          refine ⟨fun h => (by cases h), fun t r h => ?_⟩
          cases h
          exact ⟨_, rfl, rfl⟩
  | cons u rest =>
      refine ⟨fun h => (by cases h), fun t r h => ?_⟩
      obtain ⟨rfl, rfl⟩ := List.cons.inj h
      have hu : (s.thread u).tdStus.canRun = true := hrun u List.mem_cons_self
      refine ⟨⟨rest ++ cur.toList, some u, nr⟩, ?_, ?_⟩
      · dsimp only
        rw [List.find?_cons_of_pos (p := fun t => (s.thread t).tdStus.canRun) hu]
        dsimp only
        rw [List.erase_cons_head]
      · rfl

/-- The loop over the priorities, of which those below `b` are known. -/
theorem selectLoop_spec (b : Nat) : ∀ n p, b ≤ p + n →
    (∀ q, p ≤ q → q < b → ∀ t ∈ (s.schda.sdaThdlst q).queue, (s.thread t).tdStus.canRun = true) →
    (∀ q, p ≤ q → q < b → (s.schda.sdaThdlst q).queue = []) ∨
    ∃ q t r l', p ≤ q ∧ q < b ∧ (∀ j, p ≤ j → j < q → (s.schda.sdaThdlst j).queue = []) ∧
      (s.schda.sdaThdlst q).queue = t :: r ∧ selectLoop s n p = some (s.setThdlst q l', t) ∧
      l'.queue = r ++ [t] := by
  intro n
  induction n with
  | zero =>
      intro p hb _
      exact Or.inl fun q h1 h2 => by omega
  | succ n ih =>
      intro p hb hrun
      by_cases hp : p < b
      · have hon := selectOn_queue (hrun p (Nat.le_refl p) hp)
        cases hq : (s.schda.sdaThdlst p).queue with
        | nil =>
            have hstep : ∀ q, p ≤ q → q = p ∨ p + 1 ≤ q := fun q hq => by omega
            rcases ih (p + 1) (by omega) fun q h1 h2 => hrun q (by omega) h2 with
              hnil | ⟨q, t, r, l', h1, h2, h3, h4, h5, h6⟩
            · apply Or.inl
              intro q h1 h2
              rcases hstep q h1 with rfl | h1
              · exact hq
              · exact hnil q h1 h2
            · refine Or.inr ⟨q, t, r, l', by omega, h2, fun j h7 h8 => ?_, h4, ?_, h6⟩
              · rcases hstep j h7 with rfl | h7
                · exact hq
                · exact h3 j h7 h8
              · rw [selectLoop, hon.1 hq]
                exact h5
        | cons t r =>
            obtain ⟨l', hsel, hl'⟩ := hon.2 t r hq
            refine Or.inr ⟨p, t, r, l', Nat.le_refl p, hp, fun j h1 h2 => by omega, hq, ?_, hl'⟩
            rw [selectLoop, hsel]
      · exact Or.inl fun q h1 h2 => by omega

/-- Nothing to choose. -/
theorem selectLoop_none : ∀ n p,
    (∀ q, p ≤ q → q < p + n → (s.schda.sdaThdlst q).queue = []) → selectLoop s n p = none := by
  intro n
  induction n with
  | zero => exact fun p _ => rfl
  | succ n ih =>
      intro p h
      have hp := h p (Nat.le_refl p) (by omega)
      have hrun : ∀ t ∈ (s.schda.sdaThdlst p).queue, (s.thread t).tdStus.canRun = true := by
        rw [hp]
        exact fun t ht => absurd ht List.not_mem_nil
      rw [selectLoop, (selectOn_queue hrun).1 hp]
      exact ih (p + 1) fun q h1 h2 => h q (by omega) (by omega)

end Select

/-! ## The calls -/

section Calls

variable {st st' : SchedState} {n : Nat}

/-- `__to_new_context` changes no list and makes no thread one that cannot run. -/
theorem toNewContext_keeps (s : Sched) (t u : Nat) :
    (toNewContext s t).schda.sdaThdlst = s.schda.sdaThdlst ∧
      (toNewContext s t).schda.sdaCurrtd = some t ∧
      (toNewContext s t).schda.sdaSchdflgs = s.schda.sdaSchdflgs ∧
      (toNewContext s t).schda.sdaExitlist = s.schda.sdaExitlist ∧
      (toNewContext s t).wlst = s.wlst ∧
      ((toNewContext s t).thread u).tdPriority = (s.thread u).tdPriority ∧
      ((toNewContext s t).thread u).tdStus.canRun = (s.thread u).tdStus.canRun := by
  unfold toNewContext
  by_cases hnew : (s.thread t).tdStus = .new
  · rw [if_pos hnew]
    have hth := setStus_thread { s with schda := { s.schda with sdaCurrtd := some t } } t .run u
    refine ⟨rfl, rfl, rfl, rfl, rfl, hth.1, ?_⟩
    rw [hth.2]
    by_cases hu : u = t
    · subst hu
      rw [if_pos rfl, hnew]
      rfl
    · rw [if_neg hu]
  · rw [if_neg hnew]
    exact ⟨rfl, rfl, rfl, rfl, rfl, rfl, rfl⟩

/-- A selection with threads below priority `n` that can run: the first of the lowest priority
that has any, which goes to the end of its queue. -/
theorem schedul_select (h : QueuesOk n st) (hn : n ≤ prityMax)
    (hne : ∃ q < n, (st.s.schda.sdaThdlst q).queue ≠ [])
    (hstep : schedStep st .schedul = .ok st') :
    ∃ q t r, q < n ∧ (∀ j < q, (st.s.schda.sdaThdlst j).queue = []) ∧
      (st.s.schda.sdaThdlst q).queue = t :: r ∧ st'.s.schda.sdaCurrtd = some t ∧
      (st'.s.schda.sdaThdlst q).queue = r ++ [t] ∧
      (∀ j, j ≠ q → st'.s.schda.sdaThdlst j = st.s.schda.sdaThdlst j) ∧ QueuesOk n st' := by
  obtain ⟨q₀, hq₀, hne⟩ := hne
  obtain ⟨s', hrun, rfl⟩ := exists_of_map_ok hstep
  rcases selectLoop_spec n prityMax 0 (by omega) fun q _ hq t ht => (h.own q hq t ht).1.2 with
    hnil | ⟨q, t, r, l', -, hq, hlow, hqueue, hsel, hl'⟩
  · exact absurd (hnil q₀ (Nat.zero_le _) hq₀) hne
  · unfold krlschedul at hrun
    rw [if_neg h.started] at hrun
    split at hrun
    · cases hrun
    · unfold krlschedSelectThread at hrun
      rw [hsel] at hrun
      cases hrun
      have hkeep := toNewContext_keeps (st.s.setThdlst q l') t
      have hlists := (hkeep 0).1
      have hself : (toNewContext (st.s.setThdlst q l') t).schda.sdaThdlst q = l' := by
        rw [hlists]
        exact setThdlst_self _ _ _
      have hother : ∀ j, j ≠ q → (toNewContext (st.s.setThdlst q l') t).schda.sdaThdlst j
          = st.s.schda.sdaThdlst j := fun j hj => by
        rw [hlists]
        exact setThdlst_of_ne _ _ _ hj
      refine ⟨q, t, r, hq, fun j hj => hlow j (Nat.zero_le j) hj, hqueue, (hkeep 0).2.1, ?_,
        hother, ⟨fun j hj u hu => ?_, ?_⟩⟩
      · dsimp only
        rw [hself, hl']
      · have hold : u ∈ (st.s.schda.sdaThdlst j).queue := by
          dsimp only at hu
          by_cases hjq : j = q
          · subst hjq
            rw [hself, hl'] at hu
            rw [hqueue]
            exact (List.perm_append_singleton t r).mem_iff.mp hu
          · rwa [hother j hjq] at hu
        obtain ⟨hrunnable, hpity⟩ := h.own j hj u hold
        obtain ⟨-, -, -, -, -, hp, hc⟩ := hkeep u
        exact ⟨⟨hrunnable.1, hc.trans hrunnable.2⟩, hp.trans hpity⟩
      · dsimp only
        rw [(hkeep 0).2.2.1]
        exact h.started

/-- Taking a thread off the list it is linked into keeps a queue that it is not in. -/
theorem queue_listDel {s : Sched} {t q : Nat} (ht : t ∉ (s.schda.sdaThdlst q).queue) :
    ((s.listDel t).schda.sdaThdlst q).queue = (s.schda.sdaThdlst q).queue := by
  have hlsth : t ∉ (s.schda.sdaThdlst q).tdlLsth := fun hm => ht (List.mem_append_left _ hm)
  show (s.schda.sdaThdlst q).tdlLsth.erase t ++ _ = _
  rw [List.erase_of_not_mem hlsth]
  rfl

theorem queue_setThdlst {s : Sched} {p q : Nat} (l : Thrdlst) (hq : q ≠ p) :
    ((s.setThdlst p l).schda.sdaThdlst q).queue = (s.schda.sdaThdlst q).queue :=
  congrArg Thrdlst.queue (setThdlst_of_ne s p l hq)

/-- **Another call** leaves the queues of the lower priorities as they are. -/
theorem schedStep_above (h : QueuesOk n st) {op : SchedOp} (hop : op ≠ .schedul)
    (habove : op.Above n st) (hstep : schedStep st op = .ok st') :
    QueuesOk n st' ∧
      ∀ q < n, (st'.s.schda.sdaThdlst q).queue = (st.s.schda.sdaThdlst q).queue := by
  -- a thread of priority `n` or above is in none of the queues
  have hout : ∀ t, n ≤ (st.s.thread t).tdPriority → ∀ q < n,
      t ∉ (st.s.schda.sdaThdlst q).queue := fun t ht q hq hm => by
    have := (h.own q hq t hm).2
    omega
  -- so its descriptor may change
  have hkeep : ∀ t, n ≤ (st.s.thread t).tdPriority →
      (∀ u, u ≠ t → st'.s.thread u = st.s.thread u) → st'.created = st.created →
      st'.s.schda.sdaSchdflgs = st.s.schda.sdaSchdflgs →
      (∀ q, q ≠ (st.s.thread t).tdPriority → t ∉ (st.s.schda.sdaThdlst q).queue →
        (st'.s.schda.sdaThdlst q).queue = (st.s.schda.sdaThdlst q).queue) →
      QueuesOk n st' ∧
        ∀ q < n, (st'.s.schda.sdaThdlst q).queue = (st.s.schda.sdaThdlst q).queue := by
    intro t ht hth hcreated hflgs hqueue
    have hqueue : ∀ q < n, (st'.s.schda.sdaThdlst q).queue = (st.s.schda.sdaThdlst q).queue :=
      fun q hq => hqueue q (by omega) (hout t ht q hq)
    refine ⟨⟨fun q hq u hu => ?_, hflgs ▸ h.started⟩, hqueue⟩
    rw [hqueue q hq] at hu
    have hne : u ≠ t := by
      rintro rfl
      exact hout u ht q hq hu
    unfold CanBeChosen
    rw [hth u hne, hcreated]
    exact h.own q hq u hu
  cases op with
  | schedul => exact absurd rfl hop
  | addThread t pity =>
      have hpity : n ≤ pity := habove pity rfl
      simp only [schedStep] at hstep
      split at hstep
      · cases hstep
      · rename_i hnew
        cases hstep
        have hself : (st.s.newThread t pity).thread t = ⟨.new, pity⟩ := Function.update_self _ _ _
        have hlist : ∀ q < n, (krlschdclassAddThread (st.s.newThread t pity) t).schda.sdaThdlst q
            = st.s.schda.sdaThdlst q := by
          intro q hq
          unfold krlschdclassAddThread
          rw [hself]
          exact setThdlst_of_ne _ _ _ (show q ≠ pity by omega)
        refine ⟨⟨fun q hq u hu => ?_, h.started⟩, fun q hq => congrArg Thrdlst.queue (hlist q hq)⟩
        dsimp only at hu
        rw [hlist q hq] at hu
        obtain ⟨⟨hcreated, hrun⟩, hown⟩ := h.own q hq u hu
        have hne : u ≠ t := by
          rintro rfl
          exact hnew (Or.inl hcreated)
        have hth : (krlschdclassAddThread (st.s.newThread t pity) t).thread u = st.s.thread u :=
          Function.update_of_ne hne _ _
        unfold CanBeChosen
        dsimp only
        rw [hth]
        exact ⟨⟨List.mem_cons_of_mem _ hcreated, hrun⟩, hown⟩
  | wait w =>
      simp only [schedStep] at hstep
      split at hstep
      · cases hstep
      · obtain ⟨s', hrun, rfl⟩ := exists_of_map_ok hstep
        unfold krlschedWait krlschedRetnCurrthread at hrun
        cases hcur : st.s.schda.sdaCurrtd with
        | none =>
            rw [hcur] at hrun
            cases hrun
        | some t =>
            have ht : n ≤ (st.s.thread t).tdPriority :=
              habove _ (by rw [SchedOp.pity, hcur]; rfl)
            rw [hcur] at hrun
            dsimp only at hrun
            split at hrun
            · cases hrun
            · split at hrun
              · cases hrun
              · cases hrun
                exact hkeep t ht (fun u hu => Function.update_of_ne hu _ _) rfl rfl
                  fun q hq hm => (queue_setThdlst _ hq).trans (queue_listDel hm)
  | up w =>
      obtain ⟨s', hrun, rfl⟩ := exists_of_map_ok hstep
      unfold krlschedUp krlwlstDelThread at hrun
      cases hw : (st.s.wlst w).wlList with
      | nil =>
          rw [hw] at hrun
          cases hrun
      | cons t l =>
          have ht : n ≤ (st.s.thread t).tdPriority := habove _ (by rw [SchedOp.pity, hw]; rfl)
          rw [hw] at hrun
          dsimp only at hrun
          split at hrun
          · cases hrun
          · rename_i hdel
            split at hdel
            · cases hdel
            · cases hdel
              split at hrun
              · cases hrun
              · cases hrun
                exact hkeep t ht (fun u hu => Function.update_of_ne hu _ _) rfl rfl
                  fun q hq _ => queue_setThdlst _ hq
  | exit =>
      obtain ⟨s', hrun, rfl⟩ := exists_of_map_ok hstep
      unfold krlschedExit krlschedRetnCurrthread at hrun
      cases hcur : st.s.schda.sdaCurrtd with
      | none =>
          rw [hcur] at hrun
          cases hrun
      | some t =>
          have ht : n ≤ (st.s.thread t).tdPriority :=
            habove _ (by rw [SchedOp.pity, hcur]; rfl)
          rw [hcur] at hrun
          dsimp only at hrun
          split at hrun
          · cases hrun
          · split at hrun
            · cases hrun
            · split at hrun
              · cases hrun
              · split at hrun
                · cases hrun
                · cases hrun
                  refine hkeep t ht (fun u hu => Function.update_of_ne hu _ _) rfl rfl
                    fun q hq hm => ?_
                  have hset := queue_setThdlst (s := st.s)
                    ((st.s.schda.sdaThdlst (st.s.thread t).tdPriority).leave t) hq
                  exact (queue_listDel (by rw [hset]; exact hm)).trans hset

end Calls

/-! ## Runs -/

section Runs

variable {st st' : SchedState} {p : Nat}

/-- The selections among the threads of one queue go round it. -/
theorem selections_goRound (hp : p < prityMax) : ∀ ops st st', QueuesOk (p + 1) st →
    run schedStep ops st = .ok st' →
    AllSteps schedStep (fun st op => op.Above (p + 1) st) ops st →
    ∀ t r, (st.s.schda.sdaThdlst p).queue = t :: r →
      (∃ m, ((selections ops st).filter fun u => u ∈ t :: r) = goRound (t :: r) m) ∧
      ((∀ q < p, (st.s.schda.sdaThdlst q).queue = []) → ∀ u ∈ selections ops st, u ∈ t :: r) := by
  intro ops
  induction ops with
  | nil =>
      intro st st' _ _ _ t r _
      exact ⟨⟨0, rfl⟩, fun _ u hu => absurd hu List.not_mem_nil⟩
  | cons op ops ih =>
      intro st st' h hrun hall t r hqueue
      obtain ⟨st₁, hstep, hrest⟩ := run_cons_inv hrun
      have htail := hall.2 st₁ hstep
      rw [selections, hstep]
      dsimp only
      by_cases hop : op = .schedul
      · subst hop
        obtain ⟨q, u, l, hq, hlow, hqq, hcur, hnew, hother, h₁⟩ :=
          schedul_select h hp ⟨p, Nat.lt_succ_self p, by rw [hqueue]; simp⟩ hstep
        rw [if_pos rfl, hcur, Option.toList_some, List.singleton_append]
        by_cases hqp : q = p
        · -- the first thread of the queue goes to its end
          subst hqp
          rw [hqueue] at hqq
          obtain ⟨rfl, rfl⟩ := List.cons.inj hqq
          obtain ⟨v, l', hvl⟩ := List.exists_cons_of_ne_nil
            (show r ++ [t] ≠ [] by simp)
          rw [hvl] at hnew
          obtain ⟨⟨m, hm⟩, hsame⟩ := ih st₁ st' h₁ hrest htail v l' hnew
          have hperm : ∀ w, w ∈ v :: l' ↔ w ∈ t :: r := fun w => by
            rw [← hvl]
            exact (List.perm_append_singleton t r).mem_iff
          refine ⟨⟨m + 1, ?_⟩, fun hlow w hw => ?_⟩
          · rw [List.filter_cons_of_pos (by simp)]
            show t :: _ = t :: goRound (r ++ [t]) m
            rw [hvl, ← hm]
            refine congrArg _ (List.filter_congr fun w _ => ?_)
            exact decide_eq_decide.mpr (hperm w).symm
          · rcases List.mem_cons.mp hw with rfl | hw
            · exact List.mem_cons_self
            · refine (hperm w).mp (hsame (fun j hj => ?_) w hw)
              rw [hother j (by omega)]
              exact hlow j hj
        · -- a thread of a lower priority
          have hu : u ∉ t :: r := by
            intro hu
            have h1 := (h.own q hq u (by rw [hqq]; exact List.mem_cons_self)).2
            have h2 := (h.own p (Nat.lt_succ_self p) u (by rw [hqueue]; exact hu)).2
            exact hqp (h1.symm.trans h2)
          have hkeep : (st₁.s.schda.sdaThdlst p).queue = t :: r := by
            rw [hother p (Ne.symm hqp)]
            exact hqueue
          rw [List.filter_cons_of_neg (by simpa using hu)]
          refine ⟨(ih st₁ st' h₁ hrest htail t r hkeep).1, fun hempty => ?_⟩
          rw [hempty q (by omega)] at hqq
          cases hqq
      · obtain ⟨h₁, hkeep⟩ := schedStep_above h hop hall.1 hstep
        rw [if_neg hop, List.nil_append]
        rw [← hkeep p (Nat.lt_succ_self p)] at hqueue
        obtain ⟨hround, hsame⟩ := ih st₁ st' h₁ hrest htail t r hqueue
        refine ⟨hround, fun hlow => hsame fun q hq => ?_⟩
        rw [hkeep q (by omega)]
        exact hlow q hq

/-- A thread that cannot run is on a wait list or has exited. -/
def Blocked (st : SchedState) : Prop :=
  ∀ t ∈ st.created, (st.s.thread t).tdStus.canRun = false →
    (∃ w, t ∈ (st.s.wlst w).wlList) ∨ t ∈ st.s.schda.sdaExitlist

/-- `krlschedul` moves no thread to or from a wait list. -/
theorem krlschedul_keeps {s s' : Sched} (hrun : krlschedul s = .ok s') (u : Nat) :
    s'.wlst = s.wlst ∧ s'.schda.sdaExitlist = s.schda.sdaExitlist ∧
      (s'.thread u).tdStus.canRun = (s.thread u).tdStus.canRun := by
  unfold krlschedul at hrun
  split at hrun
  · split at hrun
    · cases hrun
    · cases hrun
      exact ⟨rfl, rfl, rfl⟩
  · split at hrun
    · cases hrun
    · split at hrun
      · cases hrun
      · rename_i s₁ next hsel
        cases hrun
        have hsame : s₁.wlst = s.wlst ∧ s₁.schda.sdaExitlist = s.schda.sdaExitlist ∧
            s₁.thread = s.thread := by
          unfold krlschedSelectThread at hsel
          split at hsel
          · rename_i r hloop
            cases hsel
            obtain ⟨q, l', -, rfl⟩ := selectLoop_some hloop
            exact ⟨rfl, rfl, rfl⟩
          · split at hsel
            · cases hsel
            · cases hsel
              exact ⟨rfl, rfl, rfl⟩
        obtain ⟨-, -, -, hexit, hwlst, -, hcan⟩ := toNewContext_keeps s₁ next u
        obtain ⟨h1, h2, h3⟩ := hsame
        exact ⟨hwlst.trans h1, hexit.trans h2, by rw [hcan, h3]⟩

theorem schedStep_blocked (h : Blocked st) {op : SchedOp} (hstep : schedStep st op = .ok st') :
    Blocked st' := by
  intro u hu hblocked
  cases op with
  | schedul =>
      obtain ⟨s', hs', rfl⟩ := exists_of_map_ok hstep
      obtain ⟨hwlst, hexit, hcan⟩ := krlschedul_keeps hs' u
      dsimp only at hblocked ⊢
      rw [hwlst, hexit]
      exact h u hu (hcan ▸ hblocked)
  | addThread t pity =>
      simp only [schedStep] at hstep
      split at hstep
      · cases hstep
      · cases hstep
        have hth : (krlschdclassAddThread (st.s.newThread t pity) t).thread u
            = (st.s.newThread t pity).thread u := rfl
        dsimp only at hblocked
        rw [hth] at hblocked
        by_cases hut : u = t
        · subst hut
          have hself : (st.s.newThread u pity).thread u = ⟨.new, pity⟩ :=
            Function.update_self _ _ _
          rw [hself] at hblocked
          cases hblocked
        · have hold : (st.s.newThread t pity).thread u = st.s.thread u :=
            Function.update_of_ne hut _ _
          rw [hold] at hblocked
          exact h u ((List.mem_cons.mp hu).resolve_left hut) hblocked
  | wait w =>
      simp only [schedStep] at hstep
      split at hstep
      · cases hstep
      · obtain ⟨s', hs', rfl⟩ := exists_of_map_ok hstep
        unfold krlschedWait at hs'
        split at hs'
        · cases hs'
        · rename_i t _
          dsimp only at hs'
          split at hs'
          · cases hs'
          · split at hs'
            · cases hs'
            · cases hs'
              by_cases hut : u = t
              · subst hut
                refine Or.inl ⟨w, ?_⟩
                dsimp only
                rw [setWlst_self]
                exact List.mem_cons_self
              · have hth : (st.s.setStus t .wait).thread u = st.s.thread u :=
                  Function.update_of_ne hut _ _
                have hold := h u hu (by rw [← hth]; exact hblocked)
                refine hold.imp ?_ fun he => (List.mem_erase_of_ne hut).mpr he
                rintro ⟨v, hv⟩
                have hv : u ∈ (st.s.wlst v).wlList.erase t := (List.mem_erase_of_ne hut).mpr hv
                refine ⟨v, ?_⟩
                dsimp only
                by_cases hvw : v = w
                · subst hvw
                  rw [setWlst_self]
                  exact List.mem_cons_of_mem _ hv
                · rw [setWlst_of_ne _ _ _ hvw]
                  exact hv
  | up w =>
      obtain ⟨s', hs', rfl⟩ := exists_of_map_ok hstep
      unfold krlschedUp krlwlstDelThread at hs'
      cases hw : (st.s.wlst w).wlList with
      | nil =>
          rw [hw] at hs'
          cases hs'
      | cons t l =>
          rw [hw] at hs'
          dsimp only at hs'
          split at hs'
          · cases hs'
          · rename_i hdel
            split at hdel
            · cases hdel
            · cases hdel
              split at hs'
              · cases hs'
              · cases hs'
                by_cases hut : u = t
                · subst hut
                  have hth : (st.s.setStus u .run).thread u = { st.s.thread u with tdStus := .run } :=
                    Function.update_self _ _ _
                  have hno : ((st.s.setStus u .run).thread u).tdStus.canRun = false := hblocked
                  rw [hth] at hno
                  cases hno
                · have hth : (st.s.setStus t .run).thread u = st.s.thread u :=
                    Function.update_of_ne hut _ _
                  have hold := h u hu (by rw [← hth]; exact hblocked)
                  apply hold.imp_left
                  rintro ⟨v, hv⟩
                  refine ⟨v, ?_⟩
                  show u ∈ ((st.s.setWlst w _).wlst v).wlList
                  by_cases hvw : v = w
                  · subst hvw
                    rw [hw] at hv
                    rw [setWlst_self]
                    exact (List.mem_cons.mp hv).resolve_left hut
                  · rw [setWlst_of_ne _ _ _ hvw]
                    exact hv
  | exit =>
      obtain ⟨s', hs', rfl⟩ := exists_of_map_ok hstep
      unfold krlschedExit at hs'
      split at hs'
      · cases hs'
      · rename_i t _
        split at hs'
        · cases hs'
        · dsimp only at hs'
          split at hs'
          · cases hs'
          · split at hs'
            · cases hs'
            · split at hs'
              · cases hs'
              · cases hs'
                by_cases hut : u = t
                · subst hut
                  exact Or.inr List.mem_cons_self
                · have hth : (st.s.setStus t .exit).thread u = st.s.thread u :=
                    Function.update_of_ne hut _ _
                  have hold := h u hu (by rw [← hth]; exact hblocked)
                  refine hold.imp ?_ fun he =>
                    List.mem_cons_of_mem _ ((List.mem_erase_of_ne hut).mpr he)
                  rintro ⟨v, hv⟩
                  exact ⟨v, (List.mem_erase_of_ne hut).mpr hv⟩

/-- What the lists say of the threads that can run. -/
theorem SchedInv.runPlaced {idle : Nat} {plc : Nat → Option Place}
    (h : SchedInv st.s idle st.created plc) (hblocked : Blocked st) : RunPlaced st idle := by
  -- the place of a thread in a queue
  have hat : ∀ q, ∀ t ∈ (st.s.schda.sdaThdlst q).queue,
      plc t = some (.ready q) ∨ plc t = some (.running q) := by
    intro q t ht
    rcases List.mem_append.mp ht with ht | ht
    · exact Or.inl ((h.placed.mem (.ready q) t).mp ht)
    · exact Or.inr ((h.placed.mem (.running q) t).mp ht)
  refine ⟨fun n => ⟨fun q _ t ht => ?_, h.schdflgs⟩, fun t ht => ?_, fun q => ?_,
    fun t ht => h.tagged.pity t ht.1, h.cpuidle⟩
  · have hcreated : t ∈ st.created := by
      rw [h.made t]
      rcases hat q t ht with hp | hp
      · rw [hp]
        rfl
      · rw [hp]
        rfl
    refine ⟨⟨hcreated, ?_⟩, (h.tagged.own t q (hat q t ht)).symm⟩
    by_contra hno
    have hno : (st.s.thread t).tdStus.canRun = false := by simpa using hno
    have hout : ∀ k, plc t ≠ some k ∨ k = .ready q ∨ k = .running q := fun k => by
      rcases hat q t ht with hp | hp
      · by_cases hk : k = .ready q
        · exact Or.inr (Or.inl hk)
        · exact Or.inl fun he => hk (Option.some.inj (he.symm.trans hp))
      · by_cases hk : k = .running q
        · exact Or.inr (Or.inr hk)
        · exact Or.inl fun he => hk (Option.some.inj (he.symm.trans hp))
    rcases hblocked t hcreated hno with ⟨w, hw⟩ | he
    · have hpw := (h.placed.mem (.waiting w) t).mp hw
      rcases hout (.waiting w) with hne | hk | hk
      · exact hne hpw
      · cases hk
      · cases hk
    · have hpe := (h.placed.mem .exited t).mp he
      rcases hout .exited with hne | hk | hk
      · exact hne hpe
      · cases hk
      · cases hk
  · have hst : (st.s.thread t).tdStus ≠ .wait ∧ (st.s.thread t).tdStus ≠ .exit := by
      have hrun := ht.2
      constructor
      · intro he
        rw [he] at hrun
        cases hrun
      · intro he
        rw [he] at hrun
        cases hrun
    rcases h.at_own ht.1 hst with hp | hp
    · exact List.mem_append_left _ ((h.placed.mem (.ready _) t).mpr hp)
    · exact List.mem_append_right _ ((h.placed.mem (.running _) t).mpr hp)
  · refine List.nodup_append.mpr ⟨h.placed.nodup (.ready q), h.placed.nodup (.running q),
      fun t h1 u h2 he => ?_⟩
    subst he
    have hp := (h.placed.mem (.ready q) t).mp h1
    rw [(h.placed.mem (.running q) t).mp h2] at hp
    cases hp

/-- **What the lists say of the threads that can run**, in every state that calls of running
threads lead to. -/
theorem runPlaced_of_run (idle : Nat) (ops : List SchedOp)
    (hall : AllSteps schedStep CallerRuns ops (SchedState.init idle))
    (hrun : run schedStep ops (SchedState.init idle) = .ok st) : RunPlaced st idle := by
  obtain ⟨⟨plc, h⟩, hblocked⟩ := run_inv_of_allSteps
    (fun st => (∃ plc, SchedInv st.s idle st.created plc) ∧ Blocked st) CallerRuns
    (fun st op st' h hop hstep => ⟨schedStep_inv st op st' h.1 hop hstep,
      schedStep_blocked h.2 hstep⟩) ops _ st
    ⟨⟨_, schedInit_inv idle⟩, fun t ht => absurd ht List.not_mem_nil⟩ hall hrun
  exact h.runPlaced hblocked

/-- The queue of a priority holds its threads that can run. -/
theorem RunPlaced.mem_queue {idle : Nat} (h : RunPlaced st idle) (t : Nat) :
    t ∈ (st.s.schda.sdaThdlst p).queue ↔ CanBeChosen st t ∧ (st.s.thread t).tdPriority = p := by
  constructor
  · exact fun ht => (h.queues (p + 1)).own p (Nat.lt_succ_self p) t ht
  · rintro ⟨ht, rfl⟩
    exact h.all t ht

/-- The choice of `krlsched_select_thread`. -/
theorem RunPlaced.select {idle : Nat} (h : RunPlaced st idle) :
    ∃ s' t, krlschedSelectThread st.s = .ok (s', t) ∧
      ((∃ u, CanBeChosen st u) → CanBeChosen st t ∧
        ∀ u, CanBeChosen st u → (st.s.thread t).tdPriority ≤ (st.s.thread u).tdPriority) ∧
      ((¬ ∃ u, CanBeChosen st u) → t = idle) := by
  unfold krlschedSelectThread
  rcases selectLoop_spec prityMax prityMax 0 (by omega) fun q _ hq t ht =>
      ((h.queues prityMax).own q hq t ht).1.2 with
    hnil | ⟨q, t, r, l', -, hq, hlow, hqueue, hsel, -⟩
  · have hnone : ¬ ∃ u, CanBeChosen st u := by
      rintro ⟨u, hu⟩
      have hmem := h.all u hu
      rw [hnil _ (Nat.zero_le _) (h.pity u hu)] at hmem
      exact absurd hmem List.not_mem_nil
    have hid : krlschedRetnIdlethread st.s = .ok idle := by
      unfold krlschedRetnIdlethread
      rw [h.cpuidle]
    rw [selectLoop_none prityMax 0 fun q h1 h2 => hnil q h1 (by omega), hid]
    exact ⟨_, idle, rfl, fun hu => absurd hu hnone, fun _ => rfl⟩
  · rw [hsel]
    obtain ⟨ht, hpity⟩ := h.mem_queue t |>.mp (by rw [hqueue]; exact List.mem_cons_self)
    refine ⟨_, t, rfl, fun _ => ⟨ht, fun u hu => ?_⟩, fun hno => absurd ⟨t, ht⟩ hno⟩
    rw [hpity]
    by_contra hlt
    have hmem := h.all u hu
    rw [hlow _ (Nat.zero_le _) (by omega)] at hmem
    exact absurd hmem List.not_mem_nil

/-- **Choice and rotation.**  The choice is a thread of the lowest priority that has any, and the
idle thread if there is none.  The selections that return a thread of priority `p` go round its
`n` threads, `n` of them in a row being the queue begun somewhere; when no lower priority has a
thread that can run, these are all selections. -/
theorem select_rotates {idle : Nat} (h : RunPlaced st idle) :
    (∃ s' t, krlschedSelectThread st.s = .ok (s', t) ∧
      ((∃ u, CanBeChosen st u) → CanBeChosen st t ∧
        ∀ u, CanBeChosen st u → (st.s.thread t).tdPriority ≤ (st.s.thread u).tdPriority) ∧
      ((¬ ∃ u, CanBeChosen st u) → t = idle)) ∧
    ∀ p, ∃ q : List Nat, q.Nodup ∧
      (∀ t, t ∈ q ↔ CanBeChosen st t ∧ (st.s.thread t).tdPriority = p) ∧
      (q ≠ [] → ∀ ops st', run schedStep ops st = .ok st' →
        AllSteps schedStep (fun st op => op.Above (p + 1) st) ops st →
        (∀ k, k + q.length ≤ ((selections ops st).filter fun u => u ∈ q).length →
          (((selections ops st).filter fun u => u ∈ q).drop k).take q.length = q.rotate k) ∧
        ((∀ u, CanBeChosen st u → p ≤ (st.s.thread u).tdPriority) →
          (selections ops st).filter (fun u => u ∈ q) = selections ops st)) := by
  refine ⟨h.select, fun p => ⟨(st.s.schda.sdaThdlst p).queue, h.once p, h.mem_queue,
    fun hne ops st' hrun hall => ?_⟩⟩
  obtain ⟨t, r, hqueue⟩ := List.exists_cons_of_ne_nil hne
  have ht := (h.mem_queue t).mp (by rw [hqueue]; exact List.mem_cons_self)
  obtain ⟨⟨m, hround⟩, hsame⟩ := selections_goRound (ht.2 ▸ h.pity t ht.1) ops st st'
    (h.queues (p + 1)) hrun hall t r hqueue
  rw [hqueue]
  refine ⟨fun k hk => ?_, fun hlow => ?_⟩
  · rw [hround] at hk ⊢
    exact goRound_window hk
  · refine List.filter_eq_self.mpr fun u hu => decide_eq_true (hsame (fun q hq => ?_) u hu)
    apply List.eq_nil_iff_forall_not_mem.mpr
    intro v hv
    obtain ⟨hv, hpity⟩ := (h.mem_queue v).mp hv
    have := hlow v hv
    omega

end Runs

instance (st : SchedState) (t : Nat) : Decidable (CanBeChosen st t) :=
  inferInstanceAs (Decidable (_ ∧ _))

/-- The state after threads were added, and the selections that follow. -/
theorem exists_added (adds ops : List SchedOp) (q : SchedState → Bool)
    (hall : checkSteps schedStep (fun st op => CallerRuns st op) adds (SchedState.init 0) = true)
    (h : okAnd (run schedStep adds (SchedState.init 0)) (fun st =>
      q st && okAnd (run schedStep ops st) fun _ => true) = true) :
    ∃ st st', RunPlaced st 0 ∧ q st = true ∧ run schedStep ops st = .ok st' := by
  obtain ⟨st, hrun, hq⟩ := exists_of_okAnd h
  obtain ⟨hq, hops⟩ := Bool.and_eq_true_iff.mp hq
  obtain ⟨st', hops, -⟩ := exists_of_okAnd hops
  refine ⟨st, st', runPlaced_of_run 0 adds ?_ hrun, hq, hops⟩
  exact allSteps_of_check (p := fun st op => CallerRuns st op)
    (fun _ _ hop => of_decide_eq_true hop) _ _ hall

/-- Three threads of a priority and one of a higher index. -/
def threeAndOne : List SchedOp :=
  [.addThread 1 3, .addThread 4 5, .addThread 2 3, .addThread 3 3]

/-- Seven turns in a row. -/
def sevenTurns : List SchedOp := List.replicate 7 .schedul

theorem select_rotates_threeThreads : ∃ (st : SchedState) (q : List Nat) (t : Nat),
    q.Perm [1, 2, 3] ∧ t ∈ q ∧ (∃ s', krlschedSelectThread st.s = .ok (s', t)) ∧
    (selections sevenTurns st).length = 7 ∧
    ∀ k ≤ 4, ((selections sevenTurns st).drop k).take 3 = q.rotate k := by
  obtain ⟨st, st', h, hq, hops⟩ := exists_added threeAndOne sevenTurns
    (fun st => st.created = [3, 2, 4, 1] && (selections sevenTurns st).length = 7 &&
      st.created.all fun u => CanBeChosen st u &&
        (st.s.thread u).tdPriority = if u = 4 then 5 else 3)
    (by decide +kernel) (by decide +kernel)
  simp only [Bool.and_eq_true, List.all_eq_true, decide_eq_true_eq] at hq
  obtain ⟨⟨hcreated, hlen⟩, hpity⟩ := hq
  obtain ⟨⟨s', t, hsel, hchoice, -⟩, hturns⟩ := select_rotates h
  obtain ⟨q, hnodup, hmem, hround⟩ := hturns 3
  have hthread : ∀ u, CanBeChosen st u → u = 3 ∨ u = 2 ∨ u = 4 ∨ u = 1 := by
    intro u hu
    have hin := hu.1
    rw [hcreated] at hin
    simpa using hin
  have hlow : ∀ u, CanBeChosen st u → 3 ≤ (st.s.thread u).tdPriority := by
    intro u hu
    rw [(hpity u hu.1).2]
    split <;> omega
  have hthree : ∀ u, u ∈ q ↔ u ∈ [1, 2, 3] := by
    intro u
    rw [hmem]
    constructor
    · rintro ⟨hu, hthree⟩
      rw [(hpity u hu.1).2] at hthree
      rcases hthread u hu with rfl | rfl | rfl | rfl <;> simp at hthree ⊢
    · intro hu
      have hin : u ∈ st.created := by
        rw [hcreated]
        simp only [List.mem_cons, List.not_mem_nil, or_false] at hu ⊢
        omega
      refine ⟨(hpity u hin).1, (hpity u hin).2.trans (if_neg ?_)⟩
      rintro rfl
      simp at hu
  have hperm : q.Perm [1, 2, 3] := (List.perm_ext_iff_of_nodup hnodup (by decide)).mpr hthree
  -- the chosen thread has the lowest priority, which is that of the three
  obtain ⟨ht, hleast⟩ := hchoice ⟨1, (hpity 1 (by rw [hcreated]; decide)).1⟩
  have htq : t ∈ q := by
    have hone := hpity 1 (by rw [hcreated]; decide)
    have hle := hleast 1 hone.1
    rw [hone.2] at hle
    exact (hmem t).mpr ⟨ht, Nat.le_antisymm hle (hlow t ht)⟩
  have hturn : ∀ op ∈ sevenTurns, op = .schedul := by decide
  have hall : AllSteps schedStep (fun st op => op.Above (3 + 1) st) sevenTurns st := by
    apply (allSteps_of_forall sevenTurns st hturn).imp
    intro _ op hop u hu
    rw [hop] at hu
    cases hu
  obtain ⟨hwindow, hsame⟩ := hround (List.ne_nil_of_mem htq) sevenTurns st' hops hall
  rw [hsame hlow, hperm.length_eq] at hwindow
  refine ⟨st, q, t, hperm, htq, ⟨s', hsel⟩, hlen, fun k hk => hwindow k ?_⟩
  rw [hlen]
  show k + 3 ≤ 7
  omega

/-- A thread of priority 0 keeps a thread of priority 1 from its turn. -/
theorem select_not_rotates : ¬ ∀ (st : SchedState) (idle p : Nat) (q : List Nat)
    (ops : List SchedOp) (st' : SchedState), RunPlaced st idle → q.Nodup → q ≠ [] →
      (∀ t, t ∈ q ↔ CanBeChosen st t ∧ (st.s.thread t).tdPriority = p) →
      run schedStep ops st = .ok st' →
      AllSteps schedStep (fun st op => op.Above (p + 1) st) ops st →
      ∀ k, k + q.length ≤ (selections ops st).length →
        (((selections ops st).drop k).take q.length).Perm q := by
  intro hall
  obtain ⟨st, st', h, hq, hops⟩ := exists_added [.addThread 1 0, .addThread 2 1] [.schedul]
    (fun st => CanBeChosen st 2 && (st.s.thread 2).tdPriority = 1 &&
      (st.s.thread 1).tdPriority = 0 && st.created = [2, 1] && selections [.schedul] st = [1])
    (by decide +kernel) (by decide +kernel)
  simp only [Bool.and_eq_true, decide_eq_true_eq] at hq
  obtain ⟨⟨⟨⟨hrun, h2⟩, h1⟩, hcreated⟩, hsel⟩ := hq
  have hmem : ∀ t, t ∈ [2] ↔ CanBeChosen st t ∧ (st.s.thread t).tdPriority = 1 := by
    intro t
    rw [List.mem_singleton]
    constructor
    · rintro rfl
      exact ⟨hrun, h2⟩
    · rintro ⟨⟨hin, -⟩, hpity⟩
      rw [hcreated] at hin
      rcases List.mem_cons.mp hin with rfl | hin
      · rfl
      · obtain rfl := List.mem_singleton.mp hin
        rw [h1] at hpity
        cases hpity
  have hperm := hall st 0 1 [2] [.schedul] st' h (List.nodup_singleton 2) (by simp) hmem hops
    ⟨fun q hq => (by cases hq), fun _ _ => trivial⟩ 0 (by rw [hsel]; decide)
  rw [hsel] at hperm
  exact absurd hperm (by decide)

end Cosmos.Kernel
