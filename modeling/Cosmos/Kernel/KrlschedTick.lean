import Cosmos.Lib.Word64
import Cosmos.Kernel.KrlschedRotate

/-!
# Time slices

The timer interrupt counts the ticks of the current thread in `td_tick`.  After more than
`TDRUN_TICK` of them it asks for another thread with `sda_schdflgs`, and
`krlsched_chkneed_pmptsched`, which every hardware interrupt ends with, goes to `krlschedul`.
Handlers, checks and the calls of threads come in any order; a check and the switch it makes
are one step.

## Main results

* `TickInv.slices` : how many ticks go by between two selections.
* `turn_within_slices` : how long a thread on a ready list waits for its turn.
-/

namespace Cosmos.Kernel

open Cosmos.Lib.Placement Cosmos.Lib.Round Cosmos.Lib.Run Cosmos.Lib.Word64

/-- `TDRUN_TICK`. -/
abbrev tdrunTick : Nat := 20

/-- `PMPT_FLGS`. -/
abbrev pmptFlgs : Nat := 0

/-- The scheduler with `td_tick` and `td_sumtick` of the threads. -/
structure TickState where
  st : SchedState
  tdTick : Nat → Nat
  tdSumtick : Nat → Nat
  sdaPremptidx : Nat
  /-- the threads that `krlschedul` has gone on with -/
  chosen : List Nat

/-- `krlsched_set_schedflgs_ex`. -/
def krlschedSetSchedflgsEx (st : SchedState) (flags : Nat) : SchedState :=
  { st with s := { st.s with schda := { st.s.schda with sdaSchdflgs := flags } } }

/-- `krlsched_set_schedflgs`. -/
def krlschedSetSchedflgs (st : SchedState) : SchedState :=
  krlschedSetSchedflgsEx st needSchedFlgs

/-- `krlthd_inc_tick`. -/
def krlthdIncTick (m : TickState) (thdp : Nat) : TickState :=
  let tick := add64 (m.tdTick thdp) 1
  let m := { m with
    tdSumtick := Function.update m.tdSumtick thdp (add64 (m.tdSumtick thdp) 1) }
  if tdrunTick < tick then
    { m with tdTick := Function.update m.tdTick thdp 0, st := krlschedSetSchedflgs m.st }
  else { m with tdTick := Function.update m.tdTick thdp tick }

/-- `systick_handle`, without the clock. -/
def systickHandle (m : TickState) : Except String TickState :=
  match krlschedRetnCurrthread m.st.s with
  | .error e => .error e
  | .ok tdp => .ok (krlthdIncTick m tdp)

/-- A call of the scheduler.  `thread_t_init` clears the counters of a new thread. -/
def TickState.call (m : TickState) (op : SchedOp) : Except String TickState :=
  match schedStep m.st op with
  | .error e => .error e
  | .ok st =>
      match op with
      | .addThread t _ => .ok { m with
          st := st
          tdTick := Function.update m.tdTick t 0
          tdSumtick := Function.update m.tdSumtick t 0 }
      | .schedul => .ok { m with
          st := st
          chosen := m.chosen ++ st.s.schda.sdaCurrtd.toList }
      | _ => .ok { m with st := st }

/-- `krlsched_chkneed_pmptsched`. -/
def krlschedChkneedPmptsched (m : TickState) : Except String TickState :=
  if m.st.s.schda.sdaSchdflgs = needSchedFlgs ∧ m.sdaPremptidx = pmptFlgs then
    { m with st := krlschedSetSchedflgsEx m.st notsSchedFlgs }.call .schedul
  else if m.st.s.schda.sdaSchdflgs = needStartCpuildeSchedFlgs then m.call .schedul
  else .ok m

/-- What happens next. -/
inductive TickOp where
  /-- a call of the scheduler by a thread or a handler -/
  | call (op : SchedOp)
  /-- the last step of `krlsem_up` -/
  | setSchedflgs
  /-- the handler of the timer interrupt -/
  | tick
  /-- the last step of an interrupt -/
  | chkneed
deriving DecidableEq, Repr

/-- One step. -/
def tickStep (m : TickState) : TickOp → Except String TickState
  | .call op => m.call op
  | .setSchedflgs => .ok { m with st := krlschedSetSchedflgs m.st }
  | .tick => systickHandle m
  | .chkneed => krlschedChkneedPmptsched m

/-- The start. -/
def TickState.init (idle : Nat) : TickState where
  st := SchedState.init idle
  tdTick := fun _ => 0
  tdSumtick := fun _ => 0
  sdaPremptidx := 0
  chosen := []

/-- A condition on the calls of the scheduler. -/
def TickOp.Cond (P : SchedState → SchedOp → Prop) (m : TickState) : TickOp → Prop
  | .call op => P m.st op
  | _ => True

/-- Each handler of the timer interrupt gets to its check before the next one runs; `pending`
says that a check is still to come. -/
def TicksChecked : Bool → List TickOp → Prop
  | _, [] => True
  | pending, .tick :: ops => pending = false ∧ TicksChecked true ops
  | _, .chkneed :: ops => TicksChecked false ops
  | pending, _ :: ops => TicksChecked pending ops

/-! ## The invariant -/

section Inv

variable {idle : Nat} {m m' : TickState}

/-- **The invariant.** -/
structure TickInv (idle : Nat) (m : TickState) : Prop where
  sched : ∃ plc, SchedInv m.st.s idle m.st.created plc
  blocked : Blocked m.st
  slice : ∀ t, m.tdTick t ≤ tdrunTick
  premptidx : m.sdaPremptidx = pmptFlgs

theorem TickInv.init (idle : Nat) : TickInv idle (TickState.init idle) where
  sched := ⟨_, schedInit_inv idle⟩
  blocked := fun _ ht => absurd ht List.not_mem_nil
  slice := fun _ => Nat.zero_le _
  premptidx := rfl

theorem TickInv.runPlaced (h : TickInv idle m) : RunPlaced m.st idle := by
  obtain ⟨plc, hs⟩ := h.sched
  exact hs.runPlaced h.blocked

theorem TickInv.currtd (h : TickInv idle m) :
    ∃ c, m.st.s.schda.sdaCurrtd = some c ∧ (c = idle ∨ c ∈ m.st.created) := by
  obtain ⟨plc, hs⟩ := h.sched
  exact hs.currtd

/-- `sda_schdflgs` is no part of where the threads are. -/
theorem SchedInv.setSchedflgs {st : SchedState} {plc : Nat → Option Place} {flags : Nat}
    (h : SchedInv st.s idle st.created plc) (hf : flags ≠ needStartCpuildeSchedFlgs) :
    SchedInv (krlschedSetSchedflgsEx st flags).s idle st.created plc :=
  { h with placed := ⟨h.placed.nodup, h.placed.mem⟩, schdflgs := hf }

theorem TickInv.setSchedflgs {flags : Nat} (h : TickInv idle m)
    (hf : flags ≠ needStartCpuildeSchedFlgs) :
    TickInv idle { m with st := krlschedSetSchedflgsEx m.st flags } := by
  obtain ⟨plc, hs⟩ := h.sched
  exact ⟨⟨plc, hs.setSchedflgs hf⟩, h.blocked, h.slice, h.premptidx⟩

/-- What a call does beside the scheduler's own. -/
theorem call_inv {op : SchedOp} (hcall : m.call op = .ok m') :
    schedStep m.st op = .ok m'.st ∧ m'.sdaPremptidx = m.sdaPremptidx ∧
      (∀ t, m'.tdTick t = 0 ∨ m'.tdTick t = m.tdTick t) ∧
      (∀ t, (∀ pity, op ≠ .addThread t pity) → m'.tdTick t = m.tdTick t) ∧
      m'.chosen = m.chosen ++ (if op = .schedul then m'.st.s.schda.sdaCurrtd.toList else []) := by
  unfold TickState.call at hcall
  cases hstep : schedStep m.st op with
  | error e => simp [hstep] at hcall
  | ok st =>
      rw [hstep] at hcall
      cases op with
      | addThread t pity =>
          cases hcall
          refine ⟨rfl, rfl, fun u => ?_, fun u hu => ?_, by simp⟩
          · by_cases hut : u = t
            · exact Or.inl (by simp [hut])
            · exact Or.inr (Function.update_of_ne hut _ _)
          · have hut : u ≠ t := fun he => hu pity (by rw [he])
            exact Function.update_of_ne hut _ _
      | schedul =>
          cases hcall
          exact ⟨rfl, rfl, fun _ => Or.inr rfl, fun _ _ => rfl, by simp⟩
      | wait w =>
          cases hcall
          exact ⟨rfl, rfl, fun _ => Or.inr rfl, fun _ _ => rfl, by simp⟩
      | up w =>
          cases hcall
          exact ⟨rfl, rfl, fun _ => Or.inr rfl, fun _ _ => rfl, by simp⟩
      | exit =>
          cases hcall
          exact ⟨rfl, rfl, fun _ => Or.inr rfl, fun _ _ => rfl, by simp⟩

theorem TickInv.call (h : TickInv idle m) {op : SchedOp} (hop : CallerRuns m.st op)
    (hcall : m.call op = .ok m') : TickInv idle m' := by
  obtain ⟨hstep, hidx, htick, -, -⟩ := call_inv hcall
  refine ⟨schedStep_inv _ _ _ h.sched hop hstep, schedStep_blocked h.blocked hstep, fun t => ?_,
    hidx.trans h.premptidx⟩
  rcases htick t with hz | hk
  · simp [hz]
  · rw [hk]
    exact h.slice t

/-- One more tick. -/
theorem TickInv.add64_tick (h : TickInv idle m) (t : Nat) :
    add64 (m.tdTick t) 1 = m.tdTick t + 1 := by
  have := h.slice t
  unfold tdrunTick at this
  unfold add64 wordMod
  omega

/-- The handler of the timer interrupt: the slice of the current thread goes on, or is over. -/
theorem TickInv.tick (h : TickInv idle m) (hstep : systickHandle m = .ok m') :
    ∃ c, m.st.s.schda.sdaCurrtd = some c ∧ m'.chosen = m.chosen ∧
      ((m.tdTick c + 1 ≤ tdrunTick ∧ m'.st = m.st ∧ m'.tdTick c = m.tdTick c + 1) ∨
        (m.tdTick c = tdrunTick ∧ m'.st = krlschedSetSchedflgs m.st ∧ m'.tdTick c = 0)) ∧
      TickInv idle m' := by
  obtain ⟨c, hcur, -⟩ := h.currtd
  refine ⟨c, hcur, ?_⟩
  unfold systickHandle krlschedRetnCurrthread at hstep
  rw [hcur] at hstep
  simp only [Except.ok.injEq] at hstep
  subst hstep
  have hle := h.slice c
  have hadd := h.add64_tick c
  have hother : ∀ (n : Nat), n ≤ tdrunTick → ∀ t, Function.update m.tdTick c n t ≤ tdrunTick := by
    intro n hn t
    by_cases ht : t = c
    · simpa [ht] using hn
    · rw [Function.update_of_ne ht]
      exact h.slice t
  unfold krlthdIncTick
  rw [hadd]
  by_cases hover : tdrunTick < m.tdTick c + 1
  · simp only [hover, if_true]
    have hset := h.setSchedflgs (show needSchedFlgs ≠ needStartCpuildeSchedFlgs by decide)
    exact ⟨trivial, Or.inr ⟨by omega, trivial, by simp⟩, hset.sched, hset.blocked,
      hother 0 (Nat.zero_le _), h.premptidx⟩
  · simp only [hover, if_false]
    exact ⟨trivial, Or.inl ⟨by omega, trivial, by simp⟩, h.sched, h.blocked, hother _ (by omega),
      h.premptidx⟩

/-- The check of an interrupt: `krlschedul` if it was asked for, nothing otherwise. -/
theorem TickInv.chkneed (h : TickInv idle m) (hstep : krlschedChkneedPmptsched m = .ok m') :
    (m.st.s.schda.sdaSchdflgs = needSchedFlgs ∧
      { m with st := krlschedSetSchedflgsEx m.st notsSchedFlgs }.call .schedul = .ok m') ∨
    (m.st.s.schda.sdaSchdflgs ≠ needSchedFlgs ∧ m' = m) := by
  obtain ⟨plc, hs⟩ := h.sched
  unfold krlschedChkneedPmptsched at hstep
  by_cases hneed : m.st.s.schda.sdaSchdflgs = needSchedFlgs
  · rw [if_pos ⟨hneed, h.premptidx⟩] at hstep
    exact Or.inl ⟨hneed, hstep⟩
  · rw [if_neg fun hc => hneed hc.1, if_neg hs.schdflgs] at hstep
    cases hstep
    exact Or.inr ⟨hneed, rfl⟩

theorem TickInv.clear (h : TickInv idle m) :
    TickInv idle { m with st := krlschedSetSchedflgsEx m.st notsSchedFlgs } :=
  h.setSchedflgs (by decide)

/-- **Each step keeps the invariant.** -/
theorem tickStep_inv (m : TickState) (op : TickOp) (m' : TickState) (h : TickInv idle m)
    (hop : op.Cond CallerRuns m) (hstep : tickStep m op = .ok m') : TickInv idle m' := by
  cases op with
  | call op => exact h.call hop hstep
  | setSchedflgs =>
      cases hstep
      exact h.setSchedflgs (by decide)
  | tick =>
      obtain ⟨c, -, -, -, h'⟩ := h.tick hstep
      exact h'
  | chkneed =>
      rcases h.chkneed hstep with ⟨-, hcall⟩ | ⟨-, rfl⟩
      · exact h.clear.call (fun hl => by cases hl) hcall
      · exact h

theorem tickRun_inv {ops : List TickOp}
    (hall : AllSteps tickStep (fun m op => op.Cond CallerRuns m) ops (TickState.init idle))
    (hrun : run tickStep ops (TickState.init idle) = .ok m) : TickInv idle m :=
  run_inv_of_allSteps (TickInv idle) _ tickStep_inv ops _ m (TickInv.init idle) hall hrun

end Inv

/-! ## Ticks and selections -/

section Slices

variable {idle : Nat} {m m' : TickState}

/-- How many handlers can run before a thread is selected: what is left of the slice of the
current thread, and none when the check to come goes to `krlschedul`. -/
def ticksLeft (pending : Bool) (m : TickState) : Nat :=
  if pending = true ∧ m.st.s.schda.sdaSchdflgs = needSchedFlgs then 0
  else match m.st.s.schda.sdaCurrtd with
    | none => 0
    | some c => tdrunTick + 1 - m.tdTick c

theorem ticksLeft_le (pending : Bool) (m : TickState) : ticksLeft pending m ≤ tdrunTick + 1 := by
  unfold ticksLeft
  split
  · exact Nat.zero_le _
  · split
    · exact Nat.zero_le _
    · exact Nat.sub_le _ _

/-- A call that is no selection keeps the current thread and `sda_schdflgs`. -/
theorem schedStep_keeps {st st' : SchedState} {op : SchedOp} (hop : op ≠ .schedul)
    (hstep : schedStep st op = .ok st') :
    st'.s.schda.sdaCurrtd = st.s.schda.sdaCurrtd ∧
      st'.s.schda.sdaSchdflgs = st.s.schda.sdaSchdflgs := by
  cases op with
  | schedul => exact absurd rfl hop
  | addThread t pity =>
      simp only [schedStep] at hstep
      split at hstep
      · cases hstep
      · cases hstep
        exact ⟨rfl, rfl⟩
  | wait w =>
      simp only [schedStep] at hstep
      split at hstep
      · cases hstep
      · obtain ⟨s', hs', rfl⟩ := exists_of_map_ok hstep
        unfold krlschedWait at hs'
        split at hs'
        · cases hs'
        · dsimp only at hs'
          split at hs'
          · cases hs'
          · split at hs'
            · cases hs'
            · cases hs'
              exact ⟨rfl, rfl⟩
  | up w =>
      obtain ⟨s', hs', rfl⟩ := exists_of_map_ok hstep
      unfold krlschedUp at hs'
      split at hs'
      · cases hs'
      · dsimp only at hs'
        split at hs'
        · cases hs'
        · cases hs'
          exact ⟨rfl, rfl⟩
  | exit =>
      obtain ⟨s', hs', rfl⟩ := exists_of_map_ok hstep
      unfold krlschedExit at hs'
      split at hs'
      · cases hs'
      · split at hs'
        · cases hs'
        · dsimp only at hs'
          split at hs'
          · cases hs'
          · split at hs'
            · cases hs'
            · split at hs'
              · cases hs'
              · cases hs'
                exact ⟨rfl, rfl⟩

/-- A selection is the thread that `krlschedul` goes on with. -/
theorem TickInv.call_schedul (h : TickInv idle m) (hcall : m.call .schedul = .ok m') :
    ∃ t, m'.st.s.schda.sdaCurrtd = some t ∧ m'.chosen = m.chosen ++ [t] := by
  obtain ⟨t, ht, -⟩ := (h.call (fun hl => by cases hl) hcall).currtd
  obtain ⟨-, -, -, -, hchosen⟩ := call_inv hcall
  rw [if_pos rfl, ht] at hchosen
  exact ⟨t, ht, hchosen⟩

/-- Another call keeps what is left of the slice. -/
theorem TickInv.ticksLeft_call (h : TickInv idle m) {op : SchedOp} (hop : op ≠ .schedul)
    (hcall : m.call op = .ok m') (pending : Bool) :
    ticksLeft pending m' = ticksLeft pending m ∧ m'.chosen = m.chosen := by
  obtain ⟨hstep, -, -, htick, hchosen⟩ := call_inv hcall
  obtain ⟨hcur, hflgs⟩ := schedStep_keeps hop hstep
  obtain ⟨c, hc, hin⟩ := h.currtd
  obtain ⟨plc, hs⟩ := h.sched
  -- the current thread is not the one that was just made
  have hkeep : m'.tdTick c = m.tdTick c := by
    refine htick c fun pity he => ?_
    subst he
    simp only [schedStep] at hstep
    split at hstep
    · cases hstep
    · rename_i hnew
      rcases hin with rfl | hin
      · exact hnew (Or.inr (Or.inl hs.cpuidle))
      · exact hnew (Or.inl hin)
  constructor
  · unfold ticksLeft
    rw [hcur, hflgs, hc]
    simp only [hkeep]
  · simpa [hop] using hchosen

theorem ticksLeft_of_not {pending : Bool} {c : Nat} (hc : m.st.s.schda.sdaCurrtd = some c)
    (hno : ¬ (pending = true ∧ m.st.s.schda.sdaSchdflgs = needSchedFlgs)) :
    ticksLeft pending m = tdrunTick + 1 - m.tdTick c := by
  unfold ticksLeft
  rw [if_neg hno, hc]

/-- What one step does to the ticks that are left. -/
theorem TickInv.slice_step (h : TickInv idle m) {op : TickOp} {pending : Bool} {ops : List TickOp}
    (hchk : TicksChecked pending (op :: ops)) (hstep : tickStep m op = .ok m') :
    ∃ one pending', m'.chosen = m.chosen ++ one ∧ TicksChecked pending' ops ∧
      [op].count .tick + ticksLeft pending' m' ≤
        (tdrunTick + 1) * one.length + ticksLeft pending m := by
  obtain ⟨c, hc, -⟩ := h.currtd
  cases op with
  | call op =>
      by_cases hop : op = .schedul
      · subst hop
        obtain ⟨t, -, hchosen⟩ := h.call_schedul hstep
        refine ⟨[t], pending, hchosen, hchk, ?_⟩
        have := ticksLeft_le pending m'
        simp
        omega
      · obtain ⟨hleft, hchosen⟩ := h.ticksLeft_call hop hstep pending
        exact ⟨[], pending, by simpa using hchosen, hchk, by simp [hleft]⟩
  | setSchedflgs =>
      cases hstep
      refine ⟨[], pending, by simp, hchk, ?_⟩
      cases pending with
      | true => simp [ticksLeft, krlschedSetSchedflgs, krlschedSetSchedflgsEx]
      | false => simp [ticksLeft, krlschedSetSchedflgs, krlschedSetSchedflgsEx]
  | tick =>
      obtain ⟨hpend, hchk⟩ := hchk
      subst hpend
      obtain ⟨c', hc', hchosen, hcase, -⟩ := h.tick hstep
      obtain rfl : c' = c := by simpa [hc] using hc'.symm
      refine ⟨[], true, by simpa using hchosen, hchk, ?_⟩
      rw [ticksLeft_of_not hc (by simp)]
      rcases hcase with ⟨hle, hst, htick⟩ | ⟨hlast, hst, -⟩
      · by_cases hneed : m.st.s.schda.sdaSchdflgs = needSchedFlgs
        · simp [ticksLeft, hst, hneed]
          omega
        · rw [ticksLeft_of_not (by rw [hst]; exact hc) (by rw [hst]; simp [hneed]), htick]
          simp
          omega
      · simp [ticksLeft, hst, krlschedSetSchedflgs, krlschedSetSchedflgsEx, hlast]
  | chkneed =>
      rcases h.chkneed hstep with ⟨-, hcall⟩ | ⟨hneed, rfl⟩
      · obtain ⟨t, -, hchosen⟩ := h.clear.call_schedul hcall
        refine ⟨[t], false, hchosen, hchk, ?_⟩
        have := ticksLeft_le false m'
        simp
        omega
      · refine ⟨[], false, by simp, hchk, ?_⟩
        rw [ticksLeft_of_not hc (by simp), ticksLeft_of_not hc (by simp [hneed])]
        simp

/-- **Ticks between selections.** -/
theorem TickInv.slices (h : TickInv idle m) : ∀ (ops : List TickOp) (pending : Bool),
    AllSteps tickStep (fun m op => op.Cond CallerRuns m) ops m → TicksChecked pending ops →
    run tickStep ops m = .ok m' → ∃ new, m'.chosen = m.chosen ++ new ∧
      ops.count .tick ≤ (tdrunTick + 1) * new.length + ticksLeft pending m := by
  intro ops
  induction ops generalizing m with
  | nil =>
      intro pending _ _ hrun
      cases hrun
      exact ⟨[], by simp, by simp⟩
  | cons op ops ih =>
      intro pending hall hchk hrun
      obtain ⟨m₁, hstep, hrest⟩ := run_cons_inv hrun
      obtain ⟨one, pending', hone, hchk', hle⟩ := h.slice_step hchk hstep
      obtain ⟨new, hnew, hcount⟩ := ih (tickStep_inv m op m₁ h hall.1 hstep) pending'
        (hall.2 m₁ hstep) hchk' hrest
      refine ⟨one ++ new, by rw [hnew, hone, List.append_assoc], ?_⟩
      rw [← List.singleton_append, List.count_append, List.length_append, Nat.mul_add]
      omega

end Slices

/-! ## Waiting for a turn -/

section Turn

variable {idle p t i : Nat} {m m' : TickState} {st st' : SchedState}

/-- `t` is on the ready list of priority `p` with `i` threads ahead of it, and no thread comes
before those of this priority. -/
structure InLine (p t i : Nat) (st : SchedState) : Prop where
  lsth : (st.s.schda.sdaThdlst p).tdlLsth[i]? = some t
  low : ∀ q < p, (st.s.schda.sdaThdlst q).queue = []

/-- Nobody gets ahead of `t`, which does not leave itself: no thread of priority `p` or lower is
made, and none of a lower one is woken. -/
def KeepsTurn (p t : Nat) (st : SchedState) : SchedOp → Prop
  | .addThread _ pity => p < pity
  | .schedul => True
  | .wait _ => st.s.schda.sdaCurrtd ≠ some t
  | .up w => ∀ u ∈ (st.s.wlst w).wlList.head?, p ≤ (st.s.thread u).tdPriority
  | .exit => st.s.schda.sdaCurrtd ≠ some t

instance (p t : Nat) (st : SchedState) (op : SchedOp) : Decidable (KeepsTurn p t st op) :=
  match op with
  | .addThread _ pity => inferInstanceAs (Decidable (p < pity))
  | .schedul => inferInstanceAs (Decidable True)
  | .wait _ => inferInstanceAs (Decidable (st.s.schda.sdaCurrtd ≠ some t))
  | .up w => inferInstanceAs
      (Decidable (∀ u ∈ (st.s.wlst w).wlList.head?, p ≤ (st.s.thread u).tdPriority))
  | .exit => inferInstanceAs (Decidable (st.s.schda.sdaCurrtd ≠ some t))

/-- A thread leaves its lists. -/
theorem InLine.erase (h : InLine p t i st) {c : Nat} (hne : t ≠ c)
    (hlsth : ∀ q, (st'.s.schda.sdaThdlst q).tdlLsth = (st.s.schda.sdaThdlst q).tdlLsth.erase c)
    (hcur : ∀ q, (st'.s.schda.sdaThdlst q).tdlCurruntd = (st.s.schda.sdaThdlst q).tdlCurruntd ∨
      (st'.s.schda.sdaThdlst q).tdlCurruntd = none) : ∃ j ≤ i, InLine p t j st' := by
  obtain ⟨j, hj, hget⟩ := exists_getElem?_erase h.lsth hne
  refine ⟨j, hj, by rw [hlsth]; exact hget, fun q hq => ?_⟩
  have hlow := h.low q hq
  unfold Thrdlst.queue at hlow ⊢
  rw [List.append_eq_nil_iff] at hlow ⊢
  rw [hlsth, hlow.1]
  refine ⟨rfl, ?_⟩
  rcases hcur q with he | he
  · rw [he]
    exact hlow.2
  · rw [he]
    rfl

/-- What a call of the current thread takes away. -/
theorem leave_curruntd_cases (l : Thrdlst) (c : Nat) :
    (l.leave c).tdlCurruntd = l.tdlCurruntd ∨ (l.leave c).tdlCurruntd = none := by
  unfold Thrdlst.leave
  split
  · exact Or.inr rfl
  · exact Or.inl rfl

/-- **A call that is no selection** brings no thread ahead. -/
theorem InLine.call (h : InLine p t i st) {op : SchedOp} (hop : op ≠ .schedul)
    (hkeep : KeepsTurn p t st op) (hstep : schedStep st op = .ok st') :
    ∃ j ≤ i, InLine p t j st' := by
  cases op with
  | schedul => exact absurd rfl hop
  | addThread u pity =>
      simp only [schedStep] at hstep
      split at hstep
      · cases hstep
      · cases hstep
        have hpity : p < pity := hkeep
        have hself : (st.s.newThread u pity).thread u = ⟨.new, pity⟩ := Function.update_self _ _ _
        have hlist : ∀ q ≤ p, (krlschdclassAddThread (st.s.newThread u pity) u).schda.sdaThdlst q
            = st.s.schda.sdaThdlst q := by
          intro q hq
          unfold krlschdclassAddThread
          rw [hself]
          exact setThdlst_of_ne _ _ _ (show q ≠ pity by omega)
        refine ⟨i, Nat.le_refl i, ?_, fun q hq => ?_⟩
        · simpa [hlist p (Nat.le_refl p)] using h.lsth
        · simpa [hlist q (Nat.le_of_lt hq)] using h.low q hq
  | wait w =>
      simp only [schedStep] at hstep
      split at hstep
      · cases hstep
      · obtain ⟨s', hs', rfl⟩ := exists_of_map_ok hstep
        unfold krlschedWait krlschedRetnCurrthread at hs'
        cases hcur : st.s.schda.sdaCurrtd with
        | none => simp [hcur] at hs'
        | some c =>
            have hne : t ≠ c := fun he => hkeep (by rw [hcur, he])
            rw [hcur] at hs'
            dsimp only at hs'
            split at hs'
            · cases hs'
            · split at hs'
              · cases hs'
              · cases hs'
                refine h.erase hne (fun q => ?_) fun q => ?_
                · by_cases hq : q = (st.s.thread c).tdPriority
                  · simp [hq, Sched.setWlst, Sched.setThdlst, Thrdlst.leave, Sched.listDel]
                  · simp [hq, Sched.setWlst, Sched.setThdlst, Sched.listDel]
                · by_cases hq : q = (st.s.thread c).tdPriority
                  · simp only [hq, Sched.setWlst, Sched.setThdlst, Function.update_self]
                    exact leave_curruntd_cases _ _
                  · simp [hq, Sched.setWlst, Sched.setThdlst, Sched.listDel]
  | up w =>
      obtain ⟨s', hs', rfl⟩ := exists_of_map_ok hstep
      unfold krlschedUp krlwlstDelThread at hs'
      cases hw : (st.s.wlst w).wlList with
      | nil => simp [hw] at hs'
      | cons u l =>
          have hpity : p ≤ (st.s.thread u).tdPriority := hkeep u (by simp [hw])
          rw [hw] at hs'
          dsimp only at hs'
          split at hs'
          · cases hs'
          · rename_i hdel
            split at hdel
            · cases hdel
            · cases hdel
              split at hs'
              · cases hs'
              · cases hs'
                refine ⟨i, Nat.le_refl i, ?_, fun q hq => ?_⟩
                · by_cases hpu : p = (st.s.thread u).tdPriority
                  · obtain ⟨hlt, -⟩ := List.getElem?_eq_some_iff.mp h.lsth
                    have hget := h.lsth
                    rw [hpu] at hlt hget
                    simp only [hpu, setThdlst_self, setStus_schda, Sched.setWlst]
                    rw [List.getElem?_append_left hlt]
                    exact hget
                  · simpa [setThdlst_of_ne _ _ _ hpu, Sched.setWlst] using h.lsth
                · have hqu : q ≠ (st.s.thread u).tdPriority := by omega
                  simpa [setThdlst_of_ne _ _ _ hqu, Sched.setWlst] using h.low q hq
  | exit =>
      obtain ⟨s', hs', rfl⟩ := exists_of_map_ok hstep
      unfold krlschedExit krlschedRetnCurrthread at hs'
      cases hcur : st.s.schda.sdaCurrtd with
      | none => simp [hcur] at hs'
      | some c =>
          have hne : t ≠ c := fun he => hkeep (by rw [hcur, he])
          rw [hcur] at hs'
          dsimp only at hs'
          split at hs'
          · cases hs'
          · split at hs'
            · cases hs'
            · split at hs'
              · cases hs'
              · split at hs'
                · cases hs'
                · cases hs'
                  unfold krlschdclassDelThreadAddexit
                  refine h.erase hne (fun q => ?_) fun q => ?_
                  · by_cases hq : q = (st.s.thread c).tdPriority
                    · simp [hq, Sched.setThdlst, Thrdlst.leave, Sched.listDel]
                    · simp [hq, Sched.setThdlst, Sched.listDel]
                  · by_cases hq : q = (st.s.thread c).tdPriority
                    · simp only [hq, Sched.setThdlst, Sched.listDel, setStus_schda,
                        Function.update_self]
                      exact leave_curruntd_cases _ _
                    · simp [hq, Sched.setThdlst, Sched.listDel]

/-- The choice within one priority, with a thread on the ready list. -/
theorem selectOn_ready {s : Sched} {l : Thrdlst} {u : Nat} {rest : List Nat}
    (hl : l.tdlLsth = u :: rest) (hu : (s.thread u).tdStus.canRun = true) :
    selectOn s l = some ({ l with
      tdlLsth := rest ++ l.tdlCurruntd.toList, tdlCurruntd := some u }, u) := by
  unfold selectOn
  rw [hl, List.find?_cons_of_pos (p := fun t => (s.thread t).tdStus.canRun) hu]
  simp

/-- The loop passes over the priorities without threads. -/
theorem selectLoop_skip {s : Sched} {l : Thrdlst} {u : Nat}
    (hsel : selectOn s (s.schda.sdaThdlst p) = some (l, u)) : ∀ n q, q ≤ p → p < q + n →
    (∀ j, q ≤ j → j < p → (s.schda.sdaThdlst j).queue = []) →
    selectLoop s n q = some (s.setThdlst p l, u) := by
  intro n
  induction n with
  | zero =>
      intro q h1 h2
      omega
  | succ n ih =>
      intro q h1 h2 hempty
      rw [selectLoop]
      by_cases hq : q = p
      · rw [hq, hsel]
      · have hqueue := hempty q (Nat.le_refl q) (by omega)
        have hrun : ∀ t ∈ (s.schda.sdaThdlst q).queue, (s.thread t).tdStus.canRun = true := by
          simp [hqueue]
        rw [(selectOn_queue hrun).1 hqueue]
        exact ih (q + 1) (by omega) (by omega) fun j h3 h4 => hempty j (by omega) h4

/-- **A selection** takes the first thread of the list: `t` itself, or one ahead of it. -/
theorem InLine.select (h : InLine p t i st) (hplaced : RunPlaced st idle)
    (hstep : schedStep st .schedul = .ok st') :
    (i = 0 ∧ st'.s.schda.sdaCurrtd = some t) ∨ ∃ j, j + 1 = i ∧ InLine p t j st' := by
  cases hl : (st.s.schda.sdaThdlst p).tdlLsth with
  | nil => simpa [hl] using h.lsth
  | cons u rest =>
      have hmem : ∀ v ∈ u :: rest, v ∈ (st.s.schda.sdaThdlst p).queue := fun v hv => by
        unfold Thrdlst.queue
        rw [hl]
        exact List.mem_append_left _ hv
      obtain ⟨hu, hpity⟩ := hplaced.mem_queue u |>.mp (hmem u List.mem_cons_self)
      have hp : p < prityMax := hpity ▸ hplaced.pity u hu
      have hloop := selectLoop_skip (selectOn_ready hl hu.2) prityMax 0 (Nat.zero_le p)
        (by omega) fun j _ hj => h.low j hj
      obtain ⟨s', hs', rfl⟩ := exists_of_map_ok hstep
      unfold krlschedul krlschedSelectThread at hs'
      rw [if_neg (hplaced.queues 0).started, hloop] at hs'
      split at hs'
      · cases hs'
      · cases hs'
        obtain ⟨hlists, hcur, -⟩ := toNewContext_keeps (st.s.setThdlst p
          { st.s.schda.sdaThdlst p with
            tdlLsth := rest ++ (st.s.schda.sdaThdlst p).tdlCurruntd.toList
            tdlCurruntd := some u }) u u
        have hget := h.lsth
        rw [hl] at hget
        cases i with
        | zero =>
            refine Or.inl ⟨rfl, ?_⟩
            rw [hcur]
            simpa using hget
        | succ i =>
            refine Or.inr ⟨i, rfl, ?_, fun q hq => ?_⟩
            · rw [hlists, setThdlst_self]
              have hrest : rest[i]? = some t := by simpa using hget
              obtain ⟨hlt, -⟩ := List.getElem?_eq_some_iff.mp hrest
              rw [List.getElem?_append_left hlt]
              exact hrest
            · rw [hlists, setThdlst_of_ne _ _ _ (Nat.ne_of_lt hq)]
              exact h.low q hq

/-- `sda_schdflgs` is no part of the lists. -/
theorem InLine.setSchedflgs (h : InLine p t i st) (flags : Nat) :
    InLine p t i (krlschedSetSchedflgsEx st flags) :=
  ⟨h.lsth, h.low⟩

/-- A selection of the run: of `t` itself, or of a thread ahead of it. -/
theorem TickInv.call_select (h : TickInv idle m) (hl : InLine p t i m.st)
    (hcall : m.call .schedul = .ok m') :
    ∃ u, m'.chosen = m.chosen ++ [u] ∧
      ((i = 0 ∧ u = t) ∨ ∃ j, j + 1 = i ∧ InLine p t j m'.st) := by
  obtain ⟨u, hcur, hchosen⟩ := h.call_schedul hcall
  obtain ⟨hstep, -⟩ := call_inv hcall
  refine ⟨u, hchosen, (hl.select h.runPlaced hstep).imp_left ?_⟩
  rintro ⟨hi, ht⟩
  exact ⟨hi, by simpa [hcur] using ht⟩

/-- **One step of the run**: no selection, and nobody gets ahead, or a selection. -/
theorem TickInv.turn_step (h : TickInv idle m) (hl : InLine p t i m.st) {op : TickOp}
    (hkeep : op.Cond (KeepsTurn p t) m) (hstep : tickStep m op = .ok m') :
    (m'.chosen = m.chosen ∧ ∃ j ≤ i, InLine p t j m'.st) ∨
    ∃ u, m'.chosen = m.chosen ++ [u] ∧
      ((i = 0 ∧ u = t) ∨ ∃ j, j + 1 = i ∧ InLine p t j m'.st) := by
  cases op with
  | call op =>
      by_cases hop : op = .schedul
      · subst hop
        exact Or.inr (h.call_select hl hstep)
      · obtain ⟨-, hchosen⟩ := h.ticksLeft_call hop hstep false
        obtain ⟨hsched, -⟩ := call_inv hstep
        exact Or.inl ⟨hchosen, hl.call hop hkeep hsched⟩
  | setSchedflgs =>
      cases hstep
      exact Or.inl ⟨rfl, i, Nat.le_refl i, hl.setSchedflgs _⟩
  | tick =>
      obtain ⟨c, -, hchosen, hcase, -⟩ := h.tick hstep
      refine Or.inl ⟨hchosen, i, Nat.le_refl i, ?_⟩
      rcases hcase with ⟨-, hst, -⟩ | ⟨-, hst, -⟩
      · rw [hst]
        exact hl
      · rw [hst]
        exact hl.setSchedflgs _
  | chkneed =>
      rcases h.chkneed hstep with ⟨-, hcall⟩ | ⟨-, rfl⟩
      · exact Or.inr (h.clear.call_select (hl.setSchedflgs _) hcall)
      · exact Or.inl ⟨rfl, i, Nat.le_refl i, hl⟩

/-- What a run adds to the selections. -/
theorem tickRun_chosen : ∀ (ops : List TickOp) (m : TickState), TickInv idle m →
    AllSteps tickStep (fun m op => op.Cond CallerRuns m) ops m → run tickStep ops m = .ok m' →
    ∃ new, m'.chosen = m.chosen ++ new := by
  intro ops
  induction ops with
  | nil =>
      intro m _ _ hrun
      cases hrun
      exact ⟨[], by simp⟩
  | cons op ops ih =>
      intro m h hall hrun
      obtain ⟨m₁, hstep, hrest⟩ := run_cons_inv hrun
      obtain ⟨new, hnew⟩ := ih m₁ (tickStep_inv m op m₁ h hall.1 hstep) (hall.2 m₁ hstep) hrest
      have hchk : TicksChecked false [op] := by
        cases op <;> simp [TicksChecked]
      obtain ⟨one, -, hone, -⟩ := h.slice_step hchk hstep
      exact ⟨one ++ new, by rw [hnew, hone, List.append_assoc]⟩

/-- **The turn comes** with the `i + 1`-st selection. -/
theorem TickInv.turn (h : TickInv idle m) (hl : InLine p t i m.st) : ∀ (ops : List TickOp),
    AllSteps tickStep (fun m op => op.Cond CallerRuns m) ops m →
    AllSteps tickStep (fun m op => op.Cond (KeepsTurn p t) m) ops m →
    run tickStep ops m = .ok m' → ∀ new, m'.chosen = m.chosen ++ new → i < new.length →
      t ∈ new.take (i + 1) := by
  intro ops
  induction ops generalizing m i with
  | nil =>
      intro _ _ hrun new hnew hi
      cases hrun
      have hnil : new = [] := by simpa using hnew
      simp [hnil] at hi
  | cons op ops ih =>
      intro hall hkeep hrun new hnew hi
      obtain ⟨m₁, hstep, hrest⟩ := run_cons_inv hrun
      have h₁ := tickStep_inv m op m₁ h hall.1 hstep
      obtain ⟨new₁, hnew₁⟩ := tickRun_chosen ops m₁ h₁ (hall.2 m₁ hstep) hrest
      rcases h.turn_step hl hkeep.1 hstep with ⟨hsame, j, hj, hl₁⟩ | ⟨u, hone, hcase⟩
      · have hin := ih h₁ hl₁ (hall.2 m₁ hstep) (hkeep.2 m₁ hstep) hrest new
          (by rw [hnew, hsame]) (by omega)
        exact List.take_subset_take_left new (by omega) hin
      · have hcons : new = u :: new₁ := by
          rw [hnew₁, hone, List.append_assoc] at hnew
          exact (List.append_cancel_left hnew).symm
        subst hcons
        rcases hcase with ⟨rfl, rfl⟩ | ⟨j, rfl, hl₁⟩
        · simp
        · have hin := ih h₁ hl₁ (hall.2 m₁ hstep) (hkeep.2 m₁ hstep) hrest new₁ hnew₁
            (by simpa using hi)
          exact List.mem_cons_of_mem _ hin

end Turn

/-- **Waiting for a turn**, from every state that any order of calls, handlers and checks leads
to.  A thread with `i` others ahead of it on its ready list, and none that comes before its
priority, is among the next `i + 1` threads that are selected, and it has been selected after
`21 * (i + 1)` ticks, whatever the others do. -/
theorem turn_within_slices {idle : Nat} {ops ops' : List TickOp} {m m' : TickState}
    (hall : AllSteps tickStep (fun m op => op.Cond CallerRuns m) ops (TickState.init idle))
    (hrun : run tickStep ops (TickState.init idle) = .ok m) {p t i : Nat}
    (ht : (m.st.s.schda.sdaThdlst p).tdlLsth[i]? = some t)
    (hfirst : ∀ u, CanBeChosen m.st u → p ≤ (m.st.s.thread u).tdPriority)
    (hall' : AllSteps tickStep (fun m op => op.Cond CallerRuns m) ops' m)
    (hkeep : AllSteps tickStep (fun m op => op.Cond (KeepsTurn p t) m) ops' m)
    (hrun' : run tickStep ops' m = .ok m') :
    ∃ new, m'.chosen = m.chosen ++ new ∧
      (TicksChecked false ops' → ops'.count .tick ≤ (tdrunTick + 1) * (new.length + 1)) ∧
      (i < new.length → t ∈ new.take (i + 1)) ∧
      (TicksChecked false ops' → (tdrunTick + 1) * (i + 1) < ops'.count .tick → t ∈ new) := by
  have h := tickRun_inv hall hrun
  have hl : InLine p t i m.st := by
    refine ⟨ht, fun q hq => List.eq_nil_iff_forall_not_mem.mpr fun u hu => ?_⟩
    obtain ⟨hu, hpity⟩ := h.runPlaced.mem_queue u |>.mp hu
    have := hfirst u hu
    omega
  obtain ⟨new, hnew⟩ := tickRun_chosen ops' m h hall' hrun'
  have hturn := h.turn hl ops' hall' hkeep hrun' new hnew
  have hcount : TicksChecked false ops' →
      ops'.count .tick ≤ (tdrunTick + 1) * (new.length + 1) := by
    intro hchk
    obtain ⟨new', hnew', hle⟩ := h.slices ops' false hall' hchk hrun'
    obtain rfl : new' = new := List.append_cancel_left (hnew'.symm.trans hnew)
    have := ticksLeft_le false m
    rw [Nat.mul_add]
    omega
  refine ⟨new, hnew, hcount, hturn, fun hchk hticks => ?_⟩
  have hle := hcount hchk
  have hlt : i < new.length := by
    have := Nat.lt_of_mul_lt_mul_left (Nat.lt_of_lt_of_le hticks hle)
    omega
  exact List.mem_of_mem_take (hturn hlt)

instance (P : SchedState → SchedOp → Prop) [∀ st op, Decidable (P st op)] (m : TickState)
    (op : TickOp) : Decidable (op.Cond P m) :=
  match op with
  | .call op => inferInstanceAs (Decidable (P m.st op))
  | .setSchedflgs => inferInstanceAs (Decidable True)
  | .tick => inferInstanceAs (Decidable True)
  | .chkneed => inferInstanceAs (Decidable True)

/-- Two threads, of which the second one made runs first. -/
def twoThreads : List TickOp := [.call (.addThread 1 0), .call (.addThread 2 0), .call .schedul]

/-- Timer interrupts. -/
def timerInts (n : Nat) : List TickOp := (List.replicate n [.tick, .chkneed]).flatten

theorem timerInts_checked (n : Nat) (pending : Bool) (h : pending = false ∨ n = 0) :
    TicksChecked pending (timerInts n) := by
  induction n generalizing pending with
  | zero => simp [timerInts, TicksChecked]
  | succ n ih =>
      have hpend : pending = false := by simpa using h
      subst hpend
      exact ⟨rfl, ih false (Or.inl rfl)⟩

theorem turn_within_slices_twoThreads : ∃ m m' : TickState, m.chosen = [2] ∧
    run tickStep twoThreads (TickState.init 0) = .ok m ∧
    run tickStep (timerInts 22) m = .ok m' ∧ m'.chosen = [2, 1] ∧
    ∃ new, m'.chosen = m.chosen ++ new ∧ 1 ∈ new := by
  obtain ⟨m, hrun, hq⟩ := exists_of_okAnd (e := run tickStep twoThreads (TickState.init 0))
    (q := fun m => m.chosen = [2] && ((m.st.s.schda.sdaThdlst 0).tdlLsth[0]? = some 1 &&
      (checkSteps tickStep (fun m op => op.Cond CallerRuns m) (timerInts 22) m &&
        (checkSteps tickStep (fun m op => op.Cond (KeepsTurn 0 1) m) (timerInts 22) m &&
          okAnd (run tickStep (timerInts 22) m) fun m' => m'.chosen = [2, 1])))) (by decide +kernel)
  simp only [Bool.and_eq_true, decide_eq_true_eq] at hq
  obtain ⟨hchosen, ht, hcall, hkeep, hend⟩ := hq
  obtain ⟨m', hrun', hchosen'⟩ := exists_of_okAnd hend
  have hsteps : ∀ (P : SchedState → SchedOp → Prop) [∀ st op, Decidable (P st op)] ops m,
      checkSteps tickStep (fun m op => op.Cond P m) ops m = true →
      AllSteps tickStep (fun m op => op.Cond P m) ops m := fun P _ ops m h =>
    allSteps_of_check (p := fun m op => op.Cond P m) (fun _ _ hop => of_decide_eq_true hop) ops m h
  have hall := hsteps CallerRuns twoThreads (TickState.init 0) (by decide +kernel)
  obtain ⟨new, hnew, -, -, hin⟩ := turn_within_slices hall hrun ht (fun _ _ => Nat.zero_le _)
    (hsteps CallerRuns _ m hcall) (hsteps (KeepsTurn 0 1) _ m hkeep) hrun'
  exact ⟨m, m', hchosen, hrun, hrun', by simpa using hchosen', new, hnew,
    hin (timerInts_checked 22 false (Or.inl rfl)) (by decide)⟩

end Cosmos.Kernel
