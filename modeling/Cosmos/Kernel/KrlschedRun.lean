import Cosmos.Kernel.KrlschedPlace

/-!
# Every order of scheduler calls

Threads are made, the current thread waits or exits, waiting threads are woken,
and `krlschedul` runs, in any order.  `wait` and `exit` are calls of the current
thread; all callers go to `krlschedul` right after them, which is what
`CallerRuns` says with the status the two calls leave behind.
-/

namespace Cosmos.Kernel

open Cosmos.Lib.Placement Cosmos.Lib.Run

/-- The calls. -/
inductive SchedOp where
  /-- `krlschdclass_add_thread` of a thread that was just made -/
  | addThread (t pity : Nat)
  | schedul
  | wait (wlst : Nat)
  | up (wlst : Nat)
  | exit
deriving DecidableEq, Repr

/-- The scheduler and the threads that were made. -/
structure SchedState where
  s : Sched
  created : List Nat

/-- The scheduler before the first thread. -/
def SchedState.init (idle : Nat) : SchedState := ⟨schedInit idle, []⟩

/-- One call.  A new thread has an address of its own and a priority below
`PRITY_MAX`, and the idle thread never waits. -/
def schedStep (st : SchedState) : SchedOp → Except String SchedState
  | .addThread t pity =>
      if t ∈ st.created ∨ st.s.schda.sdaCpuidle = some t ∨ prityMax ≤ pity then
        .error "no new thread"
      else .ok ⟨krlschdclassAddThread (st.s.newThread t pity) t, t :: st.created⟩
  | .schedul => (krlschedul st.s).map fun s => { st with s := s }
  | .wait w =>
      if st.s.schda.sdaCurrtd = st.s.schda.sdaCpuidle then .error "idle thread"
      else (krlschedWait st.s w).map fun s => { st with s := s }
  | .up w => (krlschedUp st.s w).map fun s => { st with s := s }
  | .exit => (krlschedExit st.s).map fun s => { st with s := s }

/-- The calls that take the current thread off its list. -/
def SchedOp.leaves : SchedOp → Bool
  | .wait _ => true
  | .exit => true
  | _ => false

/-- Who calls `krlsched_wait` or `krlsched_exit` has not been put on a list by
an earlier such call. -/
def CallerRuns (st : SchedState) (op : SchedOp) : Prop :=
  op.leaves = true → ∀ t ∈ st.s.schda.sdaCurrtd,
    (st.s.thread t).tdStus ≠ .wait ∧ (st.s.thread t).tdStus ≠ .exit

instance (st : SchedState) (op : SchedOp) : Decidable (CallerRuns st op) :=
  inferInstanceAs (Decidable (_ → _))

theorem schedInit_inv (idle : Nat) : SchedInv (schedInit idle) idle [] fun _ => none where
  placed := by
    have hempty : ∀ k, (schedInit idle).listOf k = [] := by
      intro k
      cases k <;> rfl
    refine ⟨fun k => ?_, fun k x => ?_⟩
    · rw [hempty k]
      exact List.nodup_nil
    · rw [hempty k]
      simp
  nodup := List.nodup_nil
  made t := by simp
  tagged := ⟨fun t p h => by simp at h, fun t h => absurd h List.not_mem_nil,
    fun t w h => by simp at h, fun t h => by simp at h⟩
  tdlNr _ := rfl
  wlTdnr _ := rfl
  threadnr := rfl
  cpuidle := rfl
  idleNew := List.not_mem_nil
  currtd := ⟨idle, rfl, Or.inl rfl⟩
  schdflgs := by
    show notsSchedFlgs ≠ needStartCpuildeSchedFlgs
    decide

/-- **Each call keeps the invariant.** -/
theorem schedStep_inv {idle : Nat} (st : SchedState) (op : SchedOp) (st' : SchedState)
    (h : ∃ plc, SchedInv st.s idle st.created plc) (hop : CallerRuns st op)
    (hstep : schedStep st op = .ok st') : ∃ plc, SchedInv st'.s idle st'.created plc := by
  obtain ⟨plc, h⟩ := h
  obtain ⟨c, hcur, hcin⟩ := h.currtd
  cases op with
  | addThread t pity =>
      simp only [schedStep] at hstep
      split at hstep
      · cases hstep
      · rename_i hnew
        cases hstep
        rw [not_or, not_or, Nat.not_le, h.cpuidle] at hnew
        obtain ⟨hfresh, hidle, hpity⟩ := hnew
        exact ⟨_, krlschdclassAddThread_inv h hfresh (fun he => hidle (by rw [he])) hpity⟩
  | schedul =>
      obtain ⟨s', t, plc', hrun, h', _⟩ := krlschedul_inv h
      simp only [schedStep, hrun] at hstep
      cases hstep
      exact ⟨plc', h'⟩
  | wait w =>
      simp only [schedStep] at hstep
      split at hstep
      · cases hstep
      · rename_i hne
        have hc : c ∈ st.created := by
          refine hcin.resolve_left fun hi => hne ?_
          rw [hcur, h.cpuidle, hi]
        obtain ⟨s', hrun, h', _⟩ := krlschedWait_inv h hc hcur
          (hop rfl c hcur) w
        rw [hrun] at hstep
        cases hstep
        exact ⟨_, h'⟩
  | up w =>
      simp only [schedStep] at hstep
      cases hl : (st.s.wlst w).wlList with
      | nil =>
          unfold krlschedUp krlwlstDelThread at hstep
          rw [hl] at hstep
          cases hstep
      | cons t l =>
          obtain ⟨s', hrun, h', _⟩ := krlschedUp_inv h hl
          rw [hrun] at hstep
          cases hstep
          exact ⟨_, h'⟩
  | exit =>
      simp only [schedStep] at hstep
      by_cases hi : c = idle
      · unfold krlschedExit krlschedRetnCurrthread krlschedRetnIdlethread at hstep
        simp only [hcur, h.cpuidle, if_pos hi] at hstep
        cases hstep
      · obtain ⟨s', hrun, h', _⟩ := krlschedExit_inv h (hcin.resolve_left hi) hcur
          (hop rfl c hcur)
        rw [hrun] at hstep
        cases hstep
        exact ⟨_, h'⟩

/-! ## Placement -/

/-- A place that is a thread's own: of its own priority. -/
def Place.Own (th : Thread) : Place → Prop
  | .ready p => p = th.tdPriority
  | .running p => p = th.tdPriority
  | .waiting _ => True
  | .exited => True

/-- Where the threads are, and what the counters say. -/
structure ThreadsPlaced (st : SchedState) : Prop where
  /-- each thread is on the list of exactly one place, its own -/
  place : ∀ t ∈ st.created, ∃ k, t ∈ st.s.listOf k ∧ k.Own (st.s.thread t) ∧
    ∀ j, t ∈ st.s.listOf j → j = k
  /-- and once -/
  once : ∀ k, (st.s.listOf k).Nodup
  /-- the lists hold nothing else -/
  only : ∀ k, ∀ t ∈ st.s.listOf k, t ∈ st.created
  tdlNr : ∀ p, (st.s.schda.sdaThdlst p).tdlNr = (st.s.schda.sdaThdlst p).tdlLsth.length
    + if (st.s.schda.sdaThdlst p).tdlCurruntd.isSome then 1 else 0
  wlTdnr : ∀ w, (st.s.wlst w).wlTdnr = (st.s.wlst w).wlList.length
  threadnr : st.s.schda.sdaThreadnr
    = (st.created.filter fun t => t ∉ st.s.schda.sdaExitlist).length

theorem SchedInv.threadsPlaced {st : SchedState} {idle : Nat} {plc : Nat → Option Place}
    (h : SchedInv st.s idle st.created plc) : ThreadsPlaced st := by
  have honly : ∀ k, ∀ t ∈ st.s.listOf k, t ∈ st.created := by
    intro k t hm
    rw [h.made t, (h.placed.mem k t).mp hm]
    rfl
  refine {
    place := fun t ht => ?_
    once := h.placed.nodup
    only := honly
    tdlNr := fun p => ?_
    wlTdnr := h.wlTdnr
    threadnr := ?_ }
  · obtain ⟨k, hk⟩ := Option.isSome_iff_exists.mp ((h.made t).mp ht)
    obtain ⟨j, hj, huniq⟩ := h.placed.unique hk
    have hjk : plc t = some j := (h.placed.mem j t).mp hj
    refine ⟨j, hj, ?_, huniq⟩
    cases j with
    | ready p => exact h.tagged.own t p (Or.inl hjk)
    | running p => exact h.tagged.own t p (Or.inr hjk)
    | waiting w => trivial
    | exited => trivial
  · have hnr := h.tdlNr p
    simp only [Sched.listOf] at hnr
    rw [hnr]
    cases (st.s.schda.sdaThdlst p).tdlCurruntd with
    | none => rfl
    | some c => rfl
  · have hlen : (st.created.filter fun t => t ∉ st.s.schda.sdaExitlist).length
        + st.s.schda.sdaExitlist.length = st.created.length :=
      length_filter_not_mem h.nodup (h.placed.nodup .exited) (honly .exited)
    have hnum : st.s.schda.sdaThreadnr + st.s.schda.sdaExitlist.length = st.created.length :=
      h.threadnr
    omega

/-- **Thread placement**, in every state that calls of running threads lead
to. -/
theorem threads_placed (idle : Nat) (ops : List SchedOp) {st : SchedState}
    (hall : AllSteps schedStep CallerRuns ops (SchedState.init idle))
    (hrun : run schedStep ops (SchedState.init idle) = .ok st) : ThreadsPlaced st := by
  obtain ⟨plc, h⟩ := run_inv_of_allSteps (fun st => ∃ plc, SchedInv st.s idle st.created plc)
    CallerRuns schedStep_inv ops _ st ⟨_, schedInit_inv idle⟩ hall hrun
  exact h.threadsPlaced

/-- Two threads of one priority; the first waits and is woken by the other. -/
def waitAndUp : List SchedOp :=
  [.addThread 1 0, .addThread 2 0, .schedul, .wait 7, .schedul, .up 7, .schedul]

theorem threads_placed_waitAndUp : ∃ st : SchedState,
    st.created = [2, 1] ∧ st.s.schda.sdaCurrtd = some 2 ∧ ThreadsPlaced st := by
  obtain ⟨st, hrun, hq⟩ := exists_of_okAnd (e := run schedStep waitAndUp (SchedState.init 0))
    (q := fun st => st.created = [2, 1] && st.s.schda.sdaCurrtd = some 2) (by decide +kernel)
  rw [Bool.and_eq_true, decide_eq_true_iff, decide_eq_true_iff] at hq
  refine ⟨st, hq.1, hq.2, threads_placed 0 waitAndUp ?_ hrun⟩
  exact allSteps_of_check (p := fun st op => CallerRuns st op)
    (fun _ _ hop => of_decide_eq_true hop) _ _ (by decide +kernel)

/-- A thread that waits twice without being switched away leaves the first wait
list with a wrong count. -/
theorem threads_not_placed :
    ¬ ∀ (idle : Nat) (ops : List SchedOp) (st : SchedState),
      run schedStep ops (SchedState.init idle) = .ok st → ThreadsPlaced st := by
  intro hall
  obtain ⟨st, hrun, hq⟩ := exists_of_okAnd
    (e := run schedStep [.addThread 1 0, .addThread 2 0, .schedul, .wait 7, .wait 8]
      (SchedState.init 0))
    (q := fun st => (st.s.wlst 7).wlTdnr = 1 && (st.s.wlst 7).wlList = []) (by decide +kernel)
  rw [Bool.and_eq_true, decide_eq_true_iff, decide_eq_true_iff] at hq
  have hnr := (hall 0 _ st hrun).wlTdnr 7
  rw [hq.1, hq.2] at hnr
  cases hnr

end Cosmos.Kernel
