import Cosmos.Kernel.KrlschedRun

/-!
# The number of threads in the system

`krlschdclass_add_thread` counts a new thread twice: in `sda_threadnr` of the CPU and in
`scls_threadnr` of the class, which `hal_dspversion` shows.  `krlsched_exit` counts it off
in the first only, so the two agree as long as no thread has exited.

## Main results

* `threadnr_agrees` and `threadnr_not_agrees` : when the two counters agree, and a run
  after which they do not.
-/

namespace Cosmos.Kernel

open Cosmos.Lib.Placement Cosmos.Lib.Run

/-- `schedclass_t` with its one CPU (`CPUCORE_MAX` is 1), and the threads that were
made. -/
structure Schedclass where
  sclsThreadnr : Nat
  cpu : SchedState

/-- `schedclass_t_init`. -/
def Schedclass.init (idle : Nat) : Schedclass := ⟨0, SchedState.init idle⟩

/-- `scls_threadnr` after a call. -/
def sclsThreadnrAfter (nr : Nat) : SchedOp → Nat
  | .addThread _ _ => nr + 1
  | _ => nr

/-- One call. -/
def schedclassStep (c : Schedclass) (op : SchedOp) : Except String Schedclass :=
  (schedStep c.cpu op).map fun cpu => ⟨sclsThreadnrAfter c.sclsThreadnr op, cpu⟩

/-- `scls_threadnr` is the sum over the CPUs, and the number of the threads that were
made and have not exited. -/
structure ThreadnrAgrees (c : Schedclass) : Prop where
  sum : c.sclsThreadnr = c.cpu.s.schda.sdaThreadnr
  live : c.sclsThreadnr =
    (c.cpu.created.filter fun t => t ∉ c.cpu.s.schda.sdaExitlist).length

section Step

variable {st st' : SchedState} {c c' : Schedclass} {op : SchedOp} {s s' : Sched}

theorem selectLoop_schda {n pity t : Nat} (h : selectLoop s n pity = some (s', t)) :
    s'.schda.sdaThreadnr = s.schda.sdaThreadnr ∧ s'.schda.sdaExitlist = s.schda.sdaExitlist := by
  induction n generalizing pity with
  | zero => cases h
  | succ n ih =>
      unfold selectLoop at h
      cases hon : selectOn s (s.schda.sdaThdlst pity) with
      | none =>
          rw [hon] at h
          exact ih h
      | some r =>
          rw [hon] at h
          cases h
          exact ⟨rfl, rfl⟩

theorem toNewContext_schda (s : Sched) (next : Nat) :
    (toNewContext s next).schda.sdaThreadnr = s.schda.sdaThreadnr ∧
      (toNewContext s next).schda.sdaExitlist = s.schda.sdaExitlist := by
  unfold toNewContext
  dsimp only
  split
  · exact ⟨rfl, rfl⟩
  · exact ⟨rfl, rfl⟩

theorem krlschedul_schda (h : krlschedul s = .ok s') :
    s'.schda.sdaThreadnr = s.schda.sdaThreadnr ∧ s'.schda.sdaExitlist = s.schda.sdaExitlist := by
  unfold krlschedul at h
  split at h
  · split at h
    · cases h
    · cases h
      exact ⟨rfl, rfl⟩
  · split at h
    · cases h
    · unfold krlschedSelectThread at h
      cases hloop : selectLoop s prityMax 0 with
      | some r =>
          rw [hloop] at h
          cases h
          have hsel := selectLoop_schda hloop
          have hnew := toNewContext_schda r.1 r.2
          exact ⟨hnew.1.trans hsel.1, hnew.2.trans hsel.2⟩
      | none =>
          rw [hloop] at h
          unfold krlschedRetnIdlethread at h
          cases hidle : s.schda.sdaCpuidle with
          | none =>
              rw [hidle] at h
              cases h
          | some t =>
              rw [hidle] at h
              cases h
              exact toNewContext_schda _ t

theorem krlschedWait_schda {w : Nat} (h : krlschedWait s w = .ok s') :
    s'.schda.sdaThreadnr = s.schda.sdaThreadnr ∧ ∃ t, s.schda.sdaCurrtd = some t ∧
      s'.schda.sdaExitlist = s.schda.sdaExitlist.erase t := by
  unfold krlschedWait krlschedRetnCurrthread at h
  cases hc : s.schda.sdaCurrtd with
  | none =>
      rw [hc] at h
      cases h
  | some t =>
      rw [hc] at h
      dsimp only at h
      split at h
      · cases h
      · split at h
        · cases h
        · cases h
          exact ⟨rfl, t, rfl, rfl⟩

theorem krlschedUp_schda {w : Nat} (h : krlschedUp s w = .ok s') :
    s'.schda.sdaThreadnr = s.schda.sdaThreadnr ∧ s'.schda.sdaExitlist = s.schda.sdaExitlist := by
  unfold krlschedUp at h
  split at h
  · cases h
  · dsimp only at h
    split at h
    · cases h
    · cases h
      exact ⟨rfl, rfl⟩

theorem krlschedExit_exitlist (h : krlschedExit s = .ok s') : ∃ t, s.schda.sdaCurrtd = some t ∧
    s'.schda.sdaExitlist = t :: s.schda.sdaExitlist.erase t := by
  unfold krlschedExit krlschedRetnCurrthread at h
  cases hc : s.schda.sdaCurrtd with
  | none =>
      rw [hc] at h
      cases h
  | some t =>
      rw [hc] at h
      dsimp only at h
      split at h
      · cases h
      · split at h
        · cases h
        · split at h
          · cases h
          · split at h
            · cases h
            · cases h
              exact ⟨t, rfl, rfl⟩

theorem schedStep_addThread {t pity : Nat} (h : schedStep st (.addThread t pity) = .ok st') :
    st' = ⟨krlschdclassAddThread (st.s.newThread t pity) t, t :: st.created⟩ := by
  simp only [schedStep] at h
  split at h
  · cases h
  · cases h
    rfl

/-- While no thread has exited, calls other than `krlsched_exit` keep `sda_threadnr` the
number of the threads made. -/
theorem schedStep_threadnr (hop : op ≠ .exit) (hnil : st.s.schda.sdaExitlist = [])
    (h : schedStep st op = .ok st') : st'.s.schda.sdaExitlist = [] ∧
      st'.s.schda.sdaThreadnr + st.created.length =
        st.s.schda.sdaThreadnr + st'.created.length := by
  cases op with
  | addThread t pity =>
      rw [schedStep_addThread h]
      refine ⟨hnil, ?_⟩
      show st.s.schda.sdaThreadnr + 1 + st.created.length = _ + (st.created.length + 1)
      omega
  | schedul =>
      obtain ⟨s, hs, rfl⟩ := exists_of_map_ok h
      have hschda := krlschedul_schda hs
      exact ⟨hschda.2.trans hnil, by rw [hschda.1]⟩
  | wait w =>
      simp only [schedStep] at h
      split at h
      · cases h
      · obtain ⟨s, hs, rfl⟩ := exists_of_map_ok h
        obtain ⟨hnr, t, -, hexit⟩ := krlschedWait_schda hs
        refine ⟨?_, by rw [hnr]⟩
        rw [hexit, hnil]
        rfl
  | up w =>
      obtain ⟨s, hs, rfl⟩ := exists_of_map_ok h
      have hschda := krlschedUp_schda hs
      exact ⟨hschda.2.trans hnil, by rw [hschda.1]⟩
  | exit => exact absurd rfl hop

/-- `scls_threadnr` counts the threads made. -/
theorem schedStep_created (h : schedStep st op = .ok st') :
    st'.created.length = sclsThreadnrAfter st.created.length op := by
  cases op with
  | addThread t pity =>
      rw [schedStep_addThread h]
      rfl
  | schedul =>
      obtain ⟨s, -, rfl⟩ := exists_of_map_ok h
      rfl
  | wait w =>
      simp only [schedStep] at h
      split at h
      · cases h
      · obtain ⟨s, -, rfl⟩ := exists_of_map_ok h
        rfl
  | up w =>
      obtain ⟨s, -, rfl⟩ := exists_of_map_ok h
      rfl
  | exit =>
      obtain ⟨s, -, rfl⟩ := exists_of_map_ok h
      rfl

/-- The exited threads stay on `sda_exitlist`. -/
theorem schedStep_exitlist {idle : Nat} {plc : Nat → Option Place}
    (h : SchedInv st.s idle st.created plc) (hop : CallerRuns st op)
    (hstep : schedStep st op = .ok st') :
    (op ≠ .exit → st'.s.schda.sdaExitlist = st.s.schda.sdaExitlist) ∧
      (op = .exit → st'.s.schda.sdaExitlist ≠ []) := by
  cases op with
  | addThread t pity =>
      rw [schedStep_addThread hstep]
      exact ⟨fun _ => rfl, fun he => by cases he⟩
  | schedul =>
      obtain ⟨s, hs, rfl⟩ := exists_of_map_ok hstep
      exact ⟨fun _ => (krlschedul_schda hs).2, fun he => by cases he⟩
  | wait w =>
      simp only [schedStep] at hstep
      split at hstep
      · cases hstep
      · obtain ⟨s, hs, rfl⟩ := exists_of_map_ok hstep
        obtain ⟨-, t, hcur, hlist⟩ := krlschedWait_schda hs
        refine ⟨fun _ => hlist.trans (List.erase_of_not_mem fun hm => ?_), fun he => by cases he⟩
        -- the caller has not exited
        exact (hop rfl t hcur).2 (h.tagged.exits t ((h.placed.mem .exited t).mp hm))
  | up w =>
      obtain ⟨s, hs, rfl⟩ := exists_of_map_ok hstep
      exact ⟨fun _ => (krlschedUp_schda hs).2, fun he => by cases he⟩
  | exit =>
      obtain ⟨s, hs, rfl⟩ := exists_of_map_ok hstep
      obtain ⟨t, -, hlist⟩ := krlschedExit_exitlist hs
      refine ⟨fun hne => absurd rfl hne, fun _ => ?_⟩
      show s.schda.sdaExitlist ≠ []
      rw [hlist]
      exact List.cons_ne_nil _ _

theorem schedclassStep_inv (h : schedclassStep c op = .ok c') :
    schedStep c.cpu op = .ok c'.cpu ∧ c'.sclsThreadnr = sclsThreadnrAfter c.sclsThreadnr op := by
  obtain ⟨st, hs, rfl⟩ := exists_of_map_ok h
  exact ⟨hs, rfl⟩

end Step

/-! ## Runs -/

section Runs

variable {c c' : Schedclass} {idle : Nat}

/-- Each thread made is counted in both, and none has exited. -/
structure NoneExited (c : Schedclass) : Prop where
  scls : c.sclsThreadnr = c.cpu.created.length
  sda : c.cpu.s.schda.sdaThreadnr = c.cpu.created.length
  exitlist : c.cpu.s.schda.sdaExitlist = []

theorem schedclassStep_noneExited (c : Schedclass) (op : SchedOp) (c' : Schedclass)
    (h : NoneExited c) (hop : op ≠ .exit) (hstep : schedclassStep c op = .ok c') :
    NoneExited c' := by
  obtain ⟨hs, hscls⟩ := schedclassStep_inv hstep
  obtain ⟨hnil, hnr⟩ := schedStep_threadnr hop h.exitlist hs
  have hsda := h.sda
  refine ⟨?_, by omega, hnil⟩
  rw [hscls, h.scls, schedStep_created hs]

theorem NoneExited.agrees (h : NoneExited c) : ThreadnrAgrees c where
  sum := h.scls.trans h.sda.symm
  live := by
    rw [h.scls, h.exitlist, List.filter_eq_self.mpr]
    intro t _
    exact decide_eq_true List.not_mem_nil

/-- Who calls `krlsched_wait` or `krlsched_exit` runs. -/
def ClassCallerRuns (c : Schedclass) (op : SchedOp) : Prop := CallerRuns c.cpu op

instance (c : Schedclass) (op : SchedOp) : Decidable (ClassCallerRuns c op) :=
  inferInstanceAs (Decidable (CallerRuns _ _))

/-- A thread that has exited is in one of the two counters only. -/
theorem run_exited : ∀ (ops : List SchedOp) (c c' : Schedclass),
    (∃ plc, SchedInv c.cpu.s idle c.cpu.created plc) → c.sclsThreadnr = c.cpu.created.length →
      AllSteps schedclassStep ClassCallerRuns ops c → run schedclassStep ops c = .ok c' →
        (c.cpu.s.schda.sdaExitlist ≠ [] ∨ SchedOp.exit ∈ ops) →
          c'.cpu.s.schda.sdaThreadnr < c'.sclsThreadnr := by
  intro ops
  induction ops with
  | nil =>
      rintro c c' ⟨plc, h⟩ hscls - hrun hexit
      cases hrun
      have hne := hexit.resolve_right List.not_mem_nil
      have hnr := h.threadnr
      have hpos := List.length_pos_iff.mpr hne
      simp only [Sched.listOf] at hnr
      omega
  | cons op ops ih =>
      rintro c c' ⟨plc, h⟩ hscls hall hrun hexit
      obtain ⟨c₁, hstep, hrest⟩ := run_cons_inv hrun
      obtain ⟨hs, hnr⟩ := schedclassStep_inv hstep
      obtain ⟨hkeep, hnew⟩ := schedStep_exitlist h hall.1 hs
      refine ih c₁ c' (schedStep_inv c.cpu op c₁.cpu ⟨plc, h⟩ hall.1 hs) ?_ (hall.2 c₁ hstep)
        hrest ?_
      · rw [hnr, hscls, schedStep_created hs]
      · by_cases hop : op = .exit
        · exact Or.inl (hnew hop)
        · rcases hexit with hne | hin
          · exact Or.inl (by rw [hkeep hop]; exact hne)
          · exact Or.inr ((List.mem_cons.mp hin).resolve_left (Ne.symm hop))

/-- **When the counters agree**: after every run in which no thread exits, and after no
run of running threads in which one does. -/
theorem threadnr_agrees (idle : Nat) (ops : List SchedOp) {c : Schedclass}
    (hrun : run schedclassStep ops (Schedclass.init idle) = .ok c) :
    (SchedOp.exit ∉ ops → ThreadnrAgrees c) ∧
      (AllSteps schedclassStep ClassCallerRuns ops (Schedclass.init idle) →
        SchedOp.exit ∈ ops → ¬ ThreadnrAgrees c) := by
  constructor
  · intro hno
    have hops : ∀ op ∈ ops, op ≠ SchedOp.exit := by
      rintro op hop rfl
      exact hno hop
    have hinv := run_inv_of_allSteps NoneExited (fun _ op => op ≠ .exit)
      schedclassStep_noneExited ops _ c ⟨rfl, rfl, rfl⟩ (allSteps_of_forall ops _ hops) hrun
    exact hinv.agrees
  · intro hall hin hagree
    have hlt := run_exited ops _ c ⟨_, schedInit_inv idle⟩ rfl hall hrun (Or.inr hin)
    have hsum := hagree.sum
    omega

theorem threadnr_agrees_waitAndUp : ∃ c : Schedclass,
    c.sclsThreadnr = 2 ∧ ThreadnrAgrees c := by
  obtain ⟨c, hrun, hq⟩ := exists_of_okAnd
    (e := run schedclassStep waitAndUp (Schedclass.init 0)) (q := fun c => c.sclsThreadnr = 2)
    (by decide +kernel)
  exact ⟨c, of_decide_eq_true hq, (threadnr_agrees 0 waitAndUp hrun).1 (by decide)⟩

/-- One thread, which exits. -/
def exitOnce : List SchedOp :=
  [.addThread 1 0, .schedul, .exit]

theorem threadnr_not_agrees : ¬ ∀ (idle : Nat) (ops : List SchedOp) (c : Schedclass),
    AllSteps schedclassStep ClassCallerRuns ops (Schedclass.init idle) →
      run schedclassStep ops (Schedclass.init idle) = .ok c → ThreadnrAgrees c := by
  intro hall
  obtain ⟨c, hrun, hq⟩ := exists_of_okAnd
    (e := run schedclassStep exitOnce (Schedclass.init 0))
    (q := fun c => c.sclsThreadnr = 1 && c.cpu.s.schda.sdaThreadnr = 0) (by decide +kernel)
  rw [Bool.and_eq_true, decide_eq_true_iff, decide_eq_true_iff] at hq
  have hsteps : AllSteps schedclassStep ClassCallerRuns exitOnce (Schedclass.init 0) :=
    allSteps_of_check (p := fun c op => ClassCallerRuns c op)
      (fun _ _ hop => of_decide_eq_true hop) _ _ (by decide +kernel)
  have hsum := (hall 0 exitOnce c hsteps hrun).sum
  rw [hq.1, hq.2] at hsum
  cases hsum

end Runs

end Cosmos.Kernel
