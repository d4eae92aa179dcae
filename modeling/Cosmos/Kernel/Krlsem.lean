import Cosmos.Kernel.KrlschedRun
import Mathlib.Algebra.Group.Int.Defs
import Mathlib.Algebra.Group.Nat.Defs

/-!
# Semaphores

`krlsem.c`.  The section of `krlsem_down` between taking and releasing
`sem_lock` either takes a unit or puts the caller on `sem_waitlst`; a thread
that was woken starts over.  `krlsem_up` adds a unit and wakes every waiting
thread.  Each of the two sections is one step here, taken by any thread that is
neither waiting nor gone, so every order the scheduler can produce is a run of
these steps.
-/

namespace Cosmos.Kernel

open Cosmos.Lib.Placement Cosmos.Lib.Run

/-- `sem_t`; the wait list is the one at address `semWaitlst`. -/
structure Sem where
  semCount : Int
  semWaitlst : Nat
deriving DecidableEq, Repr

/-- `x++` on a `sint_t`. -/
def sintInc (x : Int) : Int := (x + 1).bmod (2 ^ 64)

/-- The locked section of `krlsem_down`: `true` when the call has its unit,
`false` when the thread waits and will start over. -/
def krlsemDown (s : Sched) (sem : Sem) : Except String (Sched × Sem × Bool) :=
  if sem.semCount < 1 then
    match krlschedWait s sem.semWaitlst with
    | .error e => .error e
    | .ok s' => .ok (s', sem, false)
  else .ok (s, { sem with semCount := sem.semCount - 1 }, true)

/-- `krlwlst_allup`, for at most `n` threads. -/
def allupLoop (w : Nat) : Nat → Sched → Except String Sched
  | 0, s => .ok s
  | n + 1, s =>
      if (s.wlst w).wlList = [] then .ok s
      else
        match krlschedUp s w with
        | .error e => .error e
        | .ok s' => allupLoop w n s'

/-- `krlwlst_allup`: each round takes a thread off the list. -/
def krlwlstAllup (s : Sched) (w : Nat) : Except String Sched :=
  allupLoop w (s.wlst w).wlList.length s

/-- The locked section of `krlsem_up`. -/
def krlsemUp (s : Sched) (sem : Sem) : Except String (Sched × Sem) :=
  let sem' := { sem with semCount := sintInc sem.semCount }
  if sem'.semCount < 1 then .error "sem up err"
  else
    match krlwlstAllup s sem.semWaitlst with
    | .error e => .error e
    | .ok s' => .ok (s', sem')

/-! ## Runs -/

/-- The scheduler, the semaphore, and what its callers have done so far. -/
structure SemState where
  st : SchedState
  sem : Sem
  /-- completed ups -/
  ups : Nat
  /-- completed downs -/
  downs : Nat
  /-- threads between a completed down and their next up, once for each -/
  holders : List Nat

/-- What a thread does next. -/
inductive SemOp where
  /-- anything in the scheduler that leaves `sem_waitlst` alone -/
  | sched (op : SchedOp)
  /-- the locked section of `krlsem_down`, at first or after a wake-up -/
  | down (t : Nat)
  | up (t : Nat)
deriving DecidableEq, Repr

/-- A thread that was made and neither waits nor has exited. -/
def SchedState.CanStep (st : SchedState) (t : Nat) : Prop :=
  t ∈ st.created ∧ (st.s.thread t).tdStus ≠ .wait ∧ (st.s.thread t).tdStus ≠ .exit

instance (st : SchedState) (t : Nat) : Decidable (st.CanStep t) :=
  inferInstanceAs (Decidable (_ ∧ _))

/-- Some scheduling has made `t` the current thread. -/
def SchedState.dispatch (st : SchedState) (t : Nat) : Sched :=
  { st.s with schda := { st.s.schda with sdaCurrtd := some t } }

/-- One step. -/
def semStep (m : SemState) : SemOp → Except String SemState
  | .sched op =>
      if op = .wait m.sem.semWaitlst ∨ op = .up m.sem.semWaitlst ∨ ¬ CallerRuns m.st op then
        .error "no scheduler call of other code"
      else
        match schedStep m.st op with
        | .error e => .error e
        | .ok st => .ok { m with st := st }
  | .down t =>
      if ¬ m.st.CanStep t then .error "thread does not run"
      else
        match krlsemDown (m.st.dispatch t) m.sem with
        | .error e => .error e
        | .ok (s, sem, false) => .ok { m with st := ⟨s, m.st.created⟩, sem := sem }
        | .ok (s, sem, true) =>
            .ok { m with
              st := ⟨s, m.st.created⟩
              sem := sem
              downs := m.downs + 1
              holders := t :: m.holders }
  | .up t =>
      if ¬ m.st.CanStep t then .error "thread does not run"
      else
        match krlsemUp (m.st.dispatch t) m.sem with
        | .error e => .error e
        | .ok (s, sem) =>
            .ok { m with
              st := ⟨s, m.st.created⟩
              sem := sem
              ups := m.ups + 1
              holders := m.holders.erase t }

/-- A semaphore set to `c` with `krlsem_set_sem`, and no thread yet. -/
def SemState.init (idle w : Nat) (c : Nat) : SemState where
  st := SchedState.init idle
  sem := ⟨c, w⟩
  ups := 0
  downs := 0
  holders := []

/-- Ups come from threads that have a completed down to give back. -/
def UpAfterDown (m : SemState) : SemOp → Prop
  | .up t => t ∈ m.holders
  | _ => True

instance (m : SemState) (op : SemOp) : Decidable (UpAfterDown m op) := by
  cases op with
  | sched op => exact isTrue trivial
  | down t => exact isTrue trivial
  | up t => exact inferInstanceAs (Decidable (t ∈ m.holders))

/-! ## The invariant -/

/-- **The invariant of a semaphore** that was set to `c`. -/
structure SemInv (idle w : Nat) (c : Nat) (m : SemState) : Prop where
  sched : ∃ plc, SchedInv m.st.s idle m.st.created plc
  waitlst : m.sem.semWaitlst = w
  count : m.sem.semCount = c + m.ups - m.downs
  nonneg : 0 ≤ m.sem.semCount
  lt : m.sem.semCount < 2 ^ 63
  wake : 1 ≤ m.sem.semCount → (m.st.s.wlst w).wlList = []

section Steps

variable {idle w c : Nat}

/-- Dispatching a thread touches no list. -/
theorem dispatch_inv {st : SchedState} {plc : Nat → Option Place} {t : Nat}
    (h : SchedInv st.s idle st.created plc) (ht : t ∈ st.created) :
    SchedInv (st.dispatch t) idle st.created plc :=
  { h with
    placed := ⟨h.placed.nodup, h.placed.mem⟩
    currtd := ⟨t, rfl, Or.inr ht⟩ }

/-- **`krlwlst_allup`** empties the list. -/
theorem allupLoop_inv {created : List Nat} (n : Nat) :
    ∀ (s : Sched), (∃ plc, SchedInv s idle created plc) → (s.wlst w).wlList.length ≤ n →
      ∃ s', allupLoop w n s = .ok s' ∧ (∃ plc, SchedInv s' idle created plc) ∧
        (s'.wlst w).wlList = [] := by
  induction n with
  | zero =>
      intro s h hn
      exact ⟨s, rfl, h, List.length_eq_zero_iff.mp (Nat.le_zero.mp hn)⟩
  | succ n ih =>
      intro s h hn
      rw [allupLoop]
      cases hl : (s.wlst w).wlList with
      | nil =>
          rw [if_pos rfl]
          exact ⟨s, rfl, h, hl⟩
      | cons t l =>
          rw [if_neg (List.cons_ne_nil t l)]
          obtain ⟨plc, hinv⟩ := h
          obtain ⟨s', hup, hinv', hl', _⟩ := krlschedUp_inv hinv hl
          simp only [hup]
          rw [hl, List.length_cons] at hn
          apply ih s' ⟨_, hinv'⟩
          rw [hl']
          omega

/-- Other scheduler calls do not touch the wait list of the semaphore. -/
theorem schedStep_wlst {st st' : SchedState} {op : SchedOp} {plc : Nat → Option Place}
    (h : SchedInv st.s idle st.created plc) (hop : CallerRuns st op)
    (hw : op ≠ .wait w) (hu : op ≠ .up w) (hstep : schedStep st op = .ok st') :
    st'.s.wlst w = st.s.wlst w := by
  obtain ⟨c, hcur, hcin⟩ := h.currtd
  cases op with
  | addThread t pity =>
      simp only [schedStep] at hstep
      split at hstep
      · cases hstep
      · cases hstep
        rfl
  | schedul =>
      obtain ⟨s', t, plc', hrun, _, _, _, hwl⟩ := krlschedul_inv h
      simp only [schedStep, hrun] at hstep
      cases hstep
      exact congrFun hwl w
  | wait v =>
      simp only [schedStep] at hstep
      split at hstep
      · cases hstep
      · rename_i hne
        have hc : c ∈ st.created := by
          refine hcin.resolve_left fun hi => hne ?_
          rw [hcur, h.cpuidle, hi]
        obtain ⟨s', hrun, _, _, hwl⟩ := krlschedWait_inv h hc hcur (hop rfl c hcur) v
        rw [hrun] at hstep
        cases hstep
        exact hwl w fun hv => hw (by rw [hv])
  | up v =>
      simp only [schedStep] at hstep
      cases hl : (st.s.wlst v).wlList with
      | nil =>
          unfold krlschedUp krlwlstDelThread at hstep
          rw [hl] at hstep
          cases hstep
      | cons t l =>
          obtain ⟨s', hrun, _, _, hwl⟩ := krlschedUp_inv h hl
          rw [hrun] at hstep
          cases hstep
          exact hwl w fun hv => hu (by rw [hv])
  | exit =>
      simp only [schedStep] at hstep
      by_cases hi : c = idle
      · unfold krlschedExit krlschedRetnCurrthread krlschedRetnIdlethread at hstep
        simp only [hcur, h.cpuidle, if_pos hi] at hstep
        cases hstep
      · obtain ⟨s', hrun, _, hwl⟩ := krlschedExit_inv h (hcin.resolve_left hi) hcur
          (hop rfl c hcur)
        rw [hrun] at hstep
        cases hstep
        exact congrFun hwl w

/-- **Each step keeps the invariant.** -/
theorem semStep_inv (m : SemState) (op : SemOp) (m' : SemState) (h : SemInv idle w c m)
    (hstep : semStep m op = .ok m') : SemInv idle w c m' := by
  obtain ⟨plc, hsched⟩ := h.sched
  have hnn := h.nonneg
  have hlt := h.lt
  have hcount := h.count
  cases op with
  | sched op =>
      simp only [semStep] at hstep
      split at hstep
      · cases hstep
      · rename_i hok
        rw [not_or, not_or, not_not, h.waitlst] at hok
        obtain ⟨hw, hu, hop⟩ := hok
        split at hstep
        · cases hstep
        · rename_i st' hst
          cases hstep
          refine { h with
            sched := schedStep_inv m.st op st' ⟨plc, hsched⟩ hop hst
            wake := fun h1 => ?_ }
          simp only
          rw [schedStep_wlst hsched hop hw hu hst]
          exact h.wake h1
  | down t =>
      simp only [semStep, krlsemDown] at hstep
      split at hstep
      · cases hstep
      · rename_i hcan
        rw [not_not] at hcan
        obtain ⟨ht, hst⟩ := hcan
        have hdisp := dispatch_inv hsched ht
        by_cases hless : m.sem.semCount < 1
        · -- no unit: the thread waits
          obtain ⟨s', hrun, h', hwl, _⟩ := krlschedWait_inv hdisp ht rfl hst m.sem.semWaitlst
          rw [if_pos hless, hrun] at hstep
          cases hstep
          exact { h with
            sched := ⟨_, h'⟩
            wake := fun h1 => absurd h1 (Int.not_le.mpr hless) }
        · rw [if_neg hless] at hstep
          cases hstep
          refine {
            sched := ⟨plc, hdisp⟩
            waitlst := h.waitlst
            count := ?_
            nonneg := ?_
            lt := ?_
            wake := fun _ => h.wake (Int.not_lt.mp hless) }
          · simp only
            omega
          · simp only
            omega
          · simp only
            omega
  | up t =>
      simp only [semStep, krlsemUp] at hstep
      split at hstep
      · cases hstep
      · rename_i hcan
        rw [not_not] at hcan
        by_cases hmax : sintInc m.sem.semCount < 1
        · rw [if_pos hmax] at hstep
          cases hstep
        · -- the count did not wrap
          have hinc : sintInc m.sem.semCount = m.sem.semCount + 1 ∧
              m.sem.semCount + 1 < 2 ^ 63 := by
            unfold sintInc at hmax ⊢
            rw [Int.bmod_def] at hmax ⊢
            split at hmax
            · rename_i hpos
              rw [if_pos hpos]
              omega
            · omega
          obtain ⟨s', hrun, h', hempty⟩ := allupLoop_inv
            (m.st.dispatch t |>.wlst m.sem.semWaitlst).wlList.length (m.st.dispatch t)
            ⟨plc, dispatch_inv hsched hcan.1⟩ (Nat.le_refl _)
          rw [if_neg hmax] at hstep
          unfold krlwlstAllup at hstep
          rw [hrun] at hstep
          cases hstep
          refine {
            sched := h'
            waitlst := h.waitlst
            count := ?_
            nonneg := ?_
            lt := ?_
            wake := fun _ => ?_ }
          · simp only
            omega
          · simp only
            omega
          · simp only
            omega
          · simp only
            rw [← h.waitlst]
            exact hempty

/-- While ups only give back units, the threads that hold one are the units
that are gone. -/
theorem semStep_holders (m : SemState) (op : SemOp) (m' : SemState)
    (h : m.holders.length + m.ups = m.downs) (hop : UpAfterDown m op)
    (hstep : semStep m op = .ok m') : m'.holders.length + m'.ups = m'.downs := by
  cases op with
  | sched op =>
      simp only [semStep] at hstep
      split at hstep
      · cases hstep
      · split at hstep
        · cases hstep
        · cases hstep
          exact h
  | down t =>
      simp only [semStep] at hstep
      split at hstep
      · cases hstep
      · split at hstep
        · cases hstep
        · cases hstep
          exact h
        · cases hstep
          simp only [List.length_cons]
          omega
  | up t =>
      simp only [semStep] at hstep
      split at hstep
      · cases hstep
      · split at hstep
        · cases hstep
        · cases hstep
          have hmem : t ∈ m.holders := hop
          have hpos := List.length_pos_of_mem hmem
          simp only [List.length_erase_of_mem hmem]
          omega

end Steps

/-! ## Safety -/

/-- What holds of a semaphore set to `c` whenever its lock is free. -/
structure SemSafe (c : Nat) (m : SemState) : Prop where
  count : m.sem.semCount = c + m.ups - m.downs
  nonneg : 0 ≤ m.sem.semCount
  /-- no wake-up is lost -/
  wake : 1 ≤ m.sem.semCount → (m.st.s.wlst m.sem.semWaitlst).wlList = []

theorem semInit_inv (idle w : Nat) {c : Nat} (hc : c < 2 ^ 63) :
    SemInv idle w c (SemState.init idle w c) where
  sched := ⟨_, schedInit_inv idle⟩
  waitlst := rfl
  count := by
    show (c : Int) = c + (0 : Nat) - (0 : Nat)
    simp
  nonneg := Int.natCast_nonneg c
  lt := by
    show (c : Int) < 2 ^ 63
    omega
  wake _ := rfl

/-- **Semaphore safety**, for any threads and any order of their steps; with one
unit, and ups that give back units only, at most one thread is between its down
and its up. -/
theorem sem_safe (idle w c : Nat) (hc : c < 2 ^ 63) (ops : List SemOp) {m : SemState}
    (hrun : run semStep ops (SemState.init idle w c) = .ok m) :
    SemSafe c m ∧ (c = 1 → AllSteps semStep UpAfterDown ops (SemState.init idle w c) →
      m.holders.length ≤ 1) := by
  have h := run_inv (SemInv idle w c) semStep_inv ops _ m (semInit_inv idle w hc) hrun
  refine ⟨⟨h.count, h.nonneg, fun h1 => ?_⟩, fun hone hall => ?_⟩
  · rw [h.waitlst]
    exact h.wake h1
  · have hhold := run_inv_of_allSteps (fun m => m.holders.length + m.ups = m.downs)
      UpAfterDown semStep_holders ops _ m rfl hall hrun
    have hcount := h.count
    have hnn := h.nonneg
    omega

/-- Two threads and one unit: the second waits until the first gives it back. -/
def twoDowns : List SemOp :=
  [.sched (.addThread 1 0), .sched (.addThread 2 0), .down 1, .down 2, .up 1, .down 2]

theorem sem_safe_twoDowns : ∃ m : SemState, m.holders = [2] ∧ m.downs = 2 ∧ SemSafe 1 m ∧
    m.holders.length ≤ 1 := by
  obtain ⟨m, hrun, hq⟩ := exists_of_okAnd (e := run semStep twoDowns (SemState.init 0 7 1))
    (q := fun m => m.holders = [2] && m.downs = 2) (by decide +kernel)
  rw [Bool.and_eq_true, decide_eq_true_iff, decide_eq_true_iff] at hq
  obtain ⟨hsafe, hone⟩ := sem_safe 0 7 1 (by decide) twoDowns hrun
  refine ⟨m, hq.1, hq.2, hsafe, hone rfl ?_⟩
  exact allSteps_of_check (p := fun m op => UpAfterDown m op)
    (fun _ _ hop => of_decide_eq_true hop) _ _ (by decide +kernel)

end Cosmos.Kernel
