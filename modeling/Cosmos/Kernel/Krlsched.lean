import Cosmos.Lib.Run
import Mathlib.Logic.Function.Basic

/-!
# The scheduler and wait lists

`krlsched.c` and `krlwaitlist.c` on one CPU.  A thread that can run is on the
ready list of its priority, except the one chosen last, which the list keeps
apart in `tdl_curruntd`; a thread that waits is on a wait list; a thread that
has exited is on `sda_exitlist`.  A thread is linked into a list through
`td_list`, so taking it off (`list_del`) does not name the list.

Threads are named by numbers, which stand for the addresses of their
descriptors, and wait lists likewise.  `hal_sysdie` and `system_error` stop the
kernel: the model returns the text.
-/

namespace Cosmos.Kernel

/-- `TDSTUS_…` -/
inductive Tdstus where
  | run
  | sleep
  | wait
  | new
  | zomb
  | exit
deriving DecidableEq, Repr

/-- `PRITY_MAX`. -/
abbrev prityMax : Nat := 64

/-- `PRITY_MIN`. -/
abbrev prityMin : Nat := 0

/-- `NOTS_SCHED_FLGS`. -/
abbrev notsSchedFlgs : Nat := 0

/-- `NEED_SCHED_FLGS`. -/
abbrev needSchedFlgs : Nat := 1

/-- `NEED_START_CPUILDE_SCHED_FLGS`. -/
abbrev needStartCpuildeSchedFlgs : Nat := 2

/-- `thread_t`, as far as the scheduler reads it. -/
structure Thread where
  tdStus : Tdstus
  tdPriority : Nat
deriving DecidableEq, Repr

/-- `thrdlst_t`. -/
structure Thrdlst where
  /-- threads that can run, head of the list first -/
  tdlLsth : List Nat
  tdlCurruntd : Option Nat
  tdlNr : Nat
deriving DecidableEq, Repr

/-- `kwlst_t`. -/
structure Kwlst where
  wlTdnr : Nat
  wlList : List Nat
deriving DecidableEq, Repr

/-- `schdata_t`. -/
structure Schdata where
  sdaSchdflgs : Nat
  sdaThreadnr : Nat
  sdaPrityidx : Nat
  sdaCpuidle : Option Nat
  sdaCurrtd : Option Nat
  sdaThdlst : Nat → Thrdlst
  sdaExitlist : List Nat

/-- The threads, the data of the CPU and the wait lists. -/
structure Sched where
  thread : Nat → Thread
  schda : Schdata
  wlst : Nat → Kwlst

/-! ## Memory -/

/-- Write `td_stus`. -/
def Sched.setStus (s : Sched) (t : Nat) (st : Tdstus) : Sched :=
  { s with thread := Function.update s.thread t { s.thread t with tdStus := st } }

/-- Write the list of a priority. -/
def Sched.setThdlst (s : Sched) (p : Nat) (l : Thrdlst) : Sched :=
  { s with schda := { s.schda with sdaThdlst := Function.update s.schda.sdaThdlst p l } }

/-- Write a wait list. -/
def Sched.setWlst (s : Sched) (w : Nat) (l : Kwlst) : Sched :=
  { s with wlst := Function.update s.wlst w l }

/-- `list_del` of `td_list`: the thread leaves the list it is linked into. -/
def Sched.listDel (s : Sched) (t : Nat) : Sched where
  thread := s.thread
  schda := { s.schda with
    sdaThdlst := fun p =>
      { s.schda.sdaThdlst p with tdlLsth := (s.schda.sdaThdlst p).tdlLsth.erase t }
    sdaExitlist := s.schda.sdaExitlist.erase t }
  wlst := fun w => { s.wlst w with wlList := (s.wlst w).wlList.erase t }

/-- `thrdlst_t_init`. -/
def thrdlstInit : Thrdlst where
  tdlLsth := []
  tdlCurruntd := none
  tdlNr := 0

/-- `kwlst_t_init`. -/
def kwlstInit : Kwlst where
  wlTdnr := 0
  wlList := []

/-- `schdata_t_init`, and the idle thread of `new_cpuidle_thread`. -/
def schdataInit (idle : Nat) : Schdata where
  sdaSchdflgs := notsSchedFlgs
  sdaThreadnr := 0
  sdaPrityidx := 0
  sdaCpuidle := some idle
  sdaCurrtd := some idle
  sdaThdlst := fun _ => thrdlstInit
  sdaExitlist := []

/-- The scheduler after `init_krlsched` and `init_krlcpuidle`, before the first
thread is made. -/
def schedInit (idle : Nat) : Sched where
  thread := fun _ => ⟨.run, prityMin⟩
  schda := schdataInit idle
  wlst := fun _ => kwlstInit

/-! ## Wait lists -/

/-- `krlwlst_add_thread`. -/
def krlwlstAddThread (w : Kwlst) (tdp : Nat) : Kwlst where
  wlTdnr := w.wlTdnr + 1
  wlList := tdp :: w.wlList

/-- `krlwlst_del_thread`: the first thread of the list. -/
def krlwlstDelThread (w : Kwlst) : Kwlst × Option Nat :=
  match w.wlList with
  | [] => (w, none)
  | tdp :: l => if w.wlTdnr < 1 then (w, none) else (⟨w.wlTdnr - 1, l⟩, some tdp)

/-- `krlsched_retn_currthread`. -/
def krlschedRetnCurrthread (s : Sched) : Except String Nat :=
  match s.schda.sdaCurrtd with
  | none => .error "schdap->sda_currtd NULL"
  | some t => .ok t

/-- `krlsched_retn_idlethread`. -/
def krlschedRetnIdlethread (s : Sched) : Except String Nat :=
  match s.schda.sdaCpuidle with
  | none => .error "schdap->sda_cpuidle NULL"
  | some t => .ok t

/-- The list of a priority after thread `tdp` left it. -/
def Thrdlst.leave (l : Thrdlst) (tdp : Nat) : Thrdlst where
  tdlLsth := l.tdlLsth
  tdlCurruntd := if l.tdlCurruntd = some tdp then none else l.tdlCurruntd
  tdlNr := l.tdlNr - 1

/-- `krlsched_wait`: the current thread goes to a wait list. -/
def krlschedWait (s : Sched) (wlst : Nat) : Except String Sched :=
  match krlschedRetnCurrthread s with
  | .error e => .error e
  | .ok tdp =>
      let pity := (s.thread tdp).tdPriority
      if prityMax ≤ pity then .error "krlsched_wait err"
      else if (s.schda.sdaThdlst pity).tdlNr < 1 then .error "krlsched_wait err"
      else
        let s := (s.setStus tdp .wait).listDel tdp
        let s := s.setThdlst pity ((s.schda.sdaThdlst pity).leave tdp)
        .ok (s.setWlst wlst (krlwlstAddThread (s.wlst wlst) tdp))

/-- `krlsched_up`: the first thread of a wait list can run again. -/
def krlschedUp (s : Sched) (wlst : Nat) : Except String Sched :=
  match krlwlstDelThread (s.wlst wlst) with
  | (_, none) => .error "krlsched_up err"
  | (w, some tdp) =>
      let pity := (s.thread tdp).tdPriority
      if prityMax ≤ pity then .error "krlsched_up err"
      else
        let s := (s.setWlst wlst w).setStus tdp .run
        let l := s.schda.sdaThdlst pity
        .ok (s.setThdlst pity { l with tdlLsth := l.tdlLsth ++ [tdp], tdlNr := l.tdlNr + 1 })

/-! ## Choosing a thread -/

/-- `td_stus` of a thread that may be chosen. -/
def Tdstus.canRun (st : Tdstus) : Bool := st = .run || st = .new

/-- The choice within one priority: the first thread of the list that may run,
which changes places with `tdl_curruntd`, or `tdl_curruntd` itself. -/
def selectOn (s : Sched) (l : Thrdlst) : Option (Thrdlst × Nat) :=
  match l.tdlLsth.find? fun t => (s.thread t).tdStus.canRun with
  | some tdtmp =>
      some ({ l with
        tdlLsth := l.tdlLsth.erase tdtmp ++ l.tdlCurruntd.toList
        tdlCurruntd := some tdtmp }, tdtmp)
  | none => l.tdlCurruntd.map fun cur => (l, cur)

/-- The loop of `krlsched_select_thread` over `n` priorities from `pity` on. -/
def selectLoop (s : Sched) : Nat → Nat → Option (Sched × Nat)
  | 0, _ => none
  | n + 1, pity =>
      match selectOn s (s.schda.sdaThdlst pity) with
      | some (l, t) => some (s.setThdlst pity l, t)
      | none => selectLoop s n (pity + 1)

/-- `krlsched_select_thread`. -/
def krlschedSelectThread (s : Sched) : Except String (Sched × Nat) :=
  match selectLoop s prityMax 0 with
  | some r => .ok r
  | none =>
      match krlschedRetnIdlethread s with
      | .error e => .error e
      | .ok t => .ok ({ s with schda := { s.schda with sdaPrityidx := prityMin } }, t)

/-- `__to_new_context`: `next` is the current thread from here on. -/
def toNewContext (s : Sched) (next : Nat) : Sched :=
  let s := { s with schda := { s.schda with sdaCurrtd := some next } }
  if (s.thread next).tdStus = .new then s.setStus next .run else s

/-- `krlschedul`. -/
def krlschedul (s : Sched) : Except String Sched :=
  if s.schda.sdaSchdflgs = needStartCpuildeSchedFlgs then
    match krlschedRetnIdlethread s with
    | .error e => .error e
    | .ok _ => .ok { s with schda := { s.schda with sdaSchdflgs := notsSchedFlgs } }
  else
    match krlschedRetnCurrthread s with
    | .error e => .error e
    | .ok _ =>
        match krlschedSelectThread s with
        | .error e => .error e
        | .ok (s', next) => .ok (toNewContext s' next)

/-! ## Threads that come and go -/

/-- `krlschdclass_add_thread`. -/
def krlschdclassAddThread (s : Sched) (thdp : Nat) : Sched :=
  let pity := (s.thread thdp).tdPriority
  let l := s.schda.sdaThdlst pity
  let s := s.setThdlst pity { l with tdlLsth := thdp :: l.tdlLsth, tdlNr := l.tdlNr + 1 }
  { s with schda := { s.schda with sdaThreadnr := s.schda.sdaThreadnr + 1 } }

/-- `krlschdclass_del_thread_addexit`. -/
def krlschdclassDelThreadAddexit (s : Sched) (thdp : Nat) : Sched :=
  let pity := (s.thread thdp).tdPriority
  let s := s.setThdlst pity ((s.schda.sdaThdlst pity).leave thdp)
  let s := { s with schda := { s.schda with sdaThreadnr := s.schda.sdaThreadnr - 1 } }
  let s := (s.listDel thdp).setStus thdp .exit
  { s with schda := { s.schda with sdaExitlist := thdp :: s.schda.sdaExitlist } }

/-- `krlsched_exit`. -/
def krlschedExit (s : Sched) : Except String Sched :=
  match krlschedRetnCurrthread s with
  | .error e => .error e
  | .ok tdp =>
      match krlschedRetnIdlethread s with
      | .error e => .error e
      | .ok idle =>
          let pity := (s.thread tdp).tdPriority
          if tdp = idle then .error "krlsched_exit"
          else if prityMax ≤ pity then .error "krlsched_wait err"
          else if (s.schda.sdaThdlst pity).tdlNr < 1 then .error "krlsched_wait err"
          else .ok (krlschdclassDelThreadAddexit s tdp)

/-- The thread `krlnew_thread` hands to the scheduler: `thread_t_init` made it. -/
def Sched.newThread (s : Sched) (t pity : Nat) : Sched :=
  { s with thread := Function.update s.thread t ⟨.new, pity⟩ }

end Cosmos.Kernel
