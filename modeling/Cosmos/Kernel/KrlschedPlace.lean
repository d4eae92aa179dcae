import Cosmos.Kernel.Krlsched
import Cosmos.Lib.Placement

/-!
# Where the threads are

Every thread that was made is in one place: the ready list of its priority,
`tdl_curruntd` of its priority, a wait list, or `sda_exitlist`.  `SchedInv` says
so with a function from threads to places, which is not part of the kernel's
state; each operation changes the place of at most two threads.  The counters
`tdl_nr`, `wl_tdnr` and `sda_threadnr` are what the lists say.
-/

namespace Cosmos.Kernel

open Cosmos.Lib.Placement Cosmos.Lib.Run

/-- The places of a thread. -/
inductive Place where
  | ready (p : Nat)
  | running (p : Nat)
  | waiting (w : Nat)
  | exited
deriving DecidableEq, Repr

/-- The threads at a place. -/
def Sched.listOf (s : Sched) : Place → List Nat
  | .ready p => (s.schda.sdaThdlst p).tdlLsth
  | .running p => (s.schda.sdaThdlst p).tdlCurruntd.toList
  | .waiting w => (s.wlst w).wlList
  | .exited => s.schda.sdaExitlist

/-- The descriptors agree with the places. -/
structure Tagged (th : Nat → Thread) (created : List Nat) (plc : Nat → Option Place) :
    Prop where
  own : ∀ t p, plc t = some (.ready p) ∨ plc t = some (.running p) → p = (th t).tdPriority
  pity : ∀ t ∈ created, (th t).tdPriority < prityMax
  waits : ∀ t w, plc t = some (.waiting w) → (th t).tdStus = .wait
  exits : ∀ t, plc t = some .exited → (th t).tdStus = .exit

/-- **The invariant of the scheduler**, with the threads `created` so far. -/
structure SchedInv (s : Sched) (idle : Nat) (created : List Nat) (plc : Nat → Option Place) :
    Prop where
  placed : Placed s.listOf plc
  nodup : created.Nodup
  made : ∀ t, t ∈ created ↔ (plc t).isSome = true
  tagged : Tagged s.thread created plc
  tdlNr : ∀ p, (s.schda.sdaThdlst p).tdlNr
    = (s.listOf (.ready p)).length + (s.listOf (.running p)).length
  wlTdnr : ∀ w, (s.wlst w).wlTdnr = (s.listOf (.waiting w)).length
  threadnr : s.schda.sdaThreadnr + (s.listOf .exited).length = created.length
  cpuidle : s.schda.sdaCpuidle = some idle
  idleNew : idle ∉ created
  currtd : ∃ t, s.schda.sdaCurrtd = some t ∧ (t = idle ∨ t ∈ created)
  schdflgs : s.schda.sdaSchdflgs ≠ needStartCpuildeSchedFlgs

/-! ## Lists after a write -/

section Lists

variable (s : Sched) (t p w : Nat)

@[simp] theorem setStus_listOf (st : Tdstus) : (s.setStus t st).listOf = s.listOf := by
  funext k
  cases k <;> rfl

@[simp] theorem setStus_schda (st : Tdstus) : (s.setStus t st).schda = s.schda := rfl

@[simp] theorem setStus_wlst (st : Tdstus) : (s.setStus t st).wlst = s.wlst := rfl

@[simp] theorem setThdlst_thread (l : Thrdlst) : (s.setThdlst p l).thread = s.thread := rfl

@[simp] theorem setThdlst_wlst (l : Thrdlst) : (s.setThdlst p l).wlst = s.wlst := rfl

@[simp] theorem setThdlst_self (l : Thrdlst) : (s.setThdlst p l).schda.sdaThdlst p = l :=
  Function.update_self _ _ _

theorem setThdlst_of_ne {q : Nat} (l : Thrdlst) (h : q ≠ p) :
    (s.setThdlst p l).schda.sdaThdlst q = s.schda.sdaThdlst q :=
  Function.update_of_ne h _ _

@[simp] theorem setWlst_schda (l : Kwlst) : (s.setWlst w l).schda = s.schda := rfl

@[simp] theorem setWlst_thread (l : Kwlst) : (s.setWlst w l).thread = s.thread := rfl

@[simp] theorem setWlst_self (l : Kwlst) : (s.setWlst w l).wlst w = l :=
  Function.update_self _ _ _

theorem setWlst_of_ne {v : Nat} (l : Kwlst) (h : v ≠ w) : (s.setWlst w l).wlst v = s.wlst v :=
  Function.update_of_ne h _ _

@[simp] theorem listDel_thread : (s.listDel t).thread = s.thread := rfl

/-- The status of a thread, and the priority nothing changes. -/
theorem setStus_thread (st : Tdstus) (u : Nat) :
    ((s.setStus t st).thread u).tdPriority = (s.thread u).tdPriority ∧
      ((s.setStus t st).thread u).tdStus = if u = t then st else (s.thread u).tdStus := by
  unfold Sched.setStus
  by_cases h : u = t
  · subst h
    simp
  · simp [h]

end Lists

/-- Leaving `tdl_curruntd`. -/
theorem leave_curruntd (l : Thrdlst) (t : Nat) :
    (l.leave t).tdlCurruntd.toList = l.tdlCurruntd.toList.erase t := by
  unfold Thrdlst.leave
  cases hc : l.tdlCurruntd with
  | none => simp
  | some c =>
      by_cases h : c = t
      · simp [h]
      · simp [h]

/-- The places and the status that go with each other. -/
def Place.Fits (th : Thread) : Place → Prop
  | .ready p => p = th.tdPriority
  | .running p => p = th.tdPriority
  | .waiting _ => th.tdStus = .wait
  | .exited => th.tdStus = .exit

/-- One thread gets another place and another status. -/
theorem Tagged.move {th th' : Nat → Thread} {created : List Nat} {plc : Nat → Option Place}
    (h : Tagged th created plc) {t : Nat} {k : Place}
    (hpity : ∀ u, (th' u).tdPriority = (th u).tdPriority)
    (hstus : ∀ u, u ≠ t → (th' u).tdStus = (th u).tdStus) (hk : k.Fits (th' t)) :
    Tagged th' created (Function.update plc t (some k)) := by
  constructor
  · intro u p hu
    by_cases hut : u = t
    · subst hut
      rw [Function.update_self, Option.some.injEq, Option.some.injEq] at hu
      rcases hu with rfl | rfl
      · exact hk
      · exact hk
    · rw [Function.update_of_ne hut] at hu
      rw [hpity u]
      exact h.own u p hu
  · intro u hu
    rw [hpity u]
    exact h.pity u hu
  · intro u w hu
    by_cases hut : u = t
    · subst hut
      rw [Function.update_self, Option.some.injEq] at hu
      subst hu
      exact hk
    · rw [Function.update_of_ne hut] at hu
      rw [hstus u hut]
      exact h.waits u w hu
  · intro u hu
    by_cases hut : u = t
    · subst hut
      rw [Function.update_self, Option.some.injEq] at hu
      subst hu
      exact hk
    · rw [Function.update_of_ne hut] at hu
      rw [hstus u hut]
      exact h.exits u hu

section Inv

variable {s : Sched} {idle : Nat} {created : List Nat} {plc : Nat → Option Place}

theorem SchedInv.at_running (h : SchedInv s idle created plc) {p c : Nat}
    (hc : (s.schda.sdaThdlst p).tdlCurruntd = some c) : plc c = some (.running p) := by
  refine (h.placed.mem (.running p) c).mp ?_
  show c ∈ (s.schda.sdaThdlst p).tdlCurruntd.toList
  rw [hc]
  exact List.mem_singleton.mpr rfl

/-- A thread that can run is on the ready list of its priority or kept in
`tdl_curruntd`. -/
theorem SchedInv.at_own (h : SchedInv s idle created plc) {t : Nat} (ht : t ∈ created)
    (hst : (s.thread t).tdStus ≠ .wait ∧ (s.thread t).tdStus ≠ .exit) :
    plc t = some (.ready (s.thread t).tdPriority) ∨
      plc t = some (.running (s.thread t).tdPriority) := by
  obtain ⟨k, hk⟩ := Option.isSome_iff_exists.mp ((h.made t).mp ht)
  cases k with
  | ready p => exact Or.inl (by rw [hk, ← h.tagged.own t p (Or.inl hk)])
  | running p => exact Or.inr (by rw [hk, ← h.tagged.own t p (Or.inr hk)])
  | waiting w => exact absurd (h.tagged.waits t w hk) hst.1
  | exited => exact absurd (h.tagged.exits t hk) hst.2

/-- Taking a thread off its ready list or out of `tdl_curruntd` makes the two
together one shorter. -/
theorem SchedInv.leave_length (h : SchedInv s idle created plc) {t p : Nat}
    (hat : plc t = some (.ready p) ∨ plc t = some (.running p)) :
    (s.listOf (.ready p)).length + (s.listOf (.running p)).length
      = ((s.listOf (.ready p)).erase t).length + ((s.listOf (.running p)).erase t).length + 1 := by
  rcases hat with hat | hat
  · have hmem : t ∈ s.listOf (.ready p) := (h.placed.mem _ t).mpr hat
    have hpos := List.length_pos_of_mem hmem
    rw [h.placed.erase_ne hat (j := .running p) (by simp), List.length_erase_of_mem hmem]
    omega
  · have hmem : t ∈ s.listOf (.running p) := (h.placed.mem _ t).mpr hat
    have hpos := List.length_pos_of_mem hmem
    rw [h.placed.erase_ne hat (j := .ready p) (by simp), List.length_erase_of_mem hmem]
    omega

theorem SchedInv.not_ready (h : SchedInv s idle created plc) {t q : Nat}
    (hq : q ≠ (s.thread t).tdPriority) : t ∉ s.listOf (.ready q) := fun hm =>
  hq (h.tagged.own t q (Or.inl ((h.placed.mem _ t).mp hm)))

theorem SchedInv.not_running (h : SchedInv s idle created plc) {t q : Nat}
    (hq : q ≠ (s.thread t).tdPriority) : t ∉ s.listOf (.running q) := fun hm =>
  hq (h.tagged.own t q (Or.inr ((h.placed.mem _ t).mp hm)))

/-- Moving a thread keeps the set of the threads that were made. -/
theorem SchedInv.made_update (h : SchedInv s idle created plc) {t : Nat} {k : Place}
    (ht : t ∈ created) (u : Nat) :
    u ∈ created ↔ (Function.update plc t (some k) u).isSome = true := by
  by_cases hu : u = t
  · subst hu
    simp [ht]
  · rw [Function.update_of_ne hu]
    exact h.made u

/-! ## The operations -/

/-- **`krlsched_wait`** puts the current thread on a wait list. -/
theorem krlschedWait_inv (h : SchedInv s idle created plc) {t : Nat} (ht : t ∈ created)
    (hcur : s.schda.sdaCurrtd = some t)
    (hst : (s.thread t).tdStus ≠ .wait ∧ (s.thread t).tdStus ≠ .exit) (w : Nat) :
    ∃ s', krlschedWait s w = .ok s' ∧
      SchedInv s' idle created (Function.update plc t (some (.waiting w))) ∧
      s'.wlst w = krlwlstAddThread (s.wlst w) t ∧ (∀ v, v ≠ w → s'.wlst v = s.wlst v) := by
  have hown := h.at_own ht hst
  have hlen := h.leave_length hown
  have hpity := h.tagged.pity t ht
  have hnr := h.tdlNr (s.thread t).tdPriority
  obtain ⟨k, hk, hkne⟩ : ∃ k, plc t = some k ∧ ∀ v, k ≠ .waiting v := by
    rcases hown with hk | hk
    · exact ⟨_, hk, fun v => by simp⟩
    · exact ⟨_, hk, fun v => by simp⟩
  have hout : ∀ v, (s.wlst v).wlList.erase t = (s.wlst v).wlList := fun v =>
    h.placed.erase_ne hk (j := .waiting v) (Ne.symm (hkne v))
  unfold krlschedWait krlschedRetnCurrthread
  simp only [hcur]
  rw [if_neg (by omega), if_neg (by omega)]
  refine ⟨_, rfl, ?_, ?_, fun v hv => ?_⟩
  · have hth := setStus_thread s t
    refine {
      placed := h.placed.relink k (.waiting w) hk (hkne w) ?_ fun j hj => ?_
      nodup := h.nodup
      made := fun u => h.made_update ht u
      tagged := h.tagged.move (fun u => (hth .wait u).1) (fun u hu => ?_) ?_
      tdlNr := fun p => ?_
      wlTdnr := fun v => ?_
      threadnr := ?_
      cpuidle := h.cpuidle
      idleNew := h.idleNew
      currtd := ⟨t, hcur, Or.inr ht⟩
      schdflgs := h.schdflgs }
    · simp only [Sched.listOf, setWlst_self, krlwlstAddThread]
      rfl
    · cases j with
      | ready q =>
          by_cases hq : q = (s.thread t).tdPriority
          · subst hq
            simp only [Sched.listOf, setWlst_schda, setThdlst_self]
            rfl
          · simp only [Sched.listOf, setWlst_schda, setThdlst_of_ne _ _ _ hq]
            rfl
      | running q =>
          by_cases hq : q = (s.thread t).tdPriority
          · subst hq
            simp only [Sched.listOf, setWlst_schda, setThdlst_self]
            exact leave_curruntd _ t
          · rw [List.erase_of_not_mem (h.not_running hq)]
            simp only [Sched.listOf, setWlst_schda, setThdlst_of_ne _ _ _ hq]
            rfl
      | waiting v =>
          have hv : v ≠ w := fun hv => hj (by rw [hv])
          simp only [Sched.listOf, setWlst_of_ne _ _ _ hv]
          rfl
      | exited => rfl
    · rw [setWlst_thread, setThdlst_thread, listDel_thread, (hth .wait u).2, if_neg hu]
    · rw [setWlst_thread, setThdlst_thread, listDel_thread]
      exact ((hth .wait t).2.trans (if_pos rfl))
    · by_cases hp : p = (s.thread t).tdPriority
      · subst hp
        simp only [Sched.listOf, setWlst_schda, setThdlst_self, leave_curruntd]
        simp only [Sched.listOf] at hlen hnr
        show (s.schda.sdaThdlst _).tdlNr - 1 = _
        rw [hnr, hlen, Nat.add_sub_cancel]
        rfl
      · simp only [Sched.listOf, setWlst_schda, setThdlst_of_ne _ _ _ hp]
        show (s.schda.sdaThdlst p).tdlNr = ((s.listOf (.ready p)).erase t).length
          + (s.listOf (.running p)).length
        rw [List.erase_of_not_mem (h.not_ready hp)]
        exact h.tdlNr p
    · by_cases hv : v = w
      · subst hv
        simp only [Sched.listOf, setWlst_self, krlwlstAddThread, List.length_cons]
        show (s.wlst v).wlTdnr + 1 = ((s.wlst v).wlList.erase t).length + 1
        rw [hout v]
        exact congrArg (· + 1) (h.wlTdnr v)
      · simp only [Sched.listOf, setWlst_of_ne _ _ _ hv]
        show (s.wlst v).wlTdnr = ((s.wlst v).wlList.erase t).length
        rw [hout v]
        exact h.wlTdnr v
    · have hex : (s.listOf .exited).erase t = s.listOf .exited := by
        refine h.placed.erase_ne hk ?_
        rintro rfl
        exact hst.2 (h.tagged.exits t hk)
      show s.schda.sdaThreadnr + ((s.listOf .exited).erase t).length = created.length
      rw [hex]
      exact h.threadnr
  · rw [setWlst_self]
    show krlwlstAddThread ⟨(s.wlst w).wlTdnr, (s.wlst w).wlList.erase t⟩ t = _
    rw [hout w]
  · rw [setWlst_of_ne _ _ _ hv]
    show (⟨(s.wlst v).wlTdnr, (s.wlst v).wlList.erase t⟩ : Kwlst) = _
    rw [hout v]

/-- **`krlsched_up`** puts the first thread of a wait list last on its ready
list. -/
theorem krlschedUp_inv (h : SchedInv s idle created plc) {w t : Nat} {l : List Nat}
    (hw : (s.wlst w).wlList = t :: l) :
    ∃ s', krlschedUp s w = .ok s' ∧
      SchedInv s' idle created
        (Function.update plc t (some (.ready (s.thread t).tdPriority))) ∧
      (s'.wlst w).wlList = l ∧ (∀ v, v ≠ w → s'.wlst v = s.wlst v) := by
  have hat : plc t = some (.waiting w) := by
    refine (h.placed.mem (.waiting w) t).mp ?_
    show t ∈ (s.wlst w).wlList
    rw [hw]
    exact List.mem_cons_self
  have ht : t ∈ created := by
    rw [h.made t, hat]
    rfl
  have hpity := h.tagged.pity t ht
  have hnr : (s.wlst w).wlTdnr = l.length + 1 := by
    rw [h.wlTdnr w]
    show (s.wlst w).wlList.length = _
    rw [hw, List.length_cons]
  have hdel : krlwlstDelThread (s.wlst w) = (⟨l.length, l⟩, some t) := by
    unfold krlwlstDelThread
    rw [hw]
    simp only
    rw [if_neg (by omega), hnr, Nat.add_sub_cancel]
  have hth := setStus_thread (s.setWlst w ⟨l.length, l⟩) t
  unfold krlschedUp
  rw [hdel]
  simp only
  rw [if_neg (by omega)]
  refine ⟨_, rfl, ?_, ?_, fun v hv => ?_⟩
  · refine {
      placed := h.placed.move (.waiting w) (.ready (s.thread t).tdPriority) hat (by simp)
        ?_ ?_ fun j hj hj' => ?_
      nodup := h.nodup
      made := fun u => h.made_update ht u
      tagged := h.tagged.move (fun u => (hth .run u).1) (fun u hu => ?_) (hth .run t).1.symm
      tdlNr := fun p => ?_
      wlTdnr := fun v => ?_
      threadnr := h.threadnr
      cpuidle := h.cpuidle
      idleNew := h.idleNew
      currtd := h.currtd
      schdflgs := h.schdflgs }
    · simp only [Sched.listOf, setThdlst_wlst, setStus_wlst, setWlst_self, hw,
        List.erase_cons_head]
    · simp only [Sched.listOf, setThdlst_self, setStus_schda, setWlst_schda]
      exact List.perm_append_singleton t _
    · cases j with
      | ready q =>
          have hq : q ≠ (s.thread t).tdPriority := fun hq => hj' (by rw [hq])
          simp only [Sched.listOf, setThdlst_of_ne _ _ _ hq, setStus_schda, setWlst_schda]
      | running q =>
          by_cases hq : q = (s.thread t).tdPriority
          · subst hq
            simp only [Sched.listOf, setThdlst_self, setStus_schda, setWlst_schda]
          · simp only [Sched.listOf, setThdlst_of_ne _ _ _ hq, setStus_schda, setWlst_schda]
      | waiting v =>
          have hv : v ≠ w := fun hv => hj (by rw [hv])
          simp only [Sched.listOf, setThdlst_wlst, setStus_wlst, setWlst_of_ne _ _ _ hv]
      | exited => rfl
    · rw [setThdlst_thread, (hth .run u).2, if_neg hu]
      rfl
    · by_cases hp : p = (s.thread t).tdPriority
      · subst hp
        simp only [Sched.listOf, setThdlst_self, setStus_schda, setWlst_schda,
          List.length_append, List.length_singleton]
        have hp := h.tdlNr (s.thread t).tdPriority
        simp only [Sched.listOf] at hp
        omega
      · simp only [Sched.listOf, setThdlst_of_ne _ _ _ hp, setStus_schda, setWlst_schda]
        exact h.tdlNr p
    · by_cases hv : v = w
      · subst hv
        simp only [Sched.listOf, setThdlst_wlst, setStus_wlst, setWlst_self]
      · simp only [Sched.listOf, setThdlst_wlst, setStus_wlst, setWlst_of_ne _ _ _ hv]
        exact h.wlTdnr v
  · rw [setThdlst_wlst, setStus_wlst, setWlst_self]
  · rw [setThdlst_wlst, setStus_wlst, setWlst_of_ne _ _ _ hv]

/-- **`krlsched_exit`** takes the current thread out for good. -/
theorem krlschedExit_inv (h : SchedInv s idle created plc) {t : Nat} (ht : t ∈ created)
    (hcur : s.schda.sdaCurrtd = some t)
    (hst : (s.thread t).tdStus ≠ .wait ∧ (s.thread t).tdStus ≠ .exit) :
    ∃ s', krlschedExit s = .ok s' ∧
      SchedInv s' idle created (Function.update plc t (some .exited)) ∧
      s'.wlst = s.wlst := by
  have hown := h.at_own ht hst
  have hlen := h.leave_length hown
  have hpity := h.tagged.pity t ht
  have hnr := h.tdlNr (s.thread t).tdPriority
  have hidle : t ≠ idle := by
    rintro rfl
    exact h.idleNew ht
  obtain ⟨k, hk, hkne⟩ : ∃ k, plc t = some k ∧ k ≠ .exited := by
    rcases hown with hk | hk
    · exact ⟨_, hk, by simp⟩
    · exact ⟨_, hk, by simp⟩
  have hth := setStus_thread
  have hnot : t ∉ s.listOf .exited := h.placed.not_mem hk (Ne.symm hkne)
  -- an exit can only come from a thread that has not exited
  have hroom : (s.listOf .exited).length + 1 ≤ created.length := by
    have hnd : (t :: s.listOf .exited).Nodup := List.nodup_cons.mpr ⟨hnot, h.placed.nodup _⟩
    refine (List.subperm_of_subset hnd fun u hu => ?_).length_le
    rcases List.mem_cons.mp hu with rfl | hu
    · exact ht
    · rw [h.made u, (h.placed.mem _ u).mp hu]
      rfl
  have hnum := h.threadnr
  have hout : ∀ v, (s.wlst v).wlList.erase t = (s.wlst v).wlList := by
    intro v
    refine h.placed.erase_ne hk (j := .waiting v) ?_
    rintro rfl
    exact hst.1 (h.tagged.waits t v hk)
  unfold krlschedExit krlschedRetnCurrthread krlschedRetnIdlethread
  simp only [hcur, h.cpuidle]
  rw [if_neg hidle, if_neg (by omega), if_neg (by omega)]
  refine ⟨_, rfl, ?_, ?_⟩
  rotate_left
  · funext v
    show (⟨(s.wlst v).wlTdnr, (s.wlst v).wlList.erase t⟩ : Kwlst) = _
    rw [hout v]
  unfold krlschdclassDelThreadAddexit
  refine {
    placed := h.placed.relink k .exited hk hkne rfl fun j hj => ?_
    nodup := h.nodup
    made := fun u => h.made_update ht u
    tagged := h.tagged.move (fun u => (hth _ t .exit u).1) (fun u hu => ?_)
      ((hth _ t .exit t).2.trans (if_pos rfl))
    tdlNr := fun p => ?_
    wlTdnr := fun v => ?_
    threadnr := ?_
    cpuidle := h.cpuidle
    idleNew := h.idleNew
    currtd := ⟨t, hcur, Or.inr ht⟩
    schdflgs := h.schdflgs }
  · cases j with
    | ready q =>
        by_cases hq : q = (s.thread t).tdPriority
        · subst hq
          simp only [Sched.listOf, setStus_schda, Sched.listDel, setThdlst_self]
          rfl
        · simp only [Sched.listOf, setStus_schda, Sched.listDel, setThdlst_of_ne _ _ _ hq]
    | running q =>
        by_cases hq : q = (s.thread t).tdPriority
        · subst hq
          simp only [Sched.listOf, setStus_schda, Sched.listDel, setThdlst_self]
          exact leave_curruntd _ t
        · rw [List.erase_of_not_mem (h.not_running hq)]
          simp only [Sched.listOf, setStus_schda, Sched.listDel, setThdlst_of_ne _ _ _ hq]
    | waiting v => rfl
    | exited => exact absurd rfl hj
  · exact (hth _ t .exit u).2.trans (if_neg hu)
  · by_cases hp : p = (s.thread t).tdPriority
    · subst hp
      simp only [Sched.listOf, setStus_schda, Sched.listDel, setThdlst_self, leave_curruntd]
      simp only [Sched.listOf] at hlen hnr
      show (s.schda.sdaThdlst _).tdlNr - 1 = _
      rw [hnr, hlen, Nat.add_sub_cancel]
      rfl
    · simp only [Sched.listOf, setStus_schda, Sched.listDel, setThdlst_of_ne _ _ _ hp]
      show (s.schda.sdaThdlst p).tdlNr = ((s.listOf (.ready p)).erase t).length
        + (s.listOf (.running p)).length
      rw [List.erase_of_not_mem (h.not_ready hp)]
      exact h.tdlNr p
  · show (s.wlst v).wlTdnr = ((s.wlst v).wlList.erase t).length
    rw [hout v]
    exact h.wlTdnr v
  · show s.schda.sdaThreadnr - 1 + (t :: (s.listOf .exited).erase t).length = created.length
    rw [List.erase_of_not_mem hnot, List.length_cons]
    omega

/-! ## Choosing -/

theorem selectOn_cases {l l' : Thrdlst} {t : Nat} (h : selectOn s l = some (l', t)) :
    (t ∈ l.tdlLsth ∧ l' = { l with
      tdlLsth := l.tdlLsth.erase t ++ l.tdlCurruntd.toList, tdlCurruntd := some t }) ∨
    (l.tdlCurruntd = some t ∧ l' = l) := by
  unfold selectOn at h
  cases hf : l.tdlLsth.find? fun u => (s.thread u).tdStus.canRun with
  | some u =>
      rw [hf] at h
      simp only [Option.some.injEq, Prod.mk.injEq] at h
      obtain ⟨rfl, rfl⟩ := h
      exact Or.inl ⟨List.mem_of_find?_eq_some hf, rfl⟩
  | none =>
      rw [hf] at h
      simp only [Option.map_eq_some_iff, Prod.mk.injEq] at h
      obtain ⟨c, hc, rfl, rfl⟩ := h
      exact Or.inr ⟨hc, rfl⟩

theorem selectLoop_some {n p t : Nat} {s' : Sched} (h : selectLoop s n p = some (s', t)) :
    ∃ q l', selectOn s (s.schda.sdaThdlst q) = some (l', t) ∧ s' = s.setThdlst q l' := by
  induction n generalizing p with
  | zero => cases h
  | succ n ih =>
      rw [selectLoop] at h
      cases ho : selectOn s (s.schda.sdaThdlst p) with
      | none =>
          rw [ho] at h
          exact ih h
      | some r =>
          obtain ⟨l', u⟩ := r
          rw [ho] at h
          simp only [Option.some.injEq, Prod.mk.injEq] at h
          obtain ⟨rfl, rfl⟩ := h
          exact ⟨p, l', ho, rfl⟩

/-- The chosen thread changes places with the one kept in `tdl_curruntd`. -/
theorem select_placed (h : SchedInv s idle created plc) {q t : Nat}
    (ht : t ∈ (s.schda.sdaThdlst q).tdlLsth) :
    ∃ plc', Placed (s.setThdlst q { s.schda.sdaThdlst q with
        tdlLsth := (s.schda.sdaThdlst q).tdlLsth.erase t
          ++ (s.schda.sdaThdlst q).tdlCurruntd.toList
        tdlCurruntd := some t }).listOf plc' ∧
      Tagged s.thread created plc' ∧ (∀ u, u ∈ created ↔ (plc' u).isSome = true) ∧
      plc' t = some (.running q) := by
  have hat : plc t = some (.ready q) := (h.placed.mem (.ready q) t).mp ht
  have hown := h.tagged.own t q (Or.inl hat)
  have hcreated : t ∈ created := by
    rw [h.made t, hat]
    rfl
  cases hc : (s.schda.sdaThdlst q).tdlCurruntd with
  | none =>
      refine ⟨Function.update plc t (some (.running q)),
        h.placed.move (.ready q) (.running q) hat (by simp) ?_ ?_ fun j hj hj' => ?_,
        h.tagged.move (fun _ => rfl) (fun _ _ => rfl) hown, fun u => h.made_update hcreated u,
        Function.update_self _ _ _⟩
      · simp only [Sched.listOf, setThdlst_self, Option.toList_none, List.append_nil]
      · simp only [Sched.listOf, setThdlst_self, hc]
        rfl
      · cases j with
        | ready p =>
            have hp : p ≠ q := fun hp => hj (by rw [hp])
            simp only [Sched.listOf, setThdlst_of_ne _ _ _ hp]
        | running p =>
            have hp : p ≠ q := fun hp => hj' (by rw [hp])
            simp only [Sched.listOf, setThdlst_of_ne _ _ _ hp]
        | waiting w => rfl
        | exited => rfl
  | some c =>
      -- the thread kept apart goes back first
      have hatc := h.at_running hc
      have hcc : c ∈ created := by
        rw [h.made c, hatc]
        rfl
      have hownc := h.tagged.own c q (Or.inr hatc)
      have hne : t ≠ c := by
        rintro rfl
        rw [hat] at hatc
        cases hatc
      have hback : Placed (s.setThdlst q { s.schda.sdaThdlst q with
          tdlLsth := (s.schda.sdaThdlst q).tdlLsth ++ [c], tdlCurruntd := none }).listOf
          (Function.update plc c (some (.ready q))) := by
        refine h.placed.move (.running q) (.ready q) hatc (by simp) ?_ ?_ fun j hj hj' => ?_
        · simp only [Sched.listOf, setThdlst_self, hc]
          simp
        · simp only [Sched.listOf, setThdlst_self]
          exact List.perm_append_singleton c _
        · cases j with
          | ready p =>
              have hp : p ≠ q := fun hp => hj' (by rw [hp])
              simp only [Sched.listOf, setThdlst_of_ne _ _ _ hp]
          | running p =>
              have hp : p ≠ q := fun hp => hj (by rw [hp])
              simp only [Sched.listOf, setThdlst_of_ne _ _ _ hp]
          | waiting w => rfl
          | exited => rfl
      have hat' : Function.update plc c (some (.ready q)) t = some (.ready q) := by
        rw [Function.update_of_ne hne]
        exact hat
      have htag : Tagged s.thread created (Function.update plc c (some (.ready q))) :=
        h.tagged.move (fun _ => rfl) (fun _ _ => rfl) hownc
      refine ⟨Function.update (Function.update plc c (some (.ready q))) t (some (.running q)),
        hback.move (.ready q) (.running q) hat' (by simp) ?_ ?_ fun j hj hj' => ?_,
        htag.move (fun _ => rfl) (fun _ _ => rfl) hown, fun u => ?_, Function.update_self _ _ _⟩
      · simp only [Sched.listOf, setThdlst_self, Option.toList_some]
        exact (List.erase_append_left _ ht).symm
      · simp only [Sched.listOf, setThdlst_self]
        rfl
      · cases j with
        | ready p =>
            have hp : p ≠ q := fun hp => hj (by rw [hp])
            simp only [Sched.listOf, setThdlst_of_ne _ _ _ hp]
        | running p =>
            have hp : p ≠ q := fun hp => hj' (by rw [hp])
            simp only [Sched.listOf, setThdlst_of_ne _ _ _ hp]
        | waiting w => rfl
        | exited => rfl
      · by_cases hu : u = t
        · subst hu
          simp [hcreated]
        · rw [Function.update_of_ne hu]
          exact h.made_update hcc u

/-- **`krlsched_select_thread`** keeps the invariant; it returns the idle thread
or one that it keeps in `tdl_curruntd`. -/
theorem krlschedSelectThread_inv (h : SchedInv s idle created plc) :
    ∃ s' t plc', krlschedSelectThread s = .ok (s', t) ∧ SchedInv s' idle created plc' ∧
      (t = idle ∨ plc' t = some (.running (s'.thread t).tdPriority)) ∧
      s'.thread = s.thread ∧ s'.wlst = s.wlst := by
  unfold krlschedSelectThread
  cases hl : selectLoop s prityMax 0 with
  | none =>
      have hid : krlschedRetnIdlethread s = .ok idle := by
        unfold krlschedRetnIdlethread
        rw [h.cpuidle]
      simp only [hid]
      exact ⟨_, idle, plc, rfl, { h with placed := ⟨h.placed.nodup, h.placed.mem⟩ },
        Or.inl rfl, rfl, rfl⟩
  | some r =>
      obtain ⟨s', t⟩ := r
      obtain ⟨q, l', ho, rfl⟩ := selectLoop_some hl
      rcases selectOn_cases ho with ⟨ht, rfl⟩ | ⟨hc, rfl⟩
      · obtain ⟨plc', hplaced, htag, hmade, hat⟩ := select_placed h ht
        have hown := htag.own t q (Or.inr hat)
        refine ⟨_, t, plc', rfl, {
          placed := hplaced
          nodup := h.nodup
          made := hmade
          tagged := htag
          tdlNr := fun p => ?_
          wlTdnr := h.wlTdnr
          threadnr := h.threadnr
          cpuidle := h.cpuidle
          idleNew := h.idleNew
          currtd := h.currtd
          schdflgs := h.schdflgs }, Or.inr ?_, rfl, rfl⟩
        · by_cases hp : p = q
          · subst hp
            have hnr := h.tdlNr p
            have hpos := List.length_pos_of_mem ht
            simp only [Sched.listOf] at hnr
            simp only [Sched.listOf, setThdlst_self, List.length_append, Option.toList_some,
              List.length_singleton, List.length_erase_of_mem ht]
            omega
          · simp only [Sched.listOf, setThdlst_of_ne _ _ _ hp]
            exact h.tdlNr p
        · rw [hat, setThdlst_thread, ← hown]
      · have hsame : s.setThdlst q (s.schda.sdaThdlst q) = s := by
          unfold Sched.setThdlst
          rw [Function.update_eq_self]
        have hat := h.at_running hc
        rw [hsame]
        exact ⟨s, t, plc, rfl, h, Or.inr (by rw [hat, ← h.tagged.own t q (Or.inr hat)]), rfl,
          rfl⟩

/-- **`krlschedul`** keeps the invariant; the thread that runs next is the idle
thread or is kept in `tdl_curruntd`. -/
theorem krlschedul_inv (h : SchedInv s idle created plc) :
    ∃ s' t plc', krlschedul s = .ok s' ∧ SchedInv s' idle created plc' ∧
      s'.schda.sdaCurrtd = some t ∧
      (t = idle ∨ plc' t = some (.running (s'.thread t).tdPriority)) ∧ s'.wlst = s.wlst := by
  obtain ⟨c, hcur, _⟩ := h.currtd
  obtain ⟨s', t, plc', hsel, h', ht, _, hwl⟩ := krlschedSelectThread_inv h
  have hin : t = idle ∨ t ∈ created := by
    rcases ht with rfl | hat
    · exact Or.inl rfl
    · refine Or.inr ?_
      rw [h'.made t, hat]
      rfl
  unfold krlschedul krlschedRetnCurrthread
  rw [if_neg h.schdflgs]
  simp only [hcur, hsel]
  unfold toNewContext
  simp only
  by_cases hnew : (s'.thread t).tdStus = .new
  · rw [if_pos hnew]
    have hth := setStus_thread { s' with schda := { s'.schda with sdaCurrtd := some t } } t .run
    refine ⟨_, t, plc', rfl, ?_, rfl, ?_, hwl⟩
    · refine { h' with
        placed := ⟨h'.placed.nodup, h'.placed.mem⟩
        tagged := ?_
        currtd := ⟨t, rfl, hin⟩ }
      -- a thread that never ran neither waits nor has exited
      refine ⟨fun u p hu => ?_, fun u hu => ?_, fun u w hu => ?_, fun u hu => ?_⟩
      · rw [(hth u).1]
        exact h'.tagged.own u p hu
      · rw [(hth u).1]
        exact h'.tagged.pity u hu
      · have hw := h'.tagged.waits u w hu
        have hut : u ≠ t := by
          rintro rfl
          rw [hnew] at hw
          cases hw
        rw [(hth u).2, if_neg hut]
        exact hw
      · have hx := h'.tagged.exits u hu
        have hut : u ≠ t := by
          rintro rfl
          rw [hnew] at hx
          cases hx
        rw [(hth u).2, if_neg hut]
        exact hx
    · rw [(hth t).1]
      exact ht
  · rw [if_neg hnew]
    exact ⟨_, t, plc', rfl, { h' with
      placed := ⟨h'.placed.nodup, h'.placed.mem⟩
      currtd := ⟨t, rfl, hin⟩ }, rfl, ht, hwl⟩

/-- **`krlschdclass_add_thread`** of a new thread. -/
theorem krlschdclassAddThread_inv (h : SchedInv s idle created plc) {t pity : Nat}
    (ht : t ∉ created) (hidle : t ≠ idle) (hpity : pity < prityMax) :
    SchedInv (krlschdclassAddThread (s.newThread t pity) t) idle (t :: created)
      (Function.update plc t (some (.ready pity))) := by
  have hnone : plc t = none := by
    have hm := h.made t
    rw [Option.isSome_iff_ne_none] at hm
    by_contra hne
    exact ht (hm.mpr hne)
  have hth : ∀ u, u ≠ t → (s.newThread t pity).thread u = s.thread u := fun u hu =>
    Function.update_of_ne hu _ _
  have hself : (s.newThread t pity).thread t = ⟨.new, pity⟩ := Function.update_self _ _ _
  have hof : (krlschdclassAddThread (s.newThread t pity) t).listOf
      = ((s.newThread t pity).setThdlst pity { s.schda.sdaThdlst pity with
          tdlLsth := t :: (s.schda.sdaThdlst pity).tdlLsth
          tdlNr := (s.schda.sdaThdlst pity).tdlNr + 1 }).listOf := by
    unfold krlschdclassAddThread
    rw [hself]
    rfl
  have hlst : (krlschdclassAddThread (s.newThread t pity) t).schda.sdaThdlst
      = Function.update s.schda.sdaThdlst pity { s.schda.sdaThdlst pity with
          tdlLsth := t :: (s.schda.sdaThdlst pity).tdlLsth
          tdlNr := (s.schda.sdaThdlst pity).tdlNr + 1 } := by
    unfold krlschdclassAddThread
    rw [hself]
    rfl
  refine {
    placed := ?_
    nodup := List.nodup_cons.mpr ⟨ht, h.nodup⟩
    made := fun u => ?_
    tagged := ⟨fun u p hu => ?_, fun u hu => ?_, fun u w hu => ?_, fun u hu => ?_⟩
    tdlNr := fun p => ?_
    wlTdnr := h.wlTdnr
    threadnr := ?_
    cpuidle := h.cpuidle
    idleNew := by simp [Ne.symm hidle, h.idleNew]
    currtd := ?_
    schdflgs := h.schdflgs }
  · rw [hof]
    refine h.placed.add (.ready pity) hnone ?_ fun j hj => ?_
    · simp only [Sched.listOf, setThdlst_self]
      exact List.Perm.refl _
    · cases j with
      | ready p =>
          have hp : p ≠ pity := fun hp => hj (by rw [hp])
          simp only [Sched.listOf, setThdlst_of_ne _ _ _ hp]
          rfl
      | running p =>
          by_cases hp : p = pity
          · subst hp
            simp only [Sched.listOf, setThdlst_self]
          · simp only [Sched.listOf, setThdlst_of_ne _ _ _ hp]
            rfl
      | waiting w => rfl
      | exited => rfl
  · by_cases hu : u = t
    · subst hu
      simp
    · rw [Function.update_of_ne hu, List.mem_cons, or_iff_right hu]
      exact h.made u
  · by_cases hut : u = t
    · subst hut
      rw [Function.update_self, Option.some.injEq, Option.some.injEq] at hu
      rcases hu with hu | hu
      · cases hu
        exact (congrArg Thread.tdPriority hself).symm
      · cases hu
    · rw [Function.update_of_ne hut] at hu
      have hown := h.tagged.own u p hu
      rw [← hth u hut] at hown
      exact hown
  · by_cases hut : u = t
    · subst hut
      show ((s.newThread u pity).thread u).tdPriority < prityMax
      rw [hself]
      exact hpity
    · have hlt := h.tagged.pity u ((List.mem_cons.mp hu).resolve_left hut)
      rw [← hth u hut] at hlt
      exact hlt
  · by_cases hut : u = t
    · subst hut
      rw [Function.update_self] at hu
      cases hu
    · rw [Function.update_of_ne hut] at hu
      have hw := h.tagged.waits u w hu
      rw [← hth u hut] at hw
      exact hw
  · by_cases hut : u = t
    · subst hut
      rw [Function.update_self] at hu
      cases hu
    · rw [Function.update_of_ne hut] at hu
      have hx := h.tagged.exits u hu
      rw [← hth u hut] at hx
      exact hx
  · have hnr := h.tdlNr p
    simp only [Sched.listOf] at hnr
    simp only [Sched.listOf, hlst]
    by_cases hp : p = pity
    · subst hp
      simp only [Function.update_self, List.length_cons]
      omega
    · simp only [Function.update_of_ne hp]
      exact hnr
  · have hnum := h.threadnr
    show s.schda.sdaThreadnr + 1 + (s.listOf .exited).length = (t :: created).length
    rw [List.length_cons]
    omega
  · obtain ⟨c, hc, hcc⟩ := h.currtd
    refine ⟨c, hc, hcc.imp_right fun hm => List.mem_cons_of_mem _ hm⟩

end Inv

end Cosmos.Kernel
