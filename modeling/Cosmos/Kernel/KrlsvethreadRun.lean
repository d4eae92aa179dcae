import Cosmos.Kernel.Krlsvethread

/-!
# Every order of calls and timer ticks

A thread is on a ready list before its program is mapped.  What a call does to the new
address space is known at each of its steps: `ExelInv`.

## Main results

* `runnable_mapped` and `runnable_not_mapped` : when the program of every runnable thread is
  mapped, and a run in which the timer selects a thread without one.
-/

namespace Cosmos.Kernel

open Cosmos.Lib Cosmos.Lib.Run Cosmos.Lib.StM Cosmos.Lib.Word64 Cosmos.Lib.Ranges Cosmos.Hal

/-- The objects are in use. -/
def Held (l : List Nat) (s : VmaSt) : Prop := ∀ a ∈ l, a ∈ s.kms.out

/-- The address space of a user, as it begins. -/
def NewSpace (vma : Virmemadrs) : Prop :=
  ∃ x y z, [x, y, z].Nodup ∧ vma = virmemadrsInit.initUser x y z

section Objects

variable {l : List Nat} {vma : Virmemadrs} {a : Nat}

theorem Held.cons_iff {s : VmaSt} : Held (a :: l) s ↔ a ∈ s.kms.out ∧ Held l s :=
  List.forall_mem_cons

/-! ## A thread is made -/

theorem kmsobTake_held (l : List Nat) (vma : Virmemadrs) :
    Ensures (fun s => Held l s ∧ s.vma = vma) kmsobTake fun o s =>
      (∀ x ∈ o, x ∉ l) ∧ Held (o.toList ++ l) s ∧ s.vma = vma := by
  rintro s o s' ⟨hs, hv⟩ h
  cases h
  rcases s.kms.take_cases with ⟨ho, hout⟩ | ⟨x, ho, hx, hout⟩
  · rw [ho]
    refine ⟨fun x hx => (Option.not_mem_none x hx).elim, fun b hb => ?_, hv⟩
    show b ∈ s.kms.take.2.out
    rw [hout]
    exact hs b hb
  · rw [ho]
    refine ⟨fun y hy hl => ?_, Held.cons_iff.mpr ⟨?_, fun b hb => ?_⟩, hv⟩
    · cases hy
      exact hx (hs x hl)
    · show x ∈ s.kms.take.2.out
      rw [hout]
      exact List.mem_cons_self
    · show b ∈ s.kms.take.2.out
      rw [hout]
      exact List.mem_cons_of_mem _ (hs b hb)

/-- What is given back is not one of the others. -/
theorem kmsobGive_held (ha : a ∉ l) :
    Ensures (fun s => Held (a :: l) s ∧ s.vma = vma) (kmsobGive a) fun _ s =>
      Held l s ∧ s.vma = vma := by
  rintro s b s' ⟨hs, hv⟩ h
  cases h
  obtain ⟨hin, hl⟩ := Held.cons_iff.mp hs
  refine ⟨fun c hc => ?_, hv⟩
  show c ∈ (giveObj s.kms a).out
  rw [giveObj_out hin]
  have hne : c ≠ a := fun he => ha (he ▸ hc)
  exact (List.mem_erase_of_ne hne).mpr (hl c hc)

theorem delMmadrsdsc_held (ha : a ∉ l) (cr3 : PageFrame) :
    Ensures (fun s => Held (a :: l) s ∧ s.vma = vma) (delMmadrsdsc a cr3) fun _ s => Held l s := by
  rintro s b s' hs h
  obtain ⟨ok, s₁, h₁, h⟩ := run_bind_inv h
  obtain ⟨hal, -, rfl⟩ := onMmu_inv h₁
  have hs₁ : Held (a :: l) { s with hal := hal } ∧ s.vma = vma := hs
  cases ok with
  | false =>
      cases h
      exact (Held.cons_iff.mp hs₁.1).2
  | true => exact (kmsobGive_held ha _ b s' hs₁ h).1

theorem newMmadrsdsc_held (l : List Nat) (pml4 : Nat → Nat) :
    Ensures (Held l) (newMmadrsdsc pml4) fun o s =>
      (∀ mm ∈ o, mm ∉ l ∧ (s.vma = virmemadrsInit ∨ NewSpace s.vma)) ∧
        Held (o.toList ++ l) s := by
  intro s o s' hs h
  obtain ⟨o₁, s₁, h₁, h⟩ := run_bind_inv h
  obtain ⟨hnew, hheld, -⟩ := kmsobTake_held l s.vma s o₁ s₁ ⟨hs, rfl⟩ h₁
  cases o₁ with
  | none =>
      cases h
      exact ⟨fun mm hm => (Option.not_mem_none mm hm).elim, hheld⟩
  | some mm =>
      obtain ⟨_, _, h₂, h⟩ := run_bind_inv h
      cases h₂
      obtain ⟨b, s₂, hinit, h⟩ := run_bind_inv h
      obtain ⟨r, s₃, hmmu, h⟩ := run_bind_inv h
      cases h
      obtain ⟨hal, -, rfl⟩ := onMmu_inv hmmu
      rcases kvmaInituserspaceVirmemadrs_cases hinit with ⟨kms, hout, rfl⟩ | ⟨x, y, z, kms, hout, rfl⟩
      · refine ⟨fun m hm => ?_, fun a ha => hout.mem_iff.mpr (hheld a ha)⟩
        cases hm
        exact ⟨hnew mm rfl, Or.inl rfl⟩
      · have hnd := kms.nodup
        rw [hout] at hnd
        refine ⟨fun m hm => ?_, fun a ha => ?_⟩
        · cases hm
          refine ⟨hnew mm rfl, Or.inr ⟨x, y, z, ?_, rfl⟩⟩
          have hrev : [z, y, x].Nodup := hnd.sublist (List.sublist_append_left [z, y, x] _)
          exact List.nodup_reverse.mp hrev
        · show a ∈ kms.out
          rw [hout]
          exact List.mem_cons_of_mem _ (List.mem_cons_of_mem _ (List.mem_cons_of_mem _ (hheld a ha)))

/-- **`krlnew_user_thread_core`** makes a thread with a new address space. -/
theorem krlnewUserThreadCore_held (l : List Nat) (pml4 : Nat → Nat) (cr3 : PageFrame)
    (name usrstksz : Nat) :
    Ensures (Held l) (krlnewUserThreadCore pml4 cr3 name usrstksz) fun o s =>
      Held l s ∧ ∀ r ∈ o, r.1 ∉ l ∧ r.1 ∈ s.kms.out ∧ NewSpace s.vma := by
  intro s o s' hs h
  obtain ⟨o₁, s₁, h₁, h⟩ := run_bind_inv h
  obtain ⟨hmm, hheld⟩ := newMmadrsdsc_held l pml4 s o₁ s₁ hs h₁
  cases o₁ with
  | none =>
      cases h
      exact ⟨hheld, fun r hr => (Option.not_mem_none r hr).elim⟩
  | some mm =>
      obtain ⟨hfresh, hkind⟩ := hmm mm rfl
      -- a failure gives the address space back
      have hdel : ∀ {t : VmaSt} {b : Bool}, Held (mm :: l) t →
          (delMmadrsdsc mm cr3).run t = .ok (b, s') → Held l s' := fun ht hrun =>
        delMmadrsdsc_held hfresh cr3 _ _ _ ⟨ht, rfl⟩ hrun
      obtain ⟨_, _, h₂, h⟩ := run_bind_inv h
      cases h₂
      cases hst : s₁.vma.stack with
      | none =>
          rw [hst] at h
          obtain ⟨b, s₂, h₂, h⟩ := run_bind_inv h
          cases h
          exact ⟨hdel hheld h₂, fun r hr => (Option.not_mem_none r hr).elim⟩
      | some stack =>
          simp only [hst] at h
          have hspace : NewSpace s₁.vma := by
            refine hkind.resolve_left fun hinit => ?_
            rw [hinit] at hst
            cases hst
          split at h
          · obtain ⟨b, s₂, h₂, h⟩ := run_bind_inv h
            cases h
            exact ⟨hdel hheld h₂, fun r hr => (Option.not_mem_none r hr).elim⟩
          obtain ⟨o₂, s₂, h₂, h⟩ := run_bind_inv h
          obtain ⟨hstk, hheld₂, hvma₂⟩ := kmsobTake_held (mm :: l) s₁.vma s₁ o₂ s₂ ⟨hheld, rfl⟩ h₂
          cases o₂ with
          | none =>
              obtain ⟨b, s₃, h₃, h⟩ := run_bind_inv h
              cases h
              exact ⟨hdel hheld₂ h₃, fun r hr => (Option.not_mem_none r hr).elim⟩
          | some krlstkadr =>
              obtain ⟨o₃, s₃, h₃, h⟩ := run_bind_inv h
              obtain ⟨htd, hheld₃, hvma₃⟩ :=
                kmsobTake_held (krlstkadr :: mm :: l) s₁.vma s₂ o₃ s₃ ⟨hheld₂, hvma₂⟩ h₃
              cases o₃ with
              | none =>
                  obtain ⟨b, s₄, h₄, h⟩ := run_bind_inv h
                  obtain ⟨b', s₅, h₅, h⟩ := run_bind_inv h
                  cases h
                  obtain ⟨hheld₄, -⟩ := kmsobGive_held (hstk krlstkadr rfl) s₃ b s₄
                    ⟨hheld₃, hvma₃⟩ h₄
                  exact ⟨hdel hheld₄ h₅, fun r hr => (Option.not_mem_none r hr).elim⟩
              | some retTd =>
                  obtain ⟨_, s₄, h₄, h⟩ := run_bind_inv h
                  cases h
                  obtain ⟨hheld₄, hvma₄⟩ : Held (retTd :: krlstkadr :: mm :: l) s' ∧
                      s'.vma = s₁.vma := by
                    unfold threadName at h₄
                    split at h₄
                    · cases h₄
                      exact ⟨hheld₃, hvma₃⟩
                    · obtain ⟨o₅, s₅, h₅, h₄⟩ := run_bind_inv h₄
                      cases h₄
                      obtain ⟨-, hheld₅, hvma₅⟩ := kmsobTake_held _ s₁.vma s₃ o₅ s' ⟨hheld₃, hvma₃⟩ h₅
                      exact ⟨fun b hb => hheld₅ b (List.mem_append_right _ hb), hvma₅⟩
                  have hin := Held.cons_iff.mp hheld₄
                  refine ⟨fun b hb => hin.2 b (List.mem_cons_of_mem _ (List.mem_cons_of_mem _ hb)),
                    fun r hr => ?_⟩
                  cases hr
                  refine ⟨fun hl => ?_, hin.1, hvma₄ ▸ hspace⟩
                  exact htd retTd rfl (List.mem_cons_of_mem _ (List.mem_cons_of_mem _ hl))

end Objects

section Mapping

variable {l : List Nat} {vma : Virmemadrs} {s s' : VmaSt} {file : Nat × Nat} {len v : Nat}

/-! ## The program is mapped -/

theorem NewSpace.inOrder (h : NewSpace vma) : InOrder vma := by
  obtain ⟨x, y, z, -, rfl⟩ := h
  exact initUser_inOrder x y z

theorem NewSpace.adr_nodup (h : NewSpace vma) : (vma.vsList.map Kmvarsdsc.adr).Nodup := by
  obtain ⟨x, y, z, hnd, rfl⟩ := h
  rw [initUser_vsList]
  exact hnd

/-- No region of a new address space is one of a program. -/
theorem NewSpace.no_bin (h : NewSpace vma) : ∀ r ∈ vma.vsList, r.kvaMaptype ≠ kmvBinType := by
  obtain ⟨x, y, z, -, rfl⟩ := h
  rw [initUser_vsList]
  simp [kmvarsdscOf, kmvHeapType, kmvStackType, kmvBinType]

theorem NewSpace.not_mapped (h : NewSpace vma) (len : Nat) : ¬ ProgramMapped vma len :=
  fun ⟨r, hr, hbin, _⟩ => h.no_bin r hr hbin

/-- The region that holds an address is the one that is found. -/
theorem InOrder.find_eq (hv : InOrder vma) {r : Kmvarsdsc} (hr : r ∈ vma.vsList)
    (hlo : r.kvaStart ≤ v) (hhi : v < r.kvaEnd) : vmaMapFindKmvarsdsc vma v = some r := by
  cases hfind : vmaMapFindKmvarsdsc vma v with
  | none =>
      have hnone := (Option.or_eq_none_iff.mp hfind).2
      have hno := List.find?_eq_none.mp hnone r hr
      rw [Bool.and_eq_true, decide_eq_true_eq, decide_eq_true_eq] at hno
      exact absurd ⟨hlo, hhi⟩ hno
  | some c =>
      obtain ⟨hc, hclo, hchi⟩ := vmaMapFindKmvarsdsc_holds hfind
      exact congrArg some (hv.asc.unique hc hr ⟨hclo, hchi⟩ ⟨hlo, hhi⟩)

/-- `krlthread_execvl` allocates a region at the start of the program. -/
theorem krlthreadExecvl_alloced (h : krlthreadExecvl s file = some s') :
    ∃ ret ≠ 0, Alloced s.vma s.kms apprunStartVitrualaddr (vadszAlign file.2) 0 kmvBinType ret
      s'.vma s'.kms := by
  unfold krlthreadExecvl at h
  by_cases h0 : file.1 = 0 ∨ file.2 = 0
  · rw [if_pos h0] at h
    cases h
  rw [if_neg h0] at h
  split at h
  · cases h
  have hinit : kvmaInitdefaultVirmemadrs s.vma s.kms apprunStartVitrualaddr file.2 kmvBinType =
      vmaNewVadrs s.vma s.kms apprunStartVitrualaddr file.2 0 kmvBinType :=
    if_neg (not_or.mpr ⟨by decide, (not_or.mp h0).2⟩)
  rw [hinit] at h
  dsimp only at h
  split at h
  · cases h
  · rename_i hret
    cases h
    exact ⟨_, hret, (vmaNewVadrs_cases _ _ _ _ _ _).1⟩

/-- **`krlthread_execvl`** maps the program in a new address space. -/
theorem krlthreadExecvl_mapped (hns : NewSpace s.vma) (hfile : InKernelMap file)
    (h : krlthreadExecvl s file = some s') : ProgramMapped s'.vma file.2 := by
  obtain ⟨ret, hret, hcall⟩ := krlthreadExecvl_alloced h
  have hlo := hfile.lo
  have hhi := hfile.hi
  have hsz : vadszAlign file.2 = (file.2 + 0xfff) / 0x1000 * 0x1000 := by
    unfold vadszAlign
    rw [add64_eq (by omega)]
  have hnw : 0x100000 + vadszAlign file.2 < wordMod := by omega
  have hpos : 0 < file.2 := by
    unfold krlthreadExecvl at h
    split at h
    · cases h
    · omega
  obtain ⟨-, -, hord, -⟩ := (hcall.covers hns.inOrder hns.adr_nodup hnw).resolve_left
    fun hno => hret hno.1
  generalize s'.vma = vma' at hcall hord ⊢
  generalize s'.kms = kms' at hcall
  cases hcall with
  | refused kms' hout => exact absurd rfl hret
  | grown r hfits hstart hlike => exact absurd hlike.2.symm (hns.no_bin r hfits.mem)
  | added r hfits a kms' hnew hout lo hlo =>
      have hstart : ret = apprunStartVitrualaddr := hlo.trans (if_neg (by decide))
      subst hstart
      have hmem : newRegion a apprunStartVitrualaddr (vadszAlign file.2) 0 kmvBinType ∈
          (s.vma.link r (newRegion a apprunStartVitrualaddr (vadszAlign file.2) 0
            kmvBinType)).vsList :=
        (Chain.add_perm hns.adr_nodup hfits.mem).mem_iff.mpr List.mem_cons_self
      have hend : (newRegion a apprunStartVitrualaddr (vadszAlign file.2) 0 kmvBinType).kvaEnd =
          0x100000 + vadszAlign file.2 := add64_eq hnw
      refine ⟨_, hmem, rfl, rfl, ?_, hord.find_eq hmem (Nat.le_refl _) ?_⟩
      · rw [hend, hsz]
        show 0x100000 + _ ≤ _
        omega
      · rw [hend, hsz]
        show 0x100000 < _
        omega

/-- An allocation gives nothing back. -/
theorem Alloced.out_subset {kms kms' : Supply Nat} {vma' : Virmemadrs}
    {start vassize vaslimits vastype ret a : Nat}
    (h : Alloced vma kms start vassize vaslimits vastype ret vma' kms') (ha : a ∈ kms.out) :
    a ∈ kms'.out := by
  cases h with
  | refused kms' hout =>
      rw [hout]
      exact ha
  | grown r hfits hstart hlike => exact ha
  | added r hfits b kms' hnew hout lo hlo =>
      rw [hout]
      exact List.mem_cons_of_mem b ha

theorem krlthreadExecvlKms_subset {a : Nat} (ha : a ∈ s.kms.out) :
    a ∈ (krlthreadExecvlKms s file).out := by
  unfold krlthreadExecvlKms
  split
  · exact ha
  split
  · exact ha
  unfold kvmaInitdefaultVirmemadrs
  split
  · exact ha
  · exact (vmaNewVadrs_cases _ _ _ _ _ _).1.out_subset ha

end Mapping

section Scheduler

variable {idle t : Nat} {st st' : SchedState}

/-! ## Threads that can run -/

/-- The scheduler's invariant, and no thread waits or has exited. -/
structure SchedReady (idle : Nat) (st : SchedState) : Prop where
  inv : ∃ plc, SchedInv st.s idle st.created plc
  canRun : ∀ t ∈ st.created, (st.s.thread t).tdStus = .run ∨ (st.s.thread t).tdStus = .new

theorem krlschedSelectThread_thread {s s' : Sched} (h : krlschedSelectThread s = .ok (s', t)) :
    s'.thread = s.thread := by
  unfold krlschedSelectThread at h
  cases hl : selectLoop s prityMax 0 with
  | some r =>
      rw [hl] at h
      cases h
      obtain ⟨q, l', -, rfl⟩ := selectLoop_some hl
      rfl
  | none =>
      simp only [hl] at h
      split at h
      · cases h
      · cases h
        rfl

/-- `krlschedul` changes the status of no thread, but the next one runs. -/
theorem krlschedul_stus {s s' : Sched} (h : krlschedul s = .ok s') (u : Nat) :
    (s'.thread u).tdStus = (s.thread u).tdStus ∨ (s'.thread u).tdStus = .run := by
  unfold krlschedul at h
  split at h
  · split at h
    · cases h
    · cases h
      exact Or.inl rfl
  · split at h
    · cases h
    · split at h
      · cases h
      · rename_i s₁ next hsel
        cases h
        have hth := krlschedSelectThread_thread hsel
        unfold toNewContext
        dsimp only
        split
        · by_cases hu : u = next
          · subst hu
            right
            show (Function.update s₁.thread u _ u).tdStus = _
            rw [Function.update_self]
          · left
            show (Function.update s₁.thread next _ u).tdStus = _
            rw [Function.update_of_ne hu, hth]
        · left
          show (s₁.thread u).tdStus = _
          rw [hth]

theorem SchedReady.init (idle : Nat) : SchedReady idle (SchedState.init idle) :=
  ⟨⟨_, schedInit_inv idle⟩, fun _ ht => absurd ht List.not_mem_nil⟩

theorem SchedReady.schedul (h : SchedReady idle st) (hstep : schedStep st .schedul = .ok st') :
    SchedReady idle st' ∧ st'.created = st.created := by
  have hinv := schedStep_inv st .schedul st' h.inv (fun hl => by cases hl) hstep
  obtain ⟨s, hs, rfl⟩ := exists_of_map_ok hstep
  refine ⟨⟨hinv, fun t ht => ?_⟩, rfl⟩
  rcases krlschedul_stus hs t with he | he
  · show (s.thread t).tdStus = _ ∨ (s.thread t).tdStus = _
    rw [he]
    exact h.canRun t ht
  · exact Or.inl he

theorem SchedReady.addThread (h : SchedReady idle st)
    (hstep : schedStep st (.addThread t prityMin) = .ok st') :
    SchedReady idle st' ∧ st'.created = t :: st.created := by
  have hinv := schedStep_inv st _ st' h.inv (fun hl => by cases hl) hstep
  simp only [schedStep] at hstep
  split at hstep
  · cases hstep
  rename_i hnew
  cases hstep
  refine ⟨⟨hinv, fun u hu => ?_⟩, rfl⟩
  rcases List.mem_cons.mp hu with rfl | hu
  · right
    show (Function.update st.s.thread u _ u).tdStus = _
    rw [Function.update_self]
  · have hne : u ≠ t := fun he => hnew (Or.inl (he ▸ hu))
    have hth : (st.s.newThread t prityMin).thread u = st.s.thread u := Function.update_of_ne hne _ _
    have hrun := h.canRun u hu
    rw [← hth] at hrun
    exact hrun

/-- The threads that were made are the ones that are runnable, besides the idle thread. -/
theorem SchedReady.runnable_iff (h : SchedReady idle st) (ht : t ≠ idle) :
    Runnable st.s t ↔ t ∈ st.created := by
  obtain ⟨plc, hinv⟩ := h.inv
  constructor
  · rintro (⟨p, hp⟩ | hcur)
    · rw [hinv.made t]
      rcases hp with hp | hp
      · rw [(hinv.placed.mem _ t).mp hp]
        rfl
      · rw [(hinv.placed.mem _ t).mp hp]
        rfl
    · obtain ⟨c, hc, hcin⟩ := hinv.currtd
      rw [hcur] at hc
      cases hc
      exact hcin.resolve_left ht
  · intro hc
    obtain ⟨k, hk⟩ := Option.isSome_iff_exists.mp ((hinv.made t).mp hc)
    have hst := h.canRun t hc
    left
    cases k with
    | ready p => exact ⟨p, Or.inl ((hinv.placed.mem _ t).mpr hk)⟩
    | running p => exact ⟨p, Or.inr ((hinv.placed.mem _ t).mpr hk)⟩
    | waiting w =>
        rw [hinv.tagged.waits t w hk] at hst
        rcases hst with hst | hst <;> cases hst
    | exited =>
        rw [hinv.tagged.exits t hk] at hst
        rcases hst with hst | hst <;> cases hst

end Scheduler

section Calls

variable {idle i : Nat} {st : ExelSt} {c : ExelCall}

/-! ## Calls step by step -/

/-- What a call has done so far: the thread that it has made is on a ready list or not, and
has a new address space until the program is mapped. -/
def CallOk (created : List Nat) (td : Nat → Option (Mmadrsdsc × (Nat × Nat))) (c : ExelCall) :
    Prop :=
  ∀ t, c.pc.thread = some t → (t ∈ created ↔ c.pc ≠ .made t) ∧
    ∃ mm, td t = some (mm, c.file) ∧
      (c.pc = .mapped t → ProgramMapped mm.msdVirmemadrs c.file.2) ∧
      (c.pc ≠ .mapped t → NewSpace mm.msdVirmemadrs)

/-- **Every call is as far as it says**, and no two have made the same thread. -/
structure ExelInv (idle : Nat) (st : ExelSt) : Prop where
  sched : SchedReady idle st.sched
  idleHeld : idle ∈ st.cur.kms.out
  idleTd : st.td idle = none
  held : ∀ t, st.td t ≠ none → t ∈ st.cur.kms.out
  file : ∀ c ∈ st.calls, FileOk c.file
  call : ∀ (i : Nat) c, st.calls[i]? = some c → CallOk st.sched.created st.td c
  once : ∀ (i j : Nat) c d t, st.calls[i]? = some c → st.calls[j]? = some d →
    c.pc.thread = some t → d.pc.thread = some t → i = j
  owner : ∀ t ∈ st.sched.created, ∃ c ∈ st.calls, c.pc.thread = some t

theorem ExelInv.init {k : VmaSt} (h : idle ∈ k.kms.out) : ExelInv idle (ExelSt.init idle k) where
  sched := SchedReady.init idle
  idleHeld := h
  idleTd := rfl
  held _ ht := absurd rfl ht
  file _ hc := absurd hc List.not_mem_nil
  call i _ hc := by cases hc
  once i _ _ _ _ hc := by cases hc
  owner _ ht := absurd ht List.not_mem_nil

/-- The thread that a call has made has an address space. -/
theorem CallOk.td_ne {created : List Nat} {td : Nat → Option (Mmadrsdsc × (Nat × Nat))} {t : Nat}
    (h : CallOk created td c) (ht : c.pc.thread = some t) : td t ≠ none := by
  obtain ⟨-, mm, hmm, -⟩ := h t ht
  exact Option.ne_none_iff_exists'.mpr ⟨_, hmm⟩

/-- What happens to other threads does not concern a call. -/
theorem CallOk.congr {created created' : List Nat} {td td' : Nat → Option (Mmadrsdsc × (Nat × Nat))}
    (h : CallOk created td c)
    (hsame : ∀ t, c.pc.thread = some t → td' t = td t ∧ (t ∈ created' ↔ t ∈ created)) :
    CallOk created' td' c := by
  intro t ht
  obtain ⟨htd, hin⟩ := hsame t ht
  obtain ⟨hcr, mm, hmm, hspace⟩ := h t ht
  exact ⟨hin.trans hcr, mm, htd.trans hmm, hspace⟩

/-- The thread of a call that goes on is its own: the one it has had, or a new one. -/
theorem ExelInv.own (h : ExelInv idle st) (hi : st.calls[i]? = some c) {pc : ExelPc} {t : Nat}
    (hpc : pc.thread = c.pc.thread ∨ ∀ t, pc.thread = some t → st.td t = none)
    (ht : pc.thread = some t) {j : Nat} {d : ExelCall} (hj : st.calls[j]? = some d)
    (hd : d.pc.thread = some t) : i = j := by
  rcases hpc with hpc | hnew
  · exact h.once i j c d t hi hj (hpc ▸ ht) hd
  · exact absurd (hnew t ht) ((h.call j d hj).td_ne hd)

/-- **A call goes on**, and touches nothing but the thread that it makes. -/
theorem ExelInv.goes (h : ExelInv idle st) (hi : st.calls[i]? = some c) {sched : SchedState}
    {cur : VmaSt} {td : Nat → Option (Mmadrsdsc × (Nat × Nat))} {pc : ExelPc}
    (hsched : SchedReady idle sched) (hcur : ∀ a ∈ st.cur.kms.out, a ∈ cur.kms.out)
    (hsame : ∀ t, pc.thread ≠ some t →
      td t = st.td t ∧ (t ∈ sched.created ↔ t ∈ st.sched.created))
    (hheld : ∀ t, pc.thread = some t → t ≠ idle ∧ t ∈ cur.kms.out)
    (hpc : pc.thread = c.pc.thread ∨
      c.pc.thread = none ∧ ∀ t, pc.thread = some t → st.td t = none)
    (hcall : CallOk sched.created td { c with pc := pc }) :
    ExelInv idle
      (ExelSt.setPc { st with sched := sched, cur := cur, td := td } i c pc) := by
  have hlt : i < st.calls.length := (List.getElem?_eq_some_iff.mp hi).1
  have hget : ∀ (j : Nat) d, (st.calls.set i { c with pc := pc })[j]? = some d →
      i = j ∧ d = { c with pc := pc } ∨ i ≠ j ∧ st.calls[j]? = some d := by
    intro j d hd
    by_cases hij : i = j
    · subst hij
      rw [List.getElem?_set_self hlt] at hd
      cases hd
      exact Or.inl ⟨rfl, rfl⟩
    · rw [List.getElem?_set_ne hij] at hd
      exact Or.inr ⟨hij, hd⟩
  have hown := fun t (ht : pc.thread = some t) j d hj hd =>
    h.own hi (hpc.imp_right And.right) ht (j := j) (d := d) hj hd
  refine {
    sched := hsched
    idleHeld := hcur idle h.idleHeld
    idleTd := ?_
    held := fun t ht => ?_
    file := fun d hd => ?_
    call := fun j d hd => ?_
    once := fun j k d e t hd he hdt het => ?_
    owner := fun t ht => ?_ }
  · exact (hsame idle fun hs => (hheld idle hs).1 rfl).1.trans h.idleTd
  · by_cases hs : pc.thread = some t
    · exact (hheld t hs).2
    · exact hcur t (h.held t ((hsame t hs).1 ▸ ht))
  · rcases List.mem_or_eq_of_mem_set hd with hd | rfl
    · exact h.file d hd
    · exact h.file c (List.mem_of_getElem? hi)
  · rcases hget j d hd with ⟨rfl, rfl⟩ | ⟨hij, hd⟩
    · exact hcall
    · exact (h.call j d hd).congr fun t ht => hsame t fun hs => hij (hown t hs j d hd ht)
  · rcases hget j d hd with ⟨rfl, rfl⟩ | ⟨hij, hd⟩
    · rcases hget k e he with ⟨rfl, -⟩ | ⟨hik, he⟩
      · rfl
      · exact hown t hdt k e he het
    · rcases hget k e he with ⟨rfl, rfl⟩ | ⟨hik, he⟩
      · exact (hown t het j d hd hdt).symm
      · exact h.once j k d e t hd he hdt het
  · by_cases hs : pc.thread = some t
    · exact ⟨_, List.mem_set hlt _, hs⟩
    · obtain ⟨d, hd, hdt⟩ := h.owner t ((hsame t hs).2.mp ht)
      obtain ⟨j, hj⟩ := List.mem_iff_getElem?.mp hd
      have hij : i ≠ j := by
        rintro rfl
        rw [hi] at hj
        cases hj
        rcases hpc with hpc | ⟨hpc, -⟩
        · exact hs (hpc.trans hdt)
        · rw [hdt] at hpc
          cases hpc
      refine ⟨d, List.mem_iff_getElem?.mpr ⟨j, ?_⟩, hdt⟩
      show (st.calls.set i _)[j]? = some d
      rw [List.getElem?_set_ne hij]
      exact hj

/-- What a step of a call makes of the scheduler, the memory, the threads, and itself. -/
inductive Goes (st : ExelSt) (c : ExelCall) :
    SchedState → VmaSt → (Nat → Option (Mmadrsdsc × (Nat × Nat))) → ExelPc → Prop
  | refused (hpc : c.pc = .start) (cur : VmaSt) (hcur : ∀ a ∈ st.cur.kms.out, a ∈ cur.kms.out) :
      Goes st c st.sched cur st.td .refused
  | made (hpc : c.pc = .start) (cur : VmaSt) (hcur : ∀ a ∈ st.cur.kms.out, a ∈ cur.kms.out)
      (t : Nat) (hnew : t ∉ st.cur.kms.out) (hin : t ∈ cur.kms.out) (mm : Mmadrsdsc)
      (hspace : NewSpace mm.msdVirmemadrs) :
      Goes st c st.sched cur (Function.update st.td t (some (mm, c.file))) (.made t)
  | added (t : Nat) (hpc : c.pc = .made t) (sched : SchedState)
      (hadd : schedStep st.sched (.addThread t prityMin) = .ok sched) :
      Goes st c sched st.cur st.td (.added t)
  | unmapped (t : Nat) (hpc : c.pc = .added t) (cur : VmaSt)
      (hcur : ∀ a ∈ st.cur.kms.out, a ∈ cur.kms.out) :
      Goes st c st.sched cur st.td (.unmapped t)
  | mapped (t : Nat) (hpc : c.pc = .added t) (mm : Mmadrsdsc) (file : Nat × Nat)
      (htd : st.td t = some (mm, file)) (s : VmaSt)
      (hexec : krlthreadExecvl (st.cur.enter mm) file = some s) :
      Goes st c st.sched s (Function.update st.td t (some (s.leave mm.adr, file))) (.mapped t)

theorem exelGo_goes {pml4 : Nat → Nat} {cr3 : PageFrame} {st' : ExelSt}
    (h : exelGo pml4 cr3 st i c = .ok st') : ∃ sched cur td pc, Goes st c sched cur td pc ∧
      st' = ExelSt.setPc { st with sched := sched, cur := cur, td := td } i c pc := by
  unfold exelGo at h
  cases hpc : c.pc with
  | start =>
      simp only [hpc] at h
      split at h
      · cases h
        exact ⟨_, _, _, _, .refused hpc st.cur fun _ ha => ha, rfl⟩
      · cases hrun : (krlnewUserThreadCore pml4 cr3 c.name daftTdusrstksz).run st.cur with
        | error e =>
            rw [hrun] at h
            cases h
        | ok r =>
            obtain ⟨o, s⟩ := r
            obtain ⟨hheld, hmade⟩ := krlnewUserThreadCore_held st.cur.kms.out pml4 cr3 c.name
              daftTdusrstksz st.cur o s (fun _ ha => ha) hrun
            rw [hrun] at h
            cases o with
            | none =>
                cases h
                exact ⟨_, _, _, _, .refused hpc s hheld, rfl⟩
            | some r =>
                obtain ⟨t, mm⟩ := r
                obtain ⟨hnew, hin, hspace⟩ := hmade _ rfl
                cases h
                exact ⟨_, _, _, _, .made hpc s hheld t hnew hin _ hspace, rfl⟩
  | made t =>
      simp only [hpc] at h
      obtain ⟨sched, hadd, rfl⟩ := exists_of_map_ok h
      exact ⟨_, _, _, _, .added t hpc sched hadd, rfl⟩
  | added t =>
      simp only [hpc] at h
      cases htd : st.td t with
      | none =>
          rw [htd] at h
          cases h
      | some r =>
          obtain ⟨mm, file⟩ := r
          simp only [htd] at h
          cases hexec : krlthreadExecvl (st.cur.enter mm) file with
          | none =>
              rw [hexec] at h
              cases h
              exact ⟨_, _, _, _, .unmapped t hpc _ fun _ ha =>
                krlthreadExecvlKms_subset (s := st.cur.enter mm) ha, rfl⟩
          | some s =>
              rw [hexec] at h
              cases h
              exact ⟨_, _, _, _, .mapped t hpc mm file htd s hexec, rfl⟩
  | mapped t =>
      simp only [hpc] at h
      cases h
  | unmapped t =>
      simp only [hpc] at h
      cases h
  | refused =>
      simp only [hpc] at h
      cases h

/-- **A step of a call** keeps the invariant. -/
theorem ExelInv.goStep (h : ExelInv idle st) (hi : st.calls[i]? = some c) {sched : SchedState}
    {cur : VmaSt} {td : Nat → Option (Mmadrsdsc × (Nat × Nat))} {pc : ExelPc}
    (hgo : Goes st c sched cur td pc) :
    ExelInv idle
      (ExelSt.setPc { st with sched := sched, cur := cur, td := td } i c pc) := by
  have hcall := h.call i c hi
  have htid : ∀ {t}, c.pc.thread = some t → t ≠ idle ∧ t ∈ st.cur.kms.out := by
    intro t ht
    have hne := hcall.td_ne ht
    refine ⟨?_, h.held t hne⟩
    rintro rfl
    exact hne h.idleTd
  cases hgo with
  | refused hpc cur hcur =>
      refine h.goes hi h.sched hcur (fun _ _ => ⟨rfl, Iff.rfl⟩) (fun _ ht => by cases ht)
        (Or.inl ?_) fun _ ht => by cases ht
      rw [hpc]
      rfl
  | made hpc cur hcur t hnew hin mm hspace =>
      have htd : st.td t = none := by
        by_contra hne
        exact hnew (h.held t hne)
      have hthread : c.pc.thread = none := by
        rw [hpc]
        rfl
      refine h.goes hi h.sched hcur (fun u hu => ⟨Function.update_of_ne ?_ _ _, Iff.rfl⟩)
        (fun u hu => ?_) (Or.inr ⟨hthread, fun u hu => ?_⟩) fun u hu => ?_
      · rintro rfl
        exact hu rfl
      · cases hu
        refine ⟨?_, hin⟩
        rintro rfl
        exact hnew h.idleHeld
      · cases hu
        exact htd
      · cases hu
        refine ⟨iff_of_false (fun hc => ?_) fun hne => hne rfl, mm, Function.update_self _ _ _,
          fun he => (by cases he), fun _ => hspace⟩
        obtain ⟨d, hd, hdt⟩ := h.owner t hc
        obtain ⟨j, hj⟩ := List.mem_iff_getElem?.mp hd
        exact (h.call j d hj).td_ne hdt htd
  | added t hpc sched hadd =>
      obtain ⟨hsched, hcreated⟩ := h.sched.addThread hadd
      have hthread : c.pc.thread = some t := by
        rw [hpc]
        rfl
      obtain ⟨-, mm, hmm, -, hspace⟩ := hcall t hthread
      refine h.goes hi hsched (fun _ ha => ha) (fun u hu => ⟨rfl, ?_⟩) (fun u hu => ?_)
        (Or.inl hthread.symm) fun u hu => ?_
      · rw [hcreated, List.mem_cons]
        exact or_iff_right fun he => hu (he ▸ rfl)
      · cases hu
        exact htid hthread
      · cases hu
        refine ⟨iff_of_true ?_ fun he => (by cases he), mm, hmm, fun he => (by cases he), fun _ =>
          hspace (by simp [hpc])⟩
        rw [hcreated]
        exact List.mem_cons_self
  | unmapped t hpc cur hcur =>
      have hthread : c.pc.thread = some t := by
        rw [hpc]
        rfl
      obtain ⟨hcr, mm, hmm, -, hspace⟩ := hcall t hthread
      refine h.goes hi h.sched hcur (fun _ _ => ⟨rfl, Iff.rfl⟩) (fun u hu => ?_)
        (Or.inl hthread.symm) fun u hu => ?_
      · cases hu
        exact ⟨(htid hthread).1, hcur t (htid hthread).2⟩
      · cases hu
        exact ⟨iff_of_true (hcr.mpr (by simp [hpc])) fun he => (by cases he), mm, hmm,
          fun he => (by cases he), fun _ => hspace (by simp [hpc])⟩
  | mapped t hpc mm file htd s hexec =>
      have hthread : c.pc.thread = some t := by
        rw [hpc]
        rfl
      obtain ⟨hcr, mm', hmm, -, hspace⟩ := hcall t hthread
      rw [htd] at hmm
      cases hmm
      have hns : NewSpace (st.cur.enter mm).vma := hspace (by simp [hpc])
      obtain ⟨ret, -, halloc⟩ := krlthreadExecvl_alloced hexec
      have hfile : InKernelMap c.file := by
        rcases h.file c (List.mem_of_getElem? hi) with h0 | h0 | hok
        · unfold krlthreadExecvl at hexec
          rw [if_pos (Or.inl h0)] at hexec
          cases hexec
        · unfold krlthreadExecvl at hexec
          rw [if_pos (Or.inr h0)] at hexec
          cases hexec
        · exact hok
      refine h.goes hi h.sched (fun _ ha => halloc.out_subset ha)
        (fun u hu => ⟨Function.update_of_ne ?_ _ _, Iff.rfl⟩) (fun u hu => ?_)
        (Or.inl hthread.symm) fun u hu => ?_
      · rintro rfl
        exact hu rfl
      · cases hu
        exact ⟨(htid hthread).1, halloc.out_subset (htid hthread).2⟩
      · cases hu
        exact ⟨iff_of_true (hcr.mpr (by simp [hpc])) fun he => (by cases he), _,
          Function.update_self _ _ _, fun _ => krlthreadExecvl_mapped hns hfile hexec,
          fun hne => absurd rfl hne⟩

/-- **Every step** keeps the invariant. -/
theorem exelStep_inv {pml4 : Nat → Nat} {cr3 : PageFrame} (st : ExelSt) (op : ExelOp)
    (st' : ExelSt) (h : ExelInv idle st) (hop : op.FileOk)
    (hstep : exelStep pml4 cr3 st op = .ok st') : ExelInv idle st' := by
  cases op with
  | call name file =>
      simp only [exelStep] at hstep
      split at hstep
      · cases hstep
      split at hstep
      · cases hstep
      rename_i caller _ _
      cases hstep
      -- the call has done nothing so far
      have hget : ∀ (j : Nat) d, (st.calls ++ [⟨caller, name, file, .start⟩])[j]? = some d →
          st.calls[j]? = some d ∨ d = ⟨caller, name, file, .start⟩ := by
        intro j d hd
        rcases Nat.lt_or_ge j st.calls.length with hj | hj
        · rw [List.getElem?_append_left hj] at hd
          exact Or.inl hd
        · rw [List.getElem?_append_right hj] at hd
          exact Or.inr (List.mem_singleton.mp (List.mem_of_getElem? hd))
      refine { h with
        file := fun d hd => ?_
        call := fun j d hd => ?_
        once := fun j k d e t hd he hdt het => ?_
        owner := fun t ht => ?_ }
      · rcases List.mem_append.mp hd with hd | hd
        · exact h.file d hd
        · rw [List.mem_singleton.mp hd]
          exact hop
      · rcases hget j d hd with hd | rfl
        · exact h.call j d hd
        · intro t ht
          cases ht
      · rcases hget j d hd with hd | rfl
        · rcases hget k e he with he | rfl
          · exact h.once j k d e t hd he hdt het
          · cases het
        · cases hdt
      · obtain ⟨d, hd, hdt⟩ := h.owner t ht
        exact ⟨d, List.mem_append_left _ hd, hdt⟩
  | go i =>
      simp only [exelStep] at hstep
      split at hstep
      · cases hstep
      rename_i c hi
      split at hstep
      · obtain ⟨sched, cur, td, pc, hgo, rfl⟩ := exelGo_goes hstep
        exact h.goStep hi hgo
      · cases hstep
  | timer =>
      obtain ⟨sched, hsched, rfl⟩ := exists_of_map_ok hstep
      obtain ⟨hready, hcreated⟩ := h.sched.schedul hsched
      refine { h with
        sched := hready
        call := fun j d hd => (h.call j d hd).congr fun t _ => ⟨rfl, by rw [hcreated]⟩
        owner := fun t ht => h.owner t ?_ }
      have ht : t ∈ sched.created := ht
      rw [hcreated] at ht
      exact ht

/-- The program of every runnable thread is mapped unless a call is between its last two
steps, or has failed in the last one. -/
theorem ExelInv.runnableMapped_iff (h : ExelInv idle st) : RunnableMapped st ↔ AddedMapped st := by
  have hrun : ∀ {t mm file}, st.td t = some (mm, file) →
      (Runnable st.sched.s t ↔ t ∈ st.sched.created) := by
    intro t mm file htd
    refine h.sched.runnable_iff ?_
    rintro rfl
    rw [h.idleTd] at htd
    cases htd
  constructor
  · intro hall c hc t
    obtain ⟨i, hi⟩ := List.mem_iff_getElem?.mp hc
    have hno : c.pc.thread = some t → c.pc ≠ .made t → c.pc = .mapped t := by
      intro ht hne
      obtain ⟨hcr, mm, hmm, -, hspace⟩ := h.call i c hi t ht
      by_contra hm
      exact (hspace hm).not_mapped _ (hall t mm c.file hmm ((hrun hmm).mpr (hcr.mpr hne)))
    constructor
    · intro hpc
      have hm := hno (by rw [hpc]; rfl) (by simp [hpc])
      rw [hpc] at hm
      cases hm
    · intro hpc
      have hm := hno (by rw [hpc]; rfl) (by simp [hpc])
      rw [hpc] at hm
      cases hm
  · intro hall t mm file htd hr
    have hin := (hrun htd).mp hr
    obtain ⟨c, hc, ht⟩ := h.owner t hin
    obtain ⟨i, hi⟩ := List.mem_iff_getElem?.mp hc
    obtain ⟨hcr, mm', hmm, hmapped, -⟩ := h.call i c hi t ht
    rw [htd] at hmm
    cases hmm
    refine hmapped ?_
    have hne := hcr.mp hin
    obtain ⟨hadd, hun⟩ := hall c hc t
    generalize c.pc = pc at ht hne hadd hun
    cases pc with
    | start => cases ht
    | refused => cases ht
    | made u =>
        cases ht
        exact absurd rfl hne
    | added u =>
        cases ht
        exact absurd rfl hadd
    | mapped u =>
        cases ht
        rfl
    | unmapped u =>
        cases ht
        exact absurd rfl hun

/-- Putting a thread on a ready list is what makes one runnable without its program. -/
theorem exelStep_addedMapped {pml4 : Nat → Nat} {cr3 : PageFrame} (st : ExelSt) (op : ExelOp)
    (st' : ExelSt) (h : AddedMapped st) (hstep : exelStep pml4 cr3 st op = .ok st') :
    AddedMapped st' ↔ AddsNone st op := by
  cases op with
  | call name file =>
      simp only [exelStep] at hstep
      split at hstep
      · cases hstep
      split at hstep
      · cases hstep
      cases hstep
      refine iff_of_true (fun c hc t => ?_) fun i hi => by cases hi
      rcases List.mem_append.mp hc with hc | hc
      · exact h c hc t
      · rw [List.mem_singleton.mp hc]
        exact ⟨fun he => (by cases he), fun he => (by cases he)⟩
  | go i =>
      simp only [exelStep] at hstep
      split at hstep
      · cases hstep
      rename_i c hi
      split at hstep
      swap
      · cases hstep
      obtain ⟨sched, cur, td, pc, hgo, rfl⟩ := exelGo_goes hstep
      have hlt : i < st.calls.length := (List.getElem?_eq_some_iff.mp hi).1
      have hadds : AddsNone st (.go i) ↔ ∀ t, c.pc ≠ .made t := by
        constructor
        · exact fun hnone => hnone i rfl c hi
        · intro hne j hj d hd
          cases hj
          rw [hi] at hd
          cases hd
          exact hne
      have hcalls : AddedMapped (ExelSt.setPc { st with sched := sched, cur := cur, td := td } i c pc) ↔
          ∀ t, pc ≠ .added t ∧ pc ≠ .unmapped t := by
        constructor
        · exact fun hall t => hall _ (List.mem_set hlt _) t
        · intro hpc d hd t
          rcases List.mem_or_eq_of_mem_set hd with hd | rfl
          · exact h d hd t
          · exact hpc t
      rw [hadds, hcalls]
      have hc := List.mem_of_getElem? hi
      cases hgo with
      | refused hpc cur hcur => simp [hpc]
      | made hpc cur hcur t hnew hin mm hspace => simp [hpc]
      | added t hpc sched hadd => simp [hpc]
      | unmapped t hpc cur hcur => exact absurd hpc (h c hc t).1
      | mapped t hpc mm file htd s hexec => exact absurd hpc (h c hc t).1
  | timer =>
      obtain ⟨sched, -, rfl⟩ := exists_of_map_ok hstep
      exact iff_of_true h fun i hi => by cases hi

end Calls

/-! ## Runs -/

/-- A kernel in which only the idle thread, at 1, is there. -/
def idleVma : VmaSt :=
  { freshVma with kms := ⟨[1], List.nodup_singleton 1, fun n => some (0x10000 + 0x100 * n), 0⟩ }

/-- The table that is loaded in these kernels. -/
def loadedTop : PageFrame := ⟨0xfff, by decide, by decide⟩

/-- The calls and ticks of a run. -/
def runExel (ops : List ExelOp) : Except String ExelSt :=
  run (exelStep (copyPagesData 0) loadedTop) ops (ExelSt.init 1 idleVma)

/-- The first program is made, and runs. -/
def firstProgram : List ExelOp := [.call 11 someFile, .go 0, .go 0, .go 0, .timer]

/-- It makes a second one, and the timer ticks before that is mapped. -/
def secondProgram : List ExelOp := firstProgram ++ [.call 11 someFile, .go 1, .go 1, .timer]

theorem secondProgram_ok : ∀ op ∈ secondProgram, op.FileOk := by
  have hfile : FileOk someFile := Or.inr (Or.inr ⟨by decide, by decide⟩)
  simp [secondProgram, firstProgram, ExelOp.FileOk, hfile]

end Cosmos.Kernel
