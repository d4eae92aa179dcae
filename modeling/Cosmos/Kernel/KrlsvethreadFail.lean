import Cosmos.Kernel.KrlsvethreadRun
import Cosmos.Kernel.KrlvadrsmemNew

/-!
# What a failed start leaves behind

`krlsve_core_exel_thread` when nothing comes between its steps.  It asks for a descriptor of an
address space and three regions, a stack, a descriptor of a thread, memory for a long name, and
the region of the program.  `del_mmadrsdsc` gives back no regions, and once the thread is on a
ready list nobody takes it off.  So what is left depends on the request that was refused: each
outcome of `krlnew_user_thread_core` is a case of `NewThread`.

## Main results

* `failedStart_iff` and `failedStart_not` : when a start that fails leaves nothing behind, and
  one that leaves a thread.
-/

namespace Cosmos.Kernel

open Cosmos.Lib Cosmos.Lib.StM Cosmos.Lib.Run Cosmos.Lib.Word64 Cosmos.Hal

/-- `krlsve_core_exel_thread`: the thread, nothing for `SYSSTUSERR`.  `krlthread_execvl` refuses
a thread that is `NULL`. -/
def krlsveCoreExelThread (pml4 : Nat → Nat) (cr3 : PageFrame) (name : Nat) (file : Nat × Nat)
    (sched : Sched) (k : VmaSt) : Except String (Option Nat × Sched × VmaSt) :=
  if file.1 = 0 ∨ file.2 = 0 then .ok (none, sched, k)
  else
    match (krlnewUserThreadCore pml4 cr3 name daftTdusrstksz).run k with
    | .error e => .error e
    | .ok (none, s) => .ok (none, sched, s)
    | .ok (some (t, _), s) =>
        let sched := krlschdclassAddThread (sched.newThread t prityMin) t
        match krlthreadExecvl s file with
        | none => .ok (none, sched, { s with kms := krlthreadExecvlKms s file })
        | some s => .ok (some t, sched, s)

/-- The ready lists, the counts of threads, the objects and the pages in use are those from
before. -/
structure NothingLeft (sched : Sched) (k : VmaSt) (sched' : Sched) (s : VmaSt) : Prop where
  ready : ∀ p, sched'.listOf (.ready p) = sched.listOf (.ready p)
  threadnr : sched'.schda.sdaThreadnr = sched.schda.sdaThreadnr
  tdlNr : ∀ p, (sched'.schda.sdaThdlst p).tdlNr = (sched.schda.sdaThdlst p).tdlNr
  objs : s.kms.out.Perm k.kms.out
  pages : s.hal.pgs.out.Perm k.hal.pgs.out

/-- How many objects a thread needs: the address space with its regions, the stack, the
descriptor, and the memory of a long name. -/
def threadObjs (name : Nat) : Nat := if name < threadNameMax - 1 then 6 else 7

/-- A new address space has a place for the program, and there is an object for its region. -/
structure ProgramFits (len : Nat) (kms : Supply Nat) : Prop where
  below : add64 0x100000 len < threadHeapadrStart
  pages : vadszAlign len ≠ 0
  region : kms.Grants 1

/-- All requests of a start are served; it does not matter if the name gets its memory. -/
def StartServed (name len : Nat) (kms : Supply Nat) : Prop :=
  kms.Grants 6 ∧ ProgramFits len (kms.after (threadObjs name))

/-- What `krlnew_user_thread_core` leads to from `k`, with what it returns. -/
inductive NewThread (name : Nat) (k : VmaSt) : Option (Nat × Nat) → VmaSt → Prop
  /-- no address space with its regions, and everything has gone back -/
  | undone (s : VmaSt) (hno : ¬ k.kms.Grants 4) (hobjs : s.kms.out.Perm k.kms.out)
      (hpages : s.hal.pgs.out.Perm k.hal.pgs.out) : NewThread name k none s
  /-- no stack or no descriptor, and the regions are still there -/
  | leaked (s : VmaSt) (hyes : k.kms.Grants 4) (hno : ¬ k.kms.Grants 6) (x y z : Nat)
      (hobjs : s.kms.out.Perm (z :: y :: x :: k.kms.out)) : NewThread name k none s
  | made (s : VmaSt) (hyes : k.kms.Grants 6) (t mm x y z : Nat)
      (hvma : s.vma = virmemadrsInit.initUser x y z)
      (hkms : s.kms = k.kms.after (threadObjs name)) : NewThread name k (some (t, mm)) s

section Made

variable {pml4 : Nat → Nat} {cr3 : PageFrame} {k s : VmaSt} {mm : Nat}

/-! ## The thread is made -/

theorem kmsobTake_run (s : VmaSt) :
    kmsobTake.run s = .ok (s.kms.take.1, { s with kms := s.kms.take.2 }) := rfl

theorem kmsobGive_run (s : VmaSt) (a : Nat) :
    (kmsobGive a).run s = .ok ((s.kms.give a).isSome, { s with kms := giveObj s.kms a }) := rfl

/-- `hal_mmu_clean` of an address space with nothing but the top table. -/
theorem halMmuClean_new {t : MmuSt} {l : List PageFrame}
    (hmmu : (t.mmu = mmudscInit ∧ t.pgs.out = l) ∨ ∃ top, top ≠ cr3 ∧ t.pgs.out = top :: l ∧
      t.mmu = { mmudscInit.addMsa .tdir top with mudTdirearr := some top }) :
    ∃ t', (halMmuClean cr3).run t = .ok (true, t') ∧ t'.pgs.out = l := by
  unfold halMmuClean
  rw [run_get_bind]
  rcases hmmu with ⟨hmmu, hout⟩ | ⟨top, hne, hout, hmmu⟩
  · rw [hmmu, if_neg fun he => (by cases he)]
    exact ⟨t, rfl, hout⟩
  · have hloaded : t.mmu.mudTdirearr ≠ some cr3 := by
      rw [hmmu]
      exact fun he => hne (Option.some.inj he)
    obtain ⟨pgs, hgive, hback⟩ := Supply.give_of_mem (u := t.pgs) (x := top)
      (hout ▸ List.mem_cons_self)
    have hhead : ∀ lv, t.mmu.mudHead lv = if lv = .tdir then [top] else [] := by
      rw [hmmu]
      exact fun lv => by cases lv <;> rfl
    have htop : (mmuCleanDirearrmsas .tdir [top]).run t =
        .ok ((), { t with mmu := t.mmu.delMsa .tdir top, pgs := pgs }) := by
      unfold mmuCleanDirearrmsas
      rw [run_get_bind]
      simp only [hgive]
      rfl
    rw [if_neg hloaded]
    simp only [hhead, if_true, reduceCtorEq, if_false]
    refine ⟨_, (run_bind_ok rfl).trans ((run_bind_ok rfl).trans ((run_bind_ok rfl).trans
      (run_bind_ok htop))), ?_⟩
    show pgs.out = l
    rw [hback, hout, List.erase_cons_head]

/-- **`del_mmadrsdsc`** right after `new_mmadrsdsc`: the pages go back, and the descriptor. -/
theorem NewParts.del {vma : Virmemadrs} {kms : Supply Nat}
    (h : NewParts pml4 k mm vma s.hal kms) (hload : k.hal.pgs.take.1 ≠ some cr3) :
    ∃ b s', (delMmadrsdsc mm cr3).run s = .ok (b, s') ∧ s'.kms = giveObj s.kms mm ∧
      s'.hal.pgs.out = k.hal.pgs.out := by
  have hmmu : (s.hal.mmu = mmudscInit ∧ s.hal.pgs.out = k.hal.pgs.out) ∨
      ∃ top, top ≠ cr3 ∧ s.hal.pgs.out = top :: k.hal.pgs.out ∧
        s.hal.mmu = { mmudscInit.addMsa .tdir top with mudTdirearr := some top } := by
    rcases h.tables with ⟨-, top, ht⟩ | ⟨-, hm, hout⟩
    · refine Or.inr ⟨top, ?_, ht.out, ht.mmu⟩
      rintro rfl
      exact hload ht.got
    · exact Or.inl ⟨hm, hout⟩
  obtain ⟨hal, hclean, hout⟩ := halMmuClean_new hmmu
  refine ⟨(s.kms.give mm).isSome, { s with hal := hal, kms := giveObj s.kms mm }, ?_, rfl, hout⟩
  unfold delMmadrsdsc
  rw [run_bind_ok (onMmu_run hclean)]
  rfl

theorem threadName_run (name : Nat) (s : VmaSt) :
    (threadName name).run s = .ok ((), { s with
      kms := if name < threadNameMax - 1 then s.kms else s.kms.take.2 }) := by
  unfold threadName
  by_cases h : name < threadNameMax - 1
  · rw [if_pos h, if_pos h]
    rfl
  · rw [if_neg h, if_neg h]
    rfl

theorem after_threadObjs (name : Nat) (kms : Supply Nat) : kms.after (threadObjs name) =
    if name < threadNameMax - 1 then kms.after 6 else (kms.after 6).take.2 := by
  unfold threadObjs
  split <;> rfl

/-- The stack of a new address space is the third region. -/
theorem initUser_stack {x y z : Nat} (hnd : [z, y, x].Nodup) :
    (virmemadrsInit.initUser x y z).stack = some
      (kmvarsdscOf z (vadszAlign (userVirtualAddressEnd - 0x40000000)) userVirtualAddressEnd
        kmvStackType) := by
  simp only [List.nodup_cons, List.mem_cons, List.not_mem_nil, or_false, not_or] at hnd
  obtain ⟨⟨hzy, hzx⟩, -⟩ := hnd
  simp [Virmemadrs.stack, Virmemadrs.initUser, virmemadrsInit, Chain.node, kmvarsdscOf,
    Ne.symm hzx, Ne.symm hzy]

/-- **`krlnew_user_thread_core`** does one of three things. -/
theorem krlnewUserThreadCore_run (pml4 : Nat → Nat) (name : Nat)
    (hload : k.hal.pgs.take.1 ≠ some cr3) : ∃ o s,
      (krlnewUserThreadCore pml4 cr3 name daftTdusrstksz).run k = .ok (o, s) ∧
        NewThread name k o s := by
  unfold krlnewUserThreadCore
  rcases newMmadrsdsc_run pml4 k with ⟨ho, hrun⟩ | ⟨mm, vma, hal, kms, ho, hrun, hparts⟩
  · rw [run_bind_ok hrun]
    refine ⟨none, _, rfl, .undone _ (fun h => h.1 ho) (List.Perm.of_eq ?_) (List.Perm.refl _)⟩
    rcases k.kms.take_cases with ⟨-, hout⟩ | ⟨x, hx, -⟩
    · exact hout
    · rw [ho] at hx
      cases hx
  rw [run_bind_ok hrun]
  dsimp only
  rw [run_get_bind]
  rcases hparts.regions with ⟨hfour, hkms, x, y, z, rfl, hout⟩ | ⟨hfour, rfl, hout⟩
  swap
  · obtain ⟨b, s, hdel, hobjs, hpages⟩ := NewParts.del (s := { k with
      vma := virmemadrsInit
      msdThread := none
      hal := hal
      kms := kms }) hparts hload
    have hstack : virmemadrsInit.stack = none := rfl
    simp only [hstack]
    rw [run_bind_ok hdel]
    refine ⟨none, s, rfl, .undone s hfour ?_ (List.Perm.of_eq hpages)⟩
    rw [hobjs]
    exact giveObj_perm hout
  have hnd : [z, y, x].Nodup := by
    have hall := kms.nodup
    rw [hout] at hall
    exact hall.sublist (List.sublist_append_left [z, y, x] _)
  have hsix : k.kms.Grants 6 ↔ kms.take.1 ≠ none ∧ kms.take.2.take.1 ≠ none := by
    rw [Supply.grants_add 4 2, and_iff_right hfour, ← hkms]
    simp only [Supply.Grants, and_true]
  -- the descriptor of the address space goes back, the regions stay
  have hstay : ∀ l : List Nat, l.Perm kms.out → l.Perm (mm :: z :: y :: x :: k.kms.out) := by
    intro l hl
    rw [hout] at hl
    have hmid : ([z, y, x] ++ mm :: k.kms.out).Perm (mm :: ([z, y, x] ++ k.kms.out)) :=
      List.perm_middle
    exact hl.trans hmid
  have henough : ¬ (userVirtualAddressEnd ≠ userVirtualAddressEnd ∨
      sub64 userVirtualAddressEnd (vadszAlign (userVirtualAddressEnd - 0x40000000)) <
        daftTdusrstksz) := by decide
  rw [initUser_stack hnd]
  dsimp only [kmvarsdscOf]
  rw [if_neg henough, run_bind_ok (kmsobTake_run _)]
  rcases kms.take_cases with ⟨hstk, hout₁⟩ | ⟨krlstkadr, hstk, -, hout₁⟩
  · rw [hstk]
    obtain ⟨b, s, hdel, hobjs, -⟩ := NewParts.del (s := { k with
      vma := virmemadrsInit.initUser x y z
      msdThread := none
      hal := hal
      kms := kms.take.2 }) hparts hload
    dsimp only
    rw [run_bind_ok hdel]
    refine ⟨none, s, rfl, .leaked s hfour (fun h => (hsix.mp h).1 hstk) x y z ?_⟩
    rw [hobjs]
    exact giveObj_perm (hstay _ (List.Perm.of_eq hout₁))
  rw [hstk]
  dsimp only
  rw [run_bind_ok (kmsobTake_run _)]
  rcases kms.take.2.take_cases with ⟨htd, hout₂⟩ | ⟨retTd, htd, -, hout₂⟩
  · rw [htd]
    obtain ⟨b, s, hdel, hobjs, -⟩ := NewParts.del (s := { k with
      vma := virmemadrsInit.initUser x y z
      msdThread := none
      hal := hal
      kms := giveObj kms.take.2.take.2 krlstkadr }) hparts hload
    dsimp only
    rw [run_bind_ok (kmsobGive_run _ krlstkadr), run_bind_ok hdel]
    refine ⟨none, s, rfl, .leaked s hfour (fun h => (hsix.mp h).2 htd) x y z ?_⟩
    rw [hobjs]
    refine giveObj_perm (hstay _ (giveObj_perm ?_))
    rw [hout₂, hout₁]
  · rw [htd]
    dsimp only
    rw [run_bind_ok (threadName_run name _)]
    refine ⟨some (retTd, mm), _, rfl, .made _ ?_ retTd mm x y z rfl ?_⟩
    · exact hsix.mpr ⟨hstk ▸ Option.some_ne_none _, htd ▸ Option.some_ne_none _⟩
    · rw [after_threadObjs, show k.kms.after 6 = (k.kms.after 4).take.2.take.2 from rfl, ← hkms]

end Made

section Region

variable {k s : VmaSt} {file : Nat × Nat} {len x y z : Nat}

/-! ## The program gets its region -/

/-- A region that begins at the start of the program ends in front of the heap. -/
theorem programEnd_le (h : add64 0x100000 len < threadHeapadrStart) :
    add64 apprunStartVitrualaddr (vadszAlign len) ≤ threadHeapadrStart := by
  have hheap : threadHeapadrStart = 0x100000000 := rfl
  have hrun : apprunStartVitrualaddr = 0x100000 := rfl
  unfold vadszAlign
  unfold add64 wordMod at h ⊢
  omega

/-- The place behind the first region is the one that is found. -/
theorem vmaFindKmvarsdsc_program (h : add64 0x100000 len < threadHeapadrStart) :
    vmaFindKmvarsdsc (virmemadrsInit.initUser x y z) apprunStartVitrualaddr (vadszAlign len) 0
      kmvBinType = if vadszAlign len = 0 then none else some (kmvarsdscOf x 0x1000 0x5000 0) := by
  have hend := programEnd_le h
  unfold vmaFindKmvarsdsc
  by_cases h0 : vadszAlign len = 0
  · rw [if_pos h0, h0]
    rfl
  have hsize : ¬ vadszAlign len < 0x1000 := by
    unfold vadszAlign at h0 ⊢
    omega
  have htop : ¬ (virmemadrsInit.initUser x y z).vsIsalcend <
      add64 apprunStartVitrualaddr (vadszAlign len) := by
    have halc : (virmemadrsInit.initUser x y z).vsIsalcend = 0x00007fffffffffff := rfl
    have hheap : threadHeapadrStart = 0x100000000 := rfl
    omega
  have hcurr : (virmemadrsInit.initUser x y z).curr = none := rfl
  have hlike : ((virmemadrsInit.initUser x y z).vsList.find? fun curr =>
      curr.isLike 0 kmvBinType && vmaFindKmvarsdscIsOk (virmemadrsInit.initUser x y z) curr
        apprunStartVitrualaddr (vadszAlign len)) = none := by
    simp [Virmemadrs.initUser, virmemadrsInit, Kmvarsdsc.isLike, kmvarsdscOf, kmvBinType,
      kmvHeapType, kmvStackType]
  have hnext : (virmemadrsInit.initUser x y z).nextEntry (kmvarsdscOf x 0x1000 0x5000 0) =
      some (kmvarsdscOf y threadHeapadrStart (threadHeapadrStart + 0x1000) kmvHeapType) := by
    simp [Virmemadrs.nextEntry, Virmemadrs.initUser, virmemadrsInit, Chain.next, kmvarsdscOf]
  have hok : vmaFindKmvarsdscIsOk (virmemadrsInit.initUser x y z)
      (kmvarsdscOf x 0x1000 0x5000 0) apprunStartVitrualaddr (vadszAlign len) = true := by
    unfold vmaFindKmvarsdscIsOk
    rw [hnext]
    show (if apprunStartVitrualaddr = 0 then _ else
      decide (0x5000 ≤ apprunStartVitrualaddr) && decide (_ ≤ threadHeapadrStart)) = true
    rw [if_neg (by decide)]
    exact Bool.and_eq_true_iff.mpr ⟨by decide, decide_eq_true hend⟩
  dsimp only
  rw [if_neg h0, if_neg hsize, if_neg htop, hcurr, hlike]
  exact List.find?_cons_of_pos (p := fun curr => vmaFindKmvarsdscIsOk
    (virmemadrsInit.initUser x y z) curr apprunStartVitrualaddr (vadszAlign len)) hok

/-- **`krlthread_execvl`** of a thread with a new address space. -/
theorem krlthreadExecvl_eq_none_iff (hvma : s.vma = virmemadrsInit.initUser x y z)
    (hfound : ¬ (file.1 = 0 ∨ file.2 = 0)) :
    krlthreadExecvl s file = none ↔ ¬ ProgramFits file.2 s.kms := by
  unfold krlthreadExecvl
  rw [if_neg hfound]
  by_cases hbelow : threadHeapadrStart ≤ add64 0x100000 file.2
  · rw [if_pos hbelow]
    exact iff_of_true rfl fun h => absurd h.below (by omega)
  have hinit : kvmaInitdefaultVirmemadrs s.vma s.kms apprunStartVitrualaddr file.2 kmvBinType =
      vmaNewVadrsCore s.vma s.kms apprunStartVitrualaddr (vadszAlign file.2) 0 kmvBinType := by
    have hend : ¬ userVirtualAddressEnd < add64 apprunStartVitrualaddr file.2 := by
      have huser : userVirtualAddressEnd = 0x00007fffffffffff := rfl
      have hheap : threadHeapadrStart = 0x100000000 := rfl
      have hrun : add64 apprunStartVitrualaddr file.2 = add64 0x100000 file.2 := rfl
      omega
    have hstart : ¬ (apprunStartVitrualaddr % 0x1000 ≠ 0 ∨ apprunStartVitrualaddr < 0x1000) := by
      decide
    unfold kvmaInitdefaultVirmemadrs vmaNewVadrs
    rw [if_neg (not_or.mpr ⟨by decide, (not_or.mp hfound).2⟩), if_neg (by omega), if_neg]
    rintro ⟨-, hmod | hlo | hhi⟩
    · exact hstart (Or.inl hmod)
    · exact hstart (Or.inr hlo)
    · exact hend hhi
  rw [if_neg hbelow, hinit]
  unfold vmaNewVadrsCore
  rw [hvma, vmaFindKmvarsdsc_program (by omega)]
  by_cases h0 : vadszAlign file.2 = 0
  · rw [if_pos h0]
    exact iff_of_true rfl fun h => h.pages h0
  rw [if_neg h0]
  have hnew : ¬ ((apprunStartVitrualaddr = 0 ∨
      apprunStartVitrualaddr = (kmvarsdscOf x 0x1000 0x5000 0).kvaEnd) ∧
      (kmvarsdscOf x 0x1000 0x5000 0).isLike 0 kmvBinType) := by
    rintro ⟨he | he, -⟩
    · cases he
    · cases he
  dsimp only
  rw [if_neg hnew]
  rcases htake : s.kms.take with ⟨o, kms⟩
  have hone : s.kms.Grants 1 ↔ o ≠ none := by
    simp only [Supply.Grants, and_true, htake]
  cases o with
  | none => exact iff_of_true rfl fun h => hone.mp h.region rfl
  | some a =>
      refine iff_of_false (fun h => ?_) (not_not.mpr ⟨by omega, h0, ?_⟩)
      · cases h
      · exact hone.mpr (Option.some_ne_none a)

end Region

section Start

variable {pml4 : Nat → Nat} {cr3 : PageFrame} {k s : VmaSt} {sched sched' : Sched}

/-! ## Starts -/

theorem exelStep_go (pml4 : Nat → Nat) (cr3 : PageFrame) {st : ExelSt} {i : Nat} {c : ExelCall}
    (hi : st.calls[i]? = some c)
    (hcurr : st.sched.s.schda.sdaCurrtd = some c.caller) :
    exelStep pml4 cr3 st (.go i) = exelGo pml4 cr3 st i c := by
  unfold exelStep
  simp only [hi, if_pos hcurr]

/-- The call that goes on is there after its step. -/
theorem setPc_call {st : ExelSt} {i : Nat} {c : ExelCall} (hi : st.calls[i]? = some c)
    (pc : ExelPc) : (st.setPc i c pc).calls[i]? = some { c with pc := pc } :=
  List.getElem?_set_self (List.getElem?_eq_some_iff.mp hi).1

/-- **The steps of a call** do the same if nothing comes between them. -/
theorem krlsveCoreExelThread_go {st : ExelSt} {i idle : Nat} {c : ExelCall} {r : Option Nat}
    (hi : st.calls[i]? = some c) (hpc : c.pc = .start)
    (hcurr : st.sched.s.schda.sdaCurrtd = some c.caller)
    (hidle : st.sched.s.schda.sdaCpuidle = some idle)
    (hheld : Held (idle :: st.sched.created) st.cur)
    (h : krlsveCoreExelThread pml4 cr3 c.name c.file st.sched.s st.cur = .ok (r, sched', s)) :
    ∃ n st' pc, run (exelStep pml4 cr3) (List.replicate n (.go i)) st = .ok st' ∧
      st'.calls[i]? = some { c with pc := pc } ∧ pc.underWay = false ∧
      (∀ t, r = some t ↔ pc = .mapped t) ∧ st'.sched.s = sched' ∧ st'.cur.kms = s.kms ∧
      st'.cur.hal.pgs = s.hal.pgs := by
  unfold krlsveCoreExelThread at h
  have hgo := exelStep_go pml4 cr3 hi hcurr
  unfold exelGo at hgo
  simp only [hpc] at hgo
  by_cases hfound : c.file.1 = 0 ∨ c.file.2 = 0
  · rw [if_pos hfound] at h hgo
    cases h
    refine ⟨1, _, .refused, run_cons_ok hgo, setPc_call hi _, rfl, ?_, rfl, rfl, rfl⟩
    simp
  rw [if_neg hfound] at h hgo
  cases hnew : (krlnewUserThreadCore pml4 cr3 c.name daftTdusrstksz).run st.cur with
  | error e =>
      rw [hnew] at h
      cases h
  | ok p =>
      obtain ⟨o, s₁⟩ := p
      rw [hnew] at h hgo
      cases o with
      | none =>
          cases h
          refine ⟨1, _, .refused, run_cons_ok hgo, setPc_call hi _, rfl, ?_, rfl, rfl, rfl⟩
          simp
      | some p =>
          obtain ⟨t, mm⟩ := p
          dsimp only at h hgo
          obtain ⟨-, hr⟩ := krlnewUserThreadCore_held (idle :: st.sched.created) pml4 cr3 c.name
            daftTdusrstksz st.cur (some (t, mm)) s₁ hheld hnew
          have hfresh := (hr (t, mm) rfl).1
          rw [List.mem_cons, not_or] at hfresh
          have hnot : ¬ (t ∈ st.sched.created ∨ st.sched.s.schda.sdaCpuidle = some t ∨
              prityMax ≤ prityMin) := by
            rw [hidle, Option.some.injEq]
            rintro (hin | rfl | hle)
            · exact hfresh.2 hin
            · exact hfresh.1 rfl
            · exact absurd hle (by decide)
          -- the states between the steps
          obtain ⟨st₁, hgo₁, hsched₁, hcur₁, htd₁, hi₁⟩ : ∃ st₁,
              exelStep pml4 cr3 st (.go i) = .ok st₁ ∧ st₁.sched = st.sched ∧ st₁.cur = s₁ ∧
              st₁.td t = some ({ s₁.leave mm with msdThread := some c.file }, c.file) ∧
              st₁.calls[i]? = some { c with pc := .made t } :=
            ⟨_, hgo, rfl, rfl, Function.update_self _ _ _, setPc_call hi _⟩
          obtain ⟨st₂, hgo₂, hsched₂, hcur₂, htd₂, hi₂⟩ : ∃ st₂,
              exelStep pml4 cr3 st₁ (.go i) = .ok st₂ ∧
              st₂.sched.s = krlschdclassAddThread (st.sched.s.newThread t prityMin) t ∧
              st₂.cur = s₁ ∧ st₂.td t = st₁.td t ∧
              st₂.calls[i]? = some { c with pc := .added t } := by
            have hadd : schedStep st₁.sched (.addThread t prityMin) =
                .ok ⟨krlschdclassAddThread (st.sched.s.newThread t prityMin) t,
                  t :: st.sched.created⟩ := by
              rw [hsched₁]
              exact if_neg hnot
            rw [exelStep_go pml4 cr3 hi₁ (hsched₁ ▸ hcurr)]
            unfold exelGo
            simp only [hadd, Except.map]
            exact ⟨_, rfl, rfl, hcur₁, rfl, setPc_call hi₁ _⟩
          have hgo₃ := exelStep_go pml4 cr3 hi₂ (hsched₂ ▸ hcurr)
          unfold exelGo at hgo₃
          simp only [htd₂, htd₁, hcur₂] at hgo₃
          have hsame : krlthreadExecvl (s₁.enter { s₁.leave mm with msdThread := some c.file })
              c.file = krlthreadExecvl s₁ c.file := rfl
          rw [hsame] at hgo₃
          have hrun : ∀ {st₃}, exelStep pml4 cr3 st₂ (.go i) = .ok st₃ →
              run (exelStep pml4 cr3) (List.replicate 3 (.go i)) st = .ok st₃ := fun h₃ =>
            (run_cons_ok hgo₁).trans ((run_cons_ok hgo₂).trans (run_cons_ok h₃))
          cases hexec : krlthreadExecvl s₁ c.file with
          | none =>
              rw [hexec] at h hgo₃
              cases h
              refine ⟨3, _, .unmapped t, hrun hgo₃, setPc_call hi₂ _, rfl, ?_, hsched₂, rfl, rfl⟩
              simp
          | some s₂ =>
              rw [hexec] at h hgo₃
              cases h
              refine ⟨3, _, .mapped t, hrun hgo₃, setPc_call hi₂ _, rfl, ?_, hsched₂, rfl, rfl⟩
              simp

/-- The thread is on its ready list. -/
theorem krlschdclassAddThread_ready (sched : Sched) (t : Nat) :
    (krlschdclassAddThread (sched.newThread t prityMin) t).listOf (.ready prityMin) =
      t :: sched.listOf (.ready prityMin) := by
  simp [krlschdclassAddThread, Sched.newThread, Sched.setThdlst, Sched.listOf]

/-- A kernel that has six objects left. -/
def sixObjs : VmaSt := { freshVma with
  kms := ⟨[], List.nodup_nil, fun n => if n < 6 then some (0x10000 + 0x100 * n) else none, 0⟩ }

end Start

end Cosmos.Kernel
