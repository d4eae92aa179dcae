import Cosmos.Kernel.KrlvadrsmemList

/-!
# The pointers into the list of regions

An address space remembers five of its regions.  `vma_new_vadrs_core` and
`vma_del_vadrs_core` keep `vs_currkmvdsc` and `vs_endkmvdsc` up to date, and nothing writes
the other three once the address space is made: when the region that one of them points to
leaves the list, the pointer stays.

## Main results

* `ptrsOk_iff` and `ptrsOk_not` : every pointer is that of a region of the list until a call
  frees a whole region that is the first one, the heap or the stack, and a call that does.
-/

namespace Cosmos.Kernel

open Cosmos.Lib Cosmos.Lib.Run Cosmos.Lib.Word64 Cosmos.Hal

/-- The regions of the list, by their addresses. -/
def Virmemadrs.adrs (vma : Virmemadrs) : List Nat := vma.vsList.map Kmvarsdsc.adr

/-- The pointers that nothing writes after `kvma_inituserspace_virmemadrs`. -/
def Virmemadrs.fixedPtrs (vma : Virmemadrs) : List (Option Nat) :=
  [vma.vsStartkmvdsc, vma.vsHeapkmvdsc, vma.vsStackkmvdsc]

/-- **Every pointer is `NULL` or that of a region of the list**, and those to the first and
the last region are right. -/
structure PtrsOk (vma : Virmemadrs) : Prop where
  fixed : ∀ a, some a ∈ vma.fixedPtrs → a ∈ vma.adrs
  curr : ∀ a, vma.vsCurrkmvdsc = some a → a ∈ vma.adrs
  endIn : ∀ a, vma.vsEndkmvdsc = some a → a ∈ vma.adrs
  first : vma.vsList ≠ [] → vma.vsStartkmvdsc = vma.adrs.head?
  last : vma.vsList ≠ [] → vma.vsEndkmvdsc = vma.adrs.getLast?

/-- A free of a whole region that `vs_startkmvdsc`, `vs_heapkmvdsc` or `vs_stackkmvdsc`
points to. -/
def FreesFixed (vma : Virmemadrs) : VmaOp → Prop
  | .del start vassize => start ≠ 0 ∧
      ∃ r ∈ vmaDelFindKmvarsdsc vma start (vadszAlign vassize),
        r.kvaStart = start ∧ r.kvaEnd = add64 start (vadszAlign vassize) ∧
          some r.adr ∈ vma.fixedPtrs
  | _ => False

instance (vma : Virmemadrs) (op : VmaOp) : Decidable (FreesFixed vma op) :=
  match op with
  | .new _ _ _ _ => inferInstanceAs (Decidable False)
  | .del start vassize => inferInstanceAs (Decidable (start ≠ 0 ∧
      ∃ r ∈ vmaDelFindKmvarsdsc vma start (vadszAlign vassize),
        r.kvaStart = start ∧ r.kvaEnd = add64 start (vadszAlign vassize) ∧
          some r.adr ∈ vma.fixedPtrs))
  | .fair _ => inferInstanceAs (Decidable False)

section Ptrs

variable {vma vma' : Virmemadrs} {r x : Kmvarsdsc} {s s' : VmaSt}

/-! ## What a call does to the list -/

/-- Fields of regions may change. -/
theorem PtrsOk.congr (h : PtrsOk vma) (hadrs : vma'.adrs = vma.adrs)
    (hfixed : vma'.fixedPtrs = vma.fixedPtrs) (hend : vma'.vsEndkmvdsc = vma.vsEndkmvdsc)
    (hcurr : ∀ a, vma'.vsCurrkmvdsc = some a → a ∈ vma.adrs) : PtrsOk vma' := by
  have hne : vma'.vsList ≠ [] → vma.vsList ≠ [] := fun hne he =>
    hne (List.map_eq_nil_iff.mp (hadrs.trans (congrArg (List.map Kmvarsdsc.adr) he)))
  have hstart : vma'.vsStartkmvdsc = vma.vsStartkmvdsc := (List.cons.inj hfixed).1
  refine ⟨?_, ?_, ?_, ?_, ?_⟩
  · rw [hadrs, hfixed]
    exact h.fixed
  · rw [hadrs]
    exact hcurr
  · rw [hadrs, hend]
    exact h.endIn
  · rw [hadrs, hstart]
    exact fun he => h.first (hne he)
  · rw [hadrs, hend]
    exact fun he => h.last (hne he)

/-- A region is linked in behind another. -/
theorem PtrsOk.link (h : PtrsOk vma) (hnd : vma.adrs.Nodup) (hr : r ∈ vma.vsList) :
    PtrsOk (vma.link r x) := by
  obtain ⟨l₁, l₂, hl, hkey⟩ := Chain.exists_cut hnd hr
  have hadrs : vma.adrs = l₁.map Kmvarsdsc.adr ++ r.adr :: l₂.map Kmvarsdsc.adr := by
    rw [Virmemadrs.adrs, hl, List.map_append, List.map_cons]
  have hadrs' : (vma.link r x).adrs =
      l₁.map Kmvarsdsc.adr ++ r.adr :: x.adr :: l₂.map Kmvarsdsc.adr := by
    show (Chain.add Kmvarsdsc.adr r.adr x vma.vsList).map _ = _
    rw [hl, Chain.add_cut hkey, List.map_append, List.map_cons, List.map_cons]
  have hsub : ∀ a ∈ vma.adrs, a ∈ (vma.link r x).adrs := by
    intro a ha
    rw [hadrs, List.mem_append, List.mem_cons] at ha
    rw [hadrs', List.mem_append, List.mem_cons, List.mem_cons]
    rcases ha with ha | ha | ha
    · exact Or.inl ha
    · exact Or.inr (Or.inl ha)
    · exact Or.inr (Or.inr (Or.inr ha))
  have hx : x.adr ∈ (vma.link r x).adrs := by
    rw [hadrs']
    exact List.mem_append_right _ (List.mem_cons_of_mem _ List.mem_cons_self)
  have hnext : vma.nextEntry r = l₂.head? := by
    unfold Virmemadrs.nextEntry
    rw [hl]
    exact Chain.next_cut hkey
  have hne : vma.vsList ≠ [] := List.ne_nil_of_mem hr
  have hend : (vma.link r x).vsEndkmvdsc = if l₂ = [] then some x.adr else vma.vsEndkmvdsc := by
    show (if vma.nextEntry r = none then _ else _) = _
    simp only [hnext, List.head?_eq_none_iff]
  refine ⟨fun a ha => hsub a (h.fixed a ha), fun a ha => ?_, fun a ha => ?_, fun _ => ?_,
    fun _ => ?_⟩
  · cases ha
    exact hx
  · rw [hend] at ha
    by_cases hl₂ : l₂ = []
    · rw [if_pos hl₂] at ha
      cases ha
      exact hx
    · rw [if_neg hl₂] at ha
      exact hsub a (h.endIn a ha)
  · show vma.vsStartkmvdsc = _
    rw [h.first hne, hadrs, hadrs']
    cases l₁ <;> rfl
  · rw [hend, hadrs']
    by_cases hl₂ : l₂ = []
    · rw [if_pos hl₂, hl₂, List.map_nil, List.getLast?_append_cons]
      rfl
    · rw [if_neg hl₂, h.last hne, hadrs]
      obtain ⟨c, l, rfl⟩ := List.exists_cons_of_ne_nil hl₂
      simp only [List.map_cons, List.getLast?_append_cons, List.getLast?_cons_cons]

/-- **A region leaves the list**: the pointers stay right if none of those that nothing writes
pointed to it. -/
theorem PtrsOk.unlink_iff (h : PtrsOk vma) (hnd : vma.adrs.Nodup) (hr : r ∈ vma.vsList)
    (hlist : vma'.vsList = Chain.del Kmvarsdsc.adr r.adr vma.vsList)
    (hfixed : vma'.fixedPtrs = vma.fixedPtrs)
    (hend : vma'.vsEndkmvdsc = (vmaDelSetEndcurrkmvd vma r).vsEndkmvdsc)
    (hcurr : vma'.vsCurrkmvdsc = (vmaDelSetEndcurrkmvd vma r).vsCurrkmvdsc) :
    PtrsOk vma' ↔ some r.adr ∉ vma.fixedPtrs := by
  obtain ⟨l₁, l₂, hl, hkey⟩ := Chain.exists_cut hnd hr
  have hadrs : vma.adrs = l₁.map Kmvarsdsc.adr ++ r.adr :: l₂.map Kmvarsdsc.adr := by
    rw [Virmemadrs.adrs, hl, List.map_append, List.map_cons]
  have hnot : r.adr ∉ l₁.map Kmvarsdsc.adr := by
    intro hm
    obtain ⟨a, ha, he⟩ := List.mem_map.mp hm
    exact hkey a ha he
  have hnew : vma'.adrs = l₁.map Kmvarsdsc.adr ++ l₂.map Kmvarsdsc.adr := by
    rw [Virmemadrs.adrs, hlist, hl, Chain.del_cut hkey, List.map_append]
  have hadrs' : vma'.adrs = vma.adrs.erase r.adr := by
    rw [hnew, hadrs, List.erase_append_right _ hnot, List.erase_cons_head]
  have hout : r.adr ∉ vma'.adrs := by
    rw [hadrs']
    exact hnd.not_mem_erase
  have hnext : vma.nextEntry r = l₂.head? := by
    unfold Virmemadrs.nextEntry
    rw [hl]
    exact Chain.next_cut hkey
  have hprev : (Chain.prev Kmvarsdsc.adr r.adr vma.vsList).map Kmvarsdsc.adr =
      (l₁.map Kmvarsdsc.adr).getLast? ∨ l₁ = [] := by
    rw [hl, List.getLast?_map]
    exact (Chain.prev_cut hkey).imp_left (congrArg _)
  constructor
  · intro h' hm
    exact hout (h'.fixed r.adr (hfixed ▸ hm))
  intro hm
  have hin : ∀ a, a ∈ vma.adrs → a ≠ r.adr → a ∈ vma'.adrs := by
    intro a ha hne
    rw [hadrs']
    exact (List.mem_erase_of_ne hne).mpr ha
  -- the first region is not the one that leaves
  have hfirst : l₁ ≠ [] := by
    rintro rfl
    refine hm ?_
    have hs := h.first (List.ne_nil_of_mem hr)
    rw [hadrs] at hs
    exact List.mem_cons.mpr (Or.inl hs.symm)
  have hprev := hprev.resolve_right hfirst
  have hnone : l₁.map Kmvarsdsc.adr ≠ [] := fun he => hfirst (List.map_eq_nil_iff.mp he)
  have hfixed' : ∀ a, some a ∈ vma'.fixedPtrs → a ∈ vma'.adrs := by
    intro a ha
    rw [hfixed] at ha
    refine hin a (h.fixed a ha) ?_
    rintro rfl
    exact hm ha
  have hstart : vma'.vsStartkmvdsc = vma.vsStartkmvdsc := (List.cons.inj hfixed).1
  have hhead : vma'.vsList ≠ [] → vma'.vsStartkmvdsc = vma'.adrs.head? := by
    intro _
    rw [hstart, h.first (List.ne_nil_of_mem hr), hadrs, hnew, List.head?_append_of_ne_nil _ hnone,
      List.head?_append_of_ne_nil _ hnone]
  unfold vmaDelSetEndcurrkmvd at hend hcurr
  rw [hnext] at hend hcurr
  cases l₂ with
  | nil =>
      have hend : vma'.vsEndkmvdsc = (l₁.map Kmvarsdsc.adr).getLast? := hend.trans hprev
      have hcurr : vma'.vsCurrkmvdsc = (l₁.map Kmvarsdsc.adr).getLast? := hcurr.trans hprev
      rw [List.map_nil, List.append_nil] at hnew
      refine ⟨hfixed', fun a ha => ?_, fun a ha => ?_, hhead, fun _ => ?_⟩
      · rw [hnew]
        exact List.mem_of_getLast? (hcurr.symm.trans ha)
      · rw [hnew]
        exact List.mem_of_getLast? (hend.symm.trans ha)
      · rw [hnew]
        exact hend
  | cons c l₂ =>
      have hend : vma'.vsEndkmvdsc = vma.vsEndkmvdsc := hend
      have hlast : vma.vsEndkmvdsc = vma'.adrs.getLast? := by
        rw [h.last (List.ne_nil_of_mem hr), hadrs, hnew]
        simp only [List.map_cons, List.getLast?_append_cons, List.getLast?_cons_cons]
      refine ⟨hfixed', fun a ha => ?_, fun a ha => ?_, hhead, fun _ => hend.trans hlast⟩
      · rw [hcurr] at ha
        cases ha
        rw [hnew]
        exact List.mem_append_right _ List.mem_cons_self
      · rw [hend, hlast] at ha
        exact List.mem_of_getLast? ha

/-- **`vma_new_vadrs`** keeps the pointers right. -/
theorem Alloced.ptrsOk {kms kms' : Supply Nat} {start vassize vaslimits vastype ret : Nat}
    (h : Alloced vma kms start vassize vaslimits vastype ret vma' kms') (hp : PtrsOk vma)
    (hnd : vma.adrs.Nodup) : PtrsOk vma' := by
  cases h with
  | refused kms' hout => exact hp
  | grown r hfits hstart hlike =>
      refine hp.congr (map_write vma r (fun r => { r with kvaEnd := add64 r.kvaEnd vassize })
        fun _ => rfl) rfl rfl fun a ha => ?_
      cases ha
      exact List.mem_map_of_mem hfits.mem
  | added r hfits a kms' hnew hout lo hlo => exact hp.link hnd hfits.mem

/-- The region that holds a range which is not all of it is not freed. -/
theorem Holds.not_freesFixed {start vassize : Nat} (h : Holds vma start (vadszAlign vassize) r)
    (hpart : ¬ (r.kvaStart = start ∧ r.kvaEnd = add64 start (vadszAlign vassize))) :
    ¬ FreesFixed vma (.del start vassize) := by
  rintro ⟨-, r', hr', hlo, hhi, -⟩
  rw [h.find] at hr'
  cases hr'
  exact hpart ⟨hlo, hhi⟩

/-- **`vma_del_vadrs`** keeps the pointers right, unless the region that goes is one that
they stay with. -/
theorem vmaDelVadrs_ptrsOk {start vassize : Nat} {b : Bool}
    (h : (vmaDelVadrs start vassize).run s = .ok (b, s')) (hp : PtrsOk s.vma)
    (hnd : s.vma.adrs.Nodup) : PtrsOk s'.vma ↔ ¬ FreesFixed s.vma (.del start vassize) := by
  obtain ⟨hf, h0⟩ := vmaDelVadrs_cases h
  have hwrite : ∀ f : Kmvarsdsc → Kmvarsdsc, (∀ a, (f a).adr = a.adr) → ∀ r : Kmvarsdsc,
      PtrsOk (s.vma.write r f) := fun f hf r =>
    hp.congr (map_write s.vma r f hf) rfl rfl hp.curr
  cases hf with
  | refused kms hout hwhy =>
      refine iff_of_true hp ?_
      rintro ⟨hne, r, hr, hlo, -, -⟩
      have hlt := (hwhy.resolve_left hne r hr).1
      omega
  | whole r hr hlo hhi s₁ s₂ b₁ b₂ hun hput =>
      have hvma := (vmaDelUnmapping_pagesOnly hun).vma
      have hput : s₂.vma = vmaDelSetEndcurrkmvd s.vma r := by
        rw [knlPutKvmemcbox_vma hput, hvma]
      have hfixed : (vmaDelSetEndcurrkmvd s.vma r).fixedPtrs = s.vma.fixedPtrs := by
        unfold vmaDelSetEndcurrkmvd
        cases s.vma.nextEntry r <;> rfl
      have hiff : FreesFixed s.vma (.del start vassize) ↔ some r.adr ∈ s.vma.fixedPtrs := by
        constructor
        · rintro ⟨-, r', hr', -, -, hmem⟩
          rw [hr.find] at hr'
          cases hr'
          exact hmem
        · exact fun hmem => ⟨h0 rfl, r, hr.find, hlo, hhi, hmem⟩
      rw [hiff, hput]
      refine hp.unlink_iff hnd hr.mem ?_ hfixed rfl rfl
      show Chain.del _ _ (vmaDelSetEndcurrkmvd s.vma r).vsList = _
      rw [vmaDelSetEndcurrkmvd_vsList]
  | front r hr hlo hhi s' b hun =>
      rw [(vmaDelUnmapping_pagesOnly hun).vma]
      refine iff_of_true ?_ (hr.not_freesFixed fun hw => by omega)
      exact hwrite (fun r => { r with kvaStart := add64 start (vadszAlign vassize) })
        (fun _ => rfl) r
  | back r hr hlo hhi s' b hun =>
      rw [(vmaDelUnmapping_pagesOnly hun).vma]
      refine iff_of_true ?_ (hr.not_freesFixed fun hw => by omega)
      exact hwrite (fun r => { r with kvaEnd := start }) (fun _ => rfl) r
  | split r hr hlo hhi a kms htake hnew hout s₁ b hun =>
      refine iff_of_true ?_ (hr.not_freesFixed fun hw => by omega)
      have hvma : s₁.vma = s.vma.write r fun r => { r with kvaEnd := start } := by
        rw [(vmaDelUnmapping_pagesOnly hun).vma]
        cases r.kvaKvmbox <;> rfl
      have hmem : { r with kvaEnd := start } ∈
          (s.vma.write r fun r => { r with kvaEnd := start }).vsList :=
        (Chain.upd_perm _ hnd hr.mem).mem_iff.mpr List.mem_cons_self
      have hnd' : (s.vma.write r fun r => { r with kvaEnd := start }).adrs.Nodup := by
        rw [Virmemadrs.adrs, map_write s.vma r (fun r => { r with kvaEnd := start }) fun _ => rfl]
        exact hnd
      have hlink := (hwrite (fun r => { r with kvaEnd := start }) (fun _ => rfl) r).link
        (x := { r with adr := a, kvaStart := add64 start (vadszAlign vassize) }) hnd' hmem
      rw [hvma]
      exact hlink.congr rfl rfl rfl hlink.curr

theorem Faired.ptrsOk {vadrs : Nat} {ret : FairRet} (h : Faired s vadrs ret s')
    (hp : PtrsOk s.vma) : PtrsOk s'.vma := by
  cases h with
  | refused ret hret => exact hp
  | served r hr hlo hhi hmin hmax kmbox s₁ hbox phyadrs s₂ hmap filled =>
      show PtrsOk s₂.vma
      rw [hmap.pagesOnly.vma]
      rcases hbox.vma_eq with h₁ | h₁
      · rw [h₁]
        exact hp
      · rw [h₁]
        exact hp.congr (map_write s.vma r (fun r => { r with kvaKvmbox := some kmbox })
          fun _ => rfl) rfl rfl hp.curr

/-- **Each call** keeps the pointers right, unless it frees a region that one of them stays
with. -/
theorem vmaStep_ptrsOk {head0 base : List Nat} (s : VmaSt) (op : VmaOp) (s' : VmaSt)
    (h : VmaInv head0 base s) (hp : PtrsOk s.vma) (hstep : vmaStep s op = .ok s') :
    PtrsOk s'.vma ↔ ¬ FreesFixed s.vma op := by
  cases op with
  | new start vassize vaslimits vastype =>
      obtain ⟨ret, vma, kms, ha, -, rfl⟩ := vmaStep_move hstep
      exact iff_of_true (ha.ptrsOk hp h.adr_nodup) id
  | del start vassize =>
      obtain ⟨⟨b, s₁⟩, hdel, rfl⟩ := exists_of_map_ok hstep
      exact vmaDelVadrs_ptrsOk hdel hp h.adr_nodup
  | fair vadrs =>
      obtain ⟨ret, hf⟩ := vmaStep_move hstep
      exact iff_of_true (hf.ptrsOk hp) id

theorem initUser_ptrsOk (x y z : Nat) : PtrsOk (virmemadrsInit.initUser x y z) := by
  have hadrs : (virmemadrsInit.initUser x y z).adrs = [x, y, z] := by
    rw [Virmemadrs.adrs, initUser_vsList]
    rfl
  refine ⟨fun a ha => ?_, fun a ha => ?_, fun a ha => ?_, fun _ => ?_, fun _ => ?_⟩
  · rw [hadrs]
    simpa [Virmemadrs.fixedPtrs, Virmemadrs.initUser] using ha
  · cases ha
  · cases ha
    rw [hadrs]
    exact List.mem_cons_of_mem _ (List.mem_cons_of_mem _ List.mem_cons_self)
  · rw [hadrs]
    rfl
  · rw [hadrs]
    rfl

end Ptrs

/-! ## Runs -/

section Runs

variable {pml4 : Nat → Nat} {k s₀ s : VmaSt} {mm : Nat}

/-- **No pointer dangles in any state of a run exactly when** no call of it frees a region
that a pointer stays with. -/
theorem ptrsOk_iff (h : Made pml4 k mm s₀) (hk : BoxesLive k) (ops : List VmaOp)
    (hops : ∀ op ∈ ops, op.NoWrap) (hrun : run vmaStep ops s₀ = .ok s) :
    AllSteps vmaStep (fun s _ => PtrsOk s.vma) ops s₀ ∧ PtrsOk s.vma ↔
      AllSteps vmaStep (fun s op => ¬ FreesFixed s.vma op) ops s₀ := by
  obtain ⟨base, hinv⟩ := h.inv hk
  refine allSteps_iff (fun s => PtrsOk s.vma) (VmaInv k.mgr.kbmKmbhead base)
    (fun s op => ¬ FreesFixed s.vma op) (fun _ op => op.NoWrap) vmaStep_inv
    (fun s op s' hj hp _ hstep => vmaStep_ptrsOk s op s' hj hp hstep)
    ops s₀ s hinv ?_ (allSteps_of_forall ops s₀ hops) hrun
  obtain ⟨x, y, z, hal, kms, rfl, -⟩ := h.start
  exact initUser_ptrsOk x y z

/-- A new region behind the first is split, the part behind goes, and then the rest. -/
def splitAndFree : List VmaOp :=
  [.new 0x200000 0x3000 0 1, .del 0x201000 0x1000, .del 0x202000 0x1000, .del 0x200000 0x1000]

theorem ptrsOk_iff_splitAndFree : ∃ s : VmaSt, s.vma.vsList.length = 3 ∧ PtrsOk s.vma := by
  obtain ⟨s₀, hmade, hq⟩ := exists_made (q := fun s =>
    checkSteps vmaStep (fun s op => decide (¬ FreesFixed s.vma op)) splitAndFree s &&
      okAnd (run vmaStep splitAndFree s) fun t => t.vma.vsList.length = 3) (by decide +kernel)
  rw [Bool.and_eq_true] at hq
  obtain ⟨s, hrun, hs⟩ := exists_of_okAnd hq.2
  have hptrs := (ptrsOk_iff hmade freshVma_boxesLive splitAndFree (by decide) hrun).mpr
    (allSteps_of_check (fun _ _ hp => of_decide_eq_true hp) splitAndFree s₀ hq.1)
  exact ⟨s, of_decide_eq_true hs, hptrs.2⟩

/-- The heap goes and `vs_heapkmvdsc` stays. -/
theorem ptrsOk_not : ¬ ∀ (k s₀ s : VmaSt) (mm : Nat) (ops : List VmaOp),
    Made (copyPagesData 0) k mm s₀ → BoxesLive k → (∀ op ∈ ops, op.NoWrap) →
      run vmaStep ops s₀ = .ok s → PtrsOk s.vma := by
  intro hall
  obtain ⟨s₀, hmade, hq⟩ := exists_made (q := fun s =>
    okAnd (run vmaStep [.del 0x100000000 0x1000] s) fun t =>
      t.vma.vsHeapkmvdsc.any (· ∉ t.vma.adrs)) (by decide +kernel)
  obtain ⟨s, hrun, hs⟩ := exists_of_okAnd hq
  have hp := hall freshVma s₀ s _ _ hmade freshVma_boxesLive (by decide) hrun
  cases hheap : s.vma.vsHeapkmvdsc with
  | none =>
      rw [hheap] at hs
      cases hs
  | some a =>
      rw [hheap] at hs
      refine of_decide_eq_true hs (hp.fixed a ?_)
      rw [Virmemadrs.fixedPtrs, hheap]
      exact List.mem_cons_of_mem _ List.mem_cons_self

end Runs

end Cosmos.Kernel
