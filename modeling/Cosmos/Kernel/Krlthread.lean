import Cosmos.Kernel.KrlvadrsmemPages

/-!
# The pages of a program

`krlthread_execvl` makes a region for a program file at `APPRUN_START_VITRUALADDR`, and
each fault in it fills a page from the file.  The place in the file is counted from where
the region begins now, and a free can move that: `programPage_iff`.

## Main results

* `programPage_iff` and `programPage_not` : when a page shows its part of the file, and a
  run after which one does not.
-/

namespace Cosmos.Kernel

open Cosmos.Lib Cosmos.Lib.Run Cosmos.Lib.StM Cosmos.Lib.Word64 Cosmos.Hal

/-- `APPRUN_START_VITRUALADDR`. -/
def apprunStartVitrualaddr : Nat := 0x100000

/-- `krlthread_execvl` on the address space of a new thread, with what
`get_file_rvadrandsz` finds: the address and the size of the file.
`krlnew_user_thread_core` has set `msd_thread`. -/
def krlthreadExecvl (s : VmaSt) (file : Nat × Nat) : Option VmaSt :=
  if file.1 = 0 ∨ file.2 = 0 then none
  else if threadHeapadrStart ≤ add64 0x100000 file.2 then none
  else
    let r := kvmaInitdefaultVirmemadrs s.vma s.kms apprunStartVitrualaddr file.2 kmvBinType
    if r.1 = 0 then none
    else some { s with msdThread := some file, vma := r.2.1, kms := r.2.2 }

/-- `krlsve_mallocblk`. -/
def krlsveMallocblk (blksz : Nat) : VmaOp := .new 0 blksz 0 kmvHeapType

/-- `krlsve_mfreeblk`. -/
def krlsveMfreeblk (fradr blksz : Nat) : VmaOp := .del fradr blksz

/-- What a program does to its address space: it allocates and frees memory, pages at a
time, and faults. -/
def ProgramCall (op : VmaOp) : Prop :=
  (∃ blksz, op = krlsveMallocblk blksz) ∨
    (∃ fradr blksz, op = krlsveMfreeblk fradr blksz ∧ fradr % 0x1000 = 0 ∧
      fradr + vadszAlign blksz < wordMod) ∨
    ∃ vadrs, op = .fair vadrs

/-- The page of `vadrs` is mapped, and filled from its place in the program file, which is
at `filevadr`. -/
def ShowsFile (filevadr : Nat) (s : VmaSt) (vadrs : Nat) : Prop :=
  ∃ f, mmuLookup s.hal vadrs = some f ∧ s.filled f =
    some (add64 filevadr (sub64 (vadrs / 0x1000 * 0x1000) apprunStartVitrualaddr))

section Thread

variable {s s' : VmaSt} {b : Bool}

/-! ## The thread of an address space -/

theorem knlPutKvmemcbox_thread {o : Option Nat} (h : (knlPutKvmemcbox o).run s = .ok (b, s')) :
    s'.msdThread = s.msdThread := by
  cases o with
  | none =>
      cases h
      rfl
  | some c =>
      obtain ⟨_, _, h₁, h⟩ := run_bind_inv h
      cases h₁
      obtain ⟨_, _, h₁, h⟩ := run_bind_inv h
      cases h₁
      split at h
      · cases h
        rfl
      · obtain ⟨_, _, h₁, h⟩ := run_bind_inv h
        cases h₁
        obtain ⟨_, _, h₁, h⟩ := run_bind_inv h
        cases h₁
        split at h
        · obtain ⟨ok, _, h₁, h⟩ := run_bind_inv h
          cases h₁
          split at h
          · cases h
            rfl
          · cases h
            rfl
        · cases h
          rfl

theorem vmaDelUsermsa_thread {c phyadr : Nat} {msa : Option PageFrame}
    (h : (vmaDelUsermsa c msa phyadr).run s = .ok (b, s')) : s'.msdThread = s.msdThread := by
  rcases vmaDelUsermsa_cases h with ⟨rfl, -⟩ | ⟨f, pgs, -, -, -, rfl⟩
  · rfl
  · rfl

theorem vmaDelUnmappingPhyadrs_thread {kmbox : Option Nat} {l : List Nat} {s s' : VmaSt}
    {b : Bool} (h : (vmaDelUnmappingPhyadrs kmbox l).run s = .ok (b, s')) :
    s'.msdThread = s.msdThread := by
  induction l generalizing s b with
  | nil =>
      cases h
      rfl
  | cons v l ih =>
      obtain ⟨phyadrs, hal, gone, s₁, b', -, hgone, hrest⟩ := vmaDelUnmappingPhyadrs_cons h
      refine (ih hrest).trans ?_
      rcases vmaDelPhyadrs_cases hgone with ⟨rfl, -⟩ | ⟨c, -, -, hdel⟩
      · rfl
      · have hlast := vmaDelUsermsa_thread hdel
        exact hlast

theorem Freed.thread {start vassize : Nat} (h : Freed s start vassize b s') :
    s'.msdThread = s.msdThread := by
  cases h with
  | refused kms hout hwhy => rfl
  | whole r hr hlo hhi s₁ s₂ b₁ b₂ hun hput =>
      have hfirst : s₁.msdThread = s.msdThread := vmaDelUnmappingPhyadrs_thread hun
      exact (knlPutKvmemcbox_thread hput).trans hfirst
  | front r hr hlo hhi s' b hun =>
      have hall := vmaDelUnmappingPhyadrs_thread hun
      exact hall
  | back r hr hlo hhi s' b hun =>
      have hall := vmaDelUnmappingPhyadrs_thread hun
      exact hall
  | split r hr hlo hhi a kms htake hnew hout s₁ b hun =>
      refine (vmaDelUnmappingPhyadrs_thread hun).trans ?_
      cases r.kvaKvmbox <;> rfl

theorem MapFault.thread {c v phyadrs : Nat} (h : MapFault s c v phyadrs s') :
    s'.msdThread = s.msdThread := by
  cases h with
  | nopage pgs hout => rfl
  | mapped f pgs hnew hout hal htr => rfl
  | undone f pgs hnew hout hal htr b s' hdel =>
      have hlast := vmaDelUsermsa_thread hdel
      exact hlast

theorem RegionBox.thread {r : Kmvarsdsc} {c : Nat} (h : RegionBox s r c s') :
    s'.msdThread = s.msdThread := by
  cases h with
  | there hbox => rfl
  | got hbox s₁ hgot => cases hgot <;> rfl

/-- **A call leaves the thread of the address space.** -/
theorem vmaStep_thread {op : VmaOp} (h : vmaStep s op = .ok s') :
    s'.msdThread = s.msdThread := by
  have hmove := vmaStep_move h
  cases op with
  | new start vassize vaslimits vastype =>
      obtain ⟨ret, vma, kms, -, -, rfl⟩ := hmove
      rfl
  | del start vassize =>
      obtain ⟨b, hf⟩ := hmove
      exact hf.thread
  | fair vadrs =>
      obtain ⟨ret, hf⟩ := hmove
      cases hf with
      | refused ret hret => rfl
      | served r hr hlo hhi hmin hmax kmbox s₁ hbox phyadrs s₂ hmap filled =>
          exact hmap.thread.trans hbox.thread

/-! ## A fault that is served -/

/-- The lines of `vma_map_fairvadrs` when it succeeds. -/
theorem vmaMapFairvadrs_eok {vadrs : Nat} (h : (vmaMapFairvadrs vadrs).run s = .ok (.eok, s')) :
    ∃ r kmbox s₁ phyadrs s₂, vmaMapFindKmvarsdsc s.vma vadrs = some r ∧
      vadrs ≤ userVirtualAddressEnd ∧ RegionBox s r kmbox s₁ ∧
      MapFault s₁ kmbox vadrs phyadrs s₂ ∧ phyadrs ≠ 0 ∧
      (vmaFullTextbin r vadrs).run s₂ = .ok ((), s') := by
  unfold vmaMapFairvadrs at h
  by_cases hbad : vadrs < 0x1000 ∨ userVirtualAddressEnd < vadrs
  · rw [if_pos hbad] at h
    cases h
  rw [if_neg hbad] at h
  obtain ⟨_, _, h₁, h⟩ := run_bind_inv h
  cases h₁
  cases hfind : vmaMapFindKmvarsdsc s.vma vadrs with
  | none =>
      simp only [hfind] at h
      cases h
  | some r =>
      simp only [hfind] at h
      obtain ⟨kmbox, s₁, hbox, h⟩ := run_bind_inv h
      obtain ⟨phyadrs, s₂, hmap, h⟩ := run_bind_inv h
      by_cases h0 : phyadrs = 0
      · rw [if_pos h0] at h
        cases h
      · rw [if_neg h0] at h
        obtain ⟨_, s₃, hfill, h⟩ := run_bind_inv h
        cases h
        exact ⟨r, kmbox, s₁, phyadrs, s₂, rfl, by omega, vmaMapRetnKvmemcbox_cases hbox,
          vmaMapMsaFault_cases (by omega) hmap, h0, hfill⟩

/-- The page of a fault that is served is mapped. -/
theorem MapFault.lookup {pml4 : Nat → Nat} {mine : List Nat} {map : Nat → Option PageFrame}
    {c v phyadrs : Nat} (h : MapFault s c v phyadrs s') (hF : Frames pml4 s mine map)
    (hv : v < 2 ^ 47) (hphy : phyadrs ≠ 0) : ∃ f, mmuLookup s'.hal v = some f := by
  cases h with
  | nopage pgs hout => exact absurd rfl hphy
  | mapped f pgs hnew hout hal htr =>
      obtain ⟨others, hmmu, -⟩ := hF.mmu
      have hok := (hmmu.take hnew hout).transform (userAdr_of_lt hv) (by decide) htr
      refine ⟨f, (hok.lookup (userAdr_of_lt hv)).trans ?_⟩
      rw [if_pos rfl, Function.update_self]
  | undone f pgs hnew hout hal htr b s' hdel => exact absurd rfl hphy

/-- `vma_full_textbin` fills a page from the place in the file that is as far from its
start as the page is from the start of the region. -/
theorem vmaFullTextbin_bin {r : Kmvarsdsc} {vadrs : Nat} {file : Nat × Nat} {f : PageFrame}
    (hbin : r.kvaMaptype = kmvBinType) (hthread : s.msdThread = some file)
    (hmap : mmuLookup s.hal vadrs = some f)
    (h : (vmaFullTextbin r vadrs).run s = .ok ((), s')) :
    s'.hal = s.hal ∧ s'.filled f =
      some (add64 file.1 (sub64 vadrs r.kvaStart / 0x1000 * 0x1000)) := by
  unfold vmaFullTextbin at h
  rw [if_neg (not_not.mpr hbin)] at h
  obtain ⟨_, _, h₁, h⟩ := run_bind_inv h
  cases h₁
  rw [hthread] at h
  by_cases h0 : file.1 = 0 ∨ file.2 = 0
  · simp only [if_pos h0] at h
    cases h
  · simp only [if_neg h0, hmap] at h
    cases h
    exact ⟨rfl, Function.update_self f _ _⟩

/-! ## Runs of a program -/

/-- The calls of a program are those of the address space with ranges made of pages, which
do not wrap. -/
theorem ProgramCall.noWrap {op : VmaOp} (h : ProgramCall op) : op.NoWrap ∧ op.PageAligned := by
  rcases h with ⟨blksz, rfl⟩ | ⟨fradr, blksz, rfl, hmod, hnw⟩ | ⟨vadrs, rfl⟩
  · refine ⟨?_, rfl⟩
    show 0 + vadszAlign blksz < wordMod
    rw [Nat.zero_add]
    exact vadszAlign_lt blksz
  · exact ⟨hnw, hmod⟩
  · exact ⟨trivial, trivial⟩

/-- `krlthread_execvl` is an allocation that does not wrap. -/
theorem krlthreadExecvl_some {file : Nat × Nat} (h : krlthreadExecvl s file = some s') :
    s'.msdThread = some file ∧
      vmaStep { s with msdThread := some file }
        (.new apprunStartVitrualaddr file.2 0 kmvBinType) = .ok s' := by
  unfold krlthreadExecvl at h
  by_cases h0 : file.1 = 0 ∨ file.2 = 0
  · rw [if_pos h0] at h
    cases h
  rw [if_neg h0] at h
  split at h
  · cases h
  · dsimp only at h
    split at h
    · cases h
    · cases h
      refine ⟨rfl, ?_⟩
      unfold kvmaInitdefaultVirmemadrs
      rw [if_neg (by rw [not_or] at h0 ⊢; exact ⟨by decide, h0.2⟩)]
      rfl

/-- The pages and the bounds of the regions, and the thread. -/
structure ProgramInv (pml4 : Nat → Nat) (head0 base : List Nat) (file : Nat × Nat) (s : VmaSt) :
    Prop where
  pages : ∃ mine map, PageInv pml4 head0 base s mine map
  bounds : PageBounds s.vma
  thread : s.msdThread = some file

theorem ProgramInv.step {pml4 : Nat → Nat} {head0 base : List Nat} {file : Nat × Nat} (s : VmaSt)
    (op : VmaOp) (s' : VmaSt) (h : ProgramInv pml4 head0 base file s)
    (hop : op.NoWrap ∧ op.PageAligned) (hstep : vmaStep s op = .ok s') :
    ProgramInv pml4 head0 base file s' := by
  obtain ⟨hnw, hal⟩ := hop
  refine ⟨vmaStep_pages s op s' h.pages hnw hstep, ?_, (vmaStep_thread hstep).trans h.thread⟩
  obtain ⟨mine, map, hp⟩ := h.pages
  exact vmaStep_pageBounds hp hnw hal.freesPages h.bounds hstep

/-- A file that `get_file_rvadrandsz` finds is in the memory that the kernel maps, which is
behind `KRNL_VIRTUAL_ADDRESS_START`. -/
structure InKernelMap (file : Nat × Nat) : Prop where
  lo : 0xffff800000000000 ≤ file.1
  hi : file.1 + file.2 ≤ wordMod

/-- Every state of a program. -/
theorem run_programInv {pdptepd mm : Nat} {k s₀ s₁ : VmaSt}
    (h : Made (copyPagesData pdptepd) k mm s₀) (hk : BoxesLive k) {file : Nat × Nat}
    (hfile : InKernelMap file) (hexec : krlthreadExecvl s₀ file = some s₁) (ops : List VmaOp)
    (hops : ∀ op ∈ ops, ProgramCall op) (hrun : run vmaStep ops s₁ = .ok s) :
    ∃ base, ProgramInv (copyPagesData pdptepd) k.mgr.kbmKmbhead base file s := by
  obtain ⟨base, hp⟩ := h.pages hk
  obtain ⟨hthread, hstep⟩ := krlthreadExecvl_some hexec
  have hstart : ProgramInv (copyPagesData pdptepd) k.mgr.kbmKmbhead base file
      { s₀ with msdThread := some file } := by
    refine ⟨⟨[], fun _ => none, ?_⟩, h.pageBounds, rfl⟩
    exact ⟨⟨hp.objs.out, hp.objs.head, hp.objs.others, hp.objs.users, hp.objs.cont⟩, hp.order,
      ⟨hp.frames.mmu, hp.frames.once, hp.frames.apart⟩⟩
  have hnw : (VmaOp.new apprunStartVitrualaddr file.2 0 kmvBinType).NoWrap := by
    show 0x100000 + vadszAlign file.2 < wordMod
    have hlo := hfile.lo
    have hhi := hfile.hi
    unfold vadszAlign
    rw [add64_eq (by omega)]
    omega
  refine ⟨base, run_inv_of_allSteps (ProgramInv (copyPagesData pdptepd) k.mgr.kbmKmbhead base file)
    (fun _ op => op.NoWrap ∧ op.PageAligned) ProgramInv.step ops s₁ s ?_
    (allSteps_of_forall ops s₁ fun op hop => (hops op hop).noWrap) hrun⟩
  exact hstart.step _ _ s₁ ⟨hnw, rfl⟩ hstep

/-- Adding to an address loses nothing. -/
theorem add64_inj {a b c : Nat} (hb : b < wordMod) (hc : c < wordMod)
    (h : add64 a b = add64 a c) : b = c := by
  unfold add64 wordMod at h
  unfold wordMod at hb hc
  omega

/-- The place of a page in the file, counted from the start of its region and from the
start of the program. -/
theorem fileOffset_eq_iff {v lo : Nat} (hv : v < wordMod) (hlo : lo ≤ v)
    (hmod : lo % 0x1000 = 0) :
    sub64 v lo / 0x1000 * 0x1000 = sub64 (v / 0x1000 * 0x1000) apprunStartVitrualaddr ↔
      lo = apprunStartVitrualaddr := by
  unfold apprunStartVitrualaddr
  rw [sub64_eq hv hlo]
  by_cases hle : 0x100000 ≤ v / 0x1000 * 0x1000
  · rw [sub64_eq (by omega) hle]
    omega
  · unfold sub64 wordMod
    unfold wordMod at hv
    omega

/-- **When a page shows its part of the program file**: a fault in a region of the program
fills the page from there exactly if the region still begins where the program does. -/
theorem programPage_iff {pdptepd mm : Nat} {k s₀ s₁ : VmaSt}
    (h : Made (copyPagesData pdptepd) k mm s₀) (hk : BoxesLive k) {file : Nat × Nat}
    (hfile : InKernelMap file) (hexec : krlthreadExecvl s₀ file = some s₁) (ops : List VmaOp)
    (hops : ∀ op ∈ ops, ProgramCall op) (hrun : run vmaStep ops s₁ = .ok s) {vadrs : Nat}
    {r : Kmvarsdsc} (hr : vmaMapFindKmvarsdsc s.vma vadrs = some r)
    (hbin : r.kvaMaptype = kmvBinType)
    (hfair : (vmaMapFairvadrs vadrs).run s = .ok (.eok, s')) :
    ShowsFile file.1 s' vadrs ↔ r.kvaStart = apprunStartVitrualaddr := by
  obtain ⟨base, ⟨mine, map, hp⟩, hbounds, hthread⟩ := run_programInv h hk hfile hexec ops hops hrun
  obtain ⟨hmem, hlo, hhi⟩ := vmaMapFindKmvarsdsc_holds hr
  obtain ⟨r', kmbox, t₁, phyadrs, t₂, hr', htop, hbox, hmap, hphy, hfill⟩ :=
    vmaMapFairvadrs_eok hfair
  rw [hr] at hr'
  cases hr'
  unfold userVirtualAddressEnd at htop
  obtain ⟨mine', -, -, hframes, -⟩ := hp.regionBox s.box hmem hbox
  obtain ⟨f, hf⟩ := hmap.lookup hframes (by omega) hphy
  obtain ⟨hhal, hfilled⟩ := vmaFullTextbin_bin hbin
    (hmap.thread.trans (hbox.thread.trans hthread)) hf hfill
  have hone : ShowsFile file.1 s' vadrs ↔ s'.filled f =
      some (add64 file.1 (sub64 (vadrs / 0x1000 * 0x1000) apprunStartVitrualaddr)) := by
    constructor
    · rintro ⟨g, hg, hshow⟩
      rw [hhal, hf] at hg
      cases hg
      exact hshow
    · intro hshow
      exact ⟨f, by rw [hhal]; exact hf, hshow⟩
  have hv : vadrs < wordMod := by
    unfold wordMod
    omega
  rw [hone, hfilled, Option.some.injEq, ← fileOffset_eq_iff hv hlo (hbounds r hmem).1]
  constructor
  · refine add64_inj ?_ (sub64_lt _ _)
    have := sub64_lt vadrs r.kvaStart
    omega
  · intro he
    rw [he]

end Thread

/-! ## Programs that run -/

/-- A file of two and a half pages. -/
def someFile : Nat × Nat := (0xffff800000400000, 0x2800)

/-- A program with this file, after some calls. -/
def runProgram (ops : List VmaOp) (s : VmaSt) : Except String VmaSt :=
  match krlthreadExecvl s someFile with
  | none => .error "no program"
  | some s => run vmaStep ops s

theorem runProgram_ok {ops : List VmaOp} {s t : VmaSt} (h : runProgram ops s = .ok t) :
    ∃ s₁, krlthreadExecvl s someFile = some s₁ ∧ run vmaStep ops s₁ = .ok t := by
  unfold runProgram at h
  cases he : krlthreadExecvl s someFile with
  | none =>
      rw [he] at h
      cases h
  | some s₁ =>
      rw [he] at h
      exact ⟨s₁, rfl, h⟩

/-- The last page of the program goes. -/
def freeBack : List VmaOp := [krlsveMallocblk 0x1000, krlsveMfreeblk 0x102000 0x1000]

theorem freeBack_calls : ∀ op ∈ freeBack, ProgramCall op := by
  intro op hop
  rcases List.mem_cons.mp hop with rfl | hop
  · exact Or.inl ⟨_, rfl⟩
  · rw [List.mem_singleton.mp hop]
    exact Or.inr (Or.inl ⟨_, _, rfl, by decide, by decide⟩)

theorem programPage_iff_freeBack : ∃ s' : VmaSt, ShowsFile someFile.1 s' 0x101234 := by
  obtain ⟨s₀, hmade, hq⟩ := exists_made (q := fun s => okAnd (runProgram freeBack s) fun t =>
    okAnd ((vmaMapFairvadrs 0x101234).run t) fun r => r.1 = .eok &&
      (vmaMapFindKmvarsdsc t.vma 0x101234).any fun r =>
        r.kvaMaptype = kmvBinType && r.kvaStart = apprunStartVitrualaddr) (by decide +kernel)
  obtain ⟨s, hprog, hs⟩ := exists_of_okAnd hq
  obtain ⟨s₁, hexec, hrun⟩ := runProgram_ok hprog
  obtain ⟨⟨ret, s'⟩, hfair, hs⟩ := exists_of_okAnd hs
  rw [Bool.and_eq_true, Option.any_eq_true] at hs
  obtain ⟨hret, r, hr, hlike⟩ := hs
  rw [Bool.and_eq_true, decide_eq_true_eq, decide_eq_true_eq] at hlike
  simp only [decide_eq_true_eq] at hret
  subst hret
  exact ⟨s', (programPage_iff hmade freshVma_boxesLive ⟨by decide, by decide⟩ hexec freeBack
    freeBack_calls hrun hr hlike.1 hfair).mpr hlike.2⟩

/-- The first page of the program goes. -/
def freeFront : List VmaOp := [krlsveMfreeblk 0x100000 0x1000]

/-- The second page is then filled from the start of the file. -/
theorem programPage_not : ¬ ∀ (k s₀ s₁ s s' : VmaSt) (mm : Nat) (file : Nat × Nat)
    (ops : List VmaOp) (vadrs : Nat) (r : Kmvarsdsc), Made (copyPagesData 0) k mm s₀ →
      BoxesLive k → InKernelMap file → krlthreadExecvl s₀ file = some s₁ →
      (∀ op ∈ ops, ProgramCall op) → run vmaStep ops s₁ = .ok s →
      vmaMapFindKmvarsdsc s.vma vadrs = some r → r.kvaMaptype = kmvBinType →
      (vmaMapFairvadrs vadrs).run s = .ok (.eok, s') → ShowsFile file.1 s' vadrs := by
  intro hall
  obtain ⟨s₀, hmade, hq⟩ := exists_made (q := fun s => okAnd (runProgram freeFront s) fun t =>
    okAnd ((vmaMapFairvadrs 0x101000).run t) fun r => r.1 = .eok &&
      ((mmuLookup r.2.hal 0x101000).any fun f => r.2.filled f = some someFile.1) &&
      (vmaMapFindKmvarsdsc t.vma 0x101000).any fun r => r.kvaMaptype = kmvBinType)
    (by decide +kernel)
  obtain ⟨s, hprog, hs⟩ := exists_of_okAnd hq
  obtain ⟨s₁, hexec, hrun⟩ := runProgram_ok hprog
  obtain ⟨⟨ret, s'⟩, hfair, hs⟩ := exists_of_okAnd hs
  rw [Bool.and_eq_true, Bool.and_eq_true, Option.any_eq_true, Option.any_eq_true] at hs
  obtain ⟨⟨hret, f, hf, hfill⟩, r, hr, hlike⟩ := hs
  simp only [decide_eq_true_eq] at hret hfill hf
  subst hret
  have hcalls : ∀ op ∈ freeFront, ProgramCall op := by
    intro op hop
    rw [List.mem_singleton.mp hop]
    exact Or.inr (Or.inl ⟨_, _, rfl, by decide, by decide⟩)
  obtain ⟨g, hg, hshow⟩ := hall freshVma s₀ s₁ s s' _ someFile freeFront 0x101000 r hmade
    freshVma_boxesLive ⟨by decide, by decide⟩ hexec hcalls hrun hr (of_decide_eq_true hlike) hfair
  rw [hf] at hg
  cases hg
  rw [hfill, Option.some.injEq] at hshow
  exact absurd hshow (by decide)

end Cosmos.Kernel
