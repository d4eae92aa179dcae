import Cosmos.Kernel.KrlvadrsmemList

/-!
# Making an address space

`new_mmadrsdsc` asks for the descriptor, three regions and a page.  It looks at the answer to
the first request only: `kvma_inituserspace_virmemadrs` and `hal_mmu_init` give back what they
got when they cannot get the rest, and say so, and nobody listens.

## Main results

* `allOrNothing_iff` and `allOrNothing_not` : an address space is whole or is not made at all,
  exactly when the first request is refused or none is.
-/

namespace Cosmos.Kernel

open Cosmos.Lib Cosmos.Lib.StM Cosmos.Lib.Run Cosmos.Hal

/-- The three regions are there, and a top table with the kernel half of `pml4` and nothing at
entry 0. -/
structure Whole (pml4 : Nat → Nat) (s : VmaSt) : Prop where
  regions : ∃ kmvdc heapkmvdc stackkmvdc, s.vma.vsList =
    [kmvarsdscOf kmvdc 0x1000 0x5000 0,
      kmvarsdscOf heapkmvdc threadHeapadrStart (threadHeapadrStart + 0x1000) kmvHeapType,
      kmvarsdscOf stackkmvdc (vadszAlign (userVirtualAddressEnd - 0x40000000))
        userVirtualAddressEnd kmvStackType]
  top : ∃ top, s.hal.mmu.mudTdirearr = some top ∧ s.hal.tbl top 0 = 0 ∧
    ∀ i, 256 ≤ i → i < 512 → s.hal.tbl top i = pml4 i

/-- What `new_mmadrsdsc` returns from `k` is a whole address space, or `NULL` and the objects
and the pages in use are those from before. -/
def AllOrNothing (pml4 : Nat → Nat) (k : VmaSt) : Option Nat → VmaSt → Prop
  | some _, s => Whole pml4 s
  | none, s => s.kms.out = k.kms.out ∧ s.hal.pgs.out = k.hal.pgs.out

section New

/-- `hal_mmu_init` has made the top table `top`. -/
structure TopMade (pml4 : Nat → Nat) (s s' : MmuSt) (top : PageFrame) : Prop where
  got : s.pgs.take.1 = some top
  out : s'.pgs.out = top :: s.pgs.out
  mmu : s'.mmu = { s.mmu.addMsa .tdir top with mudTdirearr := some top }
  zero : s'.tbl top 0 = 0
  rest : ∀ i, i ≠ 0 → s'.tbl top i = pml4 i

/-- **`hal_mmu_init`** makes a top table if it gets a page. -/
theorem halMmuInit_run (pml4 : Nat → Nat) (s : MmuSt) : ∃ b s', (halMmuInit pml4).run s = .ok (b, s') ∧
    ((s.pgs.Grants 1 ∧ ∃ top, TopMade pml4 s s' top) ∨
      (¬ s.pgs.Grants 1 ∧ s'.mmu = s.mmu ∧ s'.pgs.out = s.pgs.out)) := by
  have hgrants : s.pgs.Grants 1 ↔ s.pgs.take.1 ≠ none := by
    simp only [Supply.Grants, and_true]
  have hdir : (mmuNewDirearr .tdir).run s = _ :=
    run_bind_ok (show (get : MmuM MmuSt).run s = .ok (s, s) from rfl)
  unfold halMmuInit mmuNewTdirearr
  rw [hgrants]
  have hcases := s.pgs.take_cases
  rcases htake : s.pgs.take with ⟨o, pgs⟩
  simp only [htake] at hdir hcases
  cases o with
  | none =>
      rw [run_bind_ok (run_bind_ok hdir)]
      refine ⟨_, _, rfl, Or.inr ⟨fun h => h rfl, rfl, ?_⟩⟩
      rcases hcases with ⟨-, hout⟩ | ⟨f, hf, -⟩
      · exact hout
      · cases hf
  | some top =>
      rw [run_bind_ok (run_bind_ok hdir)]
      refine ⟨_, _, rfl, Or.inl ⟨Option.some_ne_none top, top, ?_, ?_, rfl, ?_, fun i hi => ?_⟩⟩
      · rw [htake]
      · rcases hcases with ⟨hf, -⟩ | ⟨f, hf, -, hout⟩
        · cases hf
        · cases hf
          exact hout
      · rw [setEntry_tbl]
        exact if_pos ⟨rfl, rfl⟩
      · rw [setEntry_tbl, if_neg fun h => hi h.2]
        exact congrFun (Function.update_self top pml4
          (Function.update s.tbl top fun _ => 0)) i

/-- What `new_mmadrsdsc` gets after its first request: the three regions or none, and a top
table or none. -/
structure NewParts (pml4 : Nat → Nat) (k : VmaSt) (mm : Nat) (vma : Virmemadrs) (hal : MmuSt)
    (kms : Supply Nat) : Prop where
  regions : (k.kms.Grants 4 ∧ kms = k.kms.after 4 ∧ ∃ x y z,
      vma = virmemadrsInit.initUser x y z ∧ kms.out = z :: y :: x :: mm :: k.kms.out) ∨
    (¬ k.kms.Grants 4 ∧ vma = virmemadrsInit ∧ kms.out.Perm (mm :: k.kms.out))
  tables : (k.hal.pgs.Grants 1 ∧ ∃ top, TopMade pml4 { k.hal with mmu := mmudscInit } hal top) ∨
    (¬ k.hal.pgs.Grants 1 ∧ hal.mmu = mmudscInit ∧ hal.pgs.out = k.hal.pgs.out)

/-- **`new_mmadrsdsc`** returns a descriptor if it gets one. -/
theorem newMmadrsdsc_run (pml4 : Nat → Nat) (k : VmaSt) :
    (k.kms.take.1 = none ∧
      (newMmadrsdsc pml4).run k = .ok (none, { k with kms := k.kms.take.2 })) ∨
    ∃ mm vma hal kms, k.kms.take.1 = some mm ∧ (newMmadrsdsc pml4).run k = .ok (some mm, { k with
        vma := vma
        msdThread := none
        hal := hal
        kms := kms }) ∧ NewParts pml4 k mm vma hal kms := by
  unfold newMmadrsdsc
  have htake : kmsobTake.run k = .ok (k.kms.take.1, { k with kms := k.kms.take.2 }) := rfl
  rw [run_bind_ok htake]
  rcases k.kms.take_cases with ⟨ho, -⟩ | ⟨mm, ho, -, hmm⟩
  · rw [ho]
    exact Or.inl ⟨rfl, rfl⟩
  rw [ho]
  have hfour : k.kms.Grants 4 ↔ k.kms.take.2.Grants 3 :=
    and_iff_right (ho ▸ Option.some_ne_none mm)
  -- what `mmadrsdsc_t_init` leaves
  have hinit : ∀ t : VmaSt, (modify fun s : VmaSt => { s with
      vma := virmemadrsInit
      msdThread := none
      hal := { s.hal with mmu := mmudscInit } } : VmaM Unit).run t = .ok ((), { t with
        vma := virmemadrsInit
        msdThread := none
        hal := { t.hal with mmu := mmudscInit } }) := fun t => rfl
  dsimp only
  rw [run_bind_ok (hinit _)]
  obtain ⟨b, vma, kms, huser, hregions⟩ := kvmaInituserspaceVirmemadrs_run { k with
    vma := virmemadrsInit
    msdThread := none
    hal := { k.hal with mmu := mmudscInit }
    kms := k.kms.take.2 }
  rw [run_bind_ok huser]
  obtain ⟨c, hal, hmmu, htop⟩ := halMmuInit_run pml4 { k.hal with mmu := mmudscInit }
  have hmmu' : (onMmu (halMmuInit pml4)).run { k with
      vma := vma
      msdThread := none
      hal := { k.hal with mmu := mmudscInit }
      kms := kms } = .ok (c, { k with vma := vma, msdThread := none, hal := hal, kms := kms }) :=
    onMmu_run hmmu
  rw [run_bind_ok hmmu']
  refine Or.inr ⟨mm, vma, hal, kms, rfl, rfl, ?_, htop⟩
  rw [hfour, ← hmm]
  exact hregions

/-- **An address space is whole or is not made at all exactly when** the first request is
refused, or all are served. -/
theorem allOrNothing_iff (pml4 : Nat → Nat) (k : VmaSt) : ∃ r s,
    (newMmadrsdsc pml4).run k = .ok (r, s) ∧
      (AllOrNothing pml4 k r s ↔
        ¬ k.kms.Grants 1 ∨ (k.kms.Grants 4 ∧ k.hal.pgs.Grants 1)) := by
  have hone : k.kms.Grants 1 ↔ k.kms.take.1 ≠ none := by
    simp only [Supply.Grants, and_true]
  rw [hone]
  rcases newMmadrsdsc_run pml4 k with ⟨ho, hrun⟩ | ⟨mm, vma, hal, kms, ho, hrun, hparts⟩
  · have hout : k.kms.take.2.out = k.kms.out := by
      rcases k.kms.take_cases with ⟨-, hout⟩ | ⟨x, hx, -⟩
      · exact hout
      · rw [ho] at hx
        cases hx
    exact ⟨none, _, hrun, iff_of_true ⟨hout, rfl⟩ (Or.inl fun h => h ho)⟩
  refine ⟨some mm, _, hrun, ?_⟩
  have hwhole : AllOrNothing pml4 k (some mm)
      { k with vma := vma, msdThread := none, hal := hal, kms := kms } ↔
        k.kms.Grants 4 ∧ k.hal.pgs.Grants 1 := by
    constructor
    · intro h
      refine ⟨?_, ?_⟩
      · rcases hparts.regions with ⟨hg, -⟩ | ⟨-, rfl, -⟩
        · exact hg
        · obtain ⟨x, y, z, hl⟩ := h.regions
          cases hl
      · rcases hparts.tables with ⟨hg, -⟩ | ⟨-, hm, -⟩
        · exact hg
        · obtain ⟨top, hl, -⟩ := h.top
          have hl : hal.mmu.mudTdirearr = some top := hl
          rw [hm] at hl
          cases hl
    · rintro ⟨hg, hp⟩
      constructor
      · obtain ⟨-, -, x, y, z, rfl, -⟩ := hparts.regions.resolve_right fun h => h.1 hg
        exact ⟨x, y, z, rfl⟩
      · obtain ⟨top, ht⟩ := (hparts.tables.resolve_right fun h => h.1 hp).2
        refine ⟨top, ?_, ht.zero, fun i hi _ => ht.rest i (by omega)⟩
        show hal.mmu.mudTdirearr = some top
        rw [ht.mmu]
  rw [hwhole]
  constructor
  · exact Or.inr
  · rintro (hno | hboth)
    · exact absurd (ho ▸ Option.some_ne_none mm) hno
    · exact hboth

/-- A kernel that has one object left. -/
def lastObj : VmaSt := { freshVma with
  kms := ⟨[], List.nodup_nil, fun n => if n = 0 then some 0x10000 else none, 0⟩ }

/-- The address space that takes the last object has no regions. -/
theorem allOrNothing_not : ¬ ∀ (k : VmaSt) (r : Option Nat) (s : VmaSt),
    (newMmadrsdsc (copyPagesData 0)).run k = .ok (r, s) →
      AllOrNothing (copyPagesData 0) k r s := by
  intro hall
  obtain ⟨⟨r, s⟩, hrun, hq⟩ := exists_of_okAnd (e := (newMmadrsdsc (copyPagesData 0)).run lastObj)
    (q := fun p => p.1 = some 0x10000 && p.2.vma.vsList.isEmpty) (by decide +kernel)
  rw [Bool.and_eq_true, decide_eq_true_eq] at hq
  obtain ⟨rfl, hempty⟩ := hq
  obtain ⟨x, y, z, hl⟩ := (hall lastObj _ s hrun).regions
  rw [hl] at hempty
  cases hempty

end New

end Cosmos.Kernel
