import Cosmos.Hal.MemareaInit

/-!
# What every run of the page allocator guarantees

Boot followed by any sequence of calls: who owns each page, what the counters
say and which frees are accepted.  The results read the invariant `MmInv` of the
reached state in the terms of the boot array.
-/

namespace Cosmos.Hal

open Cosmos.Lib.Word64 Cosmos.Lib.Cover Cosmos.Lib.Pool Cosmos.Lib.Run

/-- A state that some sequence of calls leads to from boot. -/
def BootMem.Reaches (b : BootMem) (st : MmState) : Prop :=
  ∃ mm ops, b.boot = .ok mm ∧ run mmStep ops ⟨mm, []⟩ = .ok st

/-- Boot and a sequence of calls, as one computation. -/
def BootMem.runFrom (b : BootMem) (ops : List MmOp) : Except String MmState :=
  match b.boot with
  | .error e => .error e
  | .ok mm => run mmStep ops ⟨mm, []⟩

theorem BootMem.reaches_of_runFrom {b : BootMem} {ops : List MmOp} {st : MmState}
    (h : b.runFrom ops = .ok st) : b.Reaches st := by
  unfold BootMem.runFrom at h
  split at h
  · cases h
  · rename_i mm hboot
    exact ⟨mm, ops, hboot, h⟩

/-- Four pages at the start of the kernel area. -/
def fourPages : BootArray where
  msanr := 4
  padrs := fun i => 0x2000 + i
  occupied := fun _ => false
  slack := fun _ => writeOneMsadsc 0
  msanr_pos := by decide
  msanr_lt := by decide
  padrs_lt := by decide
  padrs_inj := by decide
  slack_end := fun h => absurd h.marty (by decide)

/-- After two allocations and a free one page of `fourPages` is handed out. -/
theorem fourPages_reaches : ∃ st, fourPages.Reaches st ∧ st.out = [⟨1, 1⟩] := by
  obtain ⟨st, hrun, hout⟩ := exists_of_okAnd
    (e := fourPages.runFrom [.divisionPages 1 MaType.krnl.code dmfReldiv,
      .divisionPages 1 MaType.krnl.code dmfReldiv, .mergePages 0 1])
    (q := fun st => st.out = [⟨1, 1⟩]) (by decide +kernel)
  exact ⟨st, BootMem.reaches_of_runFrom hrun, of_decide_eq_true hout⟩

section Reached

variable {b : BootArray} {st : MmState}

/-- Every reached state meets the invariant and has the pages of the array. -/
theorem BootMem.Reaches.inv (h : b.Reaches st) : MmInv st.mm st.out ∧ SameArray b st.mm := by
  obtain ⟨mm, ops, hboot, hrun⟩ := h
  have hinv := b.boot_inv hboot
  exact ⟨mmRun_inv ops ⟨mm, []⟩ st hinv hrun,
    (b.boot_same hboot).mono (mmRun_same ops ⟨mm, []⟩ st hinv hrun)⟩

theorem SameArray.managed_iff {mm : Memgrob} (h : SameArray b mm) (i : Nat) :
    Managed mm.mem.msadscstat mm.moMsanr i ↔ i < b.msanr ∧ b.occupied i = false := by
  unfold Managed
  rw [h.msanr]
  exact and_congr_right fun hi => h.mocty i hi

/-- Free and outstanding pages are the pages that were free at boot. -/
theorem MmInv.moFree_add_outLen_boot {mm : Memgrob} {out : List Seg} (h : MmInv mm out)
    (hs : SameArray b mm) : mm.moFreepages + outLen out =
      ((Finset.range b.msanr).filter fun i => b.occupied i = false).card := by
  rw [h.moFree_add_outLen, hs.msanr]
  congr 1
  apply Finset.filter_congr
  intro i hi
  rw [← hs.msanr]
  exact (hs.managed_iff i).trans (and_iff_right (Finset.mem_range.mp hi))

/-! ## Ownership -/

/-- Every page that was free at boot is in exactly one block, and the blocks
look as their place says. -/
structure PagesOwned (b : BootArray) (st : MmState) : Prop where
  /-- the number of list entries and outstanding blocks that contain a page -/
  once : ∀ i, freeCover ptrs BafhPtr.ord st.mm.mem.free i + cover st.out i
    = if i < b.msanr ∧ b.occupied i = false then 1 else 0
  /-- the lists of an area hold pages of that area -/
  own : ∀ p ∈ ptrs, ∀ s ∈ st.mm.mem.free p, ∀ i, (Seg.mk s p.ord).Has i →
    padrsTy (b.padrs i) = areaTy p.area
  apart : st.out.Pairwise fun c c' => ∀ i, c.Has i → ¬ c'.Has i
  listed : ∀ p ∈ ptrs, ∀ s ∈ st.mm.mem.free p,
    FreeBlk st.mm.mem.msadscstat (areaTy p.area) p s p.ord
  handed : ∀ c ∈ st.out, ∃ p : BafhPtr, p.Used ∧ c.len = p.ord ∧
    OutBlk st.mm.mem.msadscstat (areaTy p.area) c.start c.len
  /-- descriptors still name the pages the memory map gave them -/
  padrs : ∀ i < b.msanr, (st.mm.mem.msadscstat i).pafPadrs = b.padrs i

/-- **Ownership.**  In every state reached from boot every free page is in
exactly one free list entry or outstanding block. -/
theorem pages_owned (h : b.Reaches st) : PagesOwned b st := by
  obtain ⟨hinv, hsame⟩ := h.inv
  refine {
    once := fun i => ?_
    own := fun p hp s hs i hi => ?_
    apart := pairwise_of_cover_le fun i => ?_
    listed := hinv.mem.free
    handed := hinv.outs
    padrs := hsame.padrs }
  · rw [hinv.mem.tiles i]
    exact if_congr (hsame.managed_iff i) rfl rfl
  · obtain ⟨hlt, _⟩ := (hsame.managed_iff i).mp (hinv.mem.tiles.free_dom hp hs hi)
    obtain ⟨j, rfl⟩ := Nat.exists_eq_add_of_le hi.1
    have hend := hi.2
    simp only at hend
    rw [← hsame.marty _ hlt]
    exact ((hinv.mem.free p hp s hs).shape j (by omega)).1
  · have := hinv.mem.tiles.le_one i
    omega

theorem pages_owned_fourPages : ∃ st, st.out = [⟨1, 1⟩] ∧ PagesOwned fourPages st := by
  obtain ⟨st, hreach, hout⟩ := fourPages_reaches
  exact ⟨st, hout, pages_owned hreach⟩

/-! ## Accounting -/

/-- Pages on the lists of an area, by the counters of the lists. -/
def Memarea.listedPages (m : Memarea) : Nat :=
  (∑ k ∈ Finset.range mdivmerArrLmax,
      (m.dmMdmlielst k).afOderpnr * (m.dmMdmlielst k).afFobjnr)
    + m.dmOnemsalst.afOderpnr * m.dmOnemsalst.afFobjnr

theorem areaFree_eq_listedPages {x : Mem} {msanr a : Nat} {held : List Seg}
    (h : MemInv x msanr held) (ha : a < memareaMax) :
    areaFree x a = (x.mareastat a).listedPages := by
  have hval : ∀ p ∈ areaPtrs a, p.ord * (x.free p).length
      = (x.bafh p).afOderpnr * (x.bafh p).afFobjnr := by
    intro p hp
    rw [h.order p (mem_ptrs_of_area ha hp), h.fobjnr p (mem_ptrs_of_area ha hp)]
  have hnot : BafhPtr.one a ∉ (Finset.range mdivmerArrLmax).image (BafhPtr.lie a) := by
    simp
  unfold areaFree freeSum
  rw [Finset.sum_congr rfl hval]
  unfold areaPtrs
  rw [Finset.sum_insert hnot, Finset.sum_image fun k _ k' _ hk => by injection hk, Nat.add_comm]
  rfl

/-- The page counters are what the lists and the outstanding blocks say.  All
equations are between natural numbers: no counter has wrapped. -/
structure PagesCounted (b : BootMem) (st : MmState) : Prop where
  areaFree : ∀ a < memareaMax,
    (st.mm.mem.mareastat a).maFreepages = (st.mm.mem.mareastat a).listedPages
  areaAlloc : ∀ a < memareaMax, (st.mm.mem.mareastat a).maAllocpages
    = outSum st.mm.mem.msadscstat (areaTy a) st.out
  areaMax : ∀ a < memareaMax,
    (st.mm.mem.mareastat a).maFreepages + (st.mm.mem.mareastat a).maAllocpages
      = (st.mm.mem.mareastat a).maMaxpages
  fobjnr : ∀ p ∈ ptrs, (st.mm.mem.bafh p).afFobjnr = (st.mm.mem.free p).length
  moFree : st.mm.moFreepages
    = ∑ a ∈ Finset.range memareaMax, (st.mm.mem.mareastat a).maFreepages
  moMax : st.mm.moFreepages + st.mm.moAlocpages = st.mm.moMaxpages
  /-- free and outstanding pages are the pages that were free at boot -/
  moOut : st.mm.moFreepages + outLen st.out
    = ((Finset.range b.msanr).filter fun i => b.occupied i = false).card
  maxpages : st.mm.moMaxpages = b.msanr

/-- **Accounting**, if the boot scan ends with the array. -/
theorem pages_counted {m : BootMem} (hend : m.Continued → m.OneRun) (h : m.Reaches st) :
    PagesCounted m st := by
  have hreach : (BootArray.mk m hend).Reaches st := h
  obtain ⟨hinv, hsame⟩ := hreach.inv
  refine {
    areaFree := fun a ha => ?_
    areaAlloc := hinv.allocpages
    areaMax := hinv.maxpages
    fobjnr := hinv.mem.fobjnr
    moFree := hinv.moFree
    moMax := hinv.moMax
    moOut := hinv.moFree_add_outLen_boot hsame
    maxpages := hsame.maxpages }
  rw [← areaFree_eq_listedPages hinv.mem ha]
  exact hinv.freepages a ha

theorem pages_counted_fourPages :
    ∃ st, st.out = [⟨1, 1⟩] ∧ PagesCounted fourPages.toBootMem st := by
  obtain ⟨st, hreach, hout⟩ := fourPages_reaches
  exact ⟨st, hout, pages_counted fourPages.slack_end hreach⟩

/-- A reserved page and a free one, and memory behind them that looks like a third page. -/
def pageBehind : BootMem where
  msanr := 2
  padrs := fun i => 0x2000 + i
  occupied := fun i => i = 0
  slack := fun i => { writeOneMsadsc (0x2000 + i) with mfMarty := .krnl }
  msanr_pos := by decide
  msanr_lt := by decide
  padrs_lt := by decide
  padrs_inj := by decide

/-- The area has one free page more than the memory manager, which has less than none left
when both are handed out. -/
theorem pages_not_counted : ¬ ∀ (m : BootMem) (st : MmState), m.Reaches st → PagesCounted m st := by
  intro hall
  obtain ⟨st, hrun, hwrap⟩ := exists_of_okAnd
    (e := pageBehind.runFrom [.divisionPages 2 MaType.krnl.code dmfReldiv])
    (q := fun st => st.mm.moFreepages = 2 ^ 64 - 1) (by decide +kernel)
  have hcounted := hall pageBehind st (BootMem.reaches_of_runFrom hrun)
  have hfree := of_decide_eq_true hwrap
  have hmax := hcounted.moMax
  have hpages : st.mm.moMaxpages = 2 := hcounted.maxpages
  omega

/-! ## Which frees are accepted -/

/-- **Free accepts exactly the outstanding blocks**: for every descriptor and
every count the call returns, and when it does not return `TRUE` nothing has
changed. -/
theorem merge_accepts_outstanding (h : b.Reaches st) {d : Nat} (hd : d < b.msanr) (n : Nat) :
    (Seg.mk d n ∈ st.out ∧ ∃ mm', mmMergePages st.mm d n = .ok (mm', true)) ∨
      (Seg.mk d n ∉ st.out ∧ mmMergePages st.mm d n = .ok (st.mm, false)) := by
  obtain ⟨hinv, hsame⟩ := h.inv
  by_cases hmem : Seg.mk d n ∈ st.out
  · obtain ⟨mm', hrun, _⟩ := mmMergePages_accept hinv hmem
    exact Or.inl ⟨hmem, mm', hrun⟩
  · exact Or.inr ⟨hmem, mmMergePages_reject hinv (by rw [hsame.msanr]; exact hd) hmem⟩

/-- Page 1 is outstanding and page 0 was freed before. -/
theorem merge_accepts_outstanding_fourPages : ∃ st : MmState, st.out = [⟨1, 1⟩] ∧
    ((Seg.mk 1 1 ∈ st.out ∧ ∃ mm', mmMergePages st.mm 1 1 = .ok (mm', true)) ∨
      (Seg.mk 1 1 ∉ st.out ∧ mmMergePages st.mm 1 1 = .ok (st.mm, false))) ∧
    ((Seg.mk 0 1 ∈ st.out ∧ ∃ mm', mmMergePages st.mm 0 1 = .ok (mm', true)) ∨
      (Seg.mk 0 1 ∉ st.out ∧ mmMergePages st.mm 0 1 = .ok (st.mm, false))) := by
  obtain ⟨st, hreach, hout⟩ := fourPages_reaches
  exact ⟨st, hout, merge_accepts_outstanding hreach (by decide) 1,
    merge_accepts_outstanding hreach (by decide) 1⟩

end Reached

end Cosmos.Hal
