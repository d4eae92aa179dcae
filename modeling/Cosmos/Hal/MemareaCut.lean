import Cosmos.Hal.MemareaInit

/-!
# The partition of the free pages at boot

`merlove_mem_core` in terms of the memory map: which descriptors the lists hold
after it, where each longest run of free pages was cut, and what the counters of
the areas say.  The page numbers of the descriptors are ascending here, as the
sorted memory map writes them.
-/

namespace Cosmos.Hal

open Cosmos.Lib.Word64 Cosmos.Lib.Cover Cosmos.Lib.Pool Cosmos.Lib.Run Cosmos.Lib.BinaryCut

variable {b : BootArray} {a : Nat}

/-! ## Runs of page numbers -/

/-- Page `q` is described by a free descriptor and lies in area `a`. -/
def BootArray.FreePage (b : BootArray) (a q : Nat) : Prop :=
  inMarea (initMemareaCore a) (q * pagesize) = true ∧
    ∃ i < b.msanr, b.padrs i = q ∧ b.occupied i = false

/-- The `m` pages from `q` on are free pages of the area, and the pages before
and behind them are not. -/
structure FreeRun (b : BootArray) (a q m : Nat) : Prop where
  pos : 0 < m
  pages : ∀ j < m, b.FreePage a (q + j)
  low : ∀ q', q' + 1 = q → ¬ b.FreePage a q'
  high : ¬ b.FreePage a (q + m)

/-- The page of a descriptor lies in the area of its number. -/
theorem BootArray.inMarea_padrs (b : BootArray) (ha : a < 3) {i : Nat} (hi : i < b.msanr) :
    inMarea (initMemareaCore a) (b.padrs i * pagesize) = true ↔ padrsArea (b.padrs i) = a := by
  rw [inMarea_eq a ha (b.padrs_lt i hi), decide_eq_true_eq, padrsTy_iff ha]

theorem BootArray.freePage_padrs (b : BootArray) (ha : a < 3) {i : Nat} (hi : i < b.msanr) :
    b.FreePage a (b.padrs i) ↔ b.occupied i = false ∧ padrsArea (b.padrs i) = a := by
  unfold BootArray.FreePage
  rw [b.inMarea_padrs ha hi]
  constructor
  · rintro ⟨harea, j, hj, hpad, hocc⟩
    rw [b.padrs_inj j hj i hi hpad] at hocc
    exact ⟨hocc, harea⟩
  · rintro ⟨hocc, harea⟩
    exact ⟨harea, i, hi, rfl, hocc⟩

/-- The page numbers ascend with the descriptors. -/
def BootArray.Ascending (b : BootArray) : Prop :=
  ∀ i j, i < j → j < b.msanr → b.padrs i < b.padrs j

/-- The descriptor of the next page is the next descriptor. -/
theorem BootArray.Ascending.next (hasc : b.Ascending) {i j : Nat} (hi : i < b.msanr)
    (hj : j < b.msanr) (hpad : b.padrs j = b.padrs i + 1) : j = i + 1 := by
  rcases Nat.lt_trichotomy j (i + 1) with hlt | heq | hgt
  · rcases Nat.lt_or_ge j i with h | h
    · have := hasc j i h hi
      omega
    · rw [show j = i by omega] at hpad
      omega
  · exact heq
  · have h1 := hasc i (i + 1) (Nat.lt_succ_self i) (by omega)
    have h2 := hasc (i + 1) j hgt hj
    omega

/-- Two free pages in a row are linked. -/
theorem link_of_freePage (ha : a < 3) {i : Nat} (hi : i + 1 < b.msanr)
    (hfree : b.FreePage a (b.padrs i)) (hfree' : b.FreePage a (b.padrs (i + 1)))
    (hpad : b.padrs (i + 1) = b.padrs i + 1) : Link b.stamped (areaTy a) i := by
  have hrun : IsRun b a i 2 := by
    refine ⟨by omega, fun j hj => ?_⟩
    rcases (by omega : j = 0 ∨ j = 1) with rfl | rfl
    · obtain ⟨h1, h2⟩ := (b.freePage_padrs ha (by omega)).mp hfree
      exact ⟨h1, h2, rfl⟩
    · obtain ⟨h1, h2⟩ := (b.freePage_padrs ha hi).mp hfree'
      exact ⟨h1, h2, hpad⟩
  exact hrun.link ha (Nat.le_refl i) (by omega)

/-- A link joins two free pages in a row. -/
theorem Link.freePage (ha : a < 3) {i : Nat} (hlt : i + 1 < b.msanr)
    (h : Link b.stamped (areaTy a) i) : b.FreePage a (b.padrs i) ∧
      b.FreePage a (b.padrs (i + 1)) ∧ b.padrs (i + 1) = b.padrs i + 1 := by
  have hrun := isRun_of_links (n := 2) ha (by omega) h.1 fun j hj => by
    rw [show j = 0 by omega]
    exact h
  obtain ⟨h1, h2, _⟩ := hrun.page 0 (by decide)
  obtain ⟨h3, h4, h5⟩ := hrun.page 1 (by decide)
  exact ⟨(b.freePage_padrs ha (by omega)).mpr ⟨h1, h2⟩,
    (b.freePage_padrs ha hlt).mpr ⟨h3, h4⟩, h5⟩

/-- A longest run of descriptors is a longest run of pages. -/
theorem MaxRun.freeRun (ha : a < 3) (hasc : b.Ascending) {s m : Nat} (h : MaxRun b a s m) :
    FreeRun b a (b.padrs s) m := by
  have hpos := h.pos
  have hle := h.run.le
  refine ⟨hpos, fun j hj => ?_, fun q hq hfree => ?_, fun hfree => ?_⟩
  · obtain ⟨h1, h2, h3⟩ := h.run.page j hj
    rw [← h3]
    exact (b.freePage_padrs ha (by omega)).mpr ⟨h1, h2⟩
  · -- the page before would be the descriptor before
    obtain ⟨_, i, hi, rfl, _⟩ := id hfree
    have hnext := hasc.next hi (show s < b.msanr by omega) hq.symm
    rcases h.start with h0 | hbehind | hlink
    · omega
    · omega
    · subst hnext
      refine hlink (link_of_freePage ha (by omega) hfree ?_ hq.symm)
      obtain ⟨h1, h2, _⟩ := h.run.page 0 hpos
      exact (b.freePage_padrs ha (by omega)).mpr ⟨h1, h2⟩
  · -- the page behind would be the descriptor behind
    obtain ⟨_, i, hi, hpad, _⟩ := id hfree
    obtain ⟨h1, h2, h3⟩ := h.run.page (m - 1) (by omega)
    rw [show s + (m - 1) = s + m - 1 by omega] at h1 h2 h3
    have hpad' : b.padrs i = b.padrs (s + m - 1) + 1 := by omega
    have hnext := hasc.next (show s + m - 1 < b.msanr by omega) hi hpad'
    subst hnext
    refine h.stop.resolve_left (by omega) (link_of_freePage ha hi ?_ ?_ hpad')
    · exact (b.freePage_padrs ha (by omega)).mpr ⟨h1, h2⟩
    · rw [hpad]
      exact hfree

/-- A longest run of pages is a longest run of descriptors. -/
theorem FreeRun.maxRun (ha : a < 3) (hasc : b.Ascending) {q m : Nat} (h : FreeRun b a q m) :
    ∃ s < b.msanr, b.padrs s = q ∧ MaxRun b a s m := by
  have hpos := h.pos
  obtain ⟨_, s, hs, hpad, _⟩ := h.pages 0 hpos
  rw [Nat.add_zero] at hpad
  -- the descriptors of the pages follow each other
  have hidx : ∀ j < m, s + j < b.msanr ∧ b.padrs (s + j) = q + j := by
    intro j
    induction j with
    | zero => exact fun _ => ⟨hs, hpad⟩
    | succ j ih =>
        intro hj
        obtain ⟨hlt, hp⟩ := ih (by omega)
        obtain ⟨_, i, hi, hpi, _⟩ := h.pages (j + 1) hj
        have hnext := hasc.next hlt hi (by omega)
        subst hnext
        exact ⟨hi, hpi⟩
  have hrun : IsRun b a s m := by
    refine ⟨?_, fun j hj => ?_⟩
    · have := (hidx (m - 1) (by omega)).1
      omega
    · obtain ⟨hlt, hp⟩ := hidx j hj
      have hfree := h.pages j hj
      rw [← hp] at hfree
      obtain ⟨h1, h2⟩ := (b.freePage_padrs ha hlt).mp hfree
      exact ⟨h1, h2, by omega⟩
  refine ⟨s, hs, hpad, hrun, hpos, ?_, ?_⟩
  · by_cases h0 : s = 0
    · exact Or.inl h0
    · refine Or.inr (Or.inr fun hlink => ?_)
      obtain ⟨hf, _, hp⟩ := hlink.freePage ha (by omega)
      rw [Nat.sub_add_cancel (by omega)] at hp
      exact h.low _ (by omega) hf
  · have hle := hrun.le
    apply or_iff_not_imp_left.mpr
    intro hlt hlink
    obtain ⟨_, hf, hp⟩ := hlink.freePage ha (by omega)
    obtain ⟨_, hplast⟩ := hidx (m - 1) (by omega)
    rw [show s + (m - 1) = s + m - 1 by omega] at hplast
    rw [hp, hplast, show q + (m - 1) + 1 = q + m by omega] at hf
    exact h.high hf

/-! ## The partition -/

/-- The free descriptors of an area. -/
def BootArray.freeDescs (b : BootArray) (a : Nat) : Finset Nat :=
  (Finset.range b.msanr).filter fun i =>
    b.occupied i = false ∧ inMarea (initMemareaCore a) (b.padrs i * pagesize) = true

/-- The free pages are filed as the memory map says. -/
structure Partitioned (b : BootArray) (x : Mem) : Prop where
  /-- an unoccupied descriptor lies in one list entry, an occupied one in none -/
  once : ∀ i < b.msanr, freeCover ptrs BafhPtr.ord x.free i = if b.occupied i then 0 else 1
  /-- the entries of an area are blocks of consecutive free pages of that area -/
  home : ∀ p ∈ ptrs, ∀ s ∈ x.free p, ∀ j < p.ord, s + j < b.msanr ∧
    b.occupied (s + j) = false ∧ b.padrs (s + j) = b.padrs s + j ∧
    inMarea (initMemareaCore p.area) (b.padrs (s + j) * pagesize) = true
  /-- the process area keeps its pages one by one -/
  proc : ∀ i, i ∈ x.free (.one 2) ↔ i ∈ b.freeDescs 2
  /-- each longest run of the other areas is cut into powers of two from its low end -/
  cut : ∀ a < 2, ∀ k q, (∃ s ∈ x.free (.lie a k), b.padrs s = q) ↔
    ∃ r m, FreeRun b a r m ∧ IsPiece r m q k
  /-- the counters of an area -/
  counts : ∀ a < memareaMax, (x.hdr a).maMaxpages = (b.freeDescs a).card ∧
    (x.hdr a).maFreepages = (b.freeDescs a).card

/-- No page lies in an area behind the three that own pages. -/
theorem not_inMarea_shar {p : Nat} (hp : p < 2 ^ 52) :
    inMarea (initMemareaCore 3) (p * pagesize) = false := by
  unfold inMarea
  rw [page_last hp]
  simp [initMemareaCore, memareaInit]

theorem BootArray.managed_stamped {x : Mem} (h : Filing b 3 0 x) (i : Nat) :
    Managed x.msadscstat b.msanr i ↔ i < b.msanr ∧ b.occupied i = false := by
  apply and_congr_right
  intro hi
  obtain ⟨o, l, htag⟩ := h.tags i
  rw [htag]
  exact (b.stamped_of_lt hi).2.2.2.2

/-- The pages of a listed block. -/
theorem Filing.block {x : Mem} (h : Filing b 3 0 x) {p : BafhPtr} (hp : p ∈ ptrs) {s : Nat}
    (hs : s ∈ x.free p) {j : Nat} (hj : j < p.ord) : p.area < 3 ∧ s + j < b.msanr ∧
      b.occupied (s + j) = false ∧ b.padrs (s + j) = b.padrs s + j ∧
      padrsArea (b.padrs (s + j)) = p.area := by
  have harea : p.area < 3 := by
    have hused := h.inv.used p hp s hs
    cases p with
    | lie c k => exact Nat.lt_succ_of_lt hused.1
    | one c =>
        have hc : c = 2 := hused
        subst hc
        decide
  have hin : (Seg.mk s p.ord).Has (s + j) := Seg.has_mk (by omega) (by omega)
  obtain ⟨hlt, hocc⟩ := (b.managed_stamped h _).mp (h.inv.tiles.free_dom hp hs hin)
  obtain ⟨hty, hpad⟩ := (h.inv.free p hp s hs).shape j hj
  rw [h.padrs_eq, h.padrs_eq, (b.stamped_of_lt hlt).2.2.2.1,
    (b.stamped_of_lt (show s < b.msanr by omega)).2.2.2.1] at hpad
  obtain ⟨o, l, htag⟩ := h.tags (s + j)
  rw [htag] at hty
  rw [(b.stamped_of_lt hlt).2.2.1] at hty
  exact ⟨harea, hlt, hocc, hpad, (padrsTy_iff harea).mp hty⟩

/-- The pages on the lists of an area. -/
theorem Filing.areaFree_eq {x : Mem} (h : Filing b 3 0 x) (ha : a < memareaMax) :
    areaFree x a = (b.freeDescs a).card := by
  have htiles := h.inv.tiles
  rw [b.unfiled_end] at htiles
  have hmax : memareaMax = 4 := rfl
  have hhome : ∀ p ∈ ptrs, ∀ s ∈ x.free p, ∀ i, (Seg.mk s p.ord).Has i →
      padrsArea (b.padrs i) = p.area := by
    intro p hp s hs i hi
    obtain ⟨j, rfl⟩ := Nat.exists_eq_add_of_le hi.1
    have hj := hi.2
    simp only at hj
    exact (h.block hp hs (by omega)).2.2.2.2
  have hsub : areaPtrs a ⊆ ptrs := fun p hp => mem_ptrs_of_area ha hp
  have hpart := htiles.part hsub (E := fun i => padrsArea (b.padrs i) = a)
    (fun p hp s hs i hi => (hhome p (hsub hp) s hs i hi).trans (area_of_mem_areaPtrs hp))
    fun p hp hne s hs i hi heq => hne (by
      rw [← heq, hhome p hp s hs i hi]
      exact mem_areaPtrs_of_used (h.inv.used p hp s hs))
  have hsum := hpart.sum_lens (N := b.msanr) (fun i hi => hi.1.1) (fun p _ => p.ord_pos)
    fun c hc => absurd hc List.not_mem_nil
  rw [List.map_nil, List.sum_nil, Nat.add_zero] at hsum
  unfold areaFree
  rw [hsum]
  unfold BootArray.freeDescs
  refine congrArg Finset.card (Finset.filter_congr fun i hi => ?_)
  have hlt := Finset.mem_range.mp hi
  rw [b.managed_stamped h i, and_iff_right hlt]
  apply and_congr_right
  intro _
  by_cases h3 : a = 3
  · subst h3
    rw [not_inMarea_shar (b.padrs_lt i hlt)]
    have := padrsArea_lt (b.padrs i)
    simp
    omega
  · exact (b.inMarea_padrs (by omega) hlt).symm

/-- **The partition at boot.**  When `merlove_mem_core` gets through, the free
pages are filed as the memory map says. -/
theorem merlove_mem_partition (b : BootArray) (hasc : b.Ascending) {x : Mem}
    (hcore : merloveMemCore ⟨initMemareaCore, b.msadscs⟩ b.msanr = .ok (some x)) :
    Partitioned b x := by
  obtain ⟨h, hcut⟩ := merloveMemCore_filing b hcore
  have htiles := h.inv.tiles
  rw [b.unfiled_end] at htiles
  have hmax : memareaMax = 4 := rfl
  refine {
    once := fun i hi => ?_
    home := fun p hp s hs j hj => ?_
    proc := fun i => ?_
    cut := fun a ha k q => ?_
    counts := fun a ha => ?_ }
  · have hone := htiles i
    rw [cover_nil, Nat.add_zero] at hone
    rw [hone]
    cases hocc : b.occupied i with
    | false => exact if_pos ((b.managed_stamped h i).mpr ⟨hi, hocc⟩)
    | true =>
        apply if_neg
        intro hman
        have := ((b.managed_stamped h i).mp hman).2
        rw [hocc] at this
        cases this
  · obtain ⟨harea, hlt, hocc, hpad, hpa⟩ := h.block hp hs hj
    exact ⟨hlt, hocc, hpad, (b.inMarea_padrs harea hlt).mpr hpa⟩
  · have hone : BafhPtr.one 2 ∈ ptrs := one_mem_ptrs (by decide)
    unfold BootArray.freeDescs
    rw [Finset.mem_filter, Finset.mem_range]
    constructor
    · intro hi
      obtain ⟨harea, hlt, hocc, _, hpa⟩ := h.block hone hi (j := 0) (by decide)
      exact ⟨hlt, hocc, (b.inMarea_padrs harea hlt).mpr hpa⟩
    · rintro ⟨hlt, hocc, hin⟩
      rcases htiles.owner ((b.managed_stamped h i).mpr ⟨hlt, hocc⟩) with
        ⟨p, hp, s, hs, hhas⟩ | ⟨c, hc, _⟩
      · -- the only list of the process area is the one of single pages
        obtain ⟨j, rfl⟩ := Nat.exists_eq_add_of_le hhas.1
        have hj := hhas.2
        simp only at hj
        obtain ⟨_, _, _, _, hpa⟩ := h.block hp hs (j := j) (by omega)
        have harea := (b.inMarea_padrs (by decide) hlt).mp hin
        have hused := h.inv.used p hp s hs
        cases p with
        | lie c k =>
            have hc : c < 2 := hused.1
            have hc2 : 2 = c := harea.symm.trans hpa
            omega
        | one c =>
            have hc : c = 2 := hused
            subst hc
            have hord : (BafhPtr.one 2).ord = 1 := rfl
            rw [show j = 0 by omega]
            exact hs
      · exact absurd hc List.not_mem_nil
  · constructor
    · rintro ⟨s, hs, rfl⟩
      obtain ⟨r, m, hmaxr, _, hpc⟩ := (hcut a ha k s).mp hs
      have hrun := hmaxr.run
      have hin := hpc.le
      have hkpos := Nat.two_pow_pos k
      obtain ⟨j, rfl⟩ := Nat.exists_eq_add_of_le hin.1
      refine ⟨b.padrs r, m, hmaxr.freeRun (by omega) hasc, hpc.1, ?_⟩
      have hstart := hpc.2
      rw [(hrun.page j (by omega)).2.2]
      omega
    · rintro ⟨r, m, hfree, hpc⟩
      obtain ⟨s, hs, rfl, hmaxr⟩ := hfree.maxRun (by omega) hasc
      have hin := hpc.le
      have hkpos := Nat.two_pow_pos k
      obtain ⟨j, rfl⟩ := Nat.exists_eq_add_of_le hin.1
      have hstart := hpc.2
      refine ⟨s + j, (hcut a ha k (s + j)).mpr ⟨s, m, hmaxr, Or.inl (by omega), hpc.1, ?_⟩,
        (hmaxr.run.page j (by omega)).2.2⟩
      omega
  · obtain ⟨h1, h2, _⟩ := h.counts a ha
    rw [← h.areaFree_eq ha]
    exact ⟨h1, h2⟩

/-- Nine pages around the border of two areas, with one reserved, and one page
of the process area. -/
def borderPages : BootArray where
  msanr := 9
  padrs := fun i => if i < 8 then 0x1ffd + i else 0x400000
  occupied := fun i => i = 4
  slack := fun _ => writeOneMsadsc 0
  msanr_pos := by decide
  msanr_lt := by decide
  padrs_lt := by decide
  padrs_inj := by decide
  slack_end := fun h => absurd h.marty (by decide)

theorem merlove_mem_partition_borderPages : borderPages.Ascending ∧
    ∃ x, x.free (.lie 0 1) = [0] ∧ x.free (.lie 0 0) = [2] ∧ Partitioned borderPages x := by
  have hasc : borderPages.Ascending := by
    have hall : ∀ j < 9, ∀ i < j, borderPages.padrs i < borderPages.padrs j := by decide
    exact fun i j hij hj => hall j hj i hij
  obtain ⟨y, hcore, hfree⟩ := exists_of_okAnd
    (e := merloveMemCore ⟨initMemareaCore, borderPages.msadscs⟩ borderPages.msanr)
    (q := fun y => y.any fun x => x.free (.lie 0 1) = [0] && x.free (.lie 0 0) = [2])
    (by decide +kernel)
  cases y with
  | none => cases hfree
  | some x =>
      simp only [Option.any_some, Bool.and_eq_true, decide_eq_true_eq] at hfree
      exact ⟨hasc, x, hfree.1, hfree.2, merlove_mem_partition borderPages hasc hcore⟩

end Cosmos.Hal
