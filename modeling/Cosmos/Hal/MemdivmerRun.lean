import Cosmos.Lib.Run
import Cosmos.Hal.MmInv

/-!
# Calls and runs of the page allocator

What the three entry points of `memdivmer.c` return from a state that meets the
invariant, and what any sequence of calls makes of it.  A run keeps the list of
the blocks it was given and has not freed; `mm_merge_pages` takes exactly the
blocks on it.
-/

namespace Cosmos.Hal

open Cosmos.Lib.Word64 Cosmos.Lib.Cover Cosmos.Lib.Pool Cosmos.Lib.Run

/-- `mm'` is `mm` after block `b` was allocated. -/
def Allocated (mm mm' : Memgrob) (out : List Seg) (b : Seg) : Prop :=
  ∃ p rel x', Taken p rel b.start mm.moMsanr out mm.mem x' ∧ b.len = p.cut rel ∧
    mm' = { mm with mem := x' }.updatePages p.area b.len 0

/-- What no call changes: how many pages there are, in each area and together,
and for each page where it is, whose it is and whether it was free at boot. -/
structure SamePages (mm mm' : Memgrob) : Prop where
  msanr : mm'.moMsanr = mm.moMsanr
  maxpages : mm'.moMaxpages = mm.moMaxpages
  areaMax : ∀ a, (mm'.mem.hdr a).maMaxpages = (mm.mem.hdr a).maMaxpages
  static : SameStatic mm.mem.msadscstat mm'.mem.msadscstat

theorem SamePages.refl (mm : Memgrob) : SamePages mm mm :=
  ⟨rfl, rfl, fun _ => rfl, SameStatic.refl _⟩

theorem SamePages.trans {mm mm' mm'' : Memgrob} (h : SamePages mm mm')
    (h' : SamePages mm' mm'') : SamePages mm mm'' :=
  ⟨h'.msanr.trans h.msanr, h'.maxpages.trans h.maxpages,
    fun a => (h'.areaMax a).trans (h.areaMax a), h.static.trans h'.static⟩

theorem SamePages.updatePages (mm : Memgrob) {x' : Mem} {c : Nat} (a n flgs : Nat)
    (h : Frame c mm.mem x') :
    SamePages mm ({ mm with mem := x' }.updatePages a n flgs) := by
  obtain ⟨h1, _, h2⟩ := updatePages_fixed { mm with mem := x' } a n flgs
  refine ⟨h1, h2, fun e => ?_, ?_⟩
  · rw [(updatePages_hdr_type _ _ _ _ e).2, h.hdr]
  · rw [updatePages_msadscstat]
    exact h.static

section Calls

variable {mm : Memgrob} {out : List Seg}

theorem Allocated.inv {mm' : Memgrob} {b : Seg} (h : MmInv mm out)
    (ha : Allocated mm mm' out b) : MmInv mm' (b :: out) := by
  obtain ⟨p, rel, x', ht, hlen, rfl⟩ := ha
  have hinv := h.take ht
  rw [← hlen] at hinv
  exact hinv

theorem Allocated.same {mm' : Memgrob} {b : Seg} (ha : Allocated mm mm' out b) :
    SamePages mm mm' := by
  obtain ⟨p, rel, x', ht, _, rfl⟩ := ha
  exact SamePages.updatePages mm _ _ _ ht.frame

/-! ## Finding an area -/

/-- The area of every type is found. -/
theorem findMarea_areaTy (h : MmInv mm out) {a : Nat} (ha : a < memareaMax) :
    findMarea mm (areaTy a).code = some a := by
  have hty : ∀ b < memareaMax, (mm.mem.mareastat b).maType = areaTy b := h.mem.types
  unfold findMarea
  rw [h.mareanr, List.find?_range_eq_some]
  refine ⟨?_, List.mem_range.mpr ha, fun b hb => ?_⟩
  · rw [hty a ha]
    simp
  · rw [hty b (Nat.lt_trans hb ha)]
    have hne : ¬ (areaTy b).code = (areaTy a).code := by
      have hcode : ∀ c < memareaMax, (areaTy c).code = c + 1 := by decide
      rw [hcode a ha, hcode b (Nat.lt_trans hb ha)]
      omega
    simp [hne]

/-- An area found by its type is one of the four. -/
theorem findMarea_some (h : MmInv mm out) {c a : Nat} (hf : findMarea mm c = some a) :
    a < memareaMax := by
  unfold findMarea at hf
  have hmem := List.mem_of_find?_eq_some hf
  rw [List.mem_range, h.mareanr] at hmem
  exact hmem

/-! ## Allocation -/

/-- A block of `2 ^ k` pages is counted. -/
theorem countDiv_some (mm : Memgrob) (a : Nat) (x' : Mem) (s k : Nat) :
    mm.countDiv a (x', some (s, 2 ^ k))
      = ({ mm with mem := x' }.updatePages a (2 ^ k) 0, some (s, 2 ^ k)) := by
  have hpos := Nat.two_pow_pos k
  unfold Memgrob.countDiv
  simp only
  rw [if_pos (by omega)]

/-- The areas `mm_divpages_core` serves. -/
theorem area_lt_two {a : Nat} (ha : a < memareaMax)
    (hty : ¬ (areaTy a ≠ .krnl ∧ areaTy a ≠ .hwad)) : a < 2 := by
  have hcases : ∀ c < memareaMax, ¬ (areaTy c ≠ .krnl ∧ areaTy c ≠ .hwad) → c < 2 := by
    decide
  exact hcases a ha hty

theorem mmDivpagesCore_spec (h : MmInv mm out) {a : Nat} (ha : a < memareaMax)
    (pages flgs : Nat) :
    mmDivpagesCore mm a pages flgs = .ok (mm, none) ∨
    ∃ mm' b, mmDivpagesCore mm a pages flgs = .ok (mm', some (b.start, b.len)) ∧
      Allocated mm mm' out b := by
  have hty : (mm.mem.mareastat a).maType = areaTy a := h.mem.types a ha
  unfold mmDivpagesCore
  simp only [hty]
  by_cases hflgs : flgs ≠ dmfReldiv ∧ flgs ≠ dmfMaxdiv
  · rw [if_pos hflgs]
    exact Or.inl rfl
  · rw [if_neg hflgs]
    by_cases hgate : areaTy a ≠ .krnl ∧ areaTy a ≠ .hwad
    · rw [if_pos hgate]
      exact Or.inl rfl
    · rw [if_neg hgate]
      have ha2 := area_lt_two ha hgate
      by_cases hmax : flgs = dmfMaxdiv
      · rw [if_pos hmax]
        rcases mmMaxdivpagesOnmarea_spec h.mem ha2 with hnone | ⟨x', s, li, hrun, ht⟩
        · rw [hnone]
          exact Or.inl rfl
        · rw [hrun]
          simp only [countDiv_some]
          exact Or.inr ⟨_, ⟨s, 2 ^ li⟩, rfl, .lie a li, li, x', ht, rfl, rfl⟩
      · rw [if_neg hmax]
        rcases mmReldivpagesOnmarea_spec h.mem ha2 pages with
          ⟨hnone, _⟩ | ⟨_, x', s, div, hrun, ht⟩
        · rw [hnone]
          exact Or.inl rfl
        · rw [hrun]
          simp only [countDiv_some]
          exact Or.inr ⟨_, ⟨s, 2 ^ retnDivoder pages⟩, rfl, .lie a div, retnDivoder pages,
            x', ht, rfl, rfl⟩

/-- **`mm_division_pages`** never stops; it changes nothing and returns `NULL`,
or allocates a block. -/
theorem mmDivisionPages_spec (h : MmInv mm out) (pages mrtype flgs : Nat) :
    mmDivisionPages mm pages mrtype flgs = .ok (mm, none) ∨
    ∃ mm' b, mmDivisionPages mm pages mrtype flgs = .ok (mm', some (b.start, b.len)) ∧
      Allocated mm mm' out b := by
  unfold mmDivisionPages
  split
  · exact Or.inl rfl
  · unfold mmDivpagesFmwk
    cases hf : onmrtypeRetnMarea mm mrtype with
    | none => exact Or.inl rfl
    | some a => exact mmDivpagesCore_spec h (findMarea_some h hf) pages flgs

/-- A request that may be cut is served from the lists of its area. -/
theorem mmDivisionPages_reldiv (h : MmInv mm out) {a : Nat} (ha : a < 2) (pages : Nat) :
    mmDivisionPages mm pages (areaTy a).code dmfReldiv
      = match mmReldivpagesOnmarea mm.mem a pages with
        | .error e => .error e
        | .ok r => .ok (mm.countDiv a r) := by
  have hmax : memareaMax = 4 := rfl
  have hty : (mm.mem.mareastat a).maType = areaTy a := h.mem.types a (by omega)
  have hcases : ∀ c < 2, ¬ (areaTy c ≠ .krnl ∧ areaTy c ≠ .hwad) ∧ (areaTy c).code ≠ 0 := by
    decide
  obtain ⟨hgate, hcode⟩ := hcases a ha
  unfold mmDivisionPages mmDivpagesFmwk onmrtypeRetnMarea mmDivpagesCore
  rw [if_neg hcode, findMarea_areaTy h (by omega)]
  simp only [hty]
  rw [if_neg (by decide), if_neg hgate]
  rfl

/-- Such a request gets a block of its area, rounded up to a power of two. -/
theorem mmDivisionPages_granted (h : MmInv mm out) {a : Nat} (ha : a < 2) (pages : Nat) :
    mmDivisionPages mm pages (areaTy a).code dmfReldiv = .ok (mm, none) ∨
    1 ≤ pages ∧ ∃ mm' s,
      mmDivisionPages mm pages (areaTy a).code dmfReldiv
        = .ok (mm', some (s, 2 ^ retnDivoder pages)) ∧
      MmInv mm' (⟨s, 2 ^ retnDivoder pages⟩ :: out) ∧ SamePages mm mm' ∧
      OutBlk mm'.mem.msadscstat (areaTy a) s (2 ^ retnDivoder pages) := by
  rw [mmDivisionPages_reldiv h ha]
  rcases mmReldivpagesOnmarea_spec h.mem ha pages with
    ⟨hnone, _⟩ | ⟨hpages, x', s, div, hrun, ht⟩
  · rw [hnone]
    exact Or.inl rfl
  · rw [hrun]
    simp only [countDiv_some]
    have hall : Allocated mm ({ mm with mem := x' }.updatePages a (2 ^ retnDivoder pages) 0) out
        ⟨s, 2 ^ retnDivoder pages⟩ := ⟨.lie a div, retnDivoder pages, x', ht, rfl, rfl⟩
    refine Or.inr ⟨hpages, _, s, rfl, hall.inv h, hall.same, ?_⟩
    rw [updatePages_msadscstat]
    exact ht.blk

/-- **`mm_divpages_procmarea`** likewise. -/
theorem mmDivpagesProcmarea_spec (h : MmInv mm out) (pages : Nat) :
    mmDivpagesProcmarea mm pages = .ok (mm, none) ∨
    ∃ mm' b, mmDivpagesProcmarea mm pages = .ok (mm', some (b.start, b.len)) ∧
      Allocated mm mm' out b := by
  have hproc : retnProcmarea mm = some 2 := findMarea_areaTy (a := 2) h (by decide)
  have hfall := mmDivisionPages_spec h pages MaType.krnl.code dmfReldiv
  unfold mmDivpagesProcmarea
  by_cases hpages : pages ≠ 1
  · rw [if_pos hpages]
    exact Or.inl rfl
  · unfold divpagesProcmareaCore
    rw [if_neg hpages, if_neg hpages]
    simp only [hproc]
    by_cases hscan : (!scanMapgsallocOk (mm.mem.mareastat 2) pages) = true
    · rw [if_pos hscan]
      exact hfall
    · rw [if_neg hscan]
      rcases mmPrcdivpagesOnmarea_spec h.mem pages with hnone | ⟨x', s, hrun, ht⟩
      · rw [hnone]
        exact hfall
      · rw [hrun]
        simp only [ne_eq, one_ne_zero, not_false_eq_true, if_true, Memgrob.countDiv]
        exact Or.inr ⟨_, ⟨s, 1⟩, rfl, .one 2, 0, x', ht, rfl, rfl⟩

/-! ## Free -/

/-- What a start tag says about its block. -/
theorem MmInv.start_tag (h : MmInv mm out) {s : Nat} (hs : s < mm.moMsanr)
    (htag : (mm.mem.msadscstat s).mfOlkty = .oder) :
    (∃ n, 0 < n ∧ s + n ≤ mm.moMsanr ∧ (mm.mem.msadscstat s).mdOdlink = .msa (s + (n - 1)) ∧
      (mm.mem.msadscstat s).mfUindx = 0) ∨
    ∃ n, 0 < n ∧ s + n ≤ mm.moMsanr ∧ (mm.mem.msadscstat s).mdOdlink = .msa (s + (n - 1)) ∧
      Seg.mk s n ∈ out := by
  by_cases hfree : (mm.mem.msadscstat s).mfMocty = .free
  · rcases h.mem.tiles.owner ⟨hs, hfree⟩ with ⟨p, hp, t, ht, hin⟩ | ⟨b, hb, hin⟩
    · -- only the first page of a free block carries a start tag
      have hblk := h.mem.free p hp t ht
      have hpos := p.ord_pos
      obtain ⟨h1, h2⟩ := hin
      simp only at h1 h2
      obtain ⟨i, rfl⟩ := Nat.exists_eq_add_of_le h1
      by_cases hlast : i = p.ord - 1
      · subst hlast
        rw [hblk.last.1] at htag
        cases htag
      · by_cases h0 : i = 0
        · subst h0
          refine Or.inl ⟨p.ord, hpos, h.mem.free_end_le hp ht, (hblk.first (by omega)).2, ?_⟩
          exact (hblk.clean 0 hpos).1
        · rw [(hblk.inner i (by omega) (by omega)).1] at htag
          cases htag
    · -- only the first page of an outstanding block carries a start tag
      obtain ⟨p, hp, hlen, hblk⟩ := h.outs b hb
      have hpos := (h.outs b hb).len_pos
      obtain ⟨h1, h2⟩ := hin
      obtain ⟨i, rfl⟩ := Nat.exists_eq_add_of_le h1
      by_cases h0 : i = 0
      · subst h0
        exact Or.inr ⟨b.len, hpos, h.mem.held_end_le hb hpos, hblk.first.2, hb⟩
      · by_cases hlast : i = b.len - 1
        · subst hlast
          exact absurd htag (hblk.last (by omega))
        · rw [(hblk.inner i (by omega) (by omega)).1] at htag
          cases htag
  · rw [h.mem.reserved s hs hfree] at htag
    cases htag

/-- **`mm_merge_pages` refuses** everything that is not an outstanding block,
and then nothing changes. -/
theorem mmMergePages_reject (h : MmInv mm out) {s n : Nat} (hs : s < mm.moMsanr)
    (hnot : Seg.mk s n ∉ out) : mmMergePages mm s n = .ok (mm, false) := by
  have hlt := h.mem.msanr_lt
  by_cases hn : n < 1
  · exact if_pos hn
  · have hcore : mmMergePages mm s n = mmMerpagesFmwk mm s n := if_neg hn
    rw [hcore]
    unfold mmMerpagesFmwk
    by_cases htag : (mm.mem.msadscstat s).mfOlkty = .oder
    · rcases h.start_tag hs htag with ⟨m, hm, hend, hlink, hzero⟩ | ⟨m, hm, hend, hlink, hmem⟩
      · -- a free block: the scan sees that nobody uses it
        have hret : ∃ r, onfrmsaRetnMarea mm s n = .ok r := by
          unfold onfrmsaRetnMarea
          simp only [htag, hlink, Odlink.toMsa]
          rw [if_neg (by simp)]
          split
          · exact ⟨none, rfl⟩
          · split
            · exact ⟨none, rfl⟩
            · exact ⟨_, rfl⟩
        obtain ⟨r, hr⟩ := hret
        rw [hr]
        cases r with
        | none => rfl
        | some a =>
            have hscan : scanFreemsaIsok mm.mem s n = .ok false := by
              unfold scanFreemsaIsok
              rw [if_neg hn]
              simp [hzero]
            simp only
            unfold mmMerpagesCore
            rw [if_neg hn, hscan]
      · -- an outstanding block of another length
        have hne : m ≠ n := by
          rintro rfl
          exact hnot hmem
        have hret : onfrmsaRetnMarea mm s n = .ok none := by
          unfold onfrmsaRetnMarea
          simp only [htag, hlink, Odlink.toMsa,
            msaSpan_block hm (show s + m < wordMod by omega)]
          rw [if_neg (by simp), if_pos hne]
        rw [hret]
    · have hret : onfrmsaRetnMarea mm s n = .ok none := by
        unfold onfrmsaRetnMarea
        exact if_pos (Or.inl htag)
      rw [hret]

/-- A list of single pages does not take part in merging. -/
theorem NoAdj.push_one {x : Mem} {a s : Nat} (h : NoAdj x) :
    NoAdj (x.setBafh (.one a) ((x.bafh (.one a)).addObj s)) := by
  intro b k hk t ht ht'
  rw [setBafh_free, Function.update_of_ne (by simp)] at ht ht'
  rw [setBafh_msadscstat]
  exact h b k hk t ht ht'

theorem Kept.push_one (a : Nat) (out : List Seg) (x : Mem) (s : Nat) :
    Kept a out x (x.setBafh (.one a) ((x.bafh (.one a)).addObj s)) :=
  ⟨Frame.setBafh (p := .one a) _ rfl _, fun c _ i _ => by rw [setBafh_msadscstat],
    fun hadj => hadj.push_one⟩

/-- The acceptance tests pass on an outstanding block. -/
theorem mmMergePages_accepted (h : MmInv mm out) {p : BafhPtr} {b : Seg} (hb : b ∈ out)
    (hp : p.Used) (hlen : b.len = p.ord)
    (hblk : OutBlk mm.mem.msadscstat (areaTy p.area) b.start b.len) :
    mmMergePages mm b.start b.len = mmMerpagesOnmarea mm p.area b.start b.len := by
  have hpos := (h.outs b hb).len_pos
  have hend := h.mem.held_end_le hb hpos
  have hlt := h.mem.msanr_lt
  obtain ⟨ho, hl⟩ := hblk.first
  have hspan := msaSpan_block (s := b.start) hpos (by omega)
  have hty0 : (mm.mem.msadscstat b.start).mfMarty = areaTy p.area := (hblk.shape 0 hpos).1
  have hty1 : (mm.mem.msadscstat (b.start + (b.len - 1))).mfMarty = areaTy p.area :=
    (hblk.shape (b.len - 1) (by omega)).1
  have hend0 : (mm.mem.msadscstat b.start).mfUindx = 1 ∧
      (mm.mem.msadscstat b.start).pafAlloc = true := hblk.ends 0 hpos (Or.inl rfl)
  have hend1 := hblk.ends (b.len - 1) (by omega) (Or.inr (by omega))
  have harea : onfrmsaRetnMarea mm b.start b.len = .ok (some p.area) := by
    unfold onfrmsaRetnMarea
    simp only [ho, hl, Odlink.toMsa, hspan, hty0, hty1, findMarea_areaTy h hp.area_lt]
    rw [if_neg (by simp), if_neg (by simp), if_neg (by simp)]
  have hscan : scanFreemsaIsok mm.mem b.start b.len = .ok true := by
    unfold scanFreemsaIsok
    rw [if_neg (by omega)]
    simp [ho, hl, Odlink.toMsa, hspan, hend0.1, hend0.2, hend1.1, hend1.2]
  unfold mmMergePages mmMerpagesFmwk
  rw [if_neg (by omega), harea]
  simp only
  unfold mmMerpagesCore
  rw [if_neg (by omega), hscan]

/-- The block in hand after it was taken back. -/
theorem MmInv.takeBack (h : MmInv mm out) {p : BafhPtr} {b : Seg} (hb : b ∈ out)
    (hlen : b.len = p.ord)
    (hblk : OutBlk mm.mem.msadscstat (areaTy p.area) b.start b.len) :
    MemInv (mm.mem.withMsa (giveMsa mm.mem.msadscstat p b.start (b.start + (b.len - 1))))
        mm.moMsanr (⟨b.start, p.ord⟩ :: out.erase b) ∧
      FreeBlk (giveMsa mm.mem.msadscstat p b.start (b.start + (b.len - 1)))
        (areaTy p.area) p b.start p.ord := by
  have hpos := (h.outs b hb).len_pos
  have hinv := h.mem.retag hb (giveMsa_retag mm.mem.msadscstat p (s := b.start) hpos)
  have hfront := hinv.recut (hinv.tiles.front hb)
  have hfree := giveMsa_free p hblk hpos
  rw [hlen] at hfree
  refine ⟨?_, by rw [hlen]; exact hfree⟩
  rw [← hlen]
  exact hfront

/-- Taking back a page of the process area: it goes on the list as it is. -/
theorem mmMergePages_one (h : MmInv mm out) {b : Seg} (hb : b ∈ out)
    (hlen : b.len = (BafhPtr.one 2).ord)
    (hblk : OutBlk mm.mem.msadscstat (areaTy 2) b.start b.len) {x : Mem}
    (hx : x = mm.mem.withMsa (giveMsa mm.mem.msadscstat (.one 2) b.start
      (b.start + (b.len - 1)))) :
    mmMergePages mm b.start b.len
      = .ok ({ mm with mem := x.setBafh (.one 2) ((x.bafh (.one 2)).addObj b.start) }.updatePages
          2 b.len 1, true) := by
  have hp : (BafhPtr.one 2).Used := rfl
  have hone : b.len = 1 := hlen
  have hend := h.mem.held_end_le hb (by omega)
  have hlt := h.mem.msanr_lt
  have hord : (mm.mem.bafh (.one 2)).afOderpnr = b.len :=
    (h.mem.order _ hp.mem_ptrs).trans hlen.symm
  have hty : (mm.mem.mareastat (BafhPtr.one 2).area).maType = .proc := h.mem.types 2 (by decide)
  have hop := mmMerpagesOpmsadsc_spec (p := .one 2) hblk (by omega) (by omega) hord
  obtain ⟨hinv, hfree⟩ := h.takeBack (p := .one 2) hb hlen hblk
  have hfile := mpobfAddMsadsc_spec hinv hp hfree
  rw [mmMergePages_accepted h hb hp hlen hblk]
  unfold mmMerpagesOnmarea
  rw [if_neg (by omega), if_pos hty]
  subst hx
  simp only [BafhPtr.area, hop, if_true]
  rw [hlen]
  rw [hlen] at hfile
  simp only [hfile]

/-- Taking back a block of the hardware or the kernel area: it is merged. -/
theorem mmMergePages_lie (h : MmInv mm out) {b : Seg} (hb : b ∈ out) {a k : Nat} (ha : a < 2)
    (hk : k < mdivmerArrLmax) (hlen : b.len = 2 ^ k)
    (hblk : OutBlk mm.mem.msadscstat (areaTy a) b.start b.len) {x' : Mem}
    (hrun : mmMerpagesOnbafhlst (mm.mem.withMsa (giveMsa mm.mem.msadscstat (.lie a k) b.start
      (b.start + (b.len - 1)))) a b.start (2 ^ k) k (mdivmerArrLmax - 1) = .ok (x', true)) :
    mmMergePages mm b.start b.len = .ok ({ mm with mem := x' }.updatePages a b.len 1, true) := by
  have hp : (BafhPtr.lie a k).Used := ⟨ha, hk⟩
  have hpos := (h.outs b hb).len_pos
  have hend := h.mem.held_end_le hb hpos
  have hlt := h.mem.msanr_lt
  have hord : (mm.mem.bafh (.lie a k)).afOderpnr = b.len :=
    (h.mem.order _ hp.mem_ptrs).trans hlen.symm
  have hne : ¬ (mm.mem.mareastat (BafhPtr.lie a k).area).maType = .proc := by
    have hty : (mm.mem.mareastat a).maType = areaTy a := h.mem.types _ hp.area_lt
    have hcases : ∀ c < 2, areaTy c ≠ .proc := by decide
    simp only [BafhPtr.area, hty]
    exact hcases a ha
  have hop := mmMerpagesOpmsadsc_spec (p := .lie a k) hblk hpos (by omega) hord
  have hlists := onfpgsRetnBafhlst_spec (a := a) h.mem ha hk hb hpos
  rw [mmMergePages_accepted h hb hp hlen hblk]
  unfold mmMerpagesOnmarea
  rw [if_neg (by omega), if_neg hne]
  simp only [BafhPtr.area]
  rw [← hlen] at hrun hlists
  simp only [hlists, hop, if_true, hrun]

/-- **`mm_merge_pages` takes** every outstanding block and never stops. -/
theorem mmMergePages_accept (h : MmInv mm out) {b : Seg} (hb : b ∈ out) :
    ∃ mm', mmMergePages mm b.start b.len = .ok (mm', true) ∧ MmInv mm' (out.erase b) ∧
      SamePages mm mm' := by
  obtain ⟨p, hp, hlen, hblk⟩ := h.outs b hb
  have hpos := (h.outs b hb).len_pos
  have hty0 : (mm.mem.msadscstat b.start).mfMarty = areaTy p.area := (hblk.shape 0 hpos).1
  have hret := giveMsa_retag mm.mem.msadscstat p (s := b.start) hpos
  obtain ⟨hinv, hfree⟩ := h.takeBack hb hlen hblk
  cases p with
  | one a =>
      have ha : a = 2 := hp
      subst ha
      have hnew := hinv.push (p := .one 2) hp hfree
      have hkept := Kept.push_one 2 (out.erase b) (mm.mem.withMsa
        (giveMsa mm.mem.msadscstat (.one 2) b.start (b.start + (b.len - 1)))) b.start
      exact ⟨_, mmMergePages_one h hb hlen hblk rfl,
        h.give (a := 2) (by decide) hb hty0 hret hnew hkept,
        SamePages.updatePages mm _ _ _ (Frame.trans (Frame.withMsa 2 _ hret.static) hkept.frame)⟩
  | lie a k =>
      have hin : InHand a k b.start mm.moMsanr (out.erase b)
          (mm.mem.withMsa (giveMsa mm.mem.msadscstat (.lie a k) b.start
            (b.start + (b.len - 1)))) := ⟨hinv, hfree⟩
      obtain ⟨x', hrun, hnew, hkept, -⟩ := mmMerpagesOnbafhlst_spec hp.1 hp.2 hin
      exact ⟨_, mmMergePages_lie h hb hp.1 hp.2 hlen hblk hrun,
        h.give (a := a) hp.area_lt hb hty0 hret hnew hkept,
        SamePages.updatePages mm _ _ _ (Frame.trans (Frame.withMsa a _ hret.static) hkept.frame)⟩

end Calls

/-! ## Runs -/

/-- One call of the allocator. -/
inductive MmOp where
  | divisionPages (pages mrtype flgs : Nat)
  | divpagesProcmarea (pages : Nat)
  | mergePages (freemsa freepgs : Nat)
deriving DecidableEq, Repr

/-- The memory manager and the blocks its clients hold. -/
structure MmState where
  mm : Memgrob
  out : List Seg

/-- Account for what an allocation returned. -/
def MmState.grant (st : MmState) (r : PageRes) : MmState where
  mm := r.1
  out :=
    match r.2 with
    | none => st.out
    | some (msa, pnr) => ⟨msa, pnr⟩ :: st.out

/-- One call.  `mm_merge_pages` gets a pointer into the descriptor array; the
model gives no meaning to any other. -/
def mmStep (st : MmState) : MmOp → Except String MmState
  | .divisionPages pages mrtype flgs =>
      match mmDivisionPages st.mm pages mrtype flgs with
      | .error e => .error e
      | .ok r => .ok (st.grant r)
  | .divpagesProcmarea pages =>
      match mmDivpagesProcmarea st.mm pages with
      | .error e => .error e
      | .ok r => .ok (st.grant r)
  | .mergePages freemsa freepgs =>
      if freemsa < st.mm.moMsanr then
        match mmMergePages st.mm freemsa freepgs with
        | .error e => .error e
        | .ok (mm', true) => .ok ⟨mm', st.out.erase ⟨freemsa, freepgs⟩⟩
        | .ok (mm', false) => .ok ⟨mm', st.out⟩
      else .error wildPointer

/-- **One call keeps the invariant.** -/
theorem mmStep_inv (st : MmState) (op : MmOp) (st' : MmState) (h : MmInv st.mm st.out)
    (hstep : mmStep st op = .ok st') : MmInv st'.mm st'.out := by
  cases op with
  | divisionPages pages mrtype flgs =>
      simp only [mmStep] at hstep
      rcases mmDivisionPages_spec h pages mrtype flgs with hnone | ⟨mm', b, hsome, halloc⟩
      · rw [hnone] at hstep
        cases hstep
        exact h
      · rw [hsome] at hstep
        cases hstep
        exact halloc.inv h
  | divpagesProcmarea pages =>
      simp only [mmStep] at hstep
      rcases mmDivpagesProcmarea_spec h pages with hnone | ⟨mm', b, hsome, halloc⟩
      · rw [hnone] at hstep
        cases hstep
        exact h
      · rw [hsome] at hstep
        cases hstep
        exact halloc.inv h
  | mergePages s n =>
      simp only [mmStep] at hstep
      split at hstep
      · rename_i hs
        by_cases hmem : Seg.mk s n ∈ st.out
        · obtain ⟨mm', hrun, hinv, _⟩ := mmMergePages_accept h hmem
          simp only at hrun
          rw [hrun] at hstep
          cases hstep
          exact hinv
        · rw [mmMergePages_reject h hs hmem] at hstep
          cases hstep
          exact h
      · cases hstep

/-- Every call keeps the pages. -/
theorem mmStep_same (st : MmState) (op : MmOp) (st' : MmState) (h : MmInv st.mm st.out)
    (hstep : mmStep st op = .ok st') :
    SamePages st.mm st'.mm := by
  cases op with
  | divisionPages pages mrtype flgs =>
      simp only [mmStep] at hstep
      rcases mmDivisionPages_spec h pages mrtype flgs with hnone | ⟨mm', b, hsome, halloc⟩
      · rw [hnone] at hstep
        cases hstep
        exact SamePages.refl _
      · rw [hsome] at hstep
        cases hstep
        exact halloc.same
  | divpagesProcmarea pages =>
      simp only [mmStep] at hstep
      rcases mmDivpagesProcmarea_spec h pages with hnone | ⟨mm', b, hsome, halloc⟩
      · rw [hnone] at hstep
        cases hstep
        exact SamePages.refl _
      · rw [hsome] at hstep
        cases hstep
        exact halloc.same
  | mergePages s n =>
      simp only [mmStep] at hstep
      split at hstep
      · rename_i hs
        by_cases hmem : Seg.mk s n ∈ st.out
        · obtain ⟨mm', hrun, _, hsame⟩ := mmMergePages_accept h hmem
          simp only at hrun
          rw [hrun] at hstep
          cases hstep
          exact hsame
        · rw [mmMergePages_reject h hs hmem] at hstep
          cases hstep
          exact SamePages.refl _
      · cases hstep

/-- **Every run keeps the invariant.** -/
theorem mmRun_inv (ops : List MmOp) (st st' : MmState) (h : MmInv st.mm st.out)
    (hrun : run mmStep ops st = .ok st') : MmInv st'.mm st'.out :=
  run_inv (fun st => MmInv st.mm st.out) mmStep_inv ops st st' h hrun

/-- Every run keeps the pages. -/
theorem mmRun_same (ops : List MmOp) (st st' : MmState) (h : MmInv st.mm st.out)
    (hrun : run mmStep ops st = .ok st') : SamePages st.mm st'.mm := by
  have hboth := run_inv (fun st' => MmInv st'.mm st'.out ∧ SamePages st.mm st'.mm)
    (fun s op s' hs hop => ⟨mmStep_inv s op s' hs.1 hop,
      hs.2.trans (mmStep_same s op s' hs.1 hop)⟩)
    ops st st' ⟨h, SamePages.refl _⟩ hrun
  exact hboth.2

/-- Every call with a pointer into the descriptor array, or without one,
returns. -/
theorem mmStep_total (st : MmState) (op : MmOp) (h : MmInv st.mm st.out)
    (hop : ∀ s n, op = .mergePages s n → s < st.mm.moMsanr) :
    ∃ st', mmStep st op = .ok st' := by
  cases op with
  | divisionPages pages mrtype flgs =>
      simp only [mmStep]
      rcases mmDivisionPages_spec h pages mrtype flgs with hnone | ⟨mm', b, hsome, _⟩
      · rw [hnone]
        exact ⟨_, rfl⟩
      · rw [hsome]
        exact ⟨_, rfl⟩
  | divpagesProcmarea pages =>
      simp only [mmStep]
      rcases mmDivpagesProcmarea_spec h pages with hnone | ⟨mm', b, hsome, _⟩
      · rw [hnone]
        exact ⟨_, rfl⟩
      · rw [hsome]
        exact ⟨_, rfl⟩
  | mergePages s n =>
      simp only [mmStep]
      rw [if_pos (hop s n rfl)]
      by_cases hmem : Seg.mk s n ∈ st.out
      · obtain ⟨mm', hrun, _⟩ := mmMergePages_accept h hmem
        simp only at hrun
        rw [hrun]
        exact ⟨_, rfl⟩
      · rw [mmMergePages_reject h (hop s n rfl) hmem]
        exact ⟨_, rfl⟩

end Cosmos.Hal
