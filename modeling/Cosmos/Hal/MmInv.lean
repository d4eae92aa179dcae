import Cosmos.Hal.MemdivmerMerge

/-!
# The whole allocator: blocks, counters and outstanding allocations

`MmInv mm out` says that the memory manager `mm` is in order while the blocks
`out` are outstanding: the lists and `out` tile the free pages, every block of
`out` carries the tags of a handed out block, and the page counters of the areas
and of `memmgrob` are what the lists say.  An allocation and a free each move
one block between the lists and `out`; `MmInv.take` and `MmInv.give` are the
two moves.
-/

namespace Cosmos.Hal

open Cosmos.Lib.Word64 Cosmos.Lib.Cover Cosmos.Lib.Pool

/-! ## Counting pages area by area -/

/-- Pages on the lists of an area. -/
def areaFree (x : Mem) (a : Nat) : Nat := freeSum (areaPtrs a) BafhPtr.ord x.free

/-- Outstanding pages of an area. -/
def outSum (d : MsaArr) (ty : MaType) (out : List Seg) : Nat :=
  ((out.filter fun b => (d b.start).mfMarty = ty).map Seg.len).sum

/-- All outstanding pages. -/
def outLen (out : List Seg) : Nat := (out.map Seg.len).sum

/-- The lists of all areas together. -/
theorem freeSum_ptrs (free : BafhPtr → List Nat) :
    freeSum ptrs BafhPtr.ord free
      = ∑ a ∈ Finset.range memareaMax, freeSum (areaPtrs a) BafhPtr.ord free := by
  unfold freeSum ptrs
  exact Finset.sum_biUnion fun a _ b _ hab => areaPtrs_disjoint hab

/-- The pages of an area depend on its lists only. -/
theorem areaFree_congr {x x' : Mem} {a : Nat} (h : ∀ p, p.area = a → x'.bafh p = x.bafh p) :
    areaFree x' a = areaFree x a := by
  unfold areaFree freeSum
  refine Finset.sum_congr rfl fun p hp => ?_
  rw [Mem.free, Mem.free, h p (area_of_mem_areaPtrs hp)]

/-- An operation on one area leaves the pages of the others alone. -/
theorem Frame.areaFree {x x' : Mem} {a b : Nat} (h : Frame a x x') (hb : b ≠ a) :
    areaFree x' b = areaFree x b := by
  refine areaFree_congr fun p hp => h.lists p ?_
  rw [hp]
  exact hb

/-- One area changed. -/
theorem sum_range_single {a : Nat} (ha : a < memareaMax) {f g : Nat → Nat}
    (h : ∀ b, b ≠ a → g b = f b) :
    (∑ b ∈ Finset.range memareaMax, g b) + f a
      = (∑ b ∈ Finset.range memareaMax, f b) + g a := by
  have hg : g = Function.update f a (g a) := by
    funext b
    by_cases hb : b = a
    · subst hb
      rw [Function.update_self]
    · rw [Function.update_of_ne hb, h b hb]
  have hsum := sum_update ha f (g a)
  rw [← hg] at hsum
  exact hsum

/-- Pages that move between the lists of an area and the outstanding blocks
are conserved. -/
theorem areaFree_conserved {x x' : Mem} {msanr a : Nat} {out out' : List Seg}
    (h : MemInv x msanr out) (h' : MemInv x' msanr out') (hf : Frame a x x')
    (ha : a < memareaMax) (hpos : ∀ b ∈ out, 0 < b.len) (hpos' : ∀ b ∈ out', 0 < b.len) :
    areaFree x' a + outLen out' = areaFree x a + outLen out := by
  have hcount := h.tiles.sum_lens (N := msanr) (fun _ hi => hi.1)
    (fun p _ => p.ord_pos) hpos
  have hcount' := h'.tiles.sum_lens (N := msanr) (fun _ hi => hi.1)
    (fun p _ => p.ord_pos) hpos'
  have hset : (Finset.range msanr).filter (Managed x'.msadscstat msanr)
      = (Finset.range msanr).filter (Managed x.msadscstat msanr) := by
    refine Finset.filter_congr fun i _ => ?_
    unfold Managed
    rw [(hf.static i).1]
  have hsum := sum_range_single ha fun b hb => hf.areaFree (b := b) hb
  rw [hset] at hcount'
  rw [freeSum_ptrs] at hcount hcount'
  have h1 : (∑ b ∈ Finset.range memareaMax, areaFree x b) + outLen out
      = (∑ b ∈ Finset.range memareaMax, areaFree x' b) + outLen out' :=
    hcount.trans hcount'.symm
  omega

theorem outSum_cons (d : MsaArr) (ty : MaType) (b : Seg) (out : List Seg) :
    outSum d ty (b :: out)
      = outSum d ty out + if (d b.start).mfMarty = ty then b.len else 0 := by
  unfold outSum
  by_cases h : (d b.start).mfMarty = ty
  · simp [h, Nat.add_comm]
  · simp [h]

theorem outSum_perm {out out' : List Seg} (d : MsaArr) (ty : MaType) (h : out.Perm out') :
    outSum d ty out = outSum d ty out' :=
  ((h.filter _).map Seg.len).sum_eq

theorem outSum_static {d d' : MsaArr} (h : SameStatic d d') (ty : MaType) (out : List Seg) :
    outSum d' ty out = outSum d ty out := by
  unfold outSum
  congr 2
  refine List.filter_congr fun b _ => ?_
  rw [(h b.start).2.1]

/-! ## The invariant -/

/-- An outstanding block belongs to one of the lists and looks handed out. -/
def OutOk (d : MsaArr) (b : Seg) : Prop :=
  ∃ p : BafhPtr, p.Used ∧ b.len = p.ord ∧ OutBlk d (areaTy p.area) b.start b.len

theorem OutOk.len_pos {d : MsaArr} {b : Seg} (h : OutOk d b) : 0 < b.len := by
  obtain ⟨p, _, hlen, _⟩ := h
  rw [hlen]
  exact p.ord_pos

theorem OutOk.congr {d d' : MsaArr} {b : Seg} (h : OutOk d b)
    (hd : ∀ i, b.Has i → d' i = d i) : OutOk d' b := by
  have hpos := h.len_pos
  obtain ⟨p, hp, hlen, hb⟩ := h
  refine ⟨p, hp, hlen, hb.congr hpos fun i hi => hd _ ?_⟩
  exact ⟨Nat.le_add_right _ _, Nat.add_lt_add_left hi _⟩

/-- **The invariant of the memory manager** with the blocks `out` outstanding. -/
structure MmInv (mm : Memgrob) (out : List Seg) : Prop where
  mem : MemInv mm.mem mm.moMsanr out
  mareanr : mm.moMareanr = memareaMax
  outs : ∀ b ∈ out, OutOk mm.mem.msadscstat b
  noAdj : NoAdj mm.mem
  freepages : ∀ a < memareaMax, (mm.mem.hdr a).maFreepages = areaFree mm.mem a
  allocpages : ∀ a < memareaMax,
    (mm.mem.hdr a).maAllocpages = outSum mm.mem.msadscstat (areaTy a) out
  maxpages : ∀ a < memareaMax,
    (mm.mem.hdr a).maFreepages + (mm.mem.hdr a).maAllocpages = (mm.mem.hdr a).maMaxpages
  moFree : mm.moFreepages = ∑ a ∈ Finset.range memareaMax, (mm.mem.hdr a).maFreepages
  moMax : mm.moFreepages + mm.moAlocpages = mm.moMaxpages
  moRoom : ∑ a ∈ Finset.range memareaMax, (mm.mem.hdr a).maMaxpages ≤ mm.moMaxpages
  moLt : mm.moMaxpages < wordMod

/-! ## Updating the counters -/

theorem setMarea_bafh (x : Mem) (a : Nat) (f : Memarea → Memarea)
    (hf : ∀ m, (f m).dmMdmlielst = m.dmMdmlielst ∧ (f m).dmOnemsalst = m.dmOnemsalst) :
    (x.setMarea a f).bafh = x.bafh := by
  funext p
  cases p with
  | lie b k =>
      by_cases h : b = a
      · subst h
        simp [Mem.setMarea, Mem.bafh, (hf _).1]
      · simp [Mem.setMarea, Mem.bafh, Function.update_of_ne h]
  | one b =>
      by_cases h : b = a
      · subst h
        simp [Mem.setMarea, Mem.bafh, (hf _).2]
      · simp [Mem.setMarea, Mem.bafh, Function.update_of_ne h]

theorem setMarea_hdr_ne (x : Mem) {a b : Nat} (f : Memarea → Memarea) (h : b ≠ a) :
    (x.setMarea a f).hdr b = x.hdr b := by
  simp [Mem.setMarea, Mem.hdr, Function.update_of_ne h]

theorem mmUpdateMemarea_lists (m : Memarea) (n flgs : Nat) :
    (mmUpdateMemarea m n flgs).dmMdmlielst = m.dmMdmlielst ∧
      (mmUpdateMemarea m n flgs).dmOnemsalst = m.dmOnemsalst := by
  unfold mmUpdateMemarea
  split
  · exact ⟨rfl, rfl⟩
  · split
    · exact ⟨rfl, rfl⟩
    · exact ⟨rfl, rfl⟩

/-- The invariant of the memory looks at the areas' types and lists only. -/
theorem MemInv.congr {x x' : Mem} {msanr : Nat} {held : List Seg} (h : MemInv x msanr held)
    (hb : x'.bafh = x.bafh) (hd : x'.msadscstat = x.msadscstat)
    (ht : ∀ a, (x'.hdr a).maType = (x.hdr a).maType) : MemInv x' msanr held := by
  have hfree : x'.free = x.free := by
    funext p
    rw [Mem.free, hb, Mem.free]
  refine {
    msanr_lt := h.msanr_lt
    types := fun a ha => (ht a).trans (h.types a ha)
    order := by rw [hb]; exact h.order
    fobjnr := by rw [hb, hfree]; exact h.fobjnr
    mobjnr := by rw [hb, hfree]; exact h.mobjnr
    padrs := by rw [hd]; exact h.padrs
    tiles := by rw [hd, hfree]; exact h.tiles
    used := by rw [hfree]; exact h.used
    free := by rw [hd, hfree]; exact h.free
    reserved := by rw [hd]; exact h.reserved }

section Update

variable (mm : Memgrob) (a n flgs : Nat)

theorem updatePages_mem : (mm.updatePages a n flgs).mem
    = mm.mem.setMarea a (fun m => mmUpdateMemarea m n flgs) := by
  unfold Memgrob.updatePages mmUpdateMemmgrob
  split
  · rfl
  · split
    · rfl
    · rfl

@[simp] theorem updatePages_bafh : (mm.updatePages a n flgs).mem.bafh = mm.mem.bafh := by
  rw [updatePages_mem]
  exact setMarea_bafh mm.mem a _ fun m => mmUpdateMemarea_lists m n flgs

@[simp] theorem updatePages_free : (mm.updatePages a n flgs).mem.free = mm.mem.free := by
  funext p
  rw [Mem.free, updatePages_bafh, Mem.free]

@[simp] theorem updatePages_msadscstat :
    (mm.updatePages a n flgs).mem.msadscstat = mm.mem.msadscstat := by
  rw [updatePages_mem]
  rfl

/-- The fields of `memmgrob` that no allocation changes. -/
theorem updatePages_fixed : (mm.updatePages a n flgs).moMsanr = mm.moMsanr ∧
    (mm.updatePages a n flgs).moMareanr = mm.moMareanr ∧
    (mm.updatePages a n flgs).moMaxpages = mm.moMaxpages := by
  unfold Memgrob.updatePages mmUpdateMemmgrob
  split
  · exact ⟨rfl, rfl, rfl⟩
  · split
    · exact ⟨rfl, rfl, rfl⟩
    · exact ⟨rfl, rfl, rfl⟩

theorem updatePages_hdr_ne {b : Nat} (h : b ≠ a) :
    (mm.updatePages a n flgs).mem.hdr b = mm.mem.hdr b := by
  rw [updatePages_mem]
  exact setMarea_hdr_ne _ _ h

theorem updatePages_hdr :
    (mm.updatePages a n flgs).mem.hdr a = mmUpdateMemarea (mm.mem.hdr a) n flgs := by
  rw [updatePages_mem]
  simp only [Mem.hdr, Mem.setMarea, Function.update_self, mmUpdateMemarea]
  split
  · rfl
  · split
    · rfl
    · rfl

theorem updatePages_hdr_type (b : Nat) :
    ((mm.updatePages a n flgs).mem.hdr b).maType = (mm.mem.hdr b).maType ∧
      ((mm.updatePages a n flgs).mem.hdr b).maMaxpages = (mm.mem.hdr b).maMaxpages := by
  by_cases h : b = a
  · subst h
    rw [updatePages_mem]
    simp only [Mem.hdr, Mem.setMarea, Function.update_self, mmUpdateMemarea]
    split
    · exact ⟨rfl, rfl⟩
    · split
      · exact ⟨rfl, rfl⟩
      · exact ⟨rfl, rfl⟩
  · rw [updatePages_hdr_ne mm a n flgs h]
    exact ⟨rfl, rfl⟩

end Update

/-- The counters after an allocation. -/
theorem updatePages_take (mm : Memgrob) (a n : Nat) :
    ((mm.updatePages a n 0).mem.hdr a).maFreepages = sub64 (mm.mem.hdr a).maFreepages n ∧
      ((mm.updatePages a n 0).mem.hdr a).maAllocpages = add64 (mm.mem.hdr a).maAllocpages n ∧
      (mm.updatePages a n 0).moFreepages = sub64 mm.moFreepages n ∧
      (mm.updatePages a n 0).moAlocpages = add64 mm.moAlocpages n := by
  simp [Memgrob.updatePages, mmUpdateMemmgrob, mmUpdateMemarea, Mem.hdr, Mem.setMarea]

/-- The counters after a free. -/
theorem updatePages_give (mm : Memgrob) (a n : Nat) :
    ((mm.updatePages a n 1).mem.hdr a).maFreepages = add64 (mm.mem.hdr a).maFreepages n ∧
      ((mm.updatePages a n 1).mem.hdr a).maAllocpages = sub64 (mm.mem.hdr a).maAllocpages n ∧
      (mm.updatePages a n 1).moFreepages = add64 mm.moFreepages n ∧
      (mm.updatePages a n 1).moAlocpages = sub64 mm.moAlocpages n := by
  simp [Memgrob.updatePages, mmUpdateMemmgrob, mmUpdateMemarea, Mem.hdr, Mem.setMarea]

/-! ## The two moves -/

theorem BafhPtr.Used.area_lt {p : BafhPtr} (h : p.Used) : p.area < memareaMax := by
  cases p with
  | lie a k =>
      exact Nat.lt_trans h.1 (by decide)
  | one a =>
      have ha : a = 2 := h
      simp only [BafhPtr.area, ha]
      decide

/-- The areas have different types. -/
theorem areaTy_inj {a b : Nat} (ha : a < memareaMax) (hb : b < memareaMax)
    (h : areaTy a = areaTy b) : a = b := by
  have hcode : ∀ c < memareaMax, (areaTy c).code = c + 1 := by decide
  have h1 := hcode a ha
  have h2 := hcode b hb
  rw [h] at h1
  omega

section Moves

variable {mm : Memgrob} {out : List Seg}

/-- No area has more pages than `memmgrob` knows of. -/
theorem MmInv.area_le (h : MmInv mm out) {a : Nat} (ha : a < memareaMax) :
    (mm.mem.hdr a).maFreepages ≤ mm.moFreepages ∧
      (mm.mem.hdr a).maAllocpages ≤ mm.moAlocpages ∧
      (mm.mem.hdr a).maMaxpages < wordMod := by
  have h1 := le_sum ha fun b => (mm.mem.hdr b).maFreepages
  have h2 := le_sum ha fun b => (mm.mem.hdr b).maAllocpages
  have h3 := le_sum ha fun b => (mm.mem.hdr b).maMaxpages
  have hsum : (∑ b ∈ Finset.range memareaMax, (mm.mem.hdr b).maFreepages)
      + ∑ b ∈ Finset.range memareaMax, (mm.mem.hdr b).maAllocpages
      = ∑ b ∈ Finset.range memareaMax, (mm.mem.hdr b).maMaxpages := by
    rw [← Finset.sum_add_distrib]
    exact Finset.sum_congr rfl fun b hb => h.maxpages b (Finset.mem_range.mp hb)
  have h4 := h.moFree
  have h5 := h.moMax
  have h6 := h.moRoom
  have h7 := h.moLt
  omega

/-- The order in which the outstanding blocks are listed does not matter. -/
theorem MmInv.perm {out' : List Seg} (h : MmInv mm out) (hp : out.Perm out') :
    MmInv mm out' :=
  { h with
    mem := h.mem.recut (h.mem.tiles.perm hp)
    outs := fun b hb => h.outs b (hp.mem_iff.mpr hb)
    allocpages := fun a ha => (h.allocpages a ha).trans (outSum_perm _ _ hp) }

theorem MmInv.lens (h : MmInv mm out) : ∀ b ∈ out, 0 < b.len :=
  fun b hb => (h.outs b hb).len_pos

/-- Outstanding blocks share no page. -/
theorem MmInv.apart (h : MmInv mm out) : out.Pairwise fun b c => ∀ i, b.Has i → ¬ c.Has i :=
  pairwise_of_cover_le fun i => Nat.le_trans (Nat.le_add_left _ _) (h.mem.tiles.le_one i)

/-- Outstanding blocks start at different pages. -/
theorem MmInv.starts (h : MmInv mm out) : out.Pairwise fun b c => b.start ≠ c.start := by
  refine h.apart.imp_of_mem fun {b c} hb hc hap he => hap b.start ⟨Nat.le_refl _, ?_⟩ ⟨?_, ?_⟩
  · exact Nat.lt_add_of_pos_right (h.lens b hb)
  · exact Nat.le_of_eq he.symm
  · rw [he]
    exact Nat.lt_add_of_pos_right (h.lens c hc)

/-- Free and outstanding pages together are the pages the allocator manages. -/
theorem MmInv.moFree_add_outLen (h : MmInv mm out) : mm.moFreepages + outLen out
    = ((Finset.range mm.moMsanr).filter (Managed mm.mem.msadscstat mm.moMsanr)).card := by
  have hmo : mm.moFreepages = freeSum ptrs BafhPtr.ord mm.mem.free := by
    rw [h.moFree, freeSum_ptrs]
    exact Finset.sum_congr rfl fun a ha => h.freepages a (Finset.mem_range.mp ha)
  rw [hmo]
  exact h.mem.tiles.sum_lens (N := mm.moMsanr) (fun _ hi => hi.1) (fun p _ => p.ord_pos) h.lens

/-- After an operation on area `a` the invariant holds again as soon as the
counters of that area and of `memmgrob` are right. -/
theorem MmInv.counted (h : MmInv mm out) {a n flgs : Nat} {x' : Mem} {out' : List Seg}
    (ha : a < memareaMax) (hframe : Frame a mm.mem x') (hinv : MemInv x' mm.moMsanr out')
    (houts : ∀ b ∈ out', OutOk x'.msadscstat b) (hadj : NoAdj x') {mm' : Memgrob}
    (hmm : mm' = { mm with mem := x' }.updatePages a n flgs)
    (hother : ∀ b < memareaMax, b ≠ a →
      outSum x'.msadscstat (areaTy b) out' = outSum mm.mem.msadscstat (areaTy b) out)
    (hfree : (mm'.mem.hdr a).maFreepages = areaFree x' a)
    (halloc : (mm'.mem.hdr a).maAllocpages = outSum x'.msadscstat (areaTy a) out')
    (hmax : (mm'.mem.hdr a).maFreepages + (mm'.mem.hdr a).maAllocpages
      = (mm.mem.hdr a).maMaxpages)
    (hmo : mm'.moFreepages + (mm.mem.hdr a).maFreepages
      = mm.moFreepages + (mm'.mem.hdr a).maFreepages)
    (hmomax : mm'.moFreepages + mm'.moAlocpages = mm.moMaxpages) : MmInv mm' out' := by
  subst hmm
  obtain ⟨hmsanr, hmareanr, hmaxp⟩ := updatePages_fixed { mm with mem := x' } a n flgs
  have hhdr : ∀ b, b ≠ a →
      ({ mm with mem := x' }.updatePages a n flgs).mem.hdr b = mm.mem.hdr b := by
    intro b hb
    rw [updatePages_hdr_ne _ _ _ _ hb, hframe.hdr]
  have hmaxhdr : ∀ b,
      (({ mm with mem := x' }.updatePages a n flgs).mem.hdr b).maMaxpages
        = (mm.mem.hdr b).maMaxpages := by
    intro b
    rw [(updatePages_hdr_type _ _ _ _ b).2, hframe.hdr]
  refine {
    mem := ?_
    mareanr := hmareanr.trans h.mareanr
    outs := by rw [updatePages_msadscstat]; exact houts
    noAdj := ?_
    freepages := fun b hb => ?_
    allocpages := fun b hb => ?_
    maxpages := fun b hb => ?_
    moFree := ?_
    moMax := hmomax.trans hmaxp.symm
    moRoom := ?_
    moLt := by rw [hmaxp]; exact h.moLt }
  · rw [hmsanr]
    exact hinv.congr (updatePages_bafh _ _ _ _) (updatePages_msadscstat _ _ _ _)
      fun b => (updatePages_hdr_type _ _ _ _ b).1
  · intro b k hk t hb hb'
    rw [updatePages_free] at hb hb'
    rw [updatePages_msadscstat]
    exact hadj b k hk t hb hb'
  · have hlists : areaFree ({ mm with mem := x' }.updatePages a n flgs).mem b = areaFree x' b :=
      areaFree_congr fun p _ => by rw [updatePages_bafh]
    rw [hlists]
    by_cases hba : b = a
    · subst hba
      exact hfree
    · rw [hhdr b hba, h.freepages b hb]
      exact (hframe.areaFree hba).symm
  · rw [updatePages_msadscstat]
    by_cases hba : b = a
    · subst hba
      exact halloc
    · rw [hhdr b hba, h.allocpages b hb]
      exact (hother b hb hba).symm
  · rw [hmaxhdr b]
    by_cases hba : b = a
    · subst hba
      exact hmax
    · rw [hhdr b hba]
      exact h.maxpages b hb
  · have hsingle := sum_range_single ha
      (f := fun b => (mm.mem.hdr b).maFreepages)
      (g := fun b => (({ mm with mem := x' }.updatePages a n flgs).mem.hdr b).maFreepages)
      fun b hb => by simp only [hhdr b hb]
    have hmofree := h.moFree
    omega
  · rw [hmaxp, Finset.sum_congr rfl fun b _ => hmaxhdr b]
    exact h.moRoom

/-- **An allocation** moves a block from the lists to the outstanding ones. -/
theorem MmInv.take (h : MmInv mm out) {p : BafhPtr} {rel s : Nat} {x' : Mem}
    (ht : Taken p rel s mm.moMsanr out mm.mem x') :
    MmInv ({ mm with mem := x' }.updatePages p.area (p.cut rel) 0)
      (⟨s, p.cut rel⟩ :: out) := by
  have ha := ht.used.area_lt
  have hframe := ht.frame
  have hnew : OutOk x'.msadscstat ⟨s, p.cut rel⟩ := by
    have hused := ht.used
    have hblk := ht.blk
    cases p with
    | lie a k =>
        have hk := (ht.low a k rfl).1
        have hlt := hused.2
        exact ⟨.lie a rel, ⟨hused.1, by omega⟩, rfl, hblk⟩
    | one a => exact ⟨.one a, hused, rfl, hblk⟩
  have hpos := hnew.len_pos
  simp only at hpos
  obtain ⟨l, hl⟩ := ht.head
  have hs : s ∈ mm.mem.free p := by rw [hl]; exact List.mem_cons_self
  have houts : ∀ b ∈ (⟨s, p.cut rel⟩ :: out : List Seg), OutOk x'.msadscstat b := by
    intro b hb
    rcases List.mem_cons.mp hb with rfl | hb
    · exact hnew
    · exact (h.outs b hb).congr fun i hi => ht.retag.frame i fun hin =>
        h.mem.tiles.free_held_apart ht.used.mem_ptrs hs hin hb hi
  -- the pages come off the lists of this area
  have hcons := areaFree_conserved h.mem ht.inv hframe ha h.lens
    fun b hb => (houts b hb).len_pos
  have hlen : outLen (⟨s, p.cut rel⟩ :: out) = p.cut rel + outLen out := rfl
  have hty : (x'.msadscstat s).mfMarty = areaTy p.area := (ht.blk.shape 0 hpos).1
  obtain ⟨hfree, halloc, hmax⟩ := h.area_le ha
  have hsum := h.maxpages p.area ha
  have hfp := h.freepages p.area ha
  have hmo := h.moMax
  have hlt := h.moLt
  obtain ⟨u1, u2, u3, u4⟩ := updatePages_take { mm with mem := x' } p.area (p.cut rel)
  simp only [hframe.hdr] at u1 u2 u3 u4
  rw [sub64_eq (by omega) (by omega)] at u1
  rw [add64_eq (by omega)] at u2
  rw [sub64_eq (by omega) (by omega)] at u3
  rw [add64_eq (by omega)] at u4
  refine h.counted ha hframe ht.inv houts (ht.noAdj h.noAdj) rfl (fun b hb hba => ?_) ?_ ?_
    ?_ ?_ ?_
  · have hne : ¬ areaTy p.area = areaTy b := fun heq => hba (areaTy_inj ha hb heq).symm
    rw [outSum_cons, outSum_static hframe.static, hty, if_neg hne]
    rfl
  · rw [u1]
    omega
  · rw [u2, outSum_cons, outSum_static hframe.static, hty, if_pos rfl, h.allocpages p.area ha]
  · rw [u1, u2]
    omega
  · rw [u1, u3]
    omega
  · rw [u3, u4]
    omega

/-- **A free** moves an outstanding block back to the lists. -/
theorem MmInv.give (h : MmInv mm out) {a s n : Nat} {x' : Mem} {d : MsaArr}
    (ha : a < memareaMax) (hb : Seg.mk s n ∈ out)
    (hty : (mm.mem.msadscstat s).mfMarty = areaTy a)
    (hret : Retag mm.mem.msadscstat d s n)
    (hinv : MemInv x' mm.moMsanr (out.erase ⟨s, n⟩))
    (hkept : Kept a (out.erase ⟨s, n⟩) (mm.mem.withMsa d) x') :
    MmInv ({ mm with mem := x' }.updatePages a n 1) (out.erase ⟨s, n⟩) := by
  have hperm := List.perm_cons_erase hb
  have hframe : Frame a mm.mem x' := (Frame.withMsa a _ hret.static).trans hkept.frame
  have hfront := h.mem.tiles.front hb
  have houts : ∀ c ∈ out.erase ⟨s, n⟩, OutOk x'.msadscstat c := by
    intro c hc
    refine (h.outs c (List.mem_of_mem_erase hc)).congr fun i hi => ?_
    rw [hkept.outs c hc i hi]
    exact hret.frame i fun hin => hfront.head_apart hc hin hi
  have hcons := areaFree_conserved h.mem hinv hframe ha h.lens
    fun b hb => (houts b hb).len_pos
  have hlen : outLen out = n + outLen (out.erase ⟨s, n⟩) := (hperm.map Seg.len).sum_eq
  have hosum : ∀ ty, outSum mm.mem.msadscstat ty out
      = outSum x'.msadscstat ty (out.erase ⟨s, n⟩)
        + if areaTy a = ty then n else 0 := by
    intro ty
    rw [outSum_perm _ ty hperm, outSum_cons, outSum_static hframe.static, hty]
  have hout := hosum (areaTy a)
  rw [if_pos rfl] at hout
  have hadj : NoAdj x' := hkept.noAdj fun b k hk t ht ht' => by
    rw [withMsa_free] at ht ht'
    rw [withMsa_msadscstat, (hret.static _).2.2, (hret.static _).2.2]
    exact h.noAdj b k hk t ht ht'
  obtain ⟨hfree, halloc, hmax⟩ := h.area_le ha
  have hsum := h.maxpages a ha
  have hfp := h.freepages a ha
  have hap := h.allocpages a ha
  have hmo := h.moMax
  have hlt := h.moLt
  obtain ⟨u1, u2, u3, u4⟩ := updatePages_give { mm with mem := x' } a n
  simp only [hframe.hdr] at u1 u2 u3 u4
  rw [add64_eq (by omega)] at u1
  rw [sub64_eq (by omega) (by omega)] at u2
  rw [add64_eq (by omega)] at u3
  rw [sub64_eq (by omega) (by omega)] at u4
  refine h.counted ha hframe hinv houts hadj rfl (fun b hb' hba => ?_) ?_ ?_ ?_ ?_ ?_
  · have hne : ¬ areaTy a = areaTy b := fun heq => hba (areaTy_inj ha hb' heq).symm
    rw [hosum (areaTy b), if_neg hne]
    rfl
  · rw [u1]
    omega
  · rw [u2]
    omega
  · rw [u1, u2]
    omega
  · rw [u1, u3]
    omega
  · rw [u3, u4]
    omega

end Moves

end Cosmos.Hal
