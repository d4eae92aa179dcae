import Cosmos.Kernel.Krlpagempol

/-!
# What `krlnew` has handed out

Objects are in use in the object allocator, with their size rounded up.  Blocks of pages are
outstanding in the page allocator, and `mp_msalsthead` lists their first descriptors.  `KrlInv`
says this of all addresses in use, and each of the four calls (objects or pages, new or delete)
gets one lemma.

## Main results

* `KrlInv.new_spec` and `KrlInv.delete_spec` : what the two calls do.
-/

namespace Cosmos.Kernel

open Cosmos.Hal Cosmos.Lib.Word64 Cosmos.Lib.Cover

/-! ## Sizes -/

/-- How many pages a size takes. -/
def pagesOf (mmsize : Nat) : Nat := pageAlign mmsize >>> pageSzrbit

/-- How many pages are handed out for it. -/
def relPnr (mmsize : Nat) : Nat := 2 ^ retnDivoder (pagesOf mmsize)

/-- A size whose pages are handed out to the last one. -/
def SizeOk (mmsize : Nat) : Prop :=
  mmsize ≤ objsorpage ∨ ∃ k, pagesOf mmsize = 2 ^ k

theorem SizeOk.relPnr_eq {s : Nat} (h : SizeOk s) (hbig : objsorpage < s) :
    relPnr s = pagesOf s := by
  obtain ⟨k, hk⟩ := h.resolve_left (Nat.not_le.mpr hbig)
  unfold relPnr
  rw [hk, retnDivoder_two_pow]

theorem objsAlign_le {s : Nat} (hpos : 1 ≤ s) (hle : s ≤ objsorpage) :
    1 ≤ objsAlign s ∧ objsAlign s ≤ objsorpage := by
  have hword : wordMod = 2 ^ 64 := rfl
  have hsum : add64 s 3 = s + 3 := add64_eq (by simp only [objsorpage] at hle; omega)
  unfold objsAlign
  rw [hsum]
  simp only [objsorpage] at hle ⊢
  omega

theorem le_objsAlign {s : Nat} (hle : s ≤ objsorpage) : s ≤ objsAlign s := by
  have hword : wordMod = 2 ^ 64 := rfl
  have hsum : add64 s 3 = s + 3 := add64_eq (by simp only [objsorpage] at hle; omega)
  unfold objsAlign
  rw [hsum]
  omega

theorem pagesOf_pos {s : Nat} (hbig : objsorpage < s) (hle : s ≤ kmempalcszMax) :
    1 ≤ pagesOf s := by
  have hword : wordMod = 2 ^ 64 := rfl
  simp only [objsorpage, kmempalcszMax] at hbig hle
  have hsum : add64 s 0xfff = s + 0xfff := add64_eq (by omega)
  unfold pagesOf pageAlign
  rw [hsum, Nat.shiftRight_eq_div_pow]
  simp only [pageSzrbit]
  omega

section Calls

variable {m : KrlMem} {s p : Nat}

/-! ## The two sizes of `krlnew` and `krldelete` -/

theorem krlnew_none (h : s = 0 ∨ kmempalcszMax < s) : m.krlnew s = .ok (m, none) :=
  if_pos h

theorem krlnew_objs (hpos : 1 ≤ s) (hle : s ≤ objsorpage) :
    m.krlnew s = kmempoolObjszCoreNew m (objsAlign s) := by
  have hsmall := (objsAlign_le hpos hle).2
  simp only [objsorpage] at hle hsmall
  unfold KrlMem.krlnew kmempoolNew kmempoolOnsizeNew kmempoolObjszNew
  simp only [malcszMin, malcszMax, kmempalcszMin, kmempalcszMax, objsorpage]
  rw [if_neg (by omega), if_neg (by omega), if_neg (by omega), if_neg (by omega)]

theorem krlnew_pages (hbig : objsorpage < s) (hle : s ≤ kmempalcszMax) :
    m.krlnew s = kmempoolPagesCoreNew m (pageAlign s) := by
  simp only [objsorpage, kmempalcszMax] at hbig hle
  unfold KrlMem.krlnew kmempoolNew kmempoolOnsizeNew kmempoolPagesNew
  simp only [malcszMin, malcszMax, kmempalcszMin, kmempalcszMax, objsorpage]
  rw [if_neg (by omega), if_neg (by omega), if_pos (by omega)]

theorem krldelete_objs (hp : p ≠ 0) (hpos : 1 ≤ s) (hle : s ≤ objsorpage) :
    m.krldelete p s = kmempoolObjszCoreDelete m p (objsAlign s) := by
  have hsmall := (objsAlign_le hpos hle).2
  simp only [objsorpage] at hle hsmall
  unfold KrlMem.krldelete kmempoolDelete kmempoolOnsizeDelete kmempoolObjszDelete
  simp only [malcszMin, malcszMax, kmempalcszMin, kmempalcszMax, objsorpage]
  rw [if_neg (by omega), if_neg (by omega), if_neg (by omega), if_neg (by omega)]

theorem krldelete_pages (hp : p ≠ 0) (hbig : objsorpage < s) (hle : s ≤ kmempalcszMax) :
    m.krldelete p s = kmempoolPagesCoreDelete m p (pageAlign s) := by
  simp only [objsorpage, kmempalcszMax] at hbig hle
  unfold KrlMem.krldelete kmempoolDelete kmempoolOnsizeDelete kmempoolPagesDelete
  simp only [malcszMin, malcszMax, kmempalcszMin, kmempalcszMax, objsorpage]
  rw [if_neg (by omega), if_neg (by omega), if_pos (by omega)]

end Calls

/-! ## The lists -/

/-- First descriptors of the blocks in a list. -/
def Kmempool.lst (kmplp : Kmempool) (k : Nat) : List Nat := (kmplp.mpMsalsthead k).mlhMsalst

/-- **The lists in order**, with the blocks `segs` outstanding. -/
structure PoolFiled (b : BootArray) (kmplp : Kmempool) (segs : List Seg) : Prop where
  krnl : ∀ g ∈ segs, KrnlBlk b g.start g.len
  filed : ∀ k, ∀ i ∈ kmplp.lst k, ∃ g ∈ segs, g.start = i ∧ msaIdx g.len = k
  nodup : ∀ k, (kmplp.lst k).Nodup
  nr : ∀ k, (kmplp.mpMsalsthead k).mlhNr = (kmplp.lst k).length

section Lists

variable {b : BootArray} {kmplp : Kmempool} {segs : List Seg} {i n k : Nat}

theorem set_head (kmplp : Kmempool) (k : Nat) (l : Msahead) :
    (kmplp.set k l).mpMsalsthead k = l := Function.update_self _ _ _

theorem set_head_of_ne (kmplp : Kmempool) (l : Msahead) {j : Nat} (hj : j ≠ k) :
    (kmplp.set k l).mpMsalsthead j = kmplp.mpMsalsthead j := Function.update_of_ne hj _ _

theorem set_lst (kmplp : Kmempool) (k j : Nat) (l : Msahead) :
    (kmplp.set k l).lst j = if j = k then l.mlhMsalst else kmplp.lst j := by
  unfold Kmempool.lst
  by_cases hj : j = k
  · subst hj
    rw [if_pos rfl, set_head]
  · rw [if_neg hj, set_head_of_ne kmplp l hj]

/-- A list is written; the blocks in it are outstanding. -/
theorem PoolFiled.set (h : PoolFiled b kmplp segs) {l : Msahead}
    (hl : ∀ i ∈ l.mlhMsalst, ∃ g ∈ segs, g.start = i ∧ msaIdx g.len = k)
    (hnodup : l.mlhMsalst.Nodup)
    (hnr : l.mlhNr = l.mlhMsalst.length) : PoolFiled b (kmplp.set k l) segs := by
  refine ⟨h.krnl, fun j => ?_, fun j => ?_, fun j => ?_⟩
  · rw [set_lst]
    split
    · rename_i hj
      exact hj ▸ hl
    · exact h.filed j
  · rw [set_lst]
    split
    · exact hnodup
    · exact h.nodup j
  · rw [set_lst]
    split
    · rename_i hj
      rw [hj, set_head]
      exact hnr
    · rename_i hj
      rw [set_head_of_ne kmplp l hj]
      exact h.nr j

/-- One more block is outstanding. -/
theorem PoolFiled.cons (h : PoolFiled b kmplp segs) (hblk : KrnlBlk b i n) :
    PoolFiled b kmplp (⟨i, n⟩ :: segs) where
  krnl g hg := by
    rcases List.mem_cons.mp hg with rfl | hg
    · exact hblk
    · exact h.krnl g hg
  filed k j hj := by
    obtain ⟨g, hg, hstart⟩ := h.filed k j hj
    exact ⟨g, List.mem_cons_of_mem _ hg, hstart⟩
  nodup := h.nodup
  nr := h.nr

/-- **`msadsc_add_kmempool`** files a block. -/
theorem PoolFiled.add (h : PoolFiled b kmplp segs) (hpos : 1 ≤ n) (hblk : KrnlBlk b i n)
    (hne : ∀ g ∈ segs, g.start ≠ i) : ∃ kmplp', msadscAddKmempool kmplp i n = .ok kmplp' ∧
      PoolFiled b kmplp' (⟨i, n⟩ :: segs) ∧
      ∀ k, kmplp'.lst k = if k = msaIdx n then i :: kmplp.lst k else kmplp.lst k := by
  refine ⟨_, if_neg (by omega), (h.cons hblk).set (fun j hj => ?_) ?_ ?_, fun k => ?_⟩
  · rcases List.mem_cons.mp hj with rfl | hj
    · exact ⟨_, List.mem_cons_self, rfl, rfl⟩
    · exact (h.cons hblk).filed _ j hj
  · refine List.nodup_cons.mpr ⟨fun hmem => ?_, h.nodup _⟩
    obtain ⟨g, hg, hstart, -⟩ := h.filed _ i hmem
    exact hne g hg hstart
  · rw [List.length_cons]
    exact congrArg (· + 1) (h.nr _)
  · rw [set_lst]
    split
    · rename_i hk
      rw [hk]
      rfl
    · rfl

/-- A block goes that is in no list. -/
theorem PoolFiled.drop (h : PoolFiled b kmplp segs) {g : Seg} (hg : g ∈ segs)
    (hno : ∀ k, g.start ∉ kmplp.lst k) : PoolFiled b kmplp (segs.erase g) where
  krnl g' hg' := h.krnl g' (List.mem_of_mem_erase hg')
  filed k j hj := by
    obtain ⟨g', hg', hstart⟩ := h.filed k j hj
    refine ⟨g', (List.mem_erase_of_ne ?_).mpr hg', hstart⟩
    rintro rfl
    exact hno k (hstart.1 ▸ hj)
  nodup := h.nodup
  nr := h.nr

theorem vaddr_ne_zero (hblk : KrnlBlk b i n) : b.vaddr i ≠ 0 := by
  have hmap : 0 < krnlMapVirtaddressStart := by decide
  have hlo := hblk.vaddr_lt.1
  omega

/-- The scan of a list of blocks. -/
theorem delMsaLoop_eq {d : MsaArr} {l : List Nat}
    (hl : ∀ j ∈ l, msadscRetVaddr (d j) = .ok (b.vaddr j) ∧ j < b.msanr) (hi : i < b.msanr) :
    delMsaLoop d (b.vaddr i) l = .ok (if i ∈ l then some i else none) := by
  induction l with
  | nil => rfl
  | cons j l ih =>
      obtain ⟨hv, hj⟩ := hl j List.mem_cons_self
      unfold delMsaLoop
      rw [hv]
      dsimp only
      by_cases hji : j = i
      · subst hji
        rw [if_pos rfl, if_pos List.mem_cons_self]
      · have hne : b.vaddr j ≠ b.vaddr i := fun he => hji (vaddr_inj hj hi he)
        rw [if_neg hne, ih fun t ht => hl t (List.mem_cons_of_mem _ ht)]
        have hiff : i ∈ j :: l ↔ i ∈ l := by
          rw [List.mem_cons, or_iff_right fun he => hji he.symm]
        rw [if_congr hiff rfl rfl]

/-- A block leaves its list. -/
def Kmempool.unlink (kmplp : Kmempool) (k i : Nat) : Kmempool :=
  kmplp.set k ⟨(kmplp.mpMsalsthead k).mlhNr - 1, (kmplp.lst k).erase i⟩

theorem unlink_lst (kmplp : Kmempool) (k i j : Nat) :
    (kmplp.unlink k i).lst j = if j = k then (kmplp.lst k).erase i else kmplp.lst j :=
  set_lst kmplp k j _

theorem mem_unlink {j k' : Nat} (hj : j ∈ kmplp.lst k') (hne : j ≠ i) :
    j ∈ (kmplp.unlink k i).lst k' := by
  rw [unlink_lst]
  split
  · rename_i hk
    exact (List.mem_erase_of_ne hne).mpr (hk ▸ hj)
  · exact hj

theorem PoolFiled.unlink (h : PoolFiled b kmplp segs) (hi : i ∈ kmplp.lst k) :
    PoolFiled b (kmplp.unlink k i) segs := by
  refine h.set (fun j hj => h.filed k j (List.mem_of_mem_erase hj)) ((h.nodup k).erase i) ?_
  rw [List.length_erase_of_mem hi, ← h.nr k]

/-- **`msadsc_del_kmempool`** finds the block of an address in the list for a number of pages. -/
theorem PoolFiled.del (h : PoolFiled b kmplp segs) {mm : Memgrob} (hs : SameArray b mm)
    {i n' : Nat} (hblk : KrnlBlk b i n') (hpos : 1 ≤ n) :
    msadscDelKmempool mm.mem.msadscstat kmplp n (b.vaddr i) =
      .ok (if i ∈ kmplp.lst (msaIdx n) then (kmplp.unlink (msaIdx n) i, some i)
        else (kmplp, none)) := by
  have hne := vaddr_ne_zero hblk
  have hlt := hblk.pos
  have hle := hblk.le
  have hloop := delMsaLoop_eq (d := mm.mem.msadscstat) (i := i)
    (l := kmplp.lst (msaIdx n)) (fun j hj => by
      obtain ⟨g, hg, rfl, -⟩ := h.filed _ j hj
      have hk := h.krnl g hg
      have hgpos := hk.pos
      have hgle := hk.le
      exact ⟨(hk.viradr hs).1, by omega⟩) (by omega)
  unfold msadscDelKmempool
  rw [if_neg (by omega)]
  by_cases hi : i ∈ kmplp.lst (msaIdx n)
  · rw [if_pos hi] at hloop ⊢
    unfold Kmempool.lst at hloop
    dsimp only
    rw [hloop]
    rfl
  · rw [if_neg hi] at hloop ⊢
    unfold Kmempool.lst at hloop
    dsimp only
    rw [hloop]

end Lists

/-! ## The invariant -/

/-- The objects in use, each with its size rounded up. -/
def objsOf (live : List (Nat × Nat)) : List (Nat × Nat) :=
  (live.filter fun o => o.2 ≤ objsorpage).map fun o => (o.1, objsAlign o.2)

/-- The blocks of pages in use. -/
def blksOf (live : List (Nat × Nat)) : List (Nat × Nat) :=
  live.filter fun o => objsorpage < o.2

/-- A block of pages in use is outstanding and filed. -/
def BlkFiled (b : BootArray) (kmplp : Kmempool) (segs : List Seg) (o : Nat × Nat) : Prop :=
  ∃ i, o.1 = b.vaddr i ∧ ⟨i, relPnr o.2⟩ ∈ segs ∧ i ∈ kmplp.lst (msaIdx (relPnr o.2))

/-- **What is in use**: `live` are the addresses, each with the size that was asked for, and
`segs` the blocks of pages that `krlnew` got.  Other users hold the blocks `others` and the
objects `objs`. -/
structure KrlInv (b : BootArray) (m : KrlMem) (others : List Seg) (objs : List (Nat × Nat))
    (segs : List Seg) (live : List (Nat × Nat)) (lay : Nat → Option Lay) : Prop where
  km : KmInv b m.kmem (segs ++ others) (objsOf live ++ objs) lay
  pool : PoolFiled b m.pool segs
  blks : ∀ o ∈ blksOf live, BlkFiled b m.pool segs o
  apart : ((blksOf live).map Prod.fst).Nodup
  sizes : ∀ o ∈ live, 1 ≤ o.2 ∧ o.2 ≤ kmempalcszMax

section Inv

variable {b : BootArray} {m : KrlMem} {others segs : List Seg} {objs live : List (Nat × Nat)}
  {lay : Nat → Option Lay} {s p : Nat}

theorem objsOf_cons (o : Nat × Nat) (live : List (Nat × Nat)) : objsOf (o :: live) =
    if o.2 ≤ objsorpage then (o.1, objsAlign o.2) :: objsOf live else objsOf live := by
  unfold objsOf
  by_cases h : o.2 ≤ objsorpage
  · rw [if_pos h, List.filter_cons_of_pos (by simpa using h), List.map_cons]
  · rw [if_neg h, List.filter_cons_of_neg (by simpa using h)]

theorem blksOf_cons (o : Nat × Nat) (live : List (Nat × Nat)) : blksOf (o :: live) =
    if objsorpage < o.2 then o :: blksOf live else blksOf live := by
  unfold blksOf
  by_cases h : objsorpage < o.2
  · rw [if_pos h, List.filter_cons_of_pos (by simpa using h)]
  · rw [if_neg h, List.filter_cons_of_neg (by simpa using h)]

theorem mem_blksOf {o : Nat × Nat} : o ∈ blksOf live ↔ o ∈ live ∧ objsorpage < o.2 := by
  unfold blksOf
  rw [List.mem_filter, decide_eq_true_eq]

theorem KrlInv.sizes_cons (h : KrlInv b m others objs segs live lay) (hpos : 1 ≤ s)
    (hle : s ≤ kmempalcszMax) : ∀ o ∈ (p, s) :: live, 1 ≤ o.2 ∧ o.2 ≤ kmempalcszMax := by
  intro o ho
  rcases List.mem_cons.mp ho with rfl | ho
  · exact ⟨hpos, hle⟩
  · exact h.sizes o ho

/-- Each pool is still there, perhaps with newer blocks. -/
def LaysKept (lay lay' : Nat → Option Lay) : Prop :=
  ∀ c < koblstMax, ∀ y, lay c = some y → ∃ y', lay' c = some y' ∧ y.Extends y'

theorem LaysKept.refl (lay : Nat → Option Lay) : LaysKept lay lay :=
  fun _ _ y hy => ⟨y, hy, Lay.Extends.refl y⟩

theorem LaysKept.trans {lay lay' lay'' : Nat → Option Lay} (h : LaysKept lay lay')
    (h' : LaysKept lay' lay'') : LaysKept lay lay'' := by
  intro c hc y hy
  obtain ⟨z, hz, hext⟩ := h c hc y hy
  obtain ⟨w, hw, hext'⟩ := h' c hc z hz
  exact ⟨w, hw, hext.trans hext'⟩

/-! ## Allocating -/

/-- **`krlnew` of an object.** -/
theorem KrlInv.newObjs (h : KrlInv b m others objs segs live lay) (hpos : 1 ≤ s)
    (hle : s ≤ objsorpage) : m.krlnew s = .ok (m, none) ∨
    ∃ m' p lay', m.krlnew s = .ok (m', some p) ∧
      KrlInv b m' others objs segs ((p, s) :: live) lay' ∧ m'.pool = m.pool ∧
      LaysKept lay lay' := by
  obtain ⟨hpos', hle'⟩ := objsAlign_le hpos hle
  have hnot : ¬ objsorpage < s := Nat.not_lt.mpr hle
  rw [krlnew_objs hpos hle]
  unfold kmempoolObjszCoreNew
  rcases kmsobNew_spec h.km hpos' hle' with hnone | ⟨kmem', p, lay', hsome, hkm, hothers, hclass⟩
  · left
    rw [hnone]
  · right
    rw [hsome]
    refine ⟨_, p, lay', rfl, ⟨?_, h.pool, ?_, ?_, ?_⟩, rfl, fun c _ y hy => ?_⟩
    · rw [objsOf_cons, if_pos hle]
      exact hkm
    · rw [blksOf_cons, if_neg hnot]
      exact h.blks
    · rw [blksOf_cons, if_neg hnot]
      exact h.apart
    · exact h.sizes_cons hpos (by simp only [objsorpage, kmempalcszMax] at hle ⊢; omega)
    · by_cases hc : c = classOf (objsAlign s)
      · subst hc
        exact hclass y hy
      · exact ⟨y, (hothers c hc).trans hy, Lay.Extends.refl y⟩

/-- **`krlnew` of pages.** -/
theorem KrlInv.newPages (h : KrlInv b m others objs segs live lay) (hbig : objsorpage < s)
    (hle : s ≤ kmempalcszMax) : m.krlnew s = .ok (m, none) ∨
    ∃ m' i, m.krlnew s = .ok (m', some (b.vaddr i)) ∧
      KrlInv b m' others objs (⟨i, relPnr s⟩ :: segs) ((b.vaddr i, s) :: live) lay ∧
      ∀ k, m'.pool.lst k = if k = msaIdx (relPnr s) then i :: m.pool.lst k else m.pool.lst k := by
  have hpages : pageAlign s >>> 12 = pagesOf s := rfl
  have hcode : MaType.krnl.code = (areaTy 1).code := rfl
  rw [krlnew_pages hbig hle]
  unfold kmempoolPagesCoreNew
  rw [hpages, hcode]
  rcases mmDivisionPages_granted h.km.mm (show 1 < 2 by decide) (pagesOf s) with
    hnone | ⟨-, mm', i, hsome, hmm, hsame, hout⟩
  · left
    rw [hnone]
  right
  have hrel : 2 ^ retnDivoder (pagesOf s) = relPnr s := rfl
  rw [hrel] at hsome hmm hout
  have hs : SameArray b mm' := h.km.same.mono hsame
  have hblk : KrnlBlk b i (relPnr s) := KrnlBlk.of_out hmm hs List.mem_cons_self hout
  have hfresh : ∀ g ∈ segs, g.start ≠ i := fun g hg he =>
    (List.pairwise_cons.mp hmm.starts).1 g
      (List.mem_append_right _ (List.mem_append_left _ hg)) he.symm
  have hstep : mmStep ⟨m.kmem.mm, segs ++ others⟩
      (.divisionPages (pagesOf s) (areaTy 1).code dmfReldiv) =
        .ok ⟨mm', ⟨i, relPnr s⟩ :: (segs ++ others)⟩ := by
    simp only [mmStep]
    rw [hsome]
    rfl
  have hkm := h.km.pages (fun i n he => by cases he) hstep
  obtain ⟨pool', hadd, hpool, hlst⟩ := h.pool.add hblk.pos hblk hfresh
  have hfiled : i ∈ pool'.lst (msaIdx (relPnr s)) := by
    rw [hlst, if_pos rfl]
    exact List.mem_cons_self
  have hret : msadscRetVaddr (mm'.mem.msadscstat i) = .ok (b.vaddr i) := (hblk.viradr hs).1
  refine ⟨⟨{ m.kmem with mm := mm' }, pool'⟩, i, ?_, ⟨?_, hpool, ?_, ?_, ?_⟩, hlst⟩
  · rw [hsome]
    dsimp only
    rw [hadd, hret]
  · rw [objsOf_cons, if_neg (Nat.not_le.mpr hbig)]
    exact hkm
  · rw [blksOf_cons, if_pos hbig]
    intro o ho
    rcases List.mem_cons.mp ho with rfl | ho
    · exact ⟨i, rfl, List.mem_cons_self, hfiled⟩
    · obtain ⟨j, hj, hmem, hin⟩ := h.blks o ho
      refine ⟨j, hj, List.mem_cons_of_mem _ hmem, ?_⟩
      rw [hlst]
      split
      · exact List.mem_cons_of_mem _ hin
      · exact hin
  · rw [blksOf_cons, if_pos hbig, List.map_cons, List.nodup_cons]
    refine ⟨fun hmem => ?_, h.apart⟩
    obtain ⟨o, ho, he⟩ := List.mem_map.mp hmem
    obtain ⟨j, hj, hseg, -⟩ := h.blks o ho
    have hkj := h.pool.krnl _ hseg
    have hkpos := hkj.pos
    have hkle := hkj.le
    have hipos := hblk.pos
    have hile := hblk.le
    simp only at hkpos hkle
    exact hfresh _ hseg (vaddr_inj (by simp only; omega) (by omega) (hj.symm.trans he))
  · exact h.sizes_cons (Nat.one_le_of_lt hbig) hle

/-! ## Giving back -/

theorem objsOf_perm {live' : List (Nat × Nat)} (h : live.Perm live') :
    (objsOf live).Perm (objsOf live') :=
  (h.filter _).map _

/-- **`krldelete` of an object in use.** -/
theorem KrlInv.deleteObjs (h : KrlInv b m others objs segs live lay) (ho : (p, s) ∈ live)
    (hle : s ≤ objsorpage) : ∃ m' lay', m.krldelete p s = .ok (m', true) ∧
      KrlInv b m' others objs segs (live.erase (p, s)) lay' ∧ m'.pool = m.pool ∧
      ∀ c, liveOf c (objsOf (live.erase (p, s)) ++ objs) ≠ [] → lay' c = lay c := by
  have hpos := (h.sizes _ ho).1
  obtain ⟨hpos', hle'⟩ := objsAlign_le hpos hle
  have hperm := List.perm_cons_erase ho
  have hobjs := (objsOf_perm hperm).append_right objs
  rw [objsOf_cons, if_pos hle, List.cons_append] at hobjs
  have hblks : (blksOf live).Perm (blksOf (live.erase (p, s))) := by
    have hfilter := hperm.filter fun o => objsorpage < o.2
    have hcons := blksOf_cons (p, s) (live.erase (p, s))
    rw [if_neg (Nat.not_lt.mpr hle)] at hcons
    rw [← hcons]
    exact hfilter
  have hlive : p ∈ liveOf (classOf (objsAlign s)) (objsOf live ++ objs) :=
    mem_liveOf.mpr ⟨_, hobjs.mem_iff.mpr List.mem_cons_self, rfl, rfl⟩
  obtain ⟨kmem', lay', hrun, hkm, hothers, hclass⟩ := kmsobDelete_live h.km hpos' hle' hlive
  have hsame : ∀ i, (liveOf i (objsOf (live.erase (p, s)) ++ objs)).Perm
      (liveOf i (dropLive p (classOf (objsAlign s)) (objsOf live ++ objs))) := by
    intro i
    have hcls := liveOf_perm hobjs i
    rw [liveOf_cons] at hcls
    rw [liveOf_dropLive]
    by_cases hi : i = classOf (objsAlign s)
    · rw [if_pos hi.symm] at hcls
      rw [if_pos hi]
      have herase := hcls.erase p
      rw [List.erase_cons_head] at herase
      exact herase.symm
    · rw [if_neg fun he => hi he.symm] at hcls
      rw [if_neg hi]
      exact hcls.symm
  have hp : p ≠ 0 := by
    rintro rfl
    have hno : kmsobDelete m.kmem 0 (objsAlign s) = .ok (m.kmem, false) := if_pos (Or.inl rfl)
    rw [hno] at hrun
    cases hrun
  refine ⟨{ m with kmem := kmem' }, lay', ?_, ⟨?_, h.pool, ?_, ?_, ?_⟩, rfl, fun c hne => ?_⟩
  · rw [krldelete_objs hp hpos hle]
    unfold kmempoolObjszCoreDelete
    rw [hrun]
  · exact hkm.congr hsame fun o hmem =>
      h.km.sizes o (hobjs.mem_iff.mpr (List.mem_cons_of_mem _ hmem))
  · exact fun o hmem => h.blks o (hblks.mem_iff.mpr hmem)
  · exact (hblks.map Prod.fst).nodup_iff.mp h.apart
  · exact fun o hmem => h.sizes o (List.mem_of_mem_erase hmem)
  · by_cases hc : c = classOf (objsAlign s)
    · subst hc
      exact hclass fun hnil => hne ((hnil ▸ hsame _).eq_nil)
    · exact hothers c hc

/-- A block of pages is no longer in use.  Its descriptor may be in a list or not, and the
block outstanding or not. -/
theorem KrlInv.dropPages (h : KrlInv b m others objs segs live lay) {i : Nat}
    (hbig : objsorpage < s)
    (ho : (b.vaddr i, s) ∈ live) {kmem' : Kmem} {pool' : Kmempool} {segs' : List Seg}
    (hkm : KmInv b kmem' (segs' ++ others) (objsOf live ++ objs) lay)
    (hpool : PoolFiled b pool' segs')
    (hlst : ∀ k, ∀ j ∈ m.pool.lst k, j ≠ i → j ∈ pool'.lst k)
    (hsegs : ∀ g ∈ segs, g.start ≠ i → g ∈ segs') :
    KrlInv b ⟨kmem', pool'⟩ others objs segs' (live.erase (b.vaddr i, s)) lay := by
  have hperm := List.perm_cons_erase ho
  have hobjs := (objsOf_perm hperm).append_right objs
  rw [objsOf_cons, if_neg (Nat.not_le.mpr hbig)] at hobjs
  have hblks : (blksOf live).Perm ((b.vaddr i, s) :: blksOf (live.erase (b.vaddr i, s))) := by
    have hfilter := hperm.filter fun o => objsorpage < o.2
    have hcons := blksOf_cons (b.vaddr i, s) (live.erase (b.vaddr i, s))
    rw [if_pos hbig] at hcons
    rw [← hcons]
    exact hfilter
  have hnodup := (hblks.map Prod.fst).nodup_iff.mp h.apart
  rw [List.map_cons, List.nodup_cons] at hnodup
  refine ⟨?_, hpool, fun o hmem => ?_, hnodup.2,
    fun o hmem => h.sizes o (List.mem_of_mem_erase hmem)⟩
  · exact hkm.congr (fun i => (liveOf_perm hobjs i).symm) fun o hmem =>
      h.km.sizes o (hobjs.mem_iff.mpr hmem)
  · obtain ⟨j, hj, hseg, hin⟩ := h.blks o (hblks.mem_iff.mpr (List.mem_cons_of_mem _ hmem))
    have hne : j ≠ i := by
      rintro rfl
      exact hnodup.1 (List.mem_map.mpr ⟨o, hmem, hj⟩)
    exact ⟨j, hj, hsegs _ hseg hne, hlst _ j hin hne⟩

/-- `krldelete` looks up the list for the number of pages that the size takes. -/
theorem KrlInv.krldelete_found (h : KrlInv b m others objs segs live lay) {i n : Nat} {mm : Memgrob}
    {r : Bool} (hblk : KrnlBlk b i n) (hbig : objsorpage < s) (hle : s ≤ kmempalcszMax)
    (hin : i ∈ m.pool.lst (msaIdx (pagesOf s)))
    (hmerge : mmMergePages m.kmem.mm i (pagesOf s) = .ok (mm, r)) :
    m.krldelete (b.vaddr i) s =
      .ok (⟨{ m.kmem with mm := mm }, m.pool.unlink (msaIdx (pagesOf s)) i⟩, r) := by
  have hdel := h.pool.del h.km.same hblk (pagesOf_pos hbig hle)
  rw [if_pos hin] at hdel
  rw [krldelete_pages (vaddr_ne_zero hblk) hbig hle]
  unfold kmempoolPagesCoreDelete
  dsimp only
  unfold pagesOf at hdel hmerge
  rw [hdel]
  dsimp only
  rw [hmerge]
  rfl

/-- It does not find a block that is not in this list. -/
theorem KrlInv.krldelete_lost (h : KrlInv b m others objs segs live lay) {i n : Nat}
    (hblk : KrnlBlk b i n) (hbig : objsorpage < s) (hle : s ≤ kmempalcszMax)
    (hin : i ∉ m.pool.lst (msaIdx (pagesOf s))) :
    m.krldelete (b.vaddr i) s = .ok (m, false) := by
  have hdel := h.pool.del h.km.same hblk (pagesOf_pos hbig hle)
  rw [if_neg hin] at hdel
  rw [krldelete_pages (vaddr_ne_zero hblk) hbig hle]
  unfold kmempoolPagesCoreDelete
  dsimp only
  unfold pagesOf at hdel
  rw [hdel]

theorem KrlInv.mem_out {g : Seg} (hg : g ∈ segs) : g ∈ poolBlocks lay ++ (segs ++ others) :=
  List.mem_append_right _ (List.mem_append_left _ hg)

/-- Two outstanding blocks that start at the same page are the same. -/
theorem KrlInv.eq_of_start (h : KrlInv b m others objs segs live lay) {g g' : Seg}
    (hg : g ∈ poolBlocks lay ++ (segs ++ others)) (hg' : g' ∈ poolBlocks lay ++ (segs ++ others))
    (hstart : g.start = g'.start) : g = g' := by
  by_contra hne
  refine disjoint_of_cover_le (fun i => Nat.le_trans (Nat.le_add_left _ _)
    (h.km.mm.mem.tiles.le_one i)) hg hg' hne g.start ⟨⟨Nat.le_refl _, ?_⟩, ⟨?_, ?_⟩⟩
  · exact Nat.lt_add_of_pos_right (h.km.mm.lens g hg)
  · exact Nat.le_of_eq hstart.symm
  · rw [hstart]
    exact Nat.lt_add_of_pos_right (h.km.mm.lens g' hg')

theorem KrlInv.start_lt (h : KrlInv b m others objs segs live lay) {g : Seg} (hg : g ∈ segs) :
    g.start < m.kmem.mm.moMsanr := by
  have hblk := h.pool.krnl g hg
  have hpos := hblk.pos
  have hle := hblk.le
  rw [h.km.same.msanr]
  omega

/-- Filed blocks have different addresses. -/
theorem KrlInv.start_inj (h : KrlInv b m others objs segs live lay) {i j k : Nat}
    (hi : i ∈ m.pool.lst k) (hj : j ∈ m.pool.lst k) (he : b.vaddr i = b.vaddr j) : i = j := by
  obtain ⟨g, hg, rfl, -⟩ := h.pool.filed k i hi
  obtain ⟨g', hg', rfl, -⟩ := h.pool.filed k j hj
  have hlt := h.start_lt hg
  have hlt' := h.start_lt hg'
  rw [h.km.same.msanr] at hlt hlt'
  exact vaddr_inj hlt hlt' he

/-- The block of an address in use. -/
theorem KrlInv.blk (h : KrlInv b m others objs segs live lay) (ho : (p, s) ∈ live)
    (hbig : objsorpage < s) : BlkFiled b m.pool segs (p, s) :=
  h.blks _ (mem_blksOf.mpr ⟨ho, hbig⟩)

/-- **`krldelete` of pages in use** that were handed out to the last one. -/
theorem KrlInv.deletePages (h : KrlInv b m others objs segs live lay) (ho : (p, s) ∈ live)
    (hbig : objsorpage < s) (hok : SizeOk s) : ∃ m' i, m.krldelete p s = .ok (m', true) ∧
      p = b.vaddr i ∧ ⟨i, relPnr s⟩ ∈ segs ∧ i ∈ m.pool.lst (msaIdx (relPnr s)) ∧
      m'.pool = m.pool.unlink (msaIdx (relPnr s)) i ∧
      KrlInv b m' others objs (segs.erase ⟨i, relPnr s⟩) (live.erase (p, s)) lay := by
  obtain ⟨i, hp, hseg, hin⟩ := h.blk ho hbig
  simp only at hp hseg hin
  subst hp
  have hrel := hok.relPnr_eq hbig
  obtain ⟨mm', hmerge, -⟩ := mmMergePages_accept h.km.mm (KrlInv.mem_out hseg)
  simp only at hmerge
  have hrun : m.krldelete (b.vaddr i) s = .ok (⟨{ m.kmem with mm := mm' },
      m.pool.unlink (msaIdx (relPnr s)) i⟩, true) := by
    rw [hrel] at hin hmerge ⊢
    exact h.krldelete_found (h.pool.krnl _ hseg) hbig (h.sizes _ ho).2 hin hmerge
  have hstep : mmStep ⟨m.kmem.mm, segs ++ others⟩ (.mergePages i (relPnr s)) =
      .ok ⟨mm', segs.erase ⟨i, relPnr s⟩ ++ others⟩ := by
    simp only [mmStep]
    rw [if_pos (h.start_lt hseg), hmerge, List.erase_append_left _ hseg]
  have hkm := h.km.pages (fun j n he => by cases he; exact List.mem_append_left _ hseg) hstep
  have hgone : ∀ k, i ∉ (m.pool.unlink (msaIdx (relPnr s)) i).lst k := by
    intro k hmem
    rw [unlink_lst] at hmem
    split at hmem
    · exact (h.pool.nodup _).not_mem_erase hmem
    · rename_i hk
      obtain ⟨g, hg, hstart, hidx⟩ := h.pool.filed k i hmem
      have heq := h.eq_of_start (KrlInv.mem_out hg) (KrlInv.mem_out hseg) hstart
      rw [heq] at hidx
      exact hk hidx.symm
  have hpool := (h.pool.unlink hin).drop hseg hgone
  refine ⟨_, i, hrun, rfl, hseg, hin, rfl, h.dropPages hbig ho hkm hpool ?_ ?_⟩
  · exact fun k j hj hne => mem_unlink hj hne
  · intro g hg hne
    refine (List.mem_erase_of_ne ?_).mpr hg
    rintro rfl
    exact hne rfl

/-- **`krldelete` of other pages in use** fails.  The block stays outstanding, and in its list if
that is not the list that was looked up. -/
theorem KrlInv.deleteLeak (h : KrlInv b m others objs segs live lay) (ho : (p, s) ∈ live)
    (hno : ¬ SizeOk s) : ∃ m', m.krldelete p s = .ok (m', false) ∧
      KrlInv b m' others objs segs (live.erase (p, s)) lay := by
  have hbig : objsorpage < s := Nat.lt_of_not_le fun hle => hno (Or.inl hle)
  obtain ⟨i, hp, hseg, -⟩ := h.blk ho hbig
  simp only at hp hseg
  subst hp
  have hblk := h.pool.krnl _ hseg
  have hle := (h.sizes _ ho).2
  by_cases hin : i ∈ m.pool.lst (msaIdx (pagesOf s))
  · have hnot : Seg.mk i (pagesOf s) ∉ poolBlocks lay ++ (segs ++ others) := by
      intro hmem
      have heq := h.eq_of_start hmem (KrlInv.mem_out hseg) rfl
      have hlen : pagesOf s = relPnr s := congrArg Seg.len heq
      exact hno (Or.inr ⟨_, hlen⟩)
    have hmerge := mmMergePages_reject h.km.mm (h.start_lt hseg) hnot
    have hrun := h.krldelete_found hblk hbig hle hin hmerge
    refine ⟨_, hrun, h.dropPages hbig ho h.km (h.pool.unlink hin) (fun k j hj hne => ?_)
      fun _ hg _ => hg⟩
    exact mem_unlink hj hne
  · exact ⟨m, h.krldelete_lost hblk hbig hle hin,
      h.dropPages hbig ho h.km h.pool (fun _ _ hj _ => hj) fun _ hg _ => hg⟩

end Inv

end Cosmos.Kernel
