import Cosmos.Kernel.KrlpagempolRun

/-!
# Everything given back

From any state that requests lead to, memory is asked for in sizes that go back, and only that
memory goes back, in any order.  `Since` says how the state differs from the one at the start.
When nothing is left of what was obtained, the lists of `oskmempool` are as at the start, and
so are the pools and the free pages, but for blocks that a pool needed in between and keeps.

## Main results

* `krlnew_restored` : the state after everything was given back.
-/

namespace Cosmos.Kernel

open Cosmos.Hal Cosmos.Lib.Word64 Cosmos.Lib.Cover Cosmos.Lib.Slab Cosmos.Lib.Run

/-- Memory is asked for in a size that goes back, or what was obtained since `u` goes back. -/
inductive SinceCall (u st : KrlState) : KrlOp → Prop where
  | new {mmsize : Nat} (h : SizeOk mmsize) : SinceCall u st (.new mmsize)
  | delete {fradr frsz : Nat} (h : (fradr, frsz) ∈ st.live) (hnew : (fradr, frsz) ∉ u.live) :
      SinceCall u st (.delete fradr frsz)

/-- The memory of extension blocks. -/
def extChunks (l : List Kmbext) : List Chunk :=
  l.map fun bexp => ⟨bexp.mtVstat, bexp.mtVend, sizeofKmbext⟩

/-- **The pool as it was**, but for the order of its free objects and newer blocks. -/
structure PoolKept (k k' : Kmsob) : Prop where
  first : k'.soVstat = k.soVstat ∧ k'.soVend = k.soVend ∧ k'.soObjsz = k.soObjsz
  exts : ∃ new, k'.soMextlst = new ++ k.soMextlst ∧
    k'.soFrelst.Perm (k.soFrelst ++ allSlots k.soObjsz (extChunks new))
  same : k'.soMextlst = k.soMextlst → k' = { k with soFrelst := k'.soFrelst }

/-- **The memory as it was**, but for newer blocks of pools. -/
structure Restored (u t : KrlMem) : Prop where
  lists : t.pool = u.pool
  koblst : ∀ c < koblstMax, (t.kmem.mgr.ksMsoblst c).olEmplst = (u.kmem.mgr.ksMsoblst c).olEmplst
  msobnr : t.kmem.mgr.ksMsobnr = u.kmem.mgr.ksMsobnr
  pools : ∀ c < koblstMax, ∀ kmsp ∈ (u.kmem.mgr.ksMsoblst c).olEmplst,
    PoolKept (u.kmem.kmsob kmsp) (t.kmem.kmsob kmsp)
  pages : t.kmem.mm.moFreepages + t.kmem.pages = u.kmem.mm.moFreepages + u.kmem.pages
  free : (∀ c < koblstMax, ∀ kmsp ∈ (u.kmem.mgr.ksMsoblst c).olEmplst,
      (t.kmem.kmsob kmsp).soMextlst = (u.kmem.kmsob kmsp).soMextlst) →
    t.kmem.mm.moFreepages = u.kmem.mm.moFreepages

/-- The blocks of pages in use that are in a list. -/
def blksIn (k : Nat) (live : List (Nat × Nat)) : List (Nat × Nat) :=
  (blksOf live).filter fun o => msaIdx (relPnr o.2) = k

/-- How many pages the blocks take. -/
def blksLen (live : List (Nat × Nat)) : Nat := ((blksOf live).map fun o => relPnr o.2).sum

/-- **What has happened since `u`**: `nw` has been obtained and is still in use, and `pre` are the
new entries of the lists. -/
structure Since (b : BootArray) (u : KrlState) (segsU : List Seg) (layU : Nat → Option Lay)
    (st : KrlState) (segs : List Seg) (lay : Nat → Option Lay) (nw : List (Nat × Nat))
    (pre : Nat → List Nat) : Prop where
  inv : KrlInv b st.mem st.others st.objs segs st.live lay
  others : st.others = u.others
  objs : st.objs = u.objs
  live : st.live = nw ++ u.live
  sizes : ∀ o ∈ nw, SizeOk o.2
  lists : ∀ k, st.mem.pool.lst k = pre k ++ u.mem.pool.lst k
  count : ∀ k, (pre k).length = (blksIn k nw).length
  filed : ∀ o ∈ blksOf nw, ∃ i ∈ pre (msaIdx (relPnr o.2)), o.1 = b.vaddr i
  len : outLen segs = outLen segsU + blksLen nw
  lays : LaysKept layU lay

section Steps

variable {b : BootArray} {u st : KrlState} {segsU segs : List Seg} {layU lay : Nat → Option Lay}
  {nw : List (Nat × Nat)} {pre : Nat → List Nat} {s p : Nat}

theorem blksIn_cons (k : Nat) (o : Nat × Nat) (live : List (Nat × Nat))
    (hbig : objsorpage < o.2) : (blksIn k (o :: live)).length =
      (blksIn k live).length + if k = msaIdx (relPnr o.2) then 1 else 0 := by
  unfold blksIn
  rw [blksOf_cons, if_pos hbig]
  by_cases hk : msaIdx (relPnr o.2) = k
  · rw [List.filter_cons_of_pos (by simpa using hk), if_pos hk.symm, List.length_cons]
  · rw [List.filter_cons_of_neg (by simpa using hk), if_neg fun he => hk he.symm, Nat.add_zero]

theorem blksOf_small {o : Nat × Nat} {live : List (Nat × Nat)} (hle : o.2 ≤ objsorpage) :
    blksOf (o :: live) = blksOf live := by
  rw [blksOf_cons, if_neg (Nat.not_lt.mpr hle)]

theorem Since.refl (h : KrlInv b u.mem u.others u.objs segsU u.live layU) :
    Since b u segsU layU u segsU layU [] fun _ => [] where
  inv := h
  others := rfl
  objs := rfl
  live := rfl
  sizes o ho := by cases ho
  lists k := rfl
  count k := rfl
  filed o ho := by cases ho
  len := rfl
  lays := LaysKept.refl layU

/-- Memory is obtained. -/
theorem Since.new (h : Since b u segsU layU st segs lay nw pre) (hok : SizeOk s) :
    ∃ st', krlStep st (.new s) = .ok st' ∧
      ∃ segs' lay' nw' pre', Since b u segsU layU st' segs' lay' nw' pre' := by
  have hsizes : ∀ p, ∀ o ∈ (p, s) :: nw, SizeOk o.2 := by
    intro p o ho
    rcases List.mem_cons.mp ho with rfl | ho
    · exact hok
    · exact h.sizes o ho
  simp only [krlStep]
  by_cases hsz : s = 0 ∨ kmempalcszMax < s
  · rw [krlnew_none hsz]
    exact ⟨st, rfl, segs, lay, nw, pre, h⟩
  by_cases hle : s ≤ objsorpage
  · rcases h.inv.newObjs (show 1 ≤ s by omega) hle with
        hnone | ⟨m', p, lay', hrun, hinv, hpool, hkept⟩
    · rw [hnone]
      exact ⟨st, rfl, segs, lay, nw, pre, h⟩
    · rw [hrun]
      refine ⟨_, rfl, segs, lay', (p, s) :: nw, pre, hinv, h.others, h.objs, ?_, hsizes p, ?_, ?_,
        ?_, ?_, h.lays.trans hkept⟩
      · rw [h.live]
        rfl
      · intro k
        rw [hpool]
        exact h.lists k
      · intro k
        unfold blksIn
        rw [blksOf_small hle]
        exact h.count k
      · rw [blksOf_small hle]
        exact h.filed
      · unfold blksLen
        rw [blksOf_small hle]
        exact h.len
  · have hbig := Nat.lt_of_not_le hle
    rcases h.inv.newPages hbig (show s ≤ kmempalcszMax by omega) with
      hnone | ⟨m', i, hrun, hinv, hlst⟩
    · rw [hnone]
      exact ⟨st, rfl, segs, lay, nw, pre, h⟩
    · rw [hrun]
      refine ⟨_, rfl, _, lay, (b.vaddr i, s) :: nw,
        fun k => if k = msaIdx (relPnr s) then i :: pre k else pre k, hinv, h.others, h.objs, ?_,
        hsizes _, fun k => ?_, fun k => ?_, fun o ho => ?_, ?_, h.lays⟩
      · rw [h.live]
        rfl
      · rw [hlst, h.lists]
        split
        · rfl
        · rfl
      · rw [blksIn_cons k (b.vaddr i, s) nw hbig, ← h.count k]
        split
        · rfl
        · rfl
      · rw [blksOf_cons, if_pos hbig] at ho
        rcases List.mem_cons.mp ho with rfl | ho
        · exact ⟨i, by rw [if_pos rfl]; exact List.mem_cons_self, rfl⟩
        · obtain ⟨j, hj, he⟩ := h.filed o ho
          refine ⟨j, ?_, he⟩
          split
          · exact List.mem_cons_of_mem i hj
          · exact hj
      · unfold blksLen
        rw [blksOf_cons, if_pos hbig, List.map_cons, List.sum_cons]
        have hlen := h.len
        unfold blksLen outLen at hlen
        unfold outLen
        rw [List.map_cons, List.sum_cons]
        dsimp only
        omega

theorem blksOf_erase {live : List (Nat × Nat)} (ho : (p, s) ∈ live) (hbig : objsorpage < s) :
    (blksOf live).Perm ((p, s) :: blksOf (live.erase (p, s))) := by
  have hperm := (List.perm_cons_erase ho).filter fun o => objsorpage < o.2
  rwa [List.filter_cons_of_pos (by simpa using hbig)] at hperm

theorem blksOf_erase_small {live : List (Nat × Nat)} (ho : (p, s) ∈ live) (hle : s ≤ objsorpage) :
    (blksOf live).Perm (blksOf (live.erase (p, s))) := by
  have hperm := (List.perm_cons_erase ho).filter fun o => objsorpage < o.2
  rwa [List.filter_cons_of_neg (by simpa using hle)] at hperm

theorem outLen_erase {g : Seg} {l : List Seg} (hg : g ∈ l) :
    outLen l = g.len + outLen (l.erase g) := by
  have hsum := ((List.perm_cons_erase hg).map Seg.len).sum_eq
  rw [List.map_cons, List.sum_cons] at hsum
  exact hsum

/-- A class that had a pool at the start has objects in use all the time. -/
theorem Since.liveOf_ne (h : KrlInv b u.mem u.others u.objs segsU u.live layU) {c : Nat}
    (hc : c < koblstMax) {y : Lay} (hy : layU c = some y) (nw : List (Nat × Nat)) :
    liveOf c (objsOf (nw ++ u.live) ++ u.objs) ≠ [] := by
  have hne := h.km.used c hc y hy
  obtain ⟨x, hx⟩ := List.exists_mem_of_ne_nil _ hne
  obtain ⟨o, ho, hcls, hadr⟩ := mem_liveOf.mp hx
  refine List.ne_nil_of_mem (mem_liveOf.mpr ⟨o, ?_, hcls, hadr⟩)
  unfold objsOf at ho ⊢
  rw [List.filter_append, List.map_append, List.append_assoc]
  exact List.mem_append_right _ ho

/-- Memory goes back. -/
theorem Since.delete (h : Since b u segsU layU st segs lay nw pre)
    (hu : KrlInv b u.mem u.others u.objs segsU u.live layU) (ho : (p, s) ∈ st.live)
    (hnew : (p, s) ∉ u.live) : ∃ st', krlStep st (.delete p s) = .ok st' ∧
      ∃ segs' lay' nw' pre', Since b u segsU layU st' segs' lay' nw' pre' := by
  have hmem : (p, s) ∈ nw := by
    have hin := ho
    rw [h.live] at hin
    exact (List.mem_append.mp hin).resolve_right hnew
  have hlive : st.live.erase (p, s) = nw.erase (p, s) ++ u.live := by
    rw [h.live, List.erase_append_left _ hmem]
  have hok := h.sizes _ hmem
  have hsizes : ∀ o ∈ nw.erase (p, s), SizeOk o.2 := fun o ho =>
    h.sizes o (List.mem_of_mem_erase ho)
  simp only [krlStep]
  by_cases hle : s ≤ objsorpage
  · obtain ⟨m', lay', hrun, hinv, hpool, hkept⟩ := h.inv.deleteObjs ho hle
    have hblks := blksOf_erase_small hmem hle
    rw [hrun]
    refine ⟨_, rfl, segs, lay', nw.erase (p, s), pre, hinv, h.others, h.objs, hlive, hsizes, ?_,
      fun k => ?_, fun o ho => ?_, ?_, fun c hc y hy => ?_⟩
    · intro k
      rw [hpool]
      exact h.lists k
    · rw [h.count k]
      exact (hblks.filter _).length_eq
    · exact h.filed o (hblks.mem_iff.mpr ho)
    · rw [h.len]
      exact congrArg (outLen segsU + ·) (hblks.map _).sum_eq
    · rw [hkept c]
      · exact h.lays c hc y hy
      · rw [hlive, h.objs]
        exact Since.liveOf_ne hu hc hy _
  · have hbig := Nat.lt_of_not_le hle
    obtain ⟨m', i, hrun, hp, hseg, hin, hpool, hinv⟩ := h.inv.deletePages ho hbig hok
    have hblks := blksOf_erase hmem hbig
    obtain ⟨j, hj, hadr⟩ := h.filed _ (hblks.mem_iff.mpr List.mem_cons_self)
    have hji : j = i := h.inv.start_inj (by rw [h.lists]; exact List.mem_append_left _ hj) hin
      (hadr.symm.trans hp)
    subst hji
    have hnodup : ((blksOf nw).map Prod.fst).Nodup := by
      have hall := h.inv.apart
      unfold blksOf at hall
      rw [h.live, List.filter_append, List.map_append] at hall
      exact (List.nodup_append.mp hall).1
    rw [(hblks.map Prod.fst).nodup_iff, List.map_cons, List.nodup_cons] at hnodup
    rw [hrun]
    refine ⟨_, rfl, _, lay, nw.erase (p, s),
      fun k => if k = msaIdx (relPnr s) then (pre k).erase j else pre k, hinv, h.others, h.objs,
      hlive, hsizes, fun k => ?_, fun k => ?_, fun o ho => ?_, ?_, h.lays⟩
    · rw [hpool, unlink_lst, h.lists, h.lists]
      split
      · rename_i hk
        rw [hk, List.erase_append_left _ hj]
      · rfl
    · have hcount := (hblks.filter fun o => msaIdx (relPnr o.2) = k).length_eq
      have hcons := blksIn_cons k (p, s) (nw.erase (p, s)) hbig
      have hold := h.count k
      unfold blksIn at hcons hold ⊢
      rw [blksOf_cons, if_pos hbig] at hcons
      split
      · rename_i hk
        rw [if_pos hk] at hcons
        rw [List.length_erase_of_mem (hk ▸ hj)]
        omega
      · rename_i hk
        rw [if_neg hk] at hcons
        omega
    · obtain ⟨t, ht, he⟩ := h.filed o (hblks.mem_iff.mpr (List.mem_cons_of_mem _ ho))
      refine ⟨t, ?_, he⟩
      have hne : t ≠ j := by
        rintro rfl
        exact hnodup.1 (List.mem_map.mpr ⟨o, ho, he.trans hadr.symm⟩)
      split
      · exact (List.mem_erase_of_ne hne).mpr ht
      · exact ht
    · have hsum := (hblks.map fun o => relPnr o.2).sum_eq
      have hlen := h.len
      rw [outLen_erase hseg] at hlen
      rw [List.map_cons, List.sum_cons] at hsum
      unfold blksLen at hlen ⊢
      dsimp only at hlen hsum
      omega

/-- **Each request** that gets through leads to such a state again. -/
theorem Since.step (h : Since b u segsU layU st segs lay nw pre)
    (hu : KrlInv b u.mem u.others u.objs segsU u.live layU) {op : KrlOp}
    (hop : SinceCall u st op) : ∃ st', krlStep st op = .ok st' ∧
      ∃ segs' lay' nw' pre', Since b u segsU layU st' segs' lay' nw' pre' := by
  cases hop with
  | new hok => exact h.new hok
  | delete ho hnew => exact h.delete hu ho hnew

end Steps

/-! ## Nothing left -/

section Restore

variable {b : BootArray} {u st : KrlState} {segsU segs : List Seg} {layU lay : Nat → Option Lay}
  {m m' : Kmem} {c : Nat} {y y' : Lay} {k k' : Kmsob} {live : List Nat} {pre : Nat → List Nat}

/-- The layout says all of a pool but the order of its free objects. -/
theorem pool_eq_of_lay (h : PoolOk b c y k live) (h' : PoolOk b c y k' live) :
    k' = { k with soFrelst := k'.soFrelst } := by
  have hmc : k'.soMc = k.soMc := by
    have hlst : k'.soMc.mcLst = k.soMc.mcLst := funext fun j => (h'.lst j).trans (h.lst j).symm
    have hblk := h'.kmobinlst.trans h.kmobinlst.symm
    have hpnr := h'.kmobinpnr.trans h.kmobinpnr.symm
    cases hk' : k'.soMc
    cases hk : k.soMc
    rw [hk', hk] at hlst hblk hpnr
    simp only at hlst hblk hpnr
    rw [hlst, hblk, hpnr]
  have hlen := h.slab.length
  have hlen' := h'.slab.length
  have h1 := h'.vstat.trans h.vstat.symm
  have h2 := h'.vend.trans h.vend.symm
  have h3 := h'.objsz.trans h.objsz.symm
  have h4 := h'.mobjnr.trans h.mobjnr.symm
  have h5 : k'.soFobjnr = k.soFobjnr := by
    rw [h'.fobjnr, h.fobjnr]
    omega
  have h6 := h'.mextlst.trans h.mextlst.symm
  have h7 := h'.mextnr.trans h.mextnr.symm
  cases k'
  simp only at h1 h2 h3 h4 h5 h6 h7 hmc
  rw [h1, h2, h3, h4, h5, h6, h7, hmc]

/-- A pool with newer blocks. -/
theorem pool_kept (h : PoolOk b c y k live) (h' : PoolOk b c y' k' live) (hext : y.Extends y') :
    PoolKept k k' := by
  obtain ⟨new, hnew⟩ := hext.exts
  have hfirst := hext.first
  have hmext : k'.soMextlst = new.map (extOf b c (b.vaddr y.first)) ++ k.soMextlst := by
    rw [h'.mextlst, h.mextlst, hfirst, ← hnew, List.map_append]
  refine ⟨⟨?_, ?_, h'.objsz.trans h.objsz.symm⟩, ⟨_, hmext, ?_⟩, fun hsame => ?_⟩
  · rw [h'.vstat, h.vstat, hfirst]
  · rw [h'.vend, h.vend, hfirst]
  · have hchunks : (y'.chunks b c).Perm
        (y.chunks b c ++ new.map (blkChunk b sizeofKmbext (classPages c))) := by
      unfold Lay.chunks
      rw [hfirst, ← hnew, List.map_append, List.cons_append]
      exact List.perm_append_comm.cons _
    have hslots : extChunks (new.map (extOf b c (b.vaddr y.first))) =
        new.map (blkChunk b sizeofKmbext (classPages c)) := by
      unfold extChunks
      rw [List.map_map]
      rfl
    have hall : (allSlots (classSz c) (y'.chunks b c)).Perm (allSlots (classSz c) (y.chunks b c) ++
        allSlots (classSz c) (new.map (blkChunk b sizeofKmbext (classPages c)))) := by
      have hflat := hchunks.flatMap_right (Chunk.slots (classSz c))
      rwa [List.flatMap_append] at hflat
    rw [hslots, h.objsz]
    have hfree := h'.slab.perm.trans (hall.trans (h.slab.perm.symm.append_right _))
    rw [List.append_assoc] at hfree
    have hswap := hfree.trans (List.perm_append_comm.append_left k.soFrelst)
    rw [← List.append_assoc] at hswap
    exact (List.perm_append_right_iff _).mp hswap
  · have hnil : new = [] := by
      rw [hmext] at hsame
      exact List.map_eq_nil_iff.mp (List.append_left_eq_self.mp hsame)
    have hy : y' = y := by
      rw [hnil, List.nil_append] at hnew
      cases y'
      simp only at hfirst hnew
      rw [hfirst, ← hnew]
    subst hy
    exact pool_eq_of_lay h h'

/-- The pools of a class, when nothing is left of what was obtained. -/
theorem Since.lay_cases (h : Since b u segsU layU st segs lay [] pre)
    (hu : KrlInv b u.mem u.others u.objs segsU u.live layU) (hc : c < koblstMax) :
    (layU c = none ∧ lay c = none) ∨ ∃ y y', layU c = some y ∧ lay c = some y' ∧ y.Extends y' := by
  have hlive : st.live = u.live := h.live
  cases hy : layU c with
  | none =>
      refine Or.inl ⟨rfl, ?_⟩
      cases hz : lay c with
      | none => rfl
      | some z =>
          have hused := h.inv.km.used c hc z hz
          rw [hlive, h.objs] at hused
          exact absurd (hu.km.empty hc hy).2 hused
  | some y =>
      obtain ⟨z, hz, hext⟩ := h.lays c hc y hy
      exact Or.inr ⟨y, z, rfl, hz, hext⟩

/-- The lists of `oskmempool`, when nothing is left of what was obtained. -/
theorem Since.pool_eq (h : Since b u segsU layU st segs lay [] pre)
    (hu : KrlInv b u.mem u.others u.objs segsU u.live layU) : st.mem.pool = u.mem.pool := by
  have hlst : ∀ k, st.mem.pool.lst k = u.mem.pool.lst k := by
    intro k
    have hnil : pre k = [] := List.length_eq_zero_iff.mp (h.count k)
    rw [h.lists, hnil, List.nil_append]
  have hhead : st.mem.pool.mpMsalsthead = u.mem.pool.mpMsalsthead := by
    funext k
    have hnr := (h.inv.pool.nr k).trans ((congrArg List.length (hlst k)).trans (hu.pool.nr k).symm)
    have hk := hlst k
    unfold Kmempool.lst at hk
    cases hst : st.mem.pool.mpMsalsthead k
    cases hut : u.mem.pool.mpMsalsthead k
    rw [hst, hut] at hnr hk
    simp only at hnr hk
    rw [hnr, hk]
  cases hst : st.mem.pool
  cases hut : u.mem.pool
  rw [hst, hut] at hhead
  exact congrArg Kmempool.mk hhead

theorem Since.koblst_eq (h : Since b u segsU layU st segs lay [] pre)
    (hu : KrlInv b u.mem u.others u.objs segsU u.live layU) (hc : c < koblstMax) :
    (st.mem.kmem.mgr.ksMsoblst c).olEmplst = (u.mem.kmem.mgr.ksMsoblst c).olEmplst := by
  rcases h.lay_cases hu hc with ⟨hnone, hnone'⟩ | ⟨y, y', hy, hy', hext⟩
  · rw [(h.inv.km.empty hc hnone').1, (hu.km.empty hc hnone).1]
  · rw [(h.inv.km.pooled hc hy').emplst, (hu.km.pooled hc hy).emplst, hext.first]

theorem Since.pools_kept (h : Since b u segsU layU st segs lay [] pre)
    (hu : KrlInv b u.mem u.others u.objs segsU u.live layU) (hc : c < koblstMax) :
    ∀ kmsp ∈ (u.mem.kmem.mgr.ksMsoblst c).olEmplst,
      PoolKept (u.mem.kmem.kmsob kmsp) (st.mem.kmem.kmsob kmsp) := by
  intro kmsp hk
  rcases h.lay_cases hu hc with ⟨hnone, -⟩ | ⟨y, y', hy, hy', hext⟩
  · rw [(hu.km.empty hc hnone).1] at hk
    cases hk
  · have hp := hu.km.pooled hc hy
    have hp' := (h.inv.km.pooled hc hy').pool
    have hlive : st.live = u.live := h.live
    rw [hext.first, hlive, h.objs] at hp'
    rw [hp.emplst, List.mem_singleton] at hk
    subst hk
    exact pool_kept hp.pool hp' hext

/-- **Nothing left**: the memory is as it was. -/
theorem Since.restored (h : Since b u segsU layU st segs lay [] pre)
    (hu : KrlInv b u.mem u.others u.objs segsU u.live layU) : Restored u.mem st.mem := by
  have hpages : st.mem.kmem.mm.moFreepages + st.mem.kmem.pages =
      u.mem.kmem.mm.moFreepages + u.mem.kmem.pages := by
    have hsum := h.inv.km.pages_sum
    have hsum' := hu.km.pages_sum
    have hlen : outLen segs = outLen segsU := h.len
    rw [h.others, outLen_append, hlen] at hsum
    rw [outLen_append] at hsum'
    omega
  refine ⟨h.pool_eq hu, fun c hc => h.koblst_eq hu hc, ?_, fun c hc => h.pools_kept hu hc, hpages,
    fun hsame => ?_⟩
  · rw [h.inv.km.msobnr, hu.km.msobnr]
    refine List.countP_congr fun c hc => ?_
    rcases h.lay_cases hu (List.mem_range.mp hc) with ⟨hnone, hnone'⟩ | ⟨y, y', hy, hy', -⟩
    · rw [hnone, hnone']
    · rw [hy, hy']
      exact iff_of_true rfl rfl
  · have hkm : st.mem.kmem.pages = u.mem.kmem.pages := by
      refine congrArg List.sum (List.map_congr_left fun c hc => ?_)
      have hc := List.mem_range.mp hc
      rw [h.koblst_eq hu hc]
      refine congrArg List.sum (List.map_congr_left fun kmsp hk => ?_)
      have hkept := (h.pools_kept hu hc kmsp hk).same (hsame c hc kmsp hk)
      have hmc : (st.mem.kmem.kmsob kmsp).soMc = (u.mem.kmem.kmsob kmsp).soMc :=
        (congrArg Kmsob.soMc hkept).trans rfl
      exact congrArg Msomdc.pages hmc
    omega

end Restore

/-- **Everything given back**, from any state that requests lead to: every request for memory in
a size that goes back, and every address given back, gets through.  When nothing is left of what
was obtained, the memory is as it was. -/
theorem krlnew_restored {b : BootArray} {s u : KrlState} {ops ops' : List KrlOp} (hs : s.Start b)
    (hfair : AllSteps krlStep KrlFair ops s) (hrun : run krlStep ops s = .ok u)
    (hcalls : AllSteps krlStep (SinceCall u) ops' u) :
    ∃ t, run krlStep ops' u = .ok t ∧ (t.live = u.live → Restored u.mem t.mem) := by
  obtain ⟨segsU, layU, hu⟩ := krlRun_inv hs hfair hrun
  have hstart : ∃ segs lay nw pre, Since b u segsU layU u segs lay nw pre :=
    ⟨segsU, layU, [], fun _ => [], Since.refl hu⟩
  have hstep : ∀ st op, (∃ segs lay nw pre, Since b u segsU layU st segs lay nw pre) →
      SinceCall u st op → ∃ st', krlStep st op = .ok st' ∧
        ∃ segs lay nw pre, Since b u segsU layU st' segs lay nw pre :=
    fun st op ⟨_, _, _, _, hst⟩ hop => hst.step hu hop
  obtain ⟨⟨t, ht⟩, -⟩ := run_total_of_allSteps _ (SinceCall u) (fun _ _ => True)
    (fun st op hst hop => ⟨trivial, hstep st op hst hop⟩) ops' u hstart hcalls
  obtain ⟨segs, lay, nw, pre, hend⟩ := run_inv_of_allSteps _ (SinceCall u)
    (fun st op st' hst hop hst' => by
      obtain ⟨v, hv, hinv⟩ := hstep st op hst hop
      rw [hst'] at hv
      cases hv
      exact hinv) ops' u t hstart hcalls ht
  refine ⟨t, ht, fun hlive => ?_⟩
  have hnil : nw = [] := by
    have heq := hend.live
    rw [hlive] at heq
    exact List.append_left_eq_self.mp heq.symm
  subst hnil
  exact hend.restored hu

/-- `SinceCall`, tested. -/
def sinceFits (u st : KrlState) : KrlOp → Bool
  | .new mmsize => mmsize ≤ objsorpage ∨ pagesOf mmsize = relPnr mmsize
  | .delete fradr frsz => st.holds fradr frsz && !u.holds fradr frsz
  | .other _ => false

theorem sinceFits_call (u st : KrlState) (op : KrlOp) (h : sinceFits u st op = true) :
    SinceCall u st op := by
  cases op with
  | new mmsize => exact .new ((of_decide_eq_true h).imp_right fun he => ⟨_, he⟩)
  | delete fradr frsz =>
      obtain ⟨hin, hout⟩ := Bool.and_eq_true_iff.mp h
      refine .delete (KrlState.holds_iff.mp hin) fun hu => ?_
      rw [KrlState.holds_iff.mpr hu] at hout
      cases hout
  | other op => cases h

/-- Beside an object in use, another one and two pages are obtained and go back. -/
def objAndPagesBack : List KrlOp :=
  [.new 32, .new 8192, .delete 0xffff800002000fb0 32, .delete 0xffff800002002000 8192]

theorem krlnew_restored_fourPages : ∃ s u t, s.Start fourPages ∧ run krlStep [.new 32] s = .ok u ∧
    run krlStep objAndPagesBack u = .ok t ∧ u.live = [(0xffff800002000fd0, 32)] ∧
    Restored u.mem t.mem := by
  obtain ⟨s, u, hs, hfair, hrun, hq⟩ := krlTest_run krlFits_fair fourPages [.new 32]
    (fun u => u.live = [(0xffff800002000fd0, 32)] &&
      (checkSteps krlStep (sinceFits u) objAndPagesBack u &&
        okAnd (run krlStep objAndPagesBack u) fun t => t.live = u.live)) (by decide +kernel)
  rw [Bool.and_eq_true, Bool.and_eq_true] at hq
  obtain ⟨hlive, hcheck, hback⟩ := hq
  obtain ⟨t, ht, hrest⟩ := krlnew_restored hs hfair hrun
    (allSteps_of_check (sinceFits_call u) objAndPagesBack u hcheck)
  obtain ⟨t', ht', hq'⟩ := exists_of_okAnd hback
  rw [ht] at ht'
  cases ht'
  exact ⟨s, u, t, hs, hrun, ht, of_decide_eq_true hlive, hrest (of_decide_eq_true hq')⟩

end Cosmos.Kernel
