import Cosmos.Kernel.KrlpagempolInv

/-!
# Runs of `krlnew` and `krldelete`

Memory is asked for and given back in any order, while others use the object and the page
allocator themselves.  `krlStep_inv` carries `KrlInv` through any such run, as long as each
address goes back with its own size.

## Main results

* `krlMem_apart` : what is in use does not overlap.
* `krldelete_iff` : which addresses `krldelete` takes back.
-/

namespace Cosmos.Kernel

open Cosmos.Hal Cosmos.Lib.Word64 Cosmos.Lib.Cover Cosmos.Lib.Slab Cosmos.Lib.Run

/-- One request. -/
inductive KrlOp where
  | new (mmsize : Nat)
  | delete (fradr frsz : Nat)
  /-- a call of the object or page allocator by another user -/
  | other (op : KmOp)
deriving DecidableEq, Repr

/-- The memory, what other users hold, and the addresses in use with their sizes. -/
structure KrlState where
  mem : KrlMem
  others : List Seg
  objs : List (Nat × Nat)
  live : List (Nat × Nat)

/-- What other users see. -/
def KrlState.km (st : KrlState) : KmState := ⟨st.mem.kmem, st.others, st.objs⟩

/-- One request.  An address that was given back is not in use, whatever `krldelete` says. -/
def krlStep (st : KrlState) : KrlOp → Except String KrlState
  | .new mmsize =>
      match st.mem.krlnew mmsize with
      | .error e => .error e
      | .ok (m', none) => .ok { st with mem := m' }
      | .ok (m', some p) => .ok { st with mem := m', live := (p, mmsize) :: st.live }
  | .delete fradr frsz =>
      match st.mem.krldelete fradr frsz with
      | .error e => .error e
      | .ok (m', _) => .ok { st with mem := m', live := st.live.erase (fradr, frsz) }
  | .other op =>
      match kmStep st.km op with
      | .error e => .error e
      | .ok s => .ok ⟨{ st.mem with kmem := s.mem }, s.others, s.live, st.live⟩

/-- Everybody gives back what he has, with its own size. -/
structure KrlFair (st : KrlState) (op : KrlOp) : Prop where
  own : ∀ fradr frsz, op = .delete fradr frsz → (fradr, frsz) ∈ st.live
  others : ∀ op', op = .other op' → OwnPages st.km op' ∧ BackLive st.km op'

/-- The start: other users may have memory, `krlnew` has not been called. -/
structure KrlState.Start (b : BootArray) (st : KrlState) : Prop where
  pages : b.Reaches ⟨st.mem.kmem.mm, st.others⟩
  mgr : st.mem.kmem.mgr = kmsobmgrhedInit
  pool : st.mem.pool = kmempoolInit
  objs : st.objs = []
  live : st.live = []

/-- All in order, whatever the blocks are. -/
def KrlState.Inv (b : BootArray) (st : KrlState) : Prop :=
  ∃ segs lay, KrlInv b st.mem st.others st.objs segs st.live lay

section Steps

variable {b : BootArray} {st st' : KrlState} {m : KrlMem} {others segs : List Seg}
  {objs live : List (Nat × Nat)} {lay : Nat → Option Lay} {s p : Nat}

theorem KrlState.Start.inv (h : st.Start b) : st.Inv b := by
  have hkm : KmState.Start b ⟨st.mem.kmem, st.others, []⟩ := ⟨h.pages, h.mgr, rfl⟩
  obtain ⟨lay, hinv⟩ := hkm.inv
  refine ⟨[], lay, ?_⟩
  rw [h.live, h.objs]
  refine ⟨hinv, ⟨?_, ?_, ?_, ?_⟩, ?_, List.nodup_nil, ?_⟩
  · exact fun g hg => by cases hg
  · rw [h.pool]
    exact fun k i hi => by cases hi
  · rw [h.pool]
    exact fun k => List.nodup_nil
  · rw [h.pool]
    exact fun k => rfl
  · exact fun o ho => by cases ho
  · exact fun o ho => by cases ho

/-! ## Other users -/

/-- Another user gets an object or gives one back, or works with pages. -/
theorem KrlInv.other (h : KrlInv b m others objs segs live lay) {op : KmOp} {t : KmState}
    (hown : OwnPages ⟨m.kmem, others, objs⟩ op) (hback : BackLive ⟨m.kmem, others, objs⟩ op)
    (hstep : kmStep ⟨m.kmem, others, objs⟩ op = .ok t) :
    ∃ lay', KrlInv b { m with kmem := t.mem } t.others t.live segs live lay' := by
  cases op with
  | new msz =>
      simp only [kmStep] at hstep
      by_cases hsz : msz < 1 ∨ 2048 < msz
      · have hnone : kmsobNew m.kmem msz = .ok (m.kmem, none) := if_pos hsz
        rw [hnone] at hstep
        cases hstep
        exact ⟨lay, h⟩
      · rcases kmsobNew_spec h.km (show 1 ≤ msz by omega) (show msz ≤ 2048 by omega) with
          hnone | ⟨m', x, lay', hsome, hkm, -⟩
        · rw [hnone] at hstep
          cases hstep
          exact ⟨lay, h⟩
        · rw [hsome] at hstep
          cases hstep
          have hperm : (objsOf live ++ (x, msz) :: objs).Perm
              ((x, msz) :: (objsOf live ++ objs)) := List.perm_middle
          exact ⟨lay', hkm.congr (liveOf_perm hperm) fun o ho => hkm.sizes o (hperm.mem_iff.mp ho),
            h.pool, h.blks, h.apart, h.sizes⟩
  | delete fadrs fsz =>
      obtain ⟨hpos, hlive⟩ := hback fadrs fsz rfl
      have hin : fadrs ∈ liveOf (classOf fsz) (objsOf live ++ objs) := by
        rw [liveOf_append]
        exact List.mem_append_right _ hlive
      have hle := h.km.fsz_le hin
      obtain ⟨m', lay', hrun, hkm, -⟩ := kmsobDelete_live h.km hpos hle hin
      simp only [kmStep] at hstep
      rw [hrun] at hstep
      cases hstep
      refine ⟨lay', hkm.congr (fun i => ?_) fun o ho => ?_, h.pool, h.blks, h.apart, h.sizes⟩
      · rw [liveOf_dropLive, liveOf_append, liveOf_append, liveOf_dropLive]
        split
        · rename_i hi
          have hmem : fadrs ∈ liveOf i objs := hi ▸ hlive
          have hcomm : (liveOf i (objsOf live) ++ liveOf i objs).Perm
              (liveOf i objs ++ liveOf i (objsOf live)) := List.perm_append_comm
          have hswap := hcomm.erase fadrs
          rw [List.erase_append_left _ hmem] at hswap
          exact (hswap.trans List.perm_append_comm).symm
        · exact List.Perm.refl _
      · refine h.km.sizes o ?_
        rcases List.mem_append.mp ho with ho | ho
        · exact List.mem_append_left _ ho
        · exact List.mem_append_right _ (List.mem_of_mem_eraseP ho)
  | pages op =>
      simp only [kmStep] at hstep
      split at hstep
      · cases hstep
      · rename_i s hrun
        cases hstep
        have hall := mmStep_append segs (fun i n he => hown i n (congrArg KmOp.pages he)) hrun
        have hkm := (h.km.permOthers List.perm_append_comm).pages
          (fun i n he => List.mem_append_left _ (hown i n (congrArg KmOp.pages he))) hall
        exact ⟨lay, hkm.permOthers List.perm_append_comm, h.pool, h.blks, h.apart, h.sizes⟩

/-! ## Runs -/

/-- **`krldelete`** of what is in use returns, and says `TRUE` if the size fits. -/
theorem KrlInv.delete (h : KrlInv b m others objs segs live lay) (ho : (p, s) ∈ live) :
    ∃ m' r segs' lay', m.krldelete p s = .ok (m', r) ∧ (r = true ↔ SizeOk s) ∧
      KrlInv b m' others objs segs' (live.erase (p, s)) lay' := by
  by_cases hok : SizeOk s
  · by_cases hle : s ≤ objsorpage
    · obtain ⟨m', lay', hrun, hinv, -⟩ := h.deleteObjs ho hle
      exact ⟨m', true, segs, lay', hrun, iff_of_true rfl hok, hinv⟩
    · obtain ⟨m', i, hrun, -, -, -, -, hinv⟩ := h.deletePages ho (Nat.lt_of_not_le hle) hok
      exact ⟨m', true, _, lay, hrun, iff_of_true rfl hok, hinv⟩
  · obtain ⟨m', hrun, hinv⟩ := h.deleteLeak ho hok
    exact ⟨m', false, segs, lay, hrun, iff_of_false Bool.false_ne_true hok, hinv⟩

/-- **`krlnew`** returns, with new memory or without. -/
theorem KrlInv.new (h : KrlInv b m others objs segs live lay) (s : Nat) :
    m.krlnew s = .ok (m, none) ∨ ∃ m' p segs' lay', m.krlnew s = .ok (m', some p) ∧
      KrlInv b m' others objs segs' ((p, s) :: live) lay' := by
  by_cases hsz : s = 0 ∨ kmempalcszMax < s
  · exact Or.inl (krlnew_none hsz)
  · by_cases hle : s ≤ objsorpage
    · rcases h.newObjs (by omega) hle with hnone | ⟨m', p, lay', hrun, hinv, -⟩
      · exact Or.inl hnone
      · exact Or.inr ⟨m', p, segs, lay', hrun, hinv⟩
    · rcases h.newPages (Nat.lt_of_not_le hle) (by omega) with hnone | ⟨m', i, hrun, hinv, -⟩
      · exact Or.inl hnone
      · exact Or.inr ⟨m', _, _, lay, hrun, hinv⟩

/-- **One request** keeps all in order. -/
theorem krlStep_inv (st : KrlState) (op : KrlOp) (st' : KrlState) (h : st.Inv b)
    (hfair : KrlFair st op) (hstep : krlStep st op = .ok st') : st'.Inv b := by
  obtain ⟨segs, lay, hinv⟩ := h
  cases op with
  | new mmsize =>
      simp only [krlStep] at hstep
      rcases hinv.new mmsize with hnone | ⟨m', p, segs', lay', hrun, hinv'⟩
      · rw [hnone] at hstep
        cases hstep
        exact ⟨segs, lay, hinv⟩
      · rw [hrun] at hstep
        cases hstep
        exact ⟨segs', lay', hinv'⟩
  | delete fradr frsz =>
      simp only [krlStep] at hstep
      obtain ⟨m', r, segs', lay', hrun, -, hinv'⟩ := hinv.delete (hfair.own fradr frsz rfl)
      rw [hrun] at hstep
      cases hstep
      exact ⟨segs', lay', hinv'⟩
  | other op =>
      obtain ⟨hown, hback⟩ := hfair.others op rfl
      simp only [krlStep] at hstep
      split at hstep
      · cases hstep
      · rename_i t hrun
        cases hstep
        obtain ⟨lay', hinv'⟩ := hinv.other hown hback hrun
        exact ⟨segs, lay', hinv'⟩

theorem krlRun_inv {s t : KrlState} {ops : List KrlOp} (hs : s.Start b)
    (hfair : AllSteps krlStep KrlFair ops s) (hrun : run krlStep ops s = .ok t) : t.Inv b :=
  run_inv_of_allSteps (KrlState.Inv b) _ krlStep_inv ops s t hs.inv hfair hrun

end Steps

/-- **Which addresses `krldelete` takes back**, in every state that requests lead to: exactly
those with a size of at most 2048 bytes, or of a power of two many pages. -/
theorem krldelete_iff {b : BootArray} {s t : KrlState} {ops : List KrlOp} (hs : s.Start b)
    (hfair : AllSteps krlStep KrlFair ops s) (hrun : run krlStep ops s = .ok t) :
    ∀ o ∈ t.live, ∃ m' r, t.mem.krldelete o.1 o.2 = .ok (m', r) ∧ (r = true ↔ SizeOk o.2) := by
  obtain ⟨segs, lay, hinv⟩ := krlRun_inv hs hfair hrun
  intro o ho
  obtain ⟨m', r, -, -, hdel, hiff, -⟩ := hinv.delete ho
  exact ⟨m', r, hdel, hiff⟩

/-! ## Memory from boot -/

/-- Memory after boot. -/
def krlBoot (mm : Memgrob) : KrlState where
  mem := ⟨(kmBoot mm).mem, kmempoolInit⟩
  others := []
  objs := []
  live := []

theorem krlBoot_start {b : BootArray} {mm : Memgrob} (h : b.boot = .ok mm) :
    (krlBoot mm).Start b :=
  ⟨⟨mm, [], h, rfl⟩, rfl, rfl, rfl, rfl⟩

/-- Test a run from boot. -/
def krlTest (b : BootArray) (ops : List KrlOp) (p : KrlState → KrlOp → Bool)
    (q : KrlState → Bool) : Bool :=
  okAnd b.boot fun mm => checkSteps krlStep p ops (krlBoot mm) &&
    okAnd (run krlStep ops (krlBoot mm)) q

theorem krlTest_run {P : KrlState → KrlOp → Prop} {p : KrlState → KrlOp → Bool}
    (hp : ∀ st op, p st op = true → P st op) (b : BootArray) (ops : List KrlOp)
    (q : KrlState → Bool) (h : krlTest b ops p q = true) : ∃ s t, s.Start b ∧
      AllSteps krlStep P ops s ∧ run krlStep ops s = .ok t ∧ q t = true := by
  obtain ⟨mm, hboot, hq⟩ := exists_of_okAnd h
  rw [Bool.and_eq_true] at hq
  obtain ⟨t, hrun, hqt⟩ := exists_of_okAnd hq.2
  exact ⟨krlBoot mm, t, krlBoot_start hboot, allSteps_of_check hp ops (krlBoot mm) hq.1, hrun, hqt⟩

/-- The memory is in use. -/
def KrlState.holds (st : KrlState) (p n : Nat) : Bool := st.live.any fun o => o.1 = p ∧ o.2 = n

theorem KrlState.holds_iff {st : KrlState} {p n : Nat} :
    st.holds p n = true ↔ (p, n) ∈ st.live := by
  simp [KrlState.holds]

/-- `KrlFair` of a request that is not one of another user. -/
def krlFits (st : KrlState) : KrlOp → Bool
  | .new _ => true
  | .delete fradr frsz => st.holds fradr frsz
  | .other _ => false

theorem krlFits_fair (st : KrlState) (op : KrlOp) (h : krlFits st op = true) : KrlFair st op := by
  cases op with
  | new mmsize => exact ⟨fun p s he => (by cases he), fun op he => (by cases he)⟩
  | delete fradr frsz =>
      refine ⟨fun p s he => ?_, fun op he => (by cases he)⟩
      cases he
      exact KrlState.holds_iff.mp h
  | other op => cases h

/-- An object and two of the pages of `fourPages`. -/
def objAndPages : List KrlOp := [.new 32, .new 8192]

/-- What they are given. -/
def objAndPagesLive : List (Nat × Nat) := [(0xffff800002002000, 8192), (0xffff800002000fd0, 32)]

theorem krldelete_iff_fourPages : ∃ s t, s.Start fourPages ∧
    run krlStep objAndPages s = .ok t ∧ t.live = objAndPagesLive ∧
    ∀ o ∈ t.live, ∃ m' r, t.mem.krldelete o.1 o.2 = .ok (m', r) ∧ (r = true ↔ SizeOk o.2) := by
  obtain ⟨s, t, hs, hfair, hrun, hq⟩ := krlTest_run krlFits_fair fourPages objAndPages
    (fun t => t.live = objAndPagesLive) (by decide +kernel)
  exact ⟨s, t, hs, hrun, of_decide_eq_true hq, krldelete_iff hs hfair hrun⟩

/-! ## What is in use does not overlap -/

/-- The bytes of the two do not overlap. -/
def Disj (o o' : Nat × Nat) : Prop := o.1 + o.2 ≤ o'.1 ∨ o'.1 + o'.2 ≤ o.1

/-- **What is in use**, with the objects of other users: apart from each other, in the window of
the kernel, and apart from the pages of others. -/
structure MemApart (b : BootArray) (st : KrlState) : Prop where
  apart : (st.live ++ st.objs).Pairwise Disj
  window : ∀ o ∈ st.live ++ st.objs, krnlMapVirtaddressStart ≤ o.1 ∧
    o.1 + o.2 ≤ krnlMapVirtaddressStart + krnlMapPhyaddressEnd
  others : ∀ o ∈ st.live ++ st.objs, ∀ g ∈ st.others, ∀ i, g.Has i → Disj o (b.vaddr i, pagesize)

/-- The bytes lie in the block. -/
structure Home (b : BootArray) (g : Seg) (o : Nat × Nat) : Prop where
  blk : KrnlBlk b g.start g.len
  start : b.vaddr g.start ≤ o.1
  stop : o.1 + o.2 ≤ b.vaddr g.start + g.len * pagesize

section Apart

variable {b : BootArray} {m : KrlMem} {others segs : List Seg} {objs live : List (Nat × Nat)}
  {lay : Nat → Option Lay} {g g' : Seg} {o o' : Nat × Nat}

theorem Disj.symm (h : Disj o o') : Disj o' o := Or.symm h

/-- Different blocks. -/
theorem Home.disj (h : Home b g o) (h' : Home b g' o') (hap : ∀ i, g.Has i → ¬ g'.Has i) :
    Disj o o' := by
  have hpos := h.blk.pos
  have hpos' := h'.blk.pos
  have hbytes := h.blk.apart h'.blk hap 0 0 (max (b.vaddr g.start) (b.vaddr g'.start))
  unfold Chunk.Has blkChunk at hbytes
  obtain ⟨-, hstart, hstop⟩ := h
  obtain ⟨-, hstart', hstop'⟩ := h'
  simp only [pagesize] at hbytes hstop hstop'
  unfold Disj
  omega

/-- A page outside of the block. -/
theorem Home.disj_page (h : Home b g o) {i : Nat} (hi : i < b.msanr) (hno : ¬ g.Has i) :
    Disj o (b.vaddr i, pagesize) := by
  obtain ⟨hblk, hstart, hstop⟩ := h
  unfold Disj
  by_contra hover
  unfold BootArray.vaddr at hstart hstop hover
  simp only [pagesize] at hstart hstop hover
  -- the page would be one of the block
  obtain ⟨j, hj⟩ : ∃ j, b.padrs i = b.padrs g.start + j := Nat.exists_eq_add_of_le (by omega)
  have hlt : j < g.len := by omega
  have hle := hblk.le
  have heq := b.padrs_inj (g.start + j) (by omega) i hi ((hblk.run j hlt).trans hj.symm)
  exact hno ⟨by omega, by omega⟩

/-- An object lies in a block of a pool. -/
theorem KrlInv.home_objs (h : KrlInv b m others objs segs live lay)
    (ho : o ∈ objsOf live ++ objs) : ∃ g ∈ poolBlocks lay, Home b g (o.1, m.kmem.slotSz o) := by
  obtain ⟨y, hy, -, d, hd, hstart, hstop⟩ := h.km.slot ho
  have hc := classOf_lt (h.km.sizes o ho).2
  obtain ⟨s, hs, hdr, -, rfl⟩ := Lay.mem_chunks hd
  have hblk := (h.km.pooled hc hy).krnl s hs
  refine ⟨⟨s, classPages (classOf o.2)⟩, ?_, hblk, ?_, ?_⟩
  · refine List.mem_flatMap.mpr ⟨classOf o.2, List.mem_range.mpr hc, ?_⟩
    rw [hy]
    exact List.mem_map_of_mem (f := fun s => (⟨s, classPages (classOf o.2)⟩ : Seg)) hs
  · exact Nat.le_trans (Nat.le_add_right _ _) hstart
  · exact Nat.le_trans hstop (Nat.sub_le _ _)

theorem le_relPnr {s : Nat} (hbig : objsorpage < s) (hle : s ≤ kmempalcszMax) :
    s ≤ relPnr s * pagesize := by
  have hfit := le_two_pow_retnDivoder (pagesOf_pos hbig hle)
  have hword : wordMod = 2 ^ 64 := rfl
  simp only [kmempalcszMax] at hle
  have hsum : add64 s 0xfff = s + 0xfff := add64_eq (by omega)
  have hpages : s ≤ pagesOf s * 4096 := by
    unfold pagesOf pageAlign
    rw [hsum, Nat.shiftRight_eq_div_pow]
    simp only [pageSzrbit]
    omega
  exact Nat.le_trans hpages (Nat.mul_le_mul_right _ hfit)

/-- Pages in use are a block. -/
theorem KrlInv.home_blks (h : KrlInv b m others objs segs live lay) (ho : o ∈ blksOf live) :
    ∃ g ∈ segs, o.1 = b.vaddr g.start ∧ Home b g o := by
  obtain ⟨i, hi, hseg, -⟩ := h.blks o ho
  obtain ⟨hmem, hbig⟩ := mem_blksOf.mp ho
  refine ⟨_, hseg, hi, h.pool.krnl _ hseg, Nat.le_of_eq hi.symm, ?_⟩
  rw [hi]
  exact Nat.add_le_add_left (le_relPnr hbig (h.sizes o hmem).2) _

/-- A list in two parts. -/
theorem pairwise_of_parts {α : Type} {R : α → α → Prop} {q : α → Bool} {l : List α}
    (hpos : (l.filter q).Pairwise R) (hneg : (l.filter fun x => !q x).Pairwise R)
    (hcross : ∀ x ∈ l, ∀ y ∈ l, q x = true → q y = false → R x y ∧ R y x) : l.Pairwise R := by
  induction l with
  | nil => exact List.Pairwise.nil
  | cons x l ih =>
      have hrest : ∀ y ∈ l, ∀ z ∈ l, q y = true → q z = false → R y z ∧ R z y := fun y hy z hz =>
        hcross y (List.mem_cons_of_mem x hy) z (List.mem_cons_of_mem x hz)
      cases hx : q x with
      | true =>
          rw [List.filter_cons_of_pos hx, List.pairwise_cons] at hpos
          rw [List.filter_cons_of_neg (by simp [hx])] at hneg
          refine List.Pairwise.cons (fun y hy => ?_) (ih hpos.2 hneg hrest)
          cases hy' : q y with
          | true => exact hpos.1 y (List.mem_filter.mpr ⟨hy, hy'⟩)
          | false =>
              exact (hcross x List.mem_cons_self y (List.mem_cons_of_mem x hy) hx hy').1
      | false =>
          rw [List.filter_cons_of_neg (by simp [hx])] at hpos
          rw [List.filter_cons_of_pos (by simp [hx]), List.pairwise_cons] at hneg
          refine List.Pairwise.cons (fun y hy => ?_) (ih hpos hneg.2 hrest)
          cases hy' : q y with
          | true =>
              exact (hcross y (List.mem_cons_of_mem x hy) x List.mem_cons_self hy' hx).2
          | false => exact hneg.1 y (List.mem_filter.mpr ⟨hy, by simp [hy']⟩)

/-- Objects of other users are small. -/
theorem KrlInv.objs_le (h : KrlInv b m others objs segs live lay) (ho : o ∈ objs) :
    o.2 ≤ objsorpage :=
  (h.km.sizes o (List.mem_append_right _ ho)).2

/-- The objects in use are apart. -/
theorem KrlInv.objs_apart (h : KrlInv b m others objs segs live lay) :
    ((live ++ objs).filter fun o => o.2 ≤ objsorpage).Pairwise Disj := by
  have hok : ObjsOk ⟨m.kmem, segs ++ others, objsOf live ++ objs⟩ := h.km.objsOk
  have hobjs : objs.filter (fun o => o.2 ≤ objsorpage) = objs :=
    List.filter_eq_self.mpr fun o ho => decide_eq_true (h.objs_le ho)
  have hround : ∀ o ∈ live.filter (fun o => o.2 ≤ objsorpage), o.2 ≤ m.kmem.slotSz
      (o.1, objsAlign o.2) := by
    intro o ho
    obtain ⟨hmem, hle⟩ := List.mem_filter.mp ho
    have hle := of_decide_eq_true hle
    have hsize := hok.size (o.1, objsAlign o.2) (List.mem_append_left _
      (List.mem_map_of_mem (f := fun o : Nat × Nat => (o.1, objsAlign o.2)) ho))
    exact Nat.le_trans (le_objsAlign hle) hsize
  have hown : ∀ o ∈ objs, o.2 ≤ m.kmem.slotSz o := fun o ho =>
    hok.size o (List.mem_append_right _ ho)
  obtain ⟨hlive, hothers, hcross⟩ := List.pairwise_append.mp hok.apart
  rw [List.filter_append, hobjs]
  refine List.pairwise_append.mpr ⟨?_, ?_, fun o ho o' ho' => ?_⟩
  · refine (List.pairwise_map.mp hlive).imp_of_mem fun {o o'} ho ho' hap => ?_
    have h1 := hround o ho
    have h2 := hround o' ho'
    unfold Disj
    simp only at hap
    omega
  · refine hothers.imp_of_mem fun {o o'} ho ho' hap => ?_
    have h1 := hown o ho
    have h2 := hown o' ho'
    unfold Disj
    simp only at hap
    omega
  · have hap := hcross (o.1, objsAlign o.2)
      (List.mem_map_of_mem (f := fun o : Nat × Nat => (o.1, objsAlign o.2)) ho) o' ho'
    have h1 := hround o ho
    have h2 := hown o' ho'
    unfold Disj
    simp only at hap
    omega

/-- The blocks of pages in use are apart. -/
theorem KrlInv.blks_apart (h : KrlInv b m others objs segs live lay) :
    (blksOf live).Pairwise Disj := by
  refine (List.pairwise_map.mp h.apart).imp_of_mem fun {o o'} ho ho' hne => ?_
  obtain ⟨g, hg, hstart, hhome⟩ := h.home_blks ho
  obtain ⟨g', hg', hstart', hhome'⟩ := h.home_blks ho'
  refine hhome.disj hhome' fun i hi hi' => ?_
  refine disjoint_of_cover_le (fun i => Nat.le_trans (Nat.le_add_left _ _)
    (h.km.mm.mem.tiles.le_one i)) (KrlInv.mem_out hg) (KrlInv.mem_out hg') ?_ i ⟨hi, hi'⟩
  rintro rfl
  exact hne (hstart.trans hstart'.symm)

/-- A small one lies in a block of a pool. -/
theorem KrlInv.home_small (h : KrlInv b m others objs segs live lay) (ho : o ∈ live ++ objs)
    (hle : o.2 ≤ objsorpage) : ∃ g ∈ poolBlocks lay, Home b g o := by
  have hobj : ∃ x ∈ objsOf live ++ objs, x.1 = o.1 ∧ o.2 ≤ x.2 := by
    rcases List.mem_append.mp ho with ho | ho
    · refine ⟨_, List.mem_append_left _ (List.mem_map_of_mem
        (f := fun o : Nat × Nat => (o.1, objsAlign o.2))
        (List.mem_filter.mpr ⟨ho, decide_eq_true hle⟩)), rfl, le_objsAlign hle⟩
    · exact ⟨o, List.mem_append_right _ ho, rfl, Nat.le_refl _⟩
  obtain ⟨x, hx, hadr, hfit⟩ := hobj
  obtain ⟨g, hg, hblk, hstart, hstop⟩ := h.home_objs hx
  have hok : ObjsOk ⟨m.kmem, segs ++ others, objsOf live ++ objs⟩ := h.km.objsOk
  have hsize := hok.size x hx
  simp only at hstart hstop hsize
  exact ⟨g, hg, hblk, by omega, by omega⟩

/-- A large one is a block of pages. -/
theorem KrlInv.mem_blks (h : KrlInv b m others objs segs live lay) (ho : o ∈ live ++ objs)
    (hbig : objsorpage < o.2) : o ∈ blksOf live := by
  refine mem_blksOf.mpr ⟨(List.mem_append.mp ho).resolve_right fun ho => ?_, hbig⟩
  exact Nat.not_le.mpr hbig (h.objs_le ho)

/-- What is in use lies in a block that `krlnew` or a pool has. -/
theorem KrlInv.home (h : KrlInv b m others objs segs live lay) (ho : o ∈ live ++ objs) :
    ∃ g ∈ poolBlocks lay ++ segs, Home b g o := by
  by_cases hle : o.2 ≤ objsorpage
  · obtain ⟨g, hg, hhome⟩ := h.home_small ho hle
    exact ⟨g, List.mem_append_left _ hg, hhome⟩
  · obtain ⟨g, hg, -, hhome⟩ := h.home_blks (h.mem_blks ho (Nat.lt_of_not_le hle))
    exact ⟨g, List.mem_append_right _ hg, hhome⟩

/-- Objects and pages in use are apart. -/
theorem KrlInv.cross_apart (h : KrlInv b m others objs segs live lay) (ho : o ∈ live ++ objs)
    (hle : o.2 ≤ objsorpage) (ho' : o' ∈ blksOf live) : Disj o o' := by
  obtain ⟨g, hg, hhome⟩ := h.home_small ho hle
  obtain ⟨g', hg', -, hhome'⟩ := h.home_blks ho'
  exact hhome.disj hhome'
    ((List.pairwise_append.mp h.km.mm.apart).2.2 g hg g' (List.mem_append_left _ hg'))

theorem KrlState.Inv.memApart {st : KrlState} (h : st.Inv b) : MemApart b st := by
  obtain ⟨segs, lay, hinv⟩ := h
  refine ⟨?_, fun o ho => ?_, fun o ho g' hg' i hi => ?_⟩
  · have hblks : (st.live ++ st.objs).filter (fun o => !decide (o.2 ≤ objsorpage)) =
        blksOf st.live := by
      have hobjs : st.objs.filter (fun o => !decide (o.2 ≤ objsorpage)) = [] :=
        List.filter_eq_nil_iff.mpr fun o ho => by
          have hle := hinv.objs_le ho
          simp [hle]
      rw [List.filter_append, hobjs, List.append_nil]
      refine List.filter_congr fun o _ => ?_
      rw [← decide_not]
      exact decide_eq_decide.mpr Nat.not_le
    refine pairwise_of_parts hinv.objs_apart (hblks ▸ hinv.blks_apart)
      fun o ho o' ho' hq hq' => ?_
    have hle := of_decide_eq_true hq
    have hbig := Nat.lt_of_not_le (of_decide_eq_false hq')
    have hdisj := hinv.cross_apart ho hle (hinv.mem_blks ho' hbig)
    exact ⟨hdisj, hdisj.symm⟩
  · obtain ⟨g, -, hhome⟩ := hinv.home ho
    have hwin := hhome.blk.vaddr_lt
    have hstart := hhome.start
    have hstop := hhome.stop
    omega
  · obtain ⟨g, hg, hhome⟩ := hinv.home ho
    have hmm := hinv.km.mm
    have hin : g' ∈ poolBlocks lay ++ (segs ++ st.others) :=
      List.mem_append_right _ (List.mem_append_right _ hg')
    have hend := hmm.mem.held_end_le hin (hmm.lens g' hin)
    rw [hinv.km.same.msanr] at hend
    refine hhome.disj_page (Nat.lt_of_lt_of_le hi.2 hend) fun hi' => ?_
    have hap := hmm.apart
    rw [← List.append_assoc] at hap
    exact (List.pairwise_append.mp hap).2.2 g hg g' hg' i hi' hi

end Apart

/-- **Memory is handed out once**, in every state that requests lead to: what is in use is apart
from each other, from the objects and the pages of other users, and lies in the window of the
kernel. -/
theorem krlMem_apart {b : BootArray} {s t : KrlState} {ops : List KrlOp} (hs : s.Start b)
    (hfair : AllSteps krlStep KrlFair ops s) (hrun : run krlStep ops s = .ok t) : MemApart b t :=
  (krlRun_inv hs hfair hrun).memApart

theorem krlMem_apart_fourPages : ∃ s t, s.Start fourPages ∧ run krlStep objAndPages s = .ok t ∧
    t.live = objAndPagesLive ∧ MemApart fourPages t := by
  obtain ⟨s, t, hs, hfair, hrun, hq⟩ := krlTest_run krlFits_fair fourPages objAndPages
    (fun t => t.live = objAndPagesLive) (by decide +kernel)
  exact ⟨s, t, hs, hrun, of_decide_eq_true hq, krlMem_apart hs hfair hrun⟩

end Cosmos.Kernel
