import Cosmos.Hal.KmsobRun

/-!
# Objects in use

What callers of the object allocator rely on, read off its own records: where the headers say
that the blocks of a pool are, which page blocks `so_mc` lists, and the counters.  As long as
callers give back only objects in use, with a size of their class, every run keeps the objects
apart from each other and from the headers.

## Main results

* `objs_ok` : the objects, the counters and the caches after any such run.
-/

namespace Cosmos.Hal

open Cosmos.Lib.Word64 Cosmos.Lib.Cover Cosmos.Lib.Slab Cosmos.Lib.Run

/-! ## What the records say -/

/-- The blocks of a pool with their headers, as `kmsob_t` and `kmbext_t` describe them. -/
def Kmsob.chunks (k : Kmsob) : List Chunk :=
  ⟨k.soVstat, k.soVend, sizeofKmsob⟩ ::
    k.soMextlst.map fun bexp => ⟨bexp.mtVstat, bexp.mtVend, sizeofKmbext⟩

/-- The page blocks of a pool, as `so_mc` lists them. -/
def Msomdc.blocks (mc : Msomdc) : List Seg :=
  mc.mcKmobinlst.map (fun msa => ⟨msa, mc.mcKmobinpnr⟩) ++ bucketBlocks mc.mcLst msclstMax 0

/-- The page blocks of all pools. -/
def Kmem.blocks (m : Kmem) : List Seg :=
  (List.range koblstMax).flatMap fun c =>
    (m.mgr.ksMsoblst c).olEmplst.flatMap fun kmsp => (m.kmsob kmsp).soMc.blocks

/-- The size of the slot an object was taken from. -/
def Kmem.slotSz (m : Kmem) (o : Nat × Nat) : Nat := (m.mgr.ksMsoblst (classOf o.2)).olSz

/-- The chunk is the memory of the page block. -/
def PageMem (mm : Memgrob) (g : Seg) (d : Chunk) : Prop :=
  phyadrToViradr (msadscRetAddr (mm.mem.msadscstat g.start)) = .ok d.start ∧
    d.vend + 1 = d.start + g.len * pagesize

/-- The counters of a pool, with `used` objects in use. -/
structure KmsobCounts (k : Kmsob) (used : Nat) : Prop where
  fobjnr : k.soFobjnr = k.soFrelst.length
  mobjnr : k.soMobjnr = (allSlots k.soObjsz k.chunks).length
  used : k.soMobjnr = k.soFobjnr + used

/-- The list of a class, with its cached pool. -/
structure KoblstOk (l : Koblst) : Prop where
  emnr : l.olEmnr = l.olEmplst.length
  one : l.olEmnr ≤ 1
  cahe : ∀ kmsp ∈ l.olCahe, kmsp ∈ l.olEmplst

/-- **The objects in use**: apart from each other, each in a block of its pool, and no header
in any of them. -/
structure ObjsOk (st : KmState) : Prop where
  apart : st.live.Pairwise fun o o' =>
    o.1 + st.mem.slotSz o ≤ o'.1 ∨ o'.1 + st.mem.slotSz o' ≤ o.1
  size : ∀ o ∈ st.live, o.2 ≤ st.mem.slotSz o
  inside : ∀ o ∈ st.live, ∃ kmsp ∈ (st.mem.mgr.ksMsoblst (classOf o.2)).olEmplst,
    ∃ d ∈ (st.mem.kmsob kmsp).chunks, Chunk.Data d o.1 (st.mem.slotSz o)
  headers : ∀ c < koblstMax, ∀ kmsp ∈ (st.mem.mgr.ksMsoblst c).olEmplst,
    ∀ d ∈ (st.mem.kmsob kmsp).chunks, ∀ o ∈ st.live,
      o.1 + st.mem.slotSz o ≤ d.start ∨ d.start + d.hdr ≤ o.1

/-- **The pools**: every block is a page block of its own, and the counters and caches agree
with the lists. -/
structure PoolsOk (st : KmState) : Prop where
  owned : ∀ c < koblstMax, ∀ kmsp ∈ (st.mem.mgr.ksMsoblst c).olEmplst,
    List.Forall₂ (PageMem st.mem.mm) (st.mem.kmsob kmsp).soMc.blocks (st.mem.kmsob kmsp).chunks
  apart : (st.mem.blocks ++ st.others).Pairwise fun x x' => ∀ i, x.Has i → ¬ x'.Has i
  counts : ∀ c < koblstMax, ∀ kmsp ∈ (st.mem.mgr.ksMsoblst c).olEmplst,
    KmsobCounts (st.mem.kmsob kmsp) (liveOf c st.live).length
  koblst : ∀ c < koblstMax, KoblstOk (st.mem.mgr.ksMsoblst c)
  msobnr : st.mem.mgr.ksMsobnr =
    ((List.range koblstMax).map fun c => (st.mem.mgr.ksMsoblst c).olEmplst.length).sum
  msobche : ∀ kmsp ∈ st.mem.mgr.ksMsobche,
    ∃ c < koblstMax, kmsp ∈ (st.mem.mgr.ksMsoblst c).olEmplst

/-- What is given back is an object in use, with a size of its class. -/
def BackLive (st : KmState) (op : KmOp) : Prop :=
  ∀ fadrs fsz, op = .delete fadrs fsz → 1 ≤ fsz ∧ fadrs ∈ liveOf (classOf fsz) st.live

/-- A request for an object, or one that gives back an object in use. -/
def ObjCall (st : KmState) (op : KmOp) : Prop :=
  (∀ op', op ≠ .pages op') ∧ BackLive st op

theorem ObjCall.ownPages {st : KmState} {op : KmOp} (h : ObjCall st op) : OwnPages st op :=
  fun s n hop => absurd hop (h.1 (.mergePages s n))

section Objs

variable {b : BootArray} {m : Kmem} {others : List Seg} {live used : List (Nat × Nat)}
  {lay : Nat → Option Lay} {c : Nat} {y : Lay} {k : Kmsob}

/-! ## One pool -/

theorem PoolOk.chunks_eq {used : List Nat} (h : PoolOk b c y k used) :
    k.chunks = y.chunks b c := by
  unfold Kmsob.chunks Lay.chunks
  rw [h.vstat, h.vend, h.mextlst, List.map_map]
  rfl

theorem PoolOk.blocks_eq {kmsp : Nat} {used : List Nat} (h : PoolOk b c y (m.kmsob kmsp) used) :
    (m.kmsob kmsp).soMc.blocks = y.blocks c := by
  unfold Msomdc.blocks Lay.blocks
  rw [h.bucketBlocks_eq, h.kmobinlst, h.kmobinpnr]
  rfl

/-- Each block of a layout is the memory of its pages. -/
theorem Lay.Krnl.pageMem {mm : Memgrob} (hy : y.Krnl b c) (hs : SameArray b mm) :
    List.Forall₂ (PageMem mm) (y.blocks c) (y.chunks b c) := by
  have hone : ∀ s ∈ y.first :: y.exts, ∀ hdr,
      PageMem mm ⟨s, classPages c⟩ (blkChunk b hdr (classPages c) s) := by
    intro s hmem hdr
    have hpos : 0 < classPages c * pagesize := Nat.mul_pos (hy s hmem).pos (by decide)
    refine ⟨((hy s hmem).viradr hs).1, ?_⟩
    show b.vaddr s + classPages c * pagesize - 1 + 1 = b.vaddr s + classPages c * pagesize
    omega
  unfold Lay.blocks Lay.chunks
  rw [List.map_cons]
  refine List.Forall₂.cons (hone _ List.mem_cons_self _) ?_
  rw [List.forall₂_map_left_iff, List.forall₂_map_right_iff, List.forall₂_same]
  exact fun s hmem => hone s (List.mem_cons_of_mem _ hmem) _

theorem PoolOk.counts {used : List Nat} (h : PoolOk b c y k used) :
    KmsobCounts k used.length where
  fobjnr := h.fobjnr
  mobjnr := by rw [h.mobjnr, h.objsz, h.chunks_eq]
  used := h.mobjnr_eq

/-! ## All pools -/

/-- Every class has one pool in its list, or none. -/
theorem KmOk.mem_emplst (h : KmOk b m others live lay) (hc : c < koblstMax) {kmsp : Nat} :
    kmsp ∈ (m.mgr.ksMsoblst c).olEmplst ↔ ∃ y, lay c = some y ∧ kmsp = b.vaddr y.first := by
  cases hy : lay c with
  | none =>
      rw [(h.empty hc hy).1]
      simp [koblstInit]
  | some y =>
      rw [(h.pooled hc hy).emplst]
      simp

/-- The page blocks in the records are those of the layouts. -/
theorem KmOk.blocks_eq (h : KmOk b m others live lay) : m.blocks = poolBlocks lay := by
  refine List.flatMap_congr fun c hc => ?_
  have hc := List.mem_range.mp hc
  cases hy : lay c with
  | none =>
      rw [(h.empty hc hy).1]
      rfl
  | some y =>
      rw [(h.pooled hc hy).emplst, List.flatMap_cons, List.flatMap_nil, List.append_nil]
      exact (h.pooled hc hy).pool.blocks_eq

/-- Blocks of two classes share no byte. -/
theorem KmOk.chunks_apart (h : KmOk b m others live lay) (hc : c < koblstMax)
    (hy : lay c = some y) {i : Nat} (hi : i < koblstMax) (hne : i ≠ c) {z : Lay}
    (hz : lay i = some z) {d e : Chunk} (hd : d ∈ y.chunks b c) (he : e ∈ z.chunks b i) :
    d.Apart e := by
  obtain ⟨s, hs, hdr, -, rfl⟩ := Lay.mem_chunks hd
  obtain ⟨t, ht, hdr', -, rfl⟩ := Lay.mem_chunks he
  have hmm := h.cut hc
  rw [hy] at hmm
  have hpair := pairwise_of_cover_le (l := y.blocks c ++ (blocksBut lay c ++ others))
    fun j => by
      have := hmm.mem.tiles.le_one j
      exact Nat.le_trans (Nat.le_add_left _ _) this
  have hyin : (⟨s, classPages c⟩ : Seg) ∈ y.blocks c :=
    List.mem_map_of_mem (f := fun s => (⟨s, classPages c⟩ : Seg)) hs
  have hzin : (⟨t, classPages i⟩ : Seg) ∈ blocksBut lay c ++ others :=
    List.mem_append_left _ (mem_blocksBut hi hne hz
      (List.mem_map_of_mem (f := fun s => (⟨s, classPages i⟩ : Seg)) ht))
  exact ((h.pooled hc hy).krnl s hs).apart ((h.pooled hi hz).krnl t ht)
    ((List.pairwise_append.mp hpair).2.2 _ hyin _ hzin) hdr hdr'

/-- An object in use has a slot in a pool of its class. -/
theorem KmOk.slot (h : KmOk b m others live lay) {o : Nat × Nat} (ho : o ∈ live) :
    ∃ y, lay (classOf o.2) = some y ∧ m.slotSz o = classSz (classOf o.2) ∧
      ∃ d ∈ y.chunks b (classOf o.2), Chunk.Data d o.1 (m.slotSz o) := by
  have hc := classOf_lt (h.sizes o ho).2
  have hlive : o.1 ∈ liveOf (classOf o.2) live := mem_liveOf.mpr ⟨o, ho, rfl, rfl⟩
  have hsz : m.slotSz o = classSz (classOf o.2) := h.olSz hc
  cases hy : lay (classOf o.2) with
  | none =>
      rw [(h.empty hc hy).2] at hlive
      cases hlive
  | some y =>
      refine ⟨y, rfl, hsz, ?_⟩
      rw [hsz]
      exact slot_data (Nat.le_refl _)
        ((h.pooled hc hy).pool.mem_allSlots_iff.mpr (Or.inr hlive))

/-! ## Objects and headers -/

/-- Objects in different blocks do not overlap. -/
theorem Chunk.Data.apart {d e : Chunk} {x n x' n' : Nat} (h : Chunk.Data d x n)
    (h' : Chunk.Data e x' n') (hap : d.Apart e) : x + n ≤ x' ∨ x' + n' ≤ x := by
  obtain ⟨h1, h2⟩ := h
  obtain ⟨h1', h2'⟩ := h'
  by_contra hover
  rw [not_or, Nat.not_le, Nat.not_le] at hover
  refine hap (max x x') ⟨?_, ?_⟩ ⟨?_, ?_⟩ <;> omega

/-- An object does not overlap with the header of its block, or of another one. -/
theorem Chunk.Data.header {d e : Chunk} {x n : Nat} (h : Chunk.Data d x n)
    (he : e.start + e.hdr ≤ e.vend) (hde : d = e ∨ d.Apart e) :
    x + n ≤ e.start ∨ e.start + e.hdr ≤ x := by
  obtain ⟨h1, h2⟩ := h
  rcases hde with rfl | hap
  · exact Or.inr h1
  · by_contra hover
    rw [not_or, Nat.not_le, Nat.not_le] at hover
    refine hap (max x e.start) ⟨?_, ?_⟩ ⟨?_, ?_⟩ <;> omega

theorem Lay.header_le (hc : c < koblstMax) {d : Chunk} (hd : d ∈ y.chunks b c) :
    d.start + d.hdr ≤ d.vend := by
  obtain ⟨s, -, hdr, hhdr, rfl⟩ := Lay.mem_chunks hd
  have hroom := class_room hc hhdr
  simp only [blkChunk]
  omega

/-- Two blocks of pools are the same, or share no byte. -/
theorem KmOk.eq_or_apart (h : KmOk b m others live lay) (hc : c < koblstMax)
    (hy : lay c = some y) {i : Nat} (hi : i < koblstMax) {z : Lay} (hz : lay i = some z)
    {d e : Chunk} (hd : d ∈ y.chunks b c) (he : e ∈ z.chunks b i) : d = e ∨ d.Apart e := by
  by_cases hic : i = c
  · subst hic
    cases hy.symm.trans hz
    by_cases hde : d = e
    · exact Or.inl hde
    · exact Or.inr ((h.pooled hi hy).pool.slab.apart.forall hd he hde)
  · exact Or.inr (h.chunks_apart hc hy hi hic hz hd he)

/-- Objects of one class have different addresses. -/
theorem pairwise_of_liveOf {live : List (Nat × Nat)}
    (h : ∀ o ∈ live, (liveOf (classOf o.2) live).Nodup) :
    live.Pairwise fun o o' => classOf o.2 = classOf o'.2 → o.1 ≠ o'.1 := by
  induction live with
  | nil => exact List.Pairwise.nil
  | cons o live ih =>
      refine List.Pairwise.cons (fun o' ho' hcls hadr => ?_) (ih fun o' ho' => ?_)
      · have hnodup := h o List.mem_cons_self
        rw [liveOf_cons, if_pos rfl, List.nodup_cons] at hnodup
        exact hnodup.1 (mem_liveOf.mpr ⟨o', ho', hcls.symm, hadr.symm⟩)
      · have hnodup := h o' (List.mem_cons_of_mem o ho')
        rw [liveOf_cons] at hnodup
        split at hnodup
        · exact (List.nodup_cons.mp hnodup).2
        · exact hnodup

/-- Counting is summing. -/
theorem countP_eq_sum {p : Nat → Bool} {f : Nat → Nat} {l : List Nat}
    (h : ∀ c ∈ l, f c = (p c).toNat) : l.countP p = (l.map f).sum := by
  induction l with
  | nil => rfl
  | cons c l ih =>
      rw [List.map_cons, List.sum_cons, h c List.mem_cons_self, List.countP_cons,
        ih fun i hi => h i (List.mem_cons_of_mem c hi), Nat.add_comm]
      cases p c <;> rfl

theorem KmOk.objsOk {st : KmState} (h : KmOk b st.mem st.others st.live lay) : ObjsOk st where
  apart := by
    have hdiff : st.live.Pairwise fun o o' => classOf o.2 = classOf o'.2 → o.1 ≠ o'.1 :=
      pairwise_of_liveOf fun o ho => by
        obtain ⟨y, hy, -⟩ := h.slot ho
        exact (h.pooled (classOf_lt (h.sizes o ho).2) hy).pool.slab.live_nodup
    refine hdiff.imp_of_mem fun {o o'} ho ho' hne => ?_
    obtain ⟨y, hy, hsz, d, hd, hin⟩ := h.slot ho
    obtain ⟨z, hz, hsz', e, he, hin'⟩ := h.slot ho'
    have hc := classOf_lt (h.sizes o ho).2
    by_cases hcls : classOf o.2 = classOf o'.2
    · rw [hsz', ← hcls, hsz]
      exact (h.pooled hc hy).pool.slab.live_apart (mem_liveOf.mpr ⟨o, ho, rfl, rfl⟩)
        (mem_liveOf.mpr ⟨o', ho', hcls.symm, rfl⟩) (hne hcls)
    · exact hin.apart hin' (h.chunks_apart hc hy (classOf_lt (h.sizes o' ho').2)
        (fun he => hcls he.symm) hz hd he)
  size o ho := by
    obtain ⟨y, hy, hsz, -⟩ := h.slot ho
    rw [hsz]
    exact le_classSz o.2
  inside o ho := by
    obtain ⟨y, hy, -, d, hd, hin⟩ := h.slot ho
    have hc := classOf_lt (h.sizes o ho).2
    refine ⟨_, (h.mem_emplst hc).mpr ⟨y, hy, rfl⟩, d, ?_, hin⟩
    rw [(h.pooled hc hy).pool.chunks_eq]
    exact hd
  headers c hc kmsp hk e he o ho := by
    obtain ⟨z, hz, rfl⟩ := (h.mem_emplst hc).mp hk
    rw [(h.pooled hc hz).pool.chunks_eq] at he
    obtain ⟨y, hy, -, d, hd, hin⟩ := h.slot ho
    exact hin.header (Lay.header_le hc he)
      (h.eq_or_apart (classOf_lt (h.sizes o ho).2) hy hc hz hd he)

theorem KmOk.poolsOk {st : KmState} (h : KmOk b st.mem st.others st.live lay) :
    PoolsOk st where
  owned c hc kmsp hk := by
    obtain ⟨y, hy, rfl⟩ := (h.mem_emplst hc).mp hk
    have hp := h.pooled hc hy
    rw [hp.pool.blocks_eq, hp.pool.chunks_eq]
    exact hp.krnl.pageMem h.same
  apart := by
    rw [h.blocks_eq]
    exact pairwise_of_cover_le fun j =>
      Nat.le_trans (Nat.le_add_left _ _) (h.mm.mem.tiles.le_one j)
  counts c hc kmsp hk := by
    obtain ⟨y, hy, rfl⟩ := (h.mem_emplst hc).mp hk
    exact (h.pooled hc hy).pool.counts
  koblst c hc := by
    cases hy : lay c with
    | none =>
        rw [(h.empty hc hy).1]
        exact ⟨rfl, Nat.zero_le 1, fun kmsp hk => by cases hk⟩
    | some y =>
        have hp := h.pooled hc hy
        refine ⟨?_, Nat.le_of_eq hp.emnr, fun kmsp hk => ?_⟩
        · rw [hp.emnr, hp.emplst]
          rfl
        · rw [hp.emplst, hp.cahe kmsp hk]
          exact List.mem_singleton_self _
  msobnr := by
    rw [h.msobnr, poolCount]
    refine countP_eq_sum fun c hc => ?_
    have hc := List.mem_range.mp hc
    cases hy : lay c with
    | none =>
        rw [(h.empty hc hy).1]
        rfl
    | some y =>
        rw [(h.pooled hc hy).emplst]
        rfl
  msobche kmsp hk := by
    obtain ⟨c, hc, y, hy, rfl⟩ := h.msobche kmsp hk
    exact ⟨c, hc, (h.mem_emplst hc).mpr ⟨y, hy, rfl⟩⟩

/-! ## Runs -/

/-- A size of the class of an object in use. -/
theorem KmOk.fsz_le (h : KmOk b m others live lay) {fadrs fsz : Nat}
    (hlive : fadrs ∈ liveOf (classOf fsz) live) : fsz ≤ 2048 := by
  obtain ⟨o, ho, hcls, -⟩ := mem_liveOf.mp hlive
  have hle := (h.sizes o ho).2
  unfold classOf at hcls
  omega

/-- An object in use is not free, and its bytes do not wrap. -/
theorem KmState.Inv.backOk {st : KmState} {op : KmOp} (h : st.Inv b) (hback : BackLive st op) :
    BackOk st op := by
  rintro fadrs fsz rfl
  obtain ⟨hpos, hlive⟩ := hback fadrs fsz rfl
  obtain ⟨lay, hinv⟩ := h
  have hc := classOf_lt (hinv.fsz_le hlive)
  cases hy : lay (classOf fsz) with
  | none =>
      rw [(hinv.empty hc hy).2] at hlive
      cases hlive
  | some y =>
      have hp := hinv.pooled hc hy
      have hslot := hp.pool.mem_allSlots_iff.mpr (Or.inr hlive)
      have hlt := hp.slot_lt (le_classSz fsz) hslot
      refine ⟨by omega, fun hfree => ?_, fun hwrap => ?_⟩
      · exact hp.pool.not_both ((freeSlot_iff hinv.toKmOk hc hy).mp hfree) hlive
      · have := hwrap.1
        omega

/-- **One request** that gives back an object in use keeps all pools in order. -/
theorem kmStep_inv_live (st : KmState) (op : KmOp) (st' : KmState) (h : st.Inv b)
    (hfair : OwnPages st op ∧ BackLive st op) (hstep : kmStep st op = .ok st') : st'.Inv b :=
  kmStep_inv st op st' h ⟨hfair.1, h.backOk hfair.2⟩ hstep

end Objs

/-- **Objects and pools in order**, after any requests and calls of the page allocator by
others, as long as what is given back is in use. -/
theorem objs_ok {b : BootArray} {s t : KmState} {ops : List KmOp} (hs : s.Start b)
    (hown : AllSteps kmStep OwnPages ops s) (hback : AllSteps kmStep BackLive ops s)
    (hrun : run kmStep ops s = .ok t) : ObjsOk t ∧ PoolsOk t := by
  obtain ⟨lay, hinv⟩ := run_inv_of_allSteps (KmState.Inv b) _ kmStep_inv_live ops s t hs.inv
    (hown.and hback) hrun
  exact ⟨hinv.objsOk, hinv.poolsOk⟩

/-- `ObjCall`, tested. -/
def objCallFits (st : KmState) : KmOp → Bool
  | .new _ => true
  | .delete fadrs fsz => 1 ≤ fsz ∧ fadrs ∈ liveOf (classOf fsz) st.live
  | .pages _ => false

theorem objCallFits_objCall (st : KmState) (op : KmOp) (h : objCallFits st op = true) :
    ObjCall st op := by
  cases op with
  | new msz => exact ⟨fun op' he => (by cases he), fun a fsz he => (by cases he)⟩
  | delete fadrs fsz =>
      refine ⟨fun op' he => (by cases he), fun a sz he => ?_⟩
      cases he
      exact of_decide_eq_true h
  | pages op => cases h

theorem objs_ok_twoObjs : ∃ s t, s.Start fourPages ∧ run kmStep twoObjs s = .ok t ∧
    t.live = [(0xffff800002000fd0, 32)] ∧ ObjsOk t ∧ PoolsOk t := by
  obtain ⟨s, t, hs, hall, hrun, hq⟩ := kmTest_run objCallFits_objCall fourPages twoObjs
    (fun t => t.live = [(0xffff800002000fd0, 32)]) (by decide +kernel)
  exact ⟨s, t, hs, hrun, of_decide_eq_true hq, objs_ok hs (hall.imp fun _ _ hp => hp.ownPages)
    (hall.imp fun _ _ hp => hp.2) hrun⟩

end Cosmos.Hal
