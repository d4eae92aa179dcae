import Cosmos.Hal.KmsobOps

/-!
# All object pools

A class has one pool or none, since a new pool is made only when its list is empty.  `KmOk`
says that all classes are in order, and that the blocks of the pools are outstanding in the
page allocator, beside those of others.  A call works on one class: `KmOk.change` is the frame
rule for it.

## Main results

* `kmsobNew_spec` and `kmsobDelete_spec` : what the two calls do.
-/

namespace Cosmos.Hal

open Cosmos.Lib.Word64 Cosmos.Lib.Cover Cosmos.Lib.Slab

/-! ## Objects in use -/

/-- The addresses of the objects of a class.  An object is listed with the size that was asked
for. -/
def liveOf (c : Nat) (live : List (Nat × Nat)) : List Nat :=
  (live.filter fun o => classOf o.2 = c).map Prod.fst

/-- The objects without the one at `a` of class `c`. -/
def dropLive (a c : Nat) (live : List (Nat × Nat)) : List (Nat × Nat) :=
  live.eraseP fun o => o.1 = a ∧ classOf o.2 = c

theorem mem_liveOf {c x : Nat} {live : List (Nat × Nat)} :
    x ∈ liveOf c live ↔ ∃ o ∈ live, classOf o.2 = c ∧ o.1 = x := by
  unfold liveOf
  simp only [List.mem_map, List.mem_filter, decide_eq_true_eq, and_assoc]

theorem liveOf_cons (c : Nat) (o : Nat × Nat) (live : List (Nat × Nat)) :
    liveOf c (o :: live) = if classOf o.2 = c then o.1 :: liveOf c live else liveOf c live := by
  unfold liveOf
  by_cases h : classOf o.2 = c
  · simp [h]
  · simp [h]

theorem liveOf_dropLive (a c i : Nat) (live : List (Nat × Nat)) :
    liveOf i (dropLive a c live) = if i = c then (liveOf i live).erase a else liveOf i live := by
  unfold dropLive
  induction live with
  | nil => simp [liveOf]
  | cons o live ih =>
      by_cases ho : o.1 = a ∧ classOf o.2 = c
      · rw [List.eraseP_cons_of_pos (by simpa using ho), liveOf_cons]
        by_cases hi : i = c
        · rw [if_pos hi, if_pos (ho.2.trans hi.symm), ho.1, List.erase_cons_head]
        · rw [if_neg hi, if_neg fun he => hi (he.symm.trans ho.2)]
      · rw [List.eraseP_cons_of_neg (by simpa using ho), liveOf_cons, ih, liveOf_cons]
        by_cases hi : i = c
        · subst hi
          rw [if_pos rfl, if_pos rfl]
          by_cases hcl : classOf o.2 = i
          · have hne : o.1 ≠ a := fun he => ho ⟨he, hcl⟩
            rw [if_pos hcl, if_pos hcl, List.erase_cons_tail (by simpa using hne)]
          · rw [if_neg hcl, if_neg hcl]
        · rw [if_neg hi, if_neg hi]

/-! ## The blocks of all pools -/

/-- The blocks of a class. -/
def classBlocks (c : Nat) : Option Lay → List Seg
  | none => []
  | some y => y.blocks c

/-- The blocks of all classes. -/
def poolBlocks (lay : Nat → Option Lay) : List Seg :=
  (List.range koblstMax).flatMap fun c => classBlocks c (lay c)

/-- The blocks of all classes but `c`. -/
def blocksBut (lay : Nat → Option Lay) (c : Nat) : List Seg :=
  ((List.range koblstMax).erase c).flatMap fun i => classBlocks i (lay i)

/-- How many pools there are. -/
def poolCount (lay : Nat → Option Lay) : Nat :=
  (List.range koblstMax).countP fun c => (lay c).isSome

section Classes

variable {lay : Nat → Option Lay} {c : Nat}

theorem mem_range_erase {i : Nat} : i ∈ (List.range koblstMax).erase c ↔ i ≠ c ∧ i < koblstMax := by
  rw [List.nodup_range.mem_erase_iff, List.mem_range]

theorem poolBlocks_perm (lay : Nat → Option Lay) (hc : c < koblstMax) :
    (poolBlocks lay).Perm (classBlocks c (lay c) ++ blocksBut lay c) := by
  have hperm := List.perm_cons_erase (List.mem_range.mpr hc)
  exact hperm.flatMap_right fun i => classBlocks i (lay i)

/-- The blocks of the other classes are the same when class `c` changes. -/
theorem blocksBut_update (lay : Nat → Option Lay) (c : Nat) (o : Option Lay) :
    blocksBut (Function.update lay c o) c = blocksBut lay c := by
  unfold blocksBut
  refine List.flatMap_congr fun i hi => ?_
  rw [Function.update_of_ne (mem_range_erase.mp hi).1]

theorem mem_blocksBut {i : Nat} (hi : i < koblstMax) (hne : i ≠ c) {y : Lay} (hy : lay i = some y)
    {x : Seg} (hx : x ∈ y.blocks i) : x ∈ blocksBut lay c := by
  refine List.mem_flatMap.mpr ⟨i, mem_range_erase.mpr ⟨hne, hi⟩, ?_⟩
  rw [hy]
  exact hx

/-- The number of pools when class `c` changes. -/
theorem poolCount_update (lay : Nat → Option Lay) (hc : c < koblstMax) (o : Option Lay) :
    poolCount (Function.update lay c o) + (lay c).toList.length =
      poolCount lay + o.toList.length := by
  have hperm := List.perm_cons_erase (List.mem_range.mpr hc)
  have hrest : ((List.range koblstMax).erase c).countP
      (fun i => (Function.update lay c o i).isSome) =
        ((List.range koblstMax).erase c).countP fun i => (lay i).isSome := by
    refine List.countP_congr fun i hi => ?_
    rw [Function.update_of_ne (mem_range_erase.mp hi).1]
  unfold poolCount
  rw [hperm.countP_eq, hperm.countP_eq, List.countP_cons, List.countP_cons, hrest,
    Function.update_self]
  cases lay c <;> cases o <;> simp

end Classes

/-! ## The invariant -/

/-- **Class `c` has one pool**, with layout `y`. -/
structure Pooled (b : BootArray) (m : Kmem) (c : Nat) (live : List Nat) (y : Lay) : Prop where
  emplst : (m.mgr.ksMsoblst c).olEmplst = [b.vaddr y.first]
  emnr : (m.mgr.ksMsoblst c).olEmnr = 1
  sz : (m.mgr.ksMsoblst c).olSz = classSz c
  cahe : ∀ a ∈ (m.mgr.ksMsoblst c).olCahe, a = b.vaddr y.first
  pool : PoolOk b c y (m.kmsob (b.vaddr y.first)) live
  krnl : y.Krnl b c

/-- A class with one pool or none. -/
def ClassOk (b : BootArray) (m : Kmem) (c : Nat) (live : List Nat) : Option Lay → Prop
  | none => m.mgr.ksMsoblst c = koblstInit (classSz c) ∧ live = []
  | some y => Pooled b m c live y

/-- **All classes in order**: `lay` are the layouts of the pools, `others` the blocks of other
users of the page allocator and `live` the objects in use. -/
structure KmOk (b : BootArray) (m : Kmem) (others : List Seg) (live : List (Nat × Nat))
    (lay : Nat → Option Lay) : Prop where
  mm : MmInv m.mm (poolBlocks lay ++ others)
  same : SameArray b m.mm
  cls : ∀ c < koblstMax, ClassOk b m c (liveOf c live) (lay c)
  msobnr : m.mgr.ksMsobnr = poolCount lay
  msobche : ∀ a ∈ m.mgr.ksMsobche, ∃ c < koblstMax, ∃ y, lay c = some y ∧ a = b.vaddr y.first
  sizes : ∀ o ∈ live, 1 ≤ o.2 ∧ o.2 ≤ 2048

/-- Between calls every pool has an object in use. -/
structure KmInv (b : BootArray) (m : Kmem) (others : List Seg) (live : List (Nat × Nat))
    (lay : Nat → Option Lay) : Prop extends KmOk b m others live lay where
  used : ∀ c < koblstMax, ∀ y, lay c = some y → liveOf c live ≠ []

section Change

variable {b : BootArray} {m m' : Kmem} {others : List Seg} {live live' : List (Nat × Nat)}
  {lay : Nat → Option Lay} {c i : Nat} {y z : Lay}

/-- Blocks of two classes have different addresses. -/
theorem first_ne {mm : Memgrob} {o : Option Lay} (hs : SameArray b mm)
    (hmm : MmInv mm (classBlocks c o ++ (blocksBut lay c ++ others))) (ho : o = some y)
    (hi : i < koblstMax) (hne : i ≠ c) (hz : lay i = some z) :
    b.vaddr z.first ≠ b.vaddr y.first := by
  intro he
  have hy : (⟨y.first, classPages c⟩ : Seg) ∈ classBlocks c o := by
    rw [ho]
    exact List.mem_cons_self
  have hz' : (⟨z.first, classPages i⟩ : Seg) ∈ blocksBut lay c ++ others :=
    List.mem_append_left _ (mem_blocksBut hi hne hz List.mem_cons_self)
  have hyin := List.mem_append_left (blocksBut lay c ++ others) hy
  have hzin := List.mem_append_right (classBlocks c o) hz'
  have hypos : 0 < classPages c := hmm.lens _ hyin
  have hzpos : 0 < classPages i := hmm.lens _ hzin
  have hyend := hmm.mem.held_end_le hyin hypos
  have hzend := hmm.mem.held_end_le hzin hzpos
  rw [hs.msanr] at hyend hzend
  have heq : z.first = y.first := vaddr_inj (by simp only at hzend; omega)
    (by simp only at hyend; omega) he
  have hpair : (classBlocks c o ++ (blocksBut lay c ++ others)).Pairwise fun x x' =>
      ∀ j, x.Has j → ¬ x'.Has j := pairwise_of_cover_le fun j => by
    have := hmm.mem.tiles.le_one j
    omega
  refine (List.pairwise_append.mp hpair).2.2 _ hy _ hz' y.first ?_ ?_
  · exact ⟨Nat.le_refl _, Nat.lt_add_of_pos_right hypos⟩
  · rw [heq]
    exact ⟨Nat.le_refl _, Nat.lt_add_of_pos_right hzpos⟩

/-- The blocks of class `c` first. -/
theorem KmOk.cut (h : KmOk b m others live lay) (hc : c < koblstMax) :
    MmInv m.mm (classBlocks c (lay c) ++ (blocksBut lay c ++ others)) := by
  have hperm := (poolBlocks_perm lay hc).append_right others
  rw [List.append_assoc] at hperm
  exact h.mm.perm hperm

/-- **A call works on one class**: what it has to keep, and what is left alone. -/
theorem KmOk.change (h : KmOk b m others live lay) (hc : c < koblstMax) {o : Option Lay}
    (hmm : MmInv m'.mm (classBlocks c o ++ (blocksBut lay c ++ others)))
    (hpages : SamePages m.mm m'.mm)
    (hlists : ∀ i, i ≠ c → m'.mgr.ksMsoblst i = m.mgr.ksMsoblst i)
    (hkmsob : ∀ a, (∀ y, lay c = some y ∨ o = some y → a ≠ b.vaddr y.first) →
      m'.kmsob a = m.kmsob a)
    (hlive : ∀ i, i ≠ c → liveOf i live' = liveOf i live)
    (hcls : ClassOk b m' c (liveOf c live') o)
    (hnr : m'.mgr.ksMsobnr + (lay c).toList.length = m.mgr.ksMsobnr + o.toList.length)
    (hche : ∀ a ∈ m'.mgr.ksMsobche,
      (a ∈ m.mgr.ksMsobche ∧ ∀ y, lay c = some y → a ≠ b.vaddr y.first) ∨
        ∃ y, o = some y ∧ a = b.vaddr y.first)
    (hsizes : ∀ o ∈ live', 1 ≤ o.2 ∧ o.2 ≤ 2048) :
    KmOk b m' others live' (Function.update lay c o) where
  mm := by
    have hperm := (poolBlocks_perm (Function.update lay c o) hc).append_right others
    rw [blocksBut_update, Function.update_self, List.append_assoc] at hperm
    exact hmm.perm hperm.symm
  same := h.same.mono hpages
  cls i hi := by
    by_cases hic : i = c
    · subst hic
      rw [Function.update_self]
      exact hcls
    · rw [Function.update_of_ne hic, hlive i hic]
      have hold := h.cls i hi
      cases hz : lay i with
      | none =>
          rw [hz] at hold
          exact ⟨(hlists i hic).trans hold.1, hold.2⟩
      | some z =>
          rw [hz] at hold
          obtain ⟨h1, h2, h3, h4, h5, h6⟩ := hold
          rw [← hlists i hic] at h1 h2 h3 h4
          refine ⟨h1, h2, h3, h4, ?_, h6⟩
          rw [hkmsob]
          · exact h5
          rintro y (hy | hy)
          · exact first_ne h.same (h.cut hc) hy hi hic hz
          · exact first_ne (h.same.mono hpages) hmm hy hi hic hz
  msobnr := by
    have hcount := poolCount_update lay hc o
    have hm := h.msobnr
    omega
  msobche a ha := by
    rcases hche a ha with ⟨hold, hne⟩ | ⟨y, hy, rfl⟩
    · obtain ⟨i, hi, z, hz, rfl⟩ := h.msobche a hold
      refine ⟨i, hi, z, ?_, rfl⟩
      rw [Function.update_of_ne]
      · exact hz
      rintro rfl
      exact hne z hz rfl
    · exact ⟨c, hc, y, by rw [Function.update_self]; exact hy, rfl⟩
  sizes := hsizes

theorem liveOf_perm (hperm : live.Perm live') (i : Nat) :
    (liveOf i live).Perm (liveOf i live') :=
  (hperm.filter _).map _

theorem liveOf_append (c : Nat) (live objs : List (Nat × Nat)) :
    liveOf c (live ++ objs) = liveOf c live ++ liveOf c objs := by
  unfold liveOf
  rw [List.filter_append, List.map_append]

/-- The order in which the blocks of others are listed does not matter. -/
theorem KmInv.permOthers {others' : List Seg} (h : KmInv b m others live lay)
    (hperm : others.Perm others') : KmInv b m others' live lay :=
  { h with mm := h.mm.perm (hperm.append_left _) }

/-- Only the addresses of each class matter, in any order. -/
theorem KmInv.congr (h : KmInv b m others live lay)
    (hlive : ∀ i, (liveOf i live').Perm (liveOf i live))
    (hsizes : ∀ o ∈ live', 1 ≤ o.2 ∧ o.2 ≤ 2048) : KmInv b m others live' lay where
  mm := h.mm
  same := h.same
  cls i hi := by
    have hcls := h.cls i hi
    cases hy : lay i with
    | none =>
        rw [hy] at hcls
        exact ⟨hcls.1, (hcls.2 ▸ hlive i).eq_nil⟩
    | some y =>
        rw [hy] at hcls
        have hp : Pooled b m i (liveOf i live) y := hcls
        exact { hp with
          pool := { hp.pool with slab := hp.pool.slab.congr (List.Perm.refl _) (hlive i) } }
  msobnr := h.msobnr
  msobche := h.msobche
  sizes := hsizes
  used i hi y hy hnil := h.used i hi y hy (hnil ▸ hlive i).nil_eq.symm

end Change

section New

variable {b : BootArray} {m : Kmem} {others : List Seg} {live : List (Nat × Nat)}
  {lay : Nat → Option Lay} {c msz : Nat} {y : Lay}

/-! ## Allocating -/

theorem KmOk.pooled (h : KmOk b m others live lay) (hc : c < koblstMax) (hy : lay c = some y) :
    Pooled b m c (liveOf c live) y := by
  have hcls := h.cls c hc
  rw [hy] at hcls
  exact hcls

theorem KmOk.empty (h : KmOk b m others live lay) (hc : c < koblstMax) (hy : lay c = none) :
    m.mgr.ksMsoblst c = koblstInit (classSz c) ∧ liveOf c live = [] := by
  have hcls := h.cls c hc
  rw [hy] at hcls
  exact hcls

theorem KmOk.olSz (h : KmOk b m others live lay) (hc : c < koblstMax) :
    (m.mgr.ksMsoblst c).olSz = classSz c := by
  cases hy : lay c with
  | none => rw [(h.empty hc hy).1]; rfl
  | some y => exact (h.pooled hc hy).sz

/-- **`onmsz_retn_koblst`** finds the class of a size. -/
theorem KmOk.onmsz (h : KmOk b m others live lay) (hpos : 1 ≤ msz) (hle : msz ≤ 2048) :
    onmszRetnKoblst m.mgr msz = some (classOf msz) := by
  have hlt := classOf_lt hle
  unfold onmszRetnKoblst
  rw [if_neg (by omega), List.find?_range_eq_some]
  refine ⟨?_, List.mem_range.mpr hlt, fun j hj => ?_⟩
  · rw [h.olSz hlt]
    exact decide_eq_true (le_classSz msz)
  · have hsmall : ¬ msz ≤ classSz j := by
      unfold classSz
      unfold classOf at hj
      omega
    rw [h.olSz (Nat.lt_trans hj hlt)]
    simpa using hsmall

/-- A class with one pool offers this one. -/
theorem onkoblstRetnNewkmsob_one {v : Nat} (hpos : 1 ≤ msz)
    (hlst : (m.mgr.ksMsoblst c).olEmplst = [v]) (hnr : (m.mgr.ksMsoblst c).olEmnr = 1)
    (hcahe : ∀ a ∈ (m.mgr.ksMsoblst c).olCahe, a = v)
    (hok : scanNewkmsobIsok (m.kmsob v) msz = true) : onkoblstRetnNewkmsob m c msz = some v := by
  unfold onkoblstRetnNewkmsob
  dsimp only
  rw [if_neg (by omega), hnr, hlst]
  cases hche : (m.mgr.ksMsoblst c).olCahe with
  | none => simp [hok]
  | some a =>
      have ha := hcahe a hche
      subst ha
      simp only [Option.filter_some, hok, if_true]

/-- **`onkoblst_retn_newkmsob`** returns the pool of the class. -/
theorem KmOk.retnNewkmsob (h : KmOk b m others live lay) (hc : c < koblstMax) (hpos : 1 ≤ msz)
    (hle : msz ≤ classSz c) :
    onkoblstRetnNewkmsob m c msz = (lay c).map fun y => b.vaddr y.first := by
  cases hy : lay c with
  | none =>
      unfold onkoblstRetnNewkmsob
      rw [if_neg (by omega), (h.empty hc hy).1]
      rfl
  | some y =>
      have hp := h.pooled hc hy
      refine onkoblstRetnNewkmsob_one hpos hp.emplst hp.emnr hp.cahe ?_
      unfold scanNewkmsobIsok
      rw [hp.pool.objsz]
      simp [hpos, hle]

/-- Both caches point to the pool. -/
theorem KmOk.cache (h : KmOk b m others live lay) (hc : c < koblstMax) (hy : lay c = some y) :
    KmOk b (kmsobUpdataCache m c (b.vaddr y.first)) others live lay := by
  have hp := h.pooled hc hy
  have hsame : Function.update lay c (some y) = lay := by rw [← hy, Function.update_eq_self]
  rw [← hsame]
  refine h.change hc ?_ (SamePages.refl _) (fun i hi => ?_) (fun _ _ => rfl) (fun _ _ => rfl) ?_ ?_
    (fun a ha => ?_) h.sizes
  · rw [← hy]
    exact h.cut hc
  · exact Function.update_of_ne hi _ _
  · have hlst : (kmsobUpdataCache m c (b.vaddr y.first)).mgr.ksMsoblst c =
        { m.mgr.ksMsoblst c with olCahe := some (b.vaddr y.first) } := Function.update_self _ _ _
    refine ⟨?_, ?_, ?_, fun a ha => ?_, hp.pool, hp.krnl⟩
    · rw [hlst]
      exact hp.emplst
    · rw [hlst]
      exact hp.emnr
    · rw [hlst]
      exact hp.sz
    · rw [hlst] at ha
      exact (Option.some.inj ha).symm
  · rw [hy]
    rfl
  · exact Or.inr ⟨y, rfl, (Option.some.inj ha).symm⟩

theorem setKmsob_self (m : Kmem) (a : Nat) (k : Kmsob) : (m.setKmsob a k).kmsob a = k :=
  Function.update_self _ _ _

/-- A pool is written, and perhaps has one more block. -/
theorem KmOk.write (h : KmOk b m others live lay) (hc : c < koblstMax) (hy : lay c = some y)
    {mm' : Memgrob} {k : Kmsob} {y' : Lay} {live' : List (Nat × Nat)} (hfirst : y'.first = y.first)
    (hmm : MmInv mm' (y'.blocks c ++ (blocksBut lay c ++ others))) (hpages : SamePages m.mm mm')
    (hpool : PoolOk b c y' k (liveOf c live')) (hkrnl : y'.Krnl b c)
    (hlive : ∀ i, i ≠ c → liveOf i live' = liveOf i live)
    (hsizes : ∀ o ∈ live', 1 ≤ o.2 ∧ o.2 ≤ 2048) :
    KmOk b (({ m with mm := mm' } : Kmem).setKmsob (b.vaddr y.first) k) others live'
      (Function.update lay c (some y')) := by
  have hp := h.pooled hc hy
  refine h.change hc hmm hpages (fun _ _ => rfl) (fun a ha => ?_) hlive ?_ ?_ (fun a ha => ?_)
    hsizes
  · exact Function.update_of_ne (ha y (Or.inl hy)) _ _
  · refine ⟨?_, hp.emnr, hp.sz, ?_, ?_, hkrnl⟩
    · rw [hfirst]
      exact hp.emplst
    · rw [hfirst]
      exact hp.cahe
    · rw [hfirst]
      rw [setKmsob_self]
      exact hpool
  · have hone : (lay c).toList.length = 1 := by rw [hy]; rfl
    rw [hone]
    rfl
  · have ha : a ∈ m.mgr.ksMsobche := ha
    by_cases he : a = b.vaddr y.first
    · exact Or.inr ⟨y', rfl, by rw [hfirst]; exact he⟩
    · refine Or.inl ⟨ha, fun z hz => ?_⟩
      rw [hy] at hz
      cases hz
      exact he

/-- The number of free objects is found. -/
theorem PoolOk.scanObjnr {k : Kmsob} {used : List Nat} (h : PoolOk b c y k used) :
    scanKmsobObjnr k = .ok k.soFobjnr := by
  have hf := h.fobjnr
  unfold scanKmsobObjnr
  refine if_neg fun hno => hno.2 (List.length_eq_zero_iff.mp ?_)
  omega

theorem liveOf_take {x : Nat} (i : Nat) (hi : i ≠ classOf msz) :
    liveOf i ((x, msz) :: live) = liveOf i live := by
  rw [liveOf_cons, if_neg fun he => hi he.symm]

theorem liveOf_take_self (x : Nat) :
    liveOf (classOf msz) ((x, msz) :: live) = x :: liveOf (classOf msz) live := by
  rw [liveOf_cons, if_pos rfl]

theorem sizes_take (h : KmOk b m others live lay) (hpos : 1 ≤ msz) (hle : msz ≤ 2048) (x : Nat) :
    ∀ o ∈ (x, msz) :: live, 1 ≤ o.2 ∧ o.2 ≤ 2048 := by
  intro o ho
  rcases List.mem_cons.mp ho with rfl | ho
  · exact ⟨hpos, hle⟩
  · exact h.sizes o ho

/-- An object is taken from a pool with a free one. -/
theorem KmOk.newOp (h : KmOk b m others live lay) (hpos : 1 ≤ msz) (hle : msz ≤ 2048)
    (hy : lay (classOf msz) = some y) (hfree : (m.kmsob (b.vaddr y.first)).soFrelst ≠ []) :
    ∃ m' x, kmsobNewOpkmsob m (b.vaddr y.first) msz = (m', some x) ∧
      KmOk b m' others ((x, msz) :: live) lay := by
  have hc := classOf_lt hle
  have hp := h.pooled hc hy
  obtain ⟨x, k', hrun, hpool⟩ := hp.pool.newOp hpos (le_classSz msz) hfree
  refine ⟨_, x, hrun, ?_⟩
  have hmm := h.cut hc
  rw [hy] at hmm
  have hpool' : PoolOk b (classOf msz) y k' (liveOf (classOf msz) ((x, msz) :: live)) := by
    rw [liveOf_take_self]
    exact hpool
  have hok := h.write hc hy rfl hmm (SamePages.refl _) hpool' hp.krnl liveOf_take
    (sizes_take h hpos hle x)
  rw [← hy, Function.update_eq_self] at hok
  exact hok

/-- The blocks of `y` and perhaps newer ones. -/
structure Lay.Extends (y y' : Lay) : Prop where
  first : y'.first = y.first
  exts : y.exts <:+ y'.exts

theorem Lay.Extends.refl (y : Lay) : y.Extends y := ⟨rfl, List.suffix_refl _⟩

theorem Lay.Extends.trans {y z w : Lay} (h : y.Extends z) (h' : z.Extends w) : y.Extends w :=
  ⟨h'.first.trans h.first, h.exts.trans h'.exts⟩

/-- **`kmsob_new_onkmsob`** takes an object from a pool, with a new block if it has none left. -/
theorem KmOk.newOn (h : KmOk b m others live lay) (hpos : 1 ≤ msz) (hle : msz ≤ 2048)
    (hy : lay (classOf msz) = some y) :
    ((m.kmsob (b.vaddr y.first)).soFrelst = [] ∧
      kmsobNewOnkmsob m (b.vaddr y.first) msz = .ok (m, none)) ∨
    ∃ m' x y', kmsobNewOnkmsob m (b.vaddr y.first) msz = .ok (m', some x) ∧ y.Extends y' ∧
      KmOk b m' others ((x, msz) :: live) (Function.update lay (classOf msz) (some y')) := by
  have hc := classOf_lt hle
  have hp := h.pooled hc hy
  have hmm := h.cut hc
  rw [hy] at hmm
  have hnr := hp.pool.fobjnr
  unfold kmsobNewOnkmsob
  rw [if_neg (by omega), hp.pool.scanObjnr]
  by_cases hfree : (m.kmsob (b.vaddr y.first)).soFrelst = []
  · rw [hfree, List.length_nil] at hnr
    simp only [hnr, Nat.zero_lt_one, if_true]
    rcases hp.pool.extnPages rfl hc hp.krnl hmm h.same
      (fun z hz => List.mem_append_left _ hz) with
      hrun | ⟨mm', s, k', hrun, hinv, hsame, hblk, hpool, hne⟩
    · left
      rw [hrun]
      exact ⟨hfree, rfl⟩
    · right
      have hperm : MmInv mm' (Lay.blocks (classOf msz) ⟨y.first, s :: y.exts⟩ ++
          (blocksBut lay (classOf msz) ++ others)) := hinv.perm (List.Perm.swap _ _ _)
      have hkrnl : Lay.Krnl b (classOf msz) ⟨y.first, s :: y.exts⟩ := by
        intro t ht
        rcases List.mem_cons.mp ht with rfl | ht
        · exact hp.krnl _ List.mem_cons_self
        rcases List.mem_cons.mp ht with rfl | ht
        · exact hblk
        · exact hp.krnl t (List.mem_cons_of_mem _ ht)
      have hok : KmOk b (({ m with mm := mm' } : Kmem).setKmsob (b.vaddr y.first) k') others live
          (Function.update lay (classOf msz) (some ⟨y.first, s :: y.exts⟩)) :=
        h.write hc hy rfl hperm hsame hpool hkrnl (fun _ _ => rfl) h.sizes
      obtain ⟨m', x, hnew, hok'⟩ := hok.newOp hpos hle (Function.update_self _ _ _)
        (by rw [setKmsob_self]; exact hne)
      refine ⟨m', x, ⟨y.first, s :: y.exts⟩, ?_, ⟨rfl, List.suffix_cons s y.exts⟩, hok'⟩
      rw [hrun]
      exact congrArg Except.ok hnew
  · right
    have hlen := List.length_pos_iff.mpr hfree
    obtain ⟨m', x, hnew, hok⟩ := h.newOp hpos hle hy hfree
    refine ⟨m', x, y, ?_, Lay.Extends.refl y, ?_⟩
    · dsimp only
      rw [if_neg (by omega), hnew]
    · rw [← hy, Function.update_eq_self]
      exact hok

/-- **`_create_kmsob`** gives a class its pool, or is refused the block. -/
theorem KmOk.create (h : KmOk b m others live lay) (hc : c < koblstMax) (hy : lay c = none) :
    createKmsob m c (m.mgr.ksMsoblst c).olSz = .ok (m, none) ∨
    ∃ m' z, createKmsob m c (m.mgr.ksMsoblst c).olSz = .ok (m', some (b.vaddr z)) ∧
      (m'.kmsob (b.vaddr z)).soFrelst ≠ [] ∧
      KmOk b m' others live (Function.update lay c (some ⟨z, []⟩)) := by
  obtain ⟨hlst, hnil⟩ := h.empty hc hy
  have hmm := h.cut hc
  rw [hy] at hmm
  have hsz := h.olSz hc
  rw [hsz]
  rcases createKmsob_spec hc hmm h.same hsz with hrun | ⟨mm', s, k, hrun, hinv, hsame, hblk, hpool⟩
  · exact Or.inl hrun
  refine Or.inr ⟨_, s, hrun, ?_, ?_⟩
  · have hlen := hpool.slab.length
    have hroom : (Lay.chunks b c ⟨s, []⟩).length ≤
        (allSlots (classSz c) (Lay.chunks b c ⟨s, []⟩)).length := Lay.chunks_le hc
    have hone : (Lay.chunks b c ⟨s, []⟩).length = 1 := rfl
    rw [link_kmsob]
    refine List.length_pos_iff.mp ?_
    rw [List.length_nil] at hlen
    omega
  · have hkrnl : Lay.Krnl b c ⟨s, []⟩ := by
      intro t ht
      rw [List.mem_singleton] at ht
      exact ht ▸ hblk
    have hone : (lay c).toList.length = 0 := by rw [hy]; rfl
    refine h.change hc hinv hsame (fun i hi => Function.update_of_ne hi _ _) (fun a ha => ?_)
      (fun _ _ => rfl) ?_ ?_ (fun a ha => ?_) h.sizes
    · exact Function.update_of_ne (ha ⟨s, []⟩ (Or.inr rfl)) _ _
    · refine ⟨?_, ?_, ?_, fun a ha => ?_, ?_, hkrnl⟩
      · rw [link_koblst]
        exact congrArg (fun l : Koblst => b.vaddr s :: l.olEmplst) hlst
      · rw [link_koblst]
        exact congrArg (fun l : Koblst => l.olEmnr + 1) hlst
      · rw [link_koblst]
        exact hsz
      · rw [link_koblst] at ha
        have hnone : (m.mgr.ksMsoblst c).olCahe = none := congrArg Koblst.olCahe hlst
        exact absurd (hnone.symm.trans ha) (fun he => by cases he)
      · rw [link_kmsob, hnil]
        exact hpool
    · rw [hone]
      rfl
    · exact Or.inl ⟨ha, fun y hy' => by rw [hy] at hy'; cases hy'⟩

theorem KmInv.used_take {m : Kmem} {lay' : Nat → Option Lay} (h : KmInv b m others live lay)
    (hlay : ∀ i, i ≠ classOf msz → lay' i = lay i) (x : Nat) :
    ∀ i < koblstMax, ∀ y, lay' i = some y → liveOf i ((x, msz) :: live) ≠ [] := by
  intro i hi y hy
  by_cases hic : i = classOf msz
  · subst hic
    rw [liveOf_take_self]
    exact List.cons_ne_nil _ _
  · rw [liveOf_take i hic]
    rw [hlay i hic] at hy
    exact h.used i hi y hy

/-- **`kmsob_new`** hands out an object, or changes nothing.  Only the pool of the class may
change, by a new block. -/
theorem kmsobNew_spec (h : KmInv b m others live lay) (hpos : 1 ≤ msz) (hle : msz ≤ 2048) :
    kmsobNew m msz = .ok (m, none) ∨
    ∃ m' x lay', kmsobNew m msz = .ok (m', some x) ∧ KmInv b m' others ((x, msz) :: live) lay' ∧
      (∀ i, i ≠ classOf msz → lay' i = lay i) ∧
      ∀ y, lay (classOf msz) = some y → ∃ y', lay' (classOf msz) = some y' ∧ y.Extends y' := by
  have hc := classOf_lt hle
  unfold kmsobNew kmsobNewCore newKmsobOf
  rw [if_neg (by omega), h.onmsz hpos hle]
  dsimp only
  rw [h.retnNewkmsob hc hpos (le_classSz msz)]
  cases hy : lay (classOf msz) with
  | none =>
      rcases h.create hc hy with hrun | ⟨m₁, z, hrun, hfree, hok⟩
      · left
        simp only [Option.map_none, hrun]
      · right
        rcases hok.newOn hpos hle (Function.update_self _ _ _) with
          ⟨hnil, -⟩ | ⟨m₂, x, y', hnew, hext, hok'⟩
        · exact absurd hnil hfree
        · have hcache := hok'.cache hc (Function.update_self _ _ _)
          rw [hext.first] at hcache
          simp only at hnew
          simp only [Option.map_none, hrun, hnew]
          have hlay : ∀ i, i ≠ classOf msz → Function.update (Function.update lay (classOf msz)
              (some ⟨z, []⟩)) (classOf msz) (some y') i = lay i := by
            intro i hi
            rw [Function.update_of_ne hi, Function.update_of_ne hi]
          exact ⟨_, x, _, rfl, ⟨hcache, h.used_take hlay x⟩, hlay, fun y he => by cases he⟩
  | some y =>
      rcases h.newOn hpos hle hy with ⟨-, hrun⟩ | ⟨m₂, x, y', hnew, hext, hok'⟩
      · left
        simp only [Option.map_some, hrun]
      · right
        have hcache := hok'.cache hc (Function.update_self _ _ _)
        rw [hext.first] at hcache
        simp only [Option.map_some, hnew]
        have hlay : ∀ i, i ≠ classOf msz →
            Function.update lay (classOf msz) (some y') i = lay i := fun i hi =>
          Function.update_of_ne hi _ _
        refine ⟨_, x, _, rfl, ⟨hcache, h.used_take hlay x⟩, hlay, fun z hz => ?_⟩
        cases hz
        exact ⟨y', Function.update_self _ _ _, hext⟩

end New

section Delete

variable {b : BootArray} {m : Kmem} {others : List Seg} {live : List (Nat × Nat)}
  {lay : Nat → Option Lay} {c fadrs fsz : Nat} {y : Lay}

/-! ## Giving back -/

/-- A class with one pool asks this one. -/
theorem onkoblstRetnDelkmsob_one {v : Nat} {r : Bool} (hpos : 1 ≤ fsz)
    (hlst : (m.mgr.ksMsoblst c).olEmplst = [v]) (hnr : (m.mgr.ksMsoblst c).olEmnr = 1)
    (hcahe : ∀ a ∈ (m.mgr.ksMsoblst c).olCahe, a = v)
    (hscan : scanDelkmsobIsok m v fadrs fsz = .ok r) :
    onkoblstRetnDelkmsob m c fadrs fsz = .ok (if r then some v else none) := by
  have hloop : retnDelkmsobLoop m fadrs fsz [v] = .ok (if r then some v else none) := by
    unfold retnDelkmsobLoop
    rw [hscan]
    cases r <;> rfl
  unfold onkoblstRetnDelkmsob
  dsimp only
  rw [if_neg (by omega), hnr, hlst]
  cases hche : (m.mgr.ksMsoblst c).olCahe with
  | none =>
      rw [Option.toList_none, retnDelkmsobLoop]
      exact hloop
  | some a =>
      have ha := hcahe a hche
      subst ha
      rw [Option.toList_some, hloop]
      cases r <;> rfl

theorem PoolOk.mem_allSlots_iff {k : Kmsob} {used : List Nat} (h : PoolOk b c y k used) :
    fadrs ∈ allSlots (classSz c) (y.chunks b c) ↔ fadrs ∈ k.soFrelst ∨ fadrs ∈ used := by
  rw [← h.slab.perm.mem_iff, List.mem_append]

/-- A slot is not both free and in use. -/
theorem PoolOk.not_both {k : Kmsob} {used : List Nat} (h : PoolOk b c y k used)
    (hfree : fadrs ∈ k.soFrelst) : fadrs ∉ used := by
  have hnodup := h.slab.perm.nodup_iff.mpr (allSlots_nodup h.slab.pos h.slab.apart)
  exact fun hused => (List.nodup_append.mp hnodup).2.2 fadrs hfree fadrs hused rfl

/-- A slot lies behind the header of its block. -/
theorem slot_data (hle : fsz ≤ classSz c) (hslot : fadrs ∈ allSlots (classSz c) (y.chunks b c)) :
    ∃ d ∈ y.chunks b c, Chunk.Data d fadrs fsz := by
  obtain ⟨d, hd, hin⟩ := mem_allSlots.mp hslot
  obtain ⟨h1, h2, -⟩ := Chunk.slot_in (classSz_pos c) hin
  exact ⟨d, hd, h1, Nat.le_trans (Nat.add_le_add_left hle fadrs) h2⟩

/-- **`kmsob_delete`** of a class without a pool. -/
theorem kmsobDelete_none (h : KmOk b m others live lay) (hpos : 1 ≤ fsz) (hle : fsz ≤ 2048)
    (hy : lay (classOf fsz) = none) : kmsobDelete m fadrs fsz = .ok (m, false) := by
  have hlst := (h.empty (classOf_lt hle) hy).1
  have hretn : onkoblstRetnDelkmsob m (classOf fsz) fadrs fsz = .ok none := by
    unfold onkoblstRetnDelkmsob
    rw [if_neg (by omega), hlst]
    rfl
  unfold kmsobDelete kmsobDeleteCore
  rw [h.onmsz hpos hle]
  dsimp only
  rw [hretn, ite_self]

/-- The lines of `kmsob_delete` when a pool is found. -/
theorem kmsobDelete_of {v : Nat} {r : Bool} {m' : Kmem} (hpos : 1 ≤ fsz) (hle : fsz ≤ 2048)
    (hne : fadrs ≠ 0) (honmsz : onmszRetnKoblst m.mgr fsz = some c)
    (hretn : onkoblstRetnDelkmsob m c fadrs fsz = .ok (some v))
    (hdel : kmsobDelOpkmsob m v fadrs fsz = if r then some m' else none) :
    kmsobDelete m fadrs fsz = if r then destroyKmsob m' c v else .ok (m, false) := by
  unfold kmsobDelete kmsobDeleteCore
  rw [if_neg (by omega), honmsz]
  dsimp only
  rw [hretn]
  dsimp only
  rw [hdel]
  cases r <;> rfl

/-- **`kmsob_delete`** of an address that the first scan finds. -/
theorem kmsobDelete_found (h : KmInv b m others live lay) (hpos : 1 ≤ fsz) (hle : fsz ≤ 2048)
    (hy : lay (classOf fsz) = some y) (hne : fadrs ≠ 0)
    (hscan : scanDelkmsobIsok m (b.vaddr y.first) fadrs fsz = .ok true) :
    kmsobDelete m fadrs fsz =
      if scanDfszkmsobIsok (m.kmsob (b.vaddr y.first)) (b.vaddr y.first) fadrs fsz then
        destroyKmsob (m.setKmsob (b.vaddr y.first) ((m.kmsob (b.vaddr y.first)).putObj fadrs))
          (classOf fsz) (b.vaddr y.first)
      else .ok (m, false) := by
  have hc := classOf_lt hle
  have hp := h.pooled hc hy
  have hretn := onkoblstRetnDelkmsob_one hpos hp.emplst hp.emnr hp.cahe hscan
  exact kmsobDelete_of hpos hle hne (h.onmsz hpos hle) hretn
    (hp.pool.delOp_eq (h.used _ hc y hy) hpos hne)

/-- **`kmsob_delete`** puts every slot of the pool on its list, and nothing else. -/
theorem kmsobDelete_eq (h : KmInv b m others live lay) (hpos : 1 ≤ fsz) (hle : fsz ≤ 2048)
    (hy : lay (classOf fsz) = some y) (hsum : fadrs + fsz < wordMod) : kmsobDelete m fadrs fsz =
      if fadrs ∈ allSlots (classSz (classOf fsz)) (y.chunks b (classOf fsz)) then
        destroyKmsob (m.setKmsob (b.vaddr y.first) ((m.kmsob (b.vaddr y.first)).putObj fadrs))
          (classOf fsz) (b.vaddr y.first)
      else .ok (m, false) := by
  have hc := classOf_lt hle
  have hfit := le_classSz fsz
  have hp := h.pooled hc hy
  obtain ⟨r, hscan, hiff⟩ := hp.pool.scanDel rfl hpos hfit (add64_eq hsum)
  by_cases hdata : ∃ d ∈ y.chunks b (classOf fsz), Chunk.Data d fadrs fsz
  · rw [hiff.mpr hdata] at hscan
    obtain ⟨d, hd, hin⟩ := hdata
    have hne : fadrs ≠ 0 := by
      have hlo := (hp.krnl.bounds hd hin.has).1
      have hmap : 0 < krnlMapVirtaddressStart := by decide
      omega
    rw [kmsobDelete_found h hpos hle hy hne hscan]
    exact if_congr (hp.pool.scanDfsz hp.krnl hc hpos hd hin) rfl rfl
  · have hr : r = false := Bool.eq_false_iff.mpr fun he => hdata (hiff.mp he)
    have hretn := onkoblstRetnDelkmsob_one hpos hp.emplst hp.emnr hp.cahe hscan
    unfold kmsobDelete kmsobDeleteCore
    rw [h.onmsz hpos hle]
    dsimp only
    rw [hretn, hr, if_neg fun hslot => hdata (slot_data hfit hslot)]
    exact ite_self _

/-- The bytes of a slot do not wrap. -/
theorem Pooled.slot_lt {used : List Nat} (hp : Pooled b m c used y) (hle : fsz ≤ classSz c)
    (hslot : fadrs ∈ allSlots (classSz c) (y.chunks b c)) : fadrs + fsz < wordMod := by
  obtain ⟨d, hd, hin⟩ := slot_data hle hslot
  have hlt := hin.lt hp.krnl hd
  have hstart : krnlMapVirtaddressStart = 0xffff800000000000 := rfl
  have hmax : krnlMapPhyaddressEnd = 0x400000 * 4096 := rfl
  have hword : wordMod = 2 ^ 64 := rfl
  omega

theorem dropLive_of_ne (a i : Nat) (hi : i ≠ c) : liveOf i (dropLive a c live) = liveOf i live := by
  rw [liveOf_dropLive, if_neg hi]

theorem dropLive_self (a : Nat) : liveOf c (dropLive a c live) = (liveOf c live).erase a := by
  rw [liveOf_dropLive, if_pos rfl]

/-- An object in use is back on the list. -/
theorem KmOk.put (h : KmOk b m others live lay) (hc : c < koblstMax) (hy : lay c = some y)
    (hlive : fadrs ∈ liveOf c live) :
    KmOk b (m.setKmsob (b.vaddr y.first) ((m.kmsob (b.vaddr y.first)).putObj fadrs)) others
      (dropLive fadrs c live) lay := by
  have hp := h.pooled hc hy
  have hmm := h.cut hc
  rw [hy] at hmm
  have hpool : PoolOk b c y ((m.kmsob (b.vaddr y.first)).putObj fadrs)
      (liveOf c (dropLive fadrs c live)) := by
    rw [dropLive_self]
    exact hp.pool.put hlive
  have hok := h.write hc hy rfl hmm (SamePages.refl _) hpool hp.krnl (dropLive_of_ne fadrs)
    fun o ho => h.sizes o (List.mem_of_mem_eraseP ho)
  rw [← hy, Function.update_eq_self] at hok
  exact hok

/-- There is a pool where a class has one. -/
theorem KmOk.msobnr_pos (h : KmOk b m others live lay) (hc : c < koblstMax) (hy : lay c = some y) :
    1 ≤ m.mgr.ksMsobnr := by
  have hcount := poolCount_update lay hc none
  rw [hy] at hcount
  rw [h.msobnr]
  simp only [Option.toList_none, Option.toList_some, List.length_nil, List.length_singleton]
    at hcount
  omega

/-- **`_destroy_kmsob_core`** leaves the class without a pool. -/
theorem KmOk.destroy (h : KmOk b m others live lay) (hc : c < koblstMax) (hy : lay c = some y)
    (hnil : liveOf c live = []) : ∃ m', destroyKmsobCore m c (b.vaddr y.first) = .ok (m', true) ∧
      KmOk b m' others live (Function.update lay c none) := by
  have hp := h.pooled hc hy
  have hmm := h.cut hc
  rw [hy] at hmm
  obtain ⟨mm', hrun, hinv, hsame⟩ := hp.pool.destroy hmm
  refine ⟨_, hrun, ?_⟩
  have hone : (lay c).toList.length = 1 := by rw [hy]; rfl
  have hnr := h.msobnr_pos hc hy
  have hnew : ({ m.unlink c (b.vaddr y.first) with mm := mm' } : Kmem).mgr.ksMsoblst c =
      koblstInit (classSz c) := by
    rw [unlink_koblst, hp.emplst, hp.emnr, hp.sz, List.erase_cons_head]
    cases hche : (m.mgr.ksMsoblst c).olCahe with
    | none => rfl
    | some a => rw [hp.cahe a hche, if_pos rfl]; rfl
  refine h.change hc hinv hsame (fun i hi => unlink_koblst_of_ne m _ hi) (fun _ _ => rfl)
    (fun _ _ => rfl) ⟨hnew, hnil⟩ ?_ (fun a ha => ?_) h.sizes
  · show m.mgr.ksMsobnr - 1 + _ = m.mgr.ksMsobnr + 0
    omega
  · obtain ⟨ha, hne⟩ := unlink_msobche ha
    refine Or.inl ⟨ha, fun z hz => ?_⟩
    rw [hy] at hz
    cases hz
    exact hne

/-- **`_destroy_kmsob`** of a pool with an object in use. -/
theorem destroyKmsob_busy {kmsp : Nat} (hnr : 1 ≤ m.mgr.ksMsobnr)
    (hemnr : 1 ≤ (m.mgr.ksMsoblst c).olEmnr)
    (hobj : (m.kmsob kmsp).soFobjnr < (m.kmsob kmsp).soMobjnr) :
    destroyKmsob m c kmsp = .ok (kmsobUpdataCache m c kmsp, true) := by
  unfold destroyKmsob scanFreekmsobIsok
  rw [if_neg (by omega), if_neg (by omega), if_neg (by omega)]
  rfl

/-- **`_destroy_kmsob`** of a pool that is all free. -/
theorem destroyKmsob_idle {kmsp : Nat} (hnr : 1 ≤ m.mgr.ksMsobnr)
    (hemnr : 1 ≤ (m.mgr.ksMsoblst c).olEmnr)
    (hobj : (m.kmsob kmsp).soMobjnr = (m.kmsob kmsp).soFobjnr) :
    destroyKmsob m c kmsp = destroyKmsobCore m c kmsp := by
  unfold destroyKmsob scanFreekmsobIsok
  rw [if_neg (by omega), if_neg (by omega), if_pos hobj]
  rfl

/-- **`_destroy_kmsob`** of a pool that has got an object back. -/
theorem KmOk.destroyed (h : KmOk b m others live lay) (hc : c < koblstMax) (hy : lay c = some y)
    (hused : ∀ i < koblstMax, i ≠ c → ∀ z, lay i = some z → liveOf i live ≠ []) : ∃ m' lay',
      destroyKmsob m c (b.vaddr y.first) = .ok (m', true) ∧ KmInv b m' others live lay' ∧
        (∀ i, i ≠ c → lay' i = lay i) ∧ (liveOf c live ≠ [] → lay' c = lay c) := by
  have hp := h.pooled hc hy
  have hcount := hp.pool.mobjnr_eq
  have hnr := h.msobnr_pos hc hy
  by_cases hnil : liveOf c live = []
  · rw [hnil, List.length_nil, Nat.add_zero] at hcount
    rw [destroyKmsob_idle hnr (Nat.le_of_eq hp.emnr.symm) hcount]
    obtain ⟨m', hrun, hok⟩ := h.destroy hc hy hnil
    refine ⟨m', _, hrun, ⟨hok, fun i hi z hz => ?_⟩, fun i hic => Function.update_of_ne hic _ _,
      fun hne => absurd hnil hne⟩
    by_cases hic : i = c
    · rw [hic, Function.update_self] at hz
      cases hz
    · rw [Function.update_of_ne hic] at hz
      exact hused i hi hic z hz
  · have hlen := List.length_pos_iff.mpr hnil
    rw [destroyKmsob_busy hnr (Nat.le_of_eq hp.emnr.symm) (by omega)]
    refine ⟨_, lay, rfl, ⟨h.cache hc hy, fun i hi z hz => ?_⟩, fun _ _ => rfl, fun _ => rfl⟩
    by_cases hic : i = c
    · exact hic ▸ hnil
    · exact hused i hi hic z hz

/-- **`kmsob_delete` takes** every object in use.  Only the pool of the class may change, and
it stays as long as it has objects in use. -/
theorem kmsobDelete_live (h : KmInv b m others live lay) (hpos : 1 ≤ fsz) (hle : fsz ≤ 2048)
    (hlive : fadrs ∈ liveOf (classOf fsz) live) : ∃ m' lay',
      kmsobDelete m fadrs fsz = .ok (m', true) ∧
        KmInv b m' others (dropLive fadrs (classOf fsz) live) lay' ∧
        (∀ i, i ≠ classOf fsz → lay' i = lay i) ∧
        (liveOf (classOf fsz) (dropLive fadrs (classOf fsz) live) ≠ [] →
          lay' (classOf fsz) = lay (classOf fsz)) := by
  have hc := classOf_lt hle
  cases hy : lay (classOf fsz) with
  | none =>
      rw [(h.empty hc hy).2] at hlive
      cases hlive
  | some y =>
      have hslot := (h.pooled hc hy).pool.mem_allSlots_iff.mpr (Or.inr hlive)
      have hsum := (h.pooled hc hy).slot_lt (le_classSz fsz) hslot
      rw [kmsobDelete_eq h hpos hle hy hsum, if_pos hslot]
      obtain ⟨m', lay', hrun, hinv, hothers, hkept⟩ := (h.put hc hy hlive).destroyed hc hy
        fun i hi hic z hz => by
          rw [dropLive_of_ne fadrs i hic]
          exact h.used i hi z hz
      exact ⟨m', lay', hrun, hinv, hothers, fun hne => (hkept hne).trans hy⟩

/-- A free object of the class, as its pool lists it. -/
def FreeSlot (m : Kmem) (c fadrs : Nat) : Prop :=
  ∃ kmsp ∈ (m.mgr.ksMsoblst c).olEmplst, fadrs ∈ (m.kmsob kmsp).soFrelst

theorem freeSlot_iff (h : KmOk b m others live lay) (hc : c < koblstMax) (hy : lay c = some y) :
    FreeSlot m c fadrs ↔ fadrs ∈ (m.kmsob (b.vaddr y.first)).soFrelst := by
  unfold FreeSlot
  rw [(h.pooled hc hy).emplst]
  simp only [List.mem_singleton, exists_eq_left]

/-- The bytes from the address on wrap, and it is a multiple of the object size away from the
first slot of a pool of the class. -/
def WrapSlot (m : Kmem) (c fadrs fsz : Nat) : Prop :=
  wordMod < fadrs + fsz ∧ ∃ kmsp ∈ (m.mgr.ksMsoblst c).olEmplst,
    (fadrs - (kmsp + sizeofKmsob)) % (m.kmsob kmsp).soObjsz = 0

theorem wrapSlot_iff (h : KmOk b m others live lay) (hc : c < koblstMax) (hy : lay c = some y) :
    WrapSlot m c fadrs fsz ↔ wordMod < fadrs + fsz ∧
      (fadrs - (b.vaddr y.first + sizeofKmsob)) % classSz c = 0 := by
  have hp := h.pooled hc hy
  unfold WrapSlot
  rw [hp.emplst]
  simp only [List.mem_singleton, exists_eq_left, hp.pool.objsz]

/-- **`kmsob_delete`** of an address whose bytes wrap. -/
theorem kmsobDelete_wrap (h : KmInv b m others live lay) (hpos : 1 ≤ fsz) (hle : fsz ≤ 2048)
    (hy : lay (classOf fsz) = some y) (hadr : fadrs < wordMod) (hwrap : wordMod ≤ fadrs + fsz) :
    kmsobDelete m fadrs fsz =
      if scanDfszkmsobIsok (m.kmsob (b.vaddr y.first)) (b.vaddr y.first) fadrs fsz then
        destroyKmsob (m.setKmsob (b.vaddr y.first) ((m.kmsob (b.vaddr y.first)).putObj fadrs))
          (classOf fsz) (b.vaddr y.first)
      else .ok (m, false) := by
  have hc := classOf_lt hle
  have hp := h.pooled hc hy
  have hword : wordMod = 2 ^ 64 := rfl
  exact kmsobDelete_found h hpos hle hy (by omega)
    (hp.pool.scanDel_wrap rfl hp.krnl hc hpos (le_classSz fsz) hadr hwrap)

/-- **`kmsob_delete` refuses** what is neither in use nor free, unless its bytes wrap. -/
theorem kmsobDelete_refused (h : KmInv b m others live lay) (hpos : 1 ≤ fsz) (hle : fsz ≤ 2048)
    (hadr : fadrs < wordMod) (hlive : fadrs ∉ liveOf (classOf fsz) live)
    (hfree : ¬ FreeSlot m (classOf fsz) fadrs) (hno : ¬ WrapSlot m (classOf fsz) fadrs fsz) :
    kmsobDelete m fadrs fsz = .ok (m, false) := by
  have hc := classOf_lt hle
  cases hy : lay (classOf fsz) with
  | none => exact kmsobDelete_none h.toKmOk hpos hle hy
  | some y =>
      have hp := h.pooled hc hy
      rw [freeSlot_iff h.toKmOk hc hy] at hfree
      rw [wrapSlot_iff h.toKmOk hc hy] at hno
      by_cases hsum : fadrs + fsz < wordMod
      · rw [kmsobDelete_eq h hpos hle hy hsum, if_neg]
        rw [hp.pool.mem_allSlots_iff]
        exact fun hor => hor.elim hfree hlive
      · have hwrap := Nat.le_of_not_lt hsum
        rw [kmsobDelete_wrap h hpos hle hy hadr hwrap, if_neg]
        rw [hp.pool.scanDfsz_wrap hp.krnl hc hpos (le_classSz fsz) hadr hwrap]
        exact hno

/-- A pool with its block is not refused when it is destroyed. -/
theorem destroyKmsob_ne {kmsp : Nat} {m' : Kmem} (hnr : 1 ≤ m.mgr.ksMsobnr)
    (hemnr : 1 ≤ (m.mgr.ksMsoblst c).olEmnr) (hpnr : 1 ≤ (m.kmsob kmsp).soMc.mcKmobinpnr)
    (hlst : (m.kmsob kmsp).soMc.mcKmobinlst ≠ []) : destroyKmsob m c kmsp ≠ .ok (m', false) := by
  intro hrun
  unfold destroyKmsob at hrun
  rw [if_neg (by omega)] at hrun
  split at hrun
  · cases hrun
  · cases hrun
  · have hmc : ¬ ((m.kmsob kmsp).soMc.mcKmobinpnr < 1 ∨ (m.kmsob kmsp).soMc.mcKmobinlst = []) :=
      fun hor => hor.elim (fun hlt => absurd hpnr (by omega)) hlst
    unfold destroyKmsobCore at hrun
    dsimp only at hrun
    rw [if_neg hmc] at hrun
    split at hrun
    · cases hrun
    · split at hrun
      · cases hrun
      · cases hrun

/-- A pool in order is not refused with one more object on its list. -/
theorem KmInv.put_ne {m' : Kmem} (h : KmInv b m others live lay) (hc : c < koblstMax)
    (hy : lay c = some y) :
    destroyKmsob (m.setKmsob (b.vaddr y.first) ((m.kmsob (b.vaddr y.first)).putObj fadrs)) c
      (b.vaddr y.first) ≠ .ok (m', false) := by
  have hp := h.pooled hc hy
  refine destroyKmsob_ne (h.msobnr_pos hc hy) (Nat.le_of_eq hp.emnr.symm) ?_ ?_
  · rw [setKmsob_self]
    show 1 ≤ (m.kmsob (b.vaddr y.first)).soMc.mcKmobinpnr
    rw [hp.pool.kmobinpnr]
    rcases classPages_cases c with hn | hn | hn <;> omega
  · rw [setKmsob_self]
    show (m.kmsob (b.vaddr y.first)).soMc.mcKmobinlst ≠ []
    rw [hp.pool.kmobinlst]
    exact List.cons_ne_nil _ _

/-- **`kmsob_delete` does not refuse** an object that is free already. -/
theorem kmsobDelete_free (h : KmInv b m others live lay) (hpos : 1 ≤ fsz) (hle : fsz ≤ 2048)
    (hfree : FreeSlot m (classOf fsz) fadrs) :
    fadrs ∉ liveOf (classOf fsz) live ∧ ∀ m', kmsobDelete m fadrs fsz ≠ .ok (m', false) := by
  have hc := classOf_lt hle
  cases hy : lay (classOf fsz) with
  | none =>
      obtain ⟨kmsp, hmem, -⟩ := hfree
      rw [(h.empty hc hy).1] at hmem
      cases hmem
  | some y =>
      have hp := h.pooled hc hy
      rw [freeSlot_iff h.toKmOk hc hy] at hfree
      have hslot := hp.pool.mem_allSlots_iff.mpr (Or.inl hfree)
      refine ⟨hp.pool.not_both hfree, fun m' => ?_⟩
      rw [kmsobDelete_eq h hpos hle hy (hp.slot_lt (le_classSz fsz) hslot), if_pos hslot]
      exact h.put_ne hc hy

/-- **`kmsob_delete` does not refuse** such an address whose bytes wrap. -/
theorem kmsobDelete_wrapped (h : KmInv b m others live lay) (hpos : 1 ≤ fsz) (hle : fsz ≤ 2048)
    (hadr : fadrs < wordMod) (hno : WrapSlot m (classOf fsz) fadrs fsz) :
    fadrs ∉ liveOf (classOf fsz) live ∧ ∀ m', kmsobDelete m fadrs fsz ≠ .ok (m', false) := by
  have hc := classOf_lt hle
  cases hy : lay (classOf fsz) with
  | none =>
      obtain ⟨-, kmsp, hmem, -⟩ := hno
      rw [(h.empty hc hy).1] at hmem
      cases hmem
  | some y =>
      have hp := h.pooled hc hy
      rw [wrapSlot_iff h.toKmOk hc hy] at hno
      refine ⟨fun hlive => ?_, fun m' => ?_⟩
      · have hlt := hp.slot_lt (le_classSz fsz) (hp.pool.mem_allSlots_iff.mpr (Or.inr hlive))
        omega
      · have hwrap := Nat.le_of_lt hno.1
        rw [kmsobDelete_wrap h hpos hle hy hadr hwrap, if_pos]
        · exact h.put_ne hc hy
        · exact (hp.pool.scanDfsz_wrap hp.krnl hc hpos (le_classSz fsz) hadr hwrap).mpr hno

end Delete

end Cosmos.Hal
