import Cosmos.Hal.Kmsob
import Cosmos.Hal.MemareaInit
import Cosmos.Lib.Slab

/-!
# One object pool

`PoolOk` says that a `kmsob_t` is in order: its first block and its extension
blocks are blocks of the kernel area, the two kinds of headers say where they
are, the buckets of `so_mc` list them, and the free list together with the
objects in use are all slots of all blocks.  Each operation on one pool (create,
extend, take an object, find the pool of an object, put an object back) gets one
lemma.
-/

namespace Cosmos.Hal

open Cosmos.Lib.Word64 Cosmos.Lib.Cover Cosmos.Lib.Slab

/-! ## Blocks of the kernel area -/

/-- Virtual address of a page of the array. -/
def BootArray.vaddr (b : BootArray) (i : Nat) : Nat :=
  b.padrs i * pagesize + krnlMapVirtaddressStart

/-- `n` pages of the kernel area, one after the other. -/
structure KrnlBlk (b : BootArray) (s n : Nat) : Prop where
  pos : 0 < n
  le : s + n ≤ b.msanr
  run : ∀ i < n, b.padrs (s + i) = b.padrs s + i
  krnl : ∀ i < n, b.padrs (s + i) < 0x400000

/-- The bytes of a block with a header. -/
def blkChunk (b : BootArray) (hdr n s : Nat) : Chunk where
  start := b.vaddr s
  vend := b.vaddr s + n * pagesize - 1
  hdr := hdr

section Block

variable {b : BootArray} {s n : Nat}

/-- An outstanding block of the kernel area. -/
theorem KrnlBlk.of_out {mm : Memgrob} {out : List Seg} (h : MmInv mm out) (hs : SameArray b mm)
    (hmem : Seg.mk s n ∈ out) (hblk : OutBlk mm.mem.msadscstat .krnl s n) : KrnlBlk b s n := by
  have hpos : 0 < n := h.lens _ hmem
  have hend : s + n ≤ mm.moMsanr := h.mem.held_end_le hmem hpos
  rw [hs.msanr] at hend
  refine ⟨hpos, hend, fun i hi => ?_, fun i hi => ?_⟩
  · rw [← hs.padrs (s + i) (by omega), ← hs.padrs s (by omega)]
    exact (hblk.shape i hi).2
  · have hty := hs.marty (s + i) (by omega)
    rw [(hblk.shape i hi).1] at hty
    unfold padrsTy at hty
    by_contra hge
    rw [if_neg (by omega), if_neg hge] at hty
    cases hty

theorem KrnlBlk.vaddr_lt (h : KrnlBlk b s n) :
    krnlMapVirtaddressStart ≤ b.vaddr s ∧
      b.vaddr s + n * pagesize ≤ krnlMapVirtaddressStart + krnlMapPhyaddressEnd := by
  have hpos := h.pos
  have hlast := h.krnl (n - 1) (by omega)
  have hmax : krnlMapPhyaddressEnd = 0x400000 * 4096 := rfl
  rw [h.run (n - 1) (by omega)] at hlast
  unfold BootArray.vaddr
  simp only [pagesize]
  constructor
  · omega
  · omega

/-- The addresses `msadsc_ret_addr` and `phyadr_to_viradr` compute for a block. -/
theorem KrnlBlk.viradr {mm : Memgrob} (h : KrnlBlk b s n) (hs : SameArray b mm) :
    phyadrToViradr (msadscRetAddr (mm.mem.msadscstat s)) = .ok (b.vaddr s) ∧
      phyadrToViradr (msadscRetAddr (mm.mem.msadscstat s) + n * pagesize - 1)
        = .ok (b.vaddr s + n * pagesize - 1) := by
  have hpos := h.pos
  have hle := h.le
  have hend := h.vaddr_lt.2
  unfold BootArray.vaddr at hend
  unfold msadscRetAddr phyadrToViradr BootArray.vaddr
  rw [hs.padrs s (by omega)]
  simp only [pagesize] at hend ⊢
  rw [if_neg (by omega), if_neg (by omega)]
  refine ⟨rfl, congrArg Except.ok ?_⟩
  omega

/-- Different pages have different addresses. -/
theorem vaddr_inj {t : Nat} (hs : s < b.msanr) (ht : t < b.msanr)
    (h : b.vaddr s = b.vaddr t) : s = t := by
  unfold BootArray.vaddr at h
  simp only [pagesize] at h
  exact b.padrs_inj s hs t ht (by omega)

/-- Blocks that share no page share no byte. -/
theorem KrnlBlk.apart {t m : Nat} (h : KrnlBlk b s n) (h' : KrnlBlk b t m)
    (hap : ∀ i, (Seg.mk s n).Has i → ¬ (Seg.mk t m).Has i) (hdr hdr' : Nat) :
    (blkChunk b hdr n s).Apart (blkChunk b hdr' m t) := by
  intro x hx hy
  obtain ⟨hx1, hx2⟩ := hx
  obtain ⟨hy1, hy2⟩ := hy
  simp only [blkChunk, BootArray.vaddr, pagesize] at hx1 hx2 hy1 hy2
  have hpos := h.pos
  have hpos' := h'.pos
  -- the page of byte `x`, counted from both blocks
  obtain ⟨i, hi⟩ : ∃ i, (x - krnlMapVirtaddressStart) / 4096 = b.padrs s + i :=
    Nat.exists_eq_add_of_le (by omega)
  obtain ⟨j, hj⟩ : ∃ j, (x - krnlMapVirtaddressStart) / 4096 = b.padrs t + j :=
    Nat.exists_eq_add_of_le (by omega)
  have hin : i < n := by omega
  have hjm : j < m := by omega
  have hle := h.le
  have hle' := h'.le
  have heq : s + i = t + j := by
    refine b.padrs_inj _ (by omega) _ (by omega) ?_
    rw [h.run i hin, h'.run j hjm, ← hi, hj]
  refine hap (s + i) ⟨by simp, by simp [hin]⟩ ⟨?_, ?_⟩
  · simp only
    omega
  · simp only
    omega

end Block

/-! ## Size classes -/

/-- Object size of a class. -/
def classSz (c : Nat) : Nat := 32 * (c + 1)

/-- Pages of each block of a class. -/
def classPages (c : Nat) : Nat := kmsobPages (classSz c)

/-- The class of a request. -/
def classOf (msz : Nat) : Nat := (msz - 1) / 32

theorem classSz_pos (c : Nat) : 0 < classSz c := Nat.mul_pos (by decide) (Nat.succ_pos c)

theorem classOf_lt {msz : Nat} (h : msz ≤ 2048) : classOf msz < koblstMax := by
  unfold classOf koblstMax
  omega

theorem le_classSz (msz : Nat) : msz ≤ classSz (classOf msz) := by
  unfold classSz classOf
  omega

theorem classPages_cases (c : Nat) : classPages c = 1 ∨ classPages c = 2 ∨ classPages c = 4 := by
  unfold classPages kmsobPages
  split
  · exact Or.inr (Or.inr rfl)
  · split
    · exact Or.inr (Or.inl rfl)
    · exact Or.inl rfl

/-- The allocator hands out exactly the pages a class asks for. -/
theorem two_pow_classPages (c : Nat) : 2 ^ retnDivoder (classPages c) = classPages c := by
  have h0 : retnDivoder 1 = 0 := retnDivoder_two_pow 0
  have h1 : retnDivoder 2 = 1 := retnDivoder_two_pow 1
  have h2 : retnDivoder 4 = 2 := retnDivoder_two_pow 2
  rcases classPages_cases c with h | h | h
  · rw [h, h0]
    rfl
  · rw [h, h1]
    rfl
  · rw [h, h2]
    rfl

/-- The bucket for the extension blocks of a class. -/
theorem retnMscidx_classPages (c : Nat) :
    ∃ j < msclstMax, retnMscidx (classPages c) = j ∧ 2 ^ j = classPages c := by
  rcases classPages_cases c with h | h | h
  · exact ⟨0, by decide, by rw [h]; decide, h.symm⟩
  · exact ⟨1, by decide, by rw [h]; decide, h.symm⟩
  · exact ⟨2, by decide, by rw [h]; decide, h.symm⟩

/-- Every block has room for its header and an object. -/
theorem class_room {c : Nat} (hc : c < koblstMax) {hdr : Nat} (hhdr : hdr ≤ sizeofKmsob) :
    hdr + classSz c < classPages c * pagesize := by
  have hle : c < 64 := hc
  have hhdr' : hdr ≤ 368 := hhdr
  unfold classPages kmsobPages classSz
  simp only [pagesize]
  split
  · omega
  · split <;> omega

theorem slots_pos {b : BootArray} {c s hdr : Nat} (hc : c < koblstMax)
    (hhdr : hdr ≤ sizeofKmsob) :
    0 < ((blkChunk b hdr (classPages c) s).slots (classSz c)).length := by
  have hroom := class_room hc hhdr
  unfold Chunk.slots blkChunk
  rw [slots_length]
  refine Nat.div_pos ?_ (classSz_pos c)
  simp only
  omega

/-! ## The invariant of a pool -/

/-- The page blocks of a pool: first descriptors of the block with the `kmsob_t`
and of the extension blocks, the last one first. -/
structure Lay where
  first : Nat
  exts : List Nat

/-- All blocks of a layout. -/
def Lay.blocks (c : Nat) (y : Lay) : List Seg :=
  (y.first :: y.exts).map fun s => ⟨s, classPages c⟩

/-- The memory of a layout, with the headers. -/
def Lay.chunks (b : BootArray) (c : Nat) (y : Lay) : List Chunk :=
  blkChunk b sizeofKmsob (classPages c) y.first
    :: y.exts.map (blkChunk b sizeofKmbext (classPages c))

/-- The header of an extension block. -/
def extOf (b : BootArray) (c kmsp s : Nat) : Kmbext where
  mtVstat := b.vaddr s
  mtVend := b.vaddr s + classPages c * pagesize - 1
  mtKmsb := kmsp
  mtMobjnr := ((blkChunk b sizeofKmbext (classPages c) s).slots (classSz c)).length

/-- **A pool of class `c` in order**, with layout `y` and the objects `live` in
use. -/
structure PoolOk (b : BootArray) (c : Nat) (y : Lay) (k : Kmsob) (live : List Nat) : Prop where
  vstat : k.soVstat = b.vaddr y.first
  vend : k.soVend = b.vaddr y.first + classPages c * pagesize - 1
  objsz : k.soObjsz = classSz c
  mextlst : k.soMextlst = y.exts.map (extOf b c (b.vaddr y.first))
  mextnr : k.soMextnr = y.exts.length
  kmobinlst : k.soMc.mcKmobinlst = [y.first]
  kmobinpnr : k.soMc.mcKmobinpnr = classPages c
  lst : ∀ j, k.soMc.mcLst j
    = if 2 ^ j = classPages c then ⟨y.exts.length, 2 ^ j, y.exts⟩ else msclstInit (2 ^ j)
  slab : Served (classSz c) (y.chunks b c) k.soFrelst live
  fobjnr : k.soFobjnr = k.soFrelst.length
  mobjnr : k.soMobjnr = (allSlots (classSz c) (y.chunks b c)).length

/-- The carving loop appends the slots of the range, the last one first. -/
theorem carveLoop_eq {objsz : Nat} (hpos : 0 < objsz) (vend n ap : Nat) (l : List Nat) (nr : Nat)
    (hn : vend - ap ≤ n) :
    carveLoop objsz vend n ap (l, nr)
      = ((slots objsz ap vend).reverse ++ l, nr + (slots objsz ap vend).length) := by
  induction n generalizing ap l nr with
  | zero =>
      rw [slots_nil hpos (by omega)]
      rfl
  | succ n ih =>
      rw [carveLoop]
      by_cases hlt : ap < vend
      · rw [if_pos hlt]
        by_cases hfit : ap + objsz ≤ vend
        · rw [if_pos hfit, ih _ _ _ (by omega), slots_cons hpos hfit]
          simp only [List.reverse_cons, List.append_assoc, List.cons_append, List.nil_append,
            List.length_cons]
          rw [Nat.add_assoc, Nat.add_comm 1]
        · rw [if_neg hfit, ih _ _ _ (by omega), slots_nil hpos (by omega),
            slots_nil hpos (by omega)]
      · rw [if_neg hlt, slots_nil hpos (by omega)]
        rfl

section Pool

variable {b : BootArray} {c : Nat}

/-- **`_create_init_kmsob`** makes a pool with all objects free. -/
theorem createInitKmsob_spec (hc : c < koblstMax) (s : Nat) :
    ∃ k, createInitKmsob (classSz c) (b.vaddr s) (b.vaddr s + classPages c * pagesize - 1) s
        (classPages c) = some k ∧ PoolOk b c ⟨s, []⟩ k [] := by
  have hpages := classPages_cases c
  have hroom := class_room hc (Nat.le_refl sizeofKmsob)
  have hsz : 32 ≤ classSz c := Nat.le_mul_of_pos_right 32 (Nat.succ_pos c)
  have hpg : 4096 ≤ classPages c * pagesize := by
    simp only [pagesize]
    omega
  simp only [sizeofKmsob] at hroom
  unfold createInitKmsob
  simp only [sizeofFreobjh, sizeofKmsob]
  rw [if_neg (by omega), if_neg (by omega), if_neg (by simp only [pagesize] at hpg ⊢; omega),
    if_neg (by omega), carveLoop_eq (classSz_pos c) _ _ _ _ _ (Nat.le_refl _)]
  refine ⟨_, rfl, ?_⟩
  have hslots : allSlots (classSz c) (Lay.chunks b c ⟨s, []⟩)
      = slots (classSz c) (b.vaddr s + 368) (b.vaddr s + classPages c * pagesize - 1) := by
    unfold Lay.chunks
    rw [List.map_nil, allSlots_cons, allSlots_nil, List.append_nil]
    rfl
  refine {
    vstat := rfl
    vend := rfl
    objsz := rfl
    mextlst := rfl
    mextnr := rfl
    kmobinlst := rfl
    kmobinpnr := rfl
    lst := fun j => ?_
    slab := ⟨classSz_pos c, List.pairwise_singleton _ _, ?_⟩
    fobjnr := ?_
    mobjnr := ?_ }
  · simp only [msomdcInit, List.length_nil]
    split <;> rfl
  · rw [hslots, List.append_nil, List.append_nil]
    exact List.reverse_perm _
  · simp
  · rw [hslots]
    simp

variable {y : Lay} {k : Kmsob} {live : List Nat}

/-- **Extending** a pool by a block. -/
theorem PoolOk.extend (h : PoolOk b c y k live) {s j : Nat} (hj : 2 ^ j = classPages c)
    (hap : ∀ d ∈ y.chunks b c, (blkChunk b sizeofKmbext (classPages c) s).Apart d) :
    PoolOk b c ⟨y.first, s :: y.exts⟩
      (k.extend (b.vaddr y.first) (b.vaddr s) (b.vaddr s + classPages c * pagesize - 1) s j)
      live := by
  have hcarve : carveLoop k.soObjsz (b.vaddr s + classPages c * pagesize - 1)
      (b.vaddr s + classPages c * pagesize - 1 - (b.vaddr s + sizeofKmbext))
      (b.vaddr s + sizeofKmbext) (k.soFrelst, 0)
      = (((blkChunk b sizeofKmbext (classPages c) s).slots (classSz c)).reverse ++ k.soFrelst,
        0 + ((blkChunk b sizeofKmbext (classPages c) s).slots (classSz c)).length) := by
    rw [h.objsz]
    exact carveLoop_eq (classSz_pos c) _ _ _ _ _ (Nat.le_refl _)
  have hperm : (Lay.chunks b c ⟨y.first, s :: y.exts⟩).Perm
      (blkChunk b sizeofKmbext (classPages c) s :: y.chunks b c) := List.Perm.swap _ _ _
  unfold Kmsob.extend
  simp only [hcarve, Nat.zero_add]
  refine {
    vstat := h.vstat
    vend := h.vend
    objsz := h.objsz
    mextlst := ?_
    mextnr := ?_
    kmobinlst := h.kmobinlst
    kmobinpnr := h.kmobinpnr
    lst := fun i => ?_
    slab := (h.slab.grow hap).congr hperm (List.Perm.refl _)
    fobjnr := ?_
    mobjnr := ?_ }
  · rw [List.map_cons, h.mextlst]
    rfl
  · simp only
    rw [List.length_cons, h.mextnr]
  · by_cases hij : i = j
    · subst hij
      simp only
      rw [Function.update_self, h.lst i, if_pos hj, if_pos hj]
      rfl
    · have hne : ¬ 2 ^ i = classPages c := fun he =>
        hij (Nat.pow_right_injective (Nat.le_refl 2) (he.trans hj.symm))
      simp only
      rw [Function.update_of_ne hij, h.lst i, if_neg hne, if_neg hne]
  · simp only
    rw [List.length_append, List.length_reverse, h.fobjnr, Nat.add_comm]
  · have hlen : (allSlots (classSz c) (Lay.chunks b c ⟨y.first, s :: y.exts⟩)).length
        = (allSlots (classSz c)
          (blkChunk b sizeofKmbext (classPages c) s :: y.chunks b c)).length :=
      (hperm.flatMap_right _).length_eq
    simp only
    rw [hlen, allSlots_cons, List.length_append, h.mobjnr, Nat.add_comm]

end Pool

end Cosmos.Hal
