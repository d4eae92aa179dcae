import Cosmos.Hal.KmsobPool
import Cosmos.Hal.MemdivmerRun

/-!
# Operations on one object pool

Each function of `kmsob.c` that works on one pool, from a pool in order.  The two scans that
look for an object compare different ranges, but the blocks of a pool do not meet, so both
agree on the block an address is in.  What they cannot tell apart are the slots in use and the
free ones.

## Main results

* `PoolOk.newOp`, `PoolOk.put` : an object is taken, and put back.
* `PoolOk.delOp` : an address is accepted exactly if it is a slot of the pool, in use or not.
* `PoolOk.destroy` : all blocks of the pool go back.
-/

namespace Cosmos.Hal

open Cosmos.Lib.Word64 Cosmos.Lib.Cover Cosmos.Lib.Slab

/-- All blocks of a pool are blocks of the kernel area. -/
def Lay.Krnl (b : BootArray) (c : Nat) (y : Lay) : Prop :=
  ∀ s ∈ y.first :: y.exts, KrnlBlk b s (classPages c)

section Chunks

variable {b : BootArray} {c : Nat} {y : Lay} {k : Kmsob} {live : List Nat}

/-- A chunk of a layout is a block with one of the two headers. -/
theorem Lay.mem_chunks {d : Chunk} (hd : d ∈ y.chunks b c) : ∃ s ∈ y.first :: y.exts,
    ∃ hdr ≤ sizeofKmsob, d = blkChunk b hdr (classPages c) s := by
  rcases List.mem_cons.mp hd with rfl | hd
  · exact ⟨y.first, List.mem_cons_self, _, Nat.le_refl _, rfl⟩
  · obtain ⟨s, hs, rfl⟩ := List.mem_map.mp hd
    exact ⟨s, List.mem_cons_of_mem _ hs, _, by decide, rfl⟩

/-- All bytes of a pool are in the memory that the kernel maps. -/
theorem Lay.Krnl.bounds (hy : y.Krnl b c) {d : Chunk} (hd : d ∈ y.chunks b c) {x : Nat}
    (hx : d.Has x) : krnlMapVirtaddressStart ≤ x ∧
      x < krnlMapVirtaddressStart + krnlMapPhyaddressEnd := by
  obtain ⟨s, hs, hdr, -, rfl⟩ := Lay.mem_chunks hd
  obtain ⟨hlo, hhi⟩ := (hy s hs).vaddr_lt
  have hpos : 0 < classPages c * pagesize := Nat.mul_pos (hy s hs).pos (by decide)
  obtain ⟨h1, h2⟩ := hx
  simp only [blkChunk] at h1 h2
  omega

/-- There are fewer slots than bytes. -/
theorem PoolOk.slots_le (h : PoolOk b c y k live) (hy : y.Krnl b c) :
    (allSlots (classSz c) (y.chunks b c)).length ≤ krnlMapPhyaddressEnd := by
  have hle := length_le_of_range krnlMapVirtaddressStart
    (krnlMapVirtaddressStart + krnlMapPhyaddressEnd) (allSlots_nodup h.slab.pos h.slab.apart)
    fun x hx => by
      obtain ⟨d, hd, hxd⟩ := mem_allSlots.mp hx
      exact hy.bounds hd (Chunk.slot_has h.slab.pos hxd)
  omega

/-- Every chunk of a layout has a slot. -/
theorem Lay.chunks_le (hc : c < koblstMax) :
    (y.chunks b c).length ≤ (allSlots (classSz c) (y.chunks b c)).length :=
  length_le_allSlots fun d hd => by
    obtain ⟨s, -, hdr, hhdr, rfl⟩ := Lay.mem_chunks hd
    exact slots_pos hc hhdr

/-- No more extension blocks than slots. -/
theorem Lay.exts_le (hc : c < koblstMax) :
    y.exts.length ≤ (allSlots (classSz c) (y.chunks b c)).length := by
  have hle : (y.chunks b c).length ≤ (allSlots (classSz c) (y.chunks b c)).length :=
    Lay.chunks_le hc
  unfold Lay.chunks at hle ⊢
  rw [List.length_cons, List.length_map] at hle
  omega

theorem PoolOk.mobjnr_eq (h : PoolOk b c y k live) :
    k.soMobjnr = k.soFobjnr + live.length := by
  rw [h.mobjnr, h.fobjnr, h.slab.length]

end Chunks

section Objects

variable {b : BootArray} {c : Nat} {y : Lay} {k : Kmsob} {live : List Nat} {m : Kmem}
  {kmsp msz : Nat}

/-! ## Taking an object -/

/-- A pool with a free object passes the tests. -/
theorem PoolOk.scanNmsz (h : PoolOk b c y k live) (hmsz : 1 ≤ msz) (hle : msz ≤ classSz c)
    (hfree : k.soFrelst ≠ []) : scanNmszkmsobIsok k msz = true := by
  have hpages := classPages_cases c
  have hpos := List.length_pos_iff.mpr hfree
  have hf := h.fobjnr
  have hm := h.mobjnr_eq
  have hobj := h.objsz
  have hspan : k.soVend - k.soVstat + 1 = classPages c * pagesize := by
    rw [h.vend, h.vstat]
    simp only [pagesize]
    omega
  have hroom : 4096 ≤ classPages c * pagesize := by
    simp only [pagesize]
    omega
  have hhdr : sizeofKmsob + sizeofFreobjh = 400 := rfl
  have hpg : pagesize = 4096 := rfl
  unfold scanNmszkmsobIsok
  rw [if_neg (by omega), if_neg (by omega), if_neg (by omega), hspan, if_neg (by omega)]
  exact decide_eq_true hfree

/-- **`kmsob_new_opkmsob`** takes the first free object. -/
theorem PoolOk.newOp (h : PoolOk b c y (m.kmsob kmsp) live) (hmsz : 1 ≤ msz)
    (hle : msz ≤ classSz c) (hfree : (m.kmsob kmsp).soFrelst ≠ []) : ∃ x k',
      kmsobNewOpkmsob m kmsp msz = (m.setKmsob kmsp k', some x) ∧
        PoolOk b c y k' (x :: live) := by
  obtain ⟨x, l, hl⟩ := List.exists_cons_of_ne_nil hfree
  have hf := h.fobjnr
  rw [hl, List.length_cons] at hf
  unfold kmsobNewOpkmsob
  simp only [h.scanNmsz hmsz hle hfree, hl]
  rw [if_neg (by omega)]
  refine ⟨x, _, rfl, { h with
    slab := Served.take (x := x) ?_
    fobjnr := ?_ }⟩
  · have hslab := h.slab
    rw [hl] at hslab
    exact hslab
  · show (m.kmsob kmsp).soFobjnr - 1 = l.length
    omega

/-! ## Putting one back -/

/-- The pool after an object was put back. -/
def Kmsob.putObj (k : Kmsob) (fadrs : Nat) : Kmsob :=
  { k with soFrelst := fadrs :: k.soFrelst, soFobjnr := k.soFobjnr + 1 }

theorem PoolOk.put (h : PoolOk b c y k live) {x : Nat} (hx : x ∈ live) :
    PoolOk b c y (k.putObj x) (live.erase x) :=
  { h with
    slab := h.slab.put hx
    fobjnr := congrArg (· + 1) h.fobjnr }

end Objects

section Scans

variable {b : BootArray} {c : Nat} {y : Lay} {k : Kmsob} {live : List Nat} {m : Kmem}
  {kmsp fadrs fsz : Nat}

/-! ## Finding the pool of an object -/

/-- The bytes lie in the chunk, behind its header and in front of its last byte. -/
def Chunk.Data (d : Chunk) (fadrs fsz : Nat) : Prop :=
  d.start + d.hdr ≤ fadrs ∧ fadrs + fsz ≤ d.vend

/-- The loop over the extension blocks. -/
theorem scanDelextLoop_spec (hle : fsz ≤ classSz c) (hsum : add64 fadrs fsz = fadrs + fsz)
    (l : List Nat) : ∃ r,
      scanDelextLoop kmsp (classSz c) fadrs fsz (l.map (extOf b c kmsp)) = .ok r ∧
        (r = true ↔ ∃ s ∈ l, Chunk.Data (blkChunk b sizeofKmbext (classPages c) s) fadrs fsz) := by
  induction l with
  | nil => exact ⟨false, rfl, by simp⟩
  | cons s l ih =>
      obtain ⟨r, hr, hiff⟩ := ih
      have hown : ¬ (extOf b c kmsp s).mtKmsb ≠ kmsp := fun h => h rfl
      rw [List.map_cons, scanDelextLoop, if_neg hown, hsum]
      by_cases hin : Chunk.Data (blkChunk b sizeofKmbext (classPages c) s) fadrs fsz
      · rw [if_pos ⟨hin.1, hin.2, hle⟩]
        exact ⟨true, rfl, iff_of_true rfl ⟨s, List.mem_cons_self, hin⟩⟩
      · rw [if_neg fun h => hin ⟨h.1, h.2.1⟩]
        refine ⟨r, hr, hiff.trans ?_⟩
        rw [List.exists_mem_cons_iff, or_iff_right hin]

/-- **`scan_delkmsob_isok`** finds an address behind the header of a block. -/
theorem PoolOk.scanDel (h : PoolOk b c y (m.kmsob kmsp) live) (hk : kmsp = b.vaddr y.first)
    (hpos : 1 ≤ fsz) (hle : fsz ≤ classSz c) (hsum : add64 fadrs fsz = fadrs + fsz) : ∃ r,
      scanDelkmsobIsok m kmsp fadrs fsz = .ok r ∧
        (r = true ↔ ∃ d ∈ y.chunks b c, Chunk.Data d fadrs fsz) := by
  subst hk
  obtain ⟨r, hr, hiff⟩ : ∃ r, scanDelextLoop (b.vaddr y.first) (classSz c) fadrs fsz
      (y.exts.map (extOf b c (b.vaddr y.first))) = .ok r ∧ (r = true ↔
        ∃ s ∈ y.exts, Chunk.Data (blkChunk b sizeofKmbext (classPages c) s) fadrs fsz) :=
    scanDelextLoop_spec hle hsum y.exts
  have hsplit : (∃ d ∈ y.chunks b c, Chunk.Data d fadrs fsz) ↔
      Chunk.Data (blkChunk b sizeofKmsob (classPages c) y.first) fadrs fsz ∨
        ∃ s ∈ y.exts, Chunk.Data (blkChunk b sizeofKmbext (classPages c) s) fadrs fsz := by
    unfold Lay.chunks
    simp only [List.exists_mem_cons_iff, List.mem_map, exists_exists_and_eq_and]
  unfold scanDelkmsobIsok
  simp only [h.vstat, h.vend, h.objsz, h.mextnr, h.mextlst, hsum]
  rw [hsplit, if_neg (by omega)]
  by_cases hin : Chunk.Data (blkChunk b sizeofKmsob (classPages c) y.first) fadrs fsz
  · rw [if_pos ⟨hin.1, hin.2, hle⟩]
    exact ⟨true, rfl, iff_of_true rfl (Or.inl hin)⟩
  · rw [if_neg fun h => hin ⟨h.1, h.2.1⟩, or_iff_right hin]
    by_cases h0 : y.exts.length < 1
    · have hnil : y.exts = [] := List.length_eq_zero_iff.mp (by omega)
      rw [if_pos h0, hnil]
      exact ⟨false, rfl, by simp⟩
    · rw [if_neg h0]
      exact ⟨r, hr, hiff⟩

theorem Chunk.Data.has {d : Chunk} (h : Chunk.Data d fadrs fsz) : d.Has fadrs :=
  ⟨Nat.le_trans (Nat.le_add_right _ _) h.1, Nat.le_trans (Nat.le_add_right _ _) h.2⟩

/-- The bytes of an object do not wrap. -/
theorem Chunk.Data.lt {d : Chunk} (h : Chunk.Data d fadrs fsz) (hy : y.Krnl b c)
    (hd : d ∈ y.chunks b c) : fadrs + fsz < krnlMapVirtaddressStart + krnlMapPhyaddressEnd :=
  Nat.lt_of_le_of_lt h.2 (hy.bounds hd ⟨Nat.le_trans h.has.1 h.has.2, Nat.le_refl _⟩).2

/-- **`scan_fadrskmsob_isok`** tests for a slot. -/
theorem scanFadrskmsobIsok_iff {objsz : Nat} (hpos : 0 < objsz) (fostat vend : Nat)
    (hsum : add64 fadrs objsz = fadrs + objsz) :
    scanFadrskmsobIsok fostat vend fadrs objsz = true ↔ fadrs ∈ slots objsz fostat vend := by
  rw [mem_slots hpos]
  unfold scanFadrskmsobIsok
  rw [hsum]
  by_cases hlt : fadrs < fostat
  · rw [if_pos hlt]
    exact iff_of_false Bool.false_ne_true fun h => absurd h.1 (Nat.not_le.mpr hlt)
  · have hle : fostat ≤ fadrs := Nat.le_of_not_lt hlt
    rw [if_neg hlt]
    by_cases hfit : fadrs + objsz ≤ vend
    · rw [if_pos ⟨hle, hfit⟩, decide_eq_true_eq]
      exact ⟨fun hmod => ⟨hle, hfit, hmod⟩, fun h => h.2.2⟩
    · rw [if_neg fun h => hfit h.2]
      exact iff_of_false Bool.false_ne_true fun h => hfit h.2.1

/-- The loop over the extension blocks, when the address is in one of them. -/
theorem scanDfszextLoop_iff (hpos : 1 ≤ fsz) (hobj : add64 fadrs (classSz c) = fadrs + classSz c)
    (hsum : sub64 (add64 fadrs fsz) 1 = fadrs + fsz - 1) {d : Chunk} (hin : Chunk.Data d fadrs fsz)
    {l : List Nat} (hd : d ∈ l.map (blkChunk b sizeofKmbext (classPages c)))
    (huniq : ∀ s ∈ l, (blkChunk b sizeofKmbext (classPages c) s).Has fadrs →
      blkChunk b sizeofKmbext (classPages c) s = d) :
    scanDfszextLoop (classSz c) fadrs fsz (l.map (extOf b c kmsp)) = true ↔
      fadrs ∈ d.slots (classSz c) := by
  induction l with
  | nil => exact absurd hd List.not_mem_nil
  | cons s l ih =>
      rw [List.map_cons, scanDfszextLoop, hsum]
      by_cases htest : (extOf b c kmsp s).mtVstat ≤ fadrs ∧
          fadrs + fsz - 1 ≤ (extOf b c kmsp s).mtVend
      · rw [if_pos htest, scanFadrskmsobIsok_iff (classSz_pos c) _ _ hobj]
        have hhas : (blkChunk b sizeofKmbext (classPages c) s).Has fadrs :=
          ⟨htest.1, Nat.le_trans (by omega) htest.2⟩
        rw [← huniq s List.mem_cons_self hhas]
        rfl
      · rw [if_neg htest]
        rw [List.map_cons, List.mem_cons] at hd
        refine ih (hd.resolve_left ?_) fun t ht => huniq t (List.mem_cons_of_mem s ht)
        rintro rfl
        exact htest ⟨hin.has.1, Nat.le_trans (Nat.sub_le _ _) hin.2⟩

/-- The counter of free objects is far from its end. -/
theorem PoolOk.fobjnr_lt (h : PoolOk b c y k live) (hy : y.Krnl b c) :
    ¬ wordMod - 1 ≤ k.soFobjnr := by
  have hle := h.slots_le hy
  have hm := h.mobjnr
  have heq := h.mobjnr_eq
  have hmax : krnlMapPhyaddressEnd = 0x400000 * 4096 := rfl
  have hword : wordMod = 2 ^ 64 := rfl
  omega

/-- Objects are small. -/
theorem classSz_le (hc : c < koblstMax) : classSz c ≤ 2048 := by
  have hlt : c < 64 := hc
  unfold classSz
  omega

/-- The sums for an address in a block are exact. -/
theorem Chunk.Data.sums {d : Chunk} (h : Chunk.Data d fadrs fsz) (hy : y.Krnl b c)
    (hd : d ∈ y.chunks b c) (hc : c < koblstMax) (hpos : 1 ≤ fsz) :
    add64 fadrs (classSz c) = fadrs + classSz c ∧
      sub64 (add64 fadrs fsz) 1 = fadrs + fsz - 1 := by
  have hlt := h.lt hy hd
  have hsz := classSz_le hc
  have hstart : krnlMapVirtaddressStart = 0xffff800000000000 := rfl
  have hmax : krnlMapPhyaddressEnd = 0x400000 * 4096 := rfl
  have hword : wordMod = 2 ^ 64 := rfl
  exact ⟨add64_eq (by omega), sub64_add64_one hpos (by omega)⟩

/-- **`scan_dfszkmsob_isok`**, of an address that was found, tests for a slot of the pool. -/
theorem PoolOk.scanDfsz (h : PoolOk b c y k live) (hy : y.Krnl b c) (hc : c < koblstMax)
    (hpos : 1 ≤ fsz) {d : Chunk} (hd : d ∈ y.chunks b c) (hin : Chunk.Data d fadrs fsz) :
    scanDfszkmsobIsok k (b.vaddr y.first) fadrs fsz = true ↔
      fadrs ∈ allSlots (classSz c) (y.chunks b c) := by
  obtain ⟨hobj, hsum⟩ := hin.sums hy hd hc hpos
  have huniq : ∀ e ∈ y.chunks b c, e.Has fadrs → e = d := fun e he hhas =>
    chunk_unique h.slab.apart he hd hhas hin.has
  have hslots : fadrs ∈ allSlots (classSz c) (y.chunks b c) ↔ fadrs ∈ d.slots (classSz c) := by
    rw [mem_allSlots]
    constructor
    · rintro ⟨e, he, hfe⟩
      exact huniq e he (Chunk.slot_has (classSz_pos c) hfe) ▸ hfe
    · exact fun hfd => ⟨d, hd, hfd⟩
  rw [hslots]
  unfold scanDfszkmsobIsok
  rw [if_neg (by omega), if_neg (h.fobjnr_lt hy), h.vstat, h.vend, h.objsz, hsum]
  by_cases hfirst : b.vaddr y.first ≤ fadrs ∧
      fadrs + fsz - 1 ≤ b.vaddr y.first + classPages c * pagesize - 1
  · rw [if_pos hfirst, scanFadrskmsobIsok_iff (classSz_pos c) _ _ hobj]
    have hhas : (blkChunk b sizeofKmsob (classPages c) y.first).Has fadrs :=
      ⟨hfirst.1, Nat.le_trans (by omega) hfirst.2⟩
    rw [← huniq _ List.mem_cons_self hhas]
    rfl
  · rw [if_neg hfirst, h.mextnr, h.mextlst]
    have hext : d ∈ y.exts.map (blkChunk b sizeofKmbext (classPages c)) := by
      refine (List.mem_cons.mp hd).resolve_left ?_
      rintro rfl
      exact hfirst ⟨hin.has.1, Nat.le_trans (Nat.sub_le _ _) hin.2⟩
    have hlen := List.length_pos_of_mem hext
    rw [List.length_map] at hlen
    rw [if_pos hlen]
    exact scanDfszextLoop_iff hpos hobj hsum hin hext fun s hs =>
      huniq _ (List.mem_cons_of_mem _ (List.mem_map_of_mem hs))

/-- **`kmsob_del_opkmsob`** goes by the last scan, while an object is in use. -/
theorem PoolOk.delOp_eq (h : PoolOk b c y (m.kmsob kmsp) live) (hlive : live ≠ [])
    (hpos : 1 ≤ fsz) (hne : fadrs ≠ 0) : kmsobDelOpkmsob m kmsp fadrs fsz =
      if scanDfszkmsobIsok (m.kmsob kmsp) kmsp fadrs fsz then
        some (m.setKmsob kmsp ((m.kmsob kmsp).putObj fadrs))
      else none := by
  have hnr : ¬ (m.kmsob kmsp).soMobjnr < (m.kmsob kmsp).soFobjnr + 1 := by
    have heq := h.mobjnr_eq
    have hlen := List.length_pos_iff.mpr hlive
    omega
  unfold kmsobDelOpkmsob
  dsimp only
  rw [if_neg (by omega), if_neg hnr]
  cases scanDfszkmsobIsok (m.kmsob kmsp) kmsp fadrs fsz <;> rfl

/-- **`kmsob_del_opkmsob`**, of an address that was found, takes every slot of the pool. -/
theorem PoolOk.delOp (h : PoolOk b c y (m.kmsob kmsp) live) (hk : kmsp = b.vaddr y.first)
    (hy : y.Krnl b c) (hc : c < koblstMax) (hlive : live ≠ []) (hpos : 1 ≤ fsz) {d : Chunk}
    (hd : d ∈ y.chunks b c) (hin : Chunk.Data d fadrs fsz) : kmsobDelOpkmsob m kmsp fadrs fsz =
      if fadrs ∈ allSlots (classSz c) (y.chunks b c) then
        some (m.setKmsob kmsp ((m.kmsob kmsp).putObj fadrs))
      else none := by
  have hne : fadrs ≠ 0 := by
    have hlo := (hy.bounds hd hin.has).1
    have hmap : 0 < krnlMapVirtaddressStart := by decide
    omega
  rw [h.delOp_eq hlive hpos hne]
  subst hk
  exact if_congr (h.scanDfsz hy hc hpos hd hin) rfl rfl

/-! ## Addresses at the end of the word -/

/-- The end of a pool's first block. -/
theorem Lay.Krnl.first_le (hy : y.Krnl b c) :
    b.vaddr y.first + classPages c * pagesize ≤ krnlMapVirtaddressStart + krnlMapPhyaddressEnd ∧
      4096 ≤ classPages c * pagesize ∧ krnlMapVirtaddressStart ≤ b.vaddr y.first := by
  obtain ⟨hlo, hhi⟩ := (hy y.first List.mem_cons_self).vaddr_lt
  refine ⟨hhi, ?_, hlo⟩
  have hpages := classPages_cases c
  simp only [pagesize]
  omega

/-- No extension block reaches the end of the word. -/
theorem scanDfszextLoop_top (hsum : sub64 (add64 fadrs fsz) 1 = wordMod - 1) (l : List Nat)
    (hl : ∀ s ∈ l, b.vaddr s + classPages c * pagesize < wordMod) :
    scanDfszextLoop (classSz c) fadrs fsz (l.map (extOf b c kmsp)) = false := by
  induction l with
  | nil => rfl
  | cons s l ih =>
      have hlt := hl s List.mem_cons_self
      have hword : wordMod = 2 ^ 64 := rfl
      have hno : ¬ ((extOf b c kmsp s).mtVstat ≤ fadrs ∧
          wordMod - 1 ≤ (extOf b c kmsp s).mtVend) := by
        rintro ⟨-, hend⟩
        unfold extOf at hend
        dsimp only at hend
        omega
      rw [List.map_cons, scanDfszextLoop, hsum, if_neg hno]
      exact ih fun t ht => hl t (List.mem_cons_of_mem _ ht)

/-- **`scan_delkmsob_isok`** finds every address whose bytes wrap. -/
theorem PoolOk.scanDel_wrap (h : PoolOk b c y (m.kmsob kmsp) live) (hk : kmsp = b.vaddr y.first)
    (hy : y.Krnl b c) (hc : c < koblstMax) (hpos : 1 ≤ fsz) (hle : fsz ≤ classSz c)
    (hadr : fadrs < wordMod) (hwrap : wordMod ≤ fadrs + fsz) :
    scanDelkmsobIsok m kmsp fadrs fsz = .ok true := by
  subst hk
  obtain ⟨hend, hroom, hlo⟩ := hy.first_le
  have hsz := classSz_le hc
  have hstart : krnlMapVirtaddressStart = 0xffff800000000000 := rfl
  have hmax : krnlMapPhyaddressEnd = 0x400000 * 4096 := rfl
  have hword : wordMod = 2 ^ 64 := rfl
  have hhdr : sizeofKmsob = 368 := rfl
  have hsum : add64 fadrs fsz = fadrs + fsz - wordMod := by
    unfold add64
    rw [Nat.mod_eq_sub_mod hwrap, Nat.mod_eq_of_lt (by omega)]
  unfold scanDelkmsobIsok
  simp only [h.vstat, h.vend, h.objsz, hsum]
  rw [if_neg (by omega), if_pos ⟨by omega, by omega, hle⟩]

/-- **`scan_dfszkmsob_isok`**, of an address whose bytes wrap, tests for a multiple of the object
size from the first slot on. -/
theorem PoolOk.scanDfsz_wrap (h : PoolOk b c y k live) (hy : y.Krnl b c) (hc : c < koblstMax)
    (hpos : 1 ≤ fsz) (hle : fsz ≤ classSz c) (hadr : fadrs < wordMod)
    (hwrap : wordMod ≤ fadrs + fsz) :
    scanDfszkmsobIsok k (b.vaddr y.first) fadrs fsz = true ↔
      wordMod < fadrs + fsz ∧ (fadrs - (b.vaddr y.first + sizeofKmsob)) % classSz c = 0 := by
  obtain ⟨hend, hroom, hlo⟩ := hy.first_le
  have hsz := classSz_le hc
  have hstart : krnlMapVirtaddressStart = 0xffff800000000000 := rfl
  have hmax : krnlMapPhyaddressEnd = 0x400000 * 4096 := rfl
  have hword : wordMod = 2 ^ 64 := rfl
  have hhdr : sizeofKmsob = 368 := rfl
  unfold scanDfszkmsobIsok
  rw [if_neg (by omega), if_neg (h.fobjnr_lt hy), h.vstat, h.vend, h.objsz]
  by_cases heq : wordMod < fadrs + fsz
  · have hsum : sub64 (add64 fadrs fsz) 1 = fadrs + fsz - wordMod - 1 := by
      have hadd : add64 fadrs fsz = fadrs + fsz - wordMod := by
        unfold add64
        rw [Nat.mod_eq_sub_mod hwrap, Nat.mod_eq_of_lt (by omega)]
      rw [hadd, sub64_eq (by omega) (by omega)]
    have hobj : add64 fadrs (classSz c) = fadrs + classSz c - wordMod := by
      unfold add64
      rw [Nat.mod_eq_sub_mod (by omega), Nat.mod_eq_of_lt (by omega)]
    rw [hsum, if_pos ⟨by omega, by omega⟩]
    unfold scanFadrskmsobIsok
    rw [hobj, if_neg (by omega), if_pos ⟨by omega, by omega⟩, decide_eq_true_eq]
    exact (and_iff_right heq).symm
  · have hsum : sub64 (add64 fadrs fsz) 1 = wordMod - 1 := by
      rw [sub64_add64_one hpos (by omega)]
      omega
    rw [hsum, if_neg (by omega)]
    refine iff_of_false ?_ fun hand => heq hand.1
    split
    · rw [h.mextlst, scanDfszextLoop_top]
      · exact Bool.false_ne_true
      · exact hsum
      · intro s hs
        have hext := (hy s (List.mem_cons_of_mem _ hs)).vaddr_lt.2
        omega
    · exact Bool.false_ne_true

end Scans

section Blocks

variable {b : BootArray} {c : Nat} {y : Lay} {live : List Nat} {m : Kmem} {mm : Memgrob}
  {kmsp : Nat} {out rest : List Seg}

/-! ## Giving the blocks back -/

theorem freeBlocks_spec {pnr : Nat} (l : List Nat)
    (h : MmInv mm (l.map (fun s => ⟨s, pnr⟩) ++ rest)) : ∃ mm',
      freeBlocks pnr l mm = .ok mm' ∧ MmInv mm' rest ∧ SamePages mm mm' := by
  induction l generalizing mm with
  | nil => exact ⟨mm, rfl, h, SamePages.refl mm⟩
  | cons s l ih =>
      obtain ⟨mm₁, hrun, hinv, hsame⟩ := mmMergePages_accept h List.mem_cons_self
      rw [List.map_cons, List.cons_append, List.erase_cons_head] at hinv
      obtain ⟨mm₂, hrest, hinv₂, hsame₂⟩ := ih hinv
      refine ⟨mm₂, ?_, hinv₂, hsame.trans hsame₂⟩
      unfold freeBlocks mergeOrStop
      rw [hrun]
      exact hrest

/-- The blocks in `n` buckets, from bucket `j` on. -/
def bucketBlocks (mscp : Nat → Msclst) (n j : Nat) : List Seg :=
  (List.range' j n).flatMap fun i => (mscp i).mlList.map fun s => ⟨s, (mscp i).mlOmpnr⟩

theorem freeBuckets_spec {mscp : Nat → Msclst}
    (hnr : ∀ j, (mscp j).mlMsanr = (mscp j).mlList.length) (n j : Nat)
    (h : MmInv mm (bucketBlocks mscp n j ++ rest)) : ∃ mm',
      freeBuckets mscp n j mm = .ok mm' ∧ MmInv mm' rest ∧ SamePages mm mm' := by
  induction n generalizing j mm with
  | zero => exact ⟨mm, rfl, h, SamePages.refl mm⟩
  | succ n ih =>
      have hsplit : bucketBlocks mscp (n + 1) j = (mscp j).mlList.map
          (fun s => (⟨s, (mscp j).mlOmpnr⟩ : Seg)) ++ bucketBlocks mscp n (j + 1) := by
        unfold bucketBlocks
        rw [List.range'_succ, List.flatMap_cons]
      rw [hsplit, List.append_assoc] at h
      rw [freeBuckets]
      by_cases hpos : 0 < (mscp j).mlMsanr
      · obtain ⟨mm₁, hrun, hinv, hsame⟩ := freeBlocks_spec _ h
        obtain ⟨mm₂, hrest, hinv₂, hsame₂⟩ := ih (j + 1) hinv
        rw [if_pos hpos, hrun]
        exact ⟨mm₂, hrest, hinv₂, hsame.trans hsame₂⟩
      · have hnil : (mscp j).mlList = [] := by
          refine List.length_eq_zero_iff.mp ?_
          have := hnr j
          omega
        rw [hnil] at h
        rw [if_neg hpos]
        exact ih (j + 1) h

/-- The buckets of a pool hold its extension blocks. -/
theorem PoolOk.bucketBlocks_eq (h : PoolOk b c y (m.kmsob kmsp) live) :
    bucketBlocks (m.kmsob kmsp).soMc.mcLst msclstMax 0 =
      y.exts.map fun s => ⟨s, classPages c⟩ := by
  have hrange : List.range' 0 msclstMax = [0, 1, 2, 3, 4] := rfl
  unfold bucketBlocks
  rw [hrange]
  simp only [List.flatMap_cons, List.flatMap_nil, h.lst]
  rcases classPages_cases c with hp | hp | hp
  · simp [hp, msclstInit]
  · simp [hp, msclstInit]
  · simp [hp, msclstInit]

/-- The manager after a pool has left the list of its class. -/
def Kmem.unlink (m : Kmem) (i kmsp : Nat) : Kmem :=
  let l := m.mgr.ksMsoblst i
  let m := m.setKoblst i { l with olEmplst := l.olEmplst.erase kmsp, olEmnr := l.olEmnr - 1 }
  kmsobDestroyCache { m with mgr := { m.mgr with ksMsobnr := m.mgr.ksMsobnr - 1 } } i kmsp

theorem unlink_koblst (m : Kmem) (i a : Nat) : (m.unlink i a).mgr.ksMsoblst i =
    { olEmplst := (m.mgr.ksMsoblst i).olEmplst.erase a
      olCahe := if (m.mgr.ksMsoblst i).olCahe = some a then none else (m.mgr.ksMsoblst i).olCahe
      olEmnr := (m.mgr.ksMsoblst i).olEmnr - 1
      olSz := (m.mgr.ksMsoblst i).olSz } := by
  unfold Kmem.unlink kmsobDestroyCache Kmem.setKoblst
  simp only [Function.update_self]

theorem unlink_koblst_of_ne (m : Kmem) (a : Nat) {i j : Nat} (hj : j ≠ i) :
    (m.unlink i a).mgr.ksMsoblst j = m.mgr.ksMsoblst j := by
  unfold Kmem.unlink kmsobDestroyCache Kmem.setKoblst
  simp only [Function.update_of_ne hj]

/-- The common cache does not point to the pool any more. -/
theorem unlink_msobche {m : Kmem} {i a x : Nat} (hx : x ∈ (m.unlink i a).mgr.ksMsobche) :
    x ∈ m.mgr.ksMsobche ∧ x ≠ a := by
  have hche : (if m.mgr.ksMsobche = some a then none else m.mgr.ksMsobche) = some x := hx
  split at hche
  · cases hche
  · rename_i hne
    exact ⟨hche, fun he => hne (he ▸ hche)⟩

/-- **`_destroy_kmsob_core`** gives all blocks of the pool back. -/
theorem PoolOk.destroy (h : PoolOk b c y (m.kmsob kmsp) live)
    (hmm : MmInv m.mm (y.blocks c ++ rest)) : ∃ mm',
      destroyKmsobCore m c kmsp = .ok ({ m.unlink c kmsp with mm := mm' }, true) ∧
        MmInv mm' rest ∧ SamePages m.mm mm' := by
  have hnr : ∀ j, ((m.kmsob kmsp).soMc.mcLst j).mlMsanr =
      ((m.kmsob kmsp).soMc.mcLst j).mlList.length := by
    intro j
    rw [h.lst]
    split <;> rfl
  have hpages : 0 < classPages c := by
    rcases classPages_cases c with hp | hp | hp <;> omega
  have hout : MmInv m.mm (bucketBlocks (m.kmsob kmsp).soMc.mcLst msclstMax 0 ++
      (⟨y.first, classPages c⟩ :: rest)) := by
    rw [h.bucketBlocks_eq]
    exact hmm.perm List.perm_middle.symm
  obtain ⟨mm₁, hrun₁, hinv₁, hsame₁⟩ := freeBuckets_spec hnr msclstMax 0 hout
  obtain ⟨mm₂, hrun₂, hinv₂, hsame₂⟩ : ∃ mm₂, freeBlocks (classPages c) [y.first] mm₁ = .ok mm₂ ∧
      MmInv mm₂ rest ∧ SamePages mm₁ mm₂ := freeBlocks_spec [y.first] hinv₁
  refine ⟨mm₂, ?_, hinv₂, hsame₁.trans hsame₂⟩
  have hmc : ¬ ((m.kmsob kmsp).soMc.mcKmobinpnr < 1 ∨ (m.kmsob kmsp).soMc.mcKmobinlst = []) := by
    rw [h.kmobinpnr, h.kmobinlst]
    simp only [reduceCtorEq, or_false]
    omega
  unfold destroyKmsobCore
  dsimp only
  rw [if_neg hmc]
  simp only [kmsobDestroyCache, Kmem.setKoblst, hrun₁, h.kmobinpnr, h.kmobinlst, hrun₂]
  rfl

end Blocks

section Pages

variable {b : BootArray} {c : Nat} {y : Lay} {live : List Nat} {m : Kmem} {kmsp : Nat}
  {out : List Seg}

/-! ## New blocks -/

/-- A request for a block of a class is refused, or gets a block of the kernel area that is
outstanding then. -/
theorem mmDivisionPages_class (hmm : MmInv m.mm out) (hs : SameArray b m.mm) (c : Nat) :
    mmDivisionPages m.mm (classPages c) MaType.krnl.code dmfReldiv = .ok (m.mm, none) ∨
    ∃ mm' s, mmDivisionPages m.mm (classPages c) MaType.krnl.code dmfReldiv =
        .ok (mm', some (s, classPages c)) ∧
      MmInv mm' (⟨s, classPages c⟩ :: out) ∧ SamePages m.mm mm' ∧ KrnlBlk b s (classPages c) := by
  have hgranted := mmDivisionPages_granted (a := 1) hmm (by decide) (classPages c)
  rw [two_pow_classPages] at hgranted
  rcases hgranted with hnone | ⟨-, mm', s, hrun, hinv, hsame, hblk⟩
  · exact Or.inl hnone
  · exact Or.inr ⟨mm', s, hrun, hinv, hsame,
      KrnlBlk.of_out hinv (hs.mono hsame) List.mem_cons_self hblk⟩

/-- **`kmsob_extn_pages`** adds a block of free objects, or is refused one. -/
theorem PoolOk.extnPages (h : PoolOk b c y (m.kmsob kmsp) live) (hk : kmsp = b.vaddr y.first)
    (hc : c < koblstMax) (hy : y.Krnl b c) (hmm : MmInv m.mm out) (hs : SameArray b m.mm)
    (hsub : ∀ x ∈ y.blocks c, x ∈ out) :
    kmsobExtnPages m kmsp = .ok (m, false) ∨
    ∃ mm' s k', kmsobExtnPages m kmsp = .ok (({ m with mm := mm' } : Kmem).setKmsob kmsp k', true) ∧
      MmInv mm' (⟨s, classPages c⟩ :: out) ∧ SamePages m.mm mm' ∧ KrnlBlk b s (classPages c) ∧
      PoolOk b c ⟨y.first, s :: y.exts⟩ k' live ∧ k'.soFrelst ≠ [] := by
  have hle := h.slots_le hy
  have hext : y.exts.length ≤ (allSlots (classSz c) (y.chunks b c)).length := Lay.exts_le hc
  have hm := h.mobjnr
  have heq := h.mobjnr_eq
  have hnr := h.mextnr
  have hmax : krnlMapPhyaddressEnd = 0x400000 * 4096 := rfl
  have hword : wordMod = 2 ^ 64 := rfl
  have hpages : kmsobPages (m.kmsob kmsp).soObjsz = classPages c := congrArg kmsobPages h.objsz
  subst hk
  unfold kmsobExtnPages
  dsimp only
  rw [if_neg (by omega), hpages]
  rcases mmDivisionPages_class hmm hs c with hnone | ⟨mm', s, hrun, hinv, hsame, hblk⟩
  · rw [hnone]
    exact Or.inl rfl
  obtain ⟨hv, hv'⟩ := hblk.viradr (hs.mono hsame)
  obtain ⟨j, hj, hidx, hpow⟩ := retnMscidx_classPages c
  have hpos := hblk.pos
  have hbucket : ¬ ((msclstMax : Int) ≤ retnMscidx (classPages c) ∨
      retnMscidx (classPages c) < 0) := by omega
  have hap : ∀ d ∈ y.chunks b c, (blkChunk b sizeofKmbext (classPages c) s).Apart d := by
    intro d hd
    obtain ⟨t, ht, hdr, -, rfl⟩ := Lay.mem_chunks hd
    refine hblk.apart (hy t ht) (fun i hi => ?_) _ _
    exact hinv.mem.tiles.head_apart (hsub _ (List.mem_map_of_mem ht)) hi
  have hpool := h.extend hpow hap
  rw [hrun]
  dsimp only
  rw [if_neg (by omega), hv, hv']
  dsimp only
  rw [if_neg hbucket, hidx, Int.toNat_natCast]
  refine Or.inr ⟨mm', s, _, rfl, hinv, hsame, hblk, hpool, fun hnil => ?_⟩
  -- the new block has a slot, and all its slots are free
  have hlen := hpool.slab.length
  have hlen₀ := h.slab.length
  have hperm : (Lay.chunks b c ⟨y.first, s :: y.exts⟩).Perm
      (blkChunk b sizeofKmbext (classPages c) s :: y.chunks b c) := List.Perm.swap _ _ _
  have hall : (allSlots (classSz c) (Lay.chunks b c ⟨y.first, s :: y.exts⟩)).length =
      ((blkChunk b sizeofKmbext (classPages c) s).slots (classSz c)).length +
        (allSlots (classSz c) (y.chunks b c)).length := by
    rw [← List.length_append, ← allSlots_cons]
    exact (hperm.flatMap_right _).length_eq
  have hslot : 0 < ((blkChunk b sizeofKmbext (classPages c) s).slots (classSz c)).length :=
    slots_pos hc (by decide)
  rw [hnil, List.length_nil] at hlen
  omega

/-- The manager with a new pool `k` at `kmsp` on the list of its class. -/
def Kmem.link (m : Kmem) (i kmsp : Nat) (k : Kmsob) : Kmem :=
  let l := m.mgr.ksMsoblst i
  let m := (m.setKmsob kmsp k).setKoblst i
    { l with olEmplst := kmsp :: l.olEmplst, olEmnr := l.olEmnr + 1 }
  { m with mgr := { m.mgr with ksMsobnr := m.mgr.ksMsobnr + 1 } }

theorem link_kmsob (m : Kmem) (i a : Nat) (k : Kmsob) : (m.link i a k).kmsob a = k :=
  Function.update_self _ _ _

theorem link_koblst (m : Kmem) (i a : Nat) (k : Kmsob) : (m.link i a k).mgr.ksMsoblst i =
    { m.mgr.ksMsoblst i with
      olEmplst := a :: (m.mgr.ksMsoblst i).olEmplst
      olEmnr := (m.mgr.ksMsoblst i).olEmnr + 1 } :=
  Function.update_self _ _ _

/-- The lines of `_create_kmsob` when it gets its block. -/
theorem createKmsob_some {mm' : Memgrob} {s n objsz vadrs vadre : Nat} {k : Kmsob}
    (hpos : 1 ≤ objsz) (hn : n ≠ 0)
    (hrun : mmDivisionPages m.mm (kmsobPages objsz) MaType.krnl.code dmfReldiv =
      .ok (mm', some (s, n)))
    (hv : phyadrToViradr (msadscRetAddr (mm'.mem.msadscstat s)) = .ok vadrs)
    (hv' : phyadrToViradr (msadscRetAddr (mm'.mem.msadscstat s) + n * pagesize - 1) = .ok vadre)
    (hk : createInitKmsob (m.mgr.ksMsoblst c).olSz vadrs vadre s n = some k)
    (hsz : ¬ (m.mgr.ksMsoblst c).olSz < k.soObjsz) :
    createKmsob m c objsz = .ok (({ m with mm := mm' } : Kmem).link c vadrs k, some vadrs) := by
  have hadd : kmsobAddKoblst (({ m with mm := mm' } : Kmem).setKmsob vadrs k) c vadrs =
      some ((({ m with mm := mm' } : Kmem).setKmsob vadrs k).setKoblst c
        { m.mgr.ksMsoblst c with
          olEmplst := vadrs :: (m.mgr.ksMsoblst c).olEmplst
          olEmnr := (m.mgr.ksMsoblst c).olEmnr + 1 }) := by
    unfold kmsobAddKoblst
    simp only [Kmem.setKmsob, Function.update_self]
    rw [if_neg hsz]
  unfold createKmsob
  rw [if_neg (by omega), hrun]
  dsimp only
  rw [if_neg hn, hv, hv']
  dsimp only
  rw [hk]
  dsimp only
  rw [hadd]
  rfl

/-- **`_create_kmsob`** makes a pool with one block, or is refused one. -/
theorem createKmsob_spec (hc : c < koblstMax) (hmm : MmInv m.mm out) (hs : SameArray b m.mm)
    (hsz : (m.mgr.ksMsoblst c).olSz = classSz c) :
    createKmsob m c (classSz c) = .ok (m, none) ∨
    ∃ mm' s k, createKmsob m c (classSz c) =
        .ok (({ m with mm := mm' } : Kmem).link c (b.vaddr s) k, some (b.vaddr s)) ∧
      MmInv mm' (⟨s, classPages c⟩ :: out) ∧ SamePages m.mm mm' ∧ KrnlBlk b s (classPages c) ∧
      PoolOk b c ⟨s, []⟩ k [] := by
  have hpos := classSz_pos c
  rcases mmDivisionPages_class hmm hs c with hnone | ⟨mm', s, hrun, hinv, hsame, hblk⟩
  · left
    unfold createKmsob
    rw [if_neg (by omega), show kmsobPages (classSz c) = classPages c from rfl, hnone]
  · obtain ⟨hv, hv'⟩ := hblk.viradr (hs.mono hsame)
    obtain ⟨k, hk, hpool⟩ := createInitKmsob_spec (b := b) hc s
    refine Or.inr ⟨mm', s, k, ?_, hinv, hsame, hblk, hpool⟩
    refine createKmsob_some hpos (Nat.ne_of_gt hblk.pos) hrun hv hv' (hsz ▸ hk) ?_
    rw [hsz, hpool.objsz]
    exact Nat.lt_irrefl _

end Pages

end Cosmos.Hal
