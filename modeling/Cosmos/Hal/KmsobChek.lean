import Cosmos.Hal.KmsobObjs
import Cosmos.Hal.Memmgrinit

/-!
# The object allocator checks itself

`chek_all_kmsobstruc` of `kmsob.c`, which goes through all pools and stops the kernel when a
record contradicts another one: the bounds of a pool against its first page block, the number
of its objects against its size, and each extension block against the other ones and the page
block it is made of.  What is printed on the way is left out.

## Main results

* `chekAllKmsobstruc_ok` : the check never stops the kernel.
-/

namespace Cosmos.Hal

open Cosmos.Lib.Word64 Cosmos.Lib.Cover Cosmos.Lib.Slab Cosmos.Lib.Run

/-! ## The code -/

/-- `chek_kmbext_findmsa`: the page block of the extension block is in the list of its size. -/
def chekKmbextFindmsa (m : Kmem) (kmsp : Nat) (cpbexp : Kmbext) : Except String Bool :=
  let mc := (m.kmsob kmsp).soMc
  let pnr := (cpbexp.mtVend - cpbexp.mtVstat + 1) / pagesize
  let msci := retnMscidx pnr
  if msci < 0 ∨ (msclstMax : Int) ≤ msci then .ok false
  else if (mc.mcLst msci.toNat).mlOmpnr ≠ pnr then .ok false
  else
    match viradrToPhyadr cpbexp.mtVstat with
    | .error e => .error e
    | .ok phyadr => .ok ((mc.mcLst msci.toNat).mlList.any fun msa =>
        msadscRetAddr (m.mm.mem.msadscstat msa) = phyadr)

/-- The loop of `chek_one_kmbext`.  A `kmbext_t` is at the start of its block. -/
def chekKmbextLoop (m : Kmem) (kmsp : Nat) (cpbexp : Kmbext) : List Kmbext → Except String Bool
  | [] => .ok true
  | bexp :: l => do
      if bexp.mtVstat ≠ cpbexp.mtVstat then
        if cpbexp.mtVstat ≤ bexp.mtVstat ∧ bexp.mtVstat ≤ cpbexp.mtVend then return false
        if !(← chekKmbextFindmsa m kmsp cpbexp) then return false
      if !(← chekKmbextFindmsa m kmsp bexp) then return false
      chekKmbextLoop m kmsp cpbexp l

/-- `chek_one_kmbext`. -/
def chekOneKmbext (m : Kmem) (kmsp : Nat) (cpbexp : Kmbext) : Except String Bool :=
  chekKmbextLoop m kmsp cpbexp (m.kmsob kmsp).soMextlst

/-- The loop of `chek_onekmsob_mbext`. -/
def chekMbextLoop (m : Kmem) (kmsp : Nat) : List Kmbext → Except String Bool
  | [] => .ok true
  | bexp :: l => do
      if !(← chekOneKmbext m kmsp bexp) then return false
      chekMbextLoop m kmsp l

/-- `chek_onekmsob_mbext`: objects that do not fit in the first block need extension blocks. -/
def chekOnekmsobMbext (m : Kmem) (kmsp : Nat) : Except String Bool :=
  let k := m.kmsob kmsp
  let mobsz := k.soMobjnr * k.soObjsz
  let kbsz := k.soVend - (kmsp + sizeofKmsob) + 1
  if kbsz < mobsz ∧ k.soMextnr < 1 then .error "chek_onekmsob_mbext err1\n"
  else if k.soMextnr = 0 then .ok true
  else chekMbextLoop m kmsp k.soMextlst

/-- `chek_one_kmsob`. -/
def chekOneKmsob (m : Kmem) (kmsp objsz : Nat) : Except String Unit :=
  let k := m.kmsob kmsp
  if k.soObjsz ≠ objsz then .error "chek_one_kmsob err2\n"
  else
    match k.soMc.mcKmobinlst with
    | [] => .error "chek_one_kmsob err3\n"
    | msa :: _ => do
        if k.soVstat ≠ (← msadscRetVaddr (m.mm.mem.msadscstat msa)) then
          throw "chek_one_kmsob err4\n"
        if (k.soVend - k.soVstat + 1) / pagesize ≠ k.soMc.mcKmobinpnr then
          throw "chek_one_kmsob err5\n"
        if !(← chekOnekmsobMbext m kmsp) then throw "chek_one_kmsob err6\n"

/-- `chek_all_kmsobstruc`. -/
def chekAllKmsobstruc (m : Kmem) : Except String Unit :=
  (List.range koblstMax).forM fun i =>
    (m.mgr.ksMsoblst i).olEmplst.forM fun kmsp => chekOneKmsob m kmsp (m.mgr.ksMsoblst i).olSz

/-! ## The blocks of a pool -/

variable {b : BootArray} {c : Nat} {y : Lay} {m : Kmem} {live : List Nat} {kmsp s : Nat}

theorem chekKmbextFindmsa_ok (h : PoolOk b c y (m.kmsob kmsp) live) (hy : y.Krnl b c)
    (hs : SameArray b m.mm) (hmem : s ∈ y.exts) (a : Nat) :
    chekKmbextFindmsa m kmsp (extOf b c a s) = .ok true := by
  have hblk := hy s (List.mem_cons_of_mem _ hmem)
  have hle := hblk.le
  have hpos := hblk.pos
  obtain ⟨hlo, hhi⟩ := hblk.vaddr_lt
  obtain ⟨j, hj, hmsci, hpow⟩ := retnMscidx_classPages c
  have hpnr : ((extOf b c a s).mtVend - (extOf b c a s).mtVstat + 1) / pagesize =
      classPages c := by
    simp only [extOf, pagesize]
    omega
  have hphy : viradrToPhyadr (extOf b c a s).mtVstat = .ok (b.padrs s * pagesize) := by
    refine viradrToPhyadr_eq (Nat.le_of_add_le_add_left (a := krnlMapVirtaddressStart) ?_)
    rw [Nat.add_comm]
    exact Nat.le_trans (Nat.le_add_right _ _) hhi
  have hlst : (m.kmsob kmsp).soMc.mcLst j = ⟨y.exts.length, 2 ^ j, y.exts⟩ := by
    rw [h.lst, if_pos hpow]
  unfold chekKmbextFindmsa
  simp only [hpnr, hmsci, hphy, Int.toNat_natCast, hlst, hpow]
  rw [if_neg (by omega), if_neg (by simp)]
  refine congrArg Except.ok (List.any_eq_true.mpr ⟨s, hmem, decide_eq_true ?_⟩)
  unfold msadscRetAddr
  rw [hs.padrs s (by omega)]

/-- An extension block among the other ones. -/
theorem chekKmbextLoop_ok (h : PoolOk b c y (m.kmsob kmsp) live) (hy : y.Krnl b c)
    (hs : SameArray b m.mm) (hmem : s ∈ y.exts) (a : Nat) {l : List Nat}
    (hl : ∀ t ∈ l, t ∈ y.exts ∧ (t ≠ s →
      ¬ ((extOf b c a s).mtVstat ≤ (extOf b c a t).mtVstat ∧
        (extOf b c a t).mtVstat ≤ (extOf b c a s).mtVend))) :
    chekKmbextLoop m kmsp (extOf b c a s) (l.map (extOf b c a)) = .ok true := by
  induction l with
  | nil => rfl
  | cons t l ih =>
      obtain ⟨hin, hapart⟩ := hl t List.mem_cons_self
      have hrest := ih fun u hu => hl u (List.mem_cons_of_mem _ hu)
      have hfind := chekKmbextFindmsa_ok h hy hs hmem a
      have hfindt := chekKmbextFindmsa_ok h hy hs hin a
      rw [List.map_cons, chekKmbextLoop]
      by_cases hne : (extOf b c a t).mtVstat ≠ (extOf b c a s).mtVstat
      · have hts : t ≠ s := fun he => hne (by rw [he])
        rw [if_pos hne, if_neg (hapart hts), hfind, hfindt]
        exact hrest
      · rw [if_neg hne, hfindt]
        exact hrest

/-- An extension block among the other ones. -/
theorem chekOneKmbext_ok (h : PoolOk b c y (m.kmsob kmsp) live) (hy : y.Krnl b c)
    (hs : SameArray b m.mm) (hmem : s ∈ y.exts) :
    chekOneKmbext m kmsp (extOf b c (b.vaddr y.first) s) = .ok true := by
  have hpair : y.exts.Pairwise fun s t => (blkChunk b sizeofKmbext (classPages c) s).Apart
      (blkChunk b sizeofKmbext (classPages c) t) :=
    List.pairwise_map.mp (List.pairwise_cons.mp h.slab.apart).2
  unfold chekOneKmbext
  rw [h.mextlst]
  refine chekKmbextLoop_ok h hy hs hmem _ fun t ht => ⟨ht, fun hts hin => ?_⟩
  have : Std.Symm fun s t => (blkChunk b sizeofKmbext (classPages c) s).Apart
      (blkChunk b sizeofKmbext (classPages c) t) := ⟨fun _ _ hst => Std.Symm.symm _ _ hst⟩
  have hap := hpair.forall hmem ht hts.symm
  have hpos : 0 < classPages c * pagesize :=
    Nat.mul_pos (hy t (List.mem_cons_of_mem _ ht)).pos (by decide)
  refine hap (b.vaddr t) hin ⟨Nat.le_refl _, ?_⟩
  show b.vaddr t ≤ b.vaddr t + classPages c * pagesize - 1
  omega

/-- The loop over the extension blocks. -/
theorem chekMbextLoop_ok {l : List Kmbext} (h : ∀ bexp ∈ l, chekOneKmbext m kmsp bexp = .ok true) :
    chekMbextLoop m kmsp l = .ok true := by
  induction l with
  | nil => rfl
  | cons bexp l ih =>
      rw [chekMbextLoop, h bexp List.mem_cons_self]
      exact ih fun x hx => h x (List.mem_cons_of_mem _ hx)

/-- Without extension blocks the objects are in the first block. -/
theorem PoolOk.objs_le (h : PoolOk b c y (m.kmsob kmsp) live) (hk : kmsp = b.vaddr y.first)
    (hnil : y.exts = []) : (m.kmsob kmsp).soMobjnr * (m.kmsob kmsp).soObjsz ≤
      (m.kmsob kmsp).soVend - (kmsp + sizeofKmsob) := by
  rw [h.mobjnr, h.objsz, h.vend, hk, Lay.chunks, hnil, List.map_nil, allSlots_cons, allSlots_nil,
    List.append_nil]
  unfold Chunk.slots
  rw [slots_length]
  exact Nat.div_mul_le_self _ _

theorem chekOnekmsobMbext_ok (h : PoolOk b c y (m.kmsob kmsp) live) (hy : y.Krnl b c)
    (hs : SameArray b m.mm) (hk : kmsp = b.vaddr y.first) :
    chekOnekmsobMbext m kmsp = .ok true := by
  have hnr := h.mextnr
  have hroom : ¬ ((m.kmsob kmsp).soVend - (kmsp + sizeofKmsob) + 1 <
      (m.kmsob kmsp).soMobjnr * (m.kmsob kmsp).soObjsz ∧ (m.kmsob kmsp).soMextnr < 1) := by
    rintro ⟨hlt, hno⟩
    have hle := h.objs_le hk (List.length_eq_zero_iff.mp (by omega))
    omega
  unfold chekOnekmsobMbext
  dsimp only
  rw [if_neg hroom]
  by_cases hzero : (m.kmsob kmsp).soMextnr = 0
  · rw [if_pos hzero]
  · rw [if_neg hzero]
    refine chekMbextLoop_ok fun bexp hb => ?_
    rw [h.mextlst] at hb
    obtain ⟨s, hmem, rfl⟩ := List.mem_map.mp hb
    exact chekOneKmbext_ok h hy hs hmem

/-- One pool. -/
theorem chekOneKmsob_ok (h : PoolOk b c y (m.kmsob kmsp) live) (hy : y.Krnl b c)
    (hs : SameArray b m.mm) (hk : kmsp = b.vaddr y.first) :
    chekOneKmsob m kmsp (classSz c) = .ok () := by
  have hvadr : msadscRetVaddr (m.mm.mem.msadscstat y.first) = .ok (b.vaddr y.first) :=
    ((hy y.first List.mem_cons_self).viradr hs).1
  have hpos := (hy y.first List.mem_cons_self).pos
  have hpnr : ((m.kmsob kmsp).soVend - (m.kmsob kmsp).soVstat + 1) / pagesize =
      (m.kmsob kmsp).soMc.mcKmobinpnr := by
    rw [h.vend, h.vstat, h.kmobinpnr]
    simp only [pagesize]
    omega
  unfold chekOneKmsob
  simp only [h.objsz, h.kmobinlst, hvadr, hpnr, chekOnekmsobMbext_ok h hy hs hk, bind,
    Except.bind]
  simp [h.vstat, pure, Except.pure]

/-! ## All pools -/

theorem forM_ok {α : Type} {f : α → Except String Unit} {l : List α} (h : ∀ x ∈ l, f x = .ok ()) :
    l.forM f = .ok () := by
  induction l with
  | nil => rfl
  | cons x l ih =>
      show (f x >>= fun _ => l.forM f) = _
      rw [h x List.mem_cons_self]
      exact ih fun z hz => h z (List.mem_cons_of_mem _ hz)

theorem KmOk.chek {others : List Seg} {objs : List (Nat × Nat)} {lay : Nat → Option Lay}
    (h : KmOk b m others objs lay) : chekAllKmsobstruc m = .ok () := by
  refine forM_ok fun c hc => forM_ok fun kmsp hmem => ?_
  have hc := List.mem_range.mp hc
  obtain ⟨y, hy, hk⟩ := (h.mem_emplst hc).mp hmem
  have hp := h.pooled hc hy
  rw [hp.sz]
  subst hk
  exact chekOneKmsob_ok hp.pool hp.krnl h.same rfl

/-- **The allocator finds no fault with itself**: in every state that requests lead to, when
nothing is given back that is free, the check of all pools runs through. -/
theorem chekAllKmsobstruc_ok {s t : KmState} {ops : List KmOp} (hs : s.Start b)
    (hown : AllSteps kmStep OwnPages ops s) (hback : AllSteps kmStep BackOk ops s)
    (hrun : run kmStep ops s = .ok t) : chekAllKmsobstruc t.mem = .ok () := by
  obtain ⟨lay, hinv⟩ := kmRun_inv hs hown hback hrun
  exact hinv.chek

/-- Two objects in a page of their own, and one of them again. -/
theorem chekAllKmsobstruc_ok_twoObjs : ∃ s t, s.Start fourPages ∧ run kmStep twoObjs s = .ok t ∧
    chekAllKmsobstruc t.mem = .ok () := by
  obtain ⟨s, t, hs, hall, hrun, -⟩ := kmTest_run objFits_fits fourPages twoObjs
    (fun _ => true) (by decide +kernel)
  exact ⟨s, t, hs, hrun, chekAllKmsobstruc_ok hs (hall.imp fun _ _ hp => hp.1)
    (hall.imp fun _ _ hp => hp.2) hrun⟩

end Cosmos.Hal
