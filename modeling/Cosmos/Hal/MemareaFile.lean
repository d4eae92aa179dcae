import Cosmos.Hal.MemareaBoot

/-!
# Filing the free pages at boot

`merlove_mem_onmemarea` walks over the descriptors once for each area and files
every run of free pages it finds.  The invariant `Filing b a f x` says how far it
is: the pages of the areas before `a`, and those of area `a` before descriptor
`f`, are on lists; every other free page is still a held block of one page with
the descriptor the stamping left.  Filing one block moves `f` behind the block.
-/

namespace Cosmos.Hal

open Cosmos.Lib.Word64 Cosmos.Lib.Cover Cosmos.Lib.Pool

/-! ## Pages and runs of the stamped array -/

/-- The number of the area of a page number. -/
def padrsArea (p : Nat) : Nat :=
  if p < 0x2000 then 0 else if p < 0x400000 then 1 else 2

theorem padrsTy_eq (p : Nat) : padrsTy p = areaTy (padrsArea p) := by
  unfold padrsTy padrsArea
  split
  · rfl
  · split <;> rfl

theorem padrsArea_lt (p : Nat) : padrsArea p < 3 := by
  unfold padrsArea
  split
  · decide
  · split <;> decide

/-- The page belongs to area `a`. -/
theorem padrsTy_iff {p a : Nat} (ha : a < 3) : padrsTy p = areaTy a ↔ padrsArea p = a := by
  have hp := padrsArea_lt p
  rw [padrsTy_eq]
  constructor
  · intro h
    have hmax : memareaMax = 4 := rfl
    exact areaTy_inj (by omega) (by omega) h
  · rintro rfl
    rfl

section Boot

variable {b : BootArray}

/-- A stamped descriptor. -/
theorem BootArray.stamped_of_lt (b : BootArray) {i : Nat} (hi : i < b.msanr) :
    (b.stamped i).mfOlkty = .init ∧ (b.stamped i).mdOdlink = .null ∧
      (b.stamped i).mfMarty = padrsTy (b.padrs i) ∧ (b.stamped i).pafPadrs = b.padrs i ∧
      ((b.stamped i).mfMocty = .free ↔ b.occupied i = false) := by
  obtain ⟨h1, h2, _, h4, h5, _⟩ := b.msadscs_of_lt hi
  unfold BootArray.stamped
  rw [if_pos hi]
  exact ⟨h1, h2, rfl, h4, h5⟩

/-- The test the boot code makes of a page of the array. -/
theorem BootArray.msaIsFree_stamped (b : BootArray) {i a : Nat} (hi : i < b.msanr) (ha : a < 3) :
    msaIsFree (b.stamped i) (areaTy a) = true ↔
      b.occupied i = false ∧ padrsArea (b.padrs i) = a := by
  obtain ⟨_, _, _, _, _, hu, hal, hmo⟩ := b.msadscs_of_lt hi
  obtain ⟨_, _, hty, _, _⟩ := b.stamped_of_lt hi
  have hu' : (b.stamped i).mfUindx = (b.msadscs i).mfUindx := by
    unfold BootArray.stamped
    rw [if_pos hi]
  have hal' : (b.stamped i).pafAlloc = (b.msadscs i).pafAlloc := by
    unfold BootArray.stamped
    rw [if_pos hi]
  have hmo' : (b.stamped i).mfMocty = (b.msadscs i).mfMocty := by
    unfold BootArray.stamped
    rw [if_pos hi]
  unfold msaIsFree
  rw [hu', hal', hmo', hty, hu, hal, hmo, ← padrsTy_iff ha]
  cases b.occupied i <;> simp

/-- Free pages of area `a` with consecutive page numbers. -/
structure IsRun (b : BootArray) (a s n : Nat) : Prop where
  le : s + n ≤ b.msanr
  page : ∀ i < n, b.occupied (s + i) = false ∧ padrsArea (b.padrs (s + i)) = a ∧
    b.padrs (s + i) = b.padrs s + i

theorem IsRun.left {a s m n : Nat} (h : IsRun b a s (m + n)) : IsRun b a s m :=
  ⟨by have := h.le; omega, fun i hi => h.page i (by omega)⟩

theorem IsRun.right {a s m n : Nat} (h : IsRun b a s (m + n)) : IsRun b a (s + m) n := by
  refine ⟨by have := h.le; omega, fun i hi => ?_⟩
  obtain ⟨h1, h2, h3⟩ := h.page (m + i) (by omega)
  have hm := (h.page m (by omega)).2.2
  rw [Nat.add_assoc]
  exact ⟨h1, h2, by omega⟩

/-- The last run of free pages ends with the array, or is the whole array. -/
theorem BootArray.link_end (b : BootArray) {a : Nat} (ha : a < 3)
    (h : Link b.stamped (areaTy a) (b.msanr - 1)) : IsRun b a 0 b.msanr := by
  have hpos := b.msanr_pos
  have hidx : b.msanr - 1 + 1 = b.msanr := by omega
  have hbehind : b.stamped b.msanr = b.slack b.msanr := by
    unfold BootArray.stamped BootMem.msadscs
    rw [if_neg (Nat.lt_irrefl _), if_neg (Nat.lt_irrefl _)]
  obtain ⟨hlast, hnext, hdist⟩ := h
  rw [hidx, hbehind] at hnext hdist
  obtain ⟨hocc, harea⟩ := (b.msaIsFree_stamped (by omega) ha).mp hlast
  have haddr : msadscRetAddr (b.stamped (b.msanr - 1)) = b.padrs (b.msanr - 1) * pagesize := by
    unfold msadscRetAddr
    rw [(b.stamped_of_lt (by omega)).2.2.2.1]
  rw [haddr] at hdist
  simp only [msaIsFree, Bool.and_eq_true, decide_eq_true_eq, Bool.not_eq_true'] at hnext
  obtain ⟨⟨⟨hty, hu⟩, hmo⟩, hal⟩ := hnext
  have htylast := (padrsTy_iff ha).mpr harea
  have hrun := b.slack_end ⟨hocc, hty.trans htylast.symm, hu, hmo, hal, hdist⟩
  have htyzero := (hrun (b.msanr - 1) (by omega)).2.1
  refine ⟨by omega, fun i hi => ?_⟩
  obtain ⟨h1, h2, h3⟩ := hrun i hi
  rw [Nat.zero_add]
  exact ⟨h1, (padrsTy_iff ha).mp (h2.trans (htyzero.symm.trans htylast)), h3⟩

/-- What the scan finds is a run. -/
theorem isRun_of_links {a s n : Nat} (ha : a < 3) (hle : s + n ≤ b.msanr)
    (hfree : msaIsFree (b.stamped s) (areaTy a) = true)
    (hlinks : ∀ j, j + 1 < n → Link b.stamped (areaTy a) (s + j)) : IsRun b a s n := by
  obtain ⟨hshape, _, hmo⟩ := shape_of_links hfree hlinks fun j hj => by
    obtain ⟨_, _, hty, hp, _⟩ := b.stamped_of_lt (i := s + j) (by omega)
    rw [hp]
    exact ⟨b.padrs_lt _ (by omega), hty⟩
  refine ⟨hle, fun i hi => ?_⟩
  obtain ⟨_, _, hty, hp, hocc⟩ := b.stamped_of_lt (i := s + i) (by omega)
  obtain ⟨_, _, _, hp0, _⟩ := b.stamped_of_lt (i := s) (by omega)
  obtain ⟨h1, h2⟩ := hshape i hi
  rw [hp, hp0] at h2
  exact ⟨hocc.mp (hmo i hi), (padrsTy_iff ha).mp (hty.symm.trans h1), h2⟩

/-! ## The invariant -/

/-- Pages still to be filed when the boot code is at descriptor `f` of area
`a`. -/
def BootArray.Unfiled (b : BootArray) (a f i : Nat) : Prop :=
  b.occupied i = false ∧
    (a < padrsArea (b.padrs i) ∨ (padrsArea (b.padrs i) = a ∧ f ≤ i))

instance (b : BootArray) (a f : Nat) : DecidablePred (b.Unfiled a f) :=
  fun i => inferInstanceAs (Decidable (b.occupied i = false ∧
    (a < padrsArea (b.padrs i) ∨ (padrsArea (b.padrs i) = a ∧ f ≤ i))))

/-- Each of them is a held block of its own. -/
def BootArray.unfiled (b : BootArray) (a f : Nat) : List Seg :=
  singles b.msanr (b.Unfiled a f)

/-- `af_stus` of a list. -/
def BafhPtr.stus : BafhPtr → BafhStus
  | .lie _ _ => .divm
  | .one _ => .onem

/-- The boot code has filed the areas before `a` and the pages of area `a`
before descriptor `f`. -/
structure Filing (b : BootArray) (a f : Nat) (x : Mem) : Prop where
  inv : MemInv x b.msanr (b.unfiled a f)
  tags : ∀ i, ∃ o l, x.msadscstat i = { b.stamped i with mfOlkty := o, mdOdlink := l }
  raw : ∀ i < b.msanr, b.Unfiled a f i → x.msadscstat i = b.stamped i
  noAdj : NoAdj x
  stus : ∀ p ∈ ptrs, (x.bafh p).afStus = p.stus
  counts : ∀ c < memareaMax, (x.hdr c).maMaxpages = areaFree x c ∧
    (x.hdr c).maFreepages = areaFree x c ∧ (x.hdr c).maAllocpages = 0

section Facts

variable {a f : Nat} {x : Mem}

theorem Filing.msaIsFree_eq (h : Filing b a f x) (i : Nat) (ty : MaType) :
    msaIsFree (x.msadscstat i) ty = msaIsFree (b.stamped i) ty := by
  obtain ⟨o, l, hi⟩ := h.tags i
  rw [hi]
  rfl

theorem Filing.padrs_eq (h : Filing b a f x) (i : Nat) :
    (x.msadscstat i).pafPadrs = (b.stamped i).pafPadrs := by
  obtain ⟨o, l, hi⟩ := h.tags i
  rw [hi]

theorem Filing.link_iff (h : Filing b a f x) (i : Nat) (ty : MaType) :
    Link x.msadscstat ty i ↔ Link b.stamped ty i := by
  unfold Link msadscRetAddr
  rw [h.msaIsFree_eq, h.msaIsFree_eq, h.padrs_eq, h.padrs_eq]

/-- The blocks on the lists of the area lie before `f`. -/
theorem Filing.below (h : Filing b a f x) (ha : a < 3) {p : BafhPtr} (hp : p ∈ ptrs)
    (hpa : p.area = a) {t i : Nat} (ht : t ∈ x.free p) (hi : (Seg.mk t p.ord).Has i) :
    i < f := by
  have hdom := h.inv.tiles.free_dom hp ht hi
  obtain ⟨j, rfl⟩ := Nat.exists_eq_add_of_le hi.1
  have hj : j < p.ord := by
    have := hi.2
    simp only at this
    omega
  have hty := (h.inv.free p hp t ht).shape j hj
  obtain ⟨o, l, htag⟩ := h.tags (t + j)
  obtain ⟨_, _, hty', _, hocc⟩ := b.stamped_of_lt hdom.1
  simp only [htag, hpa, hty'] at hty
  have hfree := hdom.2
  rw [htag] at hfree
  by_contra hlt
  have hle : f ≤ t + j := Nat.le_of_not_lt hlt
  have hun : b.Unfiled a f (t + j) :=
    ⟨hocc.mp hfree, Or.inr ⟨(padrsTy_iff ha).mp hty.1, hle⟩⟩
  have hcov : cover (b.unfiled a f) (t + j) = 1 := by
    unfold BootArray.unfiled
    rw [cover_singles, if_pos ⟨hdom.1, hun⟩]
  obtain ⟨c, hc, hci⟩ := exists_of_cover_pos (l := b.unfiled a f) (i := t + j) (by omega)
  exact h.inv.tiles.free_held_apart hp ht hi hc hci

/-- Pages that are not free pages of the area are passed over. -/
theorem Filing.skip (h : Filing b a f x) {f' : Nat} (hle : f ≤ f')
    (hskip : ∀ i, f ≤ i → i < f' → i < b.msanr → b.occupied i = false →
      padrsArea (b.padrs i) ≠ a) : Filing b a f' x := by
  have hiff : ∀ i < b.msanr, (b.Unfiled a f i ↔ b.Unfiled a f' i) := by
    intro i hi
    constructor
    · rintro ⟨h1, h2⟩
      refine ⟨h1, h2.imp_right fun h3 => ⟨h3.1, ?_⟩⟩
      by_contra hlt
      exact hskip i h3.2 (by omega) hi h1 h3.1
    · rintro ⟨h1, h2⟩
      exact ⟨h1, h2.imp_right fun h3 => ⟨h3.1, by omega⟩⟩
  refine { h with
    inv := h.inv.recut (h.inv.tiles.recover fun i => ?_)
    raw := fun i hi hun => h.raw i hi ((hiff i hi).mpr hun) }
  unfold BootArray.unfiled
  rw [cover_singles, cover_singles]
  exact if_congr (and_congr_right fun hi => hiff i hi) rfl rfl

/-- A whole area is filed. -/
theorem Filing.next (h : Filing b a f x) (hf : b.msanr ≤ f) : Filing b (a + 1) 0 x := by
  have hiff : ∀ i < b.msanr, (b.Unfiled a f i ↔ b.Unfiled (a + 1) 0 i) := by
    intro i hi
    unfold BootArray.Unfiled
    apply and_congr_right
    intro _
    omega
  refine { h with
    inv := h.inv.recut (h.inv.tiles.recover fun i => ?_)
    raw := fun i hi hun => h.raw i hi ((hiff i hi).mpr hun) }
  unfold BootArray.unfiled
  rw [cover_singles, cover_singles]
  exact if_congr (and_congr_right fun hi => hiff i hi) rfl rfl

/-- The pages of a run are unfiled. -/
theorem IsRun.unfiled {n : Nat} (hrun : IsRun b a f n) {i : Nat} (hi : i < n) :
    f + i < b.msanr ∧ b.Unfiled a f (f + i) := by
  have hle := hrun.le
  obtain ⟨h1, h2, _⟩ := hrun.page i hi
  exact ⟨by omega, h1, Or.inr ⟨h2, by omega⟩⟩

/-- A run taken together as one held block. -/
theorem Filing.takeRun (h : Filing b a f x) {n : Nat} (hrun : IsRun b a f n) :
    MemInv x b.msanr (⟨f, n⟩ :: b.unfiled a (f + n)) := by
  refine h.inv.recut (h.inv.tiles.recover fun i => ?_)
  unfold BootArray.unfiled
  refine cover_singles_run (fun j h1 h2 => ?_) (fun j => ?_) i
  · obtain ⟨k, rfl⟩ := Nat.exists_eq_add_of_le h1
    exact hrun.unfiled (by omega)
  · constructor
    · rintro ⟨h1, h2⟩
      refine ⟨⟨h1, h2.imp_right fun h3 => ⟨h3.1, by omega⟩⟩, fun hin => ?_⟩
      obtain ⟨k, rfl⟩ := Nat.exists_eq_add_of_le hin.1
      have := (hrun.page k (by omega)).2.1
      omega
    · rintro ⟨⟨h1, h2⟩, hout⟩
      refine ⟨h1, h2.imp_right fun h3 => ⟨h3.1, ?_⟩⟩
      by_contra hlt
      exact hout ⟨h3.2, by omega⟩

end Facts

/-! ## Filing one block -/

/-- The descriptors with the tags of a free block of list `p` on the `n`
descriptors at `s`. -/
def tagMsa (d : MsaArr) (p : BafhPtr) (s n : Nat) : MsaArr :=
  upd (upd d s (fun m => { m with mfOlkty := .oder, mdOdlink := .msa (s + (n - 1)) }))
    (s + (n - 1)) (fun m => { m with mfOlkty := .bafh, mdOdlink := .bafh p })

theorem tagBlock_eq (x : Mem) (p : BafhPtr) (s n : Nat) :
    x.tagBlock p s (s + (n - 1)) = x.withMsa (tagMsa x.msadscstat p s n) := rfl

/-- A block of one page carries only the second tag. -/
theorem tagMsa_one (d : MsaArr) (p : BafhPtr) (s : Nat) :
    tagMsa d p s 1 = upd d s (fun m => { m with mfOlkty := .bafh, mdOdlink := .bafh p }) := by
  funext j
  unfold tagMsa
  by_cases hj : j = s
  · subst hj
    rw [Nat.sub_self, Nat.add_zero, upd_self, upd_self, upd_self]
  · rw [Nat.sub_self, Nat.add_zero, upd_of_ne hj, upd_of_ne hj, upd_of_ne hj]

theorem tagMsa_tags (d : MsaArr) (p : BafhPtr) (s n j : Nat) :
    ∃ o l, tagMsa d p s n j = { d j with mfOlkty := o, mdOdlink := l } := by
  unfold tagMsa
  simp only [upd_apply]
  split
  · split
    · exact ⟨_, _, rfl⟩
    · exact ⟨_, _, rfl⟩
  · split
    · exact ⟨_, _, rfl⟩
    · exact ⟨_, _, rfl⟩

theorem tagMsa_retag (d : MsaArr) (p : BafhPtr) {s n : Nat} (hn : 0 < n) :
    Retag d (tagMsa d p s n) s n := by
  unfold tagMsa
  refine Retag.upd (Retag.upd (Retag.refl d s n) ?_ ?_) ?_ ?_
  · exact Seg.has_mk (by omega) (by omega)
  · exact fun _ => ⟨rfl, rfl, rfl⟩
  · exact Seg.has_mk (by omega) (by omega)
  · exact fun _ => ⟨rfl, rfl, rfl⟩

/-- Tagging untagged pages makes a free block. -/
theorem tagMsa_free {d : MsaArr} {ty : MaType} {s n : Nat} (p : BafhPtr) (hn : 0 < n)
    (hshape : Shape d ty s n) (hclean : Clean d s n)
    (hraw : ∀ i < n, (d (s + i)).mfOlkty = .init ∧ (d (s + i)).mdOdlink = .null) :
    FreeBlk (tagMsa d p s n) ty p s n := by
  refine ⟨hshape.static (tagMsa_retag d p hn).static, fun i hi => ?_, fun i h1 h2 => ?_,
    fun h1 => ?_, ?_⟩
  · obtain ⟨o, l, htag⟩ := tagMsa_tags d p s n (s + i)
    rw [htag]
    exact hclean i hi
  · unfold tagMsa
    rw [upd_of_ne (by omega), upd_of_ne (by omega)]
    exact hraw i (by omega)
  · unfold tagMsa
    rw [upd_of_ne (by omega), upd_self]
    exact ⟨rfl, rfl⟩
  · unfold tagMsa
    rw [upd_self]
    exact ⟨rfl, rfl⟩

/-- The lists of an area are lists of the pool. -/
theorem areaFree_le {x : Mem} {msanr a : Nat} {held : List Seg} (h : MemInv x msanr held)
    (ha : a < memareaMax) : areaFree x a ≤ msanr := by
  have hall := h.tiles.freeSum_le (fun _ hi => hi.1) fun p _ => p.ord_pos
  rw [freeSum_ptrs] at hall
  exact Nat.le_trans (le_sum ha fun c => freeSum (areaPtrs c) BafhPtr.ord x.free) hall

theorem mem_areaPtrs_of_used {p : BafhPtr} (h : p.Used) : p ∈ areaPtrs p.area := by
  cases p with
  | lie a k => exact lie_mem_areaPtrs h.2
  | one a => exact one_mem_areaPtrs a

/-- The memory after the block of list `p` at `s` was filed. -/
def fileMem (x : Mem) (p : BafhPtr) (s : Nat) : Mem :=
  ((x.withMsa (tagMsa x.msadscstat p s p.ord)).setBafh p ((x.bafh p).addObj s)).setMarea p.area
    (fun m => m.addPages p.ord)

section FileMem

variable (x : Mem) (p : BafhPtr) (s : Nat)

theorem fileMem_bafh :
    (fileMem x p s).bafh = Function.update x.bafh p ((x.bafh p).addObj s) := by
  unfold fileMem
  rw [setMarea_bafh, setBafh_bafh, withMsa_bafh]
  exact fun m => ⟨rfl, rfl⟩

theorem fileMem_free :
    (fileMem x p s).free = Function.update x.free p (s :: x.free p) := by
  funext q
  rw [Mem.free, fileMem_bafh]
  by_cases hq : q = p
  · subst hq
    rw [Function.update_self, Function.update_self]
    rfl
  · rw [Function.update_of_ne hq, Function.update_of_ne hq, Mem.free]

theorem fileMem_msadscstat :
    (fileMem x p s).msadscstat = tagMsa x.msadscstat p s p.ord := by
  unfold fileMem Mem.setMarea
  rw [setBafh_msadscstat, withMsa_msadscstat]

theorem fileMem_hdr_ne {c : Nat} (hc : c ≠ p.area) : (fileMem x p s).hdr c = x.hdr c := by
  unfold fileMem
  rw [setMarea_hdr_ne _ _ hc, setBafh_hdr, withMsa_hdr]

theorem fileMem_hdr : (fileMem x p s).hdr p.area = (x.hdr p.area).addPages p.ord := by
  have hin : ((x.withMsa (tagMsa x.msadscstat p s p.ord)).setBafh p
      ((x.bafh p).addObj s)).hdr p.area = x.hdr p.area := by
    rw [setBafh_hdr, withMsa_hdr]
  rw [← hin]
  unfold fileMem
  simp only [Mem.hdr, Mem.setMarea, Function.update_self, Memarea.addPages]

/-- The pages of the area after the filing. -/
theorem fileMem_areaFree {p : BafhPtr} (hp : p.Used) (s : Nat) :
    areaFree (fileMem x p s) p.area = areaFree x p.area + p.ord := by
  have hupd := freeSum_update BafhPtr.ord x.free (mem_areaPtrs_of_used hp) (s :: x.free p)
  unfold areaFree
  rw [fileMem_free]
  rw [List.length_cons, Nat.mul_succ] at hupd
  omega

theorem fileMem_areaFree_ne {c : Nat} (hc : c ≠ p.area) :
    areaFree (fileMem x p s) c = areaFree x c := by
  apply areaFree_congr
  intro q hq
  have hqp : q ≠ p := by
    rintro rfl
    exact hc hq.symm
  rw [fileMem_bafh, Function.update_of_ne hqp]

end FileMem

section File

variable {a f : Nat} {x : Mem}

/-- **Filing one block** keeps the invariant, when the block does not continue
a block of the same list. -/
theorem Filing.file (h : Filing b a f x) (ha : a < 3) {p : BafhPtr} (hp : p.Used)
    (hpa : p.area = a) (hrun : IsRun b a f p.ord)
    (hadj : ∀ k, p = .lie a k → ∀ t ∈ x.free p, t + 2 ^ k = f →
      b.padrs f ≠ b.padrs t + 2 ^ k) :
    Filing b a (f + p.ord) (fileMem x p f) := by
  have hpos := p.ord_pos
  have hmem := hp.mem_ptrs
  have hmax : memareaMax = 4 := rfl
  have htake := h.takeRun hrun
  have hret := tagMsa_retag x.msadscstat p (s := f) hpos
  -- the pages of the block as the stamping left them
  have hpage : ∀ i < p.ord, x.msadscstat (f + i) = b.stamped (f + i) ∧ f + i < b.msanr := by
    intro i hi
    obtain ⟨hlt, hun⟩ := hrun.unfiled hi
    exact ⟨h.raw _ hlt hun, hlt⟩
  have hfree : ∀ i < p.ord, msaIsFree (b.stamped (f + i)) (areaTy a) = true := by
    intro i hi
    obtain ⟨h1, h2, _⟩ := hrun.page i hi
    exact (b.msaIsFree_stamped (hpage i hi).2 ha).mpr ⟨h1, h2⟩
  have hblk : FreeBlk (tagMsa x.msadscstat p f p.ord) (areaTy p.area) p f p.ord := by
    refine tagMsa_free p hpos (fun i hi => ?_) (fun i hi => ?_) fun i hi => ?_
    · obtain ⟨heq, hlt⟩ := hpage i hi
      obtain ⟨heq0, hlt0⟩ := hpage 0 hpos
      obtain ⟨_, h2, h3⟩ := hrun.page i hi
      obtain ⟨_, _, hty, hpd, _⟩ := b.stamped_of_lt hlt
      obtain ⟨_, _, _, hpd0, _⟩ := b.stamped_of_lt hlt0
      rw [Nat.add_zero] at heq0 hpd0
      rw [heq, heq0, hty, hpd, hpd0, hpa]
      exact ⟨(padrsTy_iff ha).mpr h2, h3⟩
    · have hf := hfree i hi
      rw [(hpage i hi).1]
      simp only [msaIsFree, Bool.and_eq_true, decide_eq_true_eq, Bool.not_eq_true'] at hf
      exact ⟨hf.1.1.2, hf.2⟩
    · obtain ⟨heq, hlt⟩ := hpage i hi
      obtain ⟨h1, h2, _⟩ := b.stamped_of_lt hlt
      rw [heq]
      exact ⟨h1, h2⟩
  have hinv : MemInv (fileMem x p f) b.msanr (b.unfiled a (f + p.ord)) := by
    have htag := htake.retag List.mem_cons_self hret
    have hpush := htag.push hp (by rw [withMsa_msadscstat]; exact hblk)
    rw [withMsa_bafh] at hpush
    refine hpush.congr ?_ rfl fun c => ?_
    · exact setMarea_bafh _ _ _ fun m => ⟨rfl, rfl⟩
    · by_cases hc : c = p.area
      · subst hc
        rw [fileMem_hdr, setBafh_hdr, withMsa_hdr]
        rfl
      · rw [fileMem_hdr_ne x p f hc, setBafh_hdr, withMsa_hdr]
  refine {
    inv := hinv
    tags := fun i => ?_
    raw := fun i hi hun => ?_
    noAdj := fun c k hk t ht ht' => ?_
    stus := fun q hq => ?_
    counts := fun c hc => ?_ }
  · obtain ⟨o, l, h1⟩ := h.tags i
    obtain ⟨o', l', h2⟩ := tagMsa_tags x.msadscstat p f p.ord i
    refine ⟨o', l', ?_⟩
    rw [fileMem_msadscstat, h2, h1]
  · have hout : ¬ (Seg.mk f p.ord).Has i := by
      rintro ⟨h1, h2⟩
      simp only at h1 h2
      obtain ⟨j, rfl⟩ := Nat.exists_eq_add_of_le h1
      have := (hrun.page j (by omega)).2.1
      rcases hun.2 with hlater | ⟨_, hge⟩
      · omega
      · omega
    rw [fileMem_msadscstat, hret.frame i hout]
    refine h.raw i hi ⟨hun.1, hun.2.imp_right fun h3 => ⟨h3.1, by omega⟩⟩
  · rw [fileMem_msadscstat, (hret.static _).2.2, (hret.static _).2.2]
    rw [fileMem_free] at ht ht'
    by_cases hcp : BafhPtr.lie c k = p
    · subst hcp
      have hca : c = a := hpa
      subst hca
      rw [Function.update_self] at ht ht'
      have hord : (BafhPtr.lie c k).ord = 2 ^ k := rfl
      have hbelow : ∀ u ∈ x.free (.lie c k), u < f := fun u hu =>
        h.below ha hmem rfl hu (i := u) (Seg.has_mk (Nat.le_refl u) (by omega))
      rcases List.mem_cons.mp ht with rfl | ht
      · rcases List.mem_cons.mp ht' with h0 | ht'
        · omega
        · have := hbelow _ ht'
          omega
      · rcases List.mem_cons.mp ht' with h0 | ht'
        · have htend := h.inv.free_end_le hmem ht
          have hend := hrun.le
          have hne := hadj k rfl t ht h0
          rw [h.padrs_eq, h.padrs_eq, (b.stamped_of_lt (by omega)).2.2.2.1,
            (b.stamped_of_lt (by omega)).2.2.2.1, h0]
          exact hne
        · exact h.noAdj c k hk t ht ht'
    · rw [Function.update_of_ne hcp] at ht ht'
      exact h.noAdj c k hk t ht ht'
  · rw [fileMem_bafh]
    by_cases hqp : q = p
    · subst hqp
      rw [Function.update_self]
      exact h.stus q hq
    · rw [Function.update_of_ne hqp]
      exact h.stus q hq
  · obtain ⟨h1, h2, h3⟩ := h.counts c hc
    by_cases hcp : c = p.area
    · subst hcp
      have hle := areaFree_le hinv hc
      have hlt := h.inv.msanr_lt
      rw [fileMem_hdr, fileMem_areaFree x hp]
      rw [fileMem_areaFree x hp] at hle
      unfold Memarea.addPages
      simp only
      rw [h1, h2, add64_eq (by omega)]
      exact ⟨rfl, rfl, h3⟩
    · rw [fileMem_hdr_ne x p f hcp, fileMem_areaFree_ne x p f hcp]
      exact ⟨h1, h2, h3⟩

end File

end Boot

end Cosmos.Hal
