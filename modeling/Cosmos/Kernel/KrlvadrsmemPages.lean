import Cosmos.Kernel.KrlvadrsmemEnd
import Cosmos.Kernel.KrlvadrsmemMap

/-!
# Pages and frames over whole runs

A free walks whole pages from its start, aligned or not, so a start inside a page takes
that page from the region before it: `pages_kept_iff` says when it does.  The frames of a
box are those of the pages mapped in its regions as long as no fault comes for a page that
is mapped already; such a fault puts a second frame into the box.

## Main results

* `pages_kept_iff` and `pages_not_kept` : when a free keeps the pages of the regions that
  stay, and a free that does not.
* `boxes_exact` and `boxes_not_exact` : frames correspond to mapped pages, or not.
-/

namespace Cosmos.Kernel

open Cosmos.Lib Cosmos.Lib.Ranges Cosmos.Lib.Run Cosmos.Lib.Word64 Cosmos.Hal

section Runs

variable {pdptepd mm : Nat} {k s₀ s : VmaSt}

/-- A new address space has no page. -/
theorem Made.pages (h : Made (copyPagesData pdptepd) k mm s₀) (hk : BoxesLive k) :
    ∃ base, PageInv (copyPagesData pdptepd) k.mgr.kbmKmbhead base s₀ [] (fun _ => none) := by
  obtain ⟨base, -, -, hobjs⟩ := h.objs hk
  obtain ⟨x, y, z, hal, kms, rfl, -, htop⟩ := h.start
  have hok := init_mmuOk pdptepd (by rfl) htop
  refine ⟨base, hobjs, initUser_inOrder x y z, ⟨k.hal.pgs.out, hok, ?_⟩, ?_, ?_⟩
  · exact fun b hb => absurd hb List.not_mem_nil
  · exact fun b hb => absurd hb List.not_mem_nil
  · exact fun b hb => absurd hb List.not_mem_nil

theorem vmaStep_pages {pml4 : Nat → Nat} {head0 base : List Nat} (s : VmaSt) (op : VmaOp)
    (s' : VmaSt) (h : ∃ mine map, PageInv pml4 head0 base s mine map) (hop : op.NoWrap)
    (hstep : vmaStep s op = .ok s') : ∃ mine map, PageInv pml4 head0 base s' mine map := by
  obtain ⟨mine, map, h⟩ := h
  have hmove := vmaStep_move hstep
  cases op with
  | new start vassize vaslimits vastype =>
      obtain ⟨ret, vma, kms, ha, -, rfl⟩ := hmove
      exact ⟨mine, map, (h.alloced s.box ha hop).1⟩
  | del start vassize =>
      obtain ⟨b, hf⟩ := hmove
      obtain ⟨mine', h', -⟩ := h.freed s.box hf (vadszAlign_mod vassize) hop
      exact ⟨mine', _, h'⟩
  | fair vadrs =>
      obtain ⟨ret, hf⟩ := hmove
      obtain ⟨mine', map', h', -⟩ := h.faired s.box hf
      exact ⟨mine', map', h'⟩

theorem run_pages (h : Made (copyPagesData pdptepd) k mm s₀) (hk : BoxesLive k) (ops : List VmaOp)
    (hops : ∀ op ∈ ops, op.NoWrap) (hrun : run vmaStep ops s₀ = .ok s) :
    ∃ base mine map, PageInv (copyPagesData pdptepd) k.mgr.kbmKmbhead base s mine map := by
  obtain ⟨base, hinv⟩ := h.pages hk
  exact ⟨base, run_inv_of_allSteps
    (fun s => ∃ mine map, PageInv (copyPagesData pdptepd) k.mgr.kbmKmbhead base s mine map)
    (fun _ op => op.NoWrap) vmaStep_pages ops s₀ s ⟨_, _, hinv⟩ (allSteps_of_forall ops s₀ hops)
    hrun⟩

/-! ## What a free takes -/

/-- The pages that the regions of `s'` have a part of, and that were mapped in `s`, are
mapped to the same frames. -/
def PagesKept (s s' : VmaSt) : Prop :=
  ∀ r ∈ s'.vma.vsList, ∀ x, r.kvaStart ≤ x → x < r.kvaEnd →
    ∀ f, mmuLookup s.hal x = some f → mmuLookup s'.hal x = some f

/-- A free with these arguments takes no page from a region that stays: it fails, or its
range wraps and no page is walked, or it starts with a page, or the page it starts in is
not mapped, or no region has a part of that page before the start. -/
def TakesOwnPages (s : VmaSt) (start vassize : Nat) : Prop :=
  (start = 0 ∨ DelRefused s start (vadszAlign vassize)) ∨
    wordMod ≤ start + vadszAlign vassize ∨ start % 0x1000 = 0 ∨ mmuLookup s.hal start = none ∨
      ∀ r ∈ s.vma.vsList, ∀ x, start - start % 0x1000 ≤ x → x < start →
        ¬ (r.kvaStart ≤ x ∧ x < r.kvaEnd)

theorem PagesKept.of_hal {s s' : VmaSt} (h : s'.hal = s.hal) : PagesKept s s' := by
  intro r _ x _ _ f hf
  rw [h]
  exact hf

/-- A free that does not wrap, and succeeds. -/
theorem Freed.pagesKept_iff {pml4 : Nat → Nat} {head0 base mine : List Nat}
    {map : Nat → Option PageFrame} {s' : VmaSt} {start vassize : Nat}
    (hf : Freed s start vassize true s') (h : PageInv pml4 head0 base s mine map)
    (hsz : vassize % 0x1000 = 0) (hnw : start + vassize < wordMod) :
    PagesKept s s' ↔ start % 0x1000 = 0 ∨ mmuLookup s.hal start = none ∨
      ∀ r ∈ s.vma.vsList, ∀ x, start - start % 0x1000 ≤ x → x < start →
        ¬ (r.kvaStart ≤ x ∧ x < r.kvaEnd) := by
  obtain ⟨mine', h', -⟩ := h.freed s.box hf hsz hnw
  rw [if_pos rfl] at h'
  have hlook := hf.look regionView_overAdrs h.order h.objs.adr_nodup hnw
  obtain ⟨r₀, s₁, s₂, b₁, hr₀, -⟩ := hf.unmaps
  have hlo := hr₀.lo
  have hhi := hr₀.hi
  have hmin := hr₀.size
  have htop := h.order.top r₀ hr₀.mem
  unfold userVirtualAddressEnd at htop
  rw [add64_eq hnw] at hhi
  have hstart : mmuLookup s.hal start = map (start / 0x1000) := by
    rw [h.frames.lookup (by omega), pageNr_eq (by omega)]
  constructor
  · intro hkept
    by_contra hno
    rw [not_or, not_or] at hno
    obtain ⟨hmod, hmapped, hpart⟩ := hno
    push Not at hpart
    obtain ⟨r, hr, x, hxlo, hxhi, hrlo, hrhi⟩ := hpart
    -- the byte stays in a region
    have hx := hlook x
    rw [paint, if_neg (by omega), look_of_mem h.order.asc hr (show regionView.Has r x from
      ⟨hrlo, hrhi⟩)] at hx
    obtain ⟨r', hr', hrx, -⟩ := has_of_look hx
    obtain ⟨f, hfm⟩ := Option.ne_none_iff_exists'.mp hmapped
    have hpage : x / 0x1000 = start / 0x1000 := by omega
    have hxf : mmuLookup s.hal x = some f := by
      rw [h.frames.lookup (by omega), pageNr_eq (by omega), hpage, ← hstart]
      exact hfm
    have hgone := hkept r' hr' x hrx.1 hrx.2 f hxf
    rw [h'.frames.lookup (by omega), cleared, if_pos] at hgone
    · cases hgone
    · refine ⟨start, (mem_vmapAdrs hsz).mpr ⟨Nat.le_refl _, by omega, by omega⟩, ?_⟩
      rw [pageNr_eq (by omega), pageNr_eq (by omega), hpage]
  · intro hown r' hr' x hxlo hxhi f hxf
    have htop' := h'.order.top r' hr'
    unfold userVirtualAddressEnd at htop'
    have hx := hlook x
    rw [look_of_mem h'.order.asc hr' (show regionView.Has r' x from ⟨hxlo, hxhi⟩), paint] at hx
    have hout : ¬ (start ≤ x ∧ x < start + vassize) := by
      intro hin
      rw [if_pos hin] at hx
      cases hx
    rw [if_neg hout] at hx
    obtain ⟨r, hr, hrx, -⟩ := has_of_look hx.symm
    rw [h.frames.lookup (by omega), pageNr_eq (by omega)] at hxf
    rw [h'.frames.lookup (by omega), pageNr_eq (by omega), cleared, if_neg]
    · exact hxf
    · -- only the page of the start can be shared
      rintro ⟨v, hv, hvx⟩
      obtain ⟨hvlo, hvhi, hvmod⟩ := (mem_vmapAdrs hsz).mp hv
      rw [pageNr_eq (by omega)] at hvx
      have hpage : x / 0x1000 = start / 0x1000 := by omega
      rcases hown with hmod | hnone | hpart
      · omega
      · rw [hstart, ← hpage, hxf] at hnone
        cases hnone
      · exact hpart r hr x (by omega) (by omega) hrx

/-- **When a free keeps the pages of the regions that stay**, in every state that calls
lead to whose ranges do not wrap. -/
theorem pages_kept_iff (h : Made (copyPagesData pdptepd) k mm s₀) (hk : BoxesLive k)
    (ops : List VmaOp) (hops : ∀ op ∈ ops, op.NoWrap) (hrun : run vmaStep ops s₀ = .ok s)
    (start vassize : Nat) {b : Bool} {s' : VmaSt}
    (hdel : (vmaDelVadrs start vassize).run s = .ok (b, s')) :
    PagesKept s s' ↔ TakesOwnPages s start vassize := by
  obtain ⟨base, mine, map, hinv⟩ := run_pages h hk ops hops hrun
  have hrefused := vmaDelVadrs_refused_iff hdel
  obtain ⟨hf, -⟩ := vmaDelVadrs_cases hdel
  unfold TakesOwnPages
  cases b with
  | false =>
      refine iff_of_true (PagesKept.of_hal ?_) (Or.inl (hrefused.mp rfl))
      cases hf
      rfl
  | true =>
      have hdone : ¬ (start = 0 ∨ DelRefused s start (vadszAlign vassize)) :=
        fun hr => absurd (hrefused.mpr hr) (by decide)
      rw [or_iff_right hdone]
      by_cases hw : wordMod ≤ start + vadszAlign vassize
      · refine iff_of_true (PagesKept.of_hal ?_) (Or.inl hw)
        obtain ⟨r, s₁, s₂, b₁, -, hs₁, hun, hs₂⟩ := hf.unmaps
        unfold vmaDelUnmapping at hun
        rw [vmapAdrs_wrap (vadszAlign_lt vassize) hw] at hun
        cases hun
        rw [hs₂.hal, hs₁.hal]
      · rw [or_iff_right hw]
        exact hf.pagesKept_iff hinv (vadszAlign_mod vassize) (by omega)

/-- The heap grows by a page, and its first page is mapped. -/
def heapPages : List VmaOp :=
  [.new 0 0x1000 0 8, .fair 0x100000000]

/-- Its second page goes, and the first one stays mapped. -/
theorem pages_kept_iff_heapPages : ∃ s s' : VmaSt,
    (vmaDelVadrs 0x100001000 0x1000).run s = .ok (true, s') ∧ PagesKept s s' ∧
      (mmuLookup s'.hal 0x100000000).isSome := by
  obtain ⟨s₀, hmade, hq⟩ := exists_made (q := fun s => okAnd (run vmaStep heapPages s)
    fun t => okAnd ((vmaDelVadrs 0x100001000 0x1000).run t)
      fun r => r.1 && (mmuLookup r.2.hal 0x100000000).isSome) (by decide +kernel)
  obtain ⟨s, hrun, hs⟩ := exists_of_okAnd hq
  obtain ⟨⟨b, s'⟩, hdel, hs'⟩ := exists_of_okAnd hs
  rw [Bool.and_eq_true] at hs'
  obtain ⟨hb, hlook⟩ := hs'
  simp only at hb
  subst hb
  have hkept := pages_kept_iff hmade freshVma_boxesLive heapPages (by decide) hrun
    0x100001000 0x1000 hdel
  exact ⟨s, s', hdel, hkept.mpr (Or.inr (Or.inr (Or.inl (by decide)))), hlook⟩

/-- A free from the middle of the first page takes the whole page. -/
theorem pages_not_kept : ¬ ∀ (k s₀ s s' : VmaSt) (mm : Nat) (ops : List VmaOp)
    (start vassize : Nat) (b : Bool), Made (copyPagesData 0) k mm s₀ → BoxesLive k →
      run vmaStep ops s₀ = .ok s → (vmaDelVadrs start vassize).run s = .ok (b, s') →
        PagesKept s s' := by
  intro hall
  obtain ⟨s₀, hmade, hq⟩ := exists_made (q := fun s => okAnd (run vmaStep heapPages s)
    fun t => (mmuLookup t.hal 0x100000000).isSome &&
      okAnd ((vmaDelVadrs 0x100000800 0x1000).run t) fun r =>
        (mmuLookup r.2.hal 0x100000000).isNone &&
          r.2.vma.vsList.any fun r => r.kvaStart = 0x100000000 && r.kvaEnd = 0x100000800)
    (by decide +kernel)
  obtain ⟨s, hrun, hs⟩ := exists_of_okAnd hq
  rw [Bool.and_eq_true] at hs
  obtain ⟨⟨b, s'⟩, hdel, hs'⟩ := exists_of_okAnd hs.2
  rw [Bool.and_eq_true, List.any_eq_true] at hs'
  obtain ⟨hnone, r, hr, hbounds⟩ := hs'
  simp only [Bool.and_eq_true, decide_eq_true_eq] at hbounds
  obtain ⟨f, hf⟩ := Option.isSome_iff_exists.mp hs.1
  have hkept := hall freshVma s₀ s s' _ heapPages _ _ b hmade freshVma_boxesLive hrun hdel
    r hr 0x100000000 (by omega) (by omega) f hf
  rw [Option.isNone_iff_eq_none.mp hnone] at hkept
  cases hkept

end Runs

/-! ## Regions are made of pages -/

section Bounds

variable {vma vma' : Virmemadrs} {s s' : VmaSt} {start vassize : Nat}

theorem Alloced.pageBounds {kms kms' : Supply Nat} {vaslimits vastype ret : Nat}
    (h : Alloced vma kms start vassize vaslimits vastype ret vma' kms') (hb : PageBounds vma)
    (hv : InOrder vma) (hnd : (vma.vsList.map Kmvarsdsc.adr).Nodup)
    (hnw : start + vassize < wordMod) (hstart : start % 0x1000 = 0)
    (hsz : vassize % 0x1000 = 0) : PageBounds vma' := by
  cases h with
  | refused kms' hout => exact hb
  | grown r hfits hsame hlike =>
      have hlo : r.kvaEnd = if start = 0 then r.kvaEnd else start := by
        by_cases h0 : start = 0
        · rw [if_pos h0]
        · rw [if_neg h0]
          omega
      obtain ⟨l₁, l₂, hgap⟩ := hfits.gap hv hnd hnw hlo
      have htop := hgap.top
      have hsum := hgap.sum
      have hmin := hfits.size
      have hrb := hb r hfits.mem
      intro a ha
      rcases List.mem_cons.mp ((Chain.upd_perm _ hnd hfits.mem).mem_iff.mp ha) with rfl | ha
      · refine ⟨hrb.1, Or.inl ?_⟩
        show add64 r.kvaEnd vassize % 0x1000 = 0
        omega
      · exact hb a ((Chain.del_perm hnd hfits.mem).mem_iff.mpr (List.mem_cons_of_mem _ ha))
  | added r hfits a kms' hnew hout lo hlo =>
      obtain ⟨l₁, l₂, hgap⟩ := hfits.gap hv hnd hnw hlo
      have htop := hgap.top
      have hsum := hgap.sum
      have hmin := hfits.size
      have hbehind := hgap.behind
      have hrb := hb r hfits.mem
      have hmod : ret % 0x1000 = 0 := by
        by_cases h0 : start = 0
        · rw [if_pos h0] at hlo
          omega
        · rw [if_neg h0] at hlo
          omega
      intro c hc
      rcases List.mem_cons.mp ((Chain.add_perm hnd hfits.mem).mem_iff.mp hc) with rfl | hc
      · refine ⟨hmod, Or.inl ?_⟩
        show add64 ret vassize % 0x1000 = 0
        omega
      · exact hb c hc

theorem Freed.pageBounds {b : Bool} (h : Freed s start vassize b s') (hb : PageBounds s.vma)
    (hnd : (s.vma.vsList.map Kmvarsdsc.adr).Nodup) (hstart : start % 0x1000 = 0)
    (hsz : vassize % 0x1000 = 0) : PageBounds s'.vma := by
  obtain ⟨-, ⟨-, hvma⟩ | ⟨-, r, l₁, l₂, a, hr, hl, hl'⟩⟩ := h.regions hnd
  · rw [hvma]
    exact hb
  have hrb := hb r hr.mem
  intro c hc
  rw [hl', List.append_assoc, List.mem_append, List.mem_append] at hc
  rcases hc with hc | hc | hc
  · exact hb c (hl ▸ List.mem_append_left _ hc)
  · rcases mem_rest hc with ⟨-, rfl⟩ | ⟨-, rfl⟩
    · exact ⟨hrb.1, Or.inl hstart⟩
    · refine ⟨?_, hrb.2⟩
      have hmod := add64_mod start vassize hsz
      show add64 start vassize % 0x1000 = 0
      omega
  · exact hb c (hl ▸ List.mem_append_right _ (List.mem_cons_of_mem _ hc))

theorem Faired.pageBounds {vadrs : Nat} {ret : FairRet} (h : Faired s vadrs ret s')
    (hb : PageBounds s.vma) : PageBounds s'.vma := by
  intro r hr
  have hr := List.mem_map_of_mem
    (f := fun r : Kmvarsdsc => (r.kvaStart, r.kvaEnd, r.kvaLimits, r.kvaMaptype)) hr
  rw [h.regions.2] at hr
  obtain ⟨r', hr', he⟩ := List.mem_map.mp hr
  rw [Prod.mk.injEq, Prod.mk.injEq] at he
  rw [← he.1, ← he.2.1]
  exact hb r' hr'

end Bounds

/-! ## Frames correspond to mapped pages -/

/-- A page that a region with the box has a part of. -/
def BoxPage (vma : Virmemadrs) (c p : Nat) : Prop :=
  p % 0x1000 = 0 ∧
    ∃ r ∈ vma.vsList, r.kvaKvmbox = some c ∧ r.kvaStart < p + 0x1000 ∧ p < r.kvaEnd

/-- The frames of a box are counted, and correspond one to one to the pages that are
mapped in its regions. -/
structure BoxExact (s : VmaSt) (c : Nat) : Prop where
  msanr : (s.box c).kmbMsanr = (s.box c).kmbMsalist.length
  once : (s.box c).kmbMsalist.Nodup
  frame : ∀ f, f ∈ (s.box c).kmbMsalist ↔ ∃ p, BoxPage s.vma c p ∧ mmuLookup s.hal p = some f
  page : ∀ p q f, BoxPage s.vma c p → BoxPage s.vma c q → mmuLookup s.hal p = some f →
    mmuLookup s.hal q = some f → p = q

/-- Each box that a region uses is exact, and each that none uses is as before the address
space was made, or has no frames. -/
structure BoxesExact (box₀ : Nat → Kvmemcbox) (s : VmaSt) : Prop where
  used : ∀ r ∈ s.vma.vsList, ∀ c, r.kvaKvmbox = some c → BoxExact s c
  unused : ∀ c, (∀ r ∈ s.vma.vsList, r.kvaKvmbox ≠ some c) →
    s.box c = box₀ c ∨ (s.box c).kmbMsalist = [] ∧ (s.box c).kmbMsanr = 0

/-- The range of the call starts with a page. -/
def VmaOp.PageAligned : VmaOp → Prop
  | .new start _ _ _ => start % 0x1000 = 0
  | .del start _ => start % 0x1000 = 0
  | .fair _ => True

instance (op : VmaOp) : Decidable op.PageAligned :=
  match op with
  | .new start _ _ _ => inferInstanceAs (Decidable (start % 0x1000 = 0))
  | .del start _ => inferInstanceAs (Decidable (start % 0x1000 = 0))
  | .fair _ => inferInstanceAs (Decidable True)

/-- A fault comes for an address that is not mapped. -/
def FreshFault (s : VmaSt) : VmaOp → Prop
  | .fair vadrs => mmuLookup s.hal vadrs = none
  | _ => True

instance (s : VmaSt) (op : VmaOp) : Decidable (FreshFault s op) :=
  match op with
  | .new _ _ _ _ => inferInstanceAs (Decidable True)
  | .del _ _ => inferInstanceAs (Decidable True)
  | .fair vadrs => inferInstanceAs (Decidable (mmuLookup s.hal vadrs = none))

/-- A fault that is served is for an address that is not mapped. -/
def ServesFresh (s : VmaSt) : VmaOp → Prop
  | .fair vadrs => ∀ s', (vmaMapFairvadrs vadrs).run s = .ok (.eok, s') →
      mmuLookup s.hal vadrs = none
  | _ => True

theorem FreshFault.serves {s : VmaSt} {op : VmaOp} (h : FreshFault s op) : ServesFresh s op := by
  cases op with
  | new start vassize vaslimits vastype => trivial
  | del start vassize => trivial
  | fair vadrs => exact fun _ _ => h

/-- A range that is freed starts with a page. -/
def VmaOp.FreesPages : VmaOp → Prop
  | .del start _ => start % 0x1000 = 0
  | _ => True

instance (op : VmaOp) : Decidable op.FreesPages :=
  match op with
  | .new _ _ _ _ => inferInstanceAs (Decidable True)
  | .del start _ => inferInstanceAs (Decidable (start % 0x1000 = 0))
  | .fair _ => inferInstanceAs (Decidable True)

theorem VmaOp.PageAligned.freesPages {op : VmaOp} (h : op.PageAligned) : op.FreesPages := by
  cases op with
  | new start vassize vaslimits vastype => trivial
  | del start vassize => exact h
  | fair vadrs => trivial

/-- The frames of the pages that are freed are below `2^40`. -/
def FreesLow (s : VmaSt) : VmaOp → Prop
  | .del start vassize => LowRange s start (vadszAlign vassize)
  | _ => True

instance (s : VmaSt) (op : VmaOp) : Decidable (FreesLow s op) :=
  match op with
  | .new _ _ _ _ => inferInstanceAs (Decidable True)
  | .del start vassize => inferInstanceAs (Decidable (LowRange s start (vadszAlign vassize)))
  | .fair _ => inferInstanceAs (Decidable True)

/-- The pages of an address space whose regions are made of pages, with their boxes. -/
def OwnedInv (pml4 : Nat → Nat) (head0 base : List Nat) (box₀ : Nat → Kvmemcbox) (s : VmaSt) :
    Prop :=
  ∃ mine map, PageInv pml4 head0 base s mine map ∧ PageBounds s.vma ∧
    Owned box₀ s mine map (boxOf s.vma)

section Boxes

variable {pdptepd mm : Nat} {k s₀ s : VmaSt} {pml4 : Nat → Nat} {head0 base mine : List Nat}
  {map : Nat → Option PageFrame} {box₀ : Nat → Kvmemcbox}

/-- Regions stay made of pages. -/
theorem vmaStep_pageBounds {s s' : VmaSt} {op : VmaOp} (h : PageInv pml4 head0 base s mine map)
    (hnw : op.NoWrap) (hal : op.FreesPages) (hb : PageBounds s.vma)
    (hstep : vmaStep s op = .ok s') : PageBounds s'.vma := by
  have hmove := vmaStep_move hstep
  cases op with
  | new start vassize vaslimits vastype =>
      obtain ⟨ret, vma, kms, ha, rfl | ⟨hmod, -⟩, rfl⟩ := hmove
      · exact hb
      · exact ha.pageBounds hb h.order h.objs.adr_nodup hnw hmod (vadszAlign_mod vassize)
  | del start vassize =>
      obtain ⟨b, hf⟩ := hmove
      exact hf.pageBounds hb h.objs.adr_nodup hal (vadszAlign_mod vassize)
  | fair vadrs =>
      obtain ⟨ret, hf⟩ := hmove
      exact hf.pageBounds hb

/-- **Each call keeps it.** -/
theorem vmaStep_owned (s : VmaSt) (op : VmaOp) (s' : VmaSt)
    (h : OwnedInv pml4 head0 base box₀ s)
    (hop : (op.NoWrap ∧ op.FreesPages) ∧ ServesFresh s op ∧ FreesLow s op)
    (hstep : vmaStep s op = .ok s') : OwnedInv pml4 head0 base box₀ s' := by
  obtain ⟨mine, map, h, hb, ho⟩ := h
  obtain ⟨⟨hnw, hal⟩, hfresh, hlow⟩ := hop
  have hb' := vmaStep_pageBounds h hnw hal hb hstep
  have hmove := vmaStep_move hstep
  cases op with
  | new start vassize vaslimits vastype =>
      obtain ⟨ret, vma, kms, ha, -, rfl⟩ := hmove
      obtain ⟨h', ho'⟩ := h.alloced box₀ ha hnw
      exact ⟨mine, map, h', hb', ho' ho⟩
  | del start vassize =>
      obtain ⟨b, hf⟩ := hmove
      obtain ⟨mine', h', ho'⟩ := h.freed box₀ hf (vadszAlign_mod vassize) hnw
      exact ⟨mine', _, h', hb', ho' hal hlow ho⟩
  | fair vadrs =>
      obtain ⟨⟨ret, s'⟩, hrun, rfl⟩ := exists_of_map_ok hstep
      obtain ⟨mine', map', h', ho'⟩ := h.faired box₀ (vmaMapFairvadrs_cases hrun)
      refine ⟨mine', map', h', hb', ho' hb (fun heok => ?_) ho⟩
      rw [heok] at hrun
      exact hfresh s' hrun

theorem initUser_pageBounds (x y z : Nat) : PageBounds (virmemadrsInit.initUser x y z) := by
  intro r hr
  rw [initUser_vsList] at hr
  simp only [List.mem_cons, List.not_mem_nil, or_false] at hr
  have hof : ∀ a lo hi t, lo % 0x1000 = 0 → (hi % 0x1000 = 0 ∨ hi = userVirtualAddressEnd) →
      (kmvarsdscOf a lo hi t).kvaStart % 0x1000 = 0 ∧ ((kmvarsdscOf a lo hi t).kvaEnd % 0x1000 = 0 ∨
        (kmvarsdscOf a lo hi t).kvaEnd = userVirtualAddressEnd) :=
    fun _ _ _ _ hlo hhi => ⟨hlo, hhi⟩
  rcases hr with rfl | rfl | rfl
  · exact hof x _ _ _ (by decide) (by decide)
  · exact hof y _ _ _ (by decide) (by decide)
  · exact hof z _ _ _ (by decide) (by decide)

theorem Made.pageBounds (h : Made pml4 k mm s₀) : PageBounds s₀.vma := by
  obtain ⟨x, y, z, hal, kms, rfl, -⟩ := h.start
  exact initUser_pageBounds x y z

theorem Made.owned (h : Made (copyPagesData pdptepd) k mm s₀) (hk : BoxesLive k) :
    ∃ base, OwnedInv (copyPagesData pdptepd) k.mgr.kbmKmbhead base k.box s₀ := by
  obtain ⟨base, hinv⟩ := h.pages hk
  refine ⟨base, [], _, hinv, h.pageBounds, ?_⟩
  obtain ⟨x, y, z, hal, kms, rfl, -⟩ := h.start
  refine ⟨fun p _ f hf => ?_, fun c hc => ?_, fun p q f _ _ hf => ?_, fun c hc => ?_,
    fun c _ => Or.inl rfl⟩
  · cases hf
  · exact absurd hc List.not_mem_nil
  · cases hf
  · exact absurd hc List.not_mem_nil

theorem BoxPage.page {c p : Nat} (h : BoxPage s.vma c p) (hv : InOrder s.vma)
    (hb : PageBounds s.vma) :
    ∃ q, p = q * 0x1000 ∧ q < 2 ^ 35 ∧ boxOf s.vma q = some c := by
  obtain ⟨hmod, r, hr, hc, hlo, hhi⟩ := h
  have hrb := (hb r hr).1
  have htop := hv.top r hr
  unfold userVirtualAddressEnd at htop
  refine ⟨p / 0x1000, by omega, by omega, ?_⟩
  rw [← hc]
  exact boxOf_of_mem hv hr (by omega) (by omega)

theorem Owned.boxExact (ho : Owned box₀ s mine map (boxOf s.vma))
    (h : PageInv pml4 head0 base s mine map) (hb : PageBounds s.vma) {c : Nat} (hc : c ∈ mine) :
    BoxExact s c := by
  have hlook : ∀ q, q < 2 ^ 35 → mmuLookup s.hal (q * 0x1000) = map q := by
    intro q hq
    rw [h.frames.lookup (by omega), pageNr_eq (by omega), Nat.mul_div_cancel q (by decide)]
  refine ⟨ho.msanr c hc, h.frames.once c hc, fun f => ⟨fun hf => ?_, ?_⟩, ?_⟩
  · obtain ⟨q, hq, hm, ha⟩ := ho.frame c hc f hf
    obtain ⟨r, hr, ⟨hlo, hhi⟩, hbox⟩ := exists_of_boxOf ha
    refine ⟨q * 0x1000, ⟨by omega, r, hr, hbox, by omega, hhi⟩, ?_⟩
    rw [hlook q hq, hm]
  · rintro ⟨p, hp, hf⟩
    obtain ⟨q, rfl, hq, ha⟩ := hp.page h.order hb
    rw [hlook q hq] at hf
    obtain ⟨d, -, had, hfd⟩ := ho.page q hq f hf
    rw [ha] at had
    cases had
    exact hfd
  · intro p p' f hp hp' hf hf'
    obtain ⟨q, rfl, hq, -⟩ := hp.page h.order hb
    obtain ⟨q', rfl, hq', -⟩ := hp'.page h.order hb
    rw [hlook q hq] at hf
    rw [hlook q' hq'] at hf'
    rw [ho.inj q q' f hq hq' hf hf']

/-- **Frames correspond to mapped pages**, in every state that calls lead to whose ranges
start with a page and do not wrap, as long as each fault is for an address that is not
mapped, and the frames of the pages that are freed are below `2^40`. -/
theorem boxes_exact (h : Made (copyPagesData pdptepd) k mm s₀) (hk : BoxesLive k)
    (ops : List VmaOp) (hops : ∀ op ∈ ops, op.NoWrap ∧ op.PageAligned)
    (hfault : AllSteps vmaStep FreshFault ops s₀) (hlow : AllSteps vmaStep FreesLow ops s₀)
    (hrun : run vmaStep ops s₀ = .ok s) : BoxesExact k.box s := by
  obtain ⟨base, hinv⟩ := h.owned hk
  obtain ⟨mine, map, h', hb, ho⟩ := run_inv_of_allSteps
    (OwnedInv (copyPagesData pdptepd) k.mgr.kbmKmbhead base k.box) _ vmaStep_owned ops s₀ s hinv
    ((allSteps_of_forall ops s₀ fun op hop => (hops op hop).imp_right
      VmaOp.PageAligned.freesPages).and ((hfault.imp fun _ _ => FreshFault.serves).and hlow)) hrun
  constructor
  · intro r hr c hc
    exact ho.boxExact h' hb ((h'.objs.users c).mp (hc ▸ List.mem_map_of_mem hr))
  · intro c hc
    apply ho.rest c
    intro hcm
    obtain ⟨r, hr, hrc⟩ := List.mem_map.mp ((h'.objs.users c).mpr hcm)
    exact hc r hr hrc

/-- A region whose middle page is mapped, and is freed. -/
def splitPages : List VmaOp :=
  [.new 0x200000 0x3000 0 1, .fair 0x200000, .fair 0x201abc, .del 0x201000 0x1000, .fair 0x202000]

theorem boxes_exact_splitPages : ∃ s : VmaSt,
    (s.vma.vsList.map fun r => r.kvaKvmbox.map fun c => (s.box c).kmbMsanr) =
      [none, some 2, some 2, none, none] ∧ BoxesExact freshVma.box s := by
  obtain ⟨s₀, hmade, hq⟩ := exists_made (q := fun s =>
    checkSteps vmaStep (fun s op => decide (FreshFault s op ∧ FreesLow s op)) splitPages s &&
      okAnd (run vmaStep splitPages s) fun t =>
        (t.vma.vsList.map fun r => r.kvaKvmbox.map fun c => (t.box c).kmbMsanr) =
          [none, some 2, some 2, none, none]) (by decide +kernel)
  rw [Bool.and_eq_true] at hq
  obtain ⟨s, hrun, hs⟩ := exists_of_okAnd hq.2
  have hsteps : AllSteps vmaStep (fun s op => FreshFault s op ∧ FreesLow s op) splitPages s₀ :=
    allSteps_of_check (fun _ _ hp => of_decide_eq_true hp) splitPages s₀ hq.1
  exact ⟨s, of_decide_eq_true hs, boxes_exact hmade freshVma_boxesLive splitPages (by decide)
    (hsteps.imp fun _ _ => And.left) (hsteps.imp fun _ _ => And.right) hrun⟩

/-- Two faults for one page: its box has two frames. -/
def faultTwice : List VmaOp :=
  [.fair 0x1000, .fair 0x1000]

theorem boxes_not_exact : ¬ ∀ (k s₀ s : VmaSt) (mm : Nat) (ops : List VmaOp),
    Made (copyPagesData 0) k mm s₀ → BoxesLive k → (∀ op ∈ ops, op.NoWrap ∧ op.PageAligned) →
      run vmaStep ops s₀ = .ok s → BoxesExact k.box s := by
  intro hall
  obtain ⟨s₀, hmade, hq⟩ := exists_made (q := fun s => okAnd (run vmaStep faultTwice s) fun t =>
    t.vma.vsList.map (fun r => (r.kvaStart, r.kvaEnd, r.kvaKvmbox)) =
      [(0x1000, 0x5000, some 0x10400), (0x100000000, 0x100001000, none),
        (0x7fffc0000000, 0x7fffffffffff, none)] &&
      (t.box 0x10400).kmbMsalist.any fun f =>
        [0x1000, 0x2000, 0x3000, 0x4000].all fun p => mmuLookup t.hal p ≠ some f)
    (by decide +kernel)
  obtain ⟨s, hrun, hs⟩ := exists_of_okAnd hq
  rw [Bool.and_eq_true, decide_eq_true_eq, List.any_eq_true] at hs
  obtain ⟨hlist, f, hf, hno⟩ := hs
  rw [List.all_eq_true] at hno
  have hmem : ∀ r ∈ s.vma.vsList, (r.kvaStart, r.kvaEnd, r.kvaKvmbox) ∈ _ := fun r hr =>
    hlist ▸ List.mem_map_of_mem (f := fun r : Kmvarsdsc => (r.kvaStart, r.kvaEnd, r.kvaKvmbox)) hr
  have hfirst : (0x1000, 0x5000, some 0x10400) ∈
      s.vma.vsList.map fun r => (r.kvaStart, r.kvaEnd, r.kvaKvmbox) := by
    rw [hlist]
    exact List.mem_cons_self
  obtain ⟨r, hr, he⟩ := List.mem_map.mp hfirst
  rw [Prod.mk.injEq, Prod.mk.injEq] at he
  have hexact := (hall freshVma s₀ s _ faultTwice hmade freshVma_boxesLive (by decide) hrun).used
    r hr 0x10400 he.2.2
  -- the first frame is not that of a page any more
  obtain ⟨p, ⟨hmod, r', hr', hc, hlo, hhi⟩, hlook⟩ := (hexact.frame f).mp hf
  have hr' := hmem r' hr'
  rw [hc] at hr'
  simp only [List.mem_cons, Prod.mk.injEq, List.not_mem_nil, or_false, reduceCtorEq, and_false,
    and_true] at hr'
  have hp : p = 0x1000 ∨ p = 0x2000 ∨ p = 0x3000 ∨ p = 0x4000 := by omega
  have hne := hno p (by rcases hp with rfl | rfl | rfl | rfl <;> decide)
  rw [hlook] at hne
  exact absurd rfl (of_decide_eq_true hne)

end Boxes

end Cosmos.Kernel
