import Cosmos.Hal.HalmmuUndo
import Cosmos.Kernel.KrlvadrsmemShare

/-!
# What a page fault changes

A fault that is served maps the page of its address to a frame that was free, and the frame
joins the box of the region.  A fault that fails gives back what it has taken, in the reverse
order.  Both leave the frames of all boxes where they are, unless the region gets a box from
the cache that still has frames: `knl_get_kvmemcbox` clears the list of a box that it takes
from there, and does not look at it.

## Main results

* `fault_handled_iff` : a fault does what it should if and only if the box that its region
  gets from the cache, if it gets one, is empty.
* `fault_not_handled` : a fault that fails and loses the frame of a box.
-/

namespace Cosmos.Kernel

open Cosmos.Lib Cosmos.Lib.Ranges Cosmos.Lib.Run Cosmos.Lib.StM Cosmos.Lib.Word64 Cosmos.Hal

/-- The frames that a box holds, in use or in the cache. -/
def VmaSt.held (s : VmaSt) (b : Nat) : List PageFrame :=
  if b ∈ s.mgr.kbmKmbhead ++ s.mgr.kbmCachehead then (s.box b).kmbMsalist else []

/-- The box that `knl_get_kvmemcbox` takes from the cache. -/
def VmaSt.cachedBox (s : VmaSt) : Option Nat :=
  (if 0 < s.mgr.kbmCachenr then s.mgr.kbmCachehead else []).head?

/-- **A fault for `v` is served** in the region `r`, by the frame `f` in the box `c`. -/
structure FaultServed (s : VmaSt) (v : Nat) (r : Kmvarsdsc) (f : PageFrame) (c : Nat)
    (s' : VmaSt) : Prop where
  /-- the address lies in the region -/
  region : r ∈ s.vma.vsList ∧ r.kvaStart ≤ v ∧ v < r.kvaEnd
  /-- its page is mapped to a frame that was free, and no other page is mapped otherwise -/
  free : f ∉ s.hal.pgs.out
  page : ∀ w, w ≤ userVirtualAddressEnd →
    mmuLookup s'.hal w = if pageNr w = pageNr v then some f else mmuLookup s.hal w
  /-- the region has its box, and no region changes otherwise -/
  box : r.kvaKvmbox = none ∨ r.kvaKvmbox = some c
  regions : s'.vma = { s.vma with
    vsList := s.vma.vsList.map fun q =>
      if q.adr = r.adr then { q with kvaKvmbox := some c } else q }
  /-- the frame is in that box, and no other frame comes or goes -/
  held : ∀ b, s'.held b = if b = c then f :: s.held b else s.held b
  /-- besides the frame, tables are taken, and nothing is given back -/
  out : ∀ g, g ∈ s'.hal.pgs.out ↔
    g ∈ s.hal.pgs.out ∨ g = f ∨ ∃ lv, g ∈ s'.hal.mmu.mudHead lv
  /-- no frame that is not a table is written -/
  words : ∀ g ∈ s.hal.pgs.out, (∀ lv, g ∉ s.hal.mmu.mudHead lv) → s'.hal.tbl g = s.hal.tbl g
  filled : ∀ g, g ≠ f → s'.filled g = s.filled g

/-- **A fault leaves nothing behind** but a box. -/
structure FaultUndone (s s' : VmaSt) : Prop where
  /-- the tables and the free frames -/
  hal : s.hal.Restored s'.hal
  /-- the regions have the same bounds, limits and types -/
  regions : s'.vma.vsList.map (fun r => (r.adr, r.kvaStart, r.kvaEnd, r.kvaLimits, r.kvaMaptype)) =
    s.vma.vsList.map fun r => (r.adr, r.kvaStart, r.kvaEnd, r.kvaLimits, r.kvaMaptype)
  /-- and the boxes the same frames -/
  held : ∀ b, s'.held b = s.held b

/-- A fault is served, or it leaves nothing behind. -/
def FaultHandled (s : VmaSt) (v : Nat) (ret : FairRet) (s' : VmaSt) : Prop :=
  (ret = .eok → ∃ r f c, FaultServed s v r f c s') ∧ (ret ≠ .eok → FaultUndone s s')

/-- A fault for `v` in a region without a box takes no box with frames from the cache. -/
def TakesEmptyBox (s : VmaSt) (v : Nat) : Prop :=
  0x1000 ≤ v → v ≤ userVirtualAddressEnd → ∀ r, vmaMapFindKmvarsdsc s.vma v = some r →
    r.kvaKvmbox = none → ∀ b, s.cachedBox = some b → (s.box b).kmbMsalist = []

section Pages

variable {pml4 : Nat → Nat} {s s₁ s' : VmaSt} {mine : List Nat} {map : Nat → Option PageFrame}
  {r : Kmvarsdsc} {c v phyadrs : Nat}

/-! ## The page -/

/-- What a fault does to the pages, with the address that it returns. -/
inductive FaultPages (s : VmaSt) (c v : Nat) (s' : VmaSt) : Nat → Prop
  | undone (hhal : s.hal.Restored s'.hal)
      (hlist : ∀ b, (s'.box b).kmbMsalist = (s.box b).kmbMsalist) : FaultPages s c v s' 0
  | mapped (f : PageFrame) (hfree : f ∉ s.hal.pgs.out)
      (hpage : ∀ w, w ≤ userVirtualAddressEnd →
        mmuLookup s'.hal w = if pageNr w = pageNr v then some f else mmuLookup s.hal w)
      (hout : ∀ g, g ∈ s'.hal.pgs.out ↔
        g ∈ s.hal.pgs.out ∨ g = f ∨ ∃ lv, g ∈ s'.hal.mmu.mudHead lv)
      (hwords : ∀ g ∈ s.hal.pgs.out, (∀ lv, g ∉ s.hal.mmu.mudHead lv) →
        s'.hal.tbl g = s.hal.tbl g)
      (hbox : s'.box = Function.update s.box c ((s.box c).addMsa f)) :
      FaultPages s c v s' (frameAddr f)

/-- A frame that has joined a box goes back. -/
theorem faultPages_undone {f : PageFrame} {pgs : Supply PageFrame} {hal : MmuSt} {b : Bool}
    (hnew : f ∉ s.hal.pgs.out) (hout : pgs.out = f :: s.hal.pgs.out)
    (hback : ({ s.hal with pgs := pgs } : MmuSt).Restored hal)
    (hdel : (vmaDelUsermsa c (some f) (frameAddr f)).run { s with
      hal := hal
      box := Function.update s.box c ((s.box c).addMsa f) } = .ok (b, s')) :
    FaultPages s c v s' 0 := by
  have hlist : (Function.update s.box c ((s.box c).addMsa f) c).kmbMsalist =
      f :: (s.box c).kmbMsalist := by
    rw [Function.update_self]
    rfl
  rcases vmaDelUsermsa_cases hdel with ⟨-, hno | hno⟩ | ⟨g, pgs', -, hadr, hgive, rfl⟩
  · exact absurd hno (frameAddr_ne_zero f)
  · exact absurd rfl (hno f (hlist ▸ List.mem_cons_self))
  have hgf : g = f := frameAddr_inj hadr
  subst hgf
  obtain ⟨-, hout'⟩ := Supply.give_inv hgive
  refine FaultPages.undone ⟨hback.mmu, fun x => ?_, fun x hx => ?_⟩ fun d => ?_
  · have hx := hback.out x
    show x ∈ pgs'.out ↔ _
    change x ∈ hal.pgs.out ↔ x ∈ pgs.out at hx
    rw [hout', hal.pgs.nodup.mem_erase_iff, hx, hout, List.mem_cons]
    constructor
    · rintro ⟨hne, he | hx⟩
      · exact absurd he hne
      · exact hx
    · exact fun hx => ⟨fun he => hnew (he ▸ hx), Or.inr hx⟩
  · refine hback.tbl x ?_
    show x ∈ pgs.out
    rw [hout]
    exact List.mem_cons_of_mem g hx
  · show (Function.update (Function.update s.box c _) c _ d).kmbMsalist = _
    by_cases hd : d = c
    · subst hd
      rw [Function.update_self]
      show (Function.update s.box d ((s.box d).addMsa g) d).kmbMsalist.erase g = _
      rw [hlist, List.erase_cons_head]
    · rw [Function.update_of_ne hd, Function.update_of_ne hd]

/-- **`vma_map_msa_fault`**, with regions and tables. -/
theorem Frames.faultPages (h : Frames pml4 s mine map) (hv : v < 2 ^ 47)
    (hm : MapFault s c v phyadrs s') : FaultPages s c v s' phyadrs := by
  cases hm with
  | nopage pgs hout =>
      refine FaultPages.undone ⟨rfl, fun x => ?_, fun _ _ => rfl⟩ fun _ => rfl
      show x ∈ pgs.out ↔ _
      rw [hout]
  | mapped f pgs hnew hout hal htr =>
      obtain ⟨others, hmmu, -⟩ := (h.take (c := c) hnew hout).2.mmu
      have hmmu' := hmmu.transform (userAdr_of_lt hv) (by decide) htr
      have hkept := hmmu.transform_kept (userAdr_of_lt hv) (by decide) htr
      have hmem : ∀ g, g ∈ others ↔
          (g = f ∨ g ∈ s.hal.pgs.out) ∧ ∀ lv, g ∉ s.hal.mmu.mudHead lv := by
        intro g
        have hg := hmmu.mem_others (f := g)
        change g ∈ others ↔ g ∈ pgs.out ∧ _ at hg
        rw [hg, hout, List.mem_cons]
      refine FaultPages.mapped f hnew (fun w hw => ?_) (fun g => ?_) (fun g hg hno => ?_) rfl
      · unfold userVirtualAddressEnd at hw
        have hw : w < 2 ^ 47 := by omega
        rw [h.lookup hw]
        refine (hmmu'.lookup (userAdr_of_lt hw)).trans ?_
        rw [if_pos rfl, Function.update_apply]
      · show g ∈ hal.pgs.out ↔ _
        constructor
        · obtain ⟨top, ht, -, -⟩ := hmmu'.tables
          intro hg
          rcases (ht.out g).mp hg with hg | hg
          · rcases ((hmem g).mp hg).1 with hg | hg
            · exact Or.inr (Or.inl hg)
            · exact Or.inl hg
          · exact Or.inr (Or.inr hg)
        · have hsub := halMmuTransform_out htr
          change pgs.out ⊆ hal.pgs.out at hsub
          rw [hout] at hsub
          rintro (hg | rfl | ⟨lv, hg⟩)
          · exact hsub (List.mem_cons_of_mem f hg)
          · exact hsub List.mem_cons_self
          · exact hmmu'.head_out hg
      · exact hkept g ((hmem g).mpr ⟨Or.inr hg, hno⟩)
  | undone f pgs hnew hout hal htr b s' hdel =>
      obtain ⟨others, hmmu, -⟩ := (h.take (c := c) hnew hout).2.mmu
      obtain ⟨top, ht, hb, -⟩ := hmmu.tables
      exact faultPages_undone hnew hout
        (halMmuTransform_restored ht hb (userAdr_of_lt hv) (by decide) htr) hdel

/-- Without a top table no page is mapped. -/
theorem MapFault.bare_faultPages (hnone : s.hal.mmu.mudTdirearr = none)
    (hm : MapFault s c v phyadrs s') : FaultPages s c v s' phyadrs ∧ phyadrs = 0 := by
  cases hm with
  | nopage pgs hout =>
      refine ⟨FaultPages.undone ⟨rfl, fun x => ?_, fun _ _ => rfl⟩ fun _ => rfl, rfl⟩
      show x ∈ pgs.out ↔ _
      rw [hout]
  | mapped f pgs hnew hout hal htr =>
      rw [halMmuTransform_bare (by exact hnone)] at htr
      cases htr
  | undone f pgs hnew hout hal htr b s' hdel =>
      rw [halMmuTransform_bare (by exact hnone)] at htr
      cases htr
      exact ⟨faultPages_undone hnew hout (MmuSt.Restored.refl _) hdel, rfl⟩

theorem MapFault.filled (hm : MapFault s c v phyadrs s') : s'.filled = s.filled := by
  cases hm with
  | nopage pgs hout => rfl
  | mapped f pgs hnew hout hal htr => rfl
  | undone f pgs hnew hout hal htr b s' hdel =>
      rcases vmaDelUsermsa_cases hdel with ⟨rfl, -⟩ | ⟨g, pgs', -, -, -, rfl⟩ <;> rfl

end Pages

/-! ## The box -/

section Boxes

variable {s s₁ : VmaSt} {r : Kmvarsdsc} {c : Nat}

/-- **`knl_get_kvmemcbox`** empties the box that it takes from the cache. -/
theorem knlGetKvmemcbox_held (hlive : ∀ b ∈ s.mgr.kbmCachehead ++ s.mgr.kbmKmbhead, b ∈ s.kms.out)
    (h : knlGetKvmemcbox.run s = .ok (c, s₁)) : (∀ b, b ≠ c → s₁.held b = s.held b) ∧
      s₁.held c = [] ∧ (s.cachedBox = some c ∧ s.held c = (s.box c).kmbMsalist ∨
        s.cachedBox = none ∧ s.held c = []) := by
  have huse : ∀ {t : VmaSt}, t.box = s.box →
      (∀ b, b ≠ c → (b ∈ t.mgr.kbmKmbhead ++ t.mgr.kbmCachehead ↔
        b ∈ s.mgr.kbmKmbhead ++ s.mgr.kbmCachehead)) →
      (∀ b, b ≠ c → (t.useBox c).held b = s.held b) ∧ (t.useBox c).held c = [] := by
    intro t hbox hlists
    refine ⟨fun b hb => ?_, ?_⟩
    · refine if_congr ?_ ?_ rfl
      · rw [← hlists b hb]
        show b ∈ (c :: t.mgr.kbmKmbhead) ++ t.mgr.kbmCachehead ↔ _
        rw [List.cons_append, List.mem_cons, or_iff_right hb]
      · show (Function.update t.box c _ b).kmbMsalist = _
        rw [Function.update_of_ne hb, hbox]
    · unfold VmaSt.held
      split
      · show (Function.update t.box c _ c).kmbMsalist = _
        rw [Function.update_self]
        rfl
      · rfl
  obtain ⟨_, _, h₁, h⟩ := run_bind_inv h
  cases h₁
  unfold VmaSt.cachedBox
  cases hcache : (if 0 < s.mgr.kbmCachenr then s.mgr.kbmCachehead else []) with
  | nil =>
      rw [hcache] at h
      have hcases := s.kms.take_cases
      rcases htake : s.kms.take with ⟨o, kms⟩
      rw [htake] at h hcases
      rcases hcases with ⟨ho, -⟩ | ⟨x, ho, hx, -⟩
      · simp only at ho
        subst ho
        cases h
      · simp only at ho
        subst ho
        cases h
        obtain ⟨hothers, hnil⟩ := huse (t := { s with kms := kms }) rfl fun _ _ => Iff.rfl
        -- a new box was in no list
        refine ⟨hothers, hnil, Or.inr ⟨rfl, if_neg fun hm => hx (hlive c ?_)⟩⟩
        exact List.mem_append.mpr (List.mem_append.mp hm).symm
  | cons kmb cache =>
      rw [hcache] at h
      cases h
      have hhead : s.mgr.kbmCachehead = c :: cache := by
        split at hcache
        · exact hcache
        · cases hcache
      have hlists := huse (t := { s with
        mgr := { s.mgr with kbmCachehead := cache, kbmCachenr := s.mgr.kbmCachenr - 1 } }) rfl
        fun b hb => by
          rw [hhead]
          simp only [List.mem_append, List.mem_cons, or_iff_right hb]
      refine ⟨hlists.1, hlists.2, Or.inl ⟨rfl, if_pos ?_⟩⟩
      rw [hhead]
      exact List.mem_append_right _ List.mem_cons_self

/-- The box of the region of a fault. -/
theorem vmaMapRetnKvmemcbox_held
    (hlive : ∀ b ∈ s.mgr.kbmCachehead ++ s.mgr.kbmKmbhead, b ∈ s.kms.out)
    (hthere : ∀ d, r.kvaKvmbox = some d → d ∈ s.mgr.kbmKmbhead)
    (h : (vmaMapRetnKvmemcbox r).run s = .ok (c, s₁)) :
    s₁.hal = s.hal ∧ s₁.filled = s.filled ∧ c ∈ s₁.mgr.kbmKmbhead ∧
      (∀ b, b ≠ c → s₁.held b = s.held b) ∧
      (s₁.held c = s.held c ↔ (r.kvaKvmbox = none → ∀ b, s.cachedBox = some b →
        (s.box b).kmbMsalist = [])) := by
  unfold vmaMapRetnKvmemcbox at h
  cases hbox : r.kvaKvmbox with
  | some d =>
      rw [hbox] at h
      cases h
      exact ⟨rfl, rfl, hthere c hbox, fun _ _ => rfl, iff_of_true rfl nofun⟩
  | none =>
      rw [hbox] at h
      obtain ⟨d, t, hget, h⟩ := run_bind_inv h
      cases h
      have hgot := knlGetKvmemcbox_gotBox hget
      obtain ⟨hothers, hnil, hcase⟩ := knlGetKvmemcbox_held hlive hget
      refine ⟨by cases hgot <;> rfl, by cases hgot <;> rfl, ?_, hothers, ?_⟩
      · cases hgot <;> exact List.mem_cons_self
      · show t.held c = _ ↔ _
        rw [hnil]
        rcases hcase with ⟨hcached, hheld⟩ | ⟨hcached, hheld⟩
        · rw [hheld, hcached]
          exact ⟨fun he _ b hb => Option.some.inj hb ▸ he.symm, fun he => (he rfl c rfl).symm⟩
        · rw [hheld, hcached]
          exact iff_of_true rfl nofun

/-- The region of a fault has a box then, and nothing else changes in the regions. -/
theorem RegionBox.regions (h : RegionBox s r c s₁) (hnd : (s.vma.vsList.map Kmvarsdsc.adr).Nodup)
    (hr : r ∈ s.vma.vsList) : (r.kvaKvmbox = none ∨ r.kvaKvmbox = some c) ∧
      s₁.vma = { s.vma with
        vsList := s.vma.vsList.map fun q =>
          if q.adr = r.adr then { q with kvaKvmbox := some c } else q } := by
  cases h with
  | there hbox =>
      refine ⟨Or.inr hbox, ?_⟩
      have hsame : (s.vma.vsList.map fun q =>
          if q.adr = r.adr then { q with kvaKvmbox := some c } else q) = s.vma.vsList := by
        refine (List.map_congr_left fun q hq => ?_).trans (List.map_id' _)
        by_cases hqr : q.adr = r.adr
        · have he : q = r := List.inj_on_of_nodup_map hnd hq hr hqr
          rw [if_pos hqr, he, ← hbox]
        · rw [if_neg hqr]
      rw [hsame]
  | got hbox s₁ hgot =>
      have hvma : s₁.vma = s.vma := by cases hgot <;> rfl
      refine ⟨Or.inl hbox, ?_⟩
      show s₁.vma.write r _ = _
      rw [hvma]
      unfold Virmemadrs.write
      rw [Chain.upd_eq_map _ hnd hr]

end Boxes

/-! ## Every run -/

section Runs

variable {pml4 : Nat → Nat} {base : List Nat} {s s₁ s₂ : VmaSt} {rest : List Mmadrsdsc}
  {a c v phyadrs : Nat} {r : Kmvarsdsc}

/-- A fault that is served does what it should if the box that it takes has no frames. -/
theorem FaultPages.served_iff {f : PageFrame} (horder : InOrder s.vma) {t : VmaSt}
    (hr : r ∈ s.vma.vsList) (hrv : r.kvaStart ≤ v ∧ v < r.kvaEnd)
    (hbox : r.kvaKvmbox = none ∨ r.kvaKvmbox = some c)
    (hregions : t.vma = { s.vma with
      vsList := s.vma.vsList.map fun q =>
        if q.adr = r.adr then { q with kvaKvmbox := some c } else q })
    (hothers : ∀ b, b ≠ c → s₁.held b = s.held b)
    (hheld : ∀ b, t.held b = if b = c then f :: s₁.held b else s₁.held b)
    (hv : v ≤ userVirtualAddressEnd) (hfree : f ∉ s.hal.pgs.out)
    (hpage : ∀ w, w ≤ userVirtualAddressEnd →
      mmuLookup t.hal w = if pageNr w = pageNr v then some f else mmuLookup s.hal w)
    (hout : ∀ g, g ∈ t.hal.pgs.out ↔ g ∈ s.hal.pgs.out ∨ g = f ∨ ∃ lv, g ∈ t.hal.mmu.mudHead lv)
    (hwords : ∀ g ∈ s.hal.pgs.out, (∀ lv, g ∉ s.hal.mmu.mudHead lv) → t.hal.tbl g = s.hal.tbl g)
    (hfilled : ∀ g, g ≠ f → t.filled g = s.filled g) :
    (∃ r f c, FaultServed s v r f c t) ↔ s₁.held c = s.held c := by
  constructor
  · rintro ⟨r', f', c', h⟩
    -- the region, the frame and the box are these
    obtain rfl : r' = r := horder.asc.unique h.region.1 hr h.region.2 hrv
    have hff := h.page v hv
    rw [hpage v hv, if_pos rfl, if_pos rfl] at hff
    have hcc := congrArg Virmemadrs.vsList (hregions.symm.trans h.regions)
    have hcc := List.map_inj_left.mp hcc r' hr
    rw [if_pos rfl, if_pos rfl, Kmvarsdsc.mk.injEq] at hcc
    obtain rfl : c = c' := Option.some.inj hcc.2.2.2.2.2
    have hc := h.held c
    rw [hheld c, if_pos rfl, if_pos rfl] at hc
    exact (List.cons.inj hc).2
  · intro hsame
    refine ⟨r, f, c, ⟨hr, hrv⟩, hfree, hpage, hbox, hregions, fun b => ?_, hout, hwords, hfilled⟩
    rw [hheld b]
    by_cases hb : b = c
    · rw [if_pos hb, if_pos hb, hb, hsame]
    · rw [if_neg hb, if_neg hb, hothers b hb]

/-- A fault on one of the address spaces. -/
theorem MmsPages.faultHandled_iff (h : MmsPages pml4 base s (s.leave a :: rest)) {s' : VmaSt}
    {ret : FairRet} (hfair : (vmaMapFairvadrs v).run s = .ok (ret, s')) :
    FaultHandled s v ret s' ↔ TakesEmptyBox s v := by
  obtain ⟨hbad, rfl, rfl⟩ | ⟨hnone, rfl, rfl⟩ | ⟨r, c, s₁, phyadrs, s₂, filled, ⟨hmin, hmax⟩, hfind,
    hretn, hmap, rfl, rfl, hfilled⟩ := vmaMapFairvadrs_inv hfair
  · refine iff_of_true ⟨nofun, fun _ => ⟨.refl _, rfl, fun _ => rfl⟩⟩ fun hmin hmax => ?_
    exact absurd hbad (by omega)
  · refine iff_of_true ⟨nofun, fun _ => ⟨.refl _, rfl, fun _ => rfl⟩⟩ fun _ _ r hr => ?_
    rw [hnone] at hr
    cases hr
  have hobjs := h.accounts.objs
  obtain ⟨hr, hrv⟩ := vmaMapFindKmvarsdsc_holds hfind
  have hb := vmaMapRetnKvmemcbox_cases hretn
  obtain ⟨hhal, hfl, hck, hothers, hiff⟩ := vmaMapRetnKvmemcbox_held (fun b => hobjs.live)
    (fun d hd => hobjs.head.mem_iff.mpr (List.mem_append_left _
      (mem_boxes.mpr (hd ▸ List.mem_map_of_mem hr)))) hretn
  obtain ⟨hbox, hregions⟩ := hb.regions hobjs.adr_nodup hr
  have hcond : TakesEmptyBox s v ↔ s₁.held c = s.held c := by
    rw [hiff]
    refine ⟨fun he => he hmin hmax r hfind, fun he _ _ r' hr' => ?_⟩
    rw [hfind] at hr'
    cases hr'
    exact he
  rw [hcond]
  have hmgr : s₂.mgr = s₁.mgr := hmap.pagesOnly.mgr
  have hvma : s₂.vma = s₁.vma := hmap.pagesOnly.vma
  have hpages : FaultPages s₁ c v s₂ phyadrs ∧ (phyadrs ≠ 0 → InOrder s.vma) := by
    rcases h.space _ List.mem_cons_self with ⟨map, horder, hframes⟩ | hbare | hno
    · have hinv : PageInv pml4 _ _ s s.vma.boxes map := ⟨hobjs, horder, hframes⟩
      obtain ⟨mine', -, -, hframes', -⟩ := hinv.regionBox s.box hr hb
      unfold userVirtualAddressEnd at hmax
      exact ⟨hframes'.faultPages (by omega) hmap, fun _ => horder⟩
    · have hnone : s.hal.mmu.mudTdirearr = none := by
        rw [show s.hal.mmu = mmudscInit from hbare.mmu]
        rfl
      rw [← hhal] at hnone
      have hzero := hmap.bare_faultPages hnone
      exact ⟨hzero.1, fun hno => absurd hzero.2 hno⟩
    · rw [show s.vma.vsList = [] from hno] at hr
      cases hr
  obtain ⟨hpages, horder⟩ := hpages
  have hlook : ∀ b, ({ s₂ with filled := filled } : VmaSt).held b =
      if b ∈ s₁.mgr.kbmKmbhead ++ s₁.mgr.kbmCachehead then (s₂.box b).kmbMsalist else [] := by
    intro b
    rw [← hmgr]
    rfl
  cases hpages with
  | undone hrest hlist =>
      have hheld : ∀ b, ({ s₂ with filled := filled } : VmaSt).held b = s₁.held b := fun b => by
        rw [hlook, hlist]
        rfl
      constructor
      · intro hh
        rw [← hheld]
        exact (hh.2 (by simp)).held c
      · refine fun hsame => ⟨fun hno => by simp at hno, fun _ => ⟨?_, ?_, fun b => ?_⟩⟩
        · rw [← hhal]
          exact hrest
        · show s₂.vma.vsList.map _ = _
          rw [hvma, hregions, List.map_map]
          refine List.map_congr_left fun q _ => ?_
          rw [Function.comp_apply]
          by_cases hqr : q.adr = r.adr
          · rw [if_pos hqr]
          · rw [if_neg hqr]
        · rw [hheld]
          by_cases hbc : b = c
          · rw [hbc, hsame]
          · exact hothers b hbc
  | mapped f hfree hpage hout hwords hbx =>
      have h0 := frameAddr_ne_zero f
      rw [if_neg h0]
      have hiff := FaultPages.served_iff (f := f) (t := { s₂ with filled := filled }) (horder h0) hr
        hrv hbox (hvma.trans hregions) hothers (fun b => ?_) hmax (hhal ▸ hfree)
        (fun w hw => ?_) (fun g => ?_) (fun g hg hno => ?_) fun g hg => ?_
      · exact ⟨fun hh => hiff.mp (hh.1 rfl), fun hsame => ⟨fun _ => hiff.mpr hsame, fun hno =>
          absurd rfl hno⟩⟩
      · rw [hlook, hbx]
        by_cases hbc : b = c
        · subst hbc
          rw [if_pos rfl, Function.update_self, if_pos (List.mem_append_left _ hck)]
          exact congrArg (f :: ·) (if_pos (List.mem_append_left _ hck)).symm
        · rw [if_neg hbc, Function.update_of_ne hbc]
          rfl
      · rw [← hhal]
        exact hpage w hw
      · rw [← hhal]
        exact hout g
      · rw [← hhal] at hg hno ⊢
        exact hwords g hg hno
      · refine (hfilled g fun hg' => ?_).trans (congrFun (hmap.filled.trans hfl) g)
        rw [hpage v hmax, if_pos rfl] at hg'
        exact hg (Option.some.inj hg').symm

/-- Two faults for one page leave a frame in a box that no page has, and the box goes to the
cache with it. -/
def staleBox : List MmsOp :=
  [.make, .call 0 (.fair 0x1000), .call 0 (.fair 0x1000), .call 0 (.del 0x1000 0x4000)]

end Runs

end Cosmos.Kernel
