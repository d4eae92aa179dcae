import Cosmos.Kernel.KrlvadrsmemMap

/-!
# What a call leaves alone

Address spaces share the page allocator, the words of the frames, the boxes and their
manager.  A frame that one of them does not hold is `Foreign` to it: a call on it neither
gives such a frame back nor takes it, and keeps its words.  Boxes of others are kept too,
and the boxes in the cache were there before or were its own.

## Main results

* `Freed.spares` and `Faired.spares` : a call on an address space spares what is foreign.
-/

namespace Cosmos.Kernel

open Cosmos.Lib Cosmos.Lib.Word64 Cosmos.Hal

/-- A frame that is out, and neither a table of the address space nor in a box of `mine`. -/
structure Foreign (s : VmaSt) (mine : List Nat) (f : PageFrame) : Prop where
  out : f ∈ s.hal.pgs.out
  table : ∀ lv, f ∉ s.hal.mmu.mudHead lv
  boxed : ∀ c ∈ mine, f ∉ (s.box c).kmbMsalist

/-- What is foreign stays foreign, with its words. -/
def Spares (s : VmaSt) (mine : List Nat) (s' : VmaSt) (mine' : List Nat) : Prop :=
  ∀ f, Foreign s mine f → Foreign s' mine' f ∧ s'.hal.tbl f = s.hal.tbl f

section Frames

variable {pml4 : Nat → Nat} {others : List PageFrame} {s s' s'' : VmaSt} {hal : MmuSt}
  {mine mine' mine'' : List Nat} {map map' : Nat → Option PageFrame} {f : PageFrame} {c : Nat}
  {b : Bool} {kmbox : Option Nat} {pgs : Supply PageFrame}

theorem Spares.trans (h : Spares s mine s' mine') (h' : Spares s' mine' s'' mine'') :
    Spares s mine s'' mine'' := fun f hf =>
  have h₁ := h f hf
  have h₂ := h' f h₁.1
  ⟨h₂.1, h₂.2.trans h₁.2⟩

/-- Boxes go, or empty ones come. -/
theorem spares_of_same (hhal : s'.hal = s.hal) (hbox : ∀ c ∈ mine',
    c ∈ mine ∧ (s'.box c).kmbMsalist = (s.box c).kmbMsalist ∨ (s'.box c).kmbMsalist = []) :
    Spares s mine s' mine' := by
  intro f hf
  refine ⟨⟨by rw [hhal]; exact hf.out, by rw [hhal]; exact hf.table, fun c hc hfc => ?_⟩, by rw [hhal]⟩
  rcases hbox c hc with ⟨hcm, hlist⟩ | hnil
  · exact hf.boxed c hcm (hlist ▸ hfc)
  · rw [hnil] at hfc
    cases hfc

/-- The page tables have changed. -/
theorem spares_remap (h : MmuOk pml4 others ⟨s.hal, map⟩) (h' : MmuOk pml4 others ⟨hal, map'⟩)
    (hkept : ∀ g ∈ others, hal.tbl g = s.hal.tbl g) : Spares s mine { s with hal := hal } mine := by
  intro f hf
  have hmem := h.mem_others.mpr ⟨hf.out, hf.table⟩
  obtain ⟨hout, htable⟩ := h'.mem_others.mp hmem
  exact ⟨⟨hout, htable, hf.boxed⟩, hkept f hmem⟩

/-- A frame of a box goes back. -/
theorem spares_give (hc : c ∈ mine) (hf : f ∈ (s.box c).kmbMsalist)
    (hgive : s.hal.pgs.give f = some pgs) :
    Spares s mine { s with
      hal := { s.hal with pgs := pgs }
      box := Function.update s.box c ((s.box c).delMsa f) } mine := by
  obtain ⟨-, hout⟩ := Supply.give_inv hgive
  intro g hg
  have hne : g ≠ f := fun he => hg.boxed c hc (he ▸ hf)
  refine ⟨⟨?_, hg.table, fun d hd hgd => ?_⟩, rfl⟩
  · show g ∈ pgs.out
    rw [hout]
    exact (List.mem_erase_of_ne hne).mpr hg.out
  · change g ∈ (Function.update s.box c ((s.box c).delMsa f) d).kmbMsalist at hgd
    by_cases hdc : d = c
    · subst hdc
      rw [Function.update_self] at hgd
      exact hg.boxed d hd (List.mem_of_mem_erase hgd)
    · rw [Function.update_of_ne hdc] at hgd
      exact hg.boxed d hd hgd

/-- A frame that was not out joins a box. -/
theorem spares_take (hnew : f ∉ s.hal.pgs.out) (hout : pgs.out = f :: s.hal.pgs.out) :
    Spares s mine { s with
      hal := { s.hal with pgs := pgs }
      box := Function.update s.box c ((s.box c).addMsa f) } mine := by
  intro g hg
  have hne : g ≠ f := fun he => hnew (he ▸ hg.out)
  refine ⟨⟨?_, hg.table, fun d hd hgd => ?_⟩, rfl⟩
  · show g ∈ pgs.out
    rw [hout]
    exact List.mem_cons_of_mem f hg.out
  · change g ∈ (Function.update s.box c ((s.box c).addMsa f) d).kmbMsalist at hgd
    by_cases hdc : d = c
    · subst hdc
      rw [Function.update_self] at hgd
      exact hg.boxed d hd ((List.mem_cons.mp hgd).resolve_left hne)
    · rw [Function.update_of_ne hdc] at hgd
      exact hg.boxed d hd hgd

/-- **The loop that unmaps** spares what is foreign. -/
theorem Frames.unmapping_spares (h : Frames pml4 s mine map) {l : List Nat}
    (hl : ∀ v ∈ l, v < 2 ^ 47) (hc : ∀ c, kmbox = some c → c ∈ mine)
    (hrun : (vmaDelUnmappingPhyadrs kmbox l).run s = .ok (b, s')) : Spares s mine s' mine := by
  induction l generalizing s map b with
  | nil =>
      cases hrun
      exact fun f hf => ⟨hf, rfl⟩
  | cons v l ih =>
      obtain ⟨phyadrs, hal, gone, s₁, b', hun, hgone, hrest⟩ := vmaDelUnmappingPhyadrs_cons hrun
      have hv := userAdr_of_lt (hl v List.mem_cons_self)
      obtain ⟨others, hmmu, -⟩ := h.mmu
      obtain ⟨hphy, hmmu'⟩ := hmmu.untransform hv hun
      subst hphy
      have hmap := h.remap fun others hmmu => (hmmu.untransform hv hun).2
      have hfirst : Spares s mine { s with hal := hal } mine :=
        spares_remap hmmu hmmu' (hmmu.untransform_kept hv hun)
      have hlast := ih (hmap.delPhyadrs hc hgone).1
        (fun w hw => hl w (List.mem_cons_of_mem v hw)) hrest
      refine hfirst.trans (Spares.trans ?_ hlast)
      rcases vmaDelPhyadrs_cases hgone with ⟨rfl, -⟩ | ⟨c, hk, -, hdel⟩
      · exact fun f hf => ⟨hf, rfl⟩
      · rcases vmaDelUsermsa_cases hdel with ⟨rfl, -⟩ | ⟨g, pgs, hg, -, hgive, rfl⟩
        · exact fun f hf => ⟨hf, rfl⟩
        · exact spares_give (hc c hk) (hg.resolve_left fun hg => by cases hg) hgive

/-- **`vma_map_msa_fault`** spares what is foreign. -/
theorem Frames.mapFault_spares (h : Frames pml4 s mine map) {v phyadrs : Nat} (hc : c ∈ mine)
    (hv : v < 2 ^ 47) (hm : MapFault s c v phyadrs s') : Spares s mine s' mine := by
  have htake : ∀ {f : PageFrame} {pgs : Supply PageFrame} {hal : MmuSt} {r : Bool},
      f ∉ s.hal.pgs.out → pgs.out = f :: s.hal.pgs.out →
      (halMmuTransform v (frameAddr f) 7).run { s.hal with pgs := pgs } = .ok (r, hal) →
      Spares s mine { s with
        hal := hal
        box := Function.update s.box c ((s.box c).addMsa f) } mine := by
    intro f pgs hal r hnew hout htr
    obtain ⟨others, hmmu, -⟩ := (h.take (c := c) hnew hout).2.mmu
    exact (spares_take hnew hout).trans (spares_remap hmmu
      (hmmu.transform (userAdr_of_lt hv) (by decide) htr)
      (hmmu.transform_kept (userAdr_of_lt hv) (by decide) htr))
  cases hm with
  | nopage pgs hout =>
      obtain ⟨others, hmmu, -⟩ := h.mmu
      exact spares_remap hmmu (hmmu.same hout) fun _ _ => rfl
  | mapped f pgs hnew hout hal htr => exact htake hnew hout htr
  | undone f pgs hnew hout hal htr b s' hdel =>
      refine (htake hnew hout htr).trans ?_
      rcases vmaDelUsermsa_cases hdel with ⟨rfl, -⟩ | ⟨g, pgs', -, hadr, hgive, rfl⟩
      · exact fun f hf => ⟨hf, rfl⟩
      · have hgf : g = f := frameAddr_inj hadr
        subst hgf
        refine spares_give hc ?_ hgive
        show g ∈ (Function.update s.box c ((s.box c).addMsa g) c).kmbMsalist
        rw [Function.update_self]
        exact List.mem_cons_self

theorem Spares.mono (h : Spares s mine s' mine') (hsub : ∀ c ∈ mine'', c ∈ mine') :
    Spares s mine s' mine'' := fun f hf =>
  ⟨⟨(h f hf).1.out, (h f hf).1.table, fun c hc => (h f hf).1.boxed c (hsub c hc)⟩, (h f hf).2⟩

end Frames

/-! ## Calls -/

/-- Boxes that are neither used before a call nor behind it are kept, the cache gets boxes
of the address space only, and its bound holds. -/
structure Keeps (s : VmaSt) (mine : List Nat) (s' : VmaSt) (mine' : List Nat) : Prop where
  box : ∀ b, b ∉ mine → b ∉ mine' → s'.box b = s.box b
  cache : ∀ b ∈ s'.mgr.kbmCachehead, b ∈ s.mgr.kbmCachehead ∨ b ∈ mine
  mgr : MgrOk s.mgr → MgrOk s'.mgr

section Calls

variable {pml4 : Nat → Nat} {head0 base mine mine' : List Nat} {s s' : VmaSt}
  {map : Nat → Option PageFrame} {start vassize vadrs : Nat} {b : Bool} {ret : FairRet}
  {kmbox : Option Nat}

theorem vmaDelUnmappingPhyadrs_box {l : List Nat}
    (h : (vmaDelUnmappingPhyadrs kmbox l).run s = .ok (b, s')) :
    ∀ c, kmbox ≠ some c → s'.box c = s.box c := by
  induction l generalizing s b with
  | nil =>
      cases h
      exact fun _ _ => rfl
  | cons v l ih =>
      obtain ⟨phyadrs, hal, gone, s₁, b', -, hgone, hrest⟩ := vmaDelUnmappingPhyadrs_cons h
      intro c hc
      rw [ih hrest c hc]
      rcases vmaDelPhyadrs_cases hgone with ⟨rfl, -⟩ | ⟨d, hd, -, hdel⟩
      · rfl
      · have hcd : c ≠ d := fun he => hc (he ▸ hd)
        rcases vmaDelUsermsa_cases hdel with ⟨rfl, -⟩ | ⟨f, pgs, -, -, -, rfl⟩
        · rfl
        · exact Function.update_of_ne hcd _ _

/-- A free writes the boxes of the address space only. -/
theorem Freed.box (h : Objs head0 base s mine) (hf : Freed s start vassize b s') :
    ∀ c, c ∉ mine → s'.box c = s.box c := by
  intro c hc
  cases b with
  | false =>
      cases hf
      rfl
  | true =>
      obtain ⟨r, s₁, s₂, b₁, hr, hs₁, hun, hs₂⟩ := hf.unmaps
      have hne : r.kvaKvmbox ≠ some c := fun he =>
        hc ((h.users c).mp (he ▸ List.mem_map_of_mem hr.mem))
      rw [hs₂.box c hne, vmaDelUnmappingPhyadrs_box hun c hne, hs₁.box c hne]

/-- The manager of the boxes is as before, or a box of a region has a user less. -/
theorem Freed.mgr_cases (hf : Freed s start vassize b s') : s'.mgr = s.mgr ∨
    ∃ c t t', some c ∈ s.vma.vsList.map Kmvarsdsc.kvaKvmbox ∧ PutBox t t' c ∧ t.mgr = s.mgr ∧
      t.kms = s.kms ∧ t'.mgr = s'.mgr := by
  cases hf with
  | refused kms hout hwhy => exact Or.inl rfl
  | whole r hr hlo hhi s₁ s₂ b₁ b₂ hun hput =>
      have hpages := vmaDelUnmapping_pagesOnly hun
      cases hc : r.kvaKvmbox with
      | none =>
          rw [hc] at hput
          cases hput
          exact Or.inl hpages.mgr
      | some c =>
          rw [hc] at hput
          exact Or.inr ⟨c, _, s₂, hc ▸ List.mem_map_of_mem hr.mem, knlPutKvmemcbox_putBox hput,
            hpages.mgr, hpages.kms, rfl⟩
  | front r hr hlo hhi s' b hun => exact Or.inl (vmaDelUnmapping_pagesOnly hun).mgr
  | back r hr hlo hhi s' b hun => exact Or.inl (vmaDelUnmapping_pagesOnly hun).mgr
  | split r hr hlo hhi a kms htake hnew hout s₁ b hun =>
      left
      show s₁.mgr = s.mgr
      rw [(vmaDelUnmapping_pagesOnly hun).mgr]
      cases r.kvaKvmbox <;> rfl

theorem Freed.keeps (h : Objs head0 base s mine) (hf : Freed s start vassize b s') :
    Keeps s mine s' mine' where
  box c hc _ := hf.box h c hc
  cache c hc := by
    rcases hf.mgr_cases with hmgr | ⟨d, t, t', hd, hput, hmgr, hkms, hmgr'⟩
    · rw [hmgr] at hc
      exact Or.inl hc
    · rw [← hmgr'] at hc
      rcases hput.ends with ⟨-, hsame, -⟩ | ⟨-, -, ⟨hcache, -⟩ | ⟨hcache, -⟩⟩
      · rw [hsame, hmgr] at hc
        exact Or.inl hc
      · rw [hcache, hmgr] at hc
        rcases List.mem_cons.mp hc with rfl | hc
        · exact Or.inr ((h.users c).mp hd)
        · exact Or.inl hc
      · rw [hcache, hmgr] at hc
        exact Or.inl hc
  mgr hok := by
    rcases hf.mgr_cases with hmgr | ⟨d, t, t', hd, hput, hmgr, hkms, hmgr'⟩
    · rw [hmgr]
      exact hok
    · have hdm : d ∈ mine := (h.users d).mp hd
      rw [← hmgr']
      refine hput.mgrOk ?_ ?_ (hmgr ▸ hok)
      · rw [hkms]
        exact h.out.mem_iff.mpr (List.mem_append_right _ (List.mem_append_left _ hdm))
      · rw [hmgr]
        exact h.head.mem_iff.mpr (List.mem_append_left _ hdm)

/-- A range that is freed spares what is foreign. -/
theorem Freed.spares (h : PageInv pml4 head0 base s mine map) (hf : Freed s start vassize b s')
    (hsz : vassize % 0x1000 = 0) (hnw : start + vassize < wordMod) : Spares s mine s' mine := by
  have hsame : ∀ {t t' : VmaSt}, t'.hal = t.hal →
      (∀ c, (t'.box c).kmbMsalist = (t.box c).kmbMsalist) → Spares t mine t' mine :=
    fun hhal hlist => spares_of_same hhal fun c hc => Or.inl ⟨hc, hlist c⟩
  cases b with
  | false =>
      cases hf
      exact hsame rfl fun _ => rfl
  | true =>
      obtain ⟨r, s₁, s₂, b₁, -, hk, hl, hs₁, hun, hs₂⟩ := h.unmaps hf hsz hnw
      have hloop := (h.frames.same hs₁).unmapping_spares hl hk hun
      exact (hsame hs₁.hal hs₁.list).trans (hloop.trans (hsame hs₂.hal hs₂.list))

/-- A box that comes into use has the counters in order, and only that box is written. -/
theorem GotBox.keeps {kmb : Nat} (hgot : GotBox s kmb s') : Keeps s mine s' (kmb :: mine') where
  box c _ hc := by
    have hne : c ≠ kmb := fun he => hc (he ▸ List.mem_cons_self)
    cases hgot with
    | cached mgr hhead hcache hok => exact Function.update_of_ne hne _ _
    | made kms hnew hout => exact Function.update_of_ne hne _ _
  cache c hc := by
    left
    cases hgot with
    | cached mgr hhead hcache hok =>
        rw [hcache]
        exact List.mem_cons_of_mem kmb hc
    | made kms hnew hout => exact hc
  mgr hok := by
    cases hgot with
    | cached mgr hhead hcache hok' =>
        exact ⟨congrArg (· + 1) (hok' hok).kmbnr, (hok' hok).cachenr, (hok' hok).max⟩
    | made kms hnew hout => exact ⟨congrArg (· + 1) hok.kmbnr, hok.cachenr, hok.max⟩

theorem RegionBox.keeps {r : Kmvarsdsc} {kmb : Nat} (hb : RegionBox s r kmb s')
    (hmem : kmb ∈ mine') : Keeps s mine s' mine' := by
  cases hb with
  | there hbox => exact ⟨fun _ _ _ => rfl, fun _ hc => Or.inl hc, fun hok => hok⟩
  | got hbox s₁ hgot =>
      have hkeeps : Keeps s mine s₁ (kmb :: mine') := hgot.keeps
      refine ⟨fun c hc hc' => hkeeps.box c hc fun hcm => ?_, hkeeps.cache, hkeeps.mgr⟩
      rcases List.mem_cons.mp hcm with rfl | hcm
      · exact hc' hmem
      · exact hc' hcm

theorem MapFault.box {kmb phyadrs : Nat} (h : MapFault s kmb vadrs phyadrs s') :
    ∀ c, c ≠ kmb → s'.box c = s.box c := by
  intro c hc
  cases h with
  | nopage pgs hout => rfl
  | mapped f pgs hnew hout hal htr => exact Function.update_of_ne hc _ _
  | undone f pgs hnew hout hal htr b s' hdel =>
      rcases vmaDelUsermsa_cases hdel with ⟨rfl, -⟩ | ⟨g, pgs', -, -, -, rfl⟩
      · exact Function.update_of_ne hc _ _
      · exact (Function.update_of_ne hc _ _).trans (Function.update_of_ne hc _ _)

theorem RegionBox.users {r : Kmvarsdsc} {kmb : Nat} (hb : RegionBox s r kmb s')
    (hnd : (s.vma.vsList.map Kmvarsdsc.adr).Nodup) (hr : r ∈ s.vma.vsList) :
    some kmb ∈ s'.vma.vsList.map Kmvarsdsc.kvaKvmbox := by
  cases hb with
  | there hbox => exact hbox ▸ List.mem_map_of_mem hr
  | got hbox s₁ hgot =>
      have hvma : s₁.vma = s.vma := by cases hgot <;> rfl
      have hmem : { r with kvaKvmbox := some kmb } ∈
          (s₁.vma.write r fun r => { r with kvaKvmbox := some kmb }).vsList := by
        rw [hvma]
        exact (Chain.upd_perm _ hnd hr).mem_iff.mpr List.mem_cons_self
      exact List.mem_map_of_mem (f := Kmvarsdsc.kvaKvmbox) hmem

/-- The box of the region of a fault is one of the address space then. -/
theorem Faired.keeps (hf : Faired s vadrs ret s') (h : Objs head0 base s mine)
    (h' : Objs head0 base s' mine') : Keeps s mine s' mine' := by
  cases hf with
  | refused ret hret => exact ⟨fun _ _ _ => rfl, fun _ hc => Or.inl hc, fun hok => hok⟩
  | served r hr hlo hhi hmin hmax kmbox s₁ hbox phyadrs s₂ hmap filled =>
      have hk : kmbox ∈ mine' := by
        refine (h'.users kmbox).mp ?_
        show some kmbox ∈ s₂.vma.vsList.map Kmvarsdsc.kvaKvmbox
        rw [hmap.pagesOnly.vma]
        exact hbox.users h.adr_nodup hr
      have hkeeps : Keeps s mine s₁ mine' := hbox.keeps hk
      have hmgr : s₂.mgr = s₁.mgr := hmap.pagesOnly.mgr
      refine ⟨fun c hc hc' => ?_, ?_, ?_⟩
      · refine (hmap.box c ?_).trans (hkeeps.box c hc hc')
        rintro rfl
        exact hc' hk
      · show ∀ c ∈ s₂.mgr.kbmCachehead, _
        rw [hmgr]
        exact hkeeps.cache
      · show MgrOk s.mgr → MgrOk s₂.mgr
        rw [hmgr]
        exact hkeeps.mgr

/-- A region that has its box, or gets an empty one. -/
theorem RegionBox.spares {r : Kmvarsdsc} {kmb : Nat} (hb : RegionBox s r kmb s')
    (hk : ∀ c, r.kvaKvmbox = some c → c ∈ mine)
    (hmem : ∀ c, c ∈ mine' ↔ c = kmb ∨ c ∈ mine) : Spares s mine s' mine' := by
  cases hb with
  | there hbox =>
      refine spares_of_same rfl fun c hc => Or.inl ⟨?_, rfl⟩
      rcases (hmem c).mp hc with rfl | hc
      · exact hk c hbox
      · exact hc
  | got hbox s₁ hgot =>
      have hbx : s₁.box = Function.update s.box kmb { kvmemcboxInit with kmbCont := 1 } := by
        cases hgot <;> rfl
      refine spares_of_same (by cases hgot <;> rfl) fun c hc => ?_
      show _ ∧ (s₁.box c).kmbMsalist = _ ∨ (s₁.box c).kmbMsalist = []
      rw [hbx]
      by_cases hck : c = kmb
      · subst hck
        rw [Function.update_self]
        exact Or.inr rfl
      · rw [Function.update_of_ne hck]
        exact Or.inl ⟨((hmem c).mp hc).resolve_left hck, rfl⟩

/-- A fault spares what is foreign. -/
theorem Faired.spares (h : PageInv pml4 head0 base s mine map) (hf : Faired s vadrs ret s')
    (h' : Objs head0 base s' mine') : Spares s mine s' mine' := by
  cases hf with
  | refused ret hret =>
      exact spares_of_same rfl fun c hc => Or.inl ⟨(h.objs.users c).mp ((h'.users c).mpr hc), rfl⟩
  | served r hr hlo hhi hmin hmax kmbox s₁ hbox phyadrs s₂ hmap filled =>
      obtain ⟨m, hmem, hobjs, hframes, -⟩ := h.regionBox s.box hr hbox
      have hsub : ∀ c ∈ mine', c ∈ m := by
        intro c hc
        refine (hobjs.users c).mp ?_
        rw [← hmap.pagesOnly.vma]
        exact (h'.users c).mpr hc
      have hfirst : Spares s mine s₁ m :=
        hbox.spares (fun c hc => (h.objs.users c).mp (hc ▸ List.mem_map_of_mem hr)) hmem
      unfold userVirtualAddressEnd at hmax
      have hfault : Spares s₁ m s₂ m := hframes.mapFault_spares ((hmem kmbox).mpr (Or.inl rfl))
        (show vadrs < 2 ^ 47 by omega) hmap
      have hlast : Spares s₂ m { s₂ with filled := filled } m :=
        spares_of_same rfl fun c hc => Or.inl ⟨hc, rfl⟩
      exact ((hfirst.trans hfault).trans hlast).mono hsub

end Calls

end Cosmos.Kernel
