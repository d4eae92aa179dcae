import Cosmos.Kernel.KrlvadrsmemShare

/-!
# What a free unmaps

A free whose range starts with a page and does not wrap unmaps exactly the pages of its
range, gives back exactly their frames, and takes exactly these out of the boxes.  This
needs that frames and pages correspond before, and so that no free before it has started
inside a page: the pages that such a free leaves mapped belong to no region.  And it needs
that the frames of the range are below `2^40`: the entry of a page gives 40 bits of the
address of its frame.

## Main results

* `free_unmaps` and `free_not_unmaps` : what a free does in every state in which frames and
  pages correspond, and a free that leaves a frame behind.
-/

namespace Cosmos.Kernel

open Cosmos.Lib Cosmos.Lib.Ranges Cosmos.Lib.Run Cosmos.Lib.StM Cosmos.Lib.Word64 Cosmos.Hal

/-- **The pages of a range are unmapped**, and nothing else is. -/
structure Unmapped (s s' : VmaSt) (start vassize : Nat) : Prop where
  /-- no page of the range is mapped -/
  gone : ∀ v, start ≤ v → v < start + vassize → mmuLookup s'.hal v = none
  /-- their frames are free -/
  free : ∀ v f, start ≤ v → v < start + vassize → mmuLookup s.hal v = some f →
    f ∉ s'.hal.pgs.out
  /-- the other pages are mapped as before -/
  kept : ∀ v, v ≤ userVirtualAddressEnd → ¬ (start ≤ v ∧ v < start + vassize) →
    mmuLookup s'.hal v = mmuLookup s.hal v
  /-- and their frames stay in their boxes -/
  stays : ∀ v f, v ≤ userVirtualAddressEnd → ¬ (start ≤ v ∧ v < start + vassize) →
    mmuLookup s.hal v = some f → f ∈ s'.hal.pgs.out ∧
      ∃ c ∈ s.mgr.kbmKmbhead, f ∈ (s.box c).kmbMsalist ∧ f ∈ (s'.box c).kmbMsalist
  /-- boxes lose the frames of the range and no others -/
  boxes : ∀ c ∈ s.mgr.kbmKmbhead, ∀ f, f ∈ (s'.box c).kmbMsalist ↔
    f ∈ (s.box c).kmbMsalist ∧ ∀ v, start ≤ v → v < start + vassize → mmuLookup s.hal v ≠ some f

section Loop

variable {pml4 : Nat → Nat} {box₀ : Nat → Kvmemcbox} {head0 base mine : List Nat} {s s' : VmaSt}
  {map : Nat → Option PageFrame} {kmbox : Option Nat} {l : List Nat} {b : Bool} {f : PageFrame}
  {c v start vassize : Nat}

/-! ## Frames that go back -/

theorem vmaDelPhyadrs_out {phyadrs : Nat} (h : (vmaDelPhyadrs kmbox phyadrs).run s = .ok (b, s')) :
    s'.hal.pgs.out ⊆ s.hal.pgs.out := by
  rcases vmaDelPhyadrs_cases h with ⟨rfl, -⟩ | ⟨c, -, -, hdel⟩
  · exact fun _ hf => hf
  · rcases vmaDelUsermsa_cases hdel with ⟨rfl, -⟩ | ⟨g, pgs, -, -, hgive, rfl⟩
    · exact fun _ hf => hf
    · intro f hf
      change f ∈ pgs.out at hf
      rw [(Supply.give_inv hgive).2] at hf
      exact List.mem_of_mem_erase hf

/-- The loop that unmaps takes no page. -/
theorem vmaDelUnmappingPhyadrs_out
    (h : (vmaDelUnmappingPhyadrs kmbox l).run s = .ok (b, s')) :
    s'.hal.pgs.out ⊆ s.hal.pgs.out := by
  induction l generalizing s b with
  | nil =>
      cases h
      exact fun _ hf => hf
  | cons v l ih =>
      obtain ⟨phyadrs, hal, gone, s₁, b', hun, hgone, hrest⟩ := vmaDelUnmappingPhyadrs_cons h
      exact fun f hf => halMmuUntransform_out hun (vmaDelPhyadrs_out hgone (ih hrest hf))

/-- A frame of a box that is at the address goes back. -/
theorem vmaDelPhyadrs_gone (hmem : f ∈ (s.box c).kmbMsalist)
    (h : (vmaDelPhyadrs (some c) (frameAddr f)).run s = .ok (b, s')) : f ∉ s'.hal.pgs.out := by
  rcases vmaDelPhyadrs_cases h with ⟨rfl, hno | hno⟩ | ⟨d, hd, -, hdel⟩
  · cases hno
  · exact absurd hno (frameAddr_ne_zero f)
  · cases hd
    rcases vmaDelUsermsa_cases hdel with ⟨-, hno | hno⟩ | ⟨g, pgs, -, hadr, hgive, rfl⟩
    · exact absurd hno (frameAddr_ne_zero f)
    · exact absurd rfl (hno f hmem)
    · have hgf : g = f := frameAddr_inj hadr
      subst hgf
      show g ∉ pgs.out
      rw [(Supply.give_inv hgive).2]
      exact s.hal.pgs.nodup.not_mem_erase

/-- **The loop gives back the frame of a page** that is in the box and mapped nowhere else. -/
theorem Frames.unmapping_gone (h : Frames pml4 s mine map) (hl : ∀ w ∈ l, w < 2 ^ 47)
    (hc : c ∈ mine) (hrun : (vmaDelUnmappingPhyadrs (some c) l).run s = .ok (b, s'))
    (hv : v ∈ l) (hf : map (pageNr v) = some f) (hmem : f ∈ (s.box c).kmbMsalist)
    (honly : ∀ w ∈ l, map (pageNr w) = some f → pageNr w = pageNr v)
    (hlow : ∀ w ∈ l, ∀ g, map (pageNr w) = some g → frameAddr g < 2 ^ 40) :
    f ∉ s'.hal.pgs.out := by
  induction l generalizing s map b with
  | nil => cases hv
  | cons w l ih =>
      obtain ⟨phyadrs, hal, gone, s₁, b', hun, hgone, hrest⟩ := vmaDelUnmappingPhyadrs_cons hrun
      have hw := hl w List.mem_cons_self
      have hphy : phyadrs = (map (pageNr w)).elim 0 mmumsaRetPadr := by
        obtain ⟨others, hmmu, -⟩ := h.mmu
        exact (hmmu.untransform (userAdr_of_lt hw) hun).1
      by_cases hpage : pageNr w = pageNr v
      · -- the frame goes back in this turn, and no turn takes a page
        rw [hpage, hf, Option.elim_some,
          (mmumsaRetPadr_eq_iff f).mpr (hlow v hv f hf)] at hphy
        subst hphy
        have hbefore : f ∈ (({ s with hal := hal } : VmaSt).box c).kmbMsalist := hmem
        exact fun hout => vmaDelPhyadrs_gone hbefore hgone (vmaDelUnmappingPhyadrs_out hrest hout)
      · subst hphy
        have hmap := h.remap fun others hmmu => (hmmu.untransform (userAdr_of_lt hw) hun).2
        obtain ⟨h₁, hbox⟩ := hmap.delPhyadrs (fun d hd => Option.some.inj hd ▸ hc) hgone
        have hvl : v ∈ l := by
          rcases List.mem_cons.mp hv with rfl | hv
          · exact absurd rfl hpage
          · exact hv
        refine ih h₁ (fun x hx => hl x (List.mem_cons_of_mem w hx)) hrest hvl ?_ ?_
          (fun x hx hxf => honly x (List.mem_cons_of_mem w hx) (eq_some_of_update_none hxf))
          fun x hx g hg => hlow x (List.mem_cons_of_mem w hx) g (eq_some_of_update_none hg)
        · rw [Function.update_of_ne (Ne.symm hpage)]
          exact hf
        · rw [hbox]
          apply mem_unbox hmem
          cases hg : map (pageNr w) with
          | none => exact frameAddr_ne_zero f
          | some g =>
              rw [Option.elim_some, (mmumsaRetPadr_eq_iff g).mpr (hlow w List.mem_cons_self g hg)]
              intro hadr
              have hfg := frameAddr_inj hadr
              subst hfg
              exact hpage (honly w List.mem_cons_self hg)

/-- The pages that the loop visits are those of the addresses of the range. -/
theorem exists_vmapAdrs_iff (hmod : start % 0x1000 = 0) (hsz : vassize % 0x1000 = 0)
    (htop : start + vassize ≤ 2 ^ 47) (hv : v < 2 ^ 47) :
    (∃ w ∈ vmapAdrs start (start + vassize), pageNr w = pageNr v) ↔
      start ≤ v ∧ v < start + vassize := by
  constructor
  · rintro ⟨w, hw, hpage⟩
    obtain ⟨hlo, hhi, hstep⟩ := (mem_vmapAdrs hsz).mp hw
    rw [pageNr_eq (by omega), pageNr_eq hv] at hpage
    omega
  · rintro ⟨hlo, hhi⟩
    refine ⟨v / 0x1000 * 0x1000, (mem_vmapAdrs hsz).mpr (by omega), ?_⟩
    rw [pageNr_eq (by omega), pageNr_eq hv]
    omega

end Loop

/-! ## A free in an address space -/

section Free

variable {pml4 : Nat → Nat} {head0 base : List Nat} {s s' : VmaSt}
  {map : Nat → Option PageFrame} {f : PageFrame} {c v start vassize : Nat}

/-- A range that is freed is one of a user. -/
theorem Freed.top (hf : Freed s start vassize true s') (hv : InOrder s.vma)
    (hnw : start + vassize < wordMod) : start + vassize ≤ userVirtualAddressEnd := by
  obtain ⟨r, s₁, s₂, b₁, hr, -⟩ := hf.unmaps
  have hhi := hr.hi
  have htop := hv.top r hr.mem
  rw [add64_eq hnw] at hhi
  omega

/-- **The frames of the range go back.** -/
theorem Paged.freed_gone (h : Paged pml4 s map) (hobjs : Objs head0 base s s.vma.boxes)
    (hf : Freed s start vassize true s') (hsz : vassize % 0x1000 = 0)
    (hnw : start + vassize < wordMod) (hmod : start % 0x1000 = 0)
    (hlow : LowRange s start vassize) (hlo : start ≤ v) (hhi : v < start + vassize)
    (hm : map (pageNr v) = some f) : f ∉ s'.hal.pgs.out := by
  have hinv : PageInv pml4 head0 base s s.vma.boxes map := ⟨hobjs, h.order, h.frames⟩
  obtain ⟨r, s₁, s₂, b₁, hr, hk, hl, hs₁, hun, hs₂⟩ := hinv.unmaps hf hsz hnw
  have hrlo := hr.lo
  have hrhi := hr.hi
  have htop := hf.top h.order hnw
  unfold userVirtualAddressEnd at htop
  rw [add64_eq hnw] at hrhi
  have hsmall : ∀ w, w < 2 ^ 47 → pageNr w < 2 ^ 35 := by
    intro w hw
    rw [pageNr_eq hw]
    omega
  obtain ⟨c, hc, hasg, hfc⟩ := h.owned.page (pageNr v) (hsmall v (by omega)) f hm
  -- the box of the page is that of the region
  have hbox : boxOf s.vma (pageNr v) = r.kvaKvmbox := by
    rw [pageNr_eq (by omega)]
    exact boxOf_of_mem h.order hr.mem (by omega) (by omega)
  rw [hbox] at hasg
  rw [hasg] at hun
  obtain ⟨w, hw, hpage⟩ := (exists_vmapAdrs_iff (v := v) hmod hsz (by omega) (by omega)).mpr
    ⟨hlo, hhi⟩
  rw [hs₂.hal]
  refine (h.frames.same hs₁).unmapping_gone hl hc hun hw (hpage ▸ hm) (hs₁.list c ▸ hfc)
    (fun x hx hxf => ?_) fun x hx g hg => ?_
  · exact h.owned.inj _ _ f (hsmall x (hl x hx)) (hsmall w (hl w hw)) hxf (hpage ▸ hm)
  · exact hlow.low hf hnw x hx g (by rw [h.frames.lookup (hl x hx), hg])

/-- The frame of a page is in the box of the page, and in no other box in use. -/
theorem Owned.mem_iff {box₀ : Nat → Kvmemcbox} {mine : List Nat} {asg : Nat → Option Nat}
    (h : Owned box₀ s mine map asg) (hc : c ∈ mine) :
    f ∈ (s.box c).kmbMsalist ↔ ∃ p, p < 2 ^ 35 ∧ map p = some f ∧ asg p = some c := by
  constructor
  · exact h.frame c hc f
  · rintro ⟨p, hp, hm, ha⟩
    obtain ⟨d, -, had, hfd⟩ := h.page p hp f hm
    rw [ha] at had
    cases had
    exact hfd

/-- A free keeps the boxes of the addresses outside its range. -/
theorem Freed.boxOf (hf : Freed s start vassize true s') (hv : InOrder s.vma)
    (hnd : (s.vma.vsList.map Kmvarsdsc.adr).Nodup) (hnw : start + vassize < wordMod) {p : Nat}
    (hout : ¬ (start ≤ p * 0x1000 ∧ p * 0x1000 < start + vassize)) :
    Kernel.boxOf s'.vma p = Kernel.boxOf s.vma p := by
  unfold Kernel.boxOf
  rw [hf.look boxView_overAdrs hv hnd hnw, paint, if_neg hout]

/-- The tables after a free. -/
theorem Paged.freed_lookup (h : Paged pml4 s map) (hobjs : Objs head0 base s s.vma.boxes)
    (hf : Freed s start vassize true s') (hsz : vassize % 0x1000 = 0)
    (hnw : start + vassize < wordMod) (hmod : start % 0x1000 = 0) (hv : v < 2 ^ 47) :
    mmuLookup s'.hal v = if start ≤ v ∧ v < start + vassize then none else map (pageNr v) := by
  have hinv : PageInv pml4 head0 base s s.vma.boxes map := ⟨hobjs, h.order, h.frames⟩
  obtain ⟨mine', h', -⟩ := hinv.freed s.box hf hsz hnw
  have htop := hf.top h.order hnw
  unfold userVirtualAddressEnd at htop
  rw [if_pos rfl] at h'
  rw [h'.frames.lookup hv]
  exact if_congr (exists_vmapAdrs_iff hmod hsz (by omega) hv) rfl rfl

/-- **The boxes after a free** have the frames of the pages that stay. -/
theorem Paged.freed_mem_iff (h : Paged pml4 s map) (hobjs : Objs head0 base s s.vma.boxes)
    (hf : Freed s start vassize true s') (hsz : vassize % 0x1000 = 0)
    (hnw : start + vassize < wordMod) (hmod : start % 0x1000 = 0)
    (hlow : LowRange s start vassize) (hleft : c ∉ s'.vma.boxes → (s'.box c).kmbMsalist = []) :
    f ∈ (s'.box c).kmbMsalist ↔ ∃ p, p < 2 ^ 35 ∧ map p = some f ∧ boxOf s.vma p = some c ∧
      ¬ (start ≤ p * 0x1000 ∧ p * 0x1000 < start + vassize) := by
  have hinv : PageInv pml4 head0 base s s.vma.boxes map := ⟨hobjs, h.order, h.frames⟩
  obtain ⟨mine', h', ho'⟩ := hinv.freed s.box hf hsz hnw
  have htop := hf.top h.order hnw
  unfold userVirtualAddressEnd at htop
  rw [if_pos rfl] at h' ho'
  have hcleared : ∀ p, p < 2 ^ 35 → (cleared map (vmapAdrs start (start + vassize)) p = some f ↔
      map p = some f ∧ ¬ (start ≤ p * 0x1000 ∧ p * 0x1000 < start + vassize)) := by
    intro p hp
    have hpage : pageNr (p * 0x1000) = p := by
      rw [pageNr_eq (by omega), Nat.mul_div_cancel p (by decide)]
    have hin := exists_vmapAdrs_iff (v := p * 0x1000) hmod hsz (by omega) (by omega)
    rw [hpage] at hin
    unfold Kernel.cleared
    split
    · next hr => exact iff_of_false (by simp) fun hno => hno.2 (hin.mp hr)
    · next hr => exact (and_iff_left fun hno => hr (hin.mpr hno)).symm
  have hout := fun p => hf.boxOf (p := p) h.order hobjs.adr_nodup hnw
  by_cases hc' : c ∈ mine'
  · rw [(ho' hmod hlow h.owned).mem_iff hc']
    refine exists_congr fun p => and_congr_right fun hp => ?_
    rw [hcleared p hp, and_assoc, and_congr_right_iff]
    refine fun _ => ⟨fun ⟨hno, ha⟩ => ⟨hout p hno ▸ ha, hno⟩, fun ⟨ha, hno⟩ => ⟨hno, ?_⟩⟩
    rw [hout p hno]
    exact ha
  · rw [hleft fun hcs => hc' (h'.objs.mem_iff.mpr hcs)]
    apply iff_of_false List.not_mem_nil
    -- a page that stays has the box still
    rintro ⟨p, -, -, ha, hno⟩
    obtain ⟨r, hr, -, hbox⟩ := exists_of_boxOf ((hout p hno).trans ha)
    exact hc' ((h'.objs.users c).mp (hbox ▸ List.mem_map_of_mem hr))

/-- A free in an address space with regions and tables, whose boxes are not those of the
others. -/
theorem Paged.unmapped (h : Paged pml4 s map) (hobjs : Objs head0 base s s.vma.boxes)
    (hf : Freed s start vassize true s') (hsz : vassize % 0x1000 = 0)
    (hnw : start + vassize < wordMod) (hmod : start % 0x1000 = 0)
    (hlow : LowRange s start vassize) (hcall : Call head0 base s s')
    (hothers : ∀ c ∈ head0, s'.box c = s.box c ∧ ∀ f ∈ (s.box c).kmbMsalist, ¬ Uses s f) :
    Unmapped s s' start vassize := by
  have htop := hf.top h.order hnw
  unfold userVirtualAddressEnd at htop
  have hbefore : ∀ v, v < 2 ^ 47 → mmuLookup s.hal v = map (pageNr v) := fun v hv =>
    h.frames.lookup hv
  have hafter := fun v hv => h.freed_lookup hobjs hf hsz hnw hmod (v := v) hv
  have hpage : ∀ v, v < 2 ^ 47 → pageNr v < 2 ^ 35 ∧ (start ≤ v ∧ v < start + vassize ↔
      start ≤ pageNr v * 0x1000 ∧ pageNr v * 0x1000 < start + vassize) := by
    intro v hv
    rw [pageNr_eq hv]
    omega
  have hbox := fun c f hc => h.freed_mem_iff hobjs hf hsz hnw hmod hlow (f := f) (hcall.left c hc)
  refine ⟨fun v hlo hhi => ?_, fun v f hlo hhi hv => ?_, fun v hv hno => ?_,
    fun v f hv hno hvf => ?_, fun c hc f => ?_⟩
  · rw [hafter v (by omega), if_pos ⟨hlo, hhi⟩]
  · rw [hbefore v (by omega)] at hv
    exact h.freed_gone hobjs hf hsz hnw hmod hlow hlo hhi hv
  · unfold userVirtualAddressEnd at hv
    rw [hafter v (by omega), if_neg hno, hbefore v (by omega)]
  · unfold userVirtualAddressEnd at hv
    rw [hbefore v (by omega)] at hvf
    obtain ⟨hpn, hin⟩ := hpage v (by omega)
    obtain ⟨c, hc, ha, hfc⟩ := h.owned.page _ hpn f hvf
    have hfc' := (hbox c f hc).mpr ⟨_, hpn, hvf, ha, fun hr => hno (hin.mpr hr)⟩
    refine ⟨?_, c, hobjs.head.mem_iff.mpr (List.mem_append_left _ hc), hfc, hfc'⟩
    by_cases hc' : c ∈ s'.vma.boxes
    · exact hcall.uses f (Or.inr ⟨c, hc', hfc'⟩)
    · rw [hcall.left c hc hc'] at hfc'
      cases hfc'
  · rcases List.mem_append.mp (hobjs.head.mem_iff.mp hc) with hc | hc
    · rw [hbox c f hc, h.owned.mem_iff hc]
      constructor
      · rintro ⟨p, hpl, hm, ha, hno⟩
        refine ⟨⟨p, hpl, hm, ha⟩, fun v hlo hhi hv => hno ?_⟩
        rw [hbefore v (by omega)] at hv
        obtain ⟨hpn, hin⟩ := hpage v (by omega)
        rw [h.owned.inj p _ f hpl hpn hm hv]
        exact hin.mp ⟨hlo, hhi⟩
      · rintro ⟨⟨p, hpl, hm, ha⟩, hno⟩
        refine ⟨p, hpl, hm, ha, fun ⟨hlo, hhi⟩ => hno _ hlo hhi ?_⟩
        rw [hbefore _ (by omega), pageNr_eq (by omega), Nat.mul_div_cancel p (by decide)]
        exact hm
    · -- a frame of the range is in a box of this address space
      obtain ⟨hsame, hapart⟩ := hothers c hc
      rw [hsame]
      refine (and_iff_left_of_imp fun hfc v hlo hhi hv => hapart f hfc ?_).symm
      rw [hbefore v (by omega)] at hv
      obtain ⟨d, hd, -, hfd⟩ := h.owned.page _ (hpage v (by omega)).1 f hv
      exact Or.inr ⟨d, hd, hfd⟩

/-- Without a top table there is nothing to unmap. -/
theorem Bare.unmapped (h : Bare s) (hf : Freed s start vassize true s') :
    Unmapped s s' start vassize := by
  have hnone : s.hal.mmu.mudTdirearr = none := by rw [h.mmu]; rfl
  obtain ⟨hhal, hlist⟩ := hf.bare hnone
  have hlook : ∀ v f, mmuLookup s.hal v ≠ some f := fun v f => by
    unfold mmuLookup
    rw [hnone]
    exact nofun
  refine ⟨fun v _ _ => ?_, fun v f _ _ hv => absurd hv (hlook v f), fun v _ _ => by rw [hhal],
    fun v f _ _ hv => absurd hv (hlook v f), fun c _ f => ?_⟩
  · rw [hhal]
    exact Option.eq_none_iff_forall_ne_some.mpr fun f => hlook v f
  · rw [hlist]
    exact (and_iff_left fun v _ _ => hlook v f).symm

end Free

/-! ## Every run -/

section Runs

variable {pml4 : Nat → Nat} {base : List Nat} {s s' : VmaSt} {rest : List Mmadrsdsc}
  {a start vassize : Nat}

/-- A free in one of the address spaces. -/
theorem MmsInv.unmapped (h : MmsInv pml4 base s (s.leave a :: rest)) {size : Nat}
    (hdel : (vmaDelVadrs start size).run s = .ok (true, s')) (hmod : start % 0x1000 = 0)
    (hnw : start + vadszAlign size < wordMod) (hlow : LowRange s start (vadszAlign size)) :
    Unmapped s s' start (vadszAlign size) := by
  have hobjs := h.accounts.objs
  have hf : Freed s start (vadszAlign size) true s' := (vmaDelVadrs_cases hdel).1
  have hstep : vmaStep s (.del start size) = .ok s' := by
    show ((vmaDelVadrs start size).run s).map Prod.snd = _
    rw [hdel]
    rfl
  have hop : (VmaOp.del start size).NoWrap ∧ (VmaOp.del start size).FreesPages := ⟨hnw, hmod⟩
  have hspace : SpaceOk pml4 s := h.space _ List.mem_cons_self
  obtain ⟨hcall, -⟩ := hspace.call hobjs (h.uses (s.leave a) List.mem_cons_self) hop
    ⟨trivial, hlow⟩ hstep
  rcases hspace with ⟨map, hp⟩ | hb | hno
  · apply hp.unmapped hobjs hf (vadszAlign_mod size) hnw hmod hlow hcall
    intro c hc
    obtain ⟨mm, hm, hcm⟩ := List.mem_flatMap.mp hc
    refine ⟨(h.accounts.others hcall.any hm).1 c hcm, fun f hfc hs => ?_⟩
    exact (List.pairwise_cons.mp h.apart).1 mm hm f hs (Or.inr ⟨c, hcm, hfc⟩)
  · exact hb.unmapped hf
  · obtain ⟨r, -, -, -, hr, -⟩ := hf.unmaps
    have hmem := hr.mem
    rw [hno] at hmem
    cases hmem

/-- **A free unmaps its pages**, in every state that any calls on any address spaces lead to
of which each that frees starts with a page, each fault that is served is for an address
that is not mapped, and the frames of the pages that are freed are below `2^40`. -/
theorem free_unmaps (pdptepd : Nat) {k : VmaSt} (hk : k.mgr = kvmemcboxmgrInit)
    (ops : List MmsOp) (hops : ∀ op ∈ ops, op.NoWrap ∧ op.FreesPages) {k' : MmsSt}
    (hfresh : AllSteps (mmsStep (copyPagesData pdptepd)) ServesFreshCall ops ⟨k, []⟩)
    (hlow : AllSteps (mmsStep (copyPagesData pdptepd)) FreesLowCall ops ⟨k, []⟩)
    (hrun : run (mmsStep (copyPagesData pdptepd)) ops ⟨k, []⟩ = .ok k')
    {mm : Mmadrsdsc} (hmm : mm ∈ k'.mms) {start size : Nat} {s' : VmaSt}
    (hmod : start % 0x1000 = 0) (hnw : start + vadszAlign size < wordMod)
    (hlast : FreesLow (k'.cur.enter mm) (.del start size))
    (hdel : (vmaDelVadrs start size).run (k'.cur.enter mm) = .ok (true, s')) :
    Unmapped (k'.cur.enter mm) s' start (vadszAlign size) := by
  obtain ⟨base, hinv⟩ := run_mmsInv pdptepd hk ops hops hfresh hlow hrun
  obtain ⟨i, hi⟩ := List.mem_iff_getElem?.mp hmm
  obtain ⟨rest, h, -⟩ := hinv.front hi
  exact h.unmapped hdel hmod hnw hlast

/-- A split region whose parts share a box, with a frame in each and one that has gone. -/
def shareSplit : List MmsOp :=
  [.make, .call 0 (.new 0x200000 0x3000 0 1), .call 0 (.fair 0x200000), .call 0 (.fair 0x201abc),
    .call 0 (.fair 0x202000), .call 0 (.del 0x201000 0x1000)]

/-- The last page goes, and the first one keeps its frame in the box of both. -/
theorem free_unmaps_shareSplit : ∃ s s' : VmaSt,
    (mmuLookup s.hal 0x200000).isSome ∧ (mmuLookup s.hal 0x202000).isSome ∧
      (mmuLookup s'.hal 0x200000).isSome ∧ Unmapped s s' 0x202000 0x1000 := by
  have hrun : okAnd (run (mmsStep (copyPagesData 0)) shareSplit ⟨freshVma, []⟩) (fun k =>
      k.mms.any fun mm => decide (FreesLow (k.cur.enter mm) (.del 0x202000 0x1000)) &&
        okAnd ((vmaDelVadrs 0x202000 0x1000).run (k.cur.enter mm)) fun r =>
          r.1 && (mmuLookup (k.cur.enter mm).hal 0x200000).isSome &&
            (mmuLookup (k.cur.enter mm).hal 0x202000).isSome &&
              (mmuLookup r.2.hal 0x200000).isSome) = true := by
    decide +kernel
  obtain ⟨k, hrun, hk⟩ := exists_of_okAnd hrun
  rw [List.any_eq_true] at hk
  obtain ⟨mm, hmm, hk⟩ := hk
  rw [Bool.and_eq_true] at hk
  obtain ⟨⟨b, s'⟩, hdel, hs'⟩ := exists_of_okAnd hk.2
  simp only [Bool.and_eq_true] at hs'
  obtain ⟨⟨⟨rfl, hfirst⟩, hlast⟩, hkept⟩ := hs'
  have hsteps : AllSteps (mmsStep (copyPagesData 0)) (fun k op => FreshCall k op ∧ FreesLowCall k op)
      shareSplit ⟨freshVma, []⟩ :=
    allSteps_of_check (p := fun k op => decide (FreshCall k op ∧ FreesLowCall k op))
      (fun _ _ hp => of_decide_eq_true hp) shareSplit _ (by decide +kernel)
  refine ⟨_, s', hfirst, hlast, hkept, free_unmaps 0 (k := freshVma) rfl shareSplit (by decide)
    (hsteps.imp fun _ _ h => h.1.serves) (hsteps.imp fun _ _ => And.right) hrun hmm (by decide)
    (by decide) (of_decide_eq_true hk.1) hdel⟩

/-- Frees that start inside pages cut a region so that it starts inside one, and the free of
that region walks a page that is not its own: the page of its frame stays mapped, in no
region. -/
def staleFrame : List MmsOp :=
  [.make, .call 0 (.new 0x200000 0x4000 0 1), .call 0 (.del 0x200800 0x1000),
    .call 0 (.del 0x202800 0x1000), .call 0 (.fair 0x202000), .call 0 (.del 0x201800 0x1000),
    .call 0 (.new 0x202000 0x1000 0 1)]

/-- The page gets a region that has no box, and its frame does not go back with it. -/
theorem free_not_unmaps : ¬ ∀ (k : VmaSt) (ops : List MmsOp) (k' : MmsSt) (mm : Mmadrsdsc)
    (start size : Nat) (s' : VmaSt), k.mgr = kvmemcboxmgrInit → (∀ op ∈ ops, op.NoWrap) →
      AllSteps (mmsStep (copyPagesData 0)) ServesFreshCall ops ⟨k, []⟩ →
      run (mmsStep (copyPagesData 0)) ops ⟨k, []⟩ = .ok k' → mm ∈ k'.mms →
      start % 0x1000 = 0 → start + vadszAlign size < wordMod →
      (vmaDelVadrs start size).run (k'.cur.enter mm) = .ok (true, s') →
        Unmapped (k'.cur.enter mm) s' start (vadszAlign size) := by
  intro hall
  have hrun : okAnd (run (mmsStep (copyPagesData 0)) staleFrame ⟨freshVma, []⟩) (fun k =>
      k.mms.any fun mm => okAnd ((vmaDelVadrs 0x202000 0x1000).run (k.cur.enter mm)) fun r =>
        r.1 && (mmuLookup (k.cur.enter mm).hal 0x202000).any fun f => f ∈ r.2.hal.pgs.out) =
          true := by
    decide +kernel
  obtain ⟨k, hrun, hk⟩ := exists_of_okAnd hrun
  rw [List.any_eq_true] at hk
  obtain ⟨mm, hmm, hk⟩ := hk
  obtain ⟨⟨b, s'⟩, hdel, hs'⟩ := exists_of_okAnd hk
  rw [Bool.and_eq_true, Option.any_eq_true] at hs'
  obtain ⟨rfl, f, hf, hout⟩ := hs'
  have hunmapped := hall freshVma staleFrame k mm 0x202000 0x1000 s' rfl (by decide)
    (AllSteps.imp (fun _ _ => FreshCall.serves) (allSteps_of_check
      (p := fun k op => decide (FreshCall k op)) (fun _ _ hp => of_decide_eq_true hp) staleFrame _
        (by decide +kernel))) hrun hmm (by decide) (by decide) hdel
  exact hunmapped.free 0x202000 f (Nat.le_refl _) (by decide) hf (of_decide_eq_true hout)

end Runs

end Cosmos.Kernel
