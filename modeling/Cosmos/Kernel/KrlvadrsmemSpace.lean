import Cosmos.Kernel.KrlvadrsmemOthers
import Cosmos.Kernel.KrlvadrsmemPages
import Mathlib.Data.List.Dedup

/-!
# One address space among others

`new_mmadrsdsc` goes on when it gets no descriptor for a region and when it gets no page
for the top table.  So an address space has regions and tables (`Paged`), or no top table
(`Bare`), or no region.  `SpaceOk` says which it is, every call keeps it, and `Call` says
what a call leaves alone.
-/

namespace Cosmos.Kernel

open Cosmos.Lib Cosmos.Lib.Ranges Cosmos.Lib.Run Cosmos.Lib.StM Cosmos.Lib.Word64 Cosmos.Hal

/-- The boxes of the regions. -/
def Virmemadrs.boxes (vma : Virmemadrs) : List Nat :=
  (vma.vsList.filterMap Kmvarsdsc.kvaKvmbox).dedup

/-- The regions are made of pages, and the frames of the boxes are those of their pages. -/
structure Paged (pml4 : Nat → Nat) (s : VmaSt) (map : Nat → Option PageFrame) : Prop where
  order : InOrder s.vma
  bounds : PageBounds s.vma
  frames : Frames pml4 s s.vma.boxes map
  owned : Owned s.box s s.vma.boxes map (boxOf s.vma)

/-- There is no top table, so no page is mapped and no box has a frame. -/
structure Bare (s : VmaSt) : Prop where
  mmu : s.hal.mmu = mmudscInit
  empty : ∀ b ∈ s.vma.boxes, (s.box b).kmbMsalist = []

/-- The kinds of address spaces. -/
inductive SpaceOk (pml4 : Nat → Nat) (s : VmaSt) : Prop
  | paged (map : Nat → Option PageFrame) (h : Paged pml4 s map)
  | bare (h : Bare s)
  | noRegion (h : s.vma.vsList = [])

/-- The kinds of address spaces, whatever calls have been made: pages may be mapped that are
in no region, and boxes may hold frames of no page. -/
inductive SpaceMap (pml4 : Nat → Nat) (s : VmaSt) : Prop
  | mapped (map : Nat → Option PageFrame) (horder : InOrder s.vma)
      (hframes : Frames pml4 s s.vma.boxes map)
  | bare (h : Bare s)
  | noRegion (h : s.vma.vsList = [])

/-- A table of the address space, or a frame in one of its boxes. -/
def Uses (s : VmaSt) (f : PageFrame) : Prop :=
  (∃ lv, f ∈ s.hal.mmu.mudHead lv) ∨ ∃ b ∈ s.vma.boxes, f ∈ (s.box b).kmbMsalist

/-- **What a call does** on an address space: it keeps the accounts of objects, leaves
alone what is of others, and uses frames that are out. -/
structure AnyCall (head0 base : List Nat) (s s' : VmaSt) : Prop where
  objs : Objs head0 base s' s'.vma.boxes
  keeps : Keeps s s.vma.boxes s' s'.vma.boxes
  spares : Spares s s.vma.boxes s' s'.vma.boxes
  uses : ∀ f, Uses s' f → f ∈ s'.hal.pgs.out

/-- A call that empties the boxes that it drops. -/
structure Call (head0 base : List Nat) (s s' : VmaSt) : Prop where
  objs : Objs head0 base s' s'.vma.boxes
  keeps : Keeps s s.vma.boxes s' s'.vma.boxes
  spares : Spares s s.vma.boxes s' s'.vma.boxes
  left : ∀ b ∈ s.vma.boxes, b ∉ s'.vma.boxes → (s'.box b).kmbMsalist = []
  uses : ∀ f, Uses s' f → f ∈ s'.hal.pgs.out

section Space

variable {pml4 : Nat → Nat} {head0 base mine mine' : List Nat} {s s' : VmaSt}
  {map : Nat → Option PageFrame} {box₀ : Nat → Kvmemcbox} {asg : Nat → Option Nat}
  {start vassize vadrs b : Nat} {op : VmaOp}

theorem mem_boxes {vma : Virmemadrs} :
    b ∈ vma.boxes ↔ some b ∈ vma.vsList.map Kmvarsdsc.kvaKvmbox := by
  unfold Virmemadrs.boxes
  rw [List.mem_dedup, List.mem_filterMap, List.mem_map]

theorem Call.any (h : Call head0 base s s') : AnyCall head0 base s s' :=
  ⟨h.objs, h.keeps, h.spares, h.uses⟩

theorem SpaceOk.spaceMap (h : SpaceOk pml4 s) : SpaceMap pml4 s := by
  cases h with
  | paged map h => exact .mapped map h.order h.frames
  | bare h => exact .bare h
  | noRegion h => exact .noRegion h

/-- The boxes that are accounted for are those of the regions. -/
theorem Objs.mem_iff (h : Objs head0 base s mine) : b ∈ mine ↔ b ∈ s.vma.boxes :=
  ((h.users b).symm.trans mem_boxes.symm)

theorem Objs.boxes (h : Objs head0 base s mine) : Objs head0 base s s.vma.boxes := by
  have hperm : mine.Perm s.vma.boxes :=
    (List.perm_ext_iff_of_nodup h.mine_nodup (List.nodup_dedup _)).mpr fun _ => h.mem_iff
  exact {
    out := h.out.trans ((hperm.append_right _).append_left _)
    head := h.head.trans (hperm.append_right _)
    others := h.others
    users := fun b => (h.users b).trans h.mem_iff
    cont := fun b hb => h.cont b (h.mem_iff.mpr hb) }

theorem Owned.congr (h : Owned box₀ s mine map asg) (hmem : ∀ c, c ∈ mine ↔ c ∈ mine') :
    Owned box₀ s mine' map asg where
  page p hp f hf := by
    obtain ⟨c, hc, ha, hfc⟩ := h.page p hp f hf
    exact ⟨c, (hmem c).mp hc, ha, hfc⟩
  frame c hc := h.frame c ((hmem c).mpr hc)
  inj := h.inj
  msanr c hc := h.msanr c ((hmem c).mpr hc)
  rest c hc := h.rest c fun hcm => hc ((hmem c).mp hcm)

theorem Frames.uses (h : Frames pml4 s s.vma.boxes map) {f : PageFrame} (hf : Uses s f) :
    f ∈ s.hal.pgs.out := by
  obtain ⟨others, hmmu, hheld⟩ := h.mmu
  rcases hf with ⟨lv, hlv⟩ | ⟨c, hc, hfc⟩
  · obtain ⟨top, ht, -⟩ := hmmu.tables
    exact (ht.out f).mpr (Or.inr ⟨lv, hlv⟩)
  · exact (hmmu.mem_others.mp (hheld c hc f hfc)).1

theorem Bare.not_uses (h : Bare s) (f : PageFrame) : ¬ Uses s f := by
  rintro (⟨lv, hlv⟩ | ⟨c, hc, hfc⟩)
  · rw [h.mmu] at hlv
    cases hlv
  · rw [h.empty c hc] at hfc
    cases hfc

/-! ### With regions and tables -/

/-- The boxes that are accounted for may be those of the regions. -/
theorem Frames.boxes (h : Frames pml4 s mine map) (hobjs : Objs head0 base s mine) :
    Frames pml4 s s.vma.boxes map :=
  h.mono rfl (fun _ hc => hobjs.mem_iff.mpr hc) fun _ _ => rfl

/-- The address space with its boxes in a state of which it says nothing yet. -/
theorem Paged.ownedInv (h : Paged pml4 s map) (hobjs : Objs head0 base s s.vma.boxes) :
    OwnedInv pml4 head0 base (fun b => if b ∈ s.vma.boxes then kvmemcboxInit else s.box b) s := by
  refine ⟨s.vma.boxes, map, ⟨hobjs, h.order, h.frames⟩, h.bounds, ?_⟩
  exact { h.owned with rest := fun b hb => Or.inl (if_neg hb).symm }

theorem OwnedInv.paged (h : OwnedInv pml4 head0 base box₀ s) : ∃ map,
    Objs head0 base s s.vma.boxes ∧ Paged pml4 s map ∧
      ∀ b, b ∉ s.vma.boxes → s.box b = box₀ b ∨ (s.box b).kmbMsalist = [] := by
  obtain ⟨mine, map, hinv, hb, ho⟩ := h
  have hmem : ∀ c, c ∈ mine ↔ c ∈ s.vma.boxes := fun c => hinv.objs.mem_iff
  have ho' := ho.congr hmem
  refine ⟨map, hinv.objs.boxes, ⟨hinv.order, hb, ?_, ?_⟩, fun b hb => ?_⟩
  · exact hinv.frames.boxes hinv.objs
  · exact { ho' with rest := fun _ _ => Or.inl rfl }
  · exact (ho'.rest b hb).imp_right And.left

/-- A call whose range does not wrap leaves alone what is of others. -/
theorem PageInv.keeps_spares (h : PageInv pml4 head0 base s s.vma.boxes map)
    (hobjs' : Objs head0 base s' s'.vma.boxes) (hop : op.NoWrap) (hstep : vmaStep s op = .ok s') :
    Keeps s s.vma.boxes s' s'.vma.boxes ∧ Spares s s.vma.boxes s' s'.vma.boxes := by
  have hmove := vmaStep_move hstep
  cases op with
  | new start vassize vaslimits vastype =>
      obtain ⟨ret, vma, kms, ha, -, rfl⟩ := hmove
      refine ⟨⟨fun _ _ _ => rfl, fun _ hc => Or.inl hc, fun hok => hok⟩, ?_⟩
      refine spares_of_same rfl fun c hc => Or.inl ⟨?_, rfl⟩
      exact (h.objs.alloced ha).mem_iff.mpr hc
  | del start vassize =>
      obtain ⟨b, hf⟩ := hmove
      obtain ⟨mine', hsub, hmine⟩ := h.objs.freed hf
      refine ⟨hf.keeps h.objs, Spares.mono (hf.spares h (vadszAlign_mod vassize) hop) ?_⟩
      exact fun c hc => hsub c (hmine.mem_iff.mpr hc)
  | fair vadrs =>
      obtain ⟨ret, hf⟩ := hmove
      exact ⟨hf.keeps h.objs hobjs', hf.spares h hobjs'⟩

theorem Paged.call (h : Paged pml4 s map) (hobjs : Objs head0 base s s.vma.boxes)
    (hop : op.NoWrap ∧ op.FreesPages) (hst : ServesFresh s op ∧ FreesLow s op)
    (hstep : vmaStep s op = .ok s') : Call head0 base s s' ∧ SpaceOk pml4 s' := by
  obtain ⟨map', hobjs', h', hrest⟩ :=
    (vmaStep_owned s op s' (h.ownedInv hobjs) ⟨hop, hst⟩ hstep).paged
  have hinv : PageInv pml4 head0 base s s.vma.boxes map := ⟨hobjs, h.order, h.frames⟩
  obtain ⟨hkeeps, hspares⟩ := hinv.keeps_spares hobjs' hop.1 hstep
  refine ⟨⟨hobjs', hkeeps, hspares, fun b hb hb' => ?_, fun f hf => h'.frames.uses hf⟩,
    .paged map' h'⟩
  rcases hrest b hb' with hinit | hnil
  · rw [hinit, if_pos hb]
    rfl
  · exact hnil

/-! ### Without a top table -/

theorem halMmuTransform_bare {t : MmuSt} (h : t.mmu.mudTdirearr = none) (v p flags : Nat) :
    (halMmuTransform v p flags).run t = .ok (false, t) := by
  unfold halMmuTransform
  rw [run_bind_ok (show (get : MmuM MmuSt).run t = .ok (t, t) from rfl)]
  simp only [h]
  rfl

theorem halMmuUntransform_bare {t : MmuSt} (h : t.mmu.mudTdirearr = none) (v : Nat) :
    (halMmuUntransform v).run t = .ok (0, t) := by
  unfold halMmuUntransform
  rw [run_bind_ok (show (get : MmuM MmuSt).run t = .ok (t, t) from rfl)]
  simp only [h]
  rfl

/-- There is nothing to unmap. -/
theorem vmaDelUnmappingPhyadrs_bare {kmbox : Option Nat} {l : List Nat} {r : Bool}
    (hnone : s.hal.mmu.mudTdirearr = none)
    (h : (vmaDelUnmappingPhyadrs kmbox l).run s = .ok (r, s')) : s' = s := by
  induction l generalizing r with
  | nil =>
      cases h
      rfl
  | cons v l ih =>
      obtain ⟨phyadrs, hal, gone, s₁, b', hun, hgone, hrest⟩ := vmaDelUnmappingPhyadrs_cons h
      rw [halMmuUntransform_bare hnone] at hun
      cases hun
      rcases vmaDelPhyadrs_cases hgone with ⟨rfl, -⟩ | ⟨c, -, h0, -⟩
      · exact ih hrest
      · exact absurd rfl h0

/-- A free leaves the tables and the frames of the boxes. -/
theorem Freed.bare {r : Bool} (h : Freed s start vassize r s')
    (hnone : s.hal.mmu.mudTdirearr = none) :
    s'.hal = s.hal ∧ ∀ c, (s'.box c).kmbMsalist = (s.box c).kmbMsalist := by
  cases r with
  | false =>
      cases h
      exact ⟨rfl, fun _ => rfl⟩
  | true =>
      obtain ⟨r, s₁, s₂, b₁, -, hs₁, hun, hs₂⟩ := h.unmaps
      have h₂ := vmaDelUnmappingPhyadrs_bare (by rw [hs₁.hal]; exact hnone) hun
      subst h₂
      exact ⟨hs₂.hal.trans hs₁.hal, fun c => (hs₂.list c).trans (hs₁.list c)⟩

/-- A page that is taken goes back. -/
theorem MapFault.bare {kmb phyadrs : Nat} (hnone : s.hal.mmu.mudTdirearr = none)
    (h : MapFault s kmb vadrs phyadrs s') : s'.hal.mmu = s.hal.mmu ∧ s'.hal.tbl = s.hal.tbl ∧
      s'.hal.pgs.out = s.hal.pgs.out ∧ ∀ c, (s'.box c).kmbMsalist = (s.box c).kmbMsalist := by
  cases h with
  | nopage pgs hout => exact ⟨rfl, rfl, hout, fun _ => rfl⟩
  | mapped f pgs hnew hout hal htr =>
      rw [halMmuTransform_bare (by exact hnone)] at htr
      cases htr
  | undone f pgs hnew hout hal htr b s' hdel =>
      rw [halMmuTransform_bare (by exact hnone)] at htr
      cases htr
      have hlist : (Function.update s.box kmb ((s.box kmb).addMsa f) kmb).kmbMsalist =
          f :: (s.box kmb).kmbMsalist := by
        rw [Function.update_self]
        rfl
      rcases vmaDelUsermsa_cases hdel with ⟨-, hno | hno⟩ | ⟨g, pgs', -, hadr, hgive, rfl⟩
      · exact absurd hno (frameAddr_ne_zero f)
      · exact absurd rfl (hno f (hlist ▸ List.mem_cons_self))
      · have hgf : g = f := frameAddr_inj hadr
        subst hgf
        obtain ⟨-, hout'⟩ := Supply.give_inv hgive
        refine ⟨rfl, rfl, ?_, fun c => ?_⟩
        · show pgs'.out = s.hal.pgs.out
          rw [hout', hout, List.erase_cons_head]
        · show (Function.update (Function.update s.box kmb _) kmb _ c).kmbMsalist = _
          by_cases hc : c = kmb
          · subst hc
            rw [Function.update_self]
            show (Function.update s.box c ((s.box c).addMsa g) c).kmbMsalist.erase g = _
            rw [hlist, List.erase_cons_head]
          · rw [Function.update_of_ne hc, Function.update_of_ne hc]

/-- A call that touches no table, and after which all boxes are empty. -/
theorem Bare.call_of_empty (h : Bare s) (hobjs : Objs head0 base s' s'.vma.boxes)
    (hkeeps : Keeps s s.vma.boxes s' s'.vma.boxes) (hmmu : s'.hal.mmu = s.hal.mmu)
    (htbl : s'.hal.tbl = s.hal.tbl) (hout : s'.hal.pgs.out = s.hal.pgs.out)
    (hnil : ∀ c, c ∈ s.vma.boxes ∨ c ∈ s'.vma.boxes → (s'.box c).kmbMsalist = []) :
    Call head0 base s s' ∧ SpaceOk pml4 s' := by
  have hbare : Bare s' := ⟨hmmu.trans h.mmu, fun c hc => hnil c (Or.inr hc)⟩
  refine ⟨⟨hobjs, hkeeps, fun f hf => ⟨⟨?_, ?_, fun c hc => ?_⟩, by rw [htbl]⟩,
    fun c hc _ => hnil c (Or.inl hc), fun f hf => absurd hf (hbare.not_uses f)⟩, .bare hbare⟩
  · rw [hout]
    exact hf.out
  · rw [hmmu]
    exact hf.table
  · rw [hnil c (Or.inr hc)]
    exact List.not_mem_nil

theorem Bare.call (h : Bare s) (hobjs : Objs head0 base s s.vma.boxes)
    (hstep : vmaStep s op = .ok s') : Call head0 base s s' ∧ SpaceOk pml4 s' := by
  have hmove := vmaStep_move hstep
  have hnone : s.hal.mmu.mudTdirearr = none := by rw [h.mmu]; rfl
  cases op with
  | new start vassize vaslimits vastype =>
      obtain ⟨ret, vma, kms, ha, -, rfl⟩ := hmove
      have hobjs' := hobjs.alloced ha
      refine h.call_of_empty hobjs'.boxes ⟨fun _ _ _ => rfl, fun _ hc => Or.inl hc, fun hok => hok⟩
        rfl rfl rfl fun c hc => ?_
      rcases hc with hc | hc
      · exact h.empty c hc
      · exact h.empty c (hobjs'.mem_iff.mpr hc)
  | del start vassize =>
      obtain ⟨b, hf⟩ := hmove
      obtain ⟨mine', hsub, hobjs'⟩ := hobjs.freed hf
      have hsame := hf.bare hnone
      refine h.call_of_empty hobjs'.boxes (hf.keeps hobjs) (by rw [hsame.1]) (by rw [hsame.1])
        (by rw [hsame.1]) fun c hc => ?_
      rw [hsame.2]
      rcases hc with hc | hc
      · exact h.empty c hc
      · exact h.empty c (hsub c (hobjs'.mem_iff.mpr hc))
  | fair vadrs =>
      obtain ⟨ret, hf⟩ := hmove
      obtain ⟨mine', hobjs'⟩ := hobjs.faired hf
      have hkeeps := hf.keeps hobjs hobjs'.boxes
      cases hf with
      | refused ret hret =>
          exact h.call_of_empty hobjs'.boxes hkeeps rfl rfl rfl fun c hc =>
            h.empty c (hc.elim id id)
      | served r hr hlo hhi hmin hmax kmbox s₁ hbox phyadrs s₂ hmap filled =>
          have hvma : s₂.vma = s₁.vma := hmap.pagesOnly.vma
          -- only an empty box can come into use
          have hbefore : s₁.hal = s.hal ∧ ∀ c, c ∈ s.vma.boxes ∨ c ∈ s₁.vma.boxes →
              (s₁.box c).kmbMsalist = [] := by
            cases hbox with
            | there hthere => exact ⟨rfl, fun c hc => h.empty c (hc.elim id id)⟩
            | got hthere s₁ hgot =>
                obtain ⟨hnew, hobjs₁⟩ := hobjs.getBox hr hthere hgot
                have hbx : s₁.box = Function.update s.box kmbox
                    { kvmemcboxInit with kmbCont := 1 } := by
                  cases hgot <;> rfl
                refine ⟨by cases hgot <;> rfl, fun c hc => ?_⟩
                show (s₁.box c).kmbMsalist = []
                rw [hbx]
                by_cases hck : c = kmbox
                · subst hck
                  rw [Function.update_self]
                  rfl
                · rw [Function.update_of_ne hck]
                  rcases hc with hc | hc
                  · exact h.empty c hc
                  · exact h.empty c ((List.mem_cons.mp (hobjs₁.mem_iff.mpr hc)).resolve_left hck)
          obtain ⟨hmmu, htbl, hout, hlist⟩ := hmap.bare (by rw [hbefore.1]; exact hnone)
          rw [hbefore.1] at hmmu htbl hout
          apply h.call_of_empty hobjs'.boxes hkeeps hmmu htbl hout
          intro c hc
          refine (hlist c).trans (hbefore.2 c (hc.imp_right fun hc => ?_))
          rw [← hvma]
          exact hc

/-! ### Without regions -/

/-- Every call is refused. -/
theorem NoRegion.call (h : s.vma.vsList = []) (hobjs : Objs head0 base s s.vma.boxes)
    (huses : ∀ f, Uses s f → f ∈ s.hal.pgs.out) (hstep : vmaStep s op = .ok s') :
    Call head0 base s s' ∧ SpaceOk pml4 s' := by
  have hno : ∀ r, r ∉ s.vma.vsList := fun r hr => by rw [h] at hr; cases hr
  suffices hsame : ∃ kms, kms.out = s.kms.out ∧ s' = { s with kms := kms } from by
    obtain ⟨kms, hout, rfl⟩ := hsame
    have hperm := hobjs.out
    rw [← hout] at hperm
    refine ⟨⟨{ hobjs with out := hperm }, ⟨fun _ _ _ => rfl, fun _ hc => Or.inl hc, fun hok => hok⟩,
      spares_of_same rfl fun c hc => Or.inl ⟨hc, rfl⟩, fun b hb hb' => absurd hb hb', huses⟩,
      .noRegion h⟩
  have hmove := vmaStep_move hstep
  cases op with
  | new start vassize vaslimits vastype =>
      obtain ⟨ret, vma, kms, ha, -, rfl⟩ := hmove
      cases ha with
      | refused kms hout => exact ⟨kms, hout, rfl⟩
      | grown r hfits => exact absurd hfits.mem (hno r)
      | added r hfits => exact absurd hfits.mem (hno r)
  | del start vassize =>
      obtain ⟨b, hf⟩ := hmove
      cases hf with
      | refused kms hout => exact ⟨kms, hout, rfl⟩
      | whole r hr => exact absurd hr.mem (hno r)
      | front r hr => exact absurd hr.mem (hno r)
      | back r hr => exact absurd hr.mem (hno r)
      | split r hr => exact absurd hr.mem (hno r)
  | fair vadrs =>
      obtain ⟨ret, hf⟩ := hmove
      cases hf with
      | refused => exact ⟨s.kms, rfl, rfl⟩
      | served r hr => exact absurd hr (hno r)

/-- **Every call on an address space.** -/
theorem SpaceOk.call (h : SpaceOk pml4 s) (hobjs : Objs head0 base s s.vma.boxes)
    (huses : ∀ f, Uses s f → f ∈ s.hal.pgs.out) (hop : op.NoWrap ∧ op.FreesPages)
    (hst : ServesFresh s op ∧ FreesLow s op) (hstep : vmaStep s op = .ok s') :
    Call head0 base s s' ∧ SpaceOk pml4 s' := by
  cases h with
  | paged map h => exact h.call hobjs hop hst hstep
  | bare h => exact h.call hobjs hstep
  | noRegion h => exact NoRegion.call h hobjs huses hstep

/-- Every call whose range does not wrap. -/
theorem SpaceMap.call (h : SpaceMap pml4 s) (hobjs : Objs head0 base s s.vma.boxes)
    (huses : ∀ f, Uses s f → f ∈ s.hal.pgs.out) (hop : op.NoWrap) (hstep : vmaStep s op = .ok s') :
    AnyCall head0 base s s' ∧ SpaceMap pml4 s' := by
  cases h with
  | mapped map horder hframes =>
      have hinv : PageInv pml4 head0 base s s.vma.boxes map := ⟨hobjs, horder, hframes⟩
      obtain ⟨mine', map', h'⟩ := vmaStep_pages s op s' ⟨_, _, hinv⟩ hop hstep
      have hframes' := h'.frames.boxes h'.objs
      obtain ⟨hkeeps, hspares⟩ := hinv.keeps_spares h'.objs.boxes hop hstep
      exact ⟨⟨h'.objs.boxes, hkeeps, hspares, fun f hf => hframes'.uses hf⟩,
        .mapped map' h'.order hframes'⟩
  | bare h =>
      have hboth : Call head0 base s s' ∧ SpaceOk pml4 s' := h.call hobjs hstep
      obtain ⟨hcall, hs⟩ := hboth
      exact ⟨hcall.any, hs.spaceMap⟩
  | noRegion h =>
      have hboth : Call head0 base s s' ∧ SpaceOk pml4 s' := NoRegion.call h hobjs huses hstep
      obtain ⟨hcall, hs⟩ := hboth
      exact ⟨hcall.any, hs.spaceMap⟩

/-! ### While others run -/

/-- **A call elsewhere** leaves an address space as it is, if its frames stay out and keep
their words, and its boxes are not written. -/
theorem Frames.elsewhere (h : Frames pml4 s mine map) (hmmu : s'.hal.mmu = s.hal.mmu)
    (htable : ∀ lv, ∀ f ∈ s.hal.mmu.mudHead lv, f ∈ s'.hal.pgs.out ∧ s'.hal.tbl f = s.hal.tbl f)
    (hout : ∀ c ∈ mine, ∀ f ∈ (s.box c).kmbMsalist, f ∈ s'.hal.pgs.out)
    (hbox : ∀ c ∈ mine, s'.box c = s.box c) : Frames pml4 s' mine map := by
  obtain ⟨others, hok, hheld⟩ := h.mmu
  obtain ⟨others', hok'⟩ := hok.elsewhere hmmu htable
  refine ⟨⟨others', hok', fun c hc f hf => ?_⟩, fun c hc => ?_, fun c hc d hd f hf hf' => ?_⟩
  · rw [hbox c hc] at hf
    refine hok'.mem_others.mpr ⟨hout c hc f hf, fun lv => ?_⟩
    rw [hmmu]
    exact (hok.mem_others.mp (hheld c hc f hf)).2 lv
  · rw [hbox c hc]
    exact h.once c hc
  · rw [hbox c hc] at hf
    rw [hbox d hd] at hf'
    exact h.apart c hc d hd f hf hf'

theorem uses_iff (hvma : s'.vma = s.vma) (hmmu : s'.hal.mmu = s.hal.mmu)
    (hbox : ∀ c ∈ s.vma.boxes, s'.box c = s.box c) (f : PageFrame) : Uses s' f ↔ Uses s f := by
  unfold Uses
  rw [hvma, hmmu]
  refine or_congr_right (exists_congr fun c => and_congr_right fun hc => ?_)
  rw [hbox c hc]

theorem SpaceOk.elsewhere (h : SpaceOk pml4 s) (hvma : s'.vma = s.vma)
    (hmmu : s'.hal.mmu = s.hal.mmu)
    (huses : ∀ f, Uses s f → f ∈ s'.hal.pgs.out ∧ s'.hal.tbl f = s.hal.tbl f)
    (hbox : ∀ c ∈ s.vma.boxes, s'.box c = s.box c) : SpaceOk pml4 s' := by
  cases h with
  | paged map h =>
      have ho := h.owned
      refine .paged map ⟨hvma ▸ h.order, hvma ▸ h.bounds, ?_, ?_⟩
      · rw [hvma]
        exact h.frames.elsewhere hmmu (fun lv f hf => huses f (Or.inl ⟨lv, hf⟩))
          (fun c hc f hf => (huses f (Or.inr ⟨c, hc, hf⟩)).1) hbox
      · rw [hvma]
        refine ⟨fun p hp f hf => ?_, fun c hc f hf => ?_, ho.inj, fun c hc => ?_,
          fun _ _ => Or.inl rfl⟩
        · obtain ⟨c, hc, ha, hfc⟩ := ho.page p hp f hf
          exact ⟨c, hc, ha, by rw [hbox c hc]; exact hfc⟩
        · rw [hbox c hc] at hf
          exact ho.frame c hc f hf
        · rw [hbox c hc]
          exact ho.msanr c hc
  | bare h =>
      refine .bare ⟨hmmu.trans h.mmu, fun c hc => ?_⟩
      rw [hvma] at hc
      rw [hbox c hc]
      exact h.empty c hc
  | noRegion h => exact .noRegion (by rw [hvma]; exact h)

theorem SpaceMap.elsewhere (h : SpaceMap pml4 s) (hvma : s'.vma = s.vma)
    (hmmu : s'.hal.mmu = s.hal.mmu)
    (huses : ∀ f, Uses s f → f ∈ s'.hal.pgs.out ∧ s'.hal.tbl f = s.hal.tbl f)
    (hbox : ∀ c ∈ s.vma.boxes, s'.box c = s.box c) : SpaceMap pml4 s' := by
  cases h with
  | mapped map horder hframes =>
      refine .mapped map (hvma ▸ horder) ?_
      rw [hvma]
      exact hframes.elsewhere hmmu (fun lv f hf => huses f (Or.inl ⟨lv, hf⟩))
        (fun c hc f hf => (huses f (Or.inr ⟨c, hc, hf⟩)).1) hbox
  | bare h =>
      have hs : SpaceOk pml4 s' := SpaceOk.elsewhere (.bare h) hvma hmmu huses hbox
      exact hs.spaceMap
  | noRegion h => exact .noRegion (by rw [hvma]; exact h)

/-! ### A new one -/

/-- An address space that `mmadrsdsc_t_init` has cleared. -/
def VmaSt.cleared (k : VmaSt) : VmaSt :=
  { k with
    vma := virmemadrsInit
    msdThread := none
    hal := { k.hal with mmu := mmudscInit } }

theorem newMmadrsdsc_none {pml4 : Nat → Nat} {k : VmaSt}
    (h : (newMmadrsdsc pml4).run k = .ok (none, s)) :
    ∃ kms, kms.out = k.kms.out ∧ s = { k with kms := kms } := by
  obtain ⟨o, s₁, h₁, hrun⟩ := run_bind_inv h
  cases h₁
  rcases k.kms.take_cases with ⟨ho, hout⟩ | ⟨x, ho, -, -⟩
  · rw [ho] at hrun
    cases hrun
    exact ⟨_, hout, rfl⟩
  · rw [ho] at hrun
    obtain ⟨_, _, h₁, hrun⟩ := run_bind_inv hrun
    cases h₁
    obtain ⟨b, s₂, -, hrun⟩ := run_bind_inv hrun
    obtain ⟨r, s₃, -, hrun⟩ := run_bind_inv hrun
    cases hrun

/-- **`new_mmadrsdsc`**, whether or not it gets all it asks for. -/
theorem newMmadrsdsc_call {pdptepd mm : Nat} {k : VmaSt}
    (hobjs : Objs head0 base k.cleared k.cleared.vma.boxes)
    (h : (newMmadrsdsc (copyPagesData pdptepd)).run k = .ok (some mm, s)) :
    Call head0 (mm :: base) k.cleared s ∧ SpaceOk (copyPagesData pdptepd) s := by
  obtain ⟨o, s₁, h₁, hrun⟩ := run_bind_inv h
  cases h₁
  rcases k.kms.take_cases with ⟨ho, -⟩ | ⟨x, ho, -, hx⟩
  · rw [ho] at hrun
    cases hrun
  rw [ho] at hrun
  obtain ⟨_, _, h₁, hrun⟩ := run_bind_inv hrun
  cases h₁
  obtain ⟨b, s₂, hinit, hrun⟩ := run_bind_inv hrun
  obtain ⟨r, s₃, hmmu, hrun⟩ := run_bind_inv hrun
  cases hrun
  obtain ⟨hal, htop, rfl⟩ := onMmu_inv hmmu
  -- the regions that there are have no boxes
  obtain ⟨vma, kms, rfl, hout, hnone, hkind⟩ : ∃ vma kms,
      s₂ = { k.cleared with vma := vma, kms := kms } ∧
      kms.out.Perm (vma.vsList.map Kmvarsdsc.adr ++ mm :: k.kms.out) ∧
      (∀ c, some c ∉ vma.vsList.map Kmvarsdsc.kvaKvmbox) ∧
      (vma.vsList = [] ∨ ∃ x y z, vma = virmemadrsInit.initUser x y z) := by
    rcases kvmaInituserspaceVirmemadrs_cases hinit with ⟨kms, hout, rfl⟩ | ⟨x, y, z, kms, hout, rfl⟩
    · refine ⟨virmemadrsInit, kms, rfl, hout.trans (List.Perm.of_eq hx), ?_, Or.inl rfl⟩
      exact fun _ => List.not_mem_nil
    · refine ⟨_, kms, rfl, ?_, fun c hc => ?_, Or.inr ⟨x, y, z, rfl⟩⟩
      · rw [hout]
        show (z :: y :: x :: k.kms.take.2.out).Perm ([x, y, z] ++ _)
        rw [hx]
        apply List.perm_iff_count.mpr
        intro a
        simp only [List.count_append, List.count_cons, List.count_nil]
        omega
      · have hc : some c ∈ [none, none, none] := hc
        simp at hc
  have hboxes : ∀ c, c ∉ vma.boxes := fun c hc => hnone c (mem_boxes.mp hc)
  have hobjs' : Objs head0 (mm :: base) { k.cleared with vma := vma, kms := kms, hal := hal }
      vma.boxes := {
    out := by
      refine hout.trans (List.perm_iff_count.mpr fun a => ?_)
      have hk := hobjs.out.count_eq a
      change k.kms.out.count a = ([] ++ ([] ++ (k.mgr.kbmCachehead ++ base))).count a at hk
      show _ = (_ ++ (vma.boxes ++ (k.mgr.kbmCachehead ++ mm :: base))).count a
      rw [List.eq_nil_iff_forall_not_mem.mpr hboxes]
      simp only [List.count_append, List.count_cons, List.count_nil] at hk ⊢
      omega
    head := by
      rw [List.eq_nil_iff_forall_not_mem.mpr hboxes]
      exact hobjs.head
    others := fun c hc => List.mem_cons_of_mem mm (hobjs.others c hc)
    users := fun c => iff_of_false (hnone c) (hboxes c)
    cont := fun c hc => absurd hc (hboxes c) }
  have hkeeps : Keeps k.cleared k.cleared.vma.boxes
      { k.cleared with vma := vma, kms := kms, hal := hal } vma.boxes :=
    ⟨fun _ _ _ => rfl, fun _ hc => Or.inl hc, fun hok => hok⟩
  rcases halMmuInit_cases htop with ⟨-, pgs, hpgs, rfl⟩ | ⟨rfl, hkept⟩
  · refine ⟨⟨hobjs', hkeeps, fun f hf => ⟨⟨?_, ?_, ?_⟩, rfl⟩, fun c hc => ?_, ?_⟩, ?_⟩
    · show f ∈ pgs.out
      rw [hpgs]
      exact hf.out
    · exact fun lv => List.not_mem_nil
    · exact fun c hc => absurd hc (hboxes c)
    · exact absurd hc List.not_mem_nil
    · rintro f (⟨lv, hlv⟩ | ⟨c, hc, -⟩)
      · cases hlv
      · exact absurd hc (hboxes c)
    · exact .bare ⟨rfl, fun c hc => absurd hc (hboxes c)⟩
  · have hok := init_mmuOk pdptepd (by rfl) htop
    refine ⟨⟨hobjs', hkeeps, fun f hf => ⟨⟨?_, ?_, ?_⟩, hkept f hf.out⟩, fun c hc => ?_, ?_⟩, ?_⟩
    · exact (hok.mem_others.mp hf.out).1
    · exact (hok.mem_others.mp hf.out).2
    · exact fun c hc => absurd hc (hboxes c)
    · exact absurd hc List.not_mem_nil
    · rintro f (⟨lv, hlv⟩ | ⟨c, hc, -⟩)
      · obtain ⟨top, ht, -⟩ := hok.tables
        exact (ht.out f).mpr (Or.inr ⟨lv, hlv⟩)
      · exact absurd hc (hboxes c)
    · rcases hkind with hnil | ⟨x, y, z, rfl⟩
      · exact .noRegion hnil
      · refine .paged (fun _ => none) ⟨initUser_inOrder x y z, initUser_pageBounds x y z, ?_, ?_⟩
        · exact ⟨⟨_, hok, fun c hc => absurd hc (hboxes c)⟩, fun c hc => absurd hc (hboxes c),
            fun c hc => absurd hc (hboxes c)⟩
        · exact ⟨fun p _ f hf => by (cases hf), fun c hc => absurd hc (hboxes c),
            fun p q f _ _ hf => by (cases hf), fun c hc => absurd hc (hboxes c),
            fun c _ => Or.inl rfl⟩

end Space

end Cosmos.Kernel
