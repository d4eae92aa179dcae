import Cosmos.Kernel.KrlvadrsmemList

/-!
# The pages of an address space

The page tables show a map from page numbers to frames, and the boxes in use hold frames
that the allocator has handed out, each frame in one box: `Frames`.  Every call keeps
this, and says which pages of the map it changes, as long as its range does not wrap.
-/

namespace Cosmos.Kernel

open Cosmos.Lib Cosmos.Lib.Ranges Cosmos.Lib.Run Cosmos.Lib.StM Cosmos.Lib.Word64 Cosmos.Hal

/-! ## Addresses and page numbers -/

theorem userAdr_of_lt {v : Nat} (h : v < 2 ^ 47) : UserAdr v := by
  unfold UserAdr
  rw [(index_eq v).2.2.2]
  omega

theorem pageNr_eq {v : Nat} (h : v < 2 ^ 47) : pageNr v = v / 0x1000 := by
  unfold pageNr
  rw [Nat.shiftRight_eq_div_pow]
  omega

theorem mem_vmapAdrs {start vassize v : Nat} (hsz : vassize % 0x1000 = 0) :
    v ∈ vmapAdrs start (start + vassize) ↔
      start ≤ v ∧ v < start + vassize ∧ (v - start) % 0x1000 = 0 := by
  unfold vmapAdrs vmapMinSize
  rw [List.mem_map]
  constructor
  · rintro ⟨n, hn, rfl⟩
    rw [List.mem_range] at hn
    omega
  · rintro ⟨hlo, hhi, hmod⟩
    exact ⟨(v - start) / 0x1000, List.mem_range.mpr (by omega), by omega⟩

/-- A range that wraps has no pages for the loop. -/
theorem vmapAdrs_wrap {start vassize : Nat} (hsz : vassize < wordMod)
    (h : wordMod ≤ start + vassize) : vmapAdrs start (add64 start vassize) = [] := by
  have hend : add64 start vassize ≤ start := by
    unfold add64
    by_cases hs : start < wordMod
    · have := Nat.mod_eq_sub_mod h
      have := Nat.mod_le (start + vassize - wordMod) wordMod
      omega
    · have := Nat.mod_lt (start + vassize) (show wordMod > 0 by decide)
      omega
  unfold vmapAdrs vmapMinSize
  rw [show add64 start vassize - start = 0 by omega]
  rfl

/-! ## Frames in boxes -/

/-- The map without the pages of some addresses. -/
def cleared (map : Nat → Option PageFrame) (l : List Nat) (q : Nat) : Option PageFrame :=
  if ∃ v ∈ l, pageNr v = q then none else map q

/-- The boxes after the frame at an address has left the box of a region. -/
def unbox (box : Nat → Kvmemcbox) : Option Nat → Nat → Nat → Kvmemcbox
  | none, _ => box
  | some c, phyadrs =>
      match (box c).kmbMsalist.find? fun f => frameAddr f = phyadrs with
      | none => box
      | some f => Function.update box c ((box c).delMsa f)

/-- **The page tables show `map`**, and the boxes `mine` hold frames that are out, each
in one place. -/
structure Frames (pml4 : Nat → Nat) (s : VmaSt) (mine : List Nat)
    (map : Nat → Option PageFrame) : Prop where
  mmu : ∃ others, MmuOk pml4 others ⟨s.hal, map⟩ ∧
    ∀ b ∈ mine, ∀ f ∈ (s.box b).kmbMsalist, f ∈ others
  once : ∀ b ∈ mine, (s.box b).kmbMsalist.Nodup
  apart : ∀ b ∈ mine, ∀ c ∈ mine, ∀ f, f ∈ (s.box b).kmbMsalist → f ∈ (s.box c).kmbMsalist → b = c

/-- The frames of the pages that a free unmaps are below `2^40`. -/
def LowRange (s : VmaSt) (start vassize : Nat) : Prop :=
  DelRefused s start vassize ∨ ∀ v ∈ vmapAdrs start (add64 start vassize),
    ∀ f ∈ mmuLookup s.hal v, frameAddr f < 2 ^ 40

instance (s : VmaSt) (start vassize : Nat) : Decidable (LowRange s start vassize) :=
  haveI : Decidable (DelRefused s start vassize) :=
    inferInstanceAs (Decidable (∀ r ∈ vmaDelFindKmvarsdsc s.vma start vassize,
      r.kvaStart < start ∧ add64 start vassize < r.kvaEnd ∧ s.kms.take.1 = none))
  inferInstanceAs (Decidable (_ ∨ _))

section Frames

variable {pml4 : Nat → Nat} {s s' : VmaSt} {mine mine' : List Nat}
  {map map' : Nat → Option PageFrame} {f : PageFrame} {c : Nat} {b : Bool}

/-- A page that is mapped after another one has been cleared was so before. -/
theorem eq_some_of_update_none {p q : Nat} (h : Function.update map p none q = some f) :
    map q = some f := by
  by_cases hq : q = p
  · rw [hq, Function.update_self] at h
    cases h
  · rwa [Function.update_of_ne hq] at h

theorem cleared_nil (map : Nat → Option PageFrame) : cleared map [] = map := by
  funext q
  exact if_neg (by simp)

theorem cleared_cons (map : Nat → Option PageFrame) (v : Nat) (l : List Nat) :
    cleared (Function.update map (pageNr v) none) l = cleared map (v :: l) := by
  funext q
  unfold cleared
  by_cases hl : ∃ w ∈ l, pageNr w = q
  · obtain ⟨w, hw, hq⟩ := hl
    rw [if_pos ⟨w, hw, hq⟩, if_pos ⟨w, List.mem_cons_of_mem v hw, hq⟩]
  · rw [if_neg hl]
    by_cases hv : q = pageNr v
    · subst hv
      rw [Function.update_self, if_pos ⟨v, List.mem_cons_self, rfl⟩]
    · rw [Function.update_of_ne hv, if_neg]
      rintro ⟨w, hw, hq⟩
      rcases List.mem_cons.mp hw with rfl | hw
      · exact hv hq.symm
      · exact hl ⟨w, hw, hq⟩

/-- No frame of the box is at the address. -/
theorem unbox_of_not {box : Nat → Kvmemcbox} {phyadrs : Nat}
    (h : ∀ f ∈ (box c).kmbMsalist, frameAddr f ≠ phyadrs) : unbox box (some c) phyadrs = box := by
  have hfind : ((box c).kmbMsalist.find? fun f => decide (frameAddr f = phyadrs)) = none :=
    List.find?_eq_none.mpr fun f hf he => h f hf (of_decide_eq_true he)
  unfold unbox
  simp only [hfind]

theorem unbox_zero (box : Nat → Kvmemcbox) (kmbox : Option Nat) : unbox box kmbox 0 = box := by
  cases kmbox with
  | none => rfl
  | some c => exact unbox_of_not fun f _ => frameAddr_ne_zero f

/-- A frame of the box leaves it. -/
theorem unbox_of_mem {box : Nat → Kvmemcbox} (h : f ∈ (box c).kmbMsalist) :
    unbox box (some c) (frameAddr f) = Function.update box c ((box c).delMsa f) := by
  have hfind : ((box c).kmbMsalist.find? fun g => decide (frameAddr g = frameAddr f)) = some f := by
    cases hg : (box c).kmbMsalist.find? fun g => decide (frameAddr g = frameAddr f) with
    | none => exact absurd (decide_eq_true rfl) (List.find?_eq_none.mp hg f h)
    | some g =>
        have hadr := List.find?_some hg
        rw [frameAddr_inj (of_decide_eq_true hadr)]
  unfold unbox
  simp only [hfind]

/-- A frame that is not at the address stays in its box. -/
theorem mem_unbox {box : Nat → Kvmemcbox} {kmbox : Option Nat} {phyadrs : Nat}
    (h : f ∈ (box c).kmbMsalist) (hne : frameAddr f ≠ phyadrs) :
    f ∈ (unbox box kmbox phyadrs c).kmbMsalist := by
  cases kmbox with
  | none => exact h
  | some d =>
      unfold unbox
      cases hg : (box d).kmbMsalist.find? fun g => decide (frameAddr g = phyadrs) with
      | none =>
          simp only [hg]
          exact h
      | some g =>
          simp only [hg]
          have hadr := List.find?_some hg
          by_cases hcd : c = d
          · subst hcd
            rw [Function.update_self]
            refine (List.mem_erase_of_ne ?_).mpr h
            rintro rfl
            exact hne (of_decide_eq_true hadr)
          · rwa [Function.update_of_ne hcd]

/-- Fewer boxes, and none that is left has changed its frames. -/
theorem Frames.mono (h : Frames pml4 s mine map) (hhal : s'.hal = s.hal)
    (hsub : ∀ b ∈ mine', b ∈ mine)
    (hlist : ∀ b ∈ mine', (s'.box b).kmbMsalist = (s.box b).kmbMsalist) :
    Frames pml4 s' mine' map where
  mmu := by
    obtain ⟨others, hok, hheld⟩ := h.mmu
    rw [hhal]
    exact ⟨others, hok, fun b hb f hf => hheld b (hsub b hb) f (hlist b hb ▸ hf)⟩
  once b hb := by
    rw [hlist b hb]
    exact h.once b (hsub b hb)
  apart b hb c hc f hf hf' := by
    rw [hlist b hb] at hf
    rw [hlist c hc] at hf'
    exact h.apart b (hsub b hb) c (hsub c hc) f hf hf'

/-- The page tables have changed. -/
theorem Frames.remap (h : Frames pml4 s mine map) {hal : MmuSt}
    (hok : ∀ others, MmuOk pml4 others ⟨s.hal, map⟩ → MmuOk pml4 others ⟨hal, map'⟩) :
    Frames pml4 { s with hal := hal } mine map' where
  mmu := by
    obtain ⟨others, hmmu, hheld⟩ := h.mmu
    exact ⟨others, hok others hmmu, hheld⟩
  once := h.once
  apart := h.apart

theorem Frames.lookup (h : Frames pml4 s mine map) {v : Nat} (hv : v < 2 ^ 47) :
    mmuLookup s.hal v = map (pageNr v) := by
  obtain ⟨others, hmmu, -⟩ := h.mmu
  exact hmmu.lookup (userAdr_of_lt hv)

/-- A frame of a box goes back. -/
theorem Frames.give (h : Frames pml4 s mine map) (hc : c ∈ mine) (hf : f ∈ (s.box c).kmbMsalist)
    {pgs : Supply PageFrame} (hgive : s.hal.pgs.give f = some pgs) :
    Frames pml4 { s with
      hal := { s.hal with pgs := pgs }
      box := Function.update s.box c ((s.box c).delMsa f) } mine map := by
  obtain ⟨others, hmmu, hheld⟩ := h.mmu
  have hlist : ∀ b g, g ∈ (Function.update s.box c ((s.box c).delMsa f) b).kmbMsalist →
      g ∈ (s.box b).kmbMsalist := by
    intro b g hg
    by_cases hb : b = c
    · subst hb
      rw [Function.update_self] at hg
      exact List.mem_of_mem_erase hg
    · rwa [Function.update_of_ne hb] at hg
  refine ⟨⟨_, hmmu.give (hheld c hc f hf) hgive, fun b hb g hg => ?_⟩, fun b hb => ?_,
    fun b hb d hd g hg hg' => h.apart b hb d hd g (hlist b g hg) (hlist d g hg')⟩
  · refine List.mem_filter.mpr ⟨hheld b hb g (hlist b g hg), decide_eq_true ?_⟩
    rintro rfl
    have hbc := h.apart b hb c hc g (hlist b g hg) hf
    subst hbc
    change g ∈ (Function.update s.box b ((s.box b).delMsa g) b).kmbMsalist at hg
    rw [Function.update_self] at hg
    exact (h.once b hb).not_mem_erase hg
  · show (Function.update s.box c ((s.box c).delMsa f) b).kmbMsalist.Nodup
    by_cases hbc : b = c
    · subst hbc
      rw [Function.update_self]
      exact (h.once b hb).erase f
    · rw [Function.update_of_ne hbc]
      exact h.once b hb

/-- A frame that was not out joins a box. -/
theorem Frames.take (h : Frames pml4 s mine map) {pgs : Supply PageFrame}
    (hnew : f ∉ s.hal.pgs.out) (hout : pgs.out = f :: s.hal.pgs.out) :
    (∀ b ∈ mine, f ∉ (s.box b).kmbMsalist) ∧ Frames pml4 { s with
      hal := { s.hal with pgs := pgs }
      box := Function.update s.box c ((s.box c).addMsa f) } mine map := by
  obtain ⟨others, hmmu, hheld⟩ := h.mmu
  have hfresh : ∀ b ∈ mine, f ∉ (s.box b).kmbMsalist := by
    intro b hb hf
    obtain ⟨top, ht, -, -⟩ := hmmu.tables
    exact hnew ((ht.out f).mpr (Or.inl (hheld b hb f hf)))
  have hlist : ∀ b g, g ∈ (Function.update s.box c ((s.box c).addMsa f) b).kmbMsalist →
      g ∈ (s.box b).kmbMsalist ∨ g = f ∧ b = c := by
    intro b g hg
    by_cases hb : b = c
    · subst hb
      rw [Function.update_self] at hg
      rcases List.mem_cons.mp hg with hg | hg
      · exact Or.inr ⟨hg, rfl⟩
      · exact Or.inl hg
    · rw [Function.update_of_ne hb] at hg
      exact Or.inl hg
  refine ⟨hfresh, ⟨_, hmmu.take hnew hout, fun b hb g hg => ?_⟩, fun b hb => ?_,
    fun b hb d hd g hg hg' => ?_⟩
  · rcases hlist b g hg with hg | ⟨rfl, -⟩
    · exact List.mem_cons_of_mem f (hheld b hb g hg)
    · exact List.mem_cons_self
  · show (Function.update s.box c ((s.box c).addMsa f) b).kmbMsalist.Nodup
    by_cases hbc : b = c
    · subst hbc
      rw [Function.update_self]
      exact List.nodup_cons.mpr ⟨hfresh b hb, h.once b hb⟩
    · rw [Function.update_of_ne hbc]
      exact h.once b hb
  · rcases hlist b g hg with hold | ⟨rfl, rfl⟩ <;> rcases hlist d g hg' with hold' | ⟨he, rfl⟩
    · exact h.apart b hb d hd g hold hold'
    · exact absurd (he ▸ hold) (hfresh b hb)
    · exact absurd hold' (hfresh d hd)
    · rfl

/-! ### Unmapping -/

/-- The frame at the address that unmapping has returned leaves the box. -/
theorem Frames.delPhyadrs (h : Frames pml4 s mine map) {kmbox : Option Nat}
    (hc : ∀ c, kmbox = some c → c ∈ mine) {phyadrs : Nat}
    (hrun : (vmaDelPhyadrs kmbox phyadrs).run s = .ok (b, s')) :
    Frames pml4 s' mine map ∧ s'.box = unbox s.box kmbox phyadrs := by
  rcases vmaDelPhyadrs_cases hrun with ⟨rfl, rfl | rfl⟩ | ⟨c, rfl, h0, hdel⟩
  · exact ⟨h, rfl⟩
  · exact ⟨h, (unbox_zero s'.box kmbox).symm⟩
  · rcases vmaDelUsermsa_cases hdel with ⟨rfl, hno⟩ | ⟨f, pgs, hf, rfl, hgive, rfl⟩
    · exact ⟨h, (unbox_of_not (hno.resolve_left h0)).symm⟩
    · have hf := hf.resolve_left fun hf => by cases hf
      exact ⟨h.give (hc c rfl) hf hgive, (unbox_of_mem hf).symm⟩

end Frames

/-! ## Boxes and pages -/

/-- **The frames of a box are those of its pages.**  `asg` gives each page the box of the
region it is in; the boxes that are not in use are as in `box₀`, or empty. -/
structure Owned (box₀ : Nat → Kvmemcbox) (s : VmaSt) (mine : List Nat)
    (map : Nat → Option PageFrame) (asg : Nat → Option Nat) : Prop where
  page : ∀ p, p < 2 ^ 35 → ∀ f, map p = some f →
    ∃ b ∈ mine, asg p = some b ∧ f ∈ (s.box b).kmbMsalist
  frame : ∀ b ∈ mine, ∀ f ∈ (s.box b).kmbMsalist, ∃ p, p < 2 ^ 35 ∧ map p = some f ∧ asg p = some b
  inj : ∀ p q f, p < 2 ^ 35 → q < 2 ^ 35 → map p = some f → map q = some f → p = q
  msanr : ∀ b ∈ mine, (s.box b).kmbMsanr = (s.box b).kmbMsalist.length
  rest : ∀ b, b ∉ mine → s.box b = box₀ b ∨ (s.box b).kmbMsalist = [] ∧ (s.box b).kmbMsanr = 0

section Owned

variable {pml4 : Nat → Nat} {box₀ : Nat → Kvmemcbox} {s s' : VmaSt} {mine mine' : List Nat}
  {map : Nat → Option PageFrame} {asg asg' : Nat → Option Nat} {f : PageFrame} {b : Bool}
  {kmbox : Option Nat}

/-- Only mapped pages count. -/
theorem Owned.reassign (h : Owned box₀ s mine map asg)
    (hasg : ∀ p c, p < 2 ^ 35 → map p ≠ none → asg p = some c → asg' p = some c) :
    Owned box₀ s mine map asg' where
  page p hp f hf := by
    obtain ⟨c, hc, ha, hfc⟩ := h.page p hp f hf
    exact ⟨c, hc, hasg p c hp (by rw [hf]; simp) ha, hfc⟩
  frame c hc f hf := by
    obtain ⟨p, hp, hm, ha⟩ := h.frame c hc f hf
    exact ⟨p, hp, hm, hasg p c hp (by rw [hm]; simp) ha⟩
  inj := h.inj
  msanr := h.msanr
  rest := h.rest

/-- A box that no page is assigned to is empty. -/
theorem Owned.shrink (h : Owned box₀ s mine map asg) (hsub : ∀ c ∈ mine', c ∈ mine)
    (hgone : ∀ c ∈ mine, c ∉ mine' → ∀ p, asg p ≠ some c) : Owned box₀ s mine' map asg where
  page p hp f hf := by
    obtain ⟨c, hc, ha, hfc⟩ := h.page p hp f hf
    by_cases hc' : c ∈ mine'
    · exact ⟨c, hc', ha, hfc⟩
    · exact absurd ha (hgone c hc hc' p)
  frame c hc := h.frame c (hsub c hc)
  inj := h.inj
  msanr c hc := h.msanr c (hsub c hc)
  rest c hc := by
    by_cases hcm : c ∈ mine
    · right
      have hnil : (s.box c).kmbMsalist = [] := by
        apply List.eq_nil_iff_forall_not_mem.mpr
        intro f hf
        obtain ⟨p, -, -, ha⟩ := h.frame c hcm f hf
        exact hgone c hcm hc p ha
      exact ⟨hnil, by rw [h.msanr c hcm, hnil]; rfl⟩
    · exact h.rest c hcm

/-- A page of the box is unmapped, and its frame leaves the box: its address is that of the
entry, since it is below `2^40`. -/
theorem Owned.unbox (h : Owned box₀ s mine map asg) (hF : Frames pml4 s mine map) {p : Nat}
    (hp : p < 2 ^ 35) (hk : asg p = kmbox) (hlow : ∀ f, map p = some f → frameAddr f < 2 ^ 40)
    (hbox : s'.box = unbox s.box kmbox ((map p).elim 0 mmumsaRetPadr)) :
    Owned box₀ s' mine (Function.update map p none) asg := by
  cases hm : map p with
  | none =>
      have hsame : Function.update map p none = map := by
        rw [← hm]
        exact Function.update_eq_self p map
      have hbox : s'.box = s.box := by
        rw [hbox, hm]
        exact unbox_zero s.box kmbox
      rw [hsame]
      exact ⟨by rw [hbox]; exact h.page, by rw [hbox]; exact h.frame, h.inj,
        by rw [hbox]; exact h.msanr, by rw [hbox]; exact h.rest⟩
  | some f =>
      obtain ⟨c, hc, ha, hf⟩ := h.page p hp f hm
      rw [ha] at hk
      subst hk
      have hbox : s'.box = Function.update s.box c ((s.box c).delMsa f) := by
        rw [hbox, hm, Option.elim_some, (mmumsaRetPadr_eq_iff f).mpr (hlow f hm)]
        exact unbox_of_mem hf
      have hmem : ∀ d ∈ mine, ∀ g, g ∈ (s'.box d).kmbMsalist ↔
          g ≠ f ∧ g ∈ (s.box d).kmbMsalist := by
        intro d hd g
        rw [hbox]
        by_cases hdc : d = c
        · subst hdc
          rw [Function.update_self]
          exact (hF.once d hd).mem_erase_iff
        · rw [Function.update_of_ne hdc]
          constructor
          · intro hg
            refine ⟨?_, hg⟩
            rintro rfl
            exact hdc (hF.apart d hd c hc g hg hf)
          · exact And.right
      refine ⟨fun q hq g hg => ?_, fun d hd g hg => ?_, fun q r g hq hr hg hg' => ?_,
        fun d hd => ?_, fun d hd => ?_⟩
      · by_cases hqp : q = p
        · rw [hqp, Function.update_self] at hg
          cases hg
        · rw [Function.update_of_ne hqp] at hg
          obtain ⟨d, hd, had, hgd⟩ := h.page q hq g hg
          refine ⟨d, hd, had, (hmem d hd g).mpr ⟨?_, hgd⟩⟩
          rintro rfl
          exact hqp (h.inj q p g hq hp hg hm)
      · obtain ⟨hgf, hgd⟩ := (hmem d hd g).mp hg
        obtain ⟨q, hq, hgq, had⟩ := h.frame d hd g hgd
        refine ⟨q, hq, ?_, had⟩
        rw [Function.update_of_ne]
        · exact hgq
        · rintro rfl
          rw [hm] at hgq
          exact hgf (Option.some.inj hgq).symm
      · by_cases hqp : q = p
        · rw [hqp, Function.update_self] at hg
          cases hg
        · by_cases hrp : r = p
          · rw [hrp, Function.update_self] at hg'
            cases hg'
          · rw [Function.update_of_ne hqp] at hg
            rw [Function.update_of_ne hrp] at hg'
            exact h.inj q r g hq hr hg hg'
      · have hnr := h.msanr d hd
        rw [hbox]
        by_cases hdc : d = c
        · subst hdc
          rw [Function.update_self]
          show (s.box d).kmbMsanr - 1 = ((s.box d).kmbMsalist.erase f).length
          rw [hnr, List.length_erase_of_mem hf]
        · rw [Function.update_of_ne hdc]
          exact hnr
      · have hdc : d ≠ c := by
          rintro rfl
          exact hd hc
        rw [hbox, Function.update_of_ne hdc]
        exact h.rest d hd

/-- **The loop that unmaps** clears its pages, and takes their frames out of the box if these
are below `2^40`. -/
theorem Frames.unmapping (box₀ : Nat → Kvmemcbox) (h : Frames pml4 s mine map) {l : List Nat}
    (hl : ∀ v ∈ l, v < 2 ^ 47) (hc : ∀ c, kmbox = some c → c ∈ mine)
    (hrun : (vmaDelUnmappingPhyadrs kmbox l).run s = .ok (b, s')) :
    Frames pml4 s' mine (cleared map l) ∧ ∀ asg, Owned box₀ s mine map asg →
      (∀ v ∈ l, asg (pageNr v) = kmbox) →
      (∀ v ∈ l, ∀ f, map (pageNr v) = some f → frameAddr f < 2 ^ 40) →
        Owned box₀ s' mine (cleared map l) asg := by
  induction l generalizing s map b with
  | nil =>
      cases hrun
      rw [cleared_nil]
      exact ⟨h, fun asg ho _ _ => ho⟩
  | cons v l ih =>
      obtain ⟨phyadrs, hal, gone, s₁, b', hun, hgone, hrest⟩ := vmaDelUnmappingPhyadrs_cons hrun
      have hv := hl v List.mem_cons_self
      have hphy : phyadrs = (map (pageNr v)).elim 0 mmumsaRetPadr := by
        obtain ⟨others, hmmu, -⟩ := h.mmu
        exact (hmmu.untransform (userAdr_of_lt hv) hun).1
      subst hphy
      have hmap := h.remap fun others hmmu => (hmmu.untransform (userAdr_of_lt hv) hun).2
      obtain ⟨h₁, hbox⟩ := hmap.delPhyadrs hc hgone
      obtain ⟨h', ho'⟩ := ih h₁ (fun w hw => hl w (List.mem_cons_of_mem v hw)) hrest
      rw [cleared_cons] at h' ho'
      refine ⟨h', fun asg ho hk hlow => ho' asg ?_ (fun w hw => hk w (List.mem_cons_of_mem v hw))
        fun w hw f hf => ?_⟩
      · refine ho.unbox h ?_ (hk v List.mem_cons_self) (hlow v List.mem_cons_self) hbox
        rw [pageNr_eq hv]
        omega
      · exact hlow w (List.mem_cons_of_mem v hw) f (eq_some_of_update_none hf)

/-- A page without a frame gets one, which joins the box of the page. -/
theorem Owned.add (h : Owned box₀ s mine map asg) {c : Nat} (hc : c ∈ mine)
    (hfresh : ∀ d ∈ mine, f ∉ (s.box d).kmbMsalist) {p : Nat} (hp : p < 2 ^ 35)
    (hnone : map p = none) (ha : asg p = some c)
    (hbox : s'.box = Function.update s.box c ((s.box c).addMsa f)) :
    Owned box₀ s' mine (Function.update map p (some f)) asg := by
  have hmem : ∀ d g, g ∈ (s'.box d).kmbMsalist ↔ g = f ∧ d = c ∨ g ∈ (s.box d).kmbMsalist := by
    intro d g
    rw [hbox]
    by_cases hdc : d = c
    · subst hdc
      rw [Function.update_self, and_iff_left rfl]
      exact List.mem_cons
    · rw [Function.update_of_ne hdc]
      simp [hdc]
  -- no page is mapped to the new frame
  have hnew : ∀ q, q < 2 ^ 35 → map q ≠ some f := by
    intro q hq hm
    obtain ⟨d, hd, -, hfd⟩ := h.page q hq f hm
    exact hfresh d hd hfd
  have hof : ∀ q, q ≠ p → Function.update map p (some f) q = map q :=
    fun q hqp => Function.update_of_ne hqp _ _
  refine ⟨fun q hq g hg => ?_, fun d hd g hg => ?_, fun q r g hq hr hg hg' => ?_,
    fun d hd => ?_, fun d hd => ?_⟩
  · by_cases hqp : q = p
    · rw [hqp, Function.update_self] at hg
      cases hg
      exact ⟨c, hc, hqp ▸ ha, (hmem c f).mpr (Or.inl ⟨rfl, rfl⟩)⟩
    · rw [hof q hqp] at hg
      obtain ⟨d, hd, had, hgd⟩ := h.page q hq g hg
      exact ⟨d, hd, had, (hmem d g).mpr (Or.inr hgd)⟩
  · rcases (hmem d g).mp hg with ⟨rfl, rfl⟩ | hgd
    · exact ⟨p, hp, Function.update_self p (some g) map, ha⟩
    · obtain ⟨q, hq, hgq, had⟩ := h.frame d hd g hgd
      refine ⟨q, hq, ?_, had⟩
      rw [hof q]
      · exact hgq
      · rintro rfl
        rw [hnone] at hgq
        cases hgq
  · by_cases hqp : q = p
    · by_cases hrp : r = p
      · rw [hqp, hrp]
      · rw [hqp, Function.update_self] at hg
        rw [hof r hrp, ← hg] at hg'
        exact absurd hg' (hnew r hr)
    · by_cases hrp : r = p
      · rw [hrp, Function.update_self] at hg'
        rw [hof q hqp, ← hg'] at hg
        exact absurd hg (hnew q hq)
      · rw [hof q hqp] at hg
        rw [hof r hrp] at hg'
        exact h.inj q r g hq hr hg hg'
  · have hnr := h.msanr d hd
    rw [hbox]
    by_cases hdc : d = c
    · subst hdc
      rw [Function.update_self]
      show (s.box d).kmbMsanr + 1 = (f :: (s.box d).kmbMsalist).length
      rw [hnr, List.length_cons]
    · rw [Function.update_of_ne hdc]
      exact hnr
  · have hdc : d ≠ c := by
      rintro rfl
      exact hd hc
    rw [hbox, Function.update_of_ne hdc]
    exact h.rest d hd

/-- **`vma_map_msa_fault`**: the page tables and the boxes are as before, or a page is
mapped to a frame that joins the box. -/
theorem Frames.mapFault (h : Frames pml4 s mine map) {c v phyadrs : Nat} (hc : c ∈ mine)
    (hv : v < 2 ^ 47) (hm : MapFault s c v phyadrs s') :
    (phyadrs = 0 ∧ Frames pml4 s' mine map ∧ s'.box = s.box) ∨
      ∃ f, phyadrs = frameAddr f ∧ (∀ d ∈ mine, f ∉ (s.box d).kmbMsalist) ∧
      Frames pml4 s' mine (Function.update map (pageNr v) (some f)) ∧
      s'.box = Function.update s.box c ((s.box c).addMsa f) := by
  cases hm with
  | nopage pgs hout => exact Or.inl ⟨rfl, h.remap fun _ hmmu => hmmu.same hout, rfl⟩
  | mapped f pgs hnew hout hal htr =>
      obtain ⟨hfresh, htake⟩ := h.take (c := c) hnew hout
      exact Or.inr ⟨f, rfl, hfresh,
        htake.remap fun _ hmmu => hmmu.transform (userAdr_of_lt hv) (by decide) htr, rfl⟩
  | undone f pgs hnew hout hal htr b s' hdel =>
      left
      obtain ⟨hfresh, htake⟩ := h.take (c := c) hnew hout
      have hmap := htake.remap fun _ hmmu => hmmu.transform (userAdr_of_lt hv) (by decide) htr
      have hlist : (Function.update s.box c ((s.box c).addMsa f) c).kmbMsalist =
          f :: (s.box c).kmbMsalist := by
        rw [Function.update_self]
        rfl
      rcases vmaDelUsermsa_cases hdel with ⟨-, hno | hno⟩ | ⟨g, pgs', -, hadr, hgive, rfl⟩
      · exact absurd hno (frameAddr_ne_zero f)
      · exact absurd rfl (hno f (hlist ▸ List.mem_cons_self))
      · have hgf : g = f := frameAddr_inj hadr
        subst hgf
        refine ⟨rfl, hmap.give hc (hlist ▸ List.mem_cons_self) hgive, ?_⟩
        funext d
        show Function.update (Function.update s.box c _) c _ d = _
        by_cases hdc : d = c
        · subst hdc
          rw [Function.update_self]
          show (Function.update s.box d ((s.box d).addMsa g) d).delMsa g = _
          rw [Function.update_self]
          show (⟨(s.box d).kmbCont, (s.box d).kmbMsanr + 1 - 1,
            (g :: (s.box d).kmbMsalist).erase g⟩ : Kvmemcbox) = s.box d
          rw [Nat.add_sub_cancel, List.erase_cons_head]
        · rw [Function.update_of_ne hdc, Function.update_of_ne hdc]

end Owned

/-! ## What a free unmaps -/

/-- The same frames are mapped and in boxes; the box `kmbox` may have other users. -/
structure SameFrames (s s' : VmaSt) (kmbox : Option Nat) : Prop where
  hal : s'.hal = s.hal
  list : ∀ c, (s'.box c).kmbMsalist = (s.box c).kmbMsalist
  nr : ∀ c, (s'.box c).kmbMsanr = (s.box c).kmbMsanr
  box : ∀ c, kmbox ≠ some c → s'.box c = s.box c

section Freed

variable {pml4 : Nat → Nat} {box₀ : Nat → Kvmemcbox} {s s' : VmaSt} {mine : List Nat}
  {map : Nat → Option PageFrame} {asg : Nat → Option Nat} {kmbox : Option Nat}
  {start vassize : Nat} {b : Bool}

/-- The users of a box are written. -/
theorem sameFrames_users (hhal : s'.hal = s.hal) {c : Nat} (n : Int)
    (hbox : s'.box = Function.update s.box c { s.box c with kmbCont := n }) :
    SameFrames s s' (some c) := by
  refine ⟨hhal, fun d => ?_, fun d => ?_, fun d hd => ?_⟩
  · rw [hbox]
    by_cases hdc : d = c
    · subst hdc
      rw [Function.update_self]
    · rw [Function.update_of_ne hdc]
  · rw [hbox]
    by_cases hdc : d = c
    · subst hdc
      rw [Function.update_self]
    · rw [Function.update_of_ne hdc]
  · rw [hbox, Function.update_of_ne]
    rintro rfl
    exact hd rfl

theorem sameFrames_refl (hhal : s'.hal = s.hal) (hbox : s'.box = s.box) (kmbox : Option Nat) :
    SameFrames s s' kmbox :=
  ⟨hhal, fun _ => by rw [hbox], fun _ => by rw [hbox], fun _ _ => by rw [hbox]⟩

theorem knlPutKvmemcbox_same (h : (knlPutKvmemcbox kmbox).run s = .ok (b, s')) :
    SameFrames s s' kmbox := by
  cases kmbox with
  | none =>
      cases h
      exact sameFrames_refl rfl rfl none
  | some c =>
      have hp := knlPutKvmemcbox_putBox h
      exact sameFrames_users hp.hal _ hp.box

theorem Frames.same (h : Frames pml4 s mine map) (hs : SameFrames s s' kmbox) :
    Frames pml4 s' mine map :=
  h.mono hs.hal (fun _ hb => hb) fun c _ => hs.list c

theorem Owned.same (h : Owned box₀ s mine map asg) (hs : SameFrames s s' kmbox)
    (hk : ∀ c, kmbox = some c → c ∈ mine) : Owned box₀ s' mine map asg where
  page p hp f hf := by
    obtain ⟨c, hc, ha, hfc⟩ := h.page p hp f hf
    exact ⟨c, hc, ha, hs.list c ▸ hfc⟩
  frame c hc f hf := h.frame c hc f (hs.list c ▸ hf)
  inj := h.inj
  msanr c hc := by rw [hs.nr, hs.list, h.msanr c hc]
  rest c hc := by
    rw [hs.box c fun he => hc (hk c he)]
    exact h.rest c hc

/-- **A free** unmaps its range in the region that holds it, and apart from that only
writes users of the box. -/
theorem Freed.unmaps (h : Freed s start vassize true s') : ∃ r s₁ s₂ b₁,
    Holds s.vma start vassize r ∧ SameFrames s s₁ r.kvaKvmbox ∧
    (vmaDelUnmapping r start vassize).run s₁ = .ok (b₁, s₂) ∧ SameFrames s₂ s' r.kvaKvmbox := by
  cases h with
  | whole r hr hlo hhi s₁ s₂ b₁ b₂ hun hput =>
      have hp := knlPutKvmemcbox_same hput
      exact ⟨r, s, s₁, b₁, hr, sameFrames_refl (by rfl) (by rfl) _, hun, hp.hal, hp.list, hp.nr, hp.box⟩
  | front r hr hlo hhi s' b hun =>
      refine ⟨r, _, s', b, hr, ?_, hun, ?_⟩
      · exact sameFrames_refl (by rfl) (by rfl) _
      · exact sameFrames_refl (by rfl) (by rfl) _
  | back r hr hlo hhi s' b hun =>
      refine ⟨r, _, s', b, hr, ?_, hun, ?_⟩
      · exact sameFrames_refl (by rfl) (by rfl) _
      · exact sameFrames_refl (by rfl) (by rfl) _
  | split r hr hlo hhi a kms htake hnew hout s₁ b hun =>
      refine ⟨r, _, s₁, b, hr, ?_, hun, ?_⟩
      · cases r.kvaKvmbox with
        | none => exact sameFrames_refl (by rfl) (by rfl) none
        | some c => exact sameFrames_users (by rfl) _ (by rfl)
      · exact sameFrames_refl (by rfl) (by rfl) _

end Freed

/-! ## The calls -/

/-- A region as a range of addresses with its box. -/
def boxView : View Kmvarsdsc (Option Nat) where
  lo := Kmvarsdsc.kvaStart
  hi := Kmvarsdsc.kvaEnd
  val := Kmvarsdsc.kvaKvmbox

/-- The box of the region that a page begins in. -/
def boxOf (vma : Virmemadrs) (p : Nat) : Option Nat := (boxView.look vma.vsList (p * 0x1000)).join

/-- The objects, the regions and the pages of an address space. -/
structure PageInv (pml4 : Nat → Nat) (head0 base : List Nat) (s : VmaSt) (mine : List Nat)
    (map : Nat → Option PageFrame) : Prop where
  objs : Objs head0 base s mine
  order : InOrder s.vma
  frames : Frames pml4 s mine map

section Calls

variable {pml4 : Nat → Nat} {box₀ : Nat → Kvmemcbox} {head0 base : List Nat} {s s' : VmaSt}
  {vma : Virmemadrs} {mine : List Nat} {map : Nat → Option PageFrame} {start vassize p c : Nat}
  {r : Kmvarsdsc}

theorem boxView_overAdrs : OverAdrs boxView := ⟨rfl, rfl, fun _ _ _ _ => rfl⟩

theorem InOrder.boxAsc (h : InOrder vma) : boxView.Ascending vma.vsList :=
  ⟨h.asc.proper, h.asc.apart⟩

theorem exists_of_boxOf (h : boxOf vma p = some c) :
    ∃ r ∈ vma.vsList, (r.kvaStart ≤ p * 0x1000 ∧ p * 0x1000 < r.kvaEnd) ∧ r.kvaKvmbox = some c := by
  have hlook : boxView.look vma.vsList (p * 0x1000) = some (some c) := Option.join_eq_some_iff.mp h
  obtain ⟨r, hr, hx, hc⟩ := has_of_look hlook
  exact ⟨r, hr, hx, hc⟩

theorem boxOf_of_mem (hv : InOrder vma) (hr : r ∈ vma.vsList) (hlo : r.kvaStart ≤ p * 0x1000)
    (hhi : p * 0x1000 < r.kvaEnd) : boxOf vma p = r.kvaKvmbox := by
  unfold boxOf
  rw [look_of_mem hv.boxAsc hr (show boxView.Has r (p * 0x1000) from ⟨hlo, hhi⟩)]
  rfl

/-- **`vma_new_vadrs`** touches no page, and gives no mapped page another box. -/
theorem PageInv.alloced (box₀ : Nat → Kvmemcbox) (h : PageInv pml4 head0 base s mine map)
    {vaslimits vastype ret : Nat} {kms : Supply Nat}
    (ha : Alloced s.vma s.kms start vassize vaslimits vastype ret vma kms)
    (hnw : start + vassize < wordMod) :
    PageInv pml4 head0 base { s with vma := vma, kms := kms } mine map ∧
      (Owned box₀ s mine map (boxOf s.vma) →
        Owned box₀ { s with vma := vma, kms := kms } mine map (boxOf vma)) := by
  have hcov := ha.covers h.order h.objs.adr_nodup hnw
  have hframes : Frames pml4 { s with vma := vma, kms := kms } mine map :=
    h.frames.mono rfl (fun _ hb => hb) fun _ _ => rfl
  have hsame : SameFrames s { s with vma := vma, kms := kms } none :=
    sameFrames_refl (by rfl) (by rfl) none
  rcases hcov with ⟨-, rfl⟩ | ⟨-, -, hv, hfree, -⟩
  · exact ⟨⟨h.objs.alloced ha, h.order, hframes⟩,
      fun ho => ho.same hsame fun _ hc => by cases hc⟩
  · refine ⟨⟨h.objs.alloced ha, hv, hframes⟩, fun ho => ?_⟩
    refine (ho.same hsame fun _ hc => by cases hc).reassign fun p c _ _ hc => ?_
    unfold boxOf
    rw [ha.look_of_not rfl rfl (fun _ _ => rfl) h.order h.objs.adr_nodup hnw]
    · exact hc
    · -- the range was free
      rintro ⟨hlo, hhi⟩
      obtain ⟨r, hr, hx, -⟩ := exists_of_boxOf hc
      have hcov := look_of_mem h.order.asc hr (show regionView.Has r (p * 0x1000) from hx)
      have hnone := hfree (p * 0x1000) hlo hhi
      unfold covers at hnone
      rw [hnone] at hcov
      cases hcov

/-- The pages that a free walks are those of a user, and the box is one of the address
space. -/
theorem PageInv.unmaps (h : PageInv pml4 head0 base s mine map)
    (hf : Freed s start vassize true s') (hsz : vassize % 0x1000 = 0)
    (hnw : start + vassize < wordMod) : ∃ r s₁ s₂ b₁, Holds s.vma start vassize r ∧
    (∀ c, r.kvaKvmbox = some c → c ∈ mine) ∧
    (∀ v ∈ vmapAdrs start (start + vassize), v < 2 ^ 47) ∧ SameFrames s s₁ r.kvaKvmbox ∧
    (vmaDelUnmappingPhyadrs r.kvaKvmbox (vmapAdrs start (start + vassize))).run s₁ = .ok (b₁, s₂) ∧
    SameFrames s₂ s' r.kvaKvmbox := by
  obtain ⟨r, s₁, s₂, b₁, hr, hs₁, hun, hs₂⟩ := hf.unmaps
  unfold vmaDelUnmapping at hun
  rw [add64_eq hnw] at hun
  refine ⟨r, s₁, s₂, b₁, hr, fun c hc => ?_, fun v hv => ?_, hs₁, hun, hs₂⟩
  · exact (h.objs.users c).mp (hc ▸ List.mem_map_of_mem hr.mem)
  · have hlo := (mem_vmapAdrs hsz).mp hv
    have hhi := hr.hi
    have htop := h.order.top r hr.mem
    unfold userVirtualAddressEnd at htop
    rw [add64_eq hnw] at hhi
    omega

/-- The pages that a free has unmapped were in the range. -/
theorem LowRange.low (h : LowRange s start vassize) (hf : Freed s start vassize true s')
    (hnw : start + vassize < wordMod) : ∀ v ∈ vmapAdrs start (start + vassize),
    ∀ f, mmuLookup s.hal v = some f → frameAddr f < 2 ^ 40 := by
  have hlow := h.resolve_left hf.not_refused
  rwa [add64_eq hnw] at hlow

/-- **`vma_del_vadrs`** fails, or clears the pages of the loop.  The frames of these leave
their box if the free starts with a page, and they are below `2^40`. -/
theorem PageInv.freed (box₀ : Nat → Kvmemcbox) (h : PageInv pml4 head0 base s mine map) {b : Bool}
    (hf : Freed s start vassize b s') (hsz : vassize % 0x1000 = 0)
    (hnw : start + vassize < wordMod) : ∃ mine',
    PageInv pml4 head0 base s' mine'
      (if b then cleared map (vmapAdrs start (start + vassize)) else map) ∧
    (start % 0x1000 = 0 → LowRange s start vassize → Owned box₀ s mine map (boxOf s.vma) →
      Owned box₀ s' mine' (if b then cleared map (vmapAdrs start (start + vassize)) else map)
        (boxOf s'.vma)) := by
  obtain ⟨mine', hsub, hobjs⟩ := h.objs.freed hf
  have hgone : ∀ c ∈ mine, c ∉ mine' → ∀ p, boxOf s'.vma p ≠ some c := by
    intro c _ hc p hp
    obtain ⟨r, hr, -, hbox⟩ := exists_of_boxOf hp
    exact hc ((hobjs.users c).mp (hbox ▸ List.mem_map_of_mem hr))
  rcases hf.covers h.order h.objs.adr_nodup hnw with ⟨rfl, hvma⟩ | ⟨rfl, hv, -⟩
  · have hs : SameFrames s s' none := by
      cases hf
      exact sameFrames_refl (by rfl) (by rfl) none
    refine ⟨mine', ⟨hobjs, hvma ▸ h.order, (h.frames.same hs).mono rfl hsub fun _ _ => rfl⟩,
      fun _ _ ho => ?_⟩
    rw [hvma]
    exact (ho.same hs fun _ hc => by cases hc).shrink hsub (hvma ▸ hgone)
  · obtain ⟨r, s₁, s₂, b₁, hr, hk, hl, hs₁, hun, hs₂⟩ := h.unmaps hf hsz hnw
    have hlo := hr.lo
    have hhi := hr.hi
    have htop := h.order.top r hr.mem
    unfold userVirtualAddressEnd at htop
    rw [add64_eq hnw] at hhi
    obtain ⟨h₂, hown⟩ := (h.frames.same hs₁).unmapping box₀ hl hk hun
    refine ⟨mine', ⟨hobjs, hv, (h₂.same hs₂).mono rfl hsub fun _ _ => rfl⟩,
      fun hmod hlow ho => ?_⟩
    have ho₂ := hown (boxOf s.vma) (ho.same hs₁ hk) (fun v hvm => ?_) fun v hvm g hg =>
      hlow.low hf hnw v hvm g (by rw [h.frames.lookup (hl v hvm), hg])
    · refine Owned.shrink ((ho₂.same hs₂ hk).reassign fun p c hp hm hc => ?_) hsub hgone
      unfold boxOf
      rw [hf.look boxView_overAdrs h.order h.objs.adr_nodup hnw, paint, if_neg]
      · exact hc
      · -- the pages of the range are not mapped any more
        rintro ⟨hlo, hhi⟩
        refine hm (if_pos ⟨p * 0x1000, (mem_vmapAdrs hsz).mpr ⟨hlo, hhi, by omega⟩, ?_⟩)
        rw [pageNr_eq (by omega)]
        omega
    · have hvl := hl v hvm
      have hvr := (mem_vmapAdrs hsz).mp hvm
      have hpage : pageNr v * 0x1000 = v := by
        rw [pageNr_eq hvl]
        omega
      exact boxOf_of_mem h.order hr.mem (by omega) (by omega)

/-- A region that gets its box keeps its bounds, and no other region changes. -/
theorem RegionBox.boxOf {kmbox : Nat} (h : RegionBox s r kmbox s') (hv' : InOrder s'.vma)
    (hnd : (s.vma.vsList.map Kmvarsdsc.adr).Nodup)
    (hr : r ∈ s.vma.vsList) :
    (∀ p c, boxOf s.vma p = some c → boxOf s'.vma p = some c) ∧
      { r with kvaKvmbox := some kmbox } ∈ s'.vma.vsList := by
  cases h with
  | there hbox =>
      refine ⟨fun _ _ hc => hc, ?_⟩
      rw [← hbox]
      exact hr
  | got hbox s₁ hgot =>
      have hvma : s₁.vma = s.vma := by cases hgot <;> rfl
      have hold := Chain.del_perm hnd hr
      have hnew := Chain.upd_perm (fun r => { r with kvaKvmbox := some kmbox }) hnd hr
      simp only [hvma] at hv' ⊢
      constructor
      · intro p c hc
        obtain ⟨a, ha, ⟨hlo, hhi⟩, hac⟩ := exists_of_boxOf hc
        rcases List.mem_cons.mp (hold.mem_iff.mp ha) with rfl | hdel
        · rw [hbox] at hac
          cases hac
        · rw [← hac]
          exact boxOf_of_mem hv' (hnew.mem_iff.mpr (List.mem_cons_of_mem _ hdel)) hlo hhi
      · exact hnew.mem_iff.mpr List.mem_cons_self

/-- A box without frames comes into use. -/
theorem Frames.useBox (h : Frames pml4 s mine map) (hhal : s'.hal = s.hal) {kmb : Nat}
    (hnew : kmb ∉ mine) (hbox : ∀ c ∈ mine, (s'.box c).kmbMsalist = (s.box c).kmbMsalist)
    (hnil : (s'.box kmb).kmbMsalist = []) : Frames pml4 s' (kmb :: mine) map := by
  have hmine : ∀ c f, c ∈ kmb :: mine → f ∈ (s'.box c).kmbMsalist →
      c ∈ mine ∧ f ∈ (s.box c).kmbMsalist := by
    intro c f hc hf
    rcases List.mem_cons.mp hc with rfl | hc
    · rw [hnil] at hf
      cases hf
    · exact ⟨hc, hbox c hc ▸ hf⟩
  obtain ⟨others, hmmu, hheld⟩ := h.mmu
  refine ⟨⟨others, hhal ▸ hmmu, fun c hc f hf => ?_⟩, fun c hc => ?_, fun c hc d hd f hf hf' => ?_⟩
  · obtain ⟨hc, hf⟩ := hmine c f hc hf
    exact hheld c hc f hf
  · rcases List.mem_cons.mp hc with rfl | hc
    · rw [hnil]
      exact List.nodup_nil
    · rw [hbox c hc]
      exact h.once c hc
  · obtain ⟨hc, hf⟩ := hmine c f hc hf
    obtain ⟨hd, hf'⟩ := hmine d f hd hf'
    exact h.apart c hc d hd f hf hf'

theorem Owned.useBox {asg : Nat → Option Nat} (h : Owned box₀ s mine map asg) {kmb : Nat}
    (hnew : kmb ∉ mine) {n : Int}
    (hbox : s'.box = Function.update s.box kmb { kvmemcboxInit with kmbCont := n }) :
    Owned box₀ s' (kmb :: mine) map asg := by
  have hof : ∀ c, c ≠ kmb → s'.box c = s.box c := fun c hc => by
    rw [hbox, Function.update_of_ne hc]
  have hin : ∀ c, c ∈ mine → c ≠ kmb := fun c hc he => hnew (he ▸ hc)
  have hself : s'.box kmb = { kvmemcboxInit with kmbCont := n } := by
    rw [hbox, Function.update_self]
  refine ⟨fun p hp f hf => ?_, fun c hc f hf => ?_, h.inj, fun c hc => ?_, fun c hc => ?_⟩
  · obtain ⟨c, hc, ha, hfc⟩ := h.page p hp f hf
    exact ⟨c, List.mem_cons_of_mem kmb hc, ha, (hof c (hin c hc)).symm ▸ hfc⟩
  · rcases List.mem_cons.mp hc with rfl | hc
    · rw [hself] at hf
      cases hf
    · exact h.frame c hc f (hof c (hin c hc) ▸ hf)
  · rcases List.mem_cons.mp hc with rfl | hc
    · rw [hself]
      rfl
    · rw [hof c (hin c hc)]
      exact h.msanr c hc
  · rw [hof c fun he => hc (he ▸ List.mem_cons_self)]
    exact h.rest c fun hcm => hc (List.mem_cons_of_mem kmb hcm)

theorem PageInv.regionBox (box₀ : Nat → Kvmemcbox) (h : PageInv pml4 head0 base s mine map)
    (hr : r ∈ s.vma.vsList) {kmbox : Nat} (hb : RegionBox s r kmbox s') :
    ∃ mine', (∀ c, c ∈ mine' ↔ c = kmbox ∨ c ∈ mine) ∧
      Objs head0 base s' mine' ∧ Frames pml4 s' mine' map ∧
      ∀ asg, Owned box₀ s mine map asg → Owned box₀ s' mine' map asg := by
  cases hb with
  | there hbox =>
      have hk : kmbox ∈ mine := (h.objs.users kmbox).mp (hbox ▸ List.mem_map_of_mem hr)
      refine ⟨mine, fun c => ⟨Or.inr, ?_⟩, h.objs, h.frames, fun _ ho => ho⟩
      rintro (rfl | hc)
      · exact hk
      · exact hc
  | got hbox s₁ hgot =>
      obtain ⟨hnew, hobjs⟩ := h.objs.getBox hr hbox hgot
      have hhal : s₁.hal = s.hal := by cases hgot <;> rfl
      have hbx : s₁.box = Function.update s.box kmbox { kvmemcboxInit with kmbCont := 1 } := by
        cases hgot <;> rfl
      refine ⟨kmbox :: mine, fun _ => List.mem_cons, hobjs, ?_, fun asg ho => ?_⟩
      · refine h.frames.useBox (by exact hhal) hnew (fun c hc => ?_) ?_
        · show (s₁.box c).kmbMsalist = _
          rw [hbx, Function.update_of_ne]
          rintro rfl
          exact hnew hc
        · show (s₁.box kmbox).kmbMsalist = []
          rw [hbx, Function.update_self]
          rfl
      · exact ho.useBox hnew (by exact hbx)

/-- Every region begins with a page, and ends with one or at the end of the addresses
of a user. -/
def PageBounds (vma : Virmemadrs) : Prop :=
  ∀ r ∈ vma.vsList, r.kvaStart % 0x1000 = 0 ∧
    (r.kvaEnd % 0x1000 = 0 ∨ r.kvaEnd = userVirtualAddressEnd)

/-- **`vma_map_fairvadrs`** maps at most one page; if it is served and the page was not mapped
before, the frame joins the box of its region. -/
theorem PageInv.faired (box₀ : Nat → Kvmemcbox) (h : PageInv pml4 head0 base s mine map)
    {vadrs : Nat} {ret : FairRet} (hf : Faired s vadrs ret s') :
    ∃ mine' map', PageInv pml4 head0 base s' mine' map' ∧
      (PageBounds s.vma → (ret = .eok → mmuLookup s.hal vadrs = none) →
        Owned box₀ s mine map (boxOf s.vma) →
        Owned box₀ s' mine' map' (boxOf s'.vma)) := by
  have hv := hf.inOrder h.order
  cases hf with
  | refused ret hret => exact ⟨mine, map, h, fun _ _ ho => ho⟩
  | served r hr hlo hhi hmin hmax kmbox s₁ hbox phyadrs s₂ hmap filled =>
      obtain ⟨mine', hmem, hobjs, hframes, hown⟩ := h.regionBox box₀ hr hbox
      have hk : kmbox ∈ mine' := (hmem kmbox).mpr (Or.inl rfl)
      have hvma : s₂.vma = s₁.vma := hmap.pagesOnly.vma
      change InOrder s₂.vma at hv
      rw [hvma] at hv
      have hpages : PagesOnly s₂ { s₂ with filled := filled } := ⟨rfl, rfl, rfl, fun _ => rfl⟩
      have hobjs' := hobjs.pagesOnly (hmap.pagesOnly.trans hpages)
      obtain ⟨hkeep, hrk⟩ := hbox.boxOf hv h.objs.adr_nodup hr
      have hasg : Owned box₀ s mine map (boxOf s.vma) → Owned box₀ s₁ mine' map (boxOf s₁.vma) :=
        fun ho => (hown _ ho).reassign fun p c _ _ hc => hkeep p c hc
      unfold userVirtualAddressEnd at hmax
      rcases hframes.mapFault hk (show vadrs < 2 ^ 47 by omega) hmap with
        ⟨-, h', hbx⟩ | ⟨f, rfl, hfresh, h', hbx⟩
      · have hs : SameFrames s₂ { s₂ with filled := filled } none :=
          sameFrames_refl (by rfl) (by rfl) none
        refine ⟨mine', map, ⟨hobjs', hvma ▸ hv, h'.same hs⟩, fun _ _ ho => ?_⟩
        show Owned box₀ _ mine' map (boxOf s₂.vma)
        rw [hvma]
        have ho₁ := hasg ho
        exact ⟨hbx ▸ ho₁.page, hbx ▸ ho₁.frame, ho₁.inj, hbx ▸ ho₁.msanr, hbx ▸ ho₁.rest⟩
      · have hs : SameFrames s₂ { s₂ with filled := filled } none :=
          sameFrames_refl (by rfl) (by rfl) none
        refine ⟨mine', _, ⟨hobjs', hvma ▸ hv, h'.same hs⟩, fun hal hnone ho => ?_⟩
        show Owned box₀ _ mine' _ (boxOf s₂.vma)
        rw [hvma]
        have hpage : pageNr vadrs = vadrs / 0x1000 := pageNr_eq (by omega)
        have hmod := (hal r hr).1
        have hnone := hnone (if_neg (frameAddr_ne_zero f))
        rw [h.frames.lookup (by omega)] at hnone
        refine (hasg ho).add hk hfresh (by rw [hpage]; omega) hnone ?_ hbx
        refine boxOf_of_mem hv hrk ?_ ?_
        · show r.kvaStart ≤ _
          rw [hpage]
          omega
        · show _ < r.kvaEnd
          rw [hpage]
          omega

end Calls

end Cosmos.Kernel
