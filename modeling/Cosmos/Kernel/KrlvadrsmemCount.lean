import Cosmos.Kernel.KrlvadrsmemList

/-!
# The counter of the regions

`kvma_inituserspace_virmemadrs` adds its three regions to `vs_kmvdscnr`, a free that splits a
region adds one, and a free of a whole region takes one off.  `vma_new_vadrs_core` links a new
region in and leaves the counter as it is.

## Main results

* `counted_iff` and `not_counted` : the counter is that of the regions until a call of
  `vma_new_vadrs` links a region in, and a call that does.
-/

namespace Cosmos.Kernel

open Cosmos.Lib Cosmos.Lib.Run Cosmos.Lib.Word64 Cosmos.Hal

/-- `vs_kmvdscnr` is the number of regions. -/
def Counted (s : VmaSt) : Prop := s.vma.vsKmvdscnr = s.vma.vsList.length

/-- The arguments are accepted, the range fits after a region that it cannot extend, and
there is a descriptor for it. -/
def LinksRegion (s : VmaSt) : VmaOp → Prop
  | .new start vassize vaslimits vastype =>
      ¬ vassize < 1 ∧
      ¬ (start ≠ 0 ∧ (start % 0x1000 ≠ 0 ∨ start < 0x1000 ∨
        userVirtualAddressEnd < add64 start vassize)) ∧
      (∃ r ∈ vmaFindKmvarsdsc s.vma start (vadszAlign vassize) vaslimits vastype,
        ¬ ((start = 0 ∨ start = r.kvaEnd) ∧ r.isLike vaslimits vastype)) ∧
      s.kms.take.1 ≠ none
  | _ => False

instance (s : VmaSt) (op : VmaOp) : Decidable (LinksRegion s op) :=
  match op with
  | .new start vassize vaslimits vastype => inferInstanceAs (Decidable (¬ vassize < 1 ∧
      ¬ (start ≠ 0 ∧ (start % 0x1000 ≠ 0 ∨ start < 0x1000 ∨
        userVirtualAddressEnd < add64 start vassize)) ∧
      (∃ r ∈ vmaFindKmvarsdsc s.vma start (vadszAlign vassize) vaslimits vastype,
        ¬ ((start = 0 ∨ start = r.kvaEnd) ∧ r.isLike vaslimits vastype)) ∧
      s.kms.take.1 ≠ none))
  | .del _ _ => inferInstanceAs (Decidable False)
  | .fair _ => inferInstanceAs (Decidable False)

section Count

variable {s s' : VmaSt} {start vassize vaslimits vastype vadrs : Nat} {b : Bool} {ret : FairRet}

/-- A range is allocated without a new region, or a region is linked in. -/
theorem vmaNewVadrs_counts (start vassize vaslimits vastype : Nat)
    (hnd : (s.vma.vsList.map Kmvarsdsc.adr).Nodup) :
    (vmaNewVadrs s.vma s.kms start vassize vaslimits vastype).2.1.vsKmvdscnr = s.vma.vsKmvdscnr ∧
      ((LinksRegion s (.new start vassize vaslimits vastype) ∧
        (vmaNewVadrs s.vma s.kms start vassize vaslimits vastype).2.1.vsList.length =
          s.vma.vsList.length + 1) ∨
      (¬ LinksRegion s (.new start vassize vaslimits vastype) ∧
        (vmaNewVadrs s.vma s.kms start vassize vaslimits vastype).2.1.vsList.length =
          s.vma.vsList.length)) := by
  unfold vmaNewVadrs LinksRegion
  by_cases hsz : vassize < 1
  · rw [if_pos hsz]
    exact ⟨rfl, Or.inr ⟨fun hl => hl.1 hsz, rfl⟩⟩
  rw [if_neg hsz]
  by_cases hbad : start ≠ 0 ∧ (start % 0x1000 ≠ 0 ∨ start < 0x1000 ∨
      userVirtualAddressEnd < add64 start vassize)
  · rw [if_pos hbad]
    exact ⟨rfl, Or.inr ⟨fun hl => hl.2.1 hbad, rfl⟩⟩
  rw [if_neg hbad]
  unfold vmaNewVadrsCore
  cases hfind : vmaFindKmvarsdsc s.vma start (vadszAlign vassize) vaslimits vastype with
  | none =>
      refine ⟨rfl, Or.inr ⟨?_, rfl⟩⟩
      rintro ⟨-, -, ⟨r, hr, -⟩, -⟩
      rw [hfind] at hr
      cases hr
  | some r =>
      by_cases hlike : (start = 0 ∨ start = r.kvaEnd) ∧ r.isLike vaslimits vastype
      · simp only [if_pos hlike]
        refine ⟨rfl, Or.inr ⟨?_, ?_⟩⟩
        · rintro ⟨-, -, ⟨r', hr', hno⟩, -⟩
          rw [hfind] at hr'
          cases hr'
          exact hno hlike
        · have hmap := congrArg List.length (map_write (g := Kmvarsdsc.adr) s.vma r
            (fun r => { r with kvaEnd := add64 r.kvaEnd (vadszAlign vassize) }) fun _ => rfl)
          rw [List.length_map, List.length_map] at hmap
          exact hmap
      · simp only [if_neg hlike]
        rcases htake : s.kms.take with ⟨o, kms'⟩
        cases o with
        | none =>
            exact ⟨rfl, Or.inr ⟨fun hl => hl.2.2.2 rfl, rfl⟩⟩
        | some a =>
            refine ⟨rfl, Or.inl ⟨⟨hsz, hbad, ⟨r, hfind, hlike⟩, ?_⟩, ?_⟩⟩
            · exact Option.some_ne_none a
            · have hadd := fun x => (Chain.add_perm (x := x) hnd
                (vmaFindKmvarsdsc_fits hfind).mem).length_eq
              exact (hadd _).trans (List.length_cons ..)

/-- A free takes a region away, changes one, or makes two of one, and counts. -/
theorem Freed.counts (h : Freed s start vassize b s')
    (hnd : (s.vma.vsList.map Kmvarsdsc.adr).Nodup) :
    (s'.vma.vsList.length = s.vma.vsList.length ∧ s'.vma.vsKmvdscnr = s.vma.vsKmvdscnr) ∨
    (s'.vma.vsList.length + 1 = s.vma.vsList.length ∧
      s'.vma.vsKmvdscnr = sub64 s.vma.vsKmvdscnr 1) ∨
    (s'.vma.vsList.length = s.vma.vsList.length + 1 ∧
      s'.vma.vsKmvdscnr = add64 s.vma.vsKmvdscnr 1) := by
  have hwrite : ∀ (vma : Virmemadrs) (r : Kmvarsdsc) (f : Kmvarsdsc → Kmvarsdsc),
      (∀ a, (f a).adr = a.adr) → (vma.write r f).vsList.length = vma.vsList.length := by
    intro vma r f hf
    have hmap := congrArg List.length (map_write (g := Kmvarsdsc.adr) vma r f hf)
    rwa [List.length_map, List.length_map] at hmap
  cases h with
  | refused kms hout hwhy => exact Or.inl ⟨rfl, rfl⟩
  | whole r hr hlo hhi s₁ s₂ b₁ b₂ hun hput =>
      have hvma := (vmaDelUnmapping_pagesOnly hun).vma
      have hput := knlPutKvmemcbox_vma hput
      refine Or.inr (Or.inl ⟨?_, ?_⟩)
      · show (Chain.del Kmvarsdsc.adr r.adr s₂.vma.vsList).length + 1 = _
        rw [hput]
        show (Chain.del Kmvarsdsc.adr r.adr (vmaDelSetEndcurrkmvd s₁.vma r).vsList).length + 1 = _
        rw [vmaDelSetEndcurrkmvd_vsList, hvma]
        exact ((Chain.del_perm hnd hr.mem).length_eq.trans (List.length_cons ..)).symm
      · show sub64 s₂.vma.vsKmvdscnr 1 = _
        rw [hput]
        show sub64 (vmaDelSetEndcurrkmvd s₁.vma r).vsKmvdscnr 1 = _
        unfold vmaDelSetEndcurrkmvd
        rw [hvma]
        cases s.vma.nextEntry r <;> rfl
  | front r hr hlo hhi s' b hun =>
      rw [(vmaDelUnmapping_pagesOnly hun).vma]
      exact Or.inl ⟨hwrite _ _ _ fun _ => rfl, rfl⟩
  | back r hr hlo hhi s' b hun =>
      rw [(vmaDelUnmapping_pagesOnly hun).vma]
      exact Or.inl ⟨hwrite _ _ _ fun _ => rfl, rfl⟩
  | split r hr hlo hhi a kms htake hnew hout s₁ b hun =>
      have hvma : s₁.vma = s.vma.write r fun r => { r with kvaEnd := start } := by
        rw [(vmaDelUnmapping_pagesOnly hun).vma]
        cases r.kvaKvmbox <;> rfl
      have hmem : { r with kvaEnd := start } ∈
          (s.vma.write r fun r => { r with kvaEnd := start }).vsList :=
        (Chain.upd_perm _ hnd hr.mem).mem_iff.mpr List.mem_cons_self
      have hnd' : ((s.vma.write r fun r => { r with kvaEnd := start }).vsList.map
          Kmvarsdsc.adr).Nodup := by
        rw [map_write (g := Kmvarsdsc.adr) s.vma r (fun r => { r with kvaEnd := start }) fun _ => rfl]
        exact hnd
      refine Or.inr (Or.inr ⟨?_, ?_⟩)
      · show (s₁.vma.link r _).vsList.length = _
        rw [hvma, ← hwrite s.vma r (fun r => { r with kvaEnd := start }) fun _ => rfl]
        exact (Chain.add_perm (r := { r with kvaEnd := start }) hnd' hmem).length_eq.trans
          (List.length_cons ..)
      · show add64 s₁.vma.vsKmvdscnr 1 = _
        rw [hvma]
        rfl

theorem Faired.counts (h : Faired s vadrs ret s') :
    s'.vma.vsList.length = s.vma.vsList.length ∧ s'.vma.vsKmvdscnr = s.vma.vsKmvdscnr := by
  have hlen := congrArg List.length h.regions.2
  rw [List.length_map, List.length_map] at hlen
  refine ⟨hlen, ?_⟩
  cases h with
  | refused ret hret => rfl
  | served r hr hlo hhi hmin hmax kmbox s₁ hbox phyadrs s₂ hmap filled =>
      show s₂.vma.vsKmvdscnr = _
      rw [hmap.pagesOnly.vma]
      rcases hbox.vma_eq with h₁ | h₁
      · rw [h₁]
      · rw [h₁]
        rfl

/-- Each region takes a byte at least. -/
theorem ascending_length {l : List Kmvarsdsc} (h : regionView.Ascending l) {lo top : Nat}
    (hlo : ∀ r ∈ l, lo ≤ r.kvaStart) (htop : ∀ r ∈ l, r.kvaEnd ≤ top) (hle : lo ≤ top) :
    lo + l.length ≤ top := by
  induction l generalizing lo with
  | nil => exact hle
  | cons r l ih =>
      have hproper : r.kvaStart < r.kvaEnd := h.proper r List.mem_cons_self
      have hrlo := hlo r List.mem_cons_self
      obtain ⟨hbehind, hapart⟩ := List.pairwise_cons.mp h.apart
      have htail : r.kvaEnd + l.length ≤ top :=
        ih ⟨fun a ha => h.proper a (List.mem_cons_of_mem r ha), hapart⟩ hbehind
          (fun a ha => htop a (List.mem_cons_of_mem r ha)) (htop r List.mem_cons_self)
      rw [List.length_cons]
      omega

theorem InOrder.length_lt {vma : Virmemadrs} (h : InOrder vma) : vma.vsList.length + 1 < wordMod := by
  have hlen := ascending_length h.asc (fun _ _ => Nat.zero_le _) h.top (Nat.zero_le _)
  unfold userVirtualAddressEnd at hlen
  have hword : wordMod = 0x10000000000000000 := rfl
  omega

/-- **Each call** keeps the counter right, unless it links a region in. -/
theorem vmaStep_counted {head0 base : List Nat} (s : VmaSt) (op : VmaOp) (s' : VmaSt)
    (h : VmaInv head0 base s) (hc : Counted s) (hstep : vmaStep s op = .ok s') :
    Counted s' ↔ ¬ LinksRegion s op := by
  have hlt := h.order.length_lt
  unfold Counted at hc ⊢
  cases op with
  | new start vassize vaslimits vastype =>
      cases hstep
      obtain ⟨hnr, ⟨hlinks, hlen⟩ | ⟨hno, hlen⟩⟩ :=
        vmaNewVadrs_counts start vassize vaslimits vastype h.adr_nodup
      · refine iff_of_false (fun hc' => ?_) (not_not.mpr hlinks)
        rw [hnr, hlen] at hc'
        omega
      · refine iff_of_true ?_ hno
        rw [hnr, hlen]
        exact hc
  | del start vassize =>
      obtain ⟨b, hf⟩ := vmaStep_move hstep
      refine iff_of_true ?_ id
      rcases hf.counts h.adr_nodup with ⟨hlen, hnr⟩ | ⟨hlen, hnr⟩ | ⟨hlen, hnr⟩
      · omega
      · rw [sub64_eq (by omega) (by omega)] at hnr
        omega
      · rw [add64_eq (by omega)] at hnr
        omega
  | fair vadrs =>
      obtain ⟨ret, hf⟩ := vmaStep_move hstep
      obtain ⟨hlen, hnr⟩ := hf.counts
      exact iff_of_true (by omega) id

end Count

/-! ## Runs -/

section Runs

variable {pml4 : Nat → Nat} {k s₀ s : VmaSt} {mm : Nat}

/-- **The counter is that of the regions in every state of a run exactly when** no call of it
links a region in. -/
theorem counted_iff (h : Made pml4 k mm s₀) (hk : BoxesLive k) (ops : List VmaOp)
    (hops : ∀ op ∈ ops, op.NoWrap) (hrun : run vmaStep ops s₀ = .ok s) :
    AllSteps vmaStep (fun s _ => Counted s) ops s₀ ∧ Counted s ↔
      AllSteps vmaStep (fun s op => ¬ LinksRegion s op) ops s₀ := by
  obtain ⟨base, hinv⟩ := h.inv hk
  refine allSteps_iff Counted (VmaInv k.mgr.kbmKmbhead base) (fun s op => ¬ LinksRegion s op)
    (fun _ op => op.NoWrap) vmaStep_inv (fun s op s' hj hc _ hstep => vmaStep_counted s op s' hj hc hstep)
    ops s₀ s hinv ?_ (allSteps_of_forall ops s₀ hops) hrun
  obtain ⟨x, y, z, hal, kms, rfl, -⟩ := h.start
  show 0 + 3 = (virmemadrsInit.initUser x y z).vsList.length
  rw [initUser_vsList]
  rfl

/-- The heap grows, its first page goes, and then a page in the middle. -/
def heapCuts : List VmaOp :=
  [.new 0 0x4000 0 8, .del 0x100000000 0x1000, .del 0x100002000 0x1000]

theorem counted_iff_heapCuts : ∃ s : VmaSt, s.vma.vsKmvdscnr = 4 ∧ Counted s := by
  obtain ⟨s₀, hmade, hq⟩ := exists_made (q := fun s =>
    checkSteps vmaStep (fun s op => decide (¬ LinksRegion s op)) heapCuts s &&
      okAnd (run vmaStep heapCuts s) fun t => t.vma.vsKmvdscnr = 4) (by decide +kernel)
  rw [Bool.and_eq_true] at hq
  obtain ⟨s, hrun, hs⟩ := exists_of_okAnd hq.2
  have hcounted := (counted_iff hmade freshVma_boxesLive heapCuts (by decide) hrun).mpr
    (allSteps_of_check (fun _ _ hp => of_decide_eq_true hp) heapCuts s₀ hq.1)
  exact ⟨s, of_decide_eq_true hs, hcounted.2⟩

/-- A region that is linked in is not counted. -/
theorem not_counted : ¬ ∀ (k s₀ s : VmaSt) (mm : Nat) (ops : List VmaOp),
    Made (copyPagesData 0) k mm s₀ → BoxesLive k → (∀ op ∈ ops, op.NoWrap) →
      run vmaStep ops s₀ = .ok s → Counted s := by
  intro hall
  obtain ⟨s₀, hmade, hq⟩ := exists_made (q := fun s =>
    okAnd (run vmaStep [.new 0x200000 0x1000 0 1] s) fun t =>
      t.vma.vsKmvdscnr = 3 && t.vma.vsList.length = 4) (by decide +kernel)
  obtain ⟨s, hrun, hs⟩ := exists_of_okAnd hq
  rw [Bool.and_eq_true, decide_eq_true_eq, decide_eq_true_eq] at hs
  have hc := hall freshVma s₀ s _ _ hmade freshVma_boxesLive (by decide) hrun
  unfold Counted at hc
  omega

end Runs

end Cosmos.Kernel
