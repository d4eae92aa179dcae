import Cosmos.Kernel.KrlvadrsmemList

/-!
# What the search for a range finds

`vma_find_kmvarsdsc` looks for a range behind a region, never before the first one.  A range
behind a region is found wherever it is, by one of its passes.  The region that
`kvma_inituserspace_virmemadrs` puts at 0x1000 stands before all the others, until a free
takes it away; what is before the first region then is free, and is never given out again.

## Main results

* `search_complete` and `search_not_complete` : the requests that succeed, and one for a free
  range that does not.
-/

namespace Cosmos.Kernel

open Cosmos.Lib Cosmos.Lib.Ranges Cosmos.Lib.Run Cosmos.Lib.Word64 Cosmos.Hal

/-- A size rounded up to pages, without wrap-around. -/
def pageCeil (vassize : Nat) : Nat := (vassize + 0xfff) / 0x1000 * 0x1000

/-- No region has a part of the range. -/
def FreeRange (vma : Virmemadrs) (lo vassize : Nat) : Prop :=
  ∀ x, lo ≤ x → x < lo + vassize → covers vma x = none

section Search

variable {vma : Virmemadrs} {kms : Supply Nat} {lo start vassize vaslimits vastype : Nat}
  {r : Kmvarsdsc} {s : VmaSt}

theorem vadszAlign_eq (h : pageCeil vassize < wordMod) : vadszAlign vassize = pageCeil vassize := by
  have hword : wordMod = 0x10000000000000000 := rfl
  unfold pageCeil at h ⊢
  unfold vadszAlign
  rw [add64_eq (by omega)]

/-- The last element with the property. -/
theorem exists_last {α : Type} {p : α → Prop} {l : List α} (h : ∃ a ∈ l, p a) :
    ∃ l₁ a l₂, l = l₁ ++ a :: l₂ ∧ p a ∧ ∀ b ∈ l₂, ¬ p b := by
  induction l with
  | nil =>
      obtain ⟨a, ha, -⟩ := h
      cases ha
  | cons b l ih =>
      by_cases htail : ∃ a ∈ l, p a
      · obtain ⟨l₁, a, l₂, rfl, hp, hno⟩ := ih htail
        exact ⟨b :: l₁, a, l₂, rfl, hp, hno⟩
      · obtain ⟨a, ha, hp⟩ := h
        rcases List.mem_cons.mp ha with rfl | ha
        · exact ⟨[], a, l, rfl, hp, fun c hc hpc => htail ⟨c, hc, hpc⟩⟩
        · exact absurd ⟨a, ha, hp⟩ htail

/-- **A free range behind a region** is behind the last of those before it, and the next one
does not begin before it ends. -/
theorem InOrder.before_free (hv : InOrder vma) (hnd : (vma.vsList.map Kmvarsdsc.adr).Nodup)
    (hfree : FreeRange vma lo vassize) (hsz : 0 < vassize) (hr : ∃ r ∈ vma.vsList, r.kvaEnd ≤ lo) :
    ∃ r ∈ vma.vsList, r.kvaEnd ≤ lo ∧ ∀ c, vma.nextEntry r = some c → lo + vassize ≤ c.kvaStart := by
  obtain ⟨l₁, r, l₂, hl, hrlo, hlast⟩ := exists_last hr
  have hmem : r ∈ vma.vsList := hl ▸ List.mem_append_right _ List.mem_cons_self
  have hkey : ∀ a ∈ l₁, a.adr ≠ r.adr := by
    intro a ha he
    rw [hl, List.map_append, List.nodup_append] at hnd
    exact hnd.2.2 _ (List.mem_map_of_mem ha) _ (List.mem_map_of_mem List.mem_cons_self) he
  refine ⟨r, hmem, hrlo, fun c hc => ?_⟩
  unfold Virmemadrs.nextEntry at hc
  rw [hl, Chain.next_cut hkey] at hc
  have hc₂ : c ∈ l₂ := List.mem_of_mem_head? hc
  have hcm : c ∈ vma.vsList := hl ▸ List.mem_append_right _ (List.mem_cons_of_mem r hc₂)
  have hproper : c.kvaStart < c.kvaEnd := hv.asc.proper c hcm
  have hbehind := hlast c hc₂
  by_contra hbefore
  -- the range and the region have a byte in common
  have hnone := hfree (max lo c.kvaStart) (by omega) (by omega)
  unfold covers at hnone
  rw [look_of_mem hv.asc hcm (show c.kvaStart ≤ max lo c.kvaStart ∧ max lo c.kvaStart < c.kvaEnd by
    omega)] at hnone
  cases hnone

/-- The last pass takes whatever fits. -/
theorem vmaFindKmvarsdsc_of_isOk (hr : r ∈ vma.vsList)
    (hok : vmaFindKmvarsdscIsOk vma r start vassize = true) (hsz : 0x1000 ≤ vassize)
    (hend : add64 start vassize ≤ vma.vsIsalcend) :
    ∃ r, vmaFindKmvarsdsc vma start vassize vaslimits vastype = some r := by
  have hlast : (vma.vsList.find? fun curr => vmaFindKmvarsdscIsOk vma curr start vassize).isSome :=
    List.find?_isSome.mpr ⟨r, hr, hok⟩
  unfold vmaFindKmvarsdsc
  rw [if_neg (by omega), if_neg (by omega)]
  refine Option.isSome_iff_exists.mp ?_
  rw [Option.isSome_or, Option.isSome_or, hlast, Bool.or_true, Bool.or_true]

/-- A request succeeds if a region is found, and a descriptor is there. -/
theorem vmaNewVadrsCore_ne_zero (hv : InOrder vma) (hr : ∃ r,
    vmaFindKmvarsdsc vma start vassize vaslimits vastype = some r) (htake : kms.take.1 ≠ none) :
    (vmaNewVadrsCore vma kms start vassize vaslimits vastype).1 ≠ 0 := by
  obtain ⟨r, hr⟩ := hr
  have hproper : r.kvaStart < r.kvaEnd := hv.asc.proper r (vmaFindKmvarsdsc_fits hr).mem
  unfold vmaNewVadrsCore
  simp only [hr]
  by_cases hlike : (start = 0 ∨ start = r.kvaEnd) ∧ r.isLike vaslimits vastype
  · rw [if_pos hlike]
    show r.kvaEnd ≠ 0
    omega
  · rw [if_neg hlike]
    obtain ⟨a, ha⟩ := Option.ne_none_iff_exists'.mp htake
    rcases hk : kms.take with ⟨o, kms'⟩
    rw [hk] at ha
    simp only at ha
    subst ha
    show (if start = 0 then r.kvaEnd else start) ≠ 0
    by_cases h0 : start = 0
    · rw [if_pos h0]
      omega
    · rw [if_neg h0]
      exact h0

/-- A region after which the range fits, wherever it has to start. -/
theorem InOrder.exists_isOk (hv : InOrder vma) (hnd : (vma.vsList.map Kmvarsdsc.adr).Nodup)
    (hfree : FreeRange vma lo vassize) (hsz : 0 < vassize)
    (htop : lo + vassize < userVirtualAddressEnd) (hr : ∃ r ∈ vma.vsList, r.kvaEnd ≤ lo)
    (hlo : start = 0 ∨ start = lo) :
    ∃ r ∈ vma.vsList, vmaFindKmvarsdscIsOk vma r start vassize = true := by
  obtain ⟨r, hrm, hrlo, hnext⟩ := hv.before_free hnd hfree hsz hr
  refine ⟨r, hrm, ?_⟩
  have hword : wordMod = 0x10000000000000000 := rfl
  unfold userVirtualAddressEnd at htop
  have hend : add64 r.kvaEnd vassize = r.kvaEnd + vassize := add64_eq (by omega)
  have hall := hv.isalcend
  unfold userVirtualAddressEnd at hall
  unfold vmaFindKmvarsdscIsOk
  by_cases h0 : start = 0
  · cases hc : vma.nextEntry r with
    | none =>
        simp only [if_pos h0, hend, hall, decide_eq_true_eq]
        omega
    | some c =>
        have hbefore := hnext c hc
        simp only [if_pos h0, hend, decide_eq_true_eq]
        omega
  · have hstart : start = lo := hlo.resolve_left h0
    have hsum : add64 start vassize = lo + vassize := by
      rw [hstart]
      exact add64_eq (by omega)
    cases hc : vma.nextEntry r with
    | none =>
        simp only [if_neg h0, hsum, hall, Bool.and_eq_true, decide_eq_true_eq]
        omega
    | some c =>
        have hbefore := hnext c hc
        simp only [if_neg h0, hsum, Bool.and_eq_true, decide_eq_true_eq]
        omega

/-- What is given out is behind a region. -/
theorem vmaNewVadrs_behind (hv : InOrder vma) (hnd : (vma.vsList.map Kmvarsdsc.adr).Nodup)
    (hnw : start + vadszAlign vassize < wordMod) (h0 : start ≠ 0)
    (h : (vmaNewVadrs vma kms start vassize vaslimits vastype).1 ≠ 0) :
    ∃ r ∈ vma.vsList, r.kvaEnd ≤ start := by
  obtain ⟨ha, -⟩ := vmaNewVadrs_cases vma kms start vassize vaslimits vastype
  generalize vmaNewVadrs vma kms start vassize vaslimits vastype = p at h ha
  obtain ⟨ret, vma', kms'⟩ := p
  dsimp only at ha h
  cases ha with
  | refused kms' hout => exact absurd rfl h
  | grown r hfits hstart hlike =>
      have hsame := hstart.resolve_left h0
      exact ⟨r, hfits.mem, by omega⟩
  | added r hfits a kms' hnew hout lo hlo =>
      rw [if_neg h0] at hlo
      obtain ⟨l₁, l₂, hgap⟩ := hfits.gap hv hnd hnw (show start = if start = 0 then _ else _ by
        rw [if_neg h0])
      exact ⟨r, hfits.mem, hgap.behind⟩

end Search

/-! ## Runs -/

/-- Requests succeed for a free range at a given place exactly when it is behind a region, and
for one at any place if there is such a range. -/
structure SearchComplete (s : VmaSt) : Prop where
  explicit : ∀ start vassize vaslimits vastype, start % 0x1000 = 0 → 0x1000 ≤ start →
    1 ≤ vassize → FreeRange s.vma start (pageCeil vassize) →
    start + pageCeil vassize < userVirtualAddressEnd →
    ((vmaNewVadrs s.vma s.kms start vassize vaslimits vastype).1 ≠ 0 ↔
      ∃ r ∈ s.vma.vsList, r.kvaEnd ≤ start)
  anywhere : ∀ vassize vaslimits vastype lo, 1 ≤ vassize →
    FreeRange s.vma lo (pageCeil vassize) → lo + pageCeil vassize < userVirtualAddressEnd →
    (∃ r ∈ s.vma.vsList, r.kvaEnd ≤ lo) →
    (vmaNewVadrs s.vma s.kms 0 vassize vaslimits vastype).1 ≠ 0

section Runs

variable {pml4 : Nat → Nat} {k s₀ s : VmaSt} {mm : Nat}

theorem VmaInv.searchComplete {head0 base : List Nat} (h : VmaInv head0 base s)
    (htake : s.kms.take.1 ≠ none) : SearchComplete s := by
  have hall := h.order.isalcend
  have hword : wordMod = 0x10000000000000000 := rfl
  -- what the request needs, for a start at which the range is to be found
  have hfound : ∀ start lo vassize vaslimits vastype, 1 ≤ vassize →
      FreeRange s.vma lo (pageCeil vassize) → lo + pageCeil vassize < userVirtualAddressEnd →
      (∃ r ∈ s.vma.vsList, r.kvaEnd ≤ lo) → (start = 0 ∨ start = lo) →
      (vmaNewVadrsCore s.vma s.kms start (vadszAlign vassize) vaslimits vastype).1 ≠ 0 := by
    intro start lo vassize vaslimits vastype hsz hfree htop hr hlo
    have hceil : 0x1000 ≤ pageCeil vassize := by
      unfold pageCeil
      omega
    obtain ⟨r, hrm, hok⟩ := h.order.exists_isOk h.adr_nodup hfree (by omega) htop hr hlo
    unfold userVirtualAddressEnd at htop hall
    rw [vadszAlign_eq (by omega)]
    refine vmaNewVadrsCore_ne_zero h.order (vmaFindKmvarsdsc_of_isOk hrm hok hceil ?_) htake
    rw [hall, add64_eq (by omega)]
    omega
  constructor
  · intro start vassize vaslimits vastype hmod hmin hsz hfree htop
    have hceil : vassize ≤ pageCeil vassize := by
      unfold pageCeil
      omega
    have htop' := htop
    unfold userVirtualAddressEnd at htop'
    constructor
    · refine vmaNewVadrs_behind h.order h.adr_nodup ?_ (by omega)
      rw [vadszAlign_eq (by omega)]
      omega
    · intro hr
      unfold vmaNewVadrs
      rw [if_neg (by omega), if_neg]
      · exact hfound start start vassize vaslimits vastype hsz hfree htop hr (Or.inr rfl)
      · rw [add64_eq (by omega)]
        unfold userVirtualAddressEnd
        omega
  · intro vassize vaslimits vastype lo hsz hfree htop hr
    unfold vmaNewVadrs
    rw [if_neg (by omega), if_neg (by simp)]
    exact hfound 0 lo vassize vaslimits vastype hsz hfree htop hr (Or.inl rfl)

/-- **Which requests succeed** in every state that calls lead to, while `kmsob_new` does. -/
theorem search_complete (h : Made pml4 k mm s₀) (hk : BoxesLive k) (ops : List VmaOp)
    (hops : ∀ op ∈ ops, op.NoWrap) (hrun : run vmaStep ops s₀ = .ok s)
    (htake : s.kms.take.1 ≠ none) : SearchComplete s := by
  obtain ⟨base, hinv⟩ := run_vmaInv h hk hops hrun
  exact hinv.searchComplete htake

theorem search_complete_splitRegion : ∃ s : VmaSt, SearchComplete s ∧
    (vmaNewVadrs s.vma s.kms 0x201000 0x1000 0 1).1 ≠ 0 := by
  obtain ⟨s₀, hmade, hq⟩ := exists_made (q := fun s => okAnd (run vmaStep splitRegion s) fun t =>
    t.kms.take.1 ≠ none && (vmaNewVadrs t.vma t.kms 0x201000 0x1000 0 1).1 ≠ 0) (by decide +kernel)
  obtain ⟨s, hrun, hs⟩ := exists_of_okAnd hq
  rw [Bool.and_eq_true, decide_eq_true_eq, decide_eq_true_eq] at hs
  exact ⟨s, search_complete hmade freshVma_boxesLive splitRegion (by decide) hrun hs.1, hs.2⟩

/-- The first region goes, and its page cannot be had again. -/
theorem search_not_complete : ¬ ∀ (k s₀ s : VmaSt) (mm : Nat) (ops : List VmaOp)
    (start vassize vaslimits vastype : Nat), Made (copyPagesData 0) k mm s₀ → BoxesLive k →
      (∀ op ∈ ops, op.NoWrap) → run vmaStep ops s₀ = .ok s → s.kms.take.1 ≠ none →
      start % 0x1000 = 0 → 0x1000 ≤ start → 1 ≤ vassize →
      FreeRange s.vma start (pageCeil vassize) → start + pageCeil vassize < userVirtualAddressEnd →
      (vmaNewVadrs s.vma s.kms start vassize vaslimits vastype).1 ≠ 0 := by
  intro hall
  obtain ⟨s₀, hmade, hq⟩ := exists_made (q := fun s =>
    okAnd (run vmaStep [.del 0x1000 0x4000] s) fun t => t.kms.take.1 ≠ none &&
      t.vma.vsList.all (fun r => 0x2000 ≤ r.kvaStart) &&
      (vmaNewVadrs t.vma t.kms 0x1000 0x1000 0 0).1 = 0) (by decide +kernel)
  obtain ⟨s, hrun, hs⟩ := exists_of_okAnd hq
  simp only [Bool.and_eq_true, decide_eq_true_eq, List.all_eq_true] at hs
  obtain ⟨⟨htake, hbehind⟩, hzero⟩ := hs
  refine hall freshVma s₀ s _ _ 0x1000 0x1000 0 0 hmade freshVma_boxesLive (by decide) hrun htake
    (by decide) (by decide) (by decide) (fun x hlo hhi => ?_) (by decide) hzero
  refine look_eq_none fun r hr hx => ?_
  have hlow := hbehind r hr
  have hxr : r.kvaStart ≤ x := hx.1
  have hceil : pageCeil 0x1000 = 0x1000 := by decide
  rw [hceil] at hhi
  omega

end Runs

end Cosmos.Kernel
