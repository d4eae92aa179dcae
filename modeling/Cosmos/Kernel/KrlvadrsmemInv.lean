import Cosmos.Kernel.Krlvadrsmem
import Cosmos.Lib.StM
import Mathlib.Data.List.Count
import Mathlib.Data.List.Perm.Basic

/-!
# What the calls on an address space do

One lemma for each call says all it can do: `vmaNewVadrs_cases`, `vmaDelVadrs_cases`
and `vmaMapFairvadrs_cases`.  Unmapping changes the page tables, the pages and the
frames of a box, and nothing that the regions and the kernel objects are about.
-/

namespace Cosmos.Kernel

open Cosmos.Lib Cosmos.Lib.StM Cosmos.Lib.Word64 Cosmos.Hal

/-! ## Work on pages -/

/-- Regions, kernel objects and the users of boxes are as before. -/
structure PagesOnly (s s' : VmaSt) : Prop where
  vma : s'.vma = s.vma
  kms : s'.kms = s.kms
  mgr : s'.mgr = s.mgr
  cont : ∀ b, (s'.box b).kmbCont = (s.box b).kmbCont

section Pages

variable {s s' s'' : VmaSt} {b : Bool} {kmbox : Nat}

theorem PagesOnly.refl (s : VmaSt) : PagesOnly s s := ⟨rfl, rfl, rfl, fun _ => rfl⟩

theorem PagesOnly.trans (h : PagesOnly s s') (h' : PagesOnly s' s'') : PagesOnly s s'' where
  vma := h'.vma.trans h.vma
  kms := h'.kms.trans h.kms
  mgr := h'.mgr.trans h.mgr
  cont b := (h'.cont b).trans (h.cont b)

theorem onMmu_inv {α : Type} {x : MmuM α} {a : α} (h : (onMmu x).run s = .ok (a, s')) :
    ∃ hal, x.run s.hal = .ok (a, hal) ∧ s' = { s with hal := hal } := by
  simp only [onMmu, StateT.run] at h
  cases hx : x s.hal with
  | error e =>
      rw [hx] at h
      cases h
  | ok p =>
      rw [hx] at h
      cases h
      exact ⟨p.2, hx, rfl⟩

theorem onMmu_run {α : Type} {x : MmuM α} {a : α} {hal : MmuSt}
    (h : x.run s.hal = .ok (a, hal)) : (onMmu x).run s = .ok (a, { s with hal := hal }) := by
  simp only [onMmu, StateT.run] at h ⊢
  rw [h]

/-- The box of a frame that has left or joined it has as many users as before. -/
theorem cont_update (box : Nat → Kvmemcbox) {kmb : Kvmemcbox}
    (h : kmb.kmbCont = (box kmbox).kmbCont) (c : Nat) :
    (Function.update box kmbox kmb c).kmbCont = (box c).kmbCont := by
  by_cases hc : c = kmbox
  · rw [hc, Function.update_self, h]
  · rw [Function.update_of_ne hc]

/-- **`vma_del_usermsa`** finds nothing, or a frame that goes back. -/
theorem vmaDelUsermsa_cases {msa : Option PageFrame} {phyadr : Nat}
    (h : (vmaDelUsermsa kmbox msa phyadr).run s = .ok (b, s')) :
    (s' = s ∧ (phyadr = 0 ∨ ∀ f ∈ (s.box kmbox).kmbMsalist, frameAddr f ≠ phyadr)) ∨
    ∃ f pgs, (msa = some f ∨ f ∈ (s.box kmbox).kmbMsalist) ∧ frameAddr f = phyadr ∧
      s.hal.pgs.give f = some pgs ∧
      s' = { s with
        hal := { s.hal with pgs := pgs }
        box := Function.update s.box kmbox ((s.box kmbox).delMsa f) } := by
  unfold vmaDelUsermsa at h
  by_cases h0 : phyadr = 0
  · rw [if_pos h0] at h
    cases h
    exact Or.inl ⟨rfl, Or.inl h0⟩
  · rw [if_neg h0, run_bind_ok (show (get : VmaM VmaSt).run s = .ok (s, s) from rfl)] at h
    cases hf : (msa.filter fun m : PageFrame => decide (frameAddr m = phyadr)).or
        ((s.box kmbox).kmbMsalist.find? fun m : PageFrame => decide (frameAddr m = phyadr)) with
    | none =>
        simp only [hf] at h
        cases h
        have hnone := List.find?_eq_none.mp (Option.or_eq_none_iff.mp hf).2
        exact Or.inl ⟨rfl, Or.inr fun f hf he => hnone f hf (decide_eq_true he)⟩
    | some f =>
        simp only [hf] at h
        cases hg : s.hal.pgs.give f with
        | none =>
            simp only [hg] at h
            cases h
        | some pgs =>
            simp only [hg] at h
            cases h
            right
            refine ⟨f, pgs, ?_, ?_, hg, rfl⟩
            · rcases Option.or_eq_some_iff.mp hf with hf | ⟨-, hf⟩
              · exact Or.inl (Option.eq_some_of_filter_eq_some hf)
              · exact Or.inr (List.mem_of_find?_eq_some hf)
            · rcases Option.or_eq_some_iff.mp hf with hf | ⟨-, hf⟩
              · exact of_decide_eq_true (Option.filter_eq_some_iff.mp hf).2
              · have hp := List.find?_some hf
                exact of_decide_eq_true hp

theorem vmaDelUsermsa_pagesOnly {msa : Option PageFrame} {phyadr : Nat}
    (h : (vmaDelUsermsa kmbox msa phyadr).run s = .ok (b, s')) : PagesOnly s s' := by
  rcases vmaDelUsermsa_cases h with ⟨rfl, -⟩ | ⟨f, pgs, -, -, -, rfl⟩
  · exact PagesOnly.refl s'
  · exact ⟨rfl, rfl, rfl, cont_update s.box rfl⟩

/-- One turn of the loop that unmaps. -/
theorem vmaDelUnmappingPhyadrs_cons {kmbox : Option Nat} {vadrs : Nat} {l : List Nat}
    (h : (vmaDelUnmappingPhyadrs kmbox (vadrs :: l)).run s = .ok (b, s'')) :
    ∃ phyadrs hal gone s' b', (halMmuUntransform vadrs).run s.hal = .ok (phyadrs, hal) ∧
      (vmaDelPhyadrs kmbox phyadrs).run { s with hal := hal } = .ok (gone, s') ∧
      (vmaDelUnmappingPhyadrs kmbox l).run s' = .ok (b', s'') := by
  obtain ⟨phyadrs, s₁, h₁, h⟩ := run_bind_inv h
  obtain ⟨hal, hun, rfl⟩ := onMmu_inv h₁
  obtain ⟨gone, s', h₂, h⟩ := run_bind_inv h
  obtain ⟨b', s₃, h₃, h⟩ := run_bind_inv h
  cases h
  exact ⟨phyadrs, hal, gone, s', b', hun, h₂, h₃⟩

/-- Nothing leaves a box, or a frame of the box does. -/
theorem vmaDelPhyadrs_cases {kmbox : Option Nat} {phyadrs : Nat}
    (h : (vmaDelPhyadrs kmbox phyadrs).run s = .ok (b, s')) :
    (s' = s ∧ (kmbox = none ∨ phyadrs = 0)) ∨ ∃ c, kmbox = some c ∧ phyadrs ≠ 0 ∧
      (vmaDelUsermsa c none phyadrs).run s = .ok (b, s') := by
  unfold vmaDelPhyadrs at h
  cases kmbox with
  | none =>
      cases h
      exact Or.inl ⟨rfl, Or.inl rfl⟩
  | some c =>
      by_cases h0 : phyadrs ≠ 0
      · simp only [if_pos h0] at h
        exact Or.inr ⟨c, rfl, h0, h⟩
      · simp only [if_neg h0] at h
        cases h
        exact Or.inl ⟨rfl, Or.inr (not_not.mp h0)⟩

theorem vmaDelUnmappingPhyadrs_pagesOnly {kmbox : Option Nat} {l : List Nat} {s s' : VmaSt}
    {b : Bool} (h : (vmaDelUnmappingPhyadrs kmbox l).run s = .ok (b, s')) : PagesOnly s s' := by
  induction l generalizing s b with
  | nil =>
      cases h
      exact PagesOnly.refl _
  | cons vadrs l ih =>
      obtain ⟨phyadrs, hal, gone, s₁, b', -, hgone, hrest⟩ := vmaDelUnmappingPhyadrs_cons h
      have hfirst : PagesOnly s { s with hal := hal } := ⟨rfl, rfl, rfl, fun _ => rfl⟩
      have hlast := ih hrest
      rcases vmaDelPhyadrs_cases hgone with ⟨rfl, -⟩ | ⟨c, -, -, hdel⟩
      · exact hfirst.trans hlast
      · exact hfirst.trans ((vmaDelUsermsa_pagesOnly hdel).trans hlast)

theorem vmaDelUnmapping_pagesOnly {s s' : VmaSt} {b : Bool} {kmvd : Kmvarsdsc} {start vassize : Nat}
    (h : (vmaDelUnmapping kmvd start vassize).run s = .ok (b, s')) : PagesOnly s s' :=
  vmaDelUnmappingPhyadrs_pagesOnly h

end Pages

/-! ## Boxes -/

section Boxes

variable {s s' : VmaSt} {b : Bool} {kmbox : Nat}

/-- The state after `knl_count_kvmemcbox`. -/
def VmaSt.count (s : VmaSt) : Option Nat → VmaSt
  | none => s
  | some kmbox =>
      { s with
        box := Function.update s.box kmbox
          { s.box kmbox with kmbCont := (s.box kmbox).kmbCont + 1 } }

theorem knlCountKvmemcbox_run (s : VmaSt) (o : Option Nat) :
    (knlCountKvmemcbox o).run s = .ok ((), s.count o) := by
  cases o <;> rfl

/-- The counters of the manager, and the bound of its cache. -/
structure MgrOk (mgr : Kvmemcboxmgr) : Prop where
  kmbnr : mgr.kbmKmbnr = mgr.kbmKmbhead.length
  cachenr : mgr.kbmCachenr = mgr.kbmCachehead.length
  max : mgr.kbmCachenr ≤ mgr.kbmCachemax

/-- A box has one user less.  The last one to go puts it into the cache or gives it
back. -/
structure PutBox (s s' : VmaSt) (kmbox : Nat) : Prop where
  vma : s'.vma = s.vma
  hal : s'.hal = s.hal
  box : s'.box = Function.update s.box kmbox
    { s.box kmbox with kmbCont := (s.box kmbox).kmbCont - 1 }
  ends : 1 < (s.box kmbox).kmbCont ∧ s'.mgr = s.mgr ∧ s'.kms = s.kms ∨
    (s.box kmbox).kmbCont ≤ 1 ∧ s'.mgr.kbmKmbhead = s.mgr.kbmKmbhead.erase kmbox ∧
      (s'.mgr.kbmCachehead = kmbox :: s.mgr.kbmCachehead ∧ s'.kms = s.kms ∨
        s'.mgr.kbmCachehead = s.mgr.kbmCachehead ∧ s'.kms = giveObj s.kms kmbox)
  mgrOk : kmbox ∈ s.kms.out → kmbox ∈ s.mgr.kbmKmbhead → MgrOk s.mgr → MgrOk s'.mgr

theorem knlPutKvmemcbox_putBox (h : (knlPutKvmemcbox (some kmbox)).run s = .ok (b, s')) :
    PutBox s s' kmbox := by
  obtain ⟨_, _, h₁, h⟩ := run_bind_inv h
  cases h₁
  obtain ⟨_, _, h₁, h⟩ := run_bind_inv h
  cases h₁
  by_cases hc : 1 ≤ (s.box kmbox).kmbCont - 1
  · rw [if_pos hc] at h
    cases h
    exact ⟨rfl, rfl, rfl, Or.inl ⟨by omega, rfl, rfl⟩, fun _ _ hm => hm⟩
  · rw [if_neg hc] at h
    have hle : (s.box kmbox).kmbCont ≤ 1 := by omega
    have hnr : kmbox ∈ s.mgr.kbmKmbhead → MgrOk s.mgr →
        s.mgr.kbmKmbnr - 1 = (s.mgr.kbmKmbhead.erase kmbox).length := fun hk hm => by
      rw [List.length_erase_of_mem hk, hm.kmbnr]
    obtain ⟨_, _, h₁, h⟩ := run_bind_inv h
    cases h₁
    obtain ⟨_, _, h₁, h⟩ := run_bind_inv h
    cases h₁
    by_cases hm : s.mgr.kbmCachemax ≤ s.mgr.kbmCachenr
    · rw [if_pos hm] at h
      obtain ⟨ok, _, h₁, h⟩ := run_bind_inv h
      cases h₁
      cases hg : (s.kms.give kmbox).isSome with
      | false =>
          simp only [hg] at h
          cases h
          refine ⟨rfl, rfl, rfl, Or.inr ⟨hle, rfl, Or.inr ⟨rfl, rfl⟩⟩, fun hout _ _ => ?_⟩
          obtain ⟨kms, hgive, -⟩ := Supply.give_of_mem hout
          rw [hgive] at hg
          cases hg
      | true =>
          simp only [hg] at h
          cases h
          exact ⟨rfl, rfl, rfl, Or.inr ⟨hle, rfl, Or.inr ⟨rfl, rfl⟩⟩,
            fun _ hk hok => ⟨hnr hk hok, hok.cachenr, hok.max⟩⟩
    · rw [if_neg hm] at h
      cases h
      refine ⟨rfl, rfl, rfl, Or.inr ⟨hle, rfl, Or.inl ⟨rfl, rfl⟩⟩, fun _ hk hok => ?_⟩
      have hcache := hok.cachenr
      exact ⟨hnr hk hok, congrArg (· + 1) hcache, Nat.lt_of_not_le hm⟩

/-- A box is put to use: one from the cache, or a new one. -/
inductive GotBox (s : VmaSt) (kmb : Nat) : VmaSt → Prop
  | cached (mgr : Kvmemcboxmgr) (hhead : mgr.kbmKmbhead = s.mgr.kbmKmbhead)
      (hcache : s.mgr.kbmCachehead = kmb :: mgr.kbmCachehead) (hok : MgrOk s.mgr → MgrOk mgr) :
      GotBox s kmb ({ s with mgr := mgr }.useBox kmb)
  | made (kms : Supply Nat) (hnew : kmb ∉ s.kms.out) (hout : kms.out = kmb :: s.kms.out) :
      GotBox s kmb ({ s with kms := kms }.useBox kmb)

theorem knlGetKvmemcbox_gotBox {kmb : Nat} (h : knlGetKvmemcbox.run s = .ok (kmb, s')) :
    GotBox s kmb s' := by
  obtain ⟨_, _, h₁, h⟩ := run_bind_inv h
  cases h₁
  cases hc : if 0 < s.mgr.kbmCachenr then s.mgr.kbmCachehead else [] with
  | nil =>
      rw [hc] at h
      have hcases := s.kms.take_cases
      rcases htake : s.kms.take with ⟨o, kms⟩
      rw [htake] at h hcases
      rcases hcases with ⟨ho, -⟩ | ⟨x, ho, hx, hout⟩
      · simp only at ho
        subst ho
        cases h
      · simp only at ho hout
        subst ho
        cases h
        exact GotBox.made kms hx hout
  | cons kmb' cache =>
      have hhead : s.mgr.kbmCachehead = kmb' :: cache := by
        split at hc
        · exact hc
        · cases hc
      rw [hc] at h
      cases h
      refine GotBox.cached { s.mgr with
        kbmCachehead := cache, kbmCachenr := s.mgr.kbmCachenr - 1 } rfl hhead fun hok => ?_
      have hcnr : s.mgr.kbmCachenr - 1 = cache.length := by
        rw [hok.cachenr, hhead, List.length_cons, Nat.add_sub_cancel]
      exact ⟨hok.kmbnr, hcnr, Nat.le_trans (Nat.sub_le _ 1) hok.max⟩

end Boxes

/-! ## The calls -/

section Calls

/-- `r` is a region after which the range fits. -/
structure Fits (vma : Virmemadrs) (start vassize : Nat) (r : Kmvarsdsc) : Prop where
  mem : r ∈ vma.vsList
  isOk : vmaFindKmvarsdscIsOk vma r start vassize = true
  size : 0x1000 ≤ vassize
  newend : add64 start vassize ≤ vma.vsIsalcend

theorem mem_of_curr {vma : Virmemadrs} {r : Kmvarsdsc} (h : vma.curr = some r) :
    r ∈ vma.vsList := by
  obtain ⟨a, -, ha⟩ := Option.bind_eq_some_iff.mp h
  exact Chain.mem_of_node ha

theorem vmaFindKmvarsdsc_fits {vma : Virmemadrs} {start vassize vaslimits vastype : Nat}
    {r : Kmvarsdsc} (h : vmaFindKmvarsdsc vma start vassize vaslimits vastype = some r) :
    Fits vma start vassize r := by
  unfold vmaFindKmvarsdsc at h
  by_cases hsz : vassize < 0x1000
  · rw [if_pos hsz] at h
    cases h
  rw [if_neg hsz] at h
  by_cases hend : vma.vsIsalcend < add64 start vassize
  · rw [if_pos hend] at h
    cases h
  rw [if_neg hend] at h
  suffices hr : r ∈ vma.vsList ∧ vmaFindKmvarsdscIsOk vma r start vassize = true from
    ⟨hr.1, hr.2, by omega, by omega⟩
  rcases Option.or_eq_some_iff.mp h with h | ⟨-, h⟩
  · obtain ⟨hc, hok⟩ := Option.filter_eq_some_iff.mp h
    exact ⟨mem_of_curr hc, (Bool.and_eq_true_iff.mp hok).1⟩
  rcases Option.or_eq_some_iff.mp h with h | ⟨-, h⟩
  · have hok := List.find?_some h
    exact ⟨List.mem_of_find?_eq_some h, (Bool.and_eq_true_iff.mp hok).2⟩
  · have hok := List.find?_some h
    exact ⟨List.mem_of_find?_eq_some h, hok⟩

/-- The region that `vma_new_vadrs_core` makes. -/
def newRegion (adr kvaStart vassize vaslimits vastype : Nat) : Kmvarsdsc where
  adr := adr
  kvaMaptype := vastype
  kvaLimits := vaslimits
  kvaStart := kvaStart
  kvaEnd := add64 kvaStart vassize
  kvaKvmbox := none

/-- What `vma_new_vadrs_core` can do: nothing, put the range at the end of a region like
it, or make a new region. -/
inductive Alloced (vma : Virmemadrs) (kms : Supply Nat) (start vassize vaslimits vastype : Nat) :
    Nat → Virmemadrs → Supply Nat → Prop
  | refused (kms' : Supply Nat) (hout : kms'.out = kms.out) :
      Alloced vma kms start vassize vaslimits vastype 0 vma kms'
  | grown (r : Kmvarsdsc) (hfits : Fits vma start vassize r)
      (hstart : start = 0 ∨ start = r.kvaEnd)
      (hlike : vaslimits = r.kvaLimits ∧ vastype = r.kvaMaptype) :
      Alloced vma kms start vassize vaslimits vastype r.kvaEnd
        { vma.write r (fun r => { r with kvaEnd := add64 r.kvaEnd vassize }) with
          vsCurrkmvdsc := some r.adr } kms
  | added (r : Kmvarsdsc) (hfits : Fits vma start vassize r) (a : Nat) (kms' : Supply Nat)
      (hnew : a ∉ kms.out) (hout : kms'.out = a :: kms.out) (lo : Nat)
      (hlo : lo = if start = 0 then r.kvaEnd else start) :
      Alloced vma kms start vassize vaslimits vastype lo
        (vma.link r (newRegion a lo vassize vaslimits vastype)) kms'

theorem vmaNewVadrsCore_alloced (vma : Virmemadrs) (kms : Supply Nat)
    (start vassize vaslimits vastype : Nat) :
    Alloced vma kms start vassize vaslimits vastype
      (vmaNewVadrsCore vma kms start vassize vaslimits vastype).1
      (vmaNewVadrsCore vma kms start vassize vaslimits vastype).2.1
      (vmaNewVadrsCore vma kms start vassize vaslimits vastype).2.2 := by
  unfold vmaNewVadrsCore
  cases hfind : vmaFindKmvarsdsc vma start vassize vaslimits vastype with
  | none => exact Alloced.refused kms rfl
  | some r =>
      have hfits := vmaFindKmvarsdsc_fits hfind
      by_cases hlike : (start = 0 ∨ start = r.kvaEnd) ∧ r.isLike vaslimits vastype
      · simp only [if_pos hlike]
        have hl := Bool.and_eq_true_iff.mp hlike.2
        exact Alloced.grown r hfits hlike.1 ⟨of_decide_eq_true hl.1, of_decide_eq_true hl.2⟩
      · simp only [if_neg hlike]
        have hcases := kms.take_cases
        rcases htake : kms.take with ⟨o, kms'⟩
        rw [htake] at hcases
        rcases hcases with ⟨ho, hout⟩ | ⟨a, ho, ha, hout⟩
        · simp only at ho hout
          subst ho
          exact Alloced.refused kms' hout
        · simp only at ho hout
          subst ho
          exact Alloced.added r hfits a kms' ha hout _ rfl

/-- **`vma_new_vadrs`**; an explicit start is that of a page. -/
theorem vmaNewVadrs_cases (vma : Virmemadrs) (kms : Supply Nat)
    (start vassize vaslimits vastype : Nat) :
    Alloced vma kms start (vadszAlign vassize) vaslimits vastype
      (vmaNewVadrs vma kms start vassize vaslimits vastype).1
      (vmaNewVadrs vma kms start vassize vaslimits vastype).2.1
      (vmaNewVadrs vma kms start vassize vaslimits vastype).2.2 ∧
    ((vmaNewVadrs vma kms start vassize vaslimits vastype).2.1 = vma ∨
      start % 0x1000 = 0 ∧ (start = 0 ∨ 0x1000 ≤ start)) := by
  unfold vmaNewVadrs
  by_cases hsz : vassize < 1
  · rw [if_pos hsz]
    exact ⟨Alloced.refused kms rfl, Or.inl rfl⟩
  rw [if_neg hsz]
  by_cases hbad : start ≠ 0 ∧ (start % 0x1000 ≠ 0 ∨ start < 0x1000 ∨
      userVirtualAddressEnd < add64 start vassize)
  · rw [if_pos hbad]
    exact ⟨Alloced.refused kms rfl, Or.inl rfl⟩
  · rw [if_neg hbad]
    exact ⟨vmaNewVadrsCore_alloced _ _ _ _ _ _, Or.inr (by omega)⟩

/-- The region holds the range, for `vma_del_find_kmvarsdsc`. -/
structure Holds (vma : Virmemadrs) (start vassize : Nat) (r : Kmvarsdsc) : Prop where
  find : vmaDelFindKmvarsdsc vma start vassize = some r
  mem : r ∈ vma.vsList
  lo : r.kvaStart ≤ start
  hi : add64 start vassize ≤ r.kvaEnd
  size : 0x1000 ≤ vassize

theorem vmaDelFindKmvarsdsc_holds {vma : Virmemadrs} {start vassize : Nat} {r : Kmvarsdsc}
    (hfind : vmaDelFindKmvarsdsc vma start vassize = some r) : Holds vma start vassize r := by
  have h := hfind
  unfold vmaDelFindKmvarsdsc at h
  by_cases hsz : vassize < 0x1000
  · rw [if_pos hsz] at h
    cases h
  rw [if_neg hsz] at h
  suffices hr : r ∈ vma.vsList ∧ (decide (r.kvaStart ≤ start) &&
      decide (add64 start vassize ≤ r.kvaEnd)) = true from by
    have hd := Bool.and_eq_true_iff.mp hr.2
    exact ⟨hfind, hr.1, of_decide_eq_true hd.1, of_decide_eq_true hd.2, by omega⟩
  rcases Option.or_eq_some_iff.mp h with h | ⟨-, h⟩
  · obtain ⟨hc, hok⟩ := Option.filter_eq_some_iff.mp h
    exact ⟨mem_of_curr hc, hok⟩
  · have hok := List.find?_some h
    exact ⟨List.mem_of_find?_eq_some h, hok⟩

/-- No region holds the range, or the one that does has to be split and there is no
descriptor for the part behind the range. -/
def DelRefused (s : VmaSt) (start vassize : Nat) : Prop :=
  ∀ r, vmaDelFindKmvarsdsc s.vma start vassize = some r →
    r.kvaStart < start ∧ add64 start vassize < r.kvaEnd ∧ s.kms.take.1 = none

/-- What `vma_del_vadrs_core` can do: nothing, or one of its four cases. -/
inductive Freed (s : VmaSt) (start vassize : Nat) : Bool → VmaSt → Prop
  | refused (kms : Supply Nat) (hout : kms.out = s.kms.out)
      (hwhy : start = 0 ∨ DelRefused s start vassize) :
      Freed s start vassize false { s with kms := kms }
  | whole (r : Kmvarsdsc) (hr : Holds s.vma start vassize r) (hlo : r.kvaStart = start)
      (hhi : r.kvaEnd = add64 start vassize) (s₁ s₂ : VmaSt) (b₁ b₂ : Bool)
      (hun : (vmaDelUnmapping r start vassize).run s = .ok (b₁, s₁))
      (hput : (knlPutKvmemcbox r.kvaKvmbox).run
        { s₁ with vma := vmaDelSetEndcurrkmvd s₁.vma r } = .ok (b₂, s₂)) :
      Freed s start vassize true { s₂ with
        vma := { s₂.vma with
          vsList := Chain.del Kmvarsdsc.adr r.adr s₂.vma.vsList
          vsKmvdscnr := sub64 s₂.vma.vsKmvdscnr 1 }
        kms := giveObj s₂.kms r.adr }
  | front (r : Kmvarsdsc) (hr : Holds s.vma start vassize r) (hlo : r.kvaStart = start)
      (hhi : add64 start vassize < r.kvaEnd) (s' : VmaSt) (b : Bool)
      (hun : (vmaDelUnmapping r start vassize).run { s with
        vma := s.vma.write r fun r => { r with kvaStart := add64 start vassize } } = .ok (b, s')) :
      Freed s start vassize true s'
  | back (r : Kmvarsdsc) (hr : Holds s.vma start vassize r) (hlo : r.kvaStart < start)
      (hhi : r.kvaEnd = add64 start vassize) (s' : VmaSt) (b : Bool)
      (hun : (vmaDelUnmapping r start vassize).run { s with
        vma := s.vma.write r fun r => { r with kvaEnd := start } } = .ok (b, s')) :
      Freed s start vassize true s'
  | split (r : Kmvarsdsc) (hr : Holds s.vma start vassize r) (hlo : r.kvaStart < start)
      (hhi : add64 start vassize < r.kvaEnd) (a : Nat) (kms : Supply Nat)
      (htake : s.kms.take = (some a, kms)) (hnew : a ∉ s.kms.out)
      (hout : kms.out = a :: s.kms.out) (s₁ : VmaSt) (b : Bool)
      (hun : (vmaDelUnmapping r start vassize).run (VmaSt.count { s with
        kms := kms
        vma := s.vma.write r fun r => { r with kvaEnd := start } } r.kvaKvmbox) =
          .ok (b, s₁)) :
      Freed s start vassize true { s₁ with
        vma := { s₁.vma.link r { r with adr := a, kvaStart := add64 start vassize } with
          vsKmvdscnr := add64 s₁.vma.vsKmvdscnr 1 } }

theorem vmaDelVadrsCore_freed {s s' : VmaSt} {start vassize : Nat} {b : Bool}
    (h : (vmaDelVadrsCore start vassize).run s = .ok (b, s')) : Freed s start vassize b s' := by
  obtain ⟨_, _, h₁, h⟩ := run_bind_inv h
  cases h₁
  cases hfind : vmaDelFindKmvarsdsc s.vma start vassize with
  | none =>
      simp only [hfind] at h
      cases h
      exact Freed.refused s.kms rfl (Or.inr fun r hr => by rw [hfind] at hr; cases hr)
  | some r =>
      simp only [hfind] at h
      have hr := vmaDelFindKmvarsdsc_holds hfind
      by_cases hwhole : r.kvaStart = start ∧ r.kvaEnd = add64 start vassize
      · rw [if_pos hwhole] at h
        obtain ⟨b₁, s₁, hun, h⟩ := run_bind_inv h
        obtain ⟨_, _, h₁, h⟩ := run_bind_inv h
        cases h₁
        obtain ⟨b₂, s₂, hput, h⟩ := run_bind_inv h
        cases h
        exact Freed.whole r hr hwhole.1 hwhole.2 s₁ s₂ b₁ b₂ hun hput
      rw [if_neg hwhole] at h
      by_cases hfront : r.kvaStart = start ∧ add64 start vassize < r.kvaEnd
      · rw [if_pos hfront] at h
        obtain ⟨_, _, h₁, h⟩ := run_bind_inv h
        cases h₁
        obtain ⟨b₁, s₁, hun, h⟩ := run_bind_inv h
        cases h
        exact Freed.front r hr hfront.1 hfront.2 s' b₁ hun
      rw [if_neg hfront] at h
      by_cases hback : r.kvaStart < start ∧ r.kvaEnd = add64 start vassize
      · rw [if_pos hback] at h
        obtain ⟨_, _, h₁, h⟩ := run_bind_inv h
        cases h₁
        obtain ⟨b₁, s₁, hun, h⟩ := run_bind_inv h
        cases h
        exact Freed.back r hr hback.1 hback.2 s' b₁ hun
      rw [if_neg hback] at h
      by_cases hsplit : r.kvaStart < start ∧ add64 start vassize < r.kvaEnd
      · rw [if_pos hsplit] at h
        obtain ⟨o, s₀, h₁, h⟩ := run_bind_inv h
        cases h₁
        have hcases := s.kms.take_cases
        rcases htake : s.kms.take with ⟨o, kms⟩
        rw [htake] at h hcases
        rcases hcases with ⟨ho, hout⟩ | ⟨a, ho, ha, hout⟩
        · simp only at ho hout
          subst ho
          cases h
          refine Freed.refused kms hout (Or.inr fun r' hr' => ?_)
          rw [hfind] at hr'
          cases hr'
          exact ⟨hsplit.1, hsplit.2, congrArg Prod.fst htake⟩
        · simp only at ho hout
          subst ho
          obtain ⟨_, _, h₁, h⟩ := run_bind_inv h
          cases h₁
          obtain ⟨_, _, h₁, h⟩ := run_bind_inv h
          rw [knlCountKvmemcbox_run] at h₁
          cases h₁
          obtain ⟨b₁, s₁, hun, h⟩ := run_bind_inv h
          cases h
          exact Freed.split r hr hsplit.1 hsplit.2 a kms htake ha hout s₁ b₁ hun
      · -- there is no fifth case
        have hlo := hr.lo
        have hhi := hr.hi
        exfalso
        omega

/-- **`vma_del_vadrs`**. -/
theorem vmaDelVadrs_cases {s s' : VmaSt} {start vassize : Nat} {b : Bool}
    (h : (vmaDelVadrs start vassize).run s = .ok (b, s')) :
    Freed s start (vadszAlign vassize) b s' ∧ (b = true → start ≠ 0) := by
  unfold vmaDelVadrs at h
  by_cases hbad : vassize < 1 ∨ start = 0
  · rw [if_pos hbad] at h
    cases h
    refine ⟨Freed.refused s.kms rfl ?_, fun hb => by cases hb⟩
    rcases hbad with hsz | h0
    · right
      intro r hr
      have hzero : vassize = 0 := by omega
      subst hzero
      exact absurd (vmaDelFindKmvarsdsc_holds hr).size (by decide)
    · exact Or.inl h0
  · rw [if_neg hbad] at h
    exact ⟨vmaDelVadrsCore_freed h, fun _ h0 => hbad (Or.inr h0)⟩

/-- A free that succeeds had no reason to fail. -/
theorem Freed.not_refused {s s' : VmaSt} {start vassize : Nat} (h : Freed s start vassize true s') :
    ¬ DelRefused s start vassize := by
  intro hno
  cases h with
  | whole r hr hlo hhi s₁ s₂ b₁ b₂ hun hput =>
      have := (hno r hr.find).1
      omega
  | front r hr hlo hhi s' b hun =>
      have := (hno r hr.find).1
      omega
  | back r hr hlo hhi s' b hun =>
      have := (hno r hr.find).2.1
      omega
  | split r hr hlo hhi a kms htake hnew hout s₁ b hun =>
      have hnone := (hno r hr.find).2.2
      rw [htake] at hnone
      cases hnone

/-- It fails exactly when it has to. -/
theorem vmaDelVadrs_refused_iff {s s' : VmaSt} {start vassize : Nat} {b : Bool}
    (h : (vmaDelVadrs start vassize).run s = .ok (b, s')) :
    b = false ↔ start = 0 ∨ DelRefused s start (vadszAlign vassize) := by
  obtain ⟨hf, h0⟩ := vmaDelVadrs_cases h
  cases b with
  | false =>
      cases hf with
      | refused kms hout hwhy => exact iff_of_true rfl hwhy
  | true =>
      apply iff_of_false (by decide)
      rintro (hzero | hwhy)
      · exact h0 rfl hzero
      · exact hf.not_refused hwhy

/-- What `vma_map_msa_fault` can do: no page, the page mapped, or taken back. -/
inductive MapFault (s : VmaSt) (kmbox vadrs : Nat) : Nat → VmaSt → Prop
  | nopage (pgs : Supply PageFrame) (hout : pgs.out = s.hal.pgs.out) :
      MapFault s kmbox vadrs 0 { s with hal := { s.hal with pgs := pgs } }
  | mapped (f : PageFrame) (pgs : Supply PageFrame) (hnew : f ∉ s.hal.pgs.out)
      (hout : pgs.out = f :: s.hal.pgs.out) (hal : MmuSt)
      (htr : (halMmuTransform vadrs (frameAddr f) 7).run { s.hal with pgs := pgs } =
        .ok (true, hal)) :
      MapFault s kmbox vadrs (frameAddr f) { s with
        hal := hal
        box := Function.update s.box kmbox ((s.box kmbox).addMsa f) }
  | undone (f : PageFrame) (pgs : Supply PageFrame) (hnew : f ∉ s.hal.pgs.out)
      (hout : pgs.out = f :: s.hal.pgs.out) (hal : MmuSt)
      (htr : (halMmuTransform vadrs (frameAddr f) 7).run { s.hal with pgs := pgs } =
        .ok (false, hal)) (b : Bool) (s' : VmaSt)
      (hdel : (vmaDelUsermsa kmbox (some f) (frameAddr f)).run { s with
        hal := hal
        box := Function.update s.box kmbox ((s.box kmbox).addMsa f) } = .ok (b, s')) :
      MapFault s kmbox vadrs 0 s'

theorem vmaMapMsaFault_cases {s s' : VmaSt} {kmbox vadrs phyadrs : Nat} (hv : vadrs ≠ 0)
    (h : (vmaMapMsaFault kmbox vadrs 7).run s = .ok (phyadrs, s')) :
    MapFault s kmbox vadrs phyadrs s' := by
  unfold vmaMapMsaFault at h
  rw [if_neg hv] at h
  obtain ⟨o, s₁, hnew, h⟩ := run_bind_inv h
  have hcases := s.hal.pgs.take_cases
  have hrun : (vmaNewUsermsa kmbox).run s = _ :=
    run_bind_ok (show (get : VmaM VmaSt).run s = .ok (s, s) from rfl)
  rcases htake : s.hal.pgs.take with ⟨o', pgs⟩
  rw [htake] at hcases hrun
  rw [hrun] at hnew
  rcases hcases with ⟨ho, hout⟩ | ⟨f, ho, hf, hout⟩
  · simp only at ho hout
    subst ho
    cases hnew
    cases h
    exact MapFault.nopage pgs hout
  · simp only at ho hout
    subst ho
    cases hnew
    obtain ⟨ok, s₂, htr, h⟩ := run_bind_inv h
    obtain ⟨hal, hmmu, hs₂⟩ := onMmu_inv htr
    subst hs₂
    cases ok with
    | true =>
        cases h
        exact MapFault.mapped f pgs hf hout hal hmmu
    | false =>
        obtain ⟨b, s₃, hdel, h⟩ := run_bind_inv h
        cases h
        exact MapFault.undone f pgs hf hout hal hmmu b s' hdel

theorem MapFault.pagesOnly {s s' : VmaSt} {kmbox vadrs phyadrs : Nat}
    (h : MapFault s kmbox vadrs phyadrs s') : PagesOnly s s' := by
  cases h with
  | nopage pgs hout => exact ⟨rfl, rfl, rfl, fun _ => rfl⟩
  | mapped f pgs hnew hout hal htr => exact ⟨rfl, rfl, rfl, cont_update s.box rfl⟩
  | undone f pgs hnew hout hal htr b s' hdel =>
      have hadd : PagesOnly s { s with
          hal := hal
          box := Function.update s.box kmbox ((s.box kmbox).addMsa f) } :=
        ⟨rfl, rfl, rfl, cont_update s.box rfl⟩
      exact hadd.trans (vmaDelUsermsa_pagesOnly hdel)

/-- The box of the region, or a box that becomes its box. -/
inductive RegionBox (s : VmaSt) (r : Kmvarsdsc) (kmbox : Nat) : VmaSt → Prop
  | there (hbox : r.kvaKvmbox = some kmbox) : RegionBox s r kmbox s
  | got (hbox : r.kvaKvmbox = none) (s₁ : VmaSt) (hgot : GotBox s kmbox s₁) :
      RegionBox s r kmbox { s₁ with
        vma := s₁.vma.write r fun r => { r with kvaKvmbox := some kmbox } }

theorem vmaMapRetnKvmemcbox_cases {s s' : VmaSt} {r : Kmvarsdsc} {kmbox : Nat}
    (h : (vmaMapRetnKvmemcbox r).run s = .ok (kmbox, s')) : RegionBox s r kmbox s' := by
  unfold vmaMapRetnKvmemcbox at h
  cases hbox : r.kvaKvmbox with
  | some c =>
      rw [hbox] at h
      cases h
      exact RegionBox.there hbox
  | none =>
      rw [hbox] at h
      obtain ⟨c, s₁, hget, h⟩ := run_bind_inv h
      cases h
      exact RegionBox.got hbox s₁ (knlGetKvmemcbox_gotBox hget)

/-- What `vma_map_fairvadrs` can do: nothing, or serve the fault in a region. -/
inductive Faired (s : VmaSt) (vadrs : Nat) : FairRet → VmaSt → Prop
  | refused (ret : FairRet) (hret : ret = .eparam ∨ ret = .efault) : Faired s vadrs ret s
  | served (r : Kmvarsdsc) (hr : r ∈ s.vma.vsList) (hlo : r.kvaStart ≤ vadrs)
      (hhi : vadrs < r.kvaEnd) (hmin : 0x1000 ≤ vadrs) (hmax : vadrs ≤ userVirtualAddressEnd)
      (kmbox : Nat) (s₁ : VmaSt) (hbox : RegionBox s r kmbox s₁) (phyadrs : Nat) (s₂ : VmaSt)
      (hmap : MapFault s₁ kmbox vadrs phyadrs s₂) (filled : PageFrame → Option Nat) :
      Faired s vadrs (if phyadrs = 0 then .enomem else .eok) { s₂ with filled := filled }

theorem vmaMapFindKmvarsdsc_holds {vma : Virmemadrs} {vadrs : Nat} {r : Kmvarsdsc}
    (h : vmaMapFindKmvarsdsc vma vadrs = some r) :
    r ∈ vma.vsList ∧ r.kvaStart ≤ vadrs ∧ vadrs < r.kvaEnd := by
  suffices hr : r ∈ vma.vsList ∧
      (decide (r.kvaStart ≤ vadrs) && decide (vadrs < r.kvaEnd)) = true from by
    have hd := Bool.and_eq_true_iff.mp hr.2
    exact ⟨hr.1, of_decide_eq_true hd.1, of_decide_eq_true hd.2⟩
  rcases Option.or_eq_some_iff.mp h with h | ⟨-, h⟩
  · obtain ⟨hc, hok⟩ := Option.filter_eq_some_iff.mp h
    exact ⟨mem_of_curr hc, hok⟩
  · have hok := List.find?_some h
    exact ⟨List.mem_of_find?_eq_some h, hok⟩

/-- Only the frame of the page is filled. -/
theorem vmaFullTextbin_filled {s s' : VmaSt} {r : Kmvarsdsc} {vadr : Nat}
    (h : (vmaFullTextbin r vadr).run s = .ok ((), s')) :
    ∃ filled, s' = { s with filled := filled } ∧
      ∀ g, mmuLookup s.hal vadr ≠ some g → filled g = s.filled g := by
  unfold vmaFullTextbin at h
  by_cases hty : r.kvaMaptype ≠ kmvBinType
  · rw [if_pos hty] at h
    cases h
    exact ⟨s.filled, rfl, fun _ _ => rfl⟩
  rw [if_neg hty] at h
  obtain ⟨_, _, h₁, h⟩ := run_bind_inv h
  cases h₁
  cases ht : s.msdThread with
  | none =>
      rw [ht] at h
      cases h
  | some file =>
      rw [ht] at h
      by_cases h0 : file.1 = 0 ∨ file.2 = 0
      · simp only [if_pos h0] at h
        cases h
      · simp only [if_neg h0] at h
        cases hl : mmuLookup s.hal vadr with
        | none =>
            simp only [hl] at h
            cases h
            rw [← ht]
            exact ⟨s.filled, rfl, fun _ _ => rfl⟩
        | some f =>
            simp only [hl] at h
            cases h
            refine ⟨_, rfl, fun g hg => Function.update_of_ne ?_ _ _⟩
            rintro rfl
            exact hg rfl

/-- **`vma_map_fairvadrs`**, step by step. -/
theorem vmaMapFairvadrs_inv {s s' : VmaSt} {vadrs : Nat} {ret : FairRet}
    (h : (vmaMapFairvadrs vadrs).run s = .ok (ret, s')) :
    ((vadrs < 0x1000 ∨ userVirtualAddressEnd < vadrs) ∧ ret = .eparam ∧ s' = s) ∨
    (vmaMapFindKmvarsdsc s.vma vadrs = none ∧ ret = .efault ∧ s' = s) ∨
    ∃ r kmbox s₁ phyadrs s₂ filled, (0x1000 ≤ vadrs ∧ vadrs ≤ userVirtualAddressEnd) ∧
      vmaMapFindKmvarsdsc s.vma vadrs = some r ∧
      (vmaMapRetnKvmemcbox r).run s = .ok (kmbox, s₁) ∧ MapFault s₁ kmbox vadrs phyadrs s₂ ∧
      ret = (if phyadrs = 0 then .enomem else .eok) ∧ s' = { s₂ with filled := filled } ∧
      ∀ g, mmuLookup s₂.hal vadrs ≠ some g → filled g = s₂.filled g := by
  unfold vmaMapFairvadrs at h
  by_cases hbad : vadrs < 0x1000 ∨ userVirtualAddressEnd < vadrs
  · rw [if_pos hbad] at h
    cases h
    exact Or.inl ⟨hbad, rfl, rfl⟩
  rw [if_neg hbad] at h
  obtain ⟨_, _, h₁, h⟩ := run_bind_inv h
  cases h₁
  cases hfind : vmaMapFindKmvarsdsc s.vma vadrs with
  | none =>
      simp only [hfind] at h
      cases h
      exact Or.inr (Or.inl ⟨rfl, rfl, rfl⟩)
  | some r =>
      simp only [hfind] at h
      obtain ⟨kmbox, s₁, hbox, h⟩ := run_bind_inv h
      obtain ⟨phyadrs, s₂, hmap, h⟩ := run_bind_inv h
      have hfault := vmaMapMsaFault_cases (by omega) hmap
      refine Or.inr (Or.inr ⟨r, kmbox, s₁, phyadrs, s₂, ?_⟩)
      by_cases h0 : phyadrs = 0
      · rw [if_pos h0] at h
        cases h
        exact ⟨s'.filled, by omega, rfl, hbox, hfault, (if_pos h0).symm, rfl, fun _ _ => rfl⟩
      · rw [if_neg h0] at h
        obtain ⟨_, s₃, hfill, h⟩ := run_bind_inv h
        cases h
        obtain ⟨filled, rfl, hfilled⟩ := vmaFullTextbin_filled hfill
        exact ⟨filled, by omega, rfl, hbox, hfault, (if_neg h0).symm, rfl, hfilled⟩

/-- What it can do. -/
theorem vmaMapFairvadrs_cases {s s' : VmaSt} {vadrs : Nat} {ret : FairRet}
    (h : (vmaMapFairvadrs vadrs).run s = .ok (ret, s')) : Faired s vadrs ret s' := by
  obtain ⟨-, rfl, rfl⟩ | ⟨-, rfl, rfl⟩ | ⟨r, kmbox, s₁, phyadrs, s₂, filled, hv, hfind, hbox,
    hmap, rfl, rfl, -⟩ := vmaMapFairvadrs_inv h
  · exact Faired.refused .eparam (Or.inl rfl)
  · exact Faired.refused .efault (Or.inr rfl)
  · obtain ⟨hr, hlo, hhi⟩ := vmaMapFindKmvarsdsc_holds hfind
    exact Faired.served r hr hlo hhi hv.1 hv.2 kmbox s₁ (vmaMapRetnKvmemcbox_cases hbox) phyadrs s₂
      hmap filled

end Calls

end Cosmos.Kernel
