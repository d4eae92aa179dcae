import Cosmos.Kernel.KrlvadrsmemList
import Mathlib.Algebra.BigOperators.Group.List.Basic

/-!
# Teardown of an address space

`del_mmadrsdsc` gives the page tables and the descriptor back, and nothing else: the
descriptors of the regions stay in use.  There always is a region, for the lengths of
the regions add up to one less than a multiple of the page size, whatever the calls
are: `run_spans`.  So a teardown never returns everything.
-/

namespace Cosmos.Kernel

open Cosmos.Lib Cosmos.Lib.Run Cosmos.Lib.StM Cosmos.Lib.Word64 Cosmos.Hal

/-- The lengths of the regions, added up. -/
def spans (l : List Kmvarsdsc) : Int := (l.map fun r => (r.kvaEnd : Int) - r.kvaStart).sum

section Spans

variable {l l' l₁ l₂ : List Kmvarsdsc} {r : Kmvarsdsc} {s s' : VmaSt} {start vassize : Nat}

theorem spans_cons (r : Kmvarsdsc) (l : List Kmvarsdsc) :
    spans (r :: l) = (r.kvaEnd : Int) - r.kvaStart + spans l := by
  unfold spans
  rw [List.map_cons, List.sum_cons]

/-- The regions of a new address space. -/
theorem spans_kmvarsdscOf (x y z a b c d e f u v w : Nat) :
    spans [kmvarsdscOf x a b u, kmvarsdscOf y c d v, kmvarsdscOf z e f w] =
      (b : Int) - a + ((d : Int) - c + ((f : Int) - e + 0)) := by
  rw [spans_cons, spans_cons, spans_cons]
  rfl

theorem spans_append (l l' : List Kmvarsdsc) : spans (l ++ l') = spans l + spans l' := by
  unfold spans
  rw [List.map_append, List.sum_append]

theorem spans_perm (h : l.Perm l') : spans l = spans l' :=
  (h.map _).sum_eq

/-- Sums of words are exact as far as the offset in a page goes. -/
theorem add64_mod (a b : Nat) (hb : b % 0x1000 = 0) : add64 a b % 0x1000 = a % 0x1000 := by
  unfold add64 wordMod
  omega

theorem Alloced.spans_mod {vma vma' : Virmemadrs} {kms kms' : Supply Nat}
    {vaslimits vastype ret : Nat}
    (h : Alloced vma kms start vassize vaslimits vastype ret vma' kms')
    (hnd : (vma.vsList.map Kmvarsdsc.adr).Nodup) (hsz : vassize % 0x1000 = 0) :
    spans vma'.vsList % 0x1000 = spans vma.vsList % 0x1000 := by
  cases h with
  | refused kms' hout => rfl
  | grown r hfits hstart hlike =>
      have hold := spans_perm (Chain.del_perm hnd hfits.mem)
      have hnew := spans_perm (Chain.upd_perm
        (fun r => { r with kvaEnd := add64 r.kvaEnd vassize }) hnd hfits.mem)
      rw [spans_cons] at hold hnew
      have hmod := add64_mod r.kvaEnd vassize hsz
      show spans (Chain.upd _ _ _ _) % _ = _
      rw [hold, hnew]
      show ((add64 r.kvaEnd vassize : Nat) - (r.kvaStart : Int) + _) % _ = _
      omega
  | added r hfits a kms' hnew hout lo hlo =>
      have hadd := spans_perm (Chain.add_perm
        (x := newRegion a ret vassize vaslimits vastype) hnd hfits.mem)
      rw [spans_cons] at hadd
      have hmod := add64_mod ret vassize hsz
      have hend : (newRegion a ret vassize vaslimits vastype).kvaEnd = add64 ret vassize := rfl
      have hbegin : (newRegion a ret vassize vaslimits vastype).kvaStart = ret := rfl
      show spans (Chain.add _ _ _ _) % _ = _
      omega

theorem Freed.spans_mod {b : Bool} (h : Freed s start vassize b s')
    (hnd : (s.vma.vsList.map Kmvarsdsc.adr).Nodup) (hsz : vassize % 0x1000 = 0) :
    spans s'.vma.vsList % 0x1000 = spans s.vma.vsList % 0x1000 := by
  obtain ⟨-, ⟨-, hvma⟩ | ⟨-, r, l₁, l₂, a, hr, hl, hl'⟩⟩ := h.regions hnd
  · rw [hvma]
  have hlo := hr.lo
  have hhi := hr.hi
  have hmod := add64_mod start vassize hsz
  -- front and back of the region, each with its length or nothing
  have hrest : spans (r.rest start (add64 start vassize) a) % 0x1000 =
      ((r.kvaEnd : Int) - r.kvaStart) % 0x1000 := by
    unfold Kmvarsdsc.rest
    rw [spans_append]
    by_cases h₁ : r.kvaStart < start <;> by_cases h₂ : add64 start vassize < r.kvaEnd <;>
      simp only [h₁, h₂, if_true, if_false, spans_cons] <;> simp only [spans,
        List.map_nil, List.sum_nil] <;> omega
  rw [hl, hl', spans_append, spans_append, spans_append, spans_cons]
  omega

theorem Faired.spans_eq {vadrs : Nat} {ret : FairRet} (h : Faired s vadrs ret s') :
    spans s'.vma.vsList = spans s.vma.vsList := by
  have hmap := congrArg (List.map fun q : Nat × Nat × Nat × Nat => (q.2.1 : Int) - q.1) h.regions.2
  rw [List.map_map, List.map_map] at hmap
  exact congrArg List.sum hmap

end Spans

section Teardown

variable {pml4 : Nat → Nat} {k s₀ s : VmaSt} {mm : Nat}

/-- The objects, and the lengths of the regions. -/
theorem run_spans (h : Made pml4 k mm s₀) (hk : BoxesLive k) (ops : List VmaOp)
    (hrun : run vmaStep ops s₀ = .ok s) :
    ∃ base mine, mm ∈ base ∧ k.kms.out.length + 1 = k.mgr.kbmCachehead.length + base.length ∧
      Objs k.mgr.kbmKmbhead base s mine ∧ spans s.vma.vsList % 0x1000 = 0xfff := by
  obtain ⟨base, hmm, hlen, hobjs⟩ := h.objs hk
  have hinv := run_inv (fun s => (∃ mine, Objs k.mgr.kbmKmbhead base s mine) ∧
    spans s.vma.vsList % 0x1000 = 0xfff) (fun s op s' hs hstep => ?_) ops s₀ s
    ⟨⟨[], hobjs⟩, ?_⟩ hrun
  · obtain ⟨⟨mine, hm⟩, hsp⟩ := hinv
    exact ⟨base, mine, hmm, hlen, hm, hsp⟩
  · obtain ⟨⟨mine, hm⟩, hsp⟩ := hs
    refine ⟨vmaStep_objs ⟨mine, hm⟩ hstep, ?_⟩
    have hmove := vmaStep_move hstep
    cases op with
    | new start vassize vaslimits vastype =>
        obtain ⟨ret, vma, kms, ha, -, rfl⟩ := hmove
        rw [ha.spans_mod hm.adr_nodup (vadszAlign_mod vassize)]
        exact hsp
    | del start vassize =>
        obtain ⟨b, hf⟩ := hmove
        rw [hf.spans_mod hm.adr_nodup (vadszAlign_mod vassize)]
        exact hsp
    | fair vadrs =>
        obtain ⟨ret, hf⟩ := hmove
        rw [hf.spans_eq]
        exact hsp
  · obtain ⟨x, y, z, hal, kms, rfl, -⟩ := h.start
    show spans (virmemadrsInit.initUser x y z).vsList % 0x1000 = 0xfff
    rw [initUser_vsList, spans_kmvarsdscOf]
    decide

/-- **There always is a region.** -/
theorem vsList_ne_nil (h : Made pml4 k mm s₀) (hk : BoxesLive k) (ops : List VmaOp)
    (hrun : run vmaStep ops s₀ = .ok s) : s.vma.vsList ≠ [] := by
  obtain ⟨-, -, -, -, -, hsp⟩ := run_spans h hk ops hrun
  intro hnil
  rw [hnil] at hsp
  exact absurd hsp (by decide)

/-- `del_mmadrsdsc` has returned `b` and led to `s'`, and everything has gone back that
was taken since `k`: pages, and kernel objects apart from the boxes in the cache. -/
structure TornDown (k : VmaSt) (b : Bool) (s' : VmaSt) : Prop where
  ret : b = true
  pages : s'.hal.pgs.out.length = k.hal.pgs.out.length
  objs : s'.kms.out.length + k.mgr.kbmCachehead.length =
    k.kms.out.length + s'.mgr.kbmCachehead.length

theorem delMmadrsdsc_kms {cr3 : PageFrame} {s' : VmaSt}
    (h : (delMmadrsdsc mm cr3).run s = .ok (true, s')) :
    s'.kms = giveObj s.kms mm ∧ s'.mgr = s.mgr := by
  obtain ⟨ok, s₁, hclean, h⟩ := run_bind_inv h
  obtain ⟨hal, -, rfl⟩ := onMmu_inv hclean
  cases ok with
  | false => cases h
  | true =>
      obtain ⟨_, _, h₁, h⟩ := run_bind_inv h
      cases h₁
      obtain ⟨_, _, h₁, h⟩ := run_bind_inv h
      cases h₁
      have hs : _ = s' := congrArg Prod.snd (Except.ok.inj h)
      subst hs
      exact ⟨rfl, rfl⟩

/-- **A teardown never returns everything**: the regions stay. -/
theorem not_tornDown (h : Made pml4 k mm s₀) (hk : BoxesLive k) (ops : List VmaOp)
    (hrun : run vmaStep ops s₀ = .ok s) (cr3 : PageFrame) :
    ¬ ∃ b s', (delMmadrsdsc mm cr3).run s = .ok (b, s') ∧ TornDown k b s' := by
  rintro ⟨b, s', hdel, hdown⟩
  have hret := hdown.ret
  subst hret
  obtain ⟨base, mine, hmm, hlen, hobjs, -⟩ := run_spans h hk ops hrun
  have hne := List.length_pos_iff.mpr (vsList_ne_nil h hk ops hrun)
  obtain ⟨hkms, hmgr⟩ := delMmadrsdsc_kms hdel
  have hmem : mm ∈ s.kms.out := hobjs.out.mem_iff.mpr (by simp [hmm])
  have hgone := List.length_erase_of_mem hmem
  have hpos := List.length_pos_of_mem hmem
  have hout := hobjs.out.length_eq
  have hobj := hdown.objs
  rw [hkms, giveObj_out hmem, hmgr] at hobj
  simp only [List.length_append, List.length_map] at hout
  omega

theorem not_tornDown_splitRegion : ∃ s : VmaSt, s.vma.vsList.length = 5 ∧
    ¬ ∃ b s', (delMmadrsdsc 0x10000 ⟨0xfff, by decide, by decide⟩).run s = .ok (b, s') ∧
      TornDown freshVma b s' := by
  obtain ⟨s₀, hmade, hq⟩ := exists_made (q := fun s => okAnd (run vmaStep splitRegion s)
    fun t => t.vma.vsList.length = 5) (by decide +kernel)
  obtain ⟨s, hrun, hs⟩ := exists_of_okAnd hq
  exact ⟨s, of_decide_eq_true hs, not_tornDown hmade freshVma_boxesLive splitRegion hrun _⟩

/-- Torn down at once, an address space leaves its three regions behind. -/
theorem tornDown_not_all : ¬ ∀ (k s₀ s : VmaSt) (mm : Nat) (ops : List VmaOp) (cr3 : PageFrame),
    Made (copyPagesData 0) k mm s₀ → BoxesLive k → run vmaStep ops s₀ = .ok s →
      s.hal.mmu.mudTdirearr ≠ some cr3 →
      ∃ b s', (delMmadrsdsc mm cr3).run s = .ok (b, s') ∧ TornDown k b s' := by
  intro hall
  obtain ⟨s₀, hmade, hq⟩ := exists_made (q := fun s =>
    decide (s.hal.mmu.mudTdirearr ≠ some ⟨0xfff, by decide, by decide⟩) &&
      okAnd ((delMmadrsdsc 0x10000 ⟨0xfff, by decide, by decide⟩).run s) fun r =>
        r.1 && r.2.kms.out.length = 3 && r.2.mgr.kbmCachehead.length = 0) (by decide +kernel)
  rw [Bool.and_eq_true] at hq
  obtain ⟨⟨b, s'⟩, hdel, hs⟩ := exists_of_okAnd hq.2
  obtain ⟨b', s'', hdel', hdown⟩ := hall freshVma s₀ s₀ _ [] _ hmade freshVma_boxesLive rfl
    (of_decide_eq_true hq.1)
  rw [hdel] at hdel'
  cases hdel'
  simp only [Bool.and_eq_true, decide_eq_true_eq] at hs
  have hobj := hdown.objs
  rw [hs.1.2, hs.2] at hobj
  exact absurd hobj (by decide)

end Teardown

end Cosmos.Kernel
