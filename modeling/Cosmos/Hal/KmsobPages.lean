import Cosmos.Hal.KmsobObjs

/-!
# Pages of the object allocator

The pages that the pools hold, as the pools count them: those of the first block, and those of
the blocks in each bucket.  With the free pages of the page allocator they are always as many
as at the start.  A pool goes with its last object, so without objects there is nothing left.

## Main results

* `objPages_kept` : no call fails, and pages are neither lost nor found.
-/

namespace Cosmos.Hal

open Cosmos.Lib.Word64 Cosmos.Lib.Cover Cosmos.Lib.Slab Cosmos.Lib.Run

/-- The pages of a pool, as `so_mc` counts them. -/
def Msomdc.pages (mc : Msomdc) : Nat :=
  mc.mcKmobinpnr + ((List.range msclstMax).map fun j => (mc.mcLst j).mlMsanr * 2 ^ j).sum

/-- The pages of all pools. -/
def Kmem.pages (m : Kmem) : Nat :=
  ((List.range koblstMax).map fun c =>
    ((m.mgr.ksMsoblst c).olEmplst.map fun kmsp => (m.kmsob kmsp).soMc.pages).sum).sum

/-- There is no pool, and no page is held. -/
structure Kmem.NoPools (m : Kmem) : Prop where
  msobnr : m.mgr.ksMsobnr = 0
  koblst : ∀ c < koblstMax, (m.mgr.ksMsoblst c).olEmplst = [] ∧ (m.mgr.ksMsoblst c).olEmnr = 0
  pages : m.pages = 0

/-- **Pages are kept** from `s` to `t`, and objects in use can be given back. -/
structure PagesHeld (s t : KmState) : Prop where
  taken : t.mem.mm.moFreepages + t.mem.pages = s.mem.mm.moFreepages
  deletes : ∀ fadrs fsz, 1 ≤ fsz → fadrs ∈ liveOf (classOf fsz) t.live →
    ∃ m', kmsobDelete t.mem fadrs fsz = .ok (m', true)
  back : t.live = [] → t.mem.NoPools ∧ t.mem.mm.moFreepages = s.mem.mm.moFreepages

section Pages

variable {b : BootArray} {m : Kmem} {others : List Seg} {live : List (Nat × Nat)}
  {lay : Nat → Option Lay} {c : Nat} {y : Lay} {k : Kmsob}

/-! ## Counting -/

theorem outLen_append (l l' : List Seg) : outLen (l ++ l') = outLen l + outLen l' := by
  unfold outLen
  rw [List.map_append, List.sum_append]

theorem outLen_flatMap {α : Type} (f : α → List Seg) (l : List α) :
    outLen (l.flatMap f) = (l.map fun x => outLen (f x)).sum := by
  induction l with
  | nil => rfl
  | cons x l ih => rw [List.flatMap_cons, outLen_append, ih, List.map_cons, List.sum_cons]

/-- A pool holds the pages that it counts. -/
theorem PoolOk.pages_eq {used : List Nat} (h : PoolOk b c y k used) :
    k.soMc.pages = outLen (y.blocks c) := by
  have hrange : List.range msclstMax = [0, 1, 2, 3, 4] := rfl
  have hblocks : outLen (y.blocks c) = classPages c + y.exts.length * classPages c := by
    unfold outLen Lay.blocks
    rw [List.map_cons, List.map_cons, List.sum_cons, List.map_map]
    show classPages c + (y.exts.map fun _ => classPages c).sum = _
    rw [List.map_const', List.sum_replicate_nat]
  rw [hblocks]
  unfold Msomdc.pages
  rw [h.kmobinpnr, hrange]
  simp only [h.lst, List.map_cons, List.map_nil, List.sum_cons, List.sum_nil]
  rcases classPages_cases c with hp | hp | hp
  · simp [hp, msclstInit]
  · simp [hp, msclstInit]
  · simp [hp, msclstInit]

theorem KmOk.pages_eq (h : KmOk b m others live lay) : m.pages = outLen (poolBlocks lay) := by
  unfold Kmem.pages poolBlocks
  rw [outLen_flatMap]
  congr 1
  refine List.map_congr_left fun c hc => ?_
  have hc := List.mem_range.mp hc
  cases hy : lay c with
  | none =>
      rw [(h.empty hc hy).1]
      rfl
  | some y =>
      rw [(h.pooled hc hy).emplst, List.map_singleton, List.sum_singleton]
      exact (h.pooled hc hy).pool.pages_eq

/-- Free pages, the pages of the pools and those of others are the pages that were free at
boot. -/
theorem KmOk.pages_sum (h : KmOk b m others live lay) :
    m.mm.moFreepages + m.pages + outLen others =
      ((Finset.range b.msanr).filter fun i => b.occupied i = false).card := by
  rw [h.pages_eq, ← h.mm.moFree_add_outLen_boot h.same, outLen_append, Nat.add_assoc]

/-! ## Without objects -/

/-- Without objects in use there is no pool. -/
theorem KmInv.noPools (h : KmInv b m others [] lay) : m.NoPools := by
  have hnone : ∀ c < koblstMax, lay c = none := by
    intro c hc
    cases hy : lay c with
    | none => rfl
    | some y => exact absurd rfl (h.used c hc y hy)
  refine ⟨?_, fun c hc => ?_, ?_⟩
  · rw [h.msobnr]
    refine List.countP_eq_zero.mpr fun c hc => ?_
    rw [hnone c (List.mem_range.mp hc)]
    exact Bool.false_ne_true
  · rw [(h.empty hc (hnone c hc)).1]
    exact ⟨rfl, rfl⟩
  · rw [h.pages_eq]
    have hnil : poolBlocks lay = [] := List.flatMap_eq_nil_iff.mpr fun c hc => by
      rw [hnone c (List.mem_range.mp hc)]
      rfl
    rw [hnil]
    rfl

/-! ## Runs -/

/-- **One request** gets through, and other users of the page allocator do not notice. -/
theorem kmStep_objCall {st : KmState} {op : KmOp} (h : st.Inv b) (hop : ObjCall st op) :
    ∃ st', kmStep st op = .ok st' ∧ st'.Inv b ∧ st'.others = st.others := by
  obtain ⟨lay, hinv⟩ := h
  cases op with
  | new msz =>
      simp only [kmStep]
      by_cases hsz : msz < 1 ∨ 2048 < msz
      · have hnone : kmsobNew st.mem msz = .ok (st.mem, none) := if_pos hsz
        rw [hnone]
        exact ⟨_, rfl, ⟨lay, hinv⟩, rfl⟩
      · rcases kmsobNew_spec hinv (show 1 ≤ msz by omega) (show msz ≤ 2048 by omega) with
          hnone | ⟨m', x, lay', hsome, hinv', -⟩
        · rw [hnone]
          exact ⟨_, rfl, ⟨lay, hinv⟩, rfl⟩
        · rw [hsome]
          exact ⟨_, rfl, ⟨lay', hinv'⟩, rfl⟩
  | delete fadrs fsz =>
      obtain ⟨hpos, hlive⟩ := hop.2 fadrs fsz rfl
      have hle := hinv.fsz_le hlive
      obtain ⟨m', lay', hyes, hinv', -⟩ := kmsobDelete_live hinv hpos hle hlive
      simp only [kmStep]
      rw [hyes]
      exact ⟨_, rfl, ⟨lay', hinv'⟩, rfl⟩
  | pages op => exact absurd rfl (hop.1 op)

end Pages

/-- **Pages are kept** by requests for objects and objects in use that come back, in any order
and also when the page allocator has no pages: every call returns, the pages taken from the
page allocator are those of the pools, and without objects all of them are free again. -/
theorem objPages_kept {b : BootArray} {s : KmState} {ops : List KmOp} (hs : s.Start b)
    (hall : AllSteps kmStep ObjCall ops s) : ∃ t, run kmStep ops s = .ok t ∧ PagesHeld s t := by
  have hsame : s.Inv b ∧ s.others = s.others := ⟨hs.inv, rfl⟩
  have hstep : ∀ st op, (st.Inv b ∧ st.others = s.others) → ObjCall st op →
      ∃ st', kmStep st op = .ok st' ∧ st'.Inv b ∧ st'.others = s.others := by
    rintro st op ⟨hinv, hothers⟩ hop
    obtain ⟨st', hrun, hinv', hothers'⟩ := kmStep_objCall hinv hop
    exact ⟨st', hrun, hinv', hothers'.trans hothers⟩
  obtain ⟨⟨t, hrun⟩, -⟩ := run_total_of_allSteps (fun st => st.Inv b ∧ st.others = s.others)
    ObjCall (fun _ _ => True) (fun st op hst hop => ⟨trivial, hstep st op hst hop⟩) ops s hsame hall
  obtain ⟨⟨lay, hinv⟩, hothers⟩ := run_inv_of_allSteps
    (fun st => st.Inv b ∧ st.others = s.others) ObjCall (fun st op st' hst hop hrun => by
      obtain ⟨u, hu, hinv⟩ := hstep st op hst hop
      rw [hrun] at hu
      cases hu
      exact hinv) ops s t hsame hall hrun
  obtain ⟨lay₀, hinv₀⟩ := hs.inv
  have hstart := hinv₀.pages_sum
  rw [hs.live] at hinv₀
  have htaken : t.mem.mm.moFreepages + t.mem.pages = s.mem.mm.moFreepages := by
    have hend := hinv.pages_sum
    rw [hothers] at hend
    rw [hinv₀.noPools.pages] at hstart
    omega
  refine ⟨t, hrun, htaken, fun fadrs fsz hpos hlive => ?_, fun hnil => ?_⟩
  · obtain ⟨m', -, hdel, -⟩ := kmsobDelete_live hinv hpos (hinv.fsz_le hlive) hlive
    exact ⟨m', hdel⟩
  · rw [hnil] at hinv
    have hno := hinv.noPools
    rw [hno.pages] at htaken
    exact ⟨hno, htaken⟩

/-- The two objects of `twoObjs` come back. -/
def backObjs : List KmOp := twoObjs ++ [.delete 0xffff800002000fd0 17]

theorem objPages_kept_backObjs : ∃ s t, s.Start fourPages ∧ run kmStep backObjs s = .ok t ∧
    t.live = [] ∧ PagesHeld s t := by
  obtain ⟨s, t, hs, hall, hrun, hq⟩ := kmTest_run objCallFits_objCall fourPages backObjs
    (fun t => t.live = []) (by decide +kernel)
  obtain ⟨t', hrun', hheld⟩ := objPages_kept hs hall
  rw [hrun] at hrun'
  cases hrun'
  exact ⟨s, t, hs, hrun, of_decide_eq_true hq, hheld⟩

end Cosmos.Hal
