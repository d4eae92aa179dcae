import Mathlib.Data.Nat.Log
import Cosmos.Hal.MemdivmerRestore

/-!
# What a request gets, and what a free gives

The order of a request is the base-2 logarithm of its page count, rounded up, for every
count; the test of the page counters in `scan_mapgsalloc_ok` never refuses what the lists
could serve.  So the lists alone say what a request gets.  A free may take blocks off several
lists, but the block that it files is at least as large as each of them.

## Main results

* `division_exact` : when a request succeeds, the block it gets, and the lists after it.
* `free_never_hurts` : after a free every request that would have succeeded does, and so does
  one for the size of the freed block.
-/

namespace Cosmos.Hal

open Cosmos.Lib.Cover Cosmos.Lib.Pool Cosmos.Lib.Run

/-- The block that is returned, `none` for `NULL`. -/
def PageRes.msa (r : PageRes) : Option Nat := r.2.map Prod.fst

/-- `*retrealpnr` after a call of `mm_division_pages` for `mrtype`, when it was `old` before. -/
def PageRes.realpnr (r : PageRes) (mrtype old : Nat) : Nat :=
  -- for no type of memory it returns before it stores a count
  (r.2.map Prod.snd).getD (if mrtype = 0 then old else 0)

/-- The lists of area `a` for blocks of at least `n` pages are not all empty. -/
def HasBlock (mm : Memgrob) (a n : Nat) : Prop :=
  ∃ k, Nat.clog 2 n ≤ k ∧ k < mdivmerArrLmax ∧ mm.mem.free (.lie a k) ≠ []

/-- **What a request for `n` pages in area `a` gets.** -/
structure DivisionExact (mm : Memgrob) (a n : Nat) (r : PageRes) : Prop where
  /-- when it succeeds -/
  succeeds : r.msa.isSome ↔ 1 ≤ n ∧ HasBlock mm a n
  /-- the first pages of the front block of the lowest list; the rest of the block goes onto
  the lists below, one piece onto each, and no other list changes -/
  granted : ∀ s, r.msa = some s → (∀ old, r.realpnr (areaTy a).code old = 2 ^ Nat.clog 2 n) ∧
    ∃ d l, Nat.clog 2 n ≤ d ∧ d < mdivmerArrLmax ∧
      (∀ j, Nat.clog 2 n ≤ j → j < d → mm.mem.free (.lie a j) = []) ∧
      mm.mem.free (.lie a d) = s :: l ∧ r.1.mem.free (.lie a d) = l ∧
      (∀ i, Nat.clog 2 n ≤ i → i < d →
        r.1.mem.free (.lie a i) = (s + 2 ^ i) :: mm.mem.free (.lie a i)) ∧
      ∀ q, (∀ i, Nat.clog 2 n ≤ i → i ≤ d → q ≠ .lie a i) → r.1.mem.free q = mm.mem.free q
  /-- nothing changes if it fails -/
  refused : r.msa = none → (∀ old, r.realpnr (areaTy a).code old = 0) ∧ r.1 = mm

/-! ## The order of a request -/

/-- **`retn_divoder`** is the logarithm rounded up. -/
theorem retnDivoder_eq_clog {pages : Nat} (h : 1 ≤ pages) : retnDivoder pages = Nat.clog 2 pages := by
  refine Nat.le_antisymm ?_ ((Nat.clog_le_iff_le_pow (by decide)).mpr (le_two_pow_retnDivoder h))
  have hne : pages ≠ 0 := by omega
  by_cases hand : pages &&& (pages - 1) = 0
  · obtain ⟨k, rfl⟩ := (Nat.and_sub_one_eq_zero_iff_isPowerOfTwo hne).mp hand
    rw [retnDivoder_two_pow, Nat.clog_pow 2 k (by decide)]
  · -- the count lies between two powers of two, and is not the lower one
    have hlog : 2 ^ Nat.log2 pages < pages := by
      refine Nat.lt_of_le_of_ne (Nat.log2_self_le hne) fun he => hand ?_
      exact (Nat.and_sub_one_eq_zero_iff_isPowerOfTwo hne).mpr ⟨_, he.symm⟩
    have hord : retnDivoder pages = Nat.log2 pages + 1 := by
      unfold retnDivoder search64rlbits
      simp [hne, hand]
    rw [hord]
    by_contra hlt
    have hle : Nat.clog 2 pages ≤ Nat.log2 pages := by omega
    have := (Nat.clog_le_iff_le_pow (by decide)).mp hle
    omega

/-! ## Requests -/

section Exact

variable {mm : Memgrob} {out : List Seg} {a : Nat}

/-- A request for one page or more is granted if there is a block for it. -/
theorem grants_iff_hasBlock (h : MmInv mm out) (ha : a < 2) (pages : Nat) :
    grants mm pages a = true ↔ 1 ≤ pages ∧ HasBlock mm a pages := by
  rw [grants_iff h ha]
  apply and_congr_right
  intro hpages
  rw [retnDivoder_eq_clog hpages]
  rfl

/-- **A request** in a state that meets the invariant. -/
theorem mmDivisionPages_exact (h : MmInv mm out) (ha : a < 2) (pages : Nat) :
    ∃ r, mmDivisionPages mm pages (areaTy a).code dmfReldiv = .ok r ∧
      DivisionExact mm a pages r := by
  have hgrants := grants_iff_hasBlock h ha pages
  unfold grants at hgrants
  rw [mmDivisionPages_reldiv h ha] at hgrants ⊢
  rcases mmReldivpagesOnmarea_spec h.mem ha pages with
    ⟨hnone, -⟩ | ⟨hpages, x', s, d, hsome, ht⟩
  · rw [hnone] at hgrants ⊢
    have hcode : (areaTy a).code ≠ 0 := by
      obtain rfl | rfl : a = 0 ∨ a = 1 := by omega
      · decide
      · decide
    exact ⟨_, rfl, hgrants, fun s hs => (by cases hs), fun _ => ⟨fun old => if_neg hcode, rfl⟩⟩
  · rw [hsome] at hgrants ⊢
    simp only [countDiv_some] at hgrants ⊢
    rw [retnDivoder_eq_clog hpages] at ht hgrants ⊢
    refine ⟨_, rfl, hgrants, fun s' hs => ?_, fun hs => (by cases hs)⟩
    cases hs
    obtain ⟨hle, hlow⟩ := ht.low a d rfl
    obtain ⟨l, hl⟩ := ht.head
    have hfree : ∀ q, ({ mm with mem := x' }.updatePages a (2 ^ Nat.clog 2 pages) 0).mem.free q =
        (takeLists (.lie a d) (Nat.clog 2 pages) s mm.mem.bafh q).afFrelst := by
      intro q
      rw [updatePages_free, Mem.free]
      show (x'.bafh q).afFrelst = _
      rw [ht.bafh]
    refine ⟨fun old => rfl, d, l, hle, ht.used.2, hlow, hl, ?_, fun i h1 h2 => ?_, fun q hq => ?_⟩
    · rw [hfree, takeLists_at, delObj_afFrelst]
      show (mm.mem.free (.lie a d)).erase s = l
      rw [hl, List.erase_cons_head]
    · rw [hfree, takeLists_below h1 h2, addObj_afFrelst]
      rfl
    · rw [hfree, takeLists_other (hq d hle (Nat.le_refl d))]
      · rfl
      · rintro b k j hb rfl ⟨h1, h2⟩
        cases hb
        exact hq j h1 (Nat.le_of_lt h2) rfl

/-! ## Frees -/

/-- **A free** leaves a block at least as large on a list where it takes one off. -/
theorem mmMergePages_hasBlock (h : MmInv mm out) {b : Seg} (hb : b ∈ out) :
    ∃ mm', mmMergePages mm b.start b.len = .ok (mm', true) ∧ MmInv mm' (out.erase b) ∧
      (∀ a < 2, ∀ n, HasBlock mm a n → HasBlock mm' a n) ∧
      ∀ a < 2, (mm.mem.msadscstat b.start).mfMarty = areaTy a → HasBlock mm' a b.len := by
  obtain ⟨mm', hrun, hinv, -⟩ := mmMergePages_accept h hb
  refine ⟨mm', hrun, hinv, ?_⟩
  obtain ⟨p, hp, hlen, hblk⟩ := h.outs b hb
  have hpos := (h.outs b hb).len_pos
  have hty : (mm.mem.msadscstat b.start).mfMarty = areaTy p.area := (hblk.shape 0 hpos).1
  have harea : ∀ a < 2, (mm.mem.msadscstat b.start).mfMarty = areaTy a → p.area = a := by
    intro a ha hm
    have hmax : memareaMax = 4 := rfl
    exact areaTy_inj hp.area_lt (by omega) (hty.symm.trans hm)
  obtain ⟨htake, hfree⟩ := h.takeBack hb hlen hblk
  cases p with
  | one c =>
      obtain rfl : c = 2 := hp
      rw [mmMergePages_one h hb hlen hblk rfl] at hrun
      cases hrun
      refine ⟨fun a ha n ⟨k, h1, h2, hne⟩ => ⟨k, h1, h2, ?_⟩, fun a ha hm => ?_⟩
      · rw [updatePages_free, setBafh_free, Function.update_of_ne (by simp), withMsa_free]
        exact hne
      · have hca : 2 = a := harea a ha hm
        omega
  | lie c k =>
      have hin : InHand c k b.start mm.moMsanr (out.erase b)
          (mm.mem.withMsa (giveMsa mm.mem.msadscstat (.lie c k) b.start
            (b.start + (b.len - 1)))) := ⟨htake, hfree⟩
      obtain ⟨x', hmerge, -, -, k', hle, hk', hfiled, hlists⟩ :=
        mmMerpagesOnbafhlst_spec hp.1 hp.2 hin
      rw [mmMergePages_lie h hb hp.1 hp.2 hlen hblk hmerge] at hrun
      cases hrun
      refine ⟨fun a ha n ⟨j, h1, h2, hne⟩ => ?_, fun a ha hm => ?_⟩
      · -- a list that has lost its block lies below the one that has got the new one
        by_cases hj : BafhPtr.lie a j = .lie c j ∧ k ≤ j ∧ j ≤ k'
        · obtain ⟨hc, hjk, hjk'⟩ := hj
          cases hc
          exact ⟨k', by omega, hk', by rw [updatePages_free]; exact hfiled⟩
        · refine ⟨j, h1, h2, ?_⟩
          rw [updatePages_free, hlists, withMsa_free]
          · exact hne
          · rintro i hi hi' he
            cases he
            exact hj ⟨rfl, hi, hi'⟩
      · obtain rfl : c = a := harea a ha hm
        refine ⟨k', ?_, hk', by rw [updatePages_free]; exact hfiled⟩
        rw [hlen]
        show Nat.clog 2 (2 ^ k) ≤ k'
        rw [Nat.clog_pow 2 k (by decide)]
        exact hle

end Exact

/-! ## Every run -/

section Reached

variable {b : BootArray} {st : MmState} {a : Nat}

/-- **Exactly what a request gets**, in every state that calls lead to from boot, for the
hardware and the kernel area. -/
theorem division_exact (h : b.Reaches st) (ha : a < 2) (n : Nat) :
    ∃ r, mmDivisionPages st.mm n (areaTy a).code dmfReldiv = .ok r ∧
      DivisionExact st.mm a n r :=
  mmDivisionPages_exact h.inv.1 ha n

/-- One page of `fourPages` is handed out, and a request for two gets the other half. -/
theorem division_exact_fourPages : ∃ (st : MmState) (r : PageRes), st.out = [⟨1, 1⟩] ∧
    mmDivisionPages st.mm 2 MaType.krnl.code dmfReldiv = .ok r ∧ DivisionExact st.mm 1 2 r := by
  obtain ⟨st, hreach, hout⟩ := fourPages_reaches
  obtain ⟨r, hrun, hexact⟩ := division_exact (a := 1) hreach (by decide) 2
  exact ⟨st, r, hout, hrun, hexact⟩

/-- **A free never hurts**: each request of the hardware and the kernel area that would be
granted before is granted after, and so is one for the size of the freed block in its area. -/
theorem free_never_hurts (h : b.Reaches st) {s n : Nat} (hout : Seg.mk s n ∈ st.out) :
    ∃ mm', mmMergePages st.mm s n = .ok (mm', true) ∧
      (∀ a < 2, ∀ pages, grants st.mm pages a = true → grants mm' pages a = true) ∧
      ∀ a < 2, (st.mm.mem.msadscstat s).mfMarty = areaTy a → grants mm' n a = true := by
  obtain ⟨hinv, -⟩ := h.inv
  obtain ⟨mm', hrun, hinv', hkeep, hown⟩ := mmMergePages_hasBlock hinv hout
  refine ⟨mm', hrun, fun a ha pages hg => ?_, fun a ha hm => ?_⟩
  · obtain ⟨hpages, hblock⟩ := (grants_iff_hasBlock hinv ha pages).mp hg
    exact (grants_iff_hasBlock hinv' ha pages).mpr ⟨hpages, hkeep a ha pages hblock⟩
  · exact (grants_iff_hasBlock hinv' ha n).mpr ⟨(hinv.outs _ hout).len_pos, hown a ha hm⟩

/-- The page of `fourPages` that is handed out goes back. -/
theorem free_never_hurts_fourPages : ∃ (st : MmState) (mm' : Memgrob), st.out = [⟨1, 1⟩] ∧
    mmMergePages st.mm 1 1 = .ok (mm', true) ∧
      ∀ a < 2, ∀ pages, grants st.mm pages a = true → grants mm' pages a = true := by
  obtain ⟨st, hreach, hout⟩ := fourPages_reaches
  obtain ⟨mm', hrun, hkeep, -⟩ := free_never_hurts hreach (s := 1) (n := 1)
    (hout ▸ List.mem_cons_self)
  exact ⟨st, mm', hout, hrun, hkeep⟩

end Reached

end Cosmos.Hal
