import Cosmos.Hal.MemdivmerOwn

/-!
# What freeing everything restores

A free that gives back the block allocated last undoes the allocation: the
merge joins exactly the halves the division cut off, so lists, descriptors and
counters are as before (`mmMergePages_undo`).  Frees in another order pair other
neighbours.  They restore the page counts, but of the free lists only what the
absence of joinable neighbours says (`freed_all_restores`), and a counterexample
on four pages shows that there is no more.
-/

namespace Cosmos.Hal

open Cosmos.Lib.Word64 Cosmos.Lib.Cover Cosmos.Lib.Pool Cosmos.Lib.Run

/-! ## Inverse moves -/

/-- Unlinking what was just filed. -/
theorem delObj_addObj {b : Bafhlst} (hf : b.afFobjnr < wordMod) (hm : b.afMobjnr < wordMod)
    (s : Nat) : (b.addObj s).delObj s = b := by
  have hone : 1 < wordMod := by decide
  unfold Bafhlst.addObj Bafhlst.delObj
  rw [List.erase_cons_head, sub64_add64 hf hone, sub64_add64 hm hone]

/-- Filing again what was just unlinked from the head. -/
theorem addObj_delObj {b : Bafhlst} {s : Nat} {l : List Nat} (hl : b.afFrelst = s :: l)
    (hf : b.afFobjnr = (s :: l).length) (hm : b.afMobjnr = (s :: l).length)
    (hlt : (s :: l).length < wordMod) : (b.delObj s).addObj s = b := by
  have hback : add64 (sub64 (s :: l).length 1) 1 = (s :: l).length := by
    rw [List.length_cons] at hlt ⊢
    rw [sub64_eq hlt (by omega), add64_eq (by omega)]
    omega
  unfold Bafhlst.addObj Bafhlst.delObj
  simp only [hf, hm, hl, List.erase_cons_head, hback]
  rw [← hl]
  cases b
  simp_all

/-- The memory is its lists, its areas without their lists, and its
descriptors. -/
theorem Mem.ext_parts {x x' : Mem} (hb : x'.bafh = x.bafh) (hh : x'.hdr = x.hdr)
    (hd : x'.msadscstat = x.msadscstat) : x' = x := by
  have harea : x'.mareastat = x.mareastat := by
    funext a
    have hlie : (x'.mareastat a).dmMdmlielst = (x.mareastat a).dmMdmlielst := by
      funext k
      exact congrFun hb (.lie a k)
    have hone : (x'.mareastat a).dmOnemsalst = (x.mareastat a).dmOnemsalst :=
      congrFun hb (.one a)
    have hrest := congrFun hh a
    unfold Mem.hdr at hrest
    generalize x'.mareastat a = m' at hlie hone hrest
    generalize x.mareastat a = m at hlie hone hrest
    cases m'
    cases m
    simp_all
  cases x
  cases x'
  simp_all

/-- The tags of a free block are determined by its place. -/
theorem FreeBlk.unique {d d' : MsaArr} {ty : MaType} {p : BafhPtr} {s n : Nat}
    (h : FreeBlk d ty p s n) (h' : FreeBlk d' ty p s n) (hst : SameStatic d d') {i : Nat}
    (hi : i < n) : d' (s + i) = d (s + i) := by
  have htags : (d' (s + i)).mfOlkty = (d (s + i)).mfOlkty ∧
      (d' (s + i)).mdOdlink = (d (s + i)).mdOdlink := by
    by_cases hlast : i = n - 1
    · subst hlast
      exact ⟨h'.last.1.trans h.last.1.symm, h'.last.2.trans h.last.2.symm⟩
    · by_cases hfirst : i = 0
      · subst hfirst
        obtain ⟨h1, h2⟩ := h.first (by omega)
        obtain ⟨h1', h2'⟩ := h'.first (by omega)
        exact ⟨h1'.trans h1.symm, h2'.trans h2.symm⟩
      · obtain ⟨h1, h2⟩ := h.inner i (by omega) (by omega)
        obtain ⟨h1', h2'⟩ := h'.inner i (by omega) (by omega)
        exact ⟨h1'.trans h1.symm, h2'.trans h2.symm⟩
  obtain ⟨hu, hal⟩ := h.clean i hi
  obtain ⟨hu', hal'⟩ := h'.clean i hi
  obtain ⟨hmo, hty, hp⟩ := hst (s + i)
  generalize d' (s + i) = m' at *
  generalize d (s + i) = m at *
  cases m'
  cases m
  simp_all

/-! ## Merging the halves of a division -/

/-- The list a round empties is as it was before the division. -/
theorem takeLists_join {a k j s : Nat} {L : BafhPtr → Bafhlst} (hj : j < k)
    (hf : (L (.lie a j)).afFobjnr < wordMod) (hm : (L (.lie a j)).afMobjnr < wordMod) :
    Function.update (takeLists (.lie a k) j s L) (.lie a j)
        ((takeLists (.lie a k) j s L (.lie a j)).delObj (s + 2 ^ j))
      = takeLists (.lie a k) (j + 1) s L := by
  have hne : BafhPtr.lie a j ≠ .lie a k := by
    intro h
    injection h with _ h
    omega
  rw [takeLists_below (Nat.le_refl j) hj, delObj_addObj hf hm]
  funext q
  by_cases hq : q = .lie a j
  · subst hq
    rw [Function.update_self, takeLists_other hne]
    intro b i c hb hc
    cases hb
    cases hc
    omega
  · rw [Function.update_of_ne hq]
    cases q with
    | lie b i =>
        simp only [takeLists, cutLists]
        have hiff : (b = a ∧ j ≤ i ∧ i < j + (k - j)) ↔
            (b = a ∧ j + 1 ≤ i ∧ i < j + 1 + (k - (j + 1))) := by
          constructor
          · rintro ⟨rfl, h1, h2⟩
            have hij : i ≠ j := fun h => hq (by rw [h])
            exact ⟨rfl, by omega, by omega⟩
          · rintro ⟨rfl, h1, h2⟩
            exact ⟨rfl, by omega, by omega⟩
        exact if_congr hiff rfl rfl
    | one b => rfl

/-- The merge loop has joined the block `s` in hand up to list `k`. -/
structure MergedBack (a k s msanr : Nat) (out : List Seg) (L : BafhPtr → Bafhlst)
    (x x' : Mem) : Prop where
  hand : InHand a k s msanr out x'
  bafh : x'.bafh = takeLists (.lie a k) k s L
  hdr : x'.hdr = x.hdr
  retag : Retag x.msadscstat x'.msadscstat s (2 ^ k)

/-- **The merge loop undoes the halving loop**: as long as the lists hold just
the halves the division left there, each round joins one, and the loop stops at
the list the block came from. -/
theorem mergeLoop_back {a k s msanr : Nat} {out : List Seg} {L : BafhPtr → Bafhlst} (ha : a < 2)
    (hk : k < mdivmerArrLmax) : ∀ m j x, j + m = k → InHand a j s msanr out x →
    x.bafh = takeLists (.lie a k) j s L →
    (∀ i, j ≤ i → i < k → (L (.lie a i)).afFrelst = [] ∧
      (L (.lie a i)).afFobjnr < wordMod ∧ (L (.lie a i)).afMobjnr < wordMod) →
    Shape x.msadscstat (areaTy a) s (2 ^ k) →
    (k + 1 < mdivmerArrLmax → ∀ t ∈ ((L (.lie a k)).delObj s).afFrelst,
      ¬ Touches x.msadscstat s t (2 ^ k) ∧ ¬ Touches x.msadscstat t s (2 ^ k)) →
    ∃ x', mergeLoop a (mdivmerArrLmax - 1 - j) x j s (s + (2 ^ j - 1))
        = .ok (x', k, s, s + (2 ^ k - 1)) ∧ MergedBack a k s msanr out L x x' := by
  intro m
  induction m with
  | zero =>
      intro j x hj h hlists _ hshape hapart
      obtain rfl : j = k := hj
      refine ⟨x, ?_, h, hlists, rfl, Retag.refl _ _ _⟩
      by_cases htop : j + 1 < mdivmerArrLmax
      · -- no block of the list touches the one in hand
        obtain ⟨n, hn⟩ : ∃ n, mdivmerArrLmax - 1 - j = n + 1 := ⟨mdivmerArrLmax - 2 - j, by omega⟩
        rw [hn, mergeLoop]
        rcases mmFindCmsa2blk_spec ha htop h with ⟨hrun, _⟩ | ⟨x₁, s₁, _, hjoin⟩
        · rw [hrun]
          rfl
        · exfalso
          obtain ⟨t, ht, hpair, _⟩ := hjoin.pair
          have hpow : 2 ^ (j + 1) = 2 ^ j + 2 ^ j := by
            rw [Nat.pow_succ]
            omega
          have hpad := (hjoin.hand.blk.shape (2 ^ j) (by have := Nat.two_pow_pos j; omega)).2
          rw [(hjoin.retag.static _).2.2, (hjoin.retag.static _).2.2] at hpad
          rw [Mem.free, hlists, takeLists_at] at ht
          obtain ⟨h1, h2⟩ := hapart htop t ht
          rcases hpair with ⟨rfl, rfl⟩ | ⟨rfl, rfl⟩
          · exact h1 ⟨rfl, hpad⟩
          · exact h2 ⟨rfl, hpad⟩
      · have hn : mdivmerArrLmax - 1 - j = 0 := by omega
        rw [hn]
        rfl
  | succ m ih =>
      intro j x hj h hlists hlow hshape hapart
      obtain ⟨hempty, hf, hm⟩ := hlow j (Nat.le_refl j) (by omega)
      have hpos := Nat.two_pow_pos j
      have hpow : 2 ^ (j + 1) = 2 ^ j + 2 ^ j := by
        rw [Nat.pow_succ]
        omega
      have hle : 2 ^ (j + 1) ≤ 2 ^ k := Nat.pow_le_pow_right (by decide) (by omega)
      -- the list holds exactly the upper half
      have hlist : x.free (.lie a j) = [s + 2 ^ j] := by
        rw [Mem.free, hlists, takeLists_below (Nat.le_refl j) (by omega), addObj_afFrelst, hempty]
      have hn : mdivmerArrLmax - 1 - j = (mdivmerArrLmax - 1 - (j + 1)) + 1 := by omega
      rw [hn, mergeLoop]
      rcases mmFindCmsa2blk_spec ha (by omega) h with ⟨_, hall⟩ | ⟨x₁, s₁, hrun, hjoin⟩
      · exfalso
        refine (hall (s + 2 ^ j) ?_).1 ⟨rfl, (hshape (2 ^ j) (by omega)).2⟩
        rw [hlist]
        exact List.mem_singleton_self _
      · obtain ⟨t, ht, hpair, hbafh⟩ := hjoin.pair
        rw [hlist, List.mem_singleton] at ht
        subst ht
        obtain rfl : s₁ = s := by
          rcases hpair with ⟨h1, _⟩ | ⟨h1, h2⟩
          · exact h1
          · omega
        have hnext : x₁.bafh = takeLists (.lie a k) (j + 1) s₁ L := by
          rw [hbafh, hlists]
          exact takeLists_join (by omega) hf hm
        have hstatic := hjoin.retag.static
        obtain ⟨x', hrun', hback⟩ := ih (j + 1) x₁ (by omega) hjoin.hand hnext
          (fun i h1 h2 => hlow i (by omega) h2) (hshape.static hstatic) fun htop t ht => by
            obtain ⟨h1, h2⟩ := hapart htop t ht
            unfold Touches
            rw [(hstatic _).2.2, (hstatic _).2.2]
            exact ⟨h1, h2⟩
        refine ⟨x', ?_, hback.hand, hback.bafh, hback.hdr.trans hjoin.kept.frame.hdr,
          (hjoin.retag.mono (Nat.le_refl _) (by omega)).trans hback.retag⟩
        rw [hrun]
        exact hrun'

/-! ## Undoing an allocation -/

section Undo

variable {mm : Memgrob} {out : List Seg}

/-- The counters and the descriptors when the lists are back. -/
theorem undo_eq (h : MmInv mm out) {p : BafhPtr} {rel s : Nat} {x' : Mem}
    (ht : Taken p rel s mm.moMsanr out mm.mem x') (hcut : p.cut rel < wordMod) (x₂ : Mem)
    (hb : x₂.bafh = mm.mem.bafh)
    (hh : x₂.hdr = ({ mm with mem := x' }.updatePages p.area (p.cut rel) 0).mem.hdr)
    (hret : Retag x'.msadscstat x₂.msadscstat s p.ord)
    (hfree : FreeBlk x₂.msadscstat (areaTy p.area) p s p.ord) :
    { { mm with mem := x' }.updatePages p.area (p.cut rel) 0 with mem := x₂ }.updatePages
      p.area (p.cut rel) 1 = mm := by
  have ha := ht.used.area_lt
  obtain ⟨l, hl⟩ := ht.head
  have hold := h.mem.free p ht.used.mem_ptrs s (by rw [hl]; exact List.mem_cons_self)
  have hall := ht.retag.trans hret
  have hd : x₂.msadscstat = mm.mem.msadscstat := by
    funext i
    by_cases hi : (Seg.mk s p.ord).Has i
    · obtain ⟨h1, h2⟩ := hi
      simp only at h1 h2
      obtain ⟨j, rfl⟩ := Nat.exists_eq_add_of_le h1
      exact hold.unique hfree hall.static (by omega)
    · exact hall.frame i hi
  obtain ⟨hf, hal, hmax⟩ := h.area_le ha
  have hsum := h.maxpages p.area ha
  have hmo := h.moMax
  have hlt := h.moLt
  have hmem : ({ { mm with mem := x' }.updatePages p.area (p.cut rel) 0 with
      mem := x₂ }.updatePages p.area (p.cut rel) 1).mem = mm.mem := by
    refine Mem.ext_parts ?_ ?_ ?_
    · rw [updatePages_bafh]
      exact hb
    · funext c
      by_cases hc : c = p.area
      · subst hc
        rw [updatePages_hdr]
        simp only [hh]
        rw [updatePages_hdr]
        simp only [ht.hdr, mmUpdateMemarea, if_true, one_ne_zero, if_false]
        rw [add64_sub64 (by omega) hcut, sub64_add64 (by omega) hcut]
      · rw [updatePages_hdr_ne _ _ _ _ hc]
        simp only [hh]
        rw [updatePages_hdr_ne _ _ _ _ hc, ht.hdr]
    · rw [updatePages_msadscstat]
      exact hd
  obtain ⟨f1, f2, f3⟩ := updatePages_fixed { mm with mem := x' } p.area (p.cut rel) 0
  obtain ⟨g1, g2, g3⟩ := updatePages_fixed
    { { mm with mem := x' }.updatePages p.area (p.cut rel) 0 with mem := x₂ } p.area
    (p.cut rel) 1
  obtain ⟨_, _, t3, t4⟩ := updatePages_take { mm with mem := x' } p.area (p.cut rel)
  obtain ⟨_, _, u3, u4⟩ := updatePages_give
    { { mm with mem := x' }.updatePages p.area (p.cut rel) 0 with mem := x₂ } p.area
    (p.cut rel)
  simp only [t3, t4] at u3 u4
  rw [add64_sub64 (by omega) hcut] at u3
  rw [sub64_add64 (by omega) hcut] at u4
  exact Memgrob.ext (g3.trans f3) u4 u3 (g1.trans f1) (g2.trans f2) hmem

/-- The list a block came from, after the block is back at its head. -/
theorem Taken.refile (h : MmInv mm out) {p : BafhPtr} {rel s : Nat} {x' : Mem}
    (ht : Taken p rel s mm.moMsanr out mm.mem x') :
    ((mm.mem.bafh p).delObj s).addObj s = mm.mem.bafh p := by
  have hmem := ht.used.mem_ptrs
  obtain ⟨l, hl⟩ := ht.head
  have hcount := h.mem.length_le hmem
  have hlt := h.mem.msanr_lt
  have hfobj := h.mem.fobjnr p hmem
  have hmobj := h.mem.mobjnr p hmem
  rw [hl] at hfobj hmobj hcount
  exact addObj_delObj hl hfobj hmobj (by omega)

/-- The lists below the one a block came from hold just the halves that were cut
off, and nothing on that list touches the block. -/
theorem Taken.apart (h : MmInv mm out) {a k rel s : Nat} {x' : Mem}
    (ht : Taken (.lie a k) rel s mm.moMsanr out mm.mem x') :
    (∀ i, rel ≤ i → i < k → (mm.mem.bafh (.lie a i)).afFrelst = [] ∧
      (mm.mem.bafh (.lie a i)).afFobjnr < wordMod ∧
      (mm.mem.bafh (.lie a i)).afMobjnr < wordMod) ∧
    (k + 1 < mdivmerArrLmax → ∀ t ∈ ((mm.mem.bafh (.lie a k)).delObj s).afFrelst,
      ¬ Touches mm.mem.msadscstat s t (2 ^ k) ∧ ¬ Touches mm.mem.msadscstat t s (2 ^ k)) := by
  obtain ⟨ha, hk⟩ := ht.used
  obtain ⟨_, hlow⟩ := ht.low a k rfl
  obtain ⟨l, hl⟩ := ht.head
  have hmax : memareaMax = 4 := rfl
  have hs : s ∈ mm.mem.free (.lie a k) := by
    rw [hl]
    exact List.mem_cons_self
  refine ⟨fun i h1 h2 => ?_, fun htop t htl => ?_⟩
  · have hmem : BafhPtr.lie a i ∈ ptrs := lie_mem_ptrs (by omega) (by omega)
    have hempty := hlow i h1 h2
    refine ⟨hempty, ?_, ?_⟩
    · rw [h.mem.fobjnr _ hmem, hempty]
      decide
    · rw [h.mem.mobjnr _ hmem, hempty]
      decide
  · have htfree : t ∈ mm.mem.free (.lie a k) := List.mem_of_mem_erase htl
    constructor
    · rintro ⟨rfl, hpad⟩
      exact h.noAdj a k htop s hs htfree hpad
    · rintro ⟨rfl, hpad⟩
      exact h.noAdj a k htop t htfree hs hpad

/-- **A free undoes the allocation** it directly follows. -/
theorem mmMergePages_undo (h : MmInv mm out) {mm' : Memgrob} {b : Seg}
    (hall : Allocated mm mm' out b) : mmMergePages mm' b.start b.len = .ok (mm, true) := by
  have hinv := hall.inv h
  obtain ⟨p, rel, x', ht, hlen, hmm⟩ := hall
  have hd : mm'.mem.msadscstat = x'.msadscstat := by
    rw [hmm]
    exact updatePages_msadscstat _ _ _ _
  have hbafh : mm'.mem.bafh = x'.bafh := by
    rw [hmm]
    exact updatePages_bafh _ _ _ _
  have hpos : 0 < b.len := (hinv.outs b List.mem_cons_self).len_pos
  have hend := hinv.mem.held_end_le List.mem_cons_self hpos
  have hlt := hinv.mem.msanr_lt
  have hblk := ht.blk
  have hundo := undo_eq h ht (by rw [← hlen]; omega)
  rw [← hlen, ← hd] at hblk
  rw [← hlen, ← hmm, ← hd] at hundo
  have hret := fun q => giveMsa_retag mm'.mem.msadscstat q (s := b.start) hpos
  cases p with
  | one a =>
      have ha : a = 2 := ht.used
      subst ha
      have hone : b.len = (BafhPtr.one 2).ord := hlen
      obtain ⟨_, hfree⟩ := hinv.takeBack (p := .one 2) List.mem_cons_self hone hblk
      rw [mmMergePages_one hinv List.mem_cons_self hone hblk rfl]
      refine congrArg (fun m => Except.ok (m, true)) (hundo _ ?_ ?_ ?_ ?_)
      · rw [setBafh_bafh, withMsa_bafh, hbafh]
        simp only [ht.bafh, takeLists]
        rw [Function.update_self, Function.update_idem, ht.refile h, Function.update_eq_self]
      · rw [setBafh_hdr, withMsa_hdr]
      · rw [setBafh_msadscstat, withMsa_msadscstat, ← hone]
        exact hret _
      · rw [setBafh_msadscstat, withMsa_msadscstat]
        exact hfree
  | lie a k =>
      obtain ⟨ha, hk⟩ := ht.used
      obtain ⟨hrel, _⟩ := ht.low a k rfl
      obtain ⟨l, hl⟩ := ht.head
      have hord : b.len = (BafhPtr.lie a rel).ord := hlen
      obtain ⟨hnew, hfree⟩ := hinv.takeBack (p := .lie a rel) List.mem_cons_self hord hblk
      rw [List.erase_cons_head] at hnew
      have hmsanr : mm'.moMsanr = mm.moMsanr := by
        rw [hmm]
        exact (updatePages_fixed _ _ _ _).1
      rw [hmsanr] at hnew
      have hpow : 2 ^ rel ≤ 2 ^ k := Nat.pow_le_pow_right (by decide) hrel
      have hlen2 : b.len = 2 ^ rel := hlen
      -- the whole block as it was on its list
      have hold := h.mem.free _ ht.used.mem_ptrs b.start (by rw [hl]; exact List.mem_cons_self)
      have hstatic : SameStatic mm.mem.msadscstat (giveMsa mm'.mem.msadscstat (.lie a rel)
          b.start (b.start + (b.len - 1))) := by
        have h1 := ht.retag.static
        rw [← hd] at h1
        exact h1.trans (hret _).static
      obtain ⟨hlow, hapart⟩ := ht.apart h
      obtain ⟨x₂, hrun, hback⟩ := mergeLoop_back ha hk (k - rel) rel
        (mm'.mem.withMsa (giveMsa mm'.mem.msadscstat (.lie a rel) b.start
          (b.start + (b.len - 1)))) (by omega) ⟨hnew, hfree⟩
        (by rw [withMsa_bafh, hbafh, ht.bafh]) hlow (hold.shape.static hstatic)
        fun htop t htl => by
          obtain ⟨h1, h2⟩ := hapart htop t htl
          unfold Touches
          rw [withMsa_msadscstat, (hstatic _).2.2, (hstatic _).2.2]
          exact ⟨h1, h2⟩
      have hfile : mpobfAddMsadsc x₂ (.lie a k) b.start (b.start + (2 ^ k - 1))
          = .ok (some (x₂.setBafh (.lie a k) ((x₂.bafh (.lie a k)).addObj b.start))) :=
        mpobfAddMsadsc_spec (p := .lie a k) hback.hand.inv ⟨ha, hk⟩ hback.hand.blk
      have hmer : mmMerpagesOnbafhlst (mm'.mem.withMsa (giveMsa mm'.mem.msadscstat (.lie a rel)
          b.start (b.start + (b.len - 1)))) a b.start (2 ^ rel) rel (mdivmerArrLmax - 1)
          = .ok (x₂.setBafh (.lie a k) ((x₂.bafh (.lie a k)).addObj b.start), true) := by
        unfold mmMerpagesOnbafhlst
        simp only [hrun, hfile]
      rw [mmMergePages_lie hinv List.mem_cons_self ha (by omega) hlen2 hblk hmer]
      refine congrArg (fun m => Except.ok (m, true)) (hundo _ ?_ ?_ ?_ ?_)
      · rw [setBafh_bafh, hback.bafh, takeLists_self, Function.update_self,
          Function.update_idem, ht.refile h, Function.update_eq_self]
      · rw [setBafh_hdr, hback.hdr, withMsa_hdr]
      · rw [setBafh_msadscstat]
        have h1 := hback.retag
        rw [withMsa_msadscstat] at h1
        exact ((hret _).mono (Nat.le_refl _) (by rw [hlen2]; exact Nat.add_le_add_left hpow _)).trans
          h1
      · rw [setBafh_msadscstat]
        exact hback.hand.blk

end Undo

/-! ## Runs that free the last block first -/

/-- The blocks `out` were allocated one after the other, the last one first,
from the state `mm₀`. -/
inductive Stacked (mm₀ : Memgrob) : Memgrob → List Seg → Prop
  | nil : Stacked mm₀ mm₀ []
  | alloc {mm mm' : Memgrob} {out : List Seg} {b : Seg} : Stacked mm₀ mm out →
      MmInv mm out → Allocated mm mm' out b → Stacked mm₀ mm' (b :: out)

/-- A free of an outstanding block frees the one allocated last. -/
def LastFirst (st : MmState) (op : MmOp) : Prop :=
  ∀ s n, op = .mergePages s n → Seg.mk s n ∈ st.out → st.out.head? = some ⟨s, n⟩

theorem mmStep_stacked {mm₀ : Memgrob} (st : MmState) (op : MmOp) (st' : MmState)
    (h : MmInv st.mm st.out ∧ Stacked mm₀ st.mm st.out) (hop : LastFirst st op)
    (hstep : mmStep st op = .ok st') : MmInv st'.mm st'.out ∧ Stacked mm₀ st'.mm st'.out := by
  obtain ⟨hinv, hst⟩ := h
  refine ⟨mmStep_inv st op st' hinv hstep, ?_⟩
  cases op with
  | divisionPages pages mrtype flgs =>
      simp only [mmStep] at hstep
      rcases mmDivisionPages_spec hinv pages mrtype flgs with hnone | ⟨mm', b, hsome, hall⟩
      · rw [hnone] at hstep
        cases hstep
        exact hst
      · rw [hsome] at hstep
        cases hstep
        exact .alloc hst hinv hall
  | divpagesProcmarea pages =>
      simp only [mmStep] at hstep
      rcases mmDivpagesProcmarea_spec hinv pages with hnone | ⟨mm', b, hsome, hall⟩
      · rw [hnone] at hstep
        cases hstep
        exact hst
      · rw [hsome] at hstep
        cases hstep
        exact .alloc hst hinv hall
  | mergePages s n =>
      simp only [mmStep] at hstep
      split at hstep
      · rename_i hs
        by_cases hmem : Seg.mk s n ∈ st.out
        · have hhead := hop s n rfl hmem
          obtain ⟨mm, out⟩ := st
          cases hst with
          | nil => exact absurd hmem List.not_mem_nil
          | alloc hst₀ hinv₀ hall =>
              rw [List.head?_cons] at hhead
              cases hhead
              have hundo := mmMergePages_undo hinv₀ hall
              simp only at hundo
              simp only [hundo, List.erase_cons_head] at hstep
              cases hstep
              exact hst₀
        · rw [mmMergePages_reject hinv hs hmem] at hstep
          cases hstep
          exact hst
      · cases hstep

/-! ## Requests after everything was freed -/

/-- `mm_division_pages` grants a request for a page count. -/
def grants (mm : Memgrob) (pages a : Nat) : Bool :=
  okAnd (mmDivisionPages mm pages (areaTy a).code dmfReldiv) fun r => r.2.isSome

/-- A request is granted when there is a list at or above its own that holds a
block. -/
theorem grants_iff {mm : Memgrob} {out : List Seg} (h : MmInv mm out) {a : Nat} (ha : a < 2)
    (pages : Nat) : grants mm pages a = true ↔
      1 ≤ pages ∧ ∃ k, retnDivoder pages ≤ k ∧ k < mdivmerArrLmax ∧
        mm.mem.free (.lie a k) ≠ [] := by
  have hmax : memareaMax = 4 := rfl
  unfold grants
  rw [mmDivisionPages_reldiv h ha]
  rcases mmReldivpagesOnmarea_spec h.mem ha pages with
    ⟨hnone, hwhy⟩ | ⟨hpages, x', s, div, hsome, ht⟩
  · rw [hnone]
    simp only [okAnd, Memgrob.countDiv, Option.isSome_none, Bool.false_eq_true, false_iff,
      not_and, not_exists]
    intro hpages k h1 h2 hne
    rcases hwhy with hscan | hempty
    · -- a block of the list would be enough pages
      have hsum := h.freepages a (by omega)
      have hmaxp := h.maxpages a (by omega)
      have hone : 2 ^ k * 1 ≤ areaFree mm.mem a := by
        have hlen : 1 ≤ (mm.mem.free (.lie a k)).length := List.length_pos_iff.mpr hne
        exact Nat.le_trans (Nat.mul_le_mul_left _ hlen)
          (Finset.single_le_sum (f := fun q => BafhPtr.ord q * (mm.mem.free q).length)
            (fun _ _ => Nat.zero_le _) (lie_mem_areaPtrs h2))
      have hle := le_two_pow_retnDivoder hpages
      have hpow : 2 ^ retnDivoder pages ≤ 2 ^ k := Nat.pow_le_pow_right (by decide) h1
      have hfp : (mm.mem.mareastat a).maFreepages = areaFree mm.mem a := hsum
      have hmp : (mm.mem.mareastat a).maFreepages + (mm.mem.mareastat a).maAllocpages
          = (mm.mem.mareastat a).maMaxpages := hmaxp
      simp only [scanMapgsallocOk, Bool.and_eq_false_iff, decide_eq_false_iff_not] at hscan
      omega
    · exact hne (hempty k h1 h2)
  · rw [hsome]
    have hdiv := ht.used.2
    obtain ⟨hrel, _⟩ := ht.low a div rfl
    obtain ⟨l, hl⟩ := ht.head
    simp only [countDiv_some, okAnd, Option.isSome_some, true_iff]
    refine ⟨hpages, div, hrel, hdiv, ?_⟩
    rw [hl]
    exact List.cons_ne_nil s l

/-- With nothing handed out, every page that was on a list of the area is on
one again. -/
theorem listed_again {mm mm' : Memgrob} (h : MmInv mm []) (h' : MmInv mm' [])
    (hsame : SamePages mm mm') {a : Nat} (ha : a < 2) {k s i : Nat} (hk : k < mdivmerArrLmax)
    (hs : s ∈ mm.mem.free (.lie a k)) (hi : (Seg.mk s (2 ^ k)).Has i) :
    ∃ j t, j < mdivmerArrLmax ∧ t ∈ mm'.mem.free (.lie a j) ∧ (Seg.mk t (2 ^ j)).Has i := by
  have hmax : memareaMax = 4 := rfl
  have hmem : BafhPtr.lie a k ∈ ptrs := lie_mem_ptrs (by omega) hk
  have hdom := h.mem.tiles.free_dom hmem hs hi
  have hdom' : Managed mm'.mem.msadscstat mm'.moMsanr i := by
    unfold Managed
    rw [hsame.msanr, (hsame.static i).1]
    exact hdom
  -- the area of the page, read from both blocks
  have harea : ∀ (m : Memgrob) (p : BafhPtr) (t : Nat), MmInv m [] → p ∈ ptrs →
      t ∈ m.mem.free p → (Seg.mk t p.ord).Has i →
      (m.mem.msadscstat i).mfMarty = areaTy p.area := by
    intro m p t hm hp ht hti
    obtain ⟨h1, h2⟩ := hti
    simp only at h1 h2
    obtain ⟨c, rfl⟩ := Nat.exists_eq_add_of_le h1
    exact ((hm.mem.free p hp t ht).shape c (by omega)).1
  rcases h'.mem.tiles.owner hdom' with ⟨p, hp, t, ht, hti⟩ | ⟨c, hc, _⟩
  · have h1 := harea mm' p t h' hp ht hti
    have h2 := harea mm (.lie a k) s h hmem hs hi
    rw [(hsame.static i).2.1, h2] at h1
    have hused := h'.mem.used p hp t ht
    have hpa : a = p.area := areaTy_inj (by omega) hused.area_lt h1
    cases p with
    | lie c j =>
        have hca : a = c := hpa
        subst hca
        exact ⟨j, t, hused.2, ht, hti⟩
    | one c =>
        have hc2 : c = 2 := hused
        have hca : a = c := hpa
        omega
  · exact absurd hc List.not_mem_nil

/-- **What freeing everything restores**: after last-first frees, everything;
after frees in any order the page counts, and each request for one or two
pages. -/
theorem freed_all_restores (b : BootArray) {mm : Memgrob} (hboot : b.boot = .ok mm)
    (ops : List MmOp) {st : MmState} (hrun : run mmStep ops ⟨mm, []⟩ = .ok st)
    (hout : st.out = []) :
    (AllSteps mmStep LastFirst ops ⟨mm, []⟩ → st.mm = mm) ∧
    (∀ a < memareaMax,
      (st.mm.mem.mareastat a).maFreepages = (mm.mem.mareastat a).maFreepages) ∧
    st.mm.moFreepages = mm.moFreepages ∧
    ∀ a < 2, ∀ pages ≤ 2, grants mm pages a = true → grants st.mm pages a = true := by
  have h := b.boot_inv hboot
  have hsame := mmRun_same ops ⟨mm, []⟩ st h hrun
  have h' := mmRun_inv ops ⟨mm, []⟩ st h hrun
  rw [hout] at h'
  simp only at hsame
  have hfree : ∀ a < memareaMax, (st.mm.mem.hdr a).maFreepages = (mm.mem.hdr a).maFreepages := by
    intro a ha
    have h1 := h.maxpages a ha
    have h2 := h'.maxpages a ha
    rw [h.allocpages a ha] at h1
    rw [h'.allocpages a ha, hsame.areaMax a] at h2
    exact h2.trans h1.symm
  refine ⟨fun hlast => ?_, hfree, ?_, fun a ha pages hpages hgr => ?_⟩
  · obtain ⟨_, hst⟩ := run_inv_of_allSteps
      (fun s => MmInv s.mm s.out ∧ Stacked mm s.mm s.out) LastFirst mmStep_stacked ops
      ⟨mm, []⟩ st ⟨h, .nil⟩ hlast hrun
    rw [hout] at hst
    cases hst
    rfl
  · rw [h'.moFree, h.moFree]
    exact Finset.sum_congr rfl fun a ha => hfree a (Finset.mem_range.mp ha)
  · obtain ⟨hpos, k, hk, hkmax, hne⟩ := (grants_iff h ha pages).mp hgr
    refine (grants_iff h' ha pages).mpr ⟨hpos, ?_⟩
    obtain ⟨s, l, hl⟩ := List.exists_cons_of_ne_nil hne
    have hs : s ∈ mm.mem.free (.lie a k) := by
      rw [hl]
      exact List.mem_cons_self
    have hkpos := Nat.two_pow_pos k
    obtain ⟨j, t, hj, ht, hti⟩ := listed_again h h' hsame ha hkmax hs
      (Seg.has_mk (Nat.le_refl s) (by omega))
    rcases (by omega : pages = 1 ∨ pages = 2) with rfl | rfl
    · exact ⟨j, Nat.zero_le j, hj, List.ne_nil_of_mem ht⟩
    · -- two neighbouring pages are not both on the lowest list
      have hdiv : retnDivoder 2 = 1 := retnDivoder_two_pow 1
      rw [hdiv] at hk ⊢
      have hpow : 2 ^ 1 ≤ 2 ^ k := Nat.pow_le_pow_right (by decide) hk
      obtain ⟨j', t', hj', ht', hti'⟩ := listed_again (i := s + 1) h h' hsame ha hkmax hs
        (Seg.has_mk (by omega) (by omega))
      by_cases h1 : 1 ≤ j
      · exact ⟨j, h1, hj, List.ne_nil_of_mem ht⟩
      · by_cases h1' : 1 ≤ j'
        · exact ⟨j', h1', hj', List.ne_nil_of_mem ht'⟩
        · exfalso
          obtain rfl : j = 0 := by omega
          obtain rfl : j' = 0 := by omega
          obtain ⟨e1, e2⟩ := hti
          obtain ⟨e1', e2'⟩ := hti'
          simp only at e1 e2 e1' e2'
          obtain rfl : t = s := by omega
          obtain rfl : t' = t + 2 ^ 0 := by omega
          refine h'.noAdj a 0 (by decide) t ht ht' ?_
          rw [(hsame.static _).2.2, (hsame.static _).2.2]
          exact ((h.mem.free _ (lie_mem_ptrs (Nat.lt_trans ha (by decide)) hkmax) t hs).shape 1
            (by simp only [BafhPtr.ord]; omega)).2

/-- Four single pages, the middle two freed first. -/
def middleFirst : List MmOp :=
  List.replicate 4 (.divisionPages 1 MaType.krnl.code dmfReldiv)
    ++ [.mergePages 1 1, .mergePages 2 1, .mergePages 0 1, .mergePages 3 1]

theorem freed_all_restores_fourPages : ∃ (mm : Memgrob) (st : MmState),
    (AllSteps mmStep LastFirst middleFirst ⟨mm, []⟩ → st.mm = mm) ∧
    (∀ a < memareaMax,
      (st.mm.mem.mareastat a).maFreepages = (mm.mem.mareastat a).maFreepages) ∧
    st.mm.moFreepages = mm.moFreepages ∧
    ∀ a < 2, ∀ pages ≤ 2, grants mm pages a = true → grants st.mm pages a = true := by
  obtain ⟨mm, hboot, hst⟩ := exists_of_okAnd (e := fourPages.boot)
    (q := fun mm => okAnd (run mmStep middleFirst ⟨mm, []⟩) fun st => st.out = [])
    (by decide +kernel)
  obtain ⟨st, hrun, hout⟩ := exists_of_okAnd hst
  exact ⟨mm, st, freed_all_restores fourPages hboot middleFirst hrun (of_decide_eq_true hout)⟩

/-- The middle pages were joined, and the outer ones found no neighbour of their
size: all is free again, but a request for four pages fails now. -/
theorem freed_all_not_restored :
    ¬ ∀ (b : BootArray) (mm : Memgrob) (ops : List MmOp) (st : MmState),
      b.boot = .ok mm → run mmStep ops ⟨mm, []⟩ = .ok st → st.out = [] →
      ∀ a < 2, ∀ pages, grants mm pages a = true → grants st.mm pages a = true := by
  intro hall
  obtain ⟨mm, hboot, hst⟩ := exists_of_okAnd (e := fourPages.boot)
    (q := fun mm => grants mm 4 1 && okAnd (run mmStep middleFirst ⟨mm, []⟩)
      fun st => st.out = [] && !grants st.mm 4 1) (by decide +kernel)
  rw [Bool.and_eq_true] at hst
  obtain ⟨hgr, hst⟩ := hst
  obtain ⟨st, hrun, hq⟩ := exists_of_okAnd hst
  rw [Bool.and_eq_true, decide_eq_true_iff, Bool.not_eq_true'] at hq
  have hagain := hall fourPages mm middleFirst st hboot hrun hq.1 1 (by decide) 4 hgr
  rw [hq.2] at hagain
  cases hagain

end Cosmos.Hal
