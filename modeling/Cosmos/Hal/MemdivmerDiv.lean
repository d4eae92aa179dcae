import Mathlib.Data.Nat.Log
import Cosmos.Hal.Blocks

/-!
# Division keeps the allocator invariant

Each function of the allocation path has one lemma that says what it returns
and what it does to the blocks.  The loop that halves a block is the induction
`divmsaLoop_spec`; its invariant is that the block in hand is loose and that
the lists it has passed have one more entry each.
-/

namespace Cosmos.Hal

open Cosmos.Lib.Word64 Cosmos.Lib.Cover Cosmos.Lib.Pool

/-! ## Orders and spans -/

/-- The list of a power of two. -/
theorem retnDivoder_two_pow (k : Nat) : retnDivoder (2 ^ k) = k := by
  have hpos : (2 : Nat) ^ k ≠ 0 := (Nat.two_pow_pos k).ne'
  have hand : 2 ^ k &&& (2 ^ k - 1) = 0 :=
    (Nat.and_sub_one_eq_zero_iff_isPowerOfTwo hpos).mpr ⟨k, rfl⟩
  unfold retnDivoder search64rlbits
  rw [if_neg hpos, Nat.log2_two_pow]
  simp [hand]

/-- A request is never larger than the blocks of its list. -/
theorem le_two_pow_retnDivoder {pages : Nat} (h : 1 ≤ pages) :
    pages ≤ 2 ^ retnDivoder pages := by
  have hne : pages ≠ 0 := by omega
  unfold retnDivoder search64rlbits
  rw [if_neg hne]
  by_cases hand : pages &&& (pages - 1) = 0
  · obtain ⟨k, rfl⟩ := (Nat.and_sub_one_eq_zero_iff_isPowerOfTwo hne).mp hand
    simp [hand]
  · have hlt := Nat.lt_log2_self (n := pages)
    simp only [ne_eq, hand, not_false_eq_true, if_true, Nat.add_sub_cancel]
    omega

/-- The span of a block is its length. -/
theorem msaSpan_block {s n : Nat} (hn : 0 < n) (h : s + n < wordMod) :
    msaSpan s (s + (n - 1)) = n := by
  unfold msaSpan
  rw [sub64_eq (by omega) (by omega), add64_eq (by omega)]
  omega

/-! ## Handing out a block -/

/-- The descriptors after `mm_divpages_opmsadsc`. -/
def takeMsa (d : MsaArr) (s e : Nat) : MsaArr := fun j =>
  if j = s then
    { d s with mfUindx := (d s).mfUindx + 1, pafAlloc := true, mfOlkty := .oder, mdOdlink := .msa e }
  else if j = e then { d e with mfUindx := (d e).mfUindx + 1, pafAlloc := true }
  else d j

theorem takeMsa_retag (d : MsaArr) {s n : Nat} (hn : 0 < n) :
    Retag d (takeMsa d s (s + (n - 1))) s n := by
  refine ⟨fun j => ?_, fun j hj => ?_⟩
  · unfold takeMsa
    by_cases h1 : j = s
    · subst h1
      simp
    · by_cases h2 : j = s + (n - 1)
      · rw [if_neg h1, if_pos h2, h2]
        exact ⟨rfl, rfl, rfl⟩
      · rw [if_neg h1, if_neg h2]
        exact ⟨rfl, rfl, rfl⟩
  · have h1 : j ≠ s := fun h => hj (Seg.has_mk (by omega) (by omega))
    have h2 : j ≠ s + (n - 1) := fun h => hj (Seg.has_mk (by omega) (by omega))
    unfold takeMsa
    rw [if_neg h1, if_neg h2]

theorem takeMsa_out {d : MsaArr} {ty : MaType} {s n : Nat} (hb : LooseBlk d ty s n)
    (hn : 0 < n) : OutBlk (takeMsa d s (s + (n - 1))) ty s n := by
  have hinner : ∀ i, 0 < i → i + 1 < n → takeMsa d s (s + (n - 1)) (s + i) = d (s + i) := by
    intro i h1 h2
    unfold takeMsa
    rw [if_neg (by omega), if_neg (by omega)]
  have hs : takeMsa d s (s + (n - 1)) s = { d s with
      mfUindx := (d s).mfUindx + 1, pafAlloc := true, mfOlkty := .oder,
      mdOdlink := .msa (s + (n - 1)) } := if_pos rfl
  have he : 1 < n → takeMsa d s (s + (n - 1)) (s + (n - 1)) = { d (s + (n - 1)) with
      mfUindx := (d (s + (n - 1))).mfUindx + 1, pafAlloc := true } := by
    intro h1
    unfold takeMsa
    rw [if_neg (by omega), if_pos rfl]
  refine ⟨hb.shape.static (takeMsa_retag d hn).static, fun i h1 h2 => ?_, ?_, fun h1 => ?_,
    fun i hi hends => ?_, fun i h1 h2 => ?_⟩
  · rw [hinner i h1 h2]
    exact hb.inner i h1 h2
  · rw [hs]
    exact ⟨rfl, rfl⟩
  · rw [he h1]
    exact hb.last h1
  · by_cases h0 : i = 0
    · subst h0
      have hcount : (d s).mfUindx = 0 := (hb.clean 0 hn).1
      rw [Nat.add_zero, hs]
      exact ⟨by simp only [hcount], rfl⟩
    · have hi' : i = n - 1 := by omega
      subst hi'
      rw [he (by omega)]
      exact ⟨by simp only [(hb.clean (n - 1) hi).1], rfl⟩
  · rw [hinner i h1 h2]
    exact hb.clean i (by omega)

/-- **Handing out** a loose block never stops and turns it into an owned one. -/
theorem mmDivpagesOpmsadsc_spec {x : Mem} {ty : MaType} {s n : Nat}
    (hb : LooseBlk x.msadscstat ty s n) (hn : 0 < n) (hlt : s + n < wordMod) :
    mmDivpagesOpmsadsc x s n
      = .ok (some (x.withMsa (takeMsa x.msadscstat s (s + (n - 1))))) := by
  have hc0 := hb.clean 0 hn
  have hc1 := hb.clean (n - 1) (by omega)
  rw [Nat.add_zero] at hc0
  have hend : (if (x.msadscstat s).mfOlkty = .bafh then some s
      else (x.msadscstat s).mdOdlink.toMsa) = some (s + (n - 1)) := by
    rcases hb.first with ⟨ho, hl⟩ | ⟨h1, ho, _⟩
    · rw [ho, hl]
      simp [Odlink.toMsa]
    · subst h1
      rw [if_pos ho]
      rfl
  have hgate : ¬ (((x.msadscstat s).mfOlkty ≠ .oder ∧ (x.msadscstat s).mfOlkty ≠ .bafh) ∨
      (x.msadscstat s).mdOdlink = .null ∨ (x.msadscstat s).pafAlloc = true) := by
    rw [hc0.2]
    rcases hb.first with ⟨ho, hl⟩ | ⟨_, ho, q, hl⟩
    · simp [ho, hl]
    · simp [ho, hl]
  have hmax : ¬ (mfUindxMax - 1 < (x.msadscstat s).mfUindx ∨
      mfUindxMax - 1 < (x.msadscstat (s + (n - 1))).mfUindx ∨
      (x.msadscstat s).mfUindx ≠ (x.msadscstat (s + (n - 1))).mfUindx) := by
    rw [hc0.1, hc1.1]
    decide
  unfold mmDivpagesOpmsadsc
  rw [if_neg (by omega), if_neg hgate]
  simp only [hend]
  rw [if_neg (by omega), msaSpan_block hn hlt, if_neg (by simp), if_neg hmax]
  -- what is left is the order of the writes
  congr 2
  by_cases h1 : s + (n - 1) = s
  · simp only [h1, if_true, setMsa_eq, withMsa_withMsa, withMsa_msadscstat]
    congr 1
    funext j
    by_cases hj : j = s
    · subst hj
      simp [takeMsa]
    · simp [takeMsa, upd_of_ne hj, hj]
  · simp only [h1, if_false, setMsa_eq, withMsa_withMsa, withMsa_msadscstat]
    congr 1
    funext j
    by_cases hj : j = s
    · subst hj
      rw [upd_self, upd_of_ne (by omega), upd_self]
      simp [takeMsa]
    · rw [upd_of_ne hj]
      by_cases hj' : j = s + (n - 1)
      · rw [hj', upd_self, upd_of_ne h1]
        unfold takeMsa
        rw [if_neg h1, if_pos rfl]
      · rw [upd_of_ne hj', upd_of_ne hj]
        simp [takeMsa, hj, hj']

/-! ## Unlinking the first block of a list -/

theorem mmRetnmsaobOnbafhlst_nil {x : Mem} {p : BafhPtr} (h : x.free p = []) :
    mmRetnmsaobOnbafhlst x p = none := by
  have hl : (x.bafh p).afFrelst = [] := h
  unfold mmRetnmsaobOnbafhlst
  simp only [hl]
  split <;> rfl

theorem mmRetnmsaobOnbafhlst_cons {x : Mem} {msanr : Nat} {held : List Seg}
    (h : MemInv x msanr held) {p : BafhPtr} (hp : p ∈ ptrs) {s : Nat} {l : List Nat}
    (hl : x.free p = s :: l) :
    mmRetnmsaobOnbafhlst x p
      = some (x.setBafh p ((x.bafh p).delObj s), s, .msa (s + (p.ord - 1))) := by
  have hmem : s ∈ x.free p := by rw [hl]; exact List.mem_cons_self
  have hb := h.free p hp s hmem
  have hf : 0 < (x.bafh p).afFobjnr := by
    rw [h.fobjnr p hp, hl]
    exact Nat.succ_pos _
  have hm : 0 < (x.bafh p).afMobjnr := by
    rw [h.mobjnr p hp, hl]
    exact Nat.succ_pos _
  have hl' : (x.bafh p).afFrelst = s :: l := hl
  have hend : (if (x.msadscstat s).mfOlkty = .bafh then Odlink.msa s
      else (x.msadscstat s).mdOdlink) = .msa (s + (p.ord - 1)) := by
    by_cases h1 : 1 < p.ord
    · obtain ⟨ho, hlk⟩ := hb.first h1
      rw [ho, hlk]
      rfl
    · have hone : p.ord = 1 := by
        have := p.ord_pos
        omega
      have hlast := hb.last.1
      rw [hone] at hlast ⊢
      exact if_pos hlast
  unfold mmRetnmsaobOnbafhlst
  simp only [hl']
  rw [if_neg (by omega), hend]

/-! ## Cutting a block down -/

/-- The descriptors after one round of the halving loop: the upper half of the
block of `m + m` pages at `s` is tagged for list `p`, the lower half keeps its
start tag. -/
def cutMsa (d : MsaArr) (p : BafhPtr) (s m : Nat) : MsaArr :=
  upd (upd (upd d (s + m) (fun x => { x with mfOlkty := .oder, mdOdlink := .msa (s + m + (m - 1)) }))
      (s + m + (m - 1)) (fun x => { x with mfOlkty := .bafh, mdOdlink := .bafh p }))
    s (fun x => { x with mdOdlink := .msa (s + (m - 1)) })

theorem cutMsa_retag (d : MsaArr) (p : BafhPtr) {s m : Nat} (hm : 0 < m) :
    Retag d (cutMsa d p s m) s (m + m) := by
  have hstart : (Seg.mk s (m + m)).Has s := Seg.has_mk (by omega) (by omega)
  have hmid : (Seg.mk s (m + m)).Has (s + m) := Seg.has_mk (by omega) (by omega)
  have hend : (Seg.mk s (m + m)).Has (s + m + (m - 1)) :=
    Seg.has_mk (by omega) (by omega)
  unfold cutMsa
  refine Retag.upd (Retag.upd (Retag.upd (Retag.refl d s _) hmid ?_) hend ?_) hstart ?_
  · exact fun _ => ⟨rfl, rfl, rfl⟩
  · exact fun _ => ⟨rfl, rfl, rfl⟩
  · exact fun _ => ⟨rfl, rfl, rfl⟩

section Cut

variable {d : MsaArr} {ty : MaType} {s m : Nat}

/-- The start of the lower half. -/
theorem cutMsa_start (p : BafhPtr) (hm : 0 < m) :
    cutMsa d p s m s = { d s with mdOdlink := .msa (s + (m - 1)) } := by
  unfold cutMsa
  rw [upd_self, upd_of_ne (by omega), upd_of_ne (by omega)]

/-- The end of the upper half. -/
theorem cutMsa_end (p : BafhPtr) (hm : 0 < m) :
    (cutMsa d p s m (s + m + (m - 1))).mfOlkty = .bafh ∧
      (cutMsa d p s m (s + m + (m - 1))).mdOdlink = .bafh p := by
  unfold cutMsa
  rw [upd_of_ne (by omega), upd_self]
  exact ⟨rfl, rfl⟩

/-- The start of the upper half, when it is not its end. -/
theorem cutMsa_mid (p : BafhPtr) (hm : 1 < m) :
    (cutMsa d p s m (s + m)).mfOlkty = .oder ∧
      (cutMsa d p s m (s + m)).mdOdlink = .msa (s + m + (m - 1)) := by
  unfold cutMsa
  rw [upd_of_ne (by omega), upd_of_ne (by omega), upd_self]
  exact ⟨rfl, rfl⟩

/-- All other descriptors. -/
theorem cutMsa_other (p : BafhPtr) {j : Nat} (h1 : j ≠ s) (h2 : j ≠ s + m)
    (h3 : j ≠ s + m + (m - 1)) : cutMsa d p s m j = d j := by
  unfold cutMsa
  rw [upd_of_ne h1, upd_of_ne h3, upd_of_ne h2]

/-- Cutting touches tags only. -/
theorem cutMsa_counts (p : BafhPtr) (j : Nat) :
    (cutMsa d p s m j).mfUindx = (d j).mfUindx ∧
      (cutMsa d p s m j).pafAlloc = (d j).pafAlloc := by
  unfold cutMsa
  simp only [upd_apply]
  constructor
  · split <;> split <;> split <;> rfl
  · split <;> split <;> split <;> rfl

theorem cutMsa_upper (p : BafhPtr) (hb : LooseBlk d ty s (m + m)) (hm : 0 < m) :
    FreeBlk (cutMsa d p s m) ty p (s + m) m := by
  refine ⟨hb.shape.right.static (cutMsa_retag d p hm).static, fun i hi => ?_,
    fun i h1 h2 => ?_, fun h1 => cutMsa_mid p h1, cutMsa_end p hm⟩
  · rw [(cutMsa_counts p _).1, (cutMsa_counts p _).2, Nat.add_assoc]
    exact hb.clean (m + i) (by omega)
  · rw [cutMsa_other p (by omega) (by omega) (by omega), Nat.add_assoc]
    exact hb.inner (m + i) (by omega) (by omega)

theorem cutMsa_lower (p : BafhPtr) (hb : LooseBlk d ty s (m + m)) (hm : 0 < m) :
    LooseBlk (cutMsa d p s m) ty s m := by
  have hfirst : (d s).mfOlkty = .oder := by
    rcases hb.first with ⟨ho, _⟩ | ⟨h1, _⟩
    · exact ho
    · omega
  refine ⟨hb.shape.left.static (cutMsa_retag d p hm).static, fun i hi => ?_,
    fun i h1 h2 => ?_, Or.inl ?_, fun h1 => ?_⟩
  · rw [(cutMsa_counts p _).1, (cutMsa_counts p _).2]
    exact hb.clean i (by omega)
  · rw [cutMsa_other p (by omega) (by omega) (by omega)]
    exact hb.inner i h1 (by omega)
  · rw [cutMsa_start p hm]
    exact ⟨hfirst, rfl⟩
  · rw [cutMsa_other p (by omega) (by omega) (by omega),
      (hb.inner (m - 1) (by omega) (by omega)).1]
    decide

end Cut

/-- Filing an upper half succeeds. -/
theorem mrdmbAddMsaBafh_spec {x : Mem} {ty : MaType} {p : BafhPtr} {s m : Nat}
    (hb : LooseBlk x.msadscstat ty s (m + m)) (hm : 0 < m) (hlt : s + (m + m) < wordMod)
    (hord : (x.bafh p).afOderpnr = m) :
    mrdmbAddMsaBafh x p (s + m) (s + m + (m - 1))
      = some ((x.tagBlock p (s + m) (s + m + (m - 1))).setBafh p
          ((x.bafh p).addObj (s + m))) := by
  have hc0 := hb.clean m (by omega)
  have hc1 := hb.clean (m + (m - 1)) (by omega)
  rw [← Nat.add_assoc] at hc1
  unfold mrdmbAddMsaBafh
  simp only [hord, msaSpan_block hm (show s + m + m < wordMod by omega), hc0.1, hc0.2, hc1.1,
    hc1.2]
  rw [if_neg (by simp), if_neg (by simp), if_neg (by simp), if_neg (by omega)]

/-- The lists after the halving loop has run from list `rel + n` down to list
`rel`: each list it passed has the upper half it cut off there. -/
def cutLists (a s rel n : Nat) (L : BafhPtr → Bafhlst) : BafhPtr → Bafhlst
  | .lie b k =>
      if b = a ∧ rel ≤ k ∧ k < rel + n then (L (.lie b k)).addObj (s + 2 ^ k)
      else L (.lie b k)
  | .one b => L (.one b)

theorem cutLists_zero (a s rel : Nat) (L : BafhPtr → Bafhlst) : cutLists a s rel 0 L = L := by
  funext q
  cases q with
  | lie b k => exact if_neg (by omega)
  | one b => rfl

theorem cutLists_succ (a s rel n : Nat) (L : BafhPtr → Bafhlst) :
    cutLists a s rel n (Function.update L (.lie a (rel + n))
        ((L (.lie a (rel + n))).addObj (s + 2 ^ (rel + n))))
      = cutLists a s rel (n + 1) L := by
  funext q
  cases q with
  | lie b k =>
      simp only [cutLists]
      by_cases hq : b = a ∧ k = rel + n
      · obtain ⟨rfl, rfl⟩ := hq
        rw [if_neg (by omega), if_pos ⟨rfl, by omega, by omega⟩, Function.update_self]
      · have hne : BafhPtr.lie b k ≠ .lie a (rel + n) := by
          intro h
          injection h with h1 h2
          exact hq ⟨h1, h2⟩
        rw [Function.update_of_ne hne]
        by_cases hk : b = a ∧ rel ≤ k ∧ k < rel + n
        · rw [if_pos hk, if_pos ⟨hk.1, hk.2.1, by omega⟩]
        · rw [if_neg hk, if_neg (by omega)]
  | one b =>
      simp only [cutLists]
      rw [Function.update_of_ne (by simp)]

theorem cutLists_area {a s rel n : Nat} {L : BafhPtr → Bafhlst} {q : BafhPtr}
    (hq : q.area ≠ a) : cutLists a s rel n L q = L q := by
  cases q with
  | lie b k => exact if_neg fun h => hq h.1
  | one b => rfl

/-- What the halving loop achieves. -/
structure CutDown (a s rel n msanr : Nat) (out : List Seg) (x x' : Mem) : Prop where
  inv : MemInv x' msanr (⟨s, 2 ^ rel⟩ :: out)
  loose : LooseBlk x'.msadscstat (areaTy a) s (2 ^ rel)
  bafh : x'.bafh = cutLists a s rel n x.bafh
  hdr : x'.hdr = x.hdr
  retag : Retag x.msadscstat x'.msadscstat s (2 ^ (rel + n))

/-- **The halving loop** never stops and cuts the block down to list `rel`. -/
theorem divmsaLoop_spec {a : Nat} (ha : a < 2) (rel s : Nat) {msanr : Nat} {out : List Seg} :
    ∀ (n : Nat) (x : Mem), rel + n < mdivmerArrLmax →
      MemInv x msanr (⟨s, 2 ^ (rel + n)⟩ :: out) →
      LooseBlk x.msadscstat (areaTy a) s (2 ^ (rel + n)) →
      ∃ x', divmsaLoop a rel s n x (2 ^ (rel + n)) = .ok (x', 2 ^ rel) ∧
        CutDown a s rel n msanr out x x' := by
  intro n
  induction n with
  | zero =>
      intro x _ hinv hb
      exact ⟨x, rfl, hinv, hb, (cutLists_zero a s rel x.bafh).symm, rfl, Retag.refl _ _ _⟩
  | succ n ih =>
      intro x hlt hinv hb
      let m := 2 ^ (rel + n)
      have hm : 0 < m := Nat.two_pow_pos _
      have hpow : 2 ^ (rel + (n + 1)) = m + m := by
        rw [← Nat.add_assoc, Nat.pow_succ]
        omega
      rw [hpow] at hinv hb ⊢
      have hp : (BafhPtr.lie a (rel + n)).Used := ⟨ha, by omega⟩
      have hord : (x.bafh (.lie a (rel + n))).afOderpnr = m :=
        hinv.order _ hp.mem_ptrs
      have hend : s + (m + m) < wordMod := by
        have h1 := hinv.held_end_le (b := ⟨s, m + m⟩) List.mem_cons_self (by simp only; omega)
        have h2 := hinv.msanr_lt
        simp only at h1
        omega
      have hlink : (x.msadscstat s).mdOdlink = .msa (s + m + (m - 1)) := by
        rcases hb.first with ⟨_, hl⟩ | ⟨h1, _⟩
        · rw [hl]
          congr 1
          omega
        · omega
      -- one round: tag both halves, file the upper one
      let p := BafhPtr.lie a (rel + n)
      let x₁ := (x.withMsa (cutMsa x.msadscstat p s m)).setBafh p ((x.bafh p).addObj (s + m))
      have hretag : Retag x.msadscstat (cutMsa x.msadscstat p s m) s (m + m) :=
        cutMsa_retag _ p hm
      have hinv₁ : MemInv x₁ msanr (⟨s, m⟩ :: out) := by
        have h1 := hinv.retag (b := ⟨s, m + m⟩) List.mem_cons_self hretag
        have h2 := (h1.recut h1.tiles.cut).push (p := p) hp
          (by rw [withMsa_msadscstat]; exact cutMsa_upper p hb hm)
        rw [withMsa_bafh] at h2
        exact h2
      have hd₁ : x₁.msadscstat = cutMsa x.msadscstat p s m := setBafh_msadscstat _ _ _
      have hb₁ : LooseBlk x₁.msadscstat (areaTy a) s m := by
        rw [hd₁]
        exact cutMsa_lower p hb hm
      have hround : divmsaLoop a rel s (n + 1) x (m + m) = divmsaLoop a rel s n x₁ m := by
        rw [divmsaLoop]
        simp only [hlink, hord]
        rw [mrdmbAddMsaBafh_spec hb hm hend hord, sub64_eq (by omega) (by omega),
          Nat.add_sub_cancel]
        simp only [Mem.tagBlock, setMsa_eq, withMsa_withMsa, withMsa_msadscstat,
          setBafh_withMsa]
        rfl
      obtain ⟨x', hrun, hcut⟩ := ih x₁ (by omega) hinv₁ hb₁
      refine ⟨x', hround.trans hrun, hcut.inv, hcut.loose, ?_, ?_, ?_⟩
      · rw [hcut.bafh, ← cutLists_succ, setBafh_bafh, withMsa_bafh]
      · rw [hcut.hdr, setBafh_hdr, withMsa_hdr]
      · have hret := hcut.retag
        rw [hd₁] at hret
        rw [hpow]
        exact hretag.trans (hret.mono (Nat.le_refl s) (by omega))

/-! ## Taking a block off the lists -/

/-- Pages of a block taken from list `p` and cut down to list `rel`; blocks of
`dm_onemsalst` are never cut. -/
def BafhPtr.cut (p : BafhPtr) (rel : Nat) : Nat :=
  match p with
  | .lie _ _ => 2 ^ rel
  | .one _ => 1

/-- The lists after block `s` of list `p` was taken and cut down. -/
def takeLists (p : BafhPtr) (rel s : Nat) (L : BafhPtr → Bafhlst) : BafhPtr → Bafhlst :=
  match p with
  | .lie a k => cutLists a s rel (k - rel) (Function.update L p ((L p).delObj s))
  | .one _ => Function.update L p ((L p).delObj s)

/-- The memory `x'` after the first block `s` of list `p` of `x` was unlinked,
cut down to list `rel` and handed out. -/
structure Taken (p : BafhPtr) (rel s msanr : Nat) (out : List Seg) (x x' : Mem) : Prop where
  used : p.Used
  head : ∃ l, x.free p = s :: l
  low : ∀ a k, p = .lie a k →
    rel ≤ k ∧ ∀ j, rel ≤ j → j < k → x.free (.lie a j) = []
  inv : MemInv x' msanr (⟨s, p.cut rel⟩ :: out)
  blk : OutBlk x'.msadscstat (areaTy p.area) s (p.cut rel)
  bafh : x'.bafh = takeLists p rel s x.bafh
  hdr : x'.hdr = x.hdr
  retag : Retag x.msadscstat x'.msadscstat s p.ord

theorem takeLists_area {p q : BafhPtr} {rel s : Nat} {L : BafhPtr → Bafhlst}
    (hq : q.area ≠ p.area) : takeLists p rel s L q = L q := by
  have hne : q ≠ p := fun h => hq (by rw [h])
  cases p with
  | lie a k =>
      simp only [takeLists]
      rw [cutLists_area (a := a) hq, Function.update_of_ne hne]
  | one a =>
      simp only [takeLists]
      rw [Function.update_of_ne hne]

/-- A block that fits its list exactly is not cut. -/
theorem takeLists_self (a k s : Nat) (L : BafhPtr → Bafhlst) :
    takeLists (.lie a k) k s L
      = Function.update L (.lie a k) ((L (.lie a k)).delObj s) := by
  simp only [takeLists]
  rw [Nat.sub_self, cutLists_zero]

/-- A list the cut passed has the upper half it left there. -/
theorem takeLists_below {a k rel s j : Nat} {L : BafhPtr → Bafhlst} (h1 : rel ≤ j)
    (h2 : j < k) :
    takeLists (.lie a k) rel s L (.lie a j) = (L (.lie a j)).addObj (s + 2 ^ j) := by
  have hne : BafhPtr.lie a j ≠ .lie a k := by
    intro h
    injection h with _ h
    omega
  simp only [takeLists, cutLists]
  rw [if_pos ⟨trivial, h1, by omega⟩, Function.update_of_ne hne]

/-- The list the block came from. -/
theorem takeLists_at {p : BafhPtr} {rel s : Nat} {L : BafhPtr → Bafhlst} :
    takeLists p rel s L p = (L p).delObj s := by
  cases p with
  | lie a k =>
      simp only [takeLists, cutLists]
      rw [if_neg (by omega), Function.update_self]
  | one a =>
      simp only [takeLists]
      rw [Function.update_self]

/-- Every other list. -/
theorem takeLists_other {p q : BafhPtr} {rel s : Nat} {L : BafhPtr → Bafhlst} (hq : q ≠ p)
    (hlow : ∀ a k j, p = .lie a k → q = .lie a j → ¬ (rel ≤ j ∧ j < k)) :
    takeLists p rel s L q = L q := by
  cases p with
  | lie a k =>
      cases q with
      | lie b j =>
          simp only [takeLists, cutLists]
          rw [if_neg ?_, Function.update_of_ne hq]
          rintro ⟨rfl, h1, h2⟩
          exact hlow b k j rfl rfl ⟨h1, by omega⟩
      | one b =>
          simp only [takeLists, cutLists]
          rw [Function.update_of_ne hq]
  | one a =>
      simp only [takeLists]
      rw [Function.update_of_ne hq]

section Take

variable {x : Mem} {msanr : Nat} {out : List Seg}

/-- Taking touches the lists of one area only. -/
theorem Taken.frame {x' : Mem} {p : BafhPtr} {rel s : Nat}
    (h : Taken p rel s msanr out x x') : Frame p.area x x' :=
  ⟨h.hdr, fun q hq => by rw [h.bafh, takeLists_area hq], h.retag.static⟩

/-- Cutting a block down leaves no two blocks that could be joined. -/
theorem Taken.noAdj {x' : Mem} {p : BafhPtr} {rel s : Nat}
    (h : Taken p rel s msanr out x x') (hn : NoAdj x) : NoAdj x' := by
  intro a k hk t ht ht'
  rw [(h.retag.static t).2.2, (h.retag.static (t + 2 ^ k)).2.2]
  have hpow := Nat.two_pow_pos k
  rw [Mem.free, h.bafh] at ht ht'
  by_cases hp : BafhPtr.lie a k = p
  · subst hp
    rw [takeLists_at, delObj_afFrelst] at ht ht'
    exact hn a k hk t (List.mem_of_mem_erase ht) (List.mem_of_mem_erase ht')
  · by_cases hbelow : ∃ j, p = .lie a j ∧ rel ≤ k ∧ k < j
    · obtain ⟨j, rfl, h1, h2⟩ := hbelow
      have hempty : (x.bafh (.lie a k)).afFrelst = [] := (h.low a j rfl).2 k h1 h2
      rw [takeLists_below h1 h2, addObj_afFrelst, hempty, List.mem_singleton] at ht ht'
      omega
    · have hother : ∀ b j i, p = .lie b j → BafhPtr.lie a k = .lie b i →
          ¬ (rel ≤ i ∧ i < j) := by
        rintro b j i rfl hi ⟨h1, h2⟩
        injection hi with h3 h4
        subst h3
        subst h4
        exact hbelow ⟨j, rfl, h1, h2⟩
      rw [takeLists_other hp hother] at ht ht'
      exact hn a k hk t ht ht'

theorem takeBlock_spec {ty : MaType} {s n relnr : Nat} (hb : LooseBlk x.msadscstat ty s n)
    (hn : 0 < n) (hlt : s + n < wordMod) :
    takeBlock x s n relnr
      = .ok (x.withMsa (takeMsa x.msadscstat s (s + (n - 1))), some (s, relnr)) := by
  unfold takeBlock
  rw [mmDivpagesOpmsadsc_spec hb hn hlt]

/-- The first block of a list in hand. -/
theorem MemInv.unlink (h : MemInv x msanr out) {p : BafhPtr} (hp : p ∈ ptrs) {s : Nat}
    {l : List Nat} (hl : x.free p = s :: l) :
    MemInv (x.setBafh p ((x.bafh p).delObj s)) msanr (⟨s, p.ord⟩ :: out) ∧
      FreeBlk x.msadscstat (areaTy p.area) p s p.ord ∧ s + p.ord < wordMod := by
  have hs : s ∈ x.free p := by rw [hl]; exact List.mem_cons_self
  have hend := h.free_end_le hp hs
  exact ⟨h.remove hp hs, h.free p hp s hs, Nat.lt_of_le_of_lt hend h.msanr_lt⟩

/-- A block that fits is handed out whole. -/
theorem take_whole (h : MemInv x msanr out) {p : BafhPtr} (hp : p.Used) {s : Nat}
    {l : List Nat} (hl : x.free p = s :: l) (rel : Nat) (hrel : p.cut rel = p.ord)
    (hlow : ∀ a k, p = .lie a k →
      rel ≤ k ∧ ∀ j, rel ≤ j → j < k → x.free (.lie a j) = [])
    (hlists : takeLists p rel s x.bafh
      = Function.update x.bafh p ((x.bafh p).delObj s)) :
    ∃ x', takeBlock (x.setBafh p ((x.bafh p).delObj s)) s p.ord p.ord
        = .ok (x', some (s, p.ord)) ∧ Taken p rel s msanr out x x' := by
  obtain ⟨hinv, hfree, hlt⟩ := h.unlink hp.mem_ptrs hl
  have hloose := hfree.loose p.ord_pos
  have hretag : Retag x.msadscstat (takeMsa x.msadscstat s (s + (p.ord - 1))) s p.ord :=
    takeMsa_retag _ p.ord_pos
  refine ⟨(x.setBafh p ((x.bafh p).delObj s)).withMsa
    (takeMsa x.msadscstat s (s + (p.ord - 1))), ?_, ?_⟩
  · have hd := setBafh_msadscstat x p ((x.bafh p).delObj s)
    rw [takeBlock_spec (by rw [hd]; exact hloose) p.ord_pos hlt, hd]
  · refine {
      used := hp
      head := ⟨l, hl⟩
      low := hlow
      inv := ?_
      blk := ?_
      bafh := by rw [withMsa_bafh, setBafh_bafh, hlists]
      hdr := by rw [withMsa_hdr, setBafh_hdr]
      retag := hretag }
    · rw [hrel]
      refine hinv.retag (b := ⟨s, p.ord⟩) List.mem_cons_self ?_
      rw [setBafh_msadscstat]
      exact hretag
    · rw [hrel]
      exact takeMsa_out hloose p.ord_pos

/-- **Dividing** the first block of list `divbfl` down to list `relbfl`. -/
theorem mmReldpgsdivmsaBafhl_spec (h : MemInv x msanr out) {a pages rel div s : Nat}
    {l : List Nat} (ha : a < 2) (hpages : 1 ≤ pages) (hrel : rel ≤ div)
    (hdiv : div < mdivmerArrLmax) (hl : x.free (.lie a div) = s :: l)
    (hlow : ∀ j, rel ≤ j → j < div → x.free (.lie a j) = []) :
    ∃ x', mmReldpgsdivmsaBafhl x a pages rel div = .ok (x', some (s, 2 ^ rel)) ∧
      Taken (.lie a div) rel s msanr out x x' := by
  have hp : (BafhPtr.lie a div).Used := ⟨ha, hdiv⟩
  have hq : (BafhPtr.lie a rel).Used := ⟨ha, by omega⟩
  have hord : (x.bafh (.lie a div)).afOderpnr = 2 ^ div := h.order _ hp.mem_ptrs
  have hordr : (x.bafh (.lie a rel)).afOderpnr = 2 ^ rel := h.order _ hq.mem_ptrs
  have hlow' : ∀ b k, BafhPtr.lie a div = .lie b k →
      rel ≤ k ∧ ∀ j, rel ≤ j → j < k → x.free (.lie b j) = [] := by
    intro b k hbk
    injection hbk with h1 h2
    subst h1
    subst h2
    exact ⟨hrel, hlow⟩
  obtain ⟨hinv, hfree, hlt⟩ := h.unlink hp.mem_ptrs hl
  have hspan : msaSpan s (s + ((BafhPtr.lie a div).ord - 1)) = 2 ^ div :=
    msaSpan_block (Nat.two_pow_pos div) hlt
  unfold mmReldpgsdivmsaBafhl
  rw [if_neg (by omega), if_neg (by omega), mmRetnmsaobOnbafhlst_cons h hp.mem_ptrs hl]
  simp only [reduceCtorEq, if_false, Odlink.toMsa, hspan, hord, ne_eq, not_true_eq_false, hordr]
  by_cases heq : rel = div
  · subst heq
    rw [if_pos rfl]
    exact take_whole h hp hl rel rfl hlow' (takeLists_self a rel s x.bafh)
  · rw [if_neg heq]
    have hsum : rel + (div - rel) = div := by omega
    have hloose : LooseBlk (x.setBafh (.lie a div) ((x.bafh (.lie a div)).delObj s)).msadscstat
        (areaTy a) s (2 ^ div) := by
      rw [setBafh_msadscstat]
      exact hfree.loose (Nat.two_pow_pos div)
    obtain ⟨x₁, hrun, hcut⟩ := divmsaLoop_spec ha rel s (div - rel)
      (x.setBafh (.lie a div) ((x.bafh (.lie a div)).delObj s)) (by omega)
      (by rw [hsum]; exact hinv) (by rw [hsum]; exact hloose)
    rw [hsum] at hrun
    have hretag := hcut.retag
    rw [setBafh_msadscstat, hsum] at hretag
    have hpow : 2 ^ rel ≤ 2 ^ div := Nat.pow_le_pow_right (by decide) hrel
    have hlt' : s + 2 ^ rel < wordMod := by
      have h1 : s + 2 ^ div < wordMod := hlt
      omega
    have htake := takeMsa_retag x₁.msadscstat (s := s) (Nat.two_pow_pos rel)
    refine ⟨x₁.withMsa (takeMsa x₁.msadscstat s (s + (2 ^ rel - 1))), ?_, ?_⟩
    · rw [hrun]
      simp only
      rw [takeBlock_spec hcut.loose (Nat.two_pow_pos rel) hlt']
    · exact {
        used := hp
        head := ⟨l, hl⟩
        low := hlow'
        inv := hcut.inv.retag (b := ⟨s, 2 ^ rel⟩) List.mem_cons_self htake
        blk := takeMsa_out hcut.loose (Nat.two_pow_pos rel)
        bafh := by rw [withMsa_bafh, hcut.bafh, setBafh_bafh]; rfl
        hdr := by rw [withMsa_hdr, hcut.hdr, setBafh_hdr]
        retag := hretag.trans (htake.mono (Nat.le_refl s) (by omega)) }

/-! ## Choosing the list -/

theorem lie_fobjnr_pos_iff (h : MemInv x msanr out) {a k : Nat} (ha : a < memareaMax)
    (hk : k < mdivmerArrLmax) :
    0 < (x.bafh (.lie a k)).afFobjnr ↔ x.free (.lie a k) ≠ [] := by
  rw [h.fobjnr _ (lie_mem_ptrs ha hk)]
  exact List.length_pos_iff

/-- The search finds the lowest list that has a block, at or above the list of
the request. -/
theorem onmpgsRetnBafhlst_spec (h : MemInv x msanr out) {a pages : Nat} (ha : a < 2)
    (hpages : 1 ≤ pages) :
    (onmpgsRetnBafhlst x a pages = none ∧
      ∀ k, retnDivoder pages ≤ k → k < mdivmerArrLmax → x.free (.lie a k) = []) ∨
    ∃ div, onmpgsRetnBafhlst x a pages = some (retnDivoder pages, div) ∧
      retnDivoder pages ≤ div ∧ div < mdivmerArrLmax ∧ x.free (.lie a div) ≠ [] ∧
      ∀ j, retnDivoder pages ≤ j → j < div → x.free (.lie a j) = [] := by
  have ha' : a < memareaMax := Nat.lt_trans ha (by decide)
  have hle := le_two_pow_retnDivoder hpages
  by_cases hbig : mdivmerArrLmax ≤ retnDivoder pages
  · refine Or.inl ⟨?_, fun k h1 h2 => absurd h2 (by omega)⟩
    unfold onmpgsRetnBafhlst
    rw [if_neg (by omega)]
    exact if_pos hbig
  · have hord : ∀ k, k < mdivmerArrLmax → (x.bafh (.lie a k)).afOderpnr = 2 ^ k :=
      fun k hk => h.order _ (lie_mem_ptrs ha' hk)
    have hgate : ¬ (x.bafh (.lie a (retnDivoder pages))).afOderpnr < pages := by
      rw [hord _ (by omega)]
      omega
    -- from the list of the request on, only emptiness decides
    have htest : ∀ k, retnDivoder pages ≤ k → k < mdivmerArrLmax →
        ((pages ≤ (x.bafh (.lie a k)).afOderpnr && 0 < (x.bafh (.lie a k)).afFobjnr) = true ↔
          x.free (.lie a k) ≠ []) := by
      intro k h1 h2
      have hpow : 2 ^ retnDivoder pages ≤ 2 ^ k := Nat.pow_le_pow_right (by decide) h1
      rw [Bool.and_eq_true, decide_eq_true_iff, decide_eq_true_iff,
        lie_fobjnr_pos_iff h ha' h2, hord k h2]
      exact ⟨fun hk => hk.2, fun hk => ⟨by omega, hk⟩⟩
    unfold onmpgsRetnBafhlst
    rw [if_neg (by omega)]
    simp only
    rw [if_neg hbig, if_neg hgate]
    cases hfind : (List.range' (retnDivoder pages) (mdivmerArrLmax - retnDivoder pages)).find?
        (fun idx => pages ≤ (x.bafh (.lie a idx)).afOderpnr &&
          0 < (x.bafh (.lie a idx)).afFobjnr) with
    | none =>
        refine Or.inl ⟨rfl, fun k h1 h2 => ?_⟩
        rw [List.find?_eq_none] at hfind
        have hk := hfind k (by rw [List.mem_range'_1]; omega)
        by_contra hne
        exact hk ((htest k h1 h2).mpr hne)
    | some div =>
        rw [List.find?_range'_eq_some] at hfind
        obtain ⟨hdiv, hmem, hmin⟩ := hfind
        rw [List.mem_range'_1] at hmem
        refine Or.inr ⟨div, rfl, hmem.1, by omega, (htest div hmem.1 (by omega)).mp hdiv,
          fun j h1 h2 => ?_⟩
        by_contra hne
        have := (htest j h1 (by omega)).mpr hne
        have hj := hmin j h1 h2
        rw [this] at hj
        exact Bool.noConfusion hj

theorem onmaRetnMaxbafhlst_some (h : MemInv x msanr out) {a li : Nat} (ha : a < 2)
    (hli : onmaRetnMaxbafhlst x a = some li) :
    li < mdivmerArrLmax ∧ x.free (.lie a li) ≠ [] := by
  unfold onmaRetnMaxbafhlst at hli
  have hmem := List.mem_of_find?_eq_some hli
  rw [List.mem_reverse, List.mem_range] at hmem
  have htest := List.find?_some hli
  rw [decide_eq_true_iff] at htest
  exact ⟨hmem, (lie_fobjnr_pos_iff h (Nat.lt_trans ha (by decide)) hmem).mp htest⟩

/-! ## Division of an area -/

/-- `DMF_MAXDIV`: the whole first block of the highest list, if there is one. -/
theorem mmMaxdivpagesOnmarea_spec (h : MemInv x msanr out) {a : Nat} (ha : a < 2) :
    mmMaxdivpagesOnmarea x a = .ok (x, none) ∨
    ∃ x' s li, mmMaxdivpagesOnmarea x a = .ok (x', some (s, 2 ^ li)) ∧
      Taken (.lie a li) li s msanr out x x' := by
  unfold mmMaxdivpagesOnmarea
  cases hli : onmaRetnMaxbafhlst x a with
  | none => exact Or.inl rfl
  | some li =>
      obtain ⟨hlt, hne⟩ := onmaRetnMaxbafhlst_some h ha hli
      have hp : (BafhPtr.lie a li).Used := ⟨ha, hlt⟩
      obtain ⟨s, l, hl⟩ := List.exists_cons_of_ne_nil hne
      have hord : (x.bafh (.lie a li)).afOderpnr = 2 ^ li := h.order _ hp.mem_ptrs
      have hlow : ∀ b k, BafhPtr.lie a li = .lie b k →
          li ≤ k ∧ ∀ j, li ≤ j → j < k → x.free (.lie b j) = [] := by
        intro b k hbk
        injection hbk with h1 h2
        exact ⟨by omega, fun j h3 h4 => absurd h4 (by omega)⟩
      obtain ⟨x', hrun, htaken⟩ :=
        take_whole h hp hl li rfl hlow (takeLists_self a li s x.bafh)
      refine Or.inr ⟨x', s, li, ?_, htaken⟩
      simp only [mmRetnmsaobOnbafhlst_cons h hp.mem_ptrs hl, reduceCtorEq, if_false, hord]
      exact hrun

/-- `DMF_RELDIV`: refused, with nothing changed, exactly when the counters or
the lists say so. -/
theorem mmReldivpagesOnmarea_spec (h : MemInv x msanr out) {a : Nat} (ha : a < 2)
    (pages : Nat) :
    (mmReldivpagesOnmarea x a pages = .ok (x, none) ∧
      (scanMapgsallocOk (x.mareastat a) pages = false ∨
        ∀ k, retnDivoder pages ≤ k → k < mdivmerArrLmax → x.free (.lie a k) = [])) ∨
    (1 ≤ pages ∧ ∃ x' s div,
      mmReldivpagesOnmarea x a pages = .ok (x', some (s, 2 ^ retnDivoder pages)) ∧
      Taken (.lie a div) (retnDivoder pages) s msanr out x x') := by
  unfold mmReldivpagesOnmarea
  by_cases hpages : pages < 1
  · rw [if_pos hpages]
    refine Or.inl ⟨rfl, Or.inl ?_⟩
    simp [scanMapgsallocOk, show pages = 0 by omega]
  · rw [if_neg hpages]
    cases hscan : scanMapgsallocOk (x.mareastat a) pages with
    | false => exact Or.inl ⟨rfl, Or.inl rfl⟩
    | true =>
        simp only [Bool.not_true, Bool.false_eq_true, if_false]
        rcases onmpgsRetnBafhlst_spec h ha (show 1 ≤ pages by omega) with
          ⟨hnone, hempty⟩ | ⟨div, hsome, hrel, hdiv, hne, hlow⟩
        · rw [hnone]
          exact Or.inl ⟨rfl, Or.inr hempty⟩
        · rw [hsome]
          obtain ⟨s, l, hl⟩ := List.exists_cons_of_ne_nil hne
          obtain ⟨x', hrun, htaken⟩ :=
            mmReldpgsdivmsaBafhl_spec h ha (show 1 ≤ pages by omega) hrel hdiv hl hlow
          exact Or.inr ⟨by omega, x', s, div, hrun, htaken⟩

/-- The process area hands out single pages. -/
theorem mmPrcdivpagesOnmarea_spec (h : MemInv x msanr out) (pages : Nat) :
    mmPrcdivpagesOnmarea x 2 pages = .ok (x, none) ∨
    ∃ x' s, mmPrcdivpagesOnmarea x 2 pages = .ok (x', some (s, 1)) ∧
      Taken (.one 2) 0 s msanr out x x' := by
  have hp : (BafhPtr.one 2).Used := rfl
  unfold mmPrcdivpagesOnmarea
  split
  · exact Or.inl rfl
  · split
    · exact Or.inl rfl
    · split
      · exact Or.inl rfl
      · have hord : (x.bafh (.one 2)).afOderpnr = 1 := h.order _ hp.mem_ptrs
        cases hl : x.free (.one 2) with
        | nil =>
            rw [mmRetnmsaobOnbafhlst_nil hl]
            exact Or.inl rfl
        | cons s l =>
            obtain ⟨_, _, hlt⟩ := h.unlink hp.mem_ptrs hl
            have hspan : msaSpan s (s + ((BafhPtr.one 2).ord - 1)) = 1 :=
              msaSpan_block Nat.one_pos hlt
            obtain ⟨x', hrun, htaken⟩ := take_whole h hp hl 0 rfl
              (fun b k hbk => by cases hbk) rfl
            refine Or.inr ⟨x', s, ?_, htaken⟩
            simp only [mmRetnmsaobOnbafhlst_cons h hp.mem_ptrs hl, reduceCtorEq, if_false, hord,
              Odlink.toMsa, hspan, ne_eq, not_true_eq_false]
            exact hrun

end Take

end Cosmos.Hal
