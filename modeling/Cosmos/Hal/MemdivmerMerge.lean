import Cosmos.Hal.MemdivmerDiv

/-!
# Merging keeps the allocator invariant

A freed block is tagged as a free block of its list, then joined with a free
neighbour of its size as long as one is found, one list up each time.  The
induction `mergeLoop_spec` carries the block in hand through the lists; it also
shows that the block filed at the end touches no block of its list, so that
merging never leaves two blocks that could be joined.
-/

namespace Cosmos.Hal

open Cosmos.Lib.Word64 Cosmos.Lib.Cover Cosmos.Lib.Pool

/-! ## Taking a block back -/

/-- The descriptors after `mm_merpages_opmsadsc`. -/
def giveMsa (d : MsaArr) (p : BafhPtr) (s e : Nat) : MsaArr := fun j =>
  if j = e then
    { d e with mfUindx := (d e).mfUindx - 1, pafAlloc := false, mfOlkty := .bafh, mdOdlink := .bafh p }
  else if j = s then
    { d s with mfUindx := (d s).mfUindx - 1, pafAlloc := false, mfOlkty := .oder, mdOdlink := .msa e }
  else d j

theorem giveMsa_retag (d : MsaArr) (p : BafhPtr) {s n : Nat} (hn : 0 < n) :
    Retag d (giveMsa d p s (s + (n - 1))) s n := by
  refine ⟨fun j => ?_, fun j hj => ?_⟩
  · unfold giveMsa
    by_cases h1 : j = s + (n - 1)
    · rw [if_pos h1, h1]
      exact ⟨rfl, rfl, rfl⟩
    · by_cases h2 : j = s
      · rw [if_neg h1, if_pos h2, h2]
        exact ⟨rfl, rfl, rfl⟩
      · rw [if_neg h1, if_neg h2]
        exact ⟨rfl, rfl, rfl⟩
  · have h1 : j ≠ s + (n - 1) := fun h => hj (Seg.has_mk (by omega) (by omega))
    have h2 : j ≠ s := fun h => hj (Seg.has_mk (by omega) (by omega))
    unfold giveMsa
    rw [if_neg h1, if_neg h2]

theorem giveMsa_free {d : MsaArr} {ty : MaType} {s n : Nat} (p : BafhPtr)
    (hb : OutBlk d ty s n) (hn : 0 < n) : FreeBlk (giveMsa d p s (s + (n - 1))) ty p s n := by
  have hinner : ∀ i, 0 < i → i + 1 < n → giveMsa d p s (s + (n - 1)) (s + i) = d (s + i) := by
    intro i h1 h2
    unfold giveMsa
    rw [if_neg (by omega), if_neg (by omega)]
  have he : giveMsa d p s (s + (n - 1)) (s + (n - 1)) = { d (s + (n - 1)) with
      mfUindx := (d (s + (n - 1))).mfUindx - 1, pafAlloc := false, mfOlkty := .bafh,
      mdOdlink := .bafh p } := if_pos rfl
  have hs : 1 < n → giveMsa d p s (s + (n - 1)) s = { d s with
      mfUindx := (d s).mfUindx - 1, pafAlloc := false, mfOlkty := .oder,
      mdOdlink := .msa (s + (n - 1)) } := by
    intro h1
    unfold giveMsa
    rw [if_neg (by omega), if_pos rfl]
  refine ⟨hb.shape.static (giveMsa_retag d p hn).static, fun i hi => ?_, fun i h1 h2 => ?_,
    fun h1 => ?_, ?_⟩
  · by_cases hlast : i + 1 = n
    · have hcount := (hb.ends i hi (Or.inr hlast)).1
      have hi' : i = n - 1 := by omega
      subst hi'
      rw [he]
      exact ⟨by simp only [hcount], rfl⟩
    · by_cases h0 : i = 0
      · subst h0
        have hcount : (d s).mfUindx = 1 := (hb.ends 0 hn (Or.inl rfl)).1
        rw [Nat.add_zero, hs (by omega)]
        exact ⟨by simp only [hcount], rfl⟩
      · rw [hinner i (by omega) (by omega)]
        exact hb.between i (by omega) (by omega)
  · rw [hinner i h1 h2]
    exact hb.inner i h1 h2
  · rw [hs h1]
    exact ⟨rfl, rfl⟩
  · rw [he]
    exact ⟨rfl, rfl⟩

/-- **Taking back** an owned block never stops, and nobody shares it. -/
theorem mmMerpagesOpmsadsc_spec {x : Mem} {ty : MaType} {p : BafhPtr} {s n : Nat}
    (hb : OutBlk x.msadscstat ty s n) (hn : 0 < n) (hlt : s + n < wordMod)
    (hord : (x.bafh p).afOderpnr = n) :
    mmMerpagesOpmsadsc x p s n
      = .ok (2, x.withMsa (giveMsa x.msadscstat p s (s + (n - 1)))) := by
  obtain ⟨ho, hl⟩ := hb.first
  have hc0 := hb.ends 0 hn (Or.inl rfl)
  have hc1 := hb.ends (n - 1) (by omega) (Or.inr (by omega))
  rw [Nat.add_zero] at hc0
  unfold mmMerpagesOpmsadsc
  rw [if_neg (by omega)]
  simp only [ho, hl, Odlink.toMsa, hord, msaSpan_block hn hlt, hc0.1, hc0.2, hc1.1, hc1.2]
  rw [if_neg (by simp), if_neg (by omega), if_neg (by simp), if_neg (by simp), if_neg (by simp),
    if_neg (by simp)]
  -- the count drops to zero in both cases, then the tags are written
  by_cases h1 : s = s + (n - 1)
  · rw [if_pos h1]
    have hzero : ¬ 0 < ((x.setMsa s fun m => { m with mfUindx := m.mfUindx - 1 }).msadscstat s).mfUindx := by
      simp [setMsa_eq, hc0.1]
    rw [if_neg hzero, ← h1]
    simp only [Mem.tagBlock, setMsa_eq, withMsa_withMsa, withMsa_msadscstat]
    congr 2
    congr 1
    funext j
    by_cases hj : j = s
    · subst hj
      simp [giveMsa]
    · simp [giveMsa, upd_of_ne hj, hj]
  · rw [if_neg h1]
    have hzero : ¬ 0 < (((x.setMsa s fun m => { m with mfUindx := m.mfUindx - 1 }).setMsa
        (s + (n - 1)) fun m => { m with mfUindx := m.mfUindx - 1 }).msadscstat s).mfUindx := by
      simp [setMsa_eq, upd_of_ne h1, hc0.1]
    rw [if_neg hzero]
    simp only [Mem.tagBlock, setMsa_eq, withMsa_withMsa, withMsa_msadscstat]
    congr 2
    congr 1
    funext j
    by_cases hj : j = s + (n - 1)
    · rw [hj]
      have hne : s + (n - 1) ≠ s := Ne.symm h1
      simp [giveMsa, upd_of_ne hne]
    · by_cases hj' : j = s
      · rw [hj', upd_of_ne h1, upd_self, upd_of_ne h1, upd_self, upd_of_ne h1, upd_self]
        unfold giveMsa
        rw [if_neg h1, if_pos rfl]
      · simp [giveMsa, upd_of_ne hj, upd_of_ne hj', hj, hj']

/-- Tagging a free block once more changes nothing. -/
theorem FreeBlk.tag_eq {x : Mem} {ty : MaType} {p : BafhPtr} {s n : Nat}
    (hb : FreeBlk x.msadscstat ty p s n) (hn : 0 < n) :
    x.tagBlock p s (s + (n - 1)) = x := by
  have hd : upd (upd x.msadscstat s
        (fun m => { m with mfOlkty := .oder, mdOdlink := .msa (s + (n - 1)) }))
      (s + (n - 1)) (fun m => { m with mfOlkty := .bafh, mdOdlink := .bafh p })
      = x.msadscstat := by
    funext j
    by_cases hj : j = s + (n - 1)
    · subst hj
      obtain ⟨h1, h2⟩ := hb.last
      rw [upd_self]
      by_cases h0 : s + (n - 1) = s
      · rw [h0] at h1 h2 ⊢
        rw [upd_self]
        cases hm : x.msadscstat s
        rw [hm] at h1 h2
        simp_all
      · rw [upd_of_ne h0]
        cases hm : x.msadscstat (s + (n - 1))
        rw [hm] at h1 h2
        simp_all
    · rw [upd_of_ne hj]
      by_cases hj' : j = s
      · subst hj'
        obtain ⟨h1, h2⟩ := hb.first (by omega)
        rw [upd_self]
        cases hm : x.msadscstat j
        rw [hm] at h1 h2
        simp_all
      · rw [upd_of_ne hj']
  simp only [Mem.tagBlock, setMsa_eq, withMsa_withMsa, withMsa_msadscstat]
  rw [hd]
  rfl

/-! ## Looking for a neighbour -/

/-- The block of `n` pages at `t` continues the one at `s`. -/
def Touches (d : MsaArr) (s t n : Nat) : Prop :=
  t = s + n ∧ (d t).pafPadrs = (d s).pafPadrs + n

instance (d : MsaArr) (s t n : Nat) : Decidable (Touches d s t n) :=
  inferInstanceAs (Decidable (t = s + n ∧ (d t).pafPadrs = (d s).pafPadrs + n))

section Find

variable {x : Mem} {ty : MaType} {p : BafhPtr} {s t n : Nat}

theorem mmCmsa1blkIsok_spec (hb : FreeBlk x.msadscstat ty p s n) (hn : 0 < n)
    (hlt : s + n < wordMod) (hpadr : (x.msadscstat (s + (n - 1))).pafPadrs < 2 ^ 52) :
    mmCmsa1blkIsok x p s (s + (n - 1)) = 2 := by
  obtain ⟨hlo, hll⟩ := hb.last
  have hc0 : (x.msadscstat s).mfUindx = 0 ∧ (x.msadscstat s).pafAlloc = false := hb.clean 0 hn
  have hc1 := hb.clean (n - 1) (by omega)
  have hp := (hb.shape (n - 1) (by omega)).2
  have hword : 2 ^ 52 < wordMod := by decide
  have hdist : sub64 (x.msadscstat (s + (n - 1))).pafPadrs (x.msadscstat s).pafPadrs
      = sub64 (s + (n - 1)) s := by
    rw [sub64_eq (by omega) (by omega), sub64_eq (by omega) (by omega)]
    omega
  unfold mmCmsa1blkIsok
  simp only [hlo, hll, hc1.1, hc1.2, hdist]
  rw [if_neg (by omega)]
  by_cases h1 : s = s + (n - 1)
  · rw [if_pos h1]
    simp
  · obtain ⟨hfo, hfl⟩ := hb.first (by omega)
    rw [if_neg h1]
    simp [hfo, hfl, hc0.1, hc0.2]

/-- Two free blocks of one list compare as their positions say. -/
theorem mmCmsa2blkIsok_spec (h1 : FreeBlk x.msadscstat ty p s n)
    (h2 : FreeBlk x.msadscstat ty p t n) (hn : 0 < n) (hne : s ≠ t)
    (hs : s + n < wordMod) (ht : t + n < wordMod)
    (hps : (x.msadscstat (s + (n - 1))).pafPadrs < 2 ^ 52)
    (hpt : (x.msadscstat (t + (n - 1))).pafPadrs < 2 ^ 52) :
    mmCmsa2blkIsok x p s (s + (n - 1)) t (t + (n - 1)) = .ok (
      if Touches x.msadscstat s t n then 2
      else if Touches x.msadscstat t s n then 4 else 1) := by
  have hp1 := (h1.shape (n - 1) (by omega)).2
  have hp2 := (h2.shape (n - 1) (by omega)).2
  unfold mmCmsa2blkIsok
  simp only [mmCmsa1blkIsok_spec h1 hn hs hps, mmCmsa1blkIsok_spec h2 hn ht hpt]
  rw [if_neg (by omega), if_neg (by decide), if_neg (by decide)]
  by_cases hlt : s < t
  · have hdown : ¬ Touches x.msadscstat t s n := by
      intro h
      have := h.1
      omega
    rw [if_pos ⟨hlt, by omega⟩, if_neg hdown]
    by_cases hup : Touches x.msadscstat s t n
    · obtain ⟨hidx, hpad⟩ := id hup
      rw [if_neg (by omega), if_neg (by omega), if_pos hup]
    · rw [if_neg hup]
      by_cases hidx : t = s + n
      · have hpad : ¬ (x.msadscstat t).pafPadrs = (x.msadscstat s).pafPadrs + n :=
          fun h => hup ⟨hidx, h⟩
        rw [if_neg (by omega), if_pos (by omega)]
      · rw [if_pos (by omega)]
  · have hup : ¬ Touches x.msadscstat s t n := by
      intro h
      have := h.1
      omega
    rw [if_neg (by omega), if_pos (by omega), if_neg hup]
    by_cases hdown : Touches x.msadscstat t s n
    · obtain ⟨hidx, hpad⟩ := id hdown
      rw [if_neg (by omega), if_neg (by omega), if_pos hdown]
    · rw [if_neg hdown]
      by_cases hidx : s = t + n
      · have hpad : ¬ (x.msadscstat s).pafPadrs = (x.msadscstat t).pafPadrs + n :=
          fun h => hdown ⟨hidx, h⟩
        rw [if_neg (by omega), if_pos (by omega)]
      · rw [if_pos (by omega)]

/-- The scan of a list stops at the first block that touches the one in hand. -/
theorem findCmsa2Loop_spec (hb : FreeBlk x.msadscstat ty p s n) (hn : 0 < n)
    (hs : s + n < wordMod) (hps : (x.msadscstat (s + (n - 1))).pafPadrs < 2 ^ 52) :
    ∀ l : List Nat, (∀ t ∈ l, FreeBlk x.msadscstat ty p t n ∧ s ≠ t ∧ t + n < wordMod ∧
        (x.msadscstat (t + (n - 1))).pafPadrs < 2 ^ 52) →
      (findCmsa2Loop x p n s (s + (n - 1)) l = .ok none ∧
        ∀ t ∈ l, ¬ Touches x.msadscstat s t n ∧ ¬ Touches x.msadscstat t s n) ∨
      (∃ t ∈ l, findCmsa2Loop x p n s (s + (n - 1)) l = .ok (some (t, 2)) ∧
        Touches x.msadscstat s t n) ∨
      ∃ t ∈ l, findCmsa2Loop x p n s (s + (n - 1)) l = .ok (some (t, 4)) ∧
        Touches x.msadscstat t s n := by
  intro l
  induction l with
  | nil =>
      intro _
      exact Or.inl ⟨rfl, fun t ht => absurd ht List.not_mem_nil⟩
  | cons t l ih =>
      intro hl
      obtain ⟨hbt, hne, htlt, hpt⟩ := hl t List.mem_cons_self
      have hcmp := mmCmsa2blkIsok_spec hb hbt hn hne hs htlt hps hpt
      by_cases hup : Touches x.msadscstat s t n
      · rw [if_pos hup] at hcmp
        refine Or.inr (Or.inl ⟨t, List.mem_cons_self, ?_, hup⟩)
        simp only [findCmsa2Loop, hcmp]
        rfl
      · rw [if_neg hup] at hcmp
        by_cases hdown : Touches x.msadscstat t s n
        · rw [if_pos hdown] at hcmp
          refine Or.inr (Or.inr ⟨t, List.mem_cons_self, ?_, hdown⟩)
          simp only [findCmsa2Loop, hcmp]
          rfl
        · rw [if_neg hdown] at hcmp
          have hskip : findCmsa2Loop x p n s (s + (n - 1)) (t :: l)
              = findCmsa2Loop x p n s (s + (n - 1)) l := by
            simp only [findCmsa2Loop, hcmp]
            rfl
          rw [hskip]
          rcases ih fun u hu => hl u (List.mem_cons_of_mem t hu) with
            ⟨hnone, hall⟩ | ⟨u, hu, hsome⟩ | ⟨u, hu, hsome⟩
          · refine Or.inl ⟨hnone, fun u hu => ?_⟩
            rcases List.mem_cons.mp hu with rfl | hu
            · exact ⟨hup, hdown⟩
            · exact hall u hu
          · exact Or.inr (Or.inl ⟨u, List.mem_cons_of_mem t hu, hsome⟩)
          · exact Or.inr (Or.inr ⟨u, List.mem_cons_of_mem t hu, hsome⟩)

end Find

/-! ## Joining two neighbours -/

/-- The descriptors after `mm_clear_2msaolflg` on the blocks of `n` pages at
`s` and at `s + n`. -/
def joinMsa (d : MsaArr) (p : BafhPtr) (s n : Nat) : MsaArr :=
  upd (upd (upd (upd d (s + (n - 1)) (fun m => { m with mfOlkty := .init, mdOdlink := .null }))
        (s + n) (fun m => { m with mfOlkty := .init, mdOdlink := .null }))
      s (fun m => { m with mfOlkty := .oder, mdOdlink := .msa (s + n + (n - 1)) }))
    (s + n + (n - 1)) (fun m => { m with mfOlkty := .bafh, mdOdlink := .bafh p })

section Join

variable {d : MsaArr} {ty : MaType} {p q : BafhPtr} {s n : Nat}

theorem joinMsa_retag (d : MsaArr) (p : BafhPtr) (hn : 0 < n) :
    Retag d (joinMsa d p s n) s (n + n) := by
  have h1 : (Seg.mk s (n + n)).Has (s + (n - 1)) := Seg.has_mk (by omega) (by omega)
  have h2 : (Seg.mk s (n + n)).Has (s + n) := Seg.has_mk (by omega) (by omega)
  have h3 : (Seg.mk s (n + n)).Has s := Seg.has_mk (by omega) (by omega)
  have h4 : (Seg.mk s (n + n)).Has (s + n + (n - 1)) := Seg.has_mk (by omega) (by omega)
  unfold joinMsa
  refine Retag.upd (Retag.upd (Retag.upd (Retag.upd (Retag.refl d s _) h1 ?_) h2 ?_) h3 ?_) h4 ?_
  · exact fun _ => ⟨rfl, rfl, rfl⟩
  · exact fun _ => ⟨rfl, rfl, rfl⟩
  · exact fun _ => ⟨rfl, rfl, rfl⟩
  · exact fun _ => ⟨rfl, rfl, rfl⟩

theorem joinMsa_counts (j : Nat) :
    (joinMsa d p s n j).mfUindx = (d j).mfUindx ∧
      (joinMsa d p s n j).pafAlloc = (d j).pafAlloc := by
  unfold joinMsa
  simp only [upd_apply]
  constructor
  · split <;> split <;> split <;> split <;> rfl
  · split <;> split <;> split <;> split <;> rfl

/-- Two free blocks that touch become one free block of the next list. -/
theorem joinMsa_free (h1 : FreeBlk d ty q s n) (h2 : FreeBlk d ty q (s + n) n) (hn : 0 < n)
    (hadj : Touches d s (s + n) n) : FreeBlk (joinMsa d p s n) ty p s (n + n) := by
  have hend : s + (n + n - 1) = s + n + (n - 1) := by omega
  refine ⟨(h1.shape.append h2.shape hadj.2).static (joinMsa_retag d p hn).static,
    fun i hi => ?_, fun i hi hi' => ?_, fun _ => ?_, ?_⟩
  · rw [(joinMsa_counts _).1, (joinMsa_counts _).2]
    by_cases hin : i < n
    · exact h1.clean i hin
    · have hidx : s + i = s + n + (i - n) := by omega
      rw [hidx]
      exact h2.clean (i - n) (by omega)
  · unfold joinMsa
    rw [upd_of_ne (by omega), upd_of_ne (by omega)]
    by_cases hmid : i = n
    · subst hmid
      rw [upd_self]
      exact ⟨rfl, rfl⟩
    · rw [upd_of_ne (by omega)]
      by_cases hlast : i = n - 1
      · subst hlast
        rw [upd_self]
        exact ⟨rfl, rfl⟩
      · rw [upd_of_ne (by omega)]
        by_cases hin : i < n
        · exact h1.inner i hi (by omega)
        · have hidx : s + i = s + n + (i - n) := by omega
          rw [hidx]
          exact h2.inner (i - n) (by omega) (by omega)
  · rw [hend]
    unfold joinMsa
    rw [upd_of_ne (by omega), upd_self]
    exact ⟨rfl, rfl⟩
  · rw [hend]
    unfold joinMsa
    rw [upd_self]
    exact ⟨rfl, rfl⟩

theorem mmClear2msaolflg_spec (x : Mem) (p : BafhPtr) {s n : Nat} (hn : 0 < n) :
    mmClear2msaolflg x p s (s + (n - 1)) (s + n) (s + n + (n - 1))
      = some (x.withMsa (joinMsa x.msadscstat p s n)) := by
  unfold mmClear2msaolflg
  rw [if_neg (by omega)]
  simp only [Mem.tagBlock, setMsa_eq, withMsa_withMsa, withMsa_msadscstat]
  rfl

/-- The recheck after a join never stops. -/
theorem chekCl2molkflg_spec {x : Mem} (hb : FreeBlk x.msadscstat ty p s (n + n)) (hn : 0 < n)
    (hlt : s + (n + n) < wordMod) (hord : (x.bafh p).afOderpnr = n + n) :
    chekCl2molkflg x p s (s + (n - 1)) (s + n) (s + n + (n - 1)) = true := by
  have hend : s + (n + n - 1) = s + n + (n - 1) := by omega
  obtain ⟨hfo, hfl⟩ := hb.first (by omega)
  obtain ⟨hlo, hll⟩ := hb.last
  rw [hend] at hfl hlo hll
  have hspan : msaSpan s (s + n + (n - 1)) = n + n := by
    rw [← hend]
    exact msaSpan_block (by omega) hlt
  unfold chekCl2molkflg
  simp only [hspan, hord, hfo, hfl, hlo, hll]
  rw [if_neg (by omega), if_neg (by simp), if_neg (by simp)]
  by_cases h1 : n = 1
  · rw [if_pos ⟨by omega, by omega⟩]
    simp
  · obtain ⟨h3, h4⟩ := hb.inner (n - 1) (by omega) (by omega)
    obtain ⟨h5, h6⟩ := hb.inner n hn (by omega)
    rw [if_neg (by omega), h3, h4, h5, h6]
    simp

end Join

/-! ## One round of merging -/

/-- A free block of `2 ^ k` pages of area `a` is in hand, tagged for its list. -/
structure InHand (a k s msanr : Nat) (out : List Seg) (x : Mem) : Prop where
  inv : MemInv x msanr (⟨s, 2 ^ k⟩ :: out)
  blk : FreeBlk x.msadscstat (areaTy a) (.lie a k) s (2 ^ k)

/-- What merging in area `a` leaves alone. -/
structure Kept (a : Nat) (out : List Seg) (x x' : Mem) : Prop where
  frame : Frame a x x'
  outs : ∀ c ∈ out, ∀ i, c.Has i → x'.msadscstat i = x.msadscstat i
  noAdj : NoAdj x → NoAdj x'

theorem Kept.refl (a : Nat) (out : List Seg) (x : Mem) : Kept a out x x :=
  ⟨Frame.refl a x, fun _ _ _ _ => rfl, id⟩

theorem Kept.trans {a : Nat} {out : List Seg} {x x' x'' : Mem} (h : Kept a out x x')
    (h' : Kept a out x' x'') : Kept a out x x'' :=
  ⟨h.frame.trans h'.frame, fun c hc i hi => (h'.outs c hc i hi).trans (h.outs c hc i hi),
    fun hn => h'.noAdj (h.noAdj hn)⟩

/-- Fewer blocks leave no more neighbours. -/
theorem NoAdj.mono {x x' : Mem} (hn : NoAdj x)
    (hst : SameStatic x.msadscstat x'.msadscstat)
    (hsub : ∀ p, ∀ t ∈ x'.free p, t ∈ x.free p) : NoAdj x' := by
  intro a k hk t ht ht'
  rw [(hst _).2.2, (hst _).2.2]
  exact hn a k hk t (hsub _ t ht) (hsub _ _ ht')

section Round

variable {x : Mem} {a k msanr : Nat} {out : List Seg}

/-- Joining the two blocks in hand. -/
theorem join_inHand {s : Nat} (ha : a < 2) (hk : k + 1 < mdivmerArrLmax)
    (hinv : MemInv x msanr (⟨s + 2 ^ k, 2 ^ k⟩ :: ⟨s, 2 ^ k⟩ :: out))
    (h1 : FreeBlk x.msadscstat (areaTy a) (.lie a k) s (2 ^ k))
    (h2 : FreeBlk x.msadscstat (areaTy a) (.lie a k) (s + 2 ^ k) (2 ^ k))
    (hadj : Touches x.msadscstat s (s + 2 ^ k) (2 ^ k)) :
    InHand a (k + 1) s msanr out
      (x.withMsa (joinMsa x.msadscstat (.lie a (k + 1)) s (2 ^ k))) ∧
    chekCl2molkflg (x.withMsa (joinMsa x.msadscstat (.lie a (k + 1)) s (2 ^ k)))
      (.lie a (k + 1)) s (s + (2 ^ k - 1)) (s + 2 ^ k) (s + 2 ^ k + (2 ^ k - 1)) = true := by
  have hn := Nat.two_pow_pos k
  have hpow : 2 ^ (k + 1) = 2 ^ k + 2 ^ k := by
    rw [Nat.pow_succ]
    omega
  have hjoin := hinv.recut hinv.tiles.join
  have hret : Retag x.msadscstat (joinMsa x.msadscstat (.lie a (k + 1)) s (2 ^ k)) s
      (2 ^ k + 2 ^ k) := joinMsa_retag _ _ hn
  have hnew := hjoin.retag (b := ⟨s, 2 ^ k + 2 ^ k⟩) List.mem_cons_self hret
  have hblk := joinMsa_free (p := .lie a (k + 1)) h1 h2 hn hadj
  have hord : (x.bafh (.lie a (k + 1))).afOderpnr = 2 ^ k + 2 ^ k :=
    (hinv.order _ (lie_mem_ptrs (Nat.lt_trans ha (by decide)) hk)).trans hpow
  have hend : s + (2 ^ k + 2 ^ k) < wordMod := by
    have h3 := hjoin.held_end_le (b := ⟨s, 2 ^ k + 2 ^ k⟩) List.mem_cons_self
      (by simp only; omega)
    have h4 := hjoin.msanr_lt
    simp only at h3
    omega
  refine ⟨⟨?_, ?_⟩, chekCl2molkflg_spec hblk hn hend (by rw [withMsa_bafh]; exact hord)⟩
  · rw [hpow]
    exact hnew
  · rw [hpow]
    exact hblk

/-- The block `s` in hand was joined with a block of list `k` to the block
`s'`. -/
structure Joined (a k s s' msanr : Nat) (out : List Seg) (x x' : Mem) : Prop where
  hand : InHand a (k + 1) s' msanr out x'
  kept : Kept a out x x'
  retag : Retag x.msadscstat x'.msadscstat s' (2 ^ (k + 1))
  pair : ∃ t ∈ x.free (.lie a k), ((s' = s ∧ t = s + 2 ^ k) ∨ (s' = t ∧ s = t + 2 ^ k)) ∧
    x'.bafh = Function.update x.bafh (.lie a k) ((x.bafh (.lie a k)).delObj t)

/-- **One round**: either no block of the list touches the one in hand, or the
two are joined one list up. -/
theorem mmFindCmsa2blk_spec {s : Nat} (ha : a < 2) (hk : k + 1 < mdivmerArrLmax)
    (h : InHand a k s msanr out x) :
    (mmFindCmsa2blk x a k s (s + (2 ^ k - 1)) = .ok (1, x, s, s + (2 ^ k - 1)) ∧
      ∀ t ∈ x.free (.lie a k), ¬ Touches x.msadscstat s t (2 ^ k) ∧
        ¬ Touches x.msadscstat t s (2 ^ k)) ∨
    ∃ x' s', mmFindCmsa2blk x a k s (s + (2 ^ k - 1))
        = .ok (2, x', s', s' + (2 ^ (k + 1) - 1)) ∧ Joined a k s s' msanr out x x' := by
  have hn := Nat.two_pow_pos k
  have hp : (BafhPtr.lie a k).Used := ⟨ha, by omega⟩
  have hmem := hp.mem_ptrs
  have hlt := h.inv.msanr_lt
  have hhand : (Seg.mk s (2 ^ k)) ∈ (⟨s, 2 ^ k⟩ :: out : List Seg) := List.mem_cons_self
  have hend := h.inv.held_end_le hhand hn
  simp only at hend
  have hord : (x.bafh (.lie a k)).afOderpnr = 2 ^ k := h.inv.order _ hmem
  have hlist : ∀ t ∈ x.free (.lie a k),
      FreeBlk x.msadscstat (areaTy a) (.lie a k) t (2 ^ k) ∧ s ≠ t ∧ t + 2 ^ k < wordMod ∧
        (x.msadscstat (t + (2 ^ k - 1))).pafPadrs < 2 ^ 52 := by
    intro t ht
    have htend : t + 2 ^ k ≤ msanr := h.inv.free_end_le hmem ht
    refine ⟨h.inv.free _ hmem t ht, ?_, by omega, h.inv.padrs _ (by omega)⟩
    rintro rfl
    exact h.inv.tiles.free_held_apart hmem ht
      (Seg.has_mk (Nat.le_refl s) (Nat.lt_add_of_pos_right (BafhPtr.ord_pos _))) hhand
      (Seg.has_mk (Nat.le_refl s) (by omega))
  -- the joined block, whichever of the two comes first
  have hkept : ∀ t ∈ x.free (.lie a k), ∀ u d, Retag x.msadscstat d u (2 ^ k + 2 ^ k) →
      MemInv ((x.setBafh (.lie a k) ((x.bafh (.lie a k)).delObj t)).withMsa d) msanr
        (⟨u, 2 ^ k + 2 ^ k⟩ :: out) →
      Kept a out x ((x.setBafh (.lie a k) ((x.bafh (.lie a k)).delObj t)).withMsa d) := by
    intro t ht u d hret hnew
    refine ⟨(Frame.setBafh (a := a) (p := .lie a k) x rfl _).trans (Frame.withMsa a _ ?_), fun c hc i hi => ?_,
      fun hadj => hadj.mono ?_ ?_⟩
    · rw [setBafh_msadscstat]
      exact hret.static
    · exact hret.frame i fun hin => hnew.tiles.head_apart hc hin hi
    · exact hret.static
    · intro p v hv
      rw [withMsa_free, setBafh_free] at hv
      by_cases hpk : p = .lie a k
      · rw [hpk, Function.update_self] at hv
        rw [hpk]
        exact List.mem_of_mem_erase hv
      · rwa [Function.update_of_ne hpk] at hv
  have hpow : 2 ^ (k + 1) = 2 ^ k + 2 ^ k := by
    rw [Nat.pow_succ]
    omega
  unfold mmFindCmsa2blk
  simp only [hord]
  by_cases hnone : (x.bafh (.lie a k)).afFobjnr < 1
  · rw [if_pos hnone]
    refine Or.inl ⟨rfl, fun t ht => ?_⟩
    rw [h.inv.fobjnr _ hmem] at hnone
    have := List.length_pos_of_mem ht
    omega
  · rw [if_neg hnone]
    have hscan := findCmsa2Loop_spec h.blk hn (by omega) (h.inv.padrs _ (by omega))
      (x.free (.lie a k)) hlist
    change _ ∨ _ at hscan
    rcases hscan with ⟨hrun, hall⟩ | ⟨t, ht, hrun, htouch⟩ | ⟨t, ht, hrun, htouch⟩
    · refine Or.inl ⟨?_, hall⟩
      rw [Mem.free] at hrun
      rw [hrun]
    · -- the neighbour continues the block in hand
      obtain ⟨rfl, _⟩ := id htouch
      have hinv := h.inv.remove hmem ht
      have hd := setBafh_msadscstat x (.lie a k)
        ((x.bafh (.lie a k)).delObj (s + 2 ^ k))
      obtain ⟨hhand', hchek⟩ := join_inHand ha hk hinv (by rw [hd]; exact h.blk)
        (by rw [hd]; exact (hlist _ ht).1) (by rw [hd]; exact htouch)
      have hret := joinMsa_retag x.msadscstat (.lie a (k + 1)) (s := s) hn
      refine Or.inr ⟨_, s, ?_, hhand', hkept _ ht s _ ?_ ?_, ?_, _, ht, Or.inl ⟨rfl, rfl⟩, ?_⟩
      · rw [Mem.free] at hrun
        rw [hrun]
        simp only [if_true]
        rw [mmClear2msaolflg_spec _ _ hn]
        simp only [hchek, if_true]
        rw [hpow]
        congr 4
        omega
      · rw [hd]
        exact hret
      · rw [← hpow]
        exact hhand'.inv
      · rw [hpow, withMsa_msadscstat, hd]
        exact hret
      · rw [withMsa_bafh, setBafh_bafh]
    · -- the block in hand continues the neighbour
      obtain ⟨rfl, _⟩ := id htouch
      have hinv := h.inv.remove hmem ht
      have hswap := hinv.recut (hinv.tiles.perm (List.Perm.swap _ _ out))
      have hd := setBafh_msadscstat x (.lie a k) ((x.bafh (.lie a k)).delObj t)
      obtain ⟨hhand', hchek⟩ := join_inHand ha hk hswap (by rw [hd]; exact (hlist _ ht).1)
        (by rw [hd]; exact h.blk) (by rw [hd]; exact htouch)
      have hret := joinMsa_retag x.msadscstat (.lie a (k + 1)) (s := t) hn
      refine Or.inr ⟨_, t, ?_, hhand', hkept _ ht t _ ?_ ?_, ?_, t, ht, Or.inr ⟨rfl, rfl⟩, ?_⟩
      · rw [Mem.free] at hrun
        rw [hrun]
        simp only [Nat.reduceEqDiff, if_false]
        rw [mmClear2msaolflg_spec _ _ hn]
        simp only [hchek, if_true]
        rw [hpow]
        congr 4
        omega
      · rw [hd]
        exact hret
      · rw [← hpow]
        exact hhand'.inv
      · rw [hpow, withMsa_msadscstat, hd]
        exact hret
      · rw [withMsa_bafh, setBafh_bafh]

/-! ## The whole merge -/

/-- **The merge loop** never stops and ends with a block in hand that touches
no block of its list, or at the top list.  It takes blocks off the lists that it
has passed, and off no others. -/
theorem mergeLoop_spec (ha : a < 2) : ∀ (n k s : Nat) (x : Mem),
    k + n + 1 = mdivmerArrLmax → InHand a k s msanr out x →
    ∃ x' k' s', mergeLoop a n x k s (s + (2 ^ k - 1))
        = .ok (x', k', s', s' + (2 ^ k' - 1)) ∧
      k' < mdivmerArrLmax ∧ InHand a k' s' msanr out x' ∧ Kept a out x x' ∧
      (k' + 1 < mdivmerArrLmax → ∀ t ∈ x'.free (.lie a k'),
        ¬ Touches x'.msadscstat s' t (2 ^ k') ∧ ¬ Touches x'.msadscstat t s' (2 ^ k')) ∧
      k ≤ k' ∧ ∀ q, (∀ j, k ≤ j → j < k' → q ≠ .lie a j) → x'.free q = x.free q := by
  intro n
  induction n with
  | zero =>
      intro k s x hk h
      exact ⟨x, k, s, rfl, by omega, h, Kept.refl a out x, fun hk' => absurd hk' (by omega),
        Nat.le_refl k, fun _ _ => rfl⟩
  | succ n ih =>
      intro k s x hk h
      rcases mmFindCmsa2blk_spec ha (by omega) h with ⟨hrun, hall⟩ | ⟨x₁, s₁, hrun, hjoin⟩
      · refine ⟨x, k, s, ?_, by omega, h, Kept.refl a out x, fun _ => hall, Nat.le_refl k,
          fun _ _ => rfl⟩
        rw [mergeLoop, hrun]
        rfl
      · obtain ⟨x', k', s', hrun', hk', h', hkept', hall, hle, hlists⟩ :=
          ih (k + 1) s₁ x₁ (by omega) hjoin.hand
        refine ⟨x', k', s', ?_, hk', h', hjoin.kept.trans hkept', hall, by omega, fun q hq => ?_⟩
        · rw [mergeLoop, hrun]
          exact hrun'
        · obtain ⟨t, -, -, hbafh⟩ := hjoin.pair
          rw [hlists q fun j h1 h2 => hq j (by omega) h2, Mem.free, hbafh,
            Function.update_of_ne (hq k (Nat.le_refl k) (by omega)), Mem.free]

/-- Filing the block in hand succeeds. -/
theorem mpobfAddMsadsc_spec {p : BafhPtr} {s : Nat}
    (hinv : MemInv x msanr (⟨s, p.ord⟩ :: out)) (hp : p.Used)
    (hb : FreeBlk x.msadscstat (areaTy p.area) p s p.ord) :
    mpobfAddMsadsc x p s (s + (p.ord - 1))
      = .ok (some (x.setBafh p ((x.bafh p).addObj s))) := by
  have hmem := hp.mem_ptrs
  have hlt := hinv.msanr_lt
  have hend := hinv.held_end_le (b := ⟨s, p.ord⟩) List.mem_cons_self p.ord_pos
  simp only at hend
  have hlen := hinv.length_lt (b := ⟨s, p.ord⟩) List.mem_cons_self p.ord_pos hmem
  unfold mpobfAddMsadsc
  simp only
  rw [if_neg (by omega), msaSpan_block p.ord_pos (by omega), if_neg (by simp [hinv.order p hmem]),
    hinv.fobjnr p hmem, hinv.mobjnr p hmem, if_neg (by omega), hb.tag_eq p.ord_pos]

/-- The lists a freed block of `2 ^ k` pages goes through. -/
theorem onfpgsRetnBafhlst_spec {held : List Seg} (hinv : MemInv x msanr held) (ha : a < 2)
    (hk : k < mdivmerArrLmax) {b : Seg} (hb : b ∈ held) (hlen : 0 < b.len) :
    onfpgsRetnBafhlst x a (2 ^ k) = .ok (some (k, mdivmerArrLmax - 1)) := by
  have hmem := lie_mem_ptrs (a := a) (Nat.lt_trans ha (by decide)) hk
  have hlt := hinv.msanr_lt
  have hroom := hinv.length_lt hb hlen hmem
  have hord : (x.bafh (.lie a k)).afOderpnr = 2 ^ k := hinv.order _ hmem
  have hpos := Nat.two_pow_pos k
  unfold onfpgsRetnBafhlst
  rw [if_neg (by omega)]
  simp only [retnDivoder_two_pow, hinv.fobjnr _ hmem, hinv.mobjnr _ hmem, hord]
  rw [if_neg (by omega), if_neg (by omega), if_neg (by omega), if_neg (by simp)]

/-- Filing a block that touches none of its list leaves no two blocks that
could be joined. -/
theorem NoAdj.push {s : Nat} (hadj : NoAdj x)
    (hall : k + 1 < mdivmerArrLmax → ∀ t ∈ x.free (.lie a k),
      ¬ Touches x.msadscstat s t (2 ^ k) ∧ ¬ Touches x.msadscstat t s (2 ^ k)) :
    NoAdj (x.setBafh (.lie a k) ((x.bafh (.lie a k)).addObj s)) := by
  intro b j hj t ht ht'
  rw [setBafh_msadscstat]
  rw [setBafh_free] at ht ht'
  have hpow := Nat.two_pow_pos j
  by_cases hq : BafhPtr.lie b j = .lie a k
  · injection hq with h1 h2
    subst h1
    subst h2
    rw [Function.update_self] at ht ht'
    rcases List.mem_cons.mp ht with rfl | ht
    · rcases List.mem_cons.mp ht' with heq | ht'
      · omega
      · exact fun hpad => (hall hj _ ht').1 ⟨rfl, hpad⟩
    · rcases List.mem_cons.mp ht' with heq | ht'
      · intro hpad
        refine (hall hj t ht).2 ⟨heq.symm, ?_⟩
        rw [← heq]
        exact hpad
      · exact hadj b j hj t ht ht'
  · rw [Function.update_of_ne hq] at ht ht'
    exact hadj b j hj t ht ht'

/-- **Merging and filing** a block in hand: a list at or above its own has a block
then, and only lists up to that one change. -/
theorem mmMerpagesOnbafhlst_spec {s : Nat} (ha : a < 2) (hk : k < mdivmerArrLmax)
    (h : InHand a k s msanr out x) :
    ∃ x', mmMerpagesOnbafhlst x a s (2 ^ k) k (mdivmerArrLmax - 1) = .ok (x', true) ∧
      MemInv x' msanr out ∧ Kept a out x x' ∧
      ∃ k', k ≤ k' ∧ k' < mdivmerArrLmax ∧ x'.free (.lie a k') ≠ [] ∧
        ∀ q, (∀ j, k ≤ j → j ≤ k' → q ≠ .lie a j) → x'.free q = x.free q := by
  obtain ⟨x₁, k₁, s₁, hrun, hk₁, h₁, hkept, hall, hle, hlists⟩ :=
    mergeLoop_spec ha (mdivmerArrLmax - 1 - k) k s x (by omega) h
  have hp : (BafhPtr.lie a k₁).Used := ⟨ha, hk₁⟩
  have hfile : mpobfAddMsadsc x₁ (.lie a k₁) s₁ (s₁ + (2 ^ k₁ - 1))
      = .ok (some (x₁.setBafh (.lie a k₁) ((x₁.bafh (.lie a k₁)).addObj s₁))) :=
    mpobfAddMsadsc_spec (p := .lie a k₁) h₁.inv hp h₁.blk
  have hnew := h₁.inv.push (p := .lie a k₁) hp h₁.blk
  refine ⟨_, ?_, hnew, hkept.trans ⟨Frame.setBafh (p := .lie a k₁) x₁ rfl _, fun c _ i _ => ?_,
    fun hadj => hadj.push hall⟩, k₁, hle, hk₁, ?_, fun q hq => ?_⟩
  · unfold mmMerpagesOnbafhlst
    simp only [hrun, hfile]
  · rw [setBafh_msadscstat]
  · rw [setBafh_free, Function.update_self, addObj_afFrelst]
    exact List.cons_ne_nil _ _
  · rw [setBafh_free, Function.update_of_ne (hq k₁ hle (Nat.le_refl k₁))]
    exact hlists q fun j h1 h2 => hq j h1 (Nat.le_of_lt h2)

end Round

end Cosmos.Hal
