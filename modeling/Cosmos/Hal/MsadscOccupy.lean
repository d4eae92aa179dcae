import Cosmos.Hal.MemdivmerOwn
import Cosmos.Initldr.Fs

/-!
# Pages reserved for the kernel

`search_segment_occupymsadsc` marks the pages of a byte range: it looks for the
descriptor whose address is the start of the range and walks on from there,
one page of addresses and one descriptor at a time.  On an array whose page
numbers ascend a call that succeeds marks exactly the pages with a byte of its
range.  The four ranges that `search_krloccupymsadsc_core` passes are not the
four ranges the kernel lives in: the one of the initial stack starts at the page
of the top of the stack, not at the page of its low end.
-/

namespace Cosmos.Hal

open Cosmos.Lib.Word64 Cosmos.Lib.Cover Cosmos.Lib.Run Cosmos.Initldr

/-! ## The code -/

/-- The first loop of `search_segment_occupymsadsc`: the first descriptor with
the address. -/
def fstatmpOf (msastart : MsaArr) (msanr ocpystat : Nat) : Option Nat :=
  (List.range msanr).find? fun mnr => msadscRetAddr (msastart mnr) = ocpystat

/-- The second loop of `search_segment_occupymsadsc`, from `tmpadr` on.  The inner
`none` is a return of 0.  `tmpadr` may wrap, so the number of rounds is a
parameter; the outer `none` is a loop that has not ended after so many. -/
def occupyLoop (fstatmp ocpyend : Nat) : Nat → Nat → Nat → MsaArr → Option (MsaArr × Option Nat)
  | 0, _, _, _ => none
  | n + 1, tmpadr, fsmsnr, d =>
      if tmpadr < ocpyend then
        if msadscRetAddr (d (fstatmp + fsmsnr)) ≠ tmpadr then some (d, none)
        else if (d (fstatmp + fsmsnr)).mfMocty ≠ .free ∨ (d (fstatmp + fsmsnr)).mfUindx ≠ 0 ∨
            (d (fstatmp + fsmsnr)).pafAlloc = true then some (d, none)
        else
          occupyLoop fstatmp ocpyend n (add64 tmpadr pagesize) (fsmsnr + 1)
            (upd d (fstatmp + fsmsnr) occupyMsadsc)
      else some (d, some fsmsnr)

/-- `search_segment_occupymsadsc`: the array and what it returns. -/
def searchSegmentOccupymsadsc (fuel msanr ocpystat ocpyend : Nat) (d : MsaArr) :
    Option (MsaArr × Nat) :=
  match fstatmpOf d msanr ocpystat with
  | none => some (d, 0)
  | some fstatmp =>
      match occupyLoop fstatmp ocpyend fuel ocpystat 0 d with
      | none => none
      | some (d', none) => some (d', 0)
      | some (d', some fsmsnr) =>
          let ocpysz := sub64 ocpyend ocpystat
          if ocpysz % pagesize ≠ 0 then
            if ocpysz / pagesize + 1 ≠ fsmsnr then some (d', 0) else some (d', fsmsnr)
          else if ocpysz / pagesize ≠ fsmsnr then some (d', 0) else some (d', fsmsnr)

/-- Calls of `search_segment_occupymsadsc`, up to the first that returns 0. -/
def searchSegments (fuel msanr : Nat) : List (Nat × Nat) → MsaArr → Option (MsaArr × Bool)
  | [], d => some (d, true)
  | (ocpystat, ocpyend) :: rs, d =>
      match searchSegmentOccupymsadsc fuel msanr ocpystat ocpyend d with
      | none => none
      | some (d', 0) => some (d', false)
      | some (d', _ + 1) => searchSegments fuel msanr rs d'

/-- The ranges of the four calls, in their order. -/
def Machbstart.ocpyRanges (mbsp : Machbstart) : List (Nat × Nat) :=
  [(0, 0x1000),
   (mbsp.mbKrlinitstack - mbsp.mbKrlinitstack % pagesize, mbsp.mbKrlinitstack),
   (mbsp.mbKrlimgpadr, mbsp.mbNextwtpadr),
   (mbsp.mbImgpadr, add64 mbsp.mbImgpadr mbsp.mbImgsz)]

/-- `search_krloccupymsadsc_core`. -/
def searchKrloccupymsadscCore (fuel : Nat) (mbsp : Machbstart) (msanr : Nat) (d : MsaArr) :
    Option (MsaArr × Bool) :=
  searchSegments fuel msanr mbsp.ocpyRanges d

/-- `init_search_krloccupymm`, when no loop takes more than `fuel` rounds. -/
def initSearchKrloccupymm (fuel : Nat) (mbsp : Machbstart) (msanr : Nat) (d : MsaArr) :
    Option (Except String MsaArr) :=
  match searchKrloccupymsadscCore fuel mbsp msanr d with
  | none => none
  | some (_, false) => some (.error "search_krloccupymsadsc_core fail\n")
  | some (d', true) => some (.ok d')

/-! ## What it is for -/

/-- Page `p` contains a byte of the range. -/
def PageMeets (p : Nat) (r : Nat × Nat) : Prop := ∃ x, r.1 ≤ x ∧ x < r.2 ∧ x / pagesize = p

/-- The ranges the kernel lives in: the first page, the initial stack, the kernel
with what stands behind it, and the image. -/
def Machbstart.kernelRanges (mbsp : Machbstart) : List (Nat × Nat) :=
  [(0, 0x1000),
   (mbsp.mbKrlinitstack - mbsp.mbKrlitstacksz, mbsp.mbKrlinitstack),
   (mbsp.mbKrlimgpadr, mbsp.mbNextwtpadr),
   (mbsp.mbImgpadr, mbsp.mbImgpadr + mbsp.mbImgsz)]

/-- Page `p` contains a byte of one of the ranges. -/
def MeetsAny (rs : List (Nat × Nat)) (p : Nat) : Prop := ∃ r ∈ rs, PageMeets p r

/-- The descriptor is marked as reserved. -/
def Msadsc.Occupied (m : Msadsc) : Prop :=
  m.mfMocty = .krnl ∧ m.pafAlloc = true ∧ m.mfUindx = 1

/-- The pages of the kernel are reserved, and they stay with it. -/
structure KernelReserved (mbsp : Machbstart) (msanr : Nat) (d : MsaArr) : Prop where
  exact : ∀ i < msanr, (d i).Occupied ↔ MeetsAny mbsp.kernelRanges (d i).pafPadrs
  /-- no call of the allocator hands one of them out, in any state it gets to -/
  safe : ∀ b : BootArray, b.msadscs = d → b.msanr = msanr → ∀ st, b.Reaches st →
    ∀ c ∈ st.out, ∀ i, c.Has i →
      ¬ MeetsAny mbsp.kernelRanges (st.mm.mem.msadscstat i).pafPadrs

/-- The array of `init_msadsc`: nothing is reserved, and the page numbers, which
have 52 bits, ascend. -/
structure AscArray (msanr : Nat) (d : MsaArr) : Prop where
  fresh : ∀ i < msanr, d i = writeOneMsadsc (d i).pafPadrs
  ascending : ∀ i j, i < j → j < msanr → (d i).pafPadrs < (d j).pafPadrs
  width : ∀ i < msanr, (d i).pafPadrs < 2 ^ 52

/-- What the legacy loader leaves: `init_krlinitstack` sets the stack, and the size of
the image is a word. -/
structure LegacyParm (mbsp : Machbstart) : Prop where
  stack : mbsp.mbKrlinitstack = ikstackPhyadr
  stacksz : mbsp.mbKrlitstacksz = ikstackSize
  imgsz : mbsp.mbImgsz < wordMod

/-! ## One call -/

/-- The page of address `x` is among the pages from `p` on that start before `e`. -/
theorem pageMeets_iff (p e q : Nat) :
    PageMeets q (p * pagesize, e) ↔ p ≤ q ∧ q * pagesize < e := by
  have hsize : pagesize = 4096 := rfl
  unfold PageMeets
  rw [hsize]
  constructor
  · rintro ⟨x, h1, h2, rfl⟩
    simp only at h1 h2
    omega
  · rintro ⟨h1, h2⟩
    refine ⟨q * 4096, ?_, h2, by omega⟩
    show p * 4096 ≤ q * 4096
    omega

/-- `n` descriptors marked, from `s` on. -/
def occupyRange (d : MsaArr) (s n : Nat) : MsaArr := fun i =>
  if s ≤ i ∧ i < s + n then occupyMsadsc (d i) else d i

/-- The descriptor passes the test of the loop. -/
def Msadsc.Fresh (m : Msadsc) : Prop :=
  m.mfMocty = .free ∧ m.mfUindx = 0 ∧ m.pafAlloc = false

/-- The address of a page, or of the one behind the last. -/
theorem add64_page {p : Nat} (hp : p < 2 ^ 52) : add64 (p * pagesize) pagesize
    = (if p + 1 < 2 ^ 52 then p + 1 else 0) * pagesize := by
  have hsize : pagesize = 4096 := rfl
  have hword : wordMod = 0x10000000000000000 := rfl
  rw [hsize]
  split
  · rw [add64_eq (by omega)]
    omega
  · have hlast : p = 2 ^ 52 - 1 := by omega
    rw [hlast]
    rfl

/-- What a round of the loop comes to when the loop gets to its end. -/
theorem occupyLoop_inv {f e n p k r : Nat} {d d' : MsaArr}
    (h : occupyLoop f e (n + 1) (p * pagesize) k d = some (d', some r)) :
    (e ≤ p * pagesize ∧ d' = d ∧ r = k) ∨
      (p * pagesize < e ∧ (d (f + k)).pafPadrs = p ∧ (d (f + k)).Fresh ∧
        occupyLoop f e n (add64 (p * pagesize) pagesize) (k + 1) (upd d (f + k) occupyMsadsc)
          = some (d', some r)) := by
  have hsize : pagesize = 4096 := rfl
  rw [occupyLoop] at h
  split at h
  · rename_i hlt
    split at h
    · cases h
    · rename_i hadr
      split at h
      · cases h
      · rename_i hfresh
        rw [not_or, not_or, not_not, not_not, Bool.not_eq_true] at hfresh
        rw [not_not, msadscRetAddr, hsize] at hadr
        exact Or.inr ⟨hlt, by omega, hfresh, h⟩
  · rename_i hge
    cases h
    exact Or.inl ⟨Nat.le_of_not_lt hge, rfl, rfl⟩

/-- A range with a byte in the last page there is has no end for the loop: behind that
page the address is 0 again. -/
theorem occupyLoop_end {f e r : Nat} {d' : MsaArr} : ∀ n p k d, p < 2 ^ 52 →
    occupyLoop f e n (p * pagesize) k d = some (d', some r) → e ≤ (2 ^ 52 - 1) * pagesize := by
  intro n
  induction n with
  | zero =>
      intro p k d _ h
      cases h
  | succ n ih =>
      intro p k d hp h
      rcases occupyLoop_inv h with ⟨hle, -, -⟩ | ⟨-, -, -, hrest⟩
      · exact Nat.le_trans hle (Nat.mul_le_mul_right _ (Nat.le_sub_one_of_lt hp))
      · rw [add64_page hp] at hrest
        refine ih _ _ _ ?_ hrest
        split
        · assumption
        · exact Nat.two_pow_pos 52

/-- **The loop** marks consecutive descriptors for consecutive pages, as many as there
are pages that start before `e`. -/
theorem occupyLoop_spec {f e r : Nat} {d' : MsaArr} (he : e ≤ (2 ^ 52 - 1) * pagesize) :
    ∀ n p k d, p < 2 ^ 52 → occupyLoop f e n (p * pagesize) k d = some (d', some r) →
    ∃ m, r = k + m ∧ (∀ j, j < m ↔ (p + j) * pagesize < e) ∧
      (∀ j < m, (d (f + k + j)).pafPadrs = p + j ∧ (d (f + k + j)).Fresh) ∧
      d' = occupyRange d (f + k) m := by
  have hsize : pagesize = 4096 := rfl
  intro n
  induction n with
  | zero =>
      intro p k d _ h
      cases h
  | succ n ih =>
      intro p k d hp h
      rcases occupyLoop_inv h with ⟨hle, rfl, rfl⟩ | ⟨hlt, hpad, hfresh, hrest⟩
      · refine ⟨0, rfl, fun j => ?_, fun j hj => absurd hj (Nat.not_lt_zero j), ?_⟩
        · rw [hsize] at hle ⊢
          omega
        · funext i
          unfold occupyRange
          rw [if_neg (by omega)]
      · have hnext : p + 1 < 2 ^ 52 := by
          rw [hsize] at hlt he
          omega
        rw [add64_page hp, if_pos hnext] at hrest
        obtain ⟨m, hr, hm, hpages, hd⟩ := ih (p + 1) (k + 1) _ hnext hrest
        refine ⟨m + 1, by omega, fun j => ?_, fun j hj => ?_, ?_⟩
        · cases j with
          | zero => exact iff_of_true (Nat.succ_pos m) hlt
          | succ j =>
              rw [Nat.succ_lt_succ_iff, hm j, show p + 1 + j = p + (j + 1) by omega]
        · cases j with
          | zero => exact ⟨hpad, hfresh⟩
          | succ j =>
              have hj' := hpages j (by omega)
              rw [upd_of_ne (by omega), show f + (k + 1) + j = f + k + (j + 1) by omega] at hj'
              exact ⟨by omega, hj'.2⟩
        · rw [hd]
          funext i
          unfold occupyRange
          by_cases hi : i = f + k
          · rw [if_neg (by omega), if_pos (by omega), hi, upd_self]
          · rw [upd_of_ne hi]
            exact if_congr (by omega) rfl rfl

/-- `d'` is array `d` with the pages of `S` reserved. -/
structure Reserves (S : Nat → Prop) (msanr : Nat) (d d' : MsaArr) : Prop where
  marked : ∀ i < msanr, S (d i).pafPadrs → d' i = occupyMsadsc (d i)
  others : ∀ i < msanr, ¬ S (d i).pafPadrs → d' i = d i
  /-- also behind the array only reserved descriptors changed -/
  behind : ∀ i, d' i = d i ∨ (d' i).mfMocty = .krnl

section Call

variable {S : Nat → Prop} {msanr : Nat} {d d' d'' : MsaArr}

theorem Reserves.congr {T : Nat → Prop} (h : Reserves S msanr d d') (hST : ∀ p, S p ↔ T p) :
    Reserves T msanr d d' where
  marked i hi hT := h.marked i hi ((hST _).mpr hT)
  others i hi hT := h.others i hi fun hS => hT ((hST _).mp hS)
  behind := h.behind

theorem Reserves.padrs (h : Reserves S msanr d d') {i : Nat} (hi : i < msanr) :
    (d' i).pafPadrs = (d i).pafPadrs := by
  by_cases hS : S (d i).pafPadrs
  · rw [h.marked i hi hS]
    rfl
  · rw [h.others i hi hS]

/-- A descriptor the loop may mark is one that is not reserved yet. -/
theorem Reserves.not_mem_of_fresh (h : Reserves S msanr d d') {i : Nat} (hi : i < msanr)
    (hfresh : (d' i).Fresh) : ¬ S (d i).pafPadrs := by
  intro hS
  have hfree := hfresh.1
  rw [h.marked i hi hS] at hfree
  cases hfree

/-- The descriptors of consecutive pages are marked: in the array these are the
descriptors of pages with a byte of the range. -/
theorem Reserves.range (h : Reserves S msanr d d') (hasc : AscArray msanr d) {f m e : Nat}
    (hf : f < msanr) (hm : ∀ j, j < m ↔ ((d f).pafPadrs + j) * pagesize < e)
    (hpages : ∀ j < m, (d' (f + j)).pafPadrs = (d f).pafPadrs + j ∧ (d' (f + j)).Fresh) :
    Reserves (fun p => S p ∨ PageMeets p ((d f).pafPadrs * pagesize, e)) msanr d
      (occupyRange d' f m) := by
  -- inside the array the page of a descriptor says whether the loop came to it
  have hin : ∀ i < msanr, PageMeets (d i).pafPadrs ((d f).pafPadrs * pagesize, e) ↔
      f ≤ i ∧ i < f + m := by
    intro i hi
    rw [pageMeets_iff]
    constructor
    · rintro ⟨hle, hlt⟩
      have hlow : f ≤ i := by
        by_contra hlow
        have := hasc.ascending i f (by omega) hf
        omega
      refine ⟨hlow, ?_⟩
      by_contra hhigh
      obtain ⟨j, hj⟩ := Nat.exists_eq_add_of_le hle
      rw [hj] at hlt
      have hjm := (hm j).mpr hlt
      have hpad := (hpages j hjm).1
      rw [h.padrs (by omega)] at hpad
      have := hasc.ascending (f + j) i (by omega) hi
      omega
    · rintro ⟨hle, hlt⟩
      obtain ⟨j, rfl⟩ := Nat.exists_eq_add_of_le hle
      have hpad := (hpages j (by omega)).1
      rw [h.padrs hi] at hpad
      rw [hpad]
      exact ⟨Nat.le_add_right _ _, (hm j).mp (by omega)⟩
  have hfresh : ∀ i, f ≤ i → i < f + m → (d' i).Fresh := by
    intro i hle hlt
    obtain ⟨j, rfl⟩ := Nat.exists_eq_add_of_le hle
    exact (hpages j (by omega)).2
  refine ⟨fun i hi hS => ?_, fun i hi hS => ?_, fun i => ?_⟩
  · unfold occupyRange
    by_cases hrange : f ≤ i ∧ i < f + m
    · rw [if_pos hrange, h.others i hi
        (h.not_mem_of_fresh hi (hfresh i hrange.1 hrange.2))]
    · rw [if_neg hrange]
      exact h.marked i hi (hS.resolve_right fun hmeet => hrange ((hin i hi).mp hmeet))
  · rw [not_or, hin i hi] at hS
    unfold occupyRange
    rw [if_neg hS.2]
    exact h.others i hi hS.1
  · unfold occupyRange
    split
    · exact Or.inr rfl
    · exact h.behind i

/-- **A call that succeeds** reserves the pages with a byte of its range, which is not
empty. -/
theorem searchSegmentOccupymsadsc_spec {fuel s e n : Nat} (h : Reserves S msanr d d')
    (hasc : AscArray msanr d)
    (hrun : searchSegmentOccupymsadsc fuel msanr s e d' = some (d'', n + 1)) :
    Reserves (fun p => S p ∨ PageMeets p (s, e)) msanr d d'' ∧ s < e ∧ s < wordMod := by
  unfold searchSegmentOccupymsadsc at hrun
  split at hrun
  · cases hrun
  · rename_i f hfind
    have hf : f < msanr := List.mem_range.mp (List.mem_of_find?_eq_some hfind)
    have hadr := List.find?_some hfind
    rw [decide_eq_true_eq, msadscRetAddr, h.padrs hf] at hadr
    subst hadr
    split at hrun
    · cases hrun
    · cases hrun
    · rename_i d₂ r hloop
      obtain ⟨rfl, rfl⟩ : d₂ = d'' ∧ r = n + 1 := by
        dsimp only at hrun
        split_ifs at hrun <;> cases hrun <;> exact ⟨rfl, rfl⟩
      have hwidth := hasc.width f hf
      have hend := occupyLoop_end fuel _ 0 d' hwidth hloop
      obtain ⟨m, hr, hm, hpages, hd⟩ := occupyLoop_spec hend fuel _ 0 d' hwidth hloop
      rw [hd]
      refine ⟨h.range hasc hf hm hpages, (hm 0).mp (by omega), ?_⟩
      exact Nat.mul_lt_mul_of_pos_right hwidth (by decide)

/-- The calls for a list of ranges. -/
theorem searchSegments_spec (hasc : AscArray msanr d) {fuel : Nat} : ∀ rs S d',
    Reserves S msanr d d' → searchSegments fuel msanr rs d' = some (d'', true) →
    Reserves (fun p => S p ∨ MeetsAny rs p) msanr d d'' ∧
      ∀ r ∈ rs, r.1 < r.2 ∧ r.1 < wordMod := by
  intro rs
  induction rs with
  | nil =>
      intro S d' h hrun
      cases hrun
      exact ⟨h.congr fun p => (or_iff_left fun ⟨r, hr, _⟩ => List.not_mem_nil hr).symm,
        fun r hr => absurd hr List.not_mem_nil⟩
  | cons r rs ih =>
      intro S d' h hrun
      obtain ⟨s, e⟩ := r
      rw [searchSegments] at hrun
      split at hrun
      · cases hrun
      · cases hrun
      · rename_i d₁ n hcall
        obtain ⟨hone, hfirst⟩ := searchSegmentOccupymsadsc_spec h hasc hcall
        obtain ⟨hall, hrest⟩ := ih _ d₁ hone hrun
        refine ⟨hall.congr fun p => ?_, List.forall_mem_cons.mpr ⟨hfirst, hrest⟩⟩
        unfold MeetsAny
        rw [List.exists_mem_cons_iff, or_assoc]

/-- **`init_search_krloccupymm`** reserves the pages of the ranges it passes. -/
theorem initSearchKrloccupymm_spec (hasc : AscArray msanr d) {fuel : Nat} {mbsp : Machbstart}
    (hrun : initSearchKrloccupymm fuel mbsp msanr d = some (.ok d')) :
    Reserves (MeetsAny mbsp.ocpyRanges) msanr d d' ∧
      ∀ r ∈ mbsp.ocpyRanges, r.1 < r.2 ∧ r.1 < wordMod := by
  unfold initSearchKrloccupymm searchKrloccupymsadscCore at hrun
  split at hrun
  · cases hrun
  · cases hrun
  · rename_i d₁ hcore
    cases hrun
    have hnone : Reserves (fun _ => False) msanr d d :=
      ⟨fun i _ hS => absurd hS not_false, fun i _ _ => rfl, fun i => Or.inl rfl⟩
    obtain ⟨hall, hranges⟩ := searchSegments_spec hasc mbsp.ocpyRanges _ d hnone hcore
    exact ⟨hall.congr fun p => iff_of_eq (false_or _), hranges⟩

end Call

/-! ## What is reserved and what should be -/

section Reserved

variable {S : Nat → Prop} {msanr : Nat} {d d' : MsaArr} {mbsp : Machbstart}

theorem Reserves.occupied_iff (h : Reserves S msanr d d') (hasc : AscArray msanr d) {i : Nat}
    (hi : i < msanr) : (d' i).Occupied ↔ S (d i).pafPadrs := by
  have hnew := hasc.fresh i hi
  constructor
  · intro hocc
    by_contra hS
    have hmocty := hocc.1
    rw [h.others i hi hS, hnew] at hmocty
    cases hmocty
  · intro hS
    rw [h.marked i hi hS, hnew]
    exact ⟨rfl, rfl, rfl⟩

/-- **What the boot code finds** is an array with the reserved pages, and some memory behind
it. -/
theorem Reserves.exists_bootMem (h : Reserves S msanr d d') (hasc : AscArray msanr d)
    (hpos : 0 < msanr) (hlt : msanr < wordMod) :
    ∃ b : BootMem, b.msadscs = d' ∧ b.msanr = msanr := by
  let b : BootMem := {
    msanr := msanr
    padrs := fun i => (d i).pafPadrs
    occupied := fun i => (d' i).pafAlloc
    slack := d'
    msanr_pos := hpos
    msanr_lt := hlt
    padrs_lt := hasc.width
    padrs_inj := fun i hi j hj hij => by
      rcases Nat.lt_trichotomy i j with hlt | heq | hgt
      · exact absurd hij (Nat.ne_of_lt (hasc.ascending i j hlt hj))
      · exact heq
      · exact absurd hij.symm (Nat.ne_of_lt (hasc.ascending j i hgt hi)) }
  refine ⟨b, funext fun i => ?_, rfl⟩
  show (if i < msanr then if (d' i).pafAlloc = true then
    occupyMsadsc (writeOneMsadsc (d i).pafPadrs) else writeOneMsadsc (d i).pafPadrs else d' i) = _
  split
  · rename_i hi
    rw [← hasc.fresh i hi]
    by_cases hS : S (d i).pafPadrs
    · rw [h.marked i hi hS]
      exact if_pos rfl
    · have hno : (d i).pafAlloc = false := by
        rw [hasc.fresh i hi]
        rfl
      rw [h.others i hi hS, hno, if_neg Bool.false_ne_true]
  · rfl

/-- What is reserved exactly is never handed out. -/
theorem kernelReserved_of_exact
    (hexact : ∀ i < msanr, (d i).Occupied ↔ MeetsAny mbsp.kernelRanges (d i).pafPadrs) :
    KernelReserved mbsp msanr d := by
  refine ⟨hexact, fun b hb hn st hreach c hc i hi hmeet => ?_⟩
  obtain ⟨hinv, hsame⟩ := hreach.inv
  obtain ⟨hlt, hocc⟩ := (hsame.managed_iff i).mp (hinv.mem.tiles.held_dom hc hi)
  obtain ⟨-, -, -, hpad, hfree, -⟩ := b.msadscs_of_lt hlt
  rw [hb] at hpad hfree
  rw [hsame.padrs i hlt, ← hpad] at hmeet
  have hkrnl := ((hexact i (hn ▸ hlt)).mpr hmeet).1
  rw [hfree.mpr hocc] at hkrnl
  cases hkrnl

end Reserved

/-! ## The stack -/

/-- The page of the low end of the initial stack. -/
def stackLowPage : Nat := (ikstackPhyadr - ikstackSize) / pagesize

/-- The stack of the loader, which does not end with a page, lies in two pages. -/
theorem LegacyParm.stack_meets {mbsp : Machbstart} (h : LegacyParm mbsp) (p : Nat) :
    PageMeets p (mbsp.mbKrlinitstack - mbsp.mbKrlitstacksz, mbsp.mbKrlinitstack) ↔
      p = stackLowPage ∨ p = stackLowPage + 1 := by
  have hlow : stackLowPage = 0x8e := rfl
  have hsize : pagesize = 4096 := rfl
  have hphy : ikstackPhyadr = 0x8fff0 := rfl
  have hstksz : ikstackSize = 0x1000 := rfl
  unfold PageMeets
  rw [h.stack, h.stacksz, hlow, hsize, hphy, hstksz]
  constructor
  · rintro ⟨x, h1, h2, rfl⟩
    simp only at h1 h2
    omega
  · rintro (rfl | rfl)
    · exact ⟨0x8eff0, by decide, by decide, rfl⟩
    · exact ⟨0x8f000, by decide, by decide, rfl⟩

/-- The call for the stack passes the second of them only. -/
theorem LegacyParm.ocpystack_meets {mbsp : Machbstart} (h : LegacyParm mbsp) (p : Nat) :
    PageMeets p (mbsp.mbKrlinitstack - mbsp.mbKrlinitstack % pagesize, mbsp.mbKrlinitstack) ↔
      p = stackLowPage + 1 := by
  have hstart : mbsp.mbKrlinitstack - mbsp.mbKrlinitstack % pagesize
      = (stackLowPage + 1) * pagesize := by
    rw [h.stack]
    decide
  have hlow : stackLowPage = 0x8e := rfl
  have hsize : pagesize = 4096 := rfl
  have hphy : ikstackPhyadr = 0x8fff0 := rfl
  rw [hstart, pageMeets_iff, h.stack, hlow, hsize, hphy]
  omega

section Stack

variable {msanr : Nat} {d d' : MsaArr} {mbsp : Machbstart}

/-- The pages of the four calls.  A range that starts below its end has not wrapped. -/
theorem LegacyParm.ocpyRanges_meets (h : LegacyParm mbsp)
    (hranges : ∀ r ∈ mbsp.ocpyRanges, r.1 < r.2 ∧ r.1 < wordMod) (p : Nat) :
    MeetsAny mbsp.ocpyRanges p ↔ PageMeets p (0, 0x1000) ∨ p = stackLowPage + 1 ∨
      PageMeets p (mbsp.mbKrlimgpadr, mbsp.mbNextwtpadr) ∨
      PageMeets p (mbsp.mbImgpadr, mbsp.mbImgpadr + mbsp.mbImgsz) := by
  have himg : add64 mbsp.mbImgpadr mbsp.mbImgsz = mbsp.mbImgpadr + mbsp.mbImgsz := by
    have hword : wordMod = 0x10000000000000000 := rfl
    obtain ⟨hlt, hpadr⟩ := hranges (mbsp.mbImgpadr, add64 mbsp.mbImgpadr mbsp.mbImgsz)
      (by simp [Machbstart.ocpyRanges])
    have hsz := h.imgsz
    unfold add64 at hlt ⊢
    rw [hword] at hlt hpadr hsz ⊢
    simp only at hlt hpadr
    omega
  unfold MeetsAny Machbstart.ocpyRanges
  simp only [List.exists_mem_cons_iff, List.not_mem_nil, false_and, exists_false, or_false]
  rw [h.ocpystack_meets, himg]

/-- The pages that should be reserved. -/
theorem LegacyParm.kernelRanges_meets (h : LegacyParm mbsp) (p : Nat) :
    MeetsAny mbsp.kernelRanges p ↔ PageMeets p (0, 0x1000) ∨
      (p = stackLowPage ∨ p = stackLowPage + 1) ∨
      PageMeets p (mbsp.mbKrlimgpadr, mbsp.mbNextwtpadr) ∨
      PageMeets p (mbsp.mbImgpadr, mbsp.mbImgpadr + mbsp.mbImgsz) := by
  unfold MeetsAny Machbstart.kernelRanges
  simp only [List.exists_mem_cons_iff, List.not_mem_nil, false_and, exists_false, or_false]
  rw [h.stack_meets]

/-- **When the kernel's pages are reserved**: every array on which the search succeeds has
them reserved unless it describes the low page of the initial stack, which the search
leaves out, and neither the kernel nor the image has a byte in it. -/
theorem kernel_reserved_iff {fuel : Nat} (hasc : AscArray msanr d) (hparm : LegacyParm mbsp)
    (hrun : initSearchKrloccupymm fuel mbsp msanr d = some (.ok d')) :
    KernelReserved mbsp msanr d' ↔ ∀ i < msanr, (d i).pafPadrs = stackLowPage →
      PageMeets stackLowPage (mbsp.mbKrlimgpadr, mbsp.mbNextwtpadr) ∨
      PageMeets stackLowPage (mbsp.mbImgpadr, mbsp.mbImgpadr + mbsp.mbImgsz) := by
  obtain ⟨hres, hranges⟩ := initSearchKrloccupymm_spec hasc hrun
  have hocpy := hparm.ocpyRanges_meets hranges
  have hkernel := hparm.kernelRanges_meets
  -- the low page of the stack is passed with the kernel or with the image, if at all
  have hlow : MeetsAny mbsp.ocpyRanges stackLowPage ↔
      PageMeets stackLowPage (mbsp.mbKrlimgpadr, mbsp.mbNextwtpadr) ∨
      PageMeets stackLowPage (mbsp.mbImgpadr, mbsp.mbImgpadr + mbsp.mbImgsz) := by
    have hfirst : ¬ PageMeets stackLowPage (0, 0x1000) := by
      rw [← Nat.zero_mul pagesize, pageMeets_iff]
      decide
    rw [hocpy, or_iff_right hfirst, or_iff_right (Nat.ne_of_lt (Nat.lt_succ_self _))]
  constructor
  · intro hall i hi hpad
    have hmeets : MeetsAny mbsp.kernelRanges (d' i).pafPadrs := by
      rw [hres.padrs hi, hpad]
      exact (hkernel _).mpr (Or.inr (Or.inl (Or.inl rfl)))
    have hocc := (hres.occupied_iff hasc hi).mp ((hall.exact i hi).mpr hmeets)
    rw [hpad] at hocc
    exact hlow.mp hocc
  · intro hcond
    apply kernelReserved_of_exact
    intro i hi
    rw [hres.padrs hi, hres.occupied_iff hasc hi]
    by_cases hpad : (d i).pafPadrs = stackLowPage
    · have hmeets := hlow.mpr (hcond i hi hpad)
      rw [hpad]
      exact iff_of_true hmeets ((hkernel _).mpr (Or.inr (Or.inl (Or.inl rfl))))
    · rw [hocpy, hkernel, or_iff_right hpad]

end Stack

/-- A kernel of one page and an image of one page, where the loader puts them. -/
def onePageParm : Machbstart :=
  { machbstartInit with
    mbKrlinitstack := ikstackPhyadr
    mbKrlitstacksz := ikstackSize
    mbImgpadr := ldrfileadr
    mbImgsz := 0x1000
    mbKrlimgpadr := imgkrnlPhyadr
    mbNextwtpadr := imgkrnlPhyadr + 0x1000 }

theorem legacyParm_onePageParm : LegacyParm onePageParm := ⟨rfl, rfl, by decide⟩

/-- Descriptors of the given pages. -/
def pagesArray (ps : List Nat) : MsaArr := fun i => writeOneMsadsc (ps.getD i 0)

theorem ascArray_pagesArray (ps : List Nat) (hasc : ∀ j < ps.length, ∀ i < j,
    ps.getD i 0 < ps.getD j 0) (hlt : ∀ i < ps.length, ps.getD i 0 < 2 ^ 52) :
    AscArray ps.length (pagesArray ps) :=
  ⟨fun _ _ => rfl, fun i j hij hj => hasc j hj i hij, hlt⟩

/-- The search, when it gets through on a concrete array. -/
theorem exists_of_search {r : Option (Except String MsaArr)} {q : MsaArr → Bool}
    (h : (match r with
      | some (.ok d) => q d
      | _ => false) = true) : ∃ d, r = some (.ok d) ∧ q d = true := by
  rcases r with _ | (e | d)
  · cases h
  · cases h
  · exact ⟨d, rfl, h⟩

/-- Without a descriptor of the low page of the stack all is well. -/
theorem kernel_reserved_iff_onePageParm : ∃ d', (d' 1).Occupied ∧
    KernelReserved onePageParm 4 d' := by
  obtain ⟨d', hrun, hocc⟩ := exists_of_search
    (r := initSearchKrloccupymm 2 onePageParm 4 (pagesArray [0, 0x8f, 0x2000, 0x4000]))
    (q := fun d' => (d' 1).mfMocty = .krnl && (d' 1).pafAlloc && (d' 1).mfUindx = 1)
    (by decide +kernel)
  rw [Bool.and_eq_true, Bool.and_eq_true, decide_eq_true_eq, decide_eq_true_eq] at hocc
  have hasc := ascArray_pagesArray [0, 0x8f, 0x2000, 0x4000] (by decide) (by decide)
  have hlow : ∀ i < 4, (pagesArray [0, 0x8f, 0x2000, 0x4000] i).pafPadrs ≠ stackLowPage := by
    decide
  exact ⟨d', ⟨hocc.1.1, hocc.1.2, hocc.2⟩, (kernel_reserved_iff hasc
    legacyParm_onePageParm hrun).mpr fun i hi hpad => absurd hpad (hlow i hi)⟩

/-- With one, that page stays free. -/
theorem kernel_not_reserved : ¬ ∀ (fuel msanr : Nat) (d d' : MsaArr) (mbsp : Machbstart),
    AscArray msanr d → LegacyParm mbsp → mbsp.mbKrlimgpadr % pagesize = 0 →
    mbsp.mbImgpadr % pagesize = 0 →
    initSearchKrloccupymm fuel mbsp msanr d = some (.ok d') → KernelReserved mbsp msanr d' := by
  intro hall
  obtain ⟨d', hrun, hfree⟩ := exists_of_search
    (r := initSearchKrloccupymm 2 onePageParm 5 (pagesArray [0, 0x8e, 0x8f, 0x2000, 0x4000]))
    (q := fun d' => (d' 1).mfMocty = .free && (d' 1).pafPadrs = 0x8e) (by decide +kernel)
  rw [Bool.and_eq_true, decide_eq_true_eq, decide_eq_true_eq] at hfree
  have hasc := ascArray_pagesArray [0, 0x8e, 0x8f, 0x2000, 0x4000] (by decide) (by decide)
  have hres := hall 2 5 _ d' onePageParm hasc legacyParm_onePageParm (by decide) (by decide) hrun
  have hmeets : MeetsAny onePageParm.kernelRanges (d' 1).pafPadrs := by
    rw [hfree.2]
    exact (legacyParm_onePageParm.kernelRanges_meets _).mpr (Or.inr (Or.inl (Or.inl rfl)))
  have hmocty := ((hres.exact 1 (by decide)).mpr hmeets).1
  rw [hfree.1] at hmocty
  cases hmocty

end Cosmos.Hal
