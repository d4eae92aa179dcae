import Cosmos.Hal.MemdivmerRun

/-!
# Boot establishes the allocator invariant

The boot code finds an array of descriptors, stamps each with its area and
files the free ones.  While it runs, the pages not yet filed are blocks of one
page that are *held* in the sense of the invariant; filing a run of pages is a
sequence of the moves of `Cosmos.Hal.Blocks`, and when all areas are done
nothing is held any more.
-/

namespace Cosmos.Hal

open Cosmos.Lib.Word64 Cosmos.Lib.Cover Cosmos.Lib.Pool

/-! ## What boot finds -/

/-- The area of a page number. -/
def padrsTy (p : Nat) : MaType :=
  if p < 0x2000 then .hwad else if p < 0x400000 then .krnl else .proc

/-- The descriptor array `init_msadsc` wrote, with the pages that
`search_segment_occupymsadsc` reserved, and the memory behind it. -/
structure BootMem where
  msanr : Nat
  /-- page numbers, in the order of the memory map -/
  padrs : Nat → Nat
  /-- pages reserved for the kernel image, its stack and the boot tables -/
  occupied : Nat → Bool
  /-- what lies behind the array -/
  slack : MsaArr
  msanr_pos : 0 < msanr
  msanr_lt : msanr < wordMod
  padrs_lt : ∀ i < msanr, padrs i < 2 ^ 52
  padrs_inj : ∀ i < msanr, ∀ j < msanr, padrs i = padrs j → i = j

/-- The memory behind the array looks like the free page that follows its last one. -/
structure BootMem.Continued (b : BootMem) : Prop where
  free : b.occupied (b.msanr - 1) = false
  marty : (b.slack b.msanr).mfMarty = padrsTy (b.padrs (b.msanr - 1))
  uindx : (b.slack b.msanr).mfUindx = 0
  mocty : (b.slack b.msanr).mfMocty = .free
  alloc : (b.slack b.msanr).pafAlloc = false
  addr : sub64 (msadscRetAddr (b.slack b.msanr)) (b.padrs (b.msanr - 1) * pagesize) = pagesize

/-- All pages of the array are one run. -/
def BootMem.OneRun (b : BootMem) : Prop :=
  ∀ i < b.msanr, b.occupied i = false ∧ padrsTy (b.padrs i) = padrsTy (b.padrs 0) ∧
    b.padrs i = b.padrs 0 + i

/-- The memory behind the array does not continue its last run of free pages, unless that is
the whole array: then `scan_len_msadsc` ends with the array. -/
structure BootArray extends BootMem where
  slack_end : toBootMem.Continued → toBootMem.OneRun

/-- The descriptors in memory before `init_merlove_mem`. -/
def BootMem.msadscs (b : BootMem) : MsaArr := fun i =>
  if i < b.msanr then
    if b.occupied i then occupyMsadsc (writeOneMsadsc (b.padrs i))
    else writeOneMsadsc (b.padrs i)
  else b.slack i

/-- `init_merlove_mem` and `init_memmgrob`. -/
def BootMem.boot (b : BootMem) : Except String Memgrob :=
  match initMerloveMem ⟨initMemareaCore, b.msadscs⟩ b.msanr with
  | .error e => .error e
  | .ok x => .ok (initMemmgrob x b.msanr)

/-! ## Stamping -/

/-- The last byte of a page, whose successor may be `2 ^ 64`. -/
theorem page_last {p : Nat} (hp : p < 2 ^ 52) :
    sub64 (add64 (p * pagesize) pagesize) 1 = p * pagesize + 4095 := by
  have hsize : pagesize = 4096 := rfl
  have hw : wordMod = 2 ^ 64 := rfl
  rw [hsize]
  by_cases h : p * 4096 + 4096 < wordMod
  · rw [add64_eq h, sub64_eq h (by omega)]
    omega
  · have htop : p * 4096 + 4096 = wordMod := by omega
    have hzero : sub64 0 1 = 2 ^ 64 - 1 := by decide
    unfold add64
    rw [htop, Nat.mod_self, hzero]
    omega

theorem inMarea_eq (a : Nat) (ha : a < 3) {p : Nat} (hp : p < 2 ^ 52) :
    inMarea (initMemareaCore a) (p * pagesize) = decide (padrsTy p = areaTy a) := by
  have hlast := page_last hp
  unfold inMarea padrsTy
  rw [hlast]
  rcases (by omega : a = 0 ∨ a = 1 ∨ a = 2) with rfl | rfl | rfl
  · simp only [initMemareaCore, memareaInit, areaTy, pagesize]
    by_cases h : p < 0x2000
    · simp [h]
      omega
    · have h' : ¬ p * 4096 + 4095 ≤ 0x1ffffff := by omega
      simp only [h, if_false, h', decide_false, Bool.and_false]
      split <;> rfl
  · simp only [initMemareaCore, memareaInit, areaTy, pagesize]
    by_cases h : p < 0x2000
    · have h' : ¬ 0x2000000 ≤ p * 4096 := by omega
      simp [h]
      omega
    · by_cases h2 : p < 0x400000
      · simp [h, h2]
        omega
      · have h' : ¬ p * 4096 + 4095 ≤ 0x3ffffffff := by omega
        simp [h, h2]
        omega
  · simp only [initMemareaCore, memareaInit, areaTy, pagesize]
    by_cases h : p < 0x2000
    · simp [h]
      omega
    · by_cases h2 : p < 0x400000
      · simp [h, h2]
        omega
      · simp [h, h2]
        omega

/-- The array after `merlove_setallmarflgs_onmemarea` of one area. -/
def stampMsa (d : MsaArr) (m : Memarea) (ty : MaType) (n : Nat) : MsaArr := fun i =>
  if i < n ∧ (d i).mfMarty = .init ∧ inMarea m (msadscRetAddr (d i)) then
    { d i with mfMarty := ty }
  else d i

theorem foldl_setMarflg (d : MsaArr) (m : Memarea) (ty : MaType) (n : Nat) :
    ((List.range n).foldl (setMarflg m ty) (d, 0)).1 = stampMsa d m ty n := by
  induction n with
  | zero =>
      funext i
      simp [stampMsa]
  | succ n ih =>
      rw [List.range_succ, List.foldl_append]
      simp only [List.foldl_cons, List.foldl_nil]
      generalize hst : (List.range n).foldl (setMarflg m ty) (d, 0) = st at ih
      have hn : st.1 n = d n := by
        rw [ih]
        exact if_neg (by omega)
      unfold setMarflg
      rw [hn]
      by_cases hcond : (d n).mfMarty = .init ∧ inMarea m (msadscRetAddr (d n))
      · rw [if_pos hcond]
        simp only
        funext i
        by_cases hi : i = n
        · subst hi
          rw [upd_self, hn]
          unfold stampMsa
          rw [if_pos ⟨Nat.lt_succ_self i, hcond⟩]
        · rw [upd_of_ne hi, ih]
          unfold stampMsa
          refine if_congr ?_ rfl rfl
          exact and_congr_left fun _ => by omega
      · rw [if_neg hcond, ih]
        funext i
        unfold stampMsa
        by_cases hi : i = n
        · subst hi
          rw [if_neg (by omega), if_neg fun h => hcond h.2]
        · refine if_congr ?_ rfl rfl
          exact and_congr_left fun _ => by omega

/-- The descriptors after all areas were stamped. -/
def BootArray.stamped (b : BootArray) : MsaArr := fun i =>
  if i < b.msanr then { b.msadscs i with mfMarty := padrsTy (b.padrs i) }
  else b.msadscs i

/-- The descriptors while areas `0, …, a - 1` were stamped. -/
def BootArray.stamping (b : BootArray) (a : Nat) : MsaArr := fun i =>
  if i < b.msanr ∧ ∃ c < a, padrsTy (b.padrs i) = areaTy c then
    { b.msadscs i with mfMarty := padrsTy (b.padrs i) }
  else b.msadscs i

/-- The tags the boot array starts with. -/
theorem BootArray.msadscs_of_lt (b : BootArray) {i : Nat} (hi : i < b.msanr) :
    (b.msadscs i).mfOlkty = .init ∧ (b.msadscs i).mdOdlink = .null ∧
      (b.msadscs i).mfMarty = .init ∧ (b.msadscs i).pafPadrs = b.padrs i ∧
      ((b.msadscs i).mfMocty = .free ↔ b.occupied i = false) ∧
      (b.msadscs i).mfUindx = (if b.occupied i then 1 else 0) ∧
      (b.msadscs i).pafAlloc = b.occupied i ∧
      (b.msadscs i).mfMocty = (if b.occupied i then .krnl else .free) := by
  unfold BootMem.msadscs
  rw [if_pos hi]
  cases h : b.occupied i with
  | false => simp [writeOneMsadsc]
  | true => simp [occupyMsadsc, writeOneMsadsc]

theorem stampMsa_stamping (b : BootArray) {a : Nat} (ha : a < 3) :
    stampMsa (b.stamping a) (initMemareaCore a) (areaTy a) b.msanr = b.stamping (a + 1) := by
  funext i
  by_cases hi : i < b.msanr
  · obtain ⟨_, _, hm, hp, _⟩ := b.msadscs_of_lt hi
    by_cases hdone : ∃ c < a, padrsTy (b.padrs i) = areaTy c
    · have hst : b.stamping a i = { b.msadscs i with mfMarty := padrsTy (b.padrs i) } :=
        if_pos ⟨hi, hdone⟩
      have hne : padrsTy (b.padrs i) ≠ .init := by
        unfold padrsTy
        split
        · decide
        · split <;> decide
      unfold stampMsa
      rw [hst, if_neg fun h => hne h.2.1]
      obtain ⟨c, hc, hty⟩ := hdone
      exact (if_pos ⟨hi, c, by omega, hty⟩).symm
    · have hst : b.stamping a i = b.msadscs i := if_neg fun h => hdone h.2
      unfold stampMsa
      rw [hst]
      have haddr : msadscRetAddr (b.msadscs i) = b.padrs i * pagesize := by
        unfold msadscRetAddr
        rw [hp]
      rw [haddr, inMarea_eq a ha (b.padrs_lt i hi)]
      by_cases hty : padrsTy (b.padrs i) = areaTy a
      · rw [if_pos ⟨hi, hm, by simp [hty]⟩]
        unfold BootArray.stamping
        rw [if_pos ⟨hi, a, Nat.lt_succ_self a, hty⟩, hty]
      · rw [if_neg (by simp [hty])]
        refine (if_neg ?_).symm
        rintro ⟨_, c, hc, hcty⟩
        by_cases hca : c = a
        · subst hca
          exact hty hcty
        · exact hdone ⟨c, by omega, hcty⟩
  · unfold stampMsa BootArray.stamping
    rw [if_neg fun h => hi h.1, if_neg fun h => hi h.1, if_neg fun h => hi h.1]

/-- Stamping an area that owns pages. -/
theorem merloveSetallmarflgs_page {b : BootArray} {a : Nat} (ha : a < 3) :
    (merloveSetallmarflgsOnmemarea (initMemareaCore a) (b.stamping a) b.msanr).1
      = b.stamping (a + 1) := by
  have hpos := b.msanr_pos
  have hmarty : martyOfArea (initMemareaCore a).maType = some (areaTy a) ∧
      (initMemareaCore a).maType ≠ .shar := by
    rcases (by omega : a = 0 ∨ a = 1 ∨ a = 2) with rfl | rfl | rfl
    · exact ⟨rfl, by decide⟩
    · exact ⟨rfl, by decide⟩
    · exact ⟨rfl, by decide⟩
  unfold merloveSetallmarflgsOnmemarea
  rw [if_neg (by omega), if_neg hmarty.2, hmarty.1]
  simp only
  rw [foldl_setMarflg, stampMsa_stamping b ha]

/-- After the first loop every descriptor carries its area. -/
theorem merloveSetLoop_stamped (b : BootArray) {d : MsaArr}
    (h : merloveSetLoop initMemareaCore b.msanr memareaMax 0 b.msadscs = some d) :
    d = b.stamped := by
  have hstart : b.msadscs = b.stamping 0 := by
    funext i
    unfold BootArray.stamping
    rw [if_neg]
    rintro ⟨_, c, hc, _⟩
    exact absurd hc (by omega)
  have hdone : b.stamping 3 = b.stamped := by
    funext i
    unfold BootArray.stamping BootArray.stamped
    refine if_congr ?_ rfl rfl
    apply and_iff_left_of_imp
    intro _
    unfold padrsTy
    split
    · exact ⟨0, by decide, rfl⟩
    · split
      · exact ⟨1, by decide, rfl⟩
      · exact ⟨2, by decide, rfl⟩
  -- one round of the loop for an area that owns pages
  have hround : ∀ a, a < 3 → ∀ n,
      merloveSetLoop initMemareaCore b.msanr (n + 1) a (b.stamping a) = some d →
      merloveSetLoop initMemareaCore b.msanr n (a + 1) (b.stamping (a + 1)) = some d := by
    intro a ha n hrun
    have hst := merloveSetallmarflgs_page (b := b) ha
    rw [merloveSetLoop] at hrun
    split at hrun
    · cases hrun
    · rename_i d' sretf heq
      rw [heq] at hst
      simp only at hst
      subst hst
      split at hrun
      · cases hrun
      · split at hrun
        · cases hrun
        · exact hrun
  rw [hstart] at h
  have h3 := hround 2 (by decide) 1 (hround 1 (by decide) 2 (hround 0 (by decide) 3 h))
  have hpos := b.msanr_pos
  have hmsanr : ¬ b.msanr = 0 := by omega
  have hshar : (initMemareaCore 3).maType = .shar := rfl
  simp only [merloveSetLoop, merloveSetallmarflgsOnmemarea, testSetflgs, hmsanr, if_false,
    hshar, if_true, ne_eq, not_true_eq_false, Option.some.injEq] at h3
  rw [← h3, hdone]

/-! ## Scanning for runs -/

/-- The descriptor behind `i` continues a run of free pages. -/
def Link (d : MsaArr) (ty : MaType) (i : Nat) : Prop :=
  msaIsFree (d i) ty = true ∧ msaIsFree (d (i + 1)) ty = true ∧
    sub64 (msadscRetAddr (d (i + 1))) (msadscRetAddr (d i)) = pagesize

section Scan

variable {d : MsaArr} {ty : MaType}

theorem continumsadscIsOk_link {i : Nat} (h : Link d ty i) :
    continumsadscIsOk (d i) (d (i + 1)) ty = 2 := by
  unfold continumsadscIsOk
  rw [if_pos h.1, if_pos h.2.1, if_pos h.2.2]

theorem continumsadscIsOk_end {i : Nat} (hi : msaIsFree (d i) ty = true)
    (h : ¬ Link d ty i) : continumsadscIsOk (d i) (d (i + 1)) ty = 1 := by
  unfold continumsadscIsOk
  rw [if_pos hi]
  by_cases hnext : msaIsFree (d (i + 1)) ty = true
  · rw [if_pos hnext, if_neg fun hdist => h ⟨hi, hnext, hdist⟩]
  · rw [if_neg hnext]

/-- The length scan follows the links and stops at the first one missing, or
when its rounds are used up. -/
theorem scanLenLoop_spec (s : Nat) : ∀ n r, msaIsFree (d (s + r)) ty = true →
    ∃ r', scanLenLoop d ty s n r = some r' ∧ r ≤ r' ∧ r' ≤ r + n ∧
      (∀ j, r ≤ j → j < r' → Link d ty (s + j)) ∧
      (r' < r + n → ¬ Link d ty (s + r')) := by
  intro n
  induction n with
  | zero =>
      intro r _
      exact ⟨r, rfl, Nat.le_refl r, Nat.le_refl r, fun j h1 h2 => absurd h2 (by omega),
        fun h => absurd h (by omega)⟩
  | succ n ih =>
      intro r hr
      by_cases hlink : Link d ty (s + r)
      · obtain ⟨r', hrun, h1, h2, h3, h4⟩ := ih (r + 1) hlink.2.1
        refine ⟨r', ?_, by omega, by omega, fun j hj hj' => ?_, fun h => h4 (by omega)⟩
        · rw [scanLenLoop, continumsadscIsOk_link hlink]
          exact hrun
        · by_cases hjr : j = r
          · subst hjr
            exact hlink
          · exact h3 j (by omega) hj'
      · refine ⟨r, ?_, Nat.le_refl r, by omega, fun j h1 h2 => absurd h2 (by omega),
          fun _ => hlink⟩
        rw [scanLenLoop, continumsadscIsOk_end hr hlink]
        rfl

/-- The search finds the first free page at or behind `f` and the run it
starts, and never stops. -/
theorem scanContinuLoop_spec (d : MsaArr) (ty : MaType) {msanr : Nat} (hpos : 0 < msanr) :
    ∀ n f, f + n = msanr →
    (scanContinuLoop d ty msanr n f = .ok (msanr, none) ∧
      ∀ i, f ≤ i → i < msanr → ¬ msaIsFree (d i) ty = true) ∨
    ∃ s r, scanContinuLoop d ty msanr n f = .ok (s + r + 1, some (s, s + r, r + 1)) ∧
      f ≤ s ∧ s < msanr ∧ (∀ i, f ≤ i → i < s → ¬ msaIsFree (d i) ty = true) ∧
      msaIsFree (d s) ty = true ∧ (∀ j, j < r → Link d ty (s + j)) ∧
      (r < msanr - 1 → ¬ Link d ty (s + r)) ∧ r ≤ msanr - 1 := by
  intro n
  induction n with
  | zero =>
      intro f hf
      exact Or.inl ⟨rfl, fun i h1 h2 => absurd h2 (by omega)⟩
  | succ n ih =>
      intro f hf
      by_cases hfree : msaIsFree (d f) ty = true
      · obtain ⟨r, hrun, _, hle, hlinks, hend⟩ :=
          scanLenLoop_spec f (msanr - 1) 0 hfree
        refine Or.inr ⟨f, r, ?_, Nat.le_refl f, by omega, fun i h1 h2 => absurd h2 (by omega),
          hfree, fun j hj => hlinks j (Nat.zero_le j) hj, fun h => hend (by omega), by omega⟩
        rw [scanContinuLoop, if_pos hfree]
        unfold scanLenMsadsc
        rw [if_neg (by omega), hrun]
      · have hskip : scanContinuLoop d ty msanr (n + 1) f
            = scanContinuLoop d ty msanr n (f + 1) := by
          rw [scanContinuLoop, if_neg hfree]
        rw [hskip]
        have hstep : ∀ i, f ≤ i → f + 1 ≤ i ∨ i = f := fun i hi => by omega
        rcases ih (f + 1) (by omega) with ⟨hrun, hall⟩ | ⟨s, r, hrun, h1, h2, h3, h4⟩
        · refine Or.inl ⟨hrun, fun i hi hi' => ?_⟩
          rcases hstep i hi with h | rfl
          · exact hall i h hi'
          · exact hfree
        · refine Or.inr ⟨s, r, hrun, by omega, h2, fun i hi hi' => ?_, h4⟩
          rcases hstep i hi with h | rfl
          · exact h3 i h hi'
          · exact hfree

/-- The address of the next page is a page further, or wraps from the top of the
address space to its bottom. -/
theorem padrs_of_dist {p q : Nat} (hp : p < 2 ^ 52) (hq : q < 2 ^ 52)
    (h : sub64 (q * pagesize) (p * pagesize) = pagesize) :
    q = p + 1 ∨ (q = 0 ∧ p = 2 ^ 52 - 1) := by
  have hsize : pagesize = 4096 := rfl
  have hw : wordMod = 2 ^ 64 := rfl
  rw [hsize] at h
  by_cases hle : p ≤ q
  · rw [sub64_eq (by omega) (by omega)] at h
    exact Or.inl (by omega)
  · unfold sub64 at h
    have hp64 : p * 4096 % wordMod = p * 4096 := Nat.mod_eq_of_lt (by omega)
    rw [hp64] at h
    have hsum : (q * 4096 + (wordMod - p * 4096)) % wordMod
        = q * 4096 + (wordMod - p * 4096) := Nat.mod_eq_of_lt (by omega)
    rw [hsum] at h
    exact Or.inr (by omega)

/-- A chain of links is a block of pages. -/
theorem shape_of_links {s n : Nat} (hfree : msaIsFree (d s) ty = true)
    (hlinks : ∀ j, j + 1 < n → Link d ty (s + j))
    (hpad : ∀ j, j < n → (d (s + j)).pafPadrs < 2 ^ 52 ∧
      (d (s + j)).mfMarty = padrsTy (d (s + j)).pafPadrs) :
    Shape d ty s n ∧ Clean d s n ∧ ∀ i < n, (d (s + i)).mfMocty = .free := by
  have hall : ∀ i, i < n → msaIsFree (d (s + i)) ty = true ∧
      (d (s + i)).pafPadrs = (d s).pafPadrs + i := by
    intro i
    induction i with
    | zero => exact fun _ => ⟨hfree, rfl⟩
    | succ i ih =>
        intro hi
        obtain ⟨hf, hp⟩ := ih (by omega)
        obtain ⟨_, hnext, hdist⟩ := hlinks i hi
        obtain ⟨h1, hty1⟩ := hpad i (by omega)
        obtain ⟨h2, hty2⟩ := hpad (i + 1) hi
        refine ⟨hnext, ?_⟩
        rcases padrs_of_dist h1 h2 hdist with hq | ⟨hq, htop⟩
        · omega
        · -- the top and the bottom page belong to different areas
          simp only [msaIsFree, Bool.and_eq_true, decide_eq_true_eq] at hf hnext
          have hidx : s + i + 1 = s + (i + 1) := rfl
          rw [hidx] at hnext
          rw [hf.1.1.1, htop] at hty1
          rw [hnext.1.1.1, hq, hty1] at hty2
          exact absurd hty2 (by decide)
  refine ⟨fun i hi => ?_, fun i hi => ?_, fun i hi => ?_⟩
  · obtain ⟨hf, hp⟩ := hall i hi
    simp only [msaIsFree, Bool.and_eq_true, decide_eq_true_eq] at hf
    exact ⟨hf.1.1.1, hp⟩
  · have hf := (hall i hi).1
    simp only [msaIsFree, Bool.and_eq_true, decide_eq_true_eq] at hf
    exact ⟨hf.1.1.2, by simpa using hf.2⟩
  · have hf := (hall i hi).1
    simp only [msaIsFree, Bool.and_eq_true, decide_eq_true_eq] at hf
    exact hf.1.2

end Scan

end Cosmos.Hal
