import Mathlib.Data.Nat.Log
import Cosmos.Lib.BinaryCut
import Cosmos.Hal.MemareaFile

/-!
# From boot to the allocator invariant

The loops of `merlove_mem_core` as sequences of filing steps, and
`BootArray.boot_inv`: when boot gets through, the memory manager it leaves
behind meets `MmInv` with no block outstanding.
-/

namespace Cosmos.Hal

open Cosmos.Lib.Word64 Cosmos.Lib.Cover Cosmos.Lib.Pool Cosmos.Lib.BinaryCut

/-! ## Choosing the list of a block -/

/-- The scan of `find_continumsa_inbafhlst` keeps the last list that fits. -/
theorem findContinumsaStep_foldl (m : Memarea) {n K : Nat} (hlo : 2 ^ K ≤ n)
    (hhi : n < 2 ^ (K + 1)) : ∀ j, (∀ li < j, (m.dmMdmlielst li).afOderpnr = 2 ^ li) →
    (List.range j).foldl (findContinumsaStep m n) (none, 0)
      = (if j = 0 then none else some (min (j - 1) K), min j (K + 1)) := by
  intro j
  induction j with
  | zero =>
      intro _
      rfl
  | succ j ih =>
      intro hord
      rw [List.range_succ, List.foldl_append, ih fun li hli => hord li (by omega)]
      simp only [List.foldl_cons, List.foldl_nil]
      unfold findContinumsaStep
      rw [hord j (by omega)]
      by_cases hj : j ≤ K
      · have hfit : 2 ^ j ≤ n :=
          Nat.le_trans (Nat.pow_le_pow_right (by decide) hj) hlo
        rw [if_pos hfit]
        simp only
        rw [if_neg (Nat.succ_ne_zero j), Nat.add_sub_cancel, Nat.min_eq_left hj,
          Nat.min_eq_left (show j + 1 ≤ K + 1 by omega),
          Nat.min_eq_left (show j ≤ K + 1 by omega)]
      · have hbig : ¬ 2 ^ j ≤ n := by
          have := Nat.pow_le_pow_right (show 0 < 2 by decide) (show K + 1 ≤ j by omega)
          omega
        rw [if_neg hbig, if_neg (show ¬ j = 0 by omega), if_neg (Nat.succ_ne_zero j)]
        rw [Nat.min_eq_right (show K ≤ j - 1 by omega),
          Nat.min_eq_right (show K ≤ j + 1 - 1 by omega),
          Nat.min_eq_right (show K + 1 ≤ j by omega),
          Nat.min_eq_right (show K + 1 ≤ j + 1 by omega)]

/-- The lists of an area as `memarea_t_init` makes them, whatever is on them. -/
structure ListsOk (x : Mem) (a : Nat) : Prop where
  order : ∀ p ∈ areaPtrs a, (x.bafh p).afOderpnr = p.ord
  stus : ∀ p ∈ areaPtrs a, (x.bafh p).afStus = p.stus

section Boot

variable {b : BootArray} {a f : Nat} {x : Mem}

/-- Outside the process area the largest block that fits is cut off. -/
theorem findContinumsa_eq (h : ListsOk x a) (hproc : (x.mareastat a).maType ≠ .proc)
    (hshar : (x.mareastat a).maType ≠ .shar) {n K : Nat} (hlo : 2 ^ K ≤ n)
    (hhi : n < 2 ^ (K + 1)) :
    findContinumsaInbafhlst a (x.mareastat a) n
      = if K + 1 < mdivmerArrLmax then some (.lie a K) else none := by
  have hpos := Nat.two_pow_pos K
  have hord : ∀ li < mdivmerArrLmax,
      ((x.mareastat a).dmMdmlielst li).afOderpnr = 2 ^ li :=
    fun li hli => h.order (.lie a li) (lie_mem_areaPtrs hli)
  unfold findContinumsaInbafhlst
  rw [if_neg (by omega), if_neg hproc, if_neg hshar, findContinumsaStep_foldl _ hlo hhi _ hord]
  rw [if_neg (by decide)]
  simp only
  by_cases hK : K + 1 < mdivmerArrLmax
  · rw [if_pos hK, if_neg (by omega), Nat.min_eq_right (by omega)]
  · rw [if_neg hK, if_pos (by omega)]

/-- The lists while boot files. -/
theorem Filing.lists (h : Filing b a f x) {c : Nat} (hc : c < memareaMax) : ListsOk x c :=
  ⟨fun p hp => h.inv.order p (mem_ptrs_of_area hc hp),
    fun p hp => h.stus p (mem_ptrs_of_area hc hp)⟩

/-! ## Filing a run -/

/-- `continumsadsc_add_bafhlst` files a block. -/
theorem continumsadscAddBafhlst_eq {p : BafhPtr} (hp : (x.bafh p).afOderpnr = p.ord) (s : Nat) :
    continumsadscAddBafhlst x p.area p s (s + (p.ord - 1)) p.ord = some (fileMem x p s) := by
  have hpos := p.ord_pos
  unfold continumsadscAddBafhlst
  rw [if_neg (by omega), if_neg (by omega), if_neg (by omega), tagBlock_eq]
  simp only [withMsa_bafh]
  rfl

/-- One page of `continumsadsc_add_procmareabafh`. -/
theorem addProcMsa_eq (x : Mem) (a s i : Nat) :
    addProcMsa a s x i = fileMem x (.one a) (s + i) := by
  unfold addProcMsa fileMem
  simp only [setMsa_eq, withMsa_bafh]
  rw [show (BafhPtr.one a).ord = 1 from rfl, tagMsa_one]
  rfl

/-- One round of the loop over a run, outside the process area. -/
theorem continumsadscMareabafhCore_lie (h : ListsOk x a)
    (hproc : (x.mareastat a).maType ≠ .proc) (hshar : (x.mareastat a).maType ≠ .shar)
    {n K : Nat} (hlo : 2 ^ K ≤ n) (hhi : n < 2 ^ (K + 1)) (hsmall : K + 1 < mdivmerArrLmax)
    (s e : Nat) : continumsadscMareabafhCore x a s e n =
      if n - 2 ^ K = 0 then some (fileMem x (.lie a K) s, s, none, 0)
      else some (fileMem x (.lie a K) s, s + 2 ^ K, some e, n - 2 ^ K) := by
  have hpos := Nat.two_pow_pos K
  have hmem : BafhPtr.lie a K ∈ areaPtrs a := lie_mem_areaPtrs (by omega)
  have hord : (x.bafh (.lie a K)).afOderpnr = 2 ^ K := h.order _ hmem
  have hst : (x.bafh (.lie a K)).afStus = .divm := h.stus _ hmem
  have hfile := continumsadscAddBafhlst_eq (p := .lie a K) hord s
  simp only [BafhPtr.area, BafhPtr.ord] at hfile
  unfold continumsadscMareabafhCore
  rw [if_neg (by omega), findContinumsa_eq h hproc hshar hlo hhi, if_pos hsmall]
  simp only [hord, hst, hfile]
  rw [if_neg (by omega), if_pos (by simp [hproc])]

/-- The one round of the process area files the whole run. -/
theorem continumsadscMareabafhCore_one (h : ListsOk x a)
    (hproc : (x.mareastat a).maType = .proc) {n : Nat} (hn : 0 < n) (s : Nat) :
    continumsadscMareabafhCore x a s (s + (n - 1)) n
      = some ((List.range n).foldl (addProcMsa a s) x, s, none, 0) := by
  have hmem : BafhPtr.one a ∈ areaPtrs a := one_mem_areaPtrs a
  have hord : (x.bafh (.one a)).afOderpnr = 1 := h.order _ hmem
  have hst : (x.bafh (.one a)).afStus = .onem := h.stus _ hmem
  unfold continumsadscMareabafhCore findContinumsaInbafhlst continumsadscAddProcmareabafh
  rw [if_neg (by omega), if_neg (by omega), hproc, if_pos rfl]
  simp only [hord, hst]
  rw [if_neg (by omega), if_neg (by simp), if_pos ⟨trivial, trivial⟩, if_neg (by omega),
    if_neg (by simp), if_neg (by simp), if_neg (by simp)]

/-- No block of a list continues into the run of `n` pages at `f`, unless it is
larger than the run. -/
def Fresh (b : BootArray) (a f n : Nat) (x : Mem) : Prop :=
  ∀ k < mdivmerArrLmax, ∀ t ∈ x.free (.lie a k), t + 2 ^ k = f →
    b.padrs f = b.padrs t + 2 ^ k → n < 2 ^ k

/-- The lists gained the pieces of the run of `n` pages at `f`. -/
def Cuts (a f n : Nat) (x x' : Mem) : Prop :=
  ∀ c < 2, ∀ k s, s ∈ x'.free (.lie c k) ↔
    s ∈ x.free (.lie c k) ∨ (c = a ∧ IsPiece f n s k)

/-- Filing the largest block and then the rest cuts the whole run. -/
theorem Cuts.step {a f K r : Nat} {x x' : Mem} (hr : r < 2 ^ K)
    (h : Cuts a (f + 2 ^ K) r (fileMem x (.lie a K) f) x') : Cuts a f (2 ^ K + r) x x' := by
  intro c hc k s
  rw [h c hc k s, isPiece_add hr, fileMem_free]
  by_cases hp : c = a ∧ k = K
  · obtain ⟨rfl, rfl⟩ := hp
    rw [Function.update_self, List.mem_cons]
    constructor
    · rintro ((rfl | hs) | hs)
      · exact Or.inr ⟨rfl, Or.inl ⟨rfl, rfl⟩⟩
      · exact Or.inl hs
      · exact Or.inr ⟨hs.1, Or.inr hs.2⟩
    · rintro (hs | ⟨_, ⟨rfl, _⟩ | hs⟩)
      · exact Or.inl (Or.inr hs)
      · exact Or.inl (Or.inl rfl)
      · exact Or.inr ⟨rfl, hs⟩
  · rw [Function.update_of_ne (by simpa using hp)]
    refine or_congr_right (and_congr_right fun hca => ?_)
    exact (or_iff_right fun hs => hp ⟨hca, hs.2⟩).symm

theorem Cuts.zero (a f : Nat) (x : Mem) : Cuts a f 0 x x := fun _ _ k s =>
  (or_iff_left fun h => not_isPiece_zero f s k h.2).symm

/-- **The loop over a run** outside the process area: each round files the
largest block that fits, so the blocks of one run get smaller and no two of them
could be joined. -/
theorem merloveContinuLoop_filing (ha : a < 2) : ∀ m n f x, n ≤ m → 0 < n →
    Filing b a f x → IsRun b a f n → Fresh b a f n x → ∀ x',
    merloveContinuLoop a m x f (some (f + (n - 1))) n = .ok x' →
    Filing b a (f + n) x' ∧ Cuts a f n x x' := by
  intro m
  induction m with
  | zero =>
      intro n f x hm hn
      omega
  | succ m ih =>
      intro n f x hm hn h hrun hfresh x' hloop
      have hmax : memareaMax = 4 := rfl
      have hlmax : mdivmerArrLmax = 52 := rfl
      have hty : (x.mareastat a).maType = areaTy a := h.inv.types a (by omega)
      have hne : areaTy a ≠ .proc ∧ areaTy a ≠ .shar := by
        have hcases : ∀ c < 2, areaTy c ≠ .proc ∧ areaTy c ≠ .shar := by decide
        exact hcases a ha
      rw [← hty] at hne
      have hlists := h.lists (show a < memareaMax by omega)
      have hlo : 2 ^ Nat.log2 n ≤ n := Nat.log2_self_le (by omega)
      have hhi : n < 2 ^ (Nat.log2 n + 1) := Nat.lt_log2_self
      generalize hK : Nat.log2 n = K at hlo hhi
      rw [merloveContinuLoop, if_neg (by omega)] at hloop
      by_cases hsmall : K + 1 < mdivmerArrLmax
      · have hp : (BafhPtr.lie a K).Used := ⟨ha, by omega⟩
        rw [continumsadscMareabafhCore_lie hlists hne.1 hne.2 hlo hhi hsmall] at hloop
        -- the run as the block filed now and the rest
        obtain ⟨r, rfl⟩ := Nat.exists_eq_add_of_le hlo
        have hnew : Filing b a (f + 2 ^ K) (fileMem x (.lie a K) f) := by
          apply h.file (by omega) hp rfl hrun.left
          intro k hk t ht hend hpad
          cases hk
          have := hfresh K hp.2 t ht hend hpad
          omega
        rw [Nat.add_sub_cancel_left] at hloop
        by_cases hr : r = 0
        · subst hr
          rw [if_pos rfl] at hloop
          simp only at hloop
          have hdone : fileMem x (.lie a K) f = x' := by
            cases m with
            | zero =>
                rw [merloveContinuLoop] at hloop
                exact Except.ok.inj hloop
            | succ m =>
                rw [merloveContinuLoop] at hloop
                exact Except.ok.inj hloop
          rw [← hdone]
          exact ⟨hnew, Cuts.step (Nat.two_pow_pos K) (Cuts.zero a _ _)⟩
        · rw [if_neg hr] at hloop
          have hend : f + (2 ^ K + r - 1) = f + 2 ^ K + (r - 1) := by omega
          rw [hend] at hloop
          have hpos := Nat.two_pow_pos K
          have hpow : 2 ^ (K + 1) = 2 ^ K + 2 ^ K := by
            rw [Nat.pow_succ]
            omega
          have hfresh' : Fresh b a (f + 2 ^ K) r (fileMem x (.lie a K) f) := by
            intro k hk t ht htend _
            rw [fileMem_free] at ht
            by_cases hkK : k = K
            · subst hkK
              omega
            · -- an older block would reach into the run
              have hold : t ∈ x.free (.lie a k) := by
                rwa [Function.update_of_ne (by simp [hkK])] at ht
              have hkpos := Nat.two_pow_pos k
              have hin : (Seg.mk t (2 ^ k)).Has (f + 2 ^ K - 1) :=
                Seg.has_mk (by omega) (by omega)
              have := h.below (by omega) (lie_mem_ptrs (by omega) hk) rfl hold hin
              omega
          obtain ⟨hfil, hcut⟩ :=
            ih r (f + 2 ^ K) _ (by omega) (by omega) hnew hrun.right hfresh' x' hloop
          rw [← Nat.add_assoc]
          exact ⟨hfil, hcut.step (by omega)⟩
      · unfold continumsadscMareabafhCore at hloop
        rw [if_neg (by omega), findContinumsa_eq hlists hne.1 hne.2 hlo hhi, if_neg hsmall] at hloop
        cases hloop

/-- The pages of a run of the process area, one by one. -/
theorem addProcMsa_foldl (h : Filing b 2 f x) : ∀ n, IsRun b 2 f n →
    Filing b 2 (f + n) ((List.range n).foldl (addProcMsa 2 f) x) ∧
      Cuts 2 f n x ((List.range n).foldl (addProcMsa 2 f) x) := by
  intro n
  induction n with
  | zero =>
      intro _
      exact ⟨h, Cuts.zero 2 f x⟩
  | succ n ih =>
      intro hrun
      obtain ⟨hfil, hcut⟩ := ih hrun.left
      rw [List.range_succ, List.foldl_append]
      simp only [List.foldl_cons, List.foldl_nil]
      rw [addProcMsa_eq]
      have hp : (BafhPtr.one 2).Used := rfl
      refine ⟨hfil.file (by decide) hp rfl hrun.right fun k hk => BafhPtr.noConfusion hk, ?_⟩
      -- the lists of the other areas stay as they are
      intro c hc k s
      rw [fileMem_free, Function.update_of_ne (by simp), hcut c hc k s]
      exact or_congr_right (and_congr_right fun h2 => absurd h2 (by omega))

/-- **Filing a whole run.** -/
theorem merloveContinumsadscMareabafh_filing (ha : a < 3) {n : Nat} (hn : 0 < n)
    (h : Filing b a f x) (hrun : IsRun b a f n) (hfresh : Fresh b a f n x) {x' : Mem}
    (hdone : merloveContinumsadscMareabafh x a f (f + (n - 1)) n = .ok (some x')) :
    Filing b a (f + n) x' ∧ Cuts a f n x x' := by
  unfold merloveContinumsadscMareabafh at hdone
  rw [if_neg (by omega)] at hdone
  have hloop : merloveContinuLoop a n x f (some (f + (n - 1))) n = .ok x' := by
    split at hdone
    · cases hdone
    · cases hdone
      assumption
  by_cases hproc : a = 2
  · subst hproc
    -- one round files the whole run
    have hmax : memareaMax = 4 := rfl
    have hty : (x.mareastat 2).maType = .proc := h.inv.types 2 (by decide)
    have hcore := continumsadscMareabafhCore_one (h.lists (c := 2) (by decide)) hty hn f
    obtain ⟨m, rfl⟩ := Nat.exists_eq_succ_of_ne_zero (Nat.pos_iff_ne_zero.mp hn)
    rw [merloveContinuLoop, if_neg (by omega), hcore] at hloop
    simp only at hloop
    have hfile : (List.range (m + 1)).foldl (addProcMsa 2 f) x = x' := by
      cases m with
      | zero =>
          rw [merloveContinuLoop] at hloop
          exact Except.ok.inj hloop
      | succ m =>
          rw [merloveContinuLoop] at hloop
          exact Except.ok.inj hloop
    rw [← hfile]
    exact addProcMsa_foldl h (m + 1) hrun
  · exact merloveContinuLoop_filing (by omega) n n f x (Nat.le_refl n) hn h hrun hfresh x' hloop

/-! ## Filing an area -/

/-- Where the scan starts: at the start of the array, behind its end or behind the end of
a run. -/
def AtRunStart (b : BootArray) (a f : Nat) : Prop :=
  f = 0 ∨ b.msanr ≤ f ∨ ¬ Link b.stamped (areaTy a) (f - 1)

/-- A run that cannot be made longer at either end. -/
structure MaxRun (b : BootArray) (a s n : Nat) : Prop where
  run : IsRun b a s n
  pos : 0 < n
  start : AtRunStart b a s
  stop : s + n = b.msanr ∨ ¬ Link b.stamped (areaTy a) (s + n - 1)

/-- The pages of a run are linked. -/
theorem IsRun.link {s n : Nat} (ha : a < 3) (h : IsRun b a s n) {i : Nat} (h1 : s ≤ i)
    (h2 : i + 1 < s + n) : Link b.stamped (areaTy a) i := by
  obtain ⟨j, rfl⟩ := Nat.exists_eq_add_of_le h1
  have hle := h.le
  obtain ⟨ho, har, hp⟩ := h.page j (by omega)
  obtain ⟨ho', har', hp'⟩ := h.page (j + 1) (by omega)
  have hlt : s + j < b.msanr := by omega
  have hlt' : s + (j + 1) < b.msanr := by omega
  have hbnd := b.padrs_lt _ hlt'
  have hsize : pagesize = 4096 := rfl
  have hw : wordMod = 2 ^ 64 := rfl
  refine ⟨(b.msaIsFree_stamped hlt ha).mpr ⟨ho, har⟩,
    (b.msaIsFree_stamped hlt' ha).mpr ⟨ho', har'⟩, ?_⟩
  unfold msadscRetAddr
  rw [Nat.add_assoc, (b.stamped_of_lt hlt).2.2.2.1, (b.stamped_of_lt hlt').2.2.2.1, hsize,
    sub64_eq (by omega) (by omega)]
  omega

/-- A longest run does not reach behind the start of another run, or lies behind
it. -/
theorem MaxRun.behind {s n : Nat} (ha : a < 3) (h : MaxRun b a s n)
    (hstart : AtRunStart b a f) : s + n ≤ f ∨ f ≤ s := by
  by_contra hin
  have hle := h.run.le
  rcases hstart with rfl | hend | hlink
  · omega
  · omega
  · exact hlink (h.run.link ha (by omega) (by omega))

/-- Two longest runs that meet are one. -/
theorem MaxRun.unique {s n s' n' : Nat} (ha : a < 3) (h : MaxRun b a s n)
    (h' : MaxRun b a s' n') (h1 : s ≤ s') (h2 : s' < s + n) : s' = s ∧ n' = n := by
  have hpos := h.pos
  have hpos' := h'.pos
  have hs : s' = s := by
    have := h.behind ha h'.start
    omega
  subst hs
  refine ⟨rfl, ?_⟩
  have hle := h.run.le
  have hle' := h'.run.le
  rcases Nat.lt_trichotomy n' n with hlt | heq | hgt
  · exact absurd (h.run.link ha (by omega) (by omega)) (h'.stop.resolve_left (by omega))
  · exact heq
  · exact absurd (h'.run.link ha (by omega) (by omega)) (h.stop.resolve_left (by omega))

/-- The lists hold the pieces of the longest runs of the areas before `a` and of
those of area `a` before descriptor `f`. -/
def CutTo (b : BootArray) (a f : Nat) (x : Mem) : Prop :=
  ∀ c < 2, ∀ k s, s ∈ x.free (.lie c k) ↔
    ∃ r n, MaxRun b c r n ∧ (c < a ∨ (c = a ∧ r + n ≤ f)) ∧ IsPiece r n s k

/-- Passing over pages that start no run. -/
theorem CutTo.skip (h : CutTo b a f x) {f' : Nat} (hle : f ≤ f')
    (hskip : ∀ r n, MaxRun b a r n → r + n ≤ f' → r + n ≤ f) : CutTo b a f' x := by
  intro c hc k s
  rw [h c hc k s]
  constructor
  · rintro ⟨r, n, hmax, hbef, hpc⟩
    exact ⟨r, n, hmax, hbef.imp_right fun h1 => ⟨h1.1, by omega⟩, hpc⟩
  · rintro ⟨r, n, hmax, hbef | ⟨rfl, hle'⟩, hpc⟩
    · exact ⟨r, n, hmax, Or.inl hbef, hpc⟩
    · exact ⟨r, n, hmax, Or.inr ⟨rfl, hskip r n hmax hle'⟩, hpc⟩

/-- A whole area is cut. -/
theorem CutTo.next (h : CutTo b a f x) (hf : b.msanr ≤ f) : CutTo b (a + 1) 0 x := by
  intro c hc k s
  rw [h c hc k s]
  constructor
  · rintro ⟨r, n, hmax, hbef, hpc⟩
    exact ⟨r, n, hmax, Or.inl (by omega), hpc⟩
  · rintro ⟨r, n, hmax, hbef, hpc⟩
    have hend := hmax.run.le
    have hpos := hmax.pos
    exact ⟨r, n, hmax, by omega, hpc⟩

/-- Filing the next longest run. -/
theorem CutTo.file (h : CutTo b a f x) (ha : a < 3) {s n : Nat} (hrun : MaxRun b a s n)
    (hle : f ≤ s) (hskip : ∀ r m, MaxRun b a r m → r + m ≤ s → r + m ≤ f) {x' : Mem}
    (hcuts : Cuts a s n x x') : CutTo b a (s + n) x' := by
  intro c hc k t
  rw [hcuts c hc k t, h.skip hle hskip c hc k t]
  constructor
  · rintro (⟨r, m, hmax, hbef, hpc⟩ | ⟨rfl, hpc⟩)
    · exact ⟨r, m, hmax, hbef.imp_right fun h1 => ⟨h1.1, by omega⟩, hpc⟩
    · exact ⟨s, n, hrun, Or.inr ⟨rfl, Nat.le_refl _⟩, hpc⟩
  · rintro ⟨r, m, hmax, hbef | ⟨rfl, hle'⟩, hpc⟩
    · exact Or.inl ⟨r, m, hmax, Or.inl hbef, hpc⟩
    · have hpos := hmax.pos
      rcases hmax.behind ha hrun.start with hbelow | hge
      · exact Or.inl ⟨r, m, hmax, Or.inr ⟨rfl, hbelow⟩, hpc⟩
      · obtain ⟨rfl, rfl⟩ := hrun.unique ha hmax hge (by omega)
        exact Or.inr ⟨rfl, hpc⟩

/-- The first free page behind a run starts a fresh run. -/
theorem Filing.fresh (h : Filing b a f x) (ha : a < 3) (hstart : AtRunStart b a f) {s n : Nat}
    (hs : f ≤ s) (hlt : s < b.msanr)
    (hskip : ∀ i, f ≤ i → i < s → ¬ msaIsFree (b.stamped i) (areaTy a) = true)
    (hfree : msaIsFree (b.stamped s) (areaTy a) = true) : Fresh b a s n x := by
  have hmax : memareaMax = 4 := rfl
  intro k hk t ht hend hpad
  exfalso
  have hkpos := Nat.two_pow_pos k
  have hmem : BafhPtr.lie a k ∈ ptrs := lie_mem_ptrs (by omega) hk
  have hblk := h.inv.free _ hmem t ht
  have hin : (Seg.mk t (2 ^ k)).Has (s - 1) := Seg.has_mk (by omega) (by omega)
  have hbelow := h.below ha hmem rfl ht hin
  -- the last page of that block is a free page of the area
  obtain ⟨hty, hp⟩ := hblk.shape (2 ^ k - 1) (by simp only [BafhPtr.ord]; omega)
  obtain ⟨hu, hal⟩ := hblk.clean (2 ^ k - 1) (by simp only [BafhPtr.ord]; omega)
  have hidx : t + (2 ^ k - 1) = s - 1 := by omega
  have hmo := (h.inv.tiles.free_dom hmem ht hin).2
  rw [hidx] at hty hp hu hal
  have hfree' : msaIsFree (b.stamped (s - 1)) (areaTy a) = true := by
    rw [← h.msaIsFree_eq]
    unfold msaIsFree
    rw [hty, hu, hal, hmo]
    simp [BafhPtr.area]
  rw [h.padrs_eq, h.padrs_eq, (b.stamped_of_lt (show s - 1 < b.msanr by omega)).2.2.2.1,
    (b.stamped_of_lt (show t < b.msanr by omega)).2.2.2.1] at hp
  by_cases hfs : f = s
  · subst hfs
    rcases hstart with rfl | hend' | hlink
    · omega
    · omega
    · refine hlink ⟨hfree', ?_, ?_⟩
      · rw [Nat.sub_add_cancel (by omega)]
        exact hfree
      · have hlast := b.padrs_lt f hlt
        have hsize : pagesize = 4096 := rfl
        have hw : wordMod = 2 ^ 64 := rfl
        unfold msadscRetAddr
        rw [Nat.sub_add_cancel (by omega), (b.stamped_of_lt hlt).2.2.2.1,
          (b.stamped_of_lt (show f - 1 < b.msanr by omega)).2.2.2.1, hp, hpad, hsize,
          sub64_eq (by omega) (by omega)]
        omega
  · exact hskip (s - 1) (by omega) (by omega) hfree'

/-- **The loop over the descriptors** files all free pages of the area. -/
theorem merloveMemLoop_filing (ha : a < 3) : ∀ n f x, b.msanr ≤ f + n → Filing b a f x →
    CutTo b a f x → AtRunStart b a f → ∀ x', merloveMemLoop a b.msanr n x f = .ok x' →
    ∃ f', b.msanr ≤ f' ∧ Filing b a f' x' ∧ CutTo b a f' x' := by
  have hpos := b.msanr_pos
  intro n
  induction n with
  | zero =>
      intro f x hn h hcut _ x' hloop
      cases hloop
      exact ⟨f, hn, h, hcut⟩
  | succ n ih =>
      intro f x hn h hcut hstart x' hloop
      rw [merloveMemLoop] at hloop
      by_cases hf : b.msanr ≤ f
      · rw [if_pos hf] at hloop
        cases hloop
        exact ⟨f, hf, h, hcut⟩
      · rw [if_neg hf] at hloop
        have hmax : memareaMax = 4 := rfl
        have hmarty : martyOfArea (x.mareastat a).maType = some (areaTy a) := by
          have hty : (x.mareastat a).maType = areaTy a := h.inv.types a (by omega)
          rw [hty]
          have hcases : ∀ c < 3, martyOfArea (areaTy c) = some (areaTy c) := by decide
          exact hcases a ha
        have hscan := merloveScanContinumsadsc_eq (d := x.msadscstat) (by omega : f < b.msanr) hmarty
        have hfree : ∀ i < b.msanr, msaIsFree (x.msadscstat i) (areaTy a) = true ↔
            b.occupied i = false ∧ padrsArea (b.padrs i) = a := by
          intro i hi
          rw [h.msaIsFree_eq, b.msaIsFree_stamped hi ha]
        -- no longest run begins on the pages passed over
        have hnorun : ∀ s, (∀ i, f ≤ i → i < s → ¬ msaIsFree (x.msadscstat i) (areaTy a) = true) →
            ∀ r m, MaxRun b a r m → r + m ≤ s → r + m ≤ f := by
          intro s hskip r m hmaxr hle
          have hm := hmaxr.pos
          have hbnd := hmaxr.run.le
          rcases hmaxr.behind ha hstart with hbelow | hge
          · exact hbelow
          · obtain ⟨hocc, harea, _⟩ := hmaxr.run.page 0 hm
            exact absurd ((hfree r (by omega)).mpr ⟨hocc, harea⟩) (hskip r hge (by omega))
        rcases scanContinuLoop_spec x.msadscstat (areaTy a) hpos (b.msanr - f) f
            (by omega) with ⟨hrun, hall⟩ | ⟨s, r, hrun, hfs, hs, hskip, hhead, hlinks, hlast, hrounds⟩
        · rw [hscan, hrun] at hloop
          refine ih b.msanr x (by omega) (h.skip (by omega) fun i h1 h2 h3 hocc harea => ?_)
            (hcut.skip (by omega) (hnorun b.msanr hall)) (Or.inr (Or.inl (Nat.le_refl _))) x' hloop
          exact hall i h1 h3 ((hfree i h3).mpr ⟨hocc, harea⟩)
        · -- the run ends inside the array: behind it there is no link, or it is the whole array
          have hle : s + (r + 1) ≤ b.msanr := by
            by_contra hgt
            have hlink := hlinks (b.msanr - 1 - s) (by omega)
            rw [show s + (b.msanr - 1 - s) = b.msanr - 1 by omega] at hlink
            have hone := b.link_end ha ((h.link_iff _ _).mp hlink)
            have hf0 : f = 0 := by
              rcases hstart with h0 | hge | hno
              · exact h0
              · exact absurd hge hf
              · by_contra h0
                exact hno (hone.link ha (Nat.zero_le _) (by omega))
            obtain ⟨hocc, harea, -⟩ := hone.page 0 hpos
            have hs0 : s = 0 := by
              by_contra h0
              exact hskip 0 (by omega) (by omega) ((hfree 0 hpos).mpr ⟨hocc, harea⟩)
            omega
          have hstop : s + (r + 1) = b.msanr ∨ ¬ Link b.stamped (areaTy a) (s + r) := by
            by_cases hr : r < b.msanr - 1
            · exact Or.inr fun hlink => hlast hr ((h.link_iff _ _).mpr hlink)
            · exact Or.inl (by omega)
          have hrunb : IsRun b a s (r + 1) := by
            refine isRun_of_links ha hle ?_ fun j hj => (h.link_iff _ _).mp (hlinks j (by omega))
            rw [← h.msaIsFree_eq]
            exact hhead
          have hskipped : Filing b a s x :=
            h.skip hfs fun i h1 h2 h3 hocc harea =>
              hskip i h1 h2 ((hfree i h3).mpr ⟨hocc, harea⟩)
          have hfresh : Fresh b a s (r + 1) x := by
            refine h.fresh ha hstart hfs hs (fun i h1 h2 hfr => ?_) ?_
            · rw [← h.msaIsFree_eq] at hfr
              exact hskip i h1 h2 hfr
            · rw [← h.msaIsFree_eq]
              exact hhead
          rw [hscan, hrun] at hloop
          simp only [Except.map] at hloop
          split at hloop
          · cases hloop
          · split at hloop
            · cases hloop
            · cases hloop
            · rename_i x₁ hx₁
              obtain ⟨hnew, hpieces⟩ := merloveContinumsadscMareabafh_filing ha
                (Nat.succ_pos r) hskipped hrunb hfresh hx₁
              have hmaxr : MaxRun b a s (r + 1) := {
                run := hrunb
                pos := Nat.succ_pos r
                start := by
                  by_cases hsf : s = f
                  · rw [hsf]
                    exact hstart
                  · refine Or.inr (Or.inr fun hlink => ?_)
                    apply hskip (s - 1) (by omega) (by omega)
                    rw [h.msaIsFree_eq]
                    exact hlink.1
                stop := hstop }
              exact ih (s + (r + 1)) x₁ (by omega) hnew
                (hcut.file ha hmaxr hfs (hnorun s hskip) hpieces)
                (Or.inr (hstop.imp_left fun he => Nat.le_of_eq he.symm)) x' hloop

/-- Filing one area. -/
theorem merloveMemOnmemarea_filing (ha : a < 3) (h : Filing b a 0 x) (hcut : CutTo b a 0 x)
    {x' : Mem} (hrun : merloveMemOnmemarea x a b.msanr = .ok (some x')) :
    Filing b (a + 1) 0 x' ∧ CutTo b (a + 1) 0 x' := by
  have hpos := b.msanr_pos
  have hmax : memareaMax = 4 := rfl
  have hty : (x.mareastat a).maType = areaTy a := h.inv.types a (by omega)
  have hne : ∀ c < 3, areaTy c ≠ .shar ∧ areaTy c ≠ .init := by decide
  unfold merloveMemOnmemarea at hrun
  rw [if_neg (by omega), hty, if_neg (hne a ha).1, if_neg (hne a ha).2] at hrun
  split at hrun
  · cases hrun
  · rename_i x₁ hloop
    cases hrun
    obtain ⟨f', hf', hfil, hcut'⟩ :=
      merloveMemLoop_filing ha b.msanr 0 x (by omega) h hcut (Or.inl rfl) _ hloop
    exact ⟨hfil.next hf', hcut'.next hf'⟩

/-! ## The whole of boot -/

/-- The empty lists the areas start with. -/
theorem initMemareaCore_bafh (d : MsaArr) {p : BafhPtr} (hp : p ∈ ptrs) :
    (Mem.mk initMemareaCore d).bafh p = bafhlstInit p.stus p.ord := by
  obtain ⟨a, ha, hpa⟩ := Finset.mem_biUnion.mp hp
  have hlt : a < 4 := Finset.mem_range.mp ha
  rcases (by omega : a = 0 ∨ a = 1 ∨ a = 2 ∨ a = 3) with rfl | rfl | rfl | rfl <;>
    rcases Finset.mem_insert.mp hpa with rfl | hpa
  all_goals first
    | rfl
    | obtain ⟨k, _, rfl⟩ := Finset.mem_image.mp hpa
      rfl

/-- Before the first area nothing is filed. -/
theorem BootArray.filing_start (b : BootArray) :
    Filing b 0 0 ⟨initMemareaCore, b.stamped⟩ := by
  have hbafh := fun {p : BafhPtr} (hp : p ∈ ptrs) => initMemareaCore_bafh b.stamped hp
  have hfree : ∀ p ∈ ptrs, (Mem.mk initMemareaCore b.stamped).free p = [] := by
    intro p hp
    rw [Mem.free, hbafh hp]
    rfl
  have harea : ∀ a < memareaMax, areaFree (Mem.mk initMemareaCore b.stamped) a = 0 := by
    intro a ha
    unfold areaFree freeSum
    apply Finset.sum_eq_zero
    intro p hp
    rw [hfree p (mem_ptrs_of_area ha hp)]
    exact Nat.mul_zero _
  have htypes : ∀ a < memareaMax, (initMemareaCore a).maType = areaTy a ∧
      (initMemareaCore a).maMaxpages = 0 ∧ (initMemareaCore a).maFreepages = 0 ∧
      (initMemareaCore a).maAllocpages = 0 := by
    intro a ha
    have hlt : a < 4 := ha
    rcases (by omega : a = 0 ∨ a = 1 ∨ a = 2 ∨ a = 3) with rfl | rfl | rfl | rfl
    · exact ⟨rfl, rfl, rfl, rfl⟩
    · exact ⟨rfl, rfl, rfl, rfl⟩
    · exact ⟨rfl, rfl, rfl, rfl⟩
    · exact ⟨rfl, rfl, rfl, rfl⟩
  have hinv : MemInv ⟨initMemareaCore, b.stamped⟩ b.msanr (b.unfiled 0 0) := {
    msanr_lt := b.msanr_lt
    types := fun a ha => (htypes a ha).1
    order := fun p hp => by rw [hbafh hp]; rfl
    fobjnr := fun p hp => by rw [hfree p hp, hbafh hp]; rfl
    mobjnr := fun p hp => by rw [hfree p hp, hbafh hp]; rfl
    padrs := fun i hi => by
      rw [(b.stamped_of_lt hi).2.2.2.1]
      exact b.padrs_lt i hi
    tiles := fun i => by
      have hzero : freeCover ptrs BafhPtr.ord (Mem.mk initMemareaCore b.stamped).free i = 0 := by
        unfold freeCover
        apply Finset.sum_eq_zero
        intro p hp
        rw [hfree p hp, segs_nil, cover_nil]
      rw [hzero, Nat.zero_add]
      unfold BootArray.unfiled
      rw [cover_singles]
      refine if_congr (and_congr_right fun hi => ?_) rfl rfl
      rw [(b.stamped_of_lt hi).2.2.2.2]
      exact and_iff_left (by omega)
    used := fun p hp s hs => by
      rw [hfree p hp] at hs
      exact absurd hs List.not_mem_nil
    free := fun p hp s hs => by
      rw [hfree p hp] at hs
      exact absurd hs List.not_mem_nil
    reserved := fun i hi _ => (b.stamped_of_lt hi).1 }
  exact {
    inv := hinv
    tags := fun i => ⟨_, _, rfl⟩
    raw := fun i _ _ => rfl
    noAdj := fun a k hk s hs => by
      by_cases ha : a < memareaMax
      · rw [hfree _ (lie_mem_ptrs ha (by omega))] at hs
        exact absurd hs List.not_mem_nil
      · have hmax : memareaMax = 4 := rfl
        obtain ⟨c, rfl⟩ := Nat.exists_eq_add_of_le (show 4 ≤ a by omega)
        have hnil : (Mem.mk initMemareaCore b.stamped).free (.lie (4 + c) k) = [] := by
          rw [Nat.add_comm]
          rfl
        rw [hnil] at hs
        exact absurd hs List.not_mem_nil
    stus := fun p hp => by rw [hbafh hp]; rfl
    counts := fun c hc => by
      obtain ⟨_, h1, h2, h3⟩ := htypes c hc
      rw [harea c hc]
      exact ⟨h1, h2, h3⟩ }

/-- Before the first area no run is cut. -/
theorem BootArray.cutTo_start (b : BootArray) :
    CutTo b 0 0 ⟨initMemareaCore, b.stamped⟩ := by
  intro c hc k s
  have hnil : (Mem.mk initMemareaCore b.stamped).free (.lie c k) = [] := by
    rcases (by omega : c = 0 ∨ c = 1) with rfl | rfl
    · rfl
    · rfl
  rw [hnil]
  constructor
  · exact fun h => absurd h List.not_mem_nil
  · rintro ⟨r, n, hmax, hbef, _⟩
    have hpos := hmax.pos
    omega

/-- **The free lists after boot.** -/
theorem merloveMemCore_filing (b : BootArray) {x' : Mem}
    (hcore : merloveMemCore ⟨initMemareaCore, b.msadscs⟩ b.msanr = .ok (some x')) :
    Filing b 3 0 x' ∧ CutTo b 3 0 x' := by
  unfold merloveMemCore at hcore
  simp only at hcore
  split at hcore
  · cases hcore
  · rename_i d hset
    have hd := merloveSetLoop_stamped b hset
    subst hd
    -- one round of the loop over the areas
    have hround : ∀ a < 3, ∀ n x, Filing b a 0 x ∧ CutTo b a 0 x →
        merloveAreaLoop b.msanr (n + 1) a x = .ok (some x') →
        ∃ x₁, (Filing b (a + 1) 0 x₁ ∧ CutTo b (a + 1) 0 x₁) ∧
          merloveAreaLoop b.msanr n (a + 1) x₁ = .ok (some x') := by
      intro a ha n x hfil hloop
      rw [merloveAreaLoop] at hloop
      split at hloop
      · cases hloop
      · cases hloop
      · rename_i x₁ hmem
        exact ⟨x₁, merloveMemOnmemarea_filing ha hfil.1 hfil.2 hmem, hloop⟩
    obtain ⟨x₁, h1, hloop⟩ :=
      hround 0 (by decide) 3 _ ⟨b.filing_start, b.cutTo_start⟩ hcore
    obtain ⟨x₂, h2, hloop⟩ := hround 1 (by decide) 2 _ h1 hloop
    obtain ⟨x₃, h3, hloop⟩ := hround 2 (by decide) 1 _ h2 hloop
    have hpos := b.msanr_pos
    have hty : (x₃.mareastat 3).maType = .shar := h3.1.inv.types 3 (by decide)
    simp only [merloveAreaLoop, merloveMemOnmemarea] at hloop
    rw [if_neg (by omega), hty, if_pos rfl] at hloop
    cases hloop
    exact h3

theorem initMerloveMem_filing (b : BootArray) {x' : Mem}
    (hrun : initMerloveMem ⟨initMemareaCore, b.msadscs⟩ b.msanr = .ok x') :
    Filing b 3 0 x' := by
  unfold initMerloveMem at hrun
  refine (merloveMemCore_filing b ?_).1
  split at hrun
  · cases hrun
  · cases hrun
  · split at hrun
    · cases hrun
    · cases hrun
      assumption

/-- When all areas are done nothing waits to be filed. -/
theorem BootArray.unfiled_end (b : BootArray) : b.unfiled 3 0 = [] := by
  unfold BootArray.unfiled singles
  rw [List.filter_eq_nil_iff.mpr]
  · rfl
  · intro i _ hdec
    have hun : b.Unfiled 3 0 i := of_decide_eq_true hdec
    have harea := padrsArea_lt (b.padrs i)
    rcases hun.2 with h3 | ⟨h3, _⟩
    · omega
    · omega

/-- Reserved and free pages make up the array. -/
theorem countReserved_add_free (h : Filing b 3 0 x) :
    countReserved x.msadscstat b.msanr
      + ((Finset.range b.msanr).filter (Managed x.msadscstat b.msanr)).card = b.msanr := by
  have hocc : ∀ i < b.msanr,
      ((x.msadscstat i).mfUindx = 1 && (x.msadscstat i).mfMocty = .krnl &&
        (x.msadscstat i).pafAlloc) = b.occupied i ∧
      (Managed x.msadscstat b.msanr i ↔ ¬ b.occupied i = true) := by
    intro i hi
    obtain ⟨_, _, _, _, _, hu, hal, hmo⟩ := b.msadscs_of_lt hi
    obtain ⟨o, l, htag⟩ := h.tags i
    have hst : b.stamped i = { b.msadscs i with mfMarty := padrsTy (b.padrs i) } := if_pos hi
    unfold Managed
    rw [htag, hst]
    simp only [hu, hal, hmo]
    cases b.occupied i <;> simp [hi]
  have hres : countReserved x.msadscstat b.msanr
      = ((Finset.range b.msanr).filter fun i => b.occupied i = true).card := by
    have hcongr : countReserved x.msadscstat b.msanr
        = (List.range b.msanr).countP fun i => decide (b.occupied i = true) := by
      apply List.countP_congr
      intro i hi
      rw [(hocc i (List.mem_range.mp hi)).1, Bool.decide_eq_true]
    rw [hcongr, List.countP_eq_length_filter]
    rfl
  have hfree : (Finset.range b.msanr).filter (Managed x.msadscstat b.msanr)
      = (Finset.range b.msanr).filter fun i => ¬ b.occupied i = true :=
    Finset.filter_congr fun i hi => (hocc i (Finset.mem_range.mp hi)).2
  rw [hres, hfree, Finset.card_filter_add_card_filter_not, Finset.card_range]

/-- The pages of the memory manager are those of the array. -/
structure SameArray (b : BootArray) (mm : Memgrob) : Prop where
  msanr : mm.moMsanr = b.msanr
  maxpages : mm.moMaxpages = b.msanr
  padrs : ∀ i < b.msanr, (mm.mem.msadscstat i).pafPadrs = b.padrs i
  marty : ∀ i < b.msanr, (mm.mem.msadscstat i).mfMarty = padrsTy (b.padrs i)
  mocty : ∀ i < b.msanr, (mm.mem.msadscstat i).mfMocty = .free ↔ b.occupied i = false

theorem SameArray.mono {mm mm' : Memgrob} (h : SameArray b mm) (hs : SamePages mm mm') :
    SameArray b mm' where
  msanr := hs.msanr.trans h.msanr
  maxpages := hs.maxpages.trans h.maxpages
  padrs i hi := (hs.static i).2.2.trans (h.padrs i hi)
  marty i hi := (hs.static i).2.1.trans (h.marty i hi)
  mocty i hi := by
    rw [(hs.static i).1]
    exact h.mocty i hi

/-- Boot keeps the pages. -/
theorem BootArray.boot_same (b : BootArray) {mm : Memgrob} (hboot : b.boot = .ok mm) :
    SameArray b mm := by
  unfold BootMem.boot at hboot
  split at hboot
  · cases hboot
  · rename_i x hrun
    cases hboot
    have h := initMerloveMem_filing b hrun
    have htag : ∀ i, ((initMemmgrob x b.msanr).mem.msadscstat i).pafPadrs
          = (b.stamped i).pafPadrs ∧
        ((initMemmgrob x b.msanr).mem.msadscstat i).mfMarty = (b.stamped i).mfMarty ∧
        ((initMemmgrob x b.msanr).mem.msadscstat i).mfMocty = (b.stamped i).mfMocty := by
      intro i
      obtain ⟨o, l, hi⟩ := h.tags i
      have hmem : (initMemmgrob x b.msanr).mem = x := rfl
      rw [hmem, hi]
      exact ⟨rfl, rfl, rfl⟩
    refine ⟨rfl, rfl, fun i hi => ?_, fun i hi => ?_, fun i hi => ?_⟩
    · exact (htag i).1.trans (b.stamped_of_lt hi).2.2.2.1
    · exact (htag i).2.1.trans (b.stamped_of_lt hi).2.2.1
    · rw [(htag i).2.2]
      exact (b.stamped_of_lt hi).2.2.2.2

/-- **Boot establishes the invariant**, with nothing handed out. -/
theorem BootArray.boot_inv (b : BootArray) {mm : Memgrob} (hboot : b.boot = .ok mm) :
    MmInv mm [] := by
  unfold BootMem.boot at hboot
  split at hboot
  · cases hboot
  · rename_i x hrun
    cases hboot
    have h := initMerloveMem_filing b hrun
    have hinv : MemInv x b.msanr [] := by
      rw [← b.unfiled_end]
      exact h.inv
    have hcount := countReserved_add_free h
    have hsum := hinv.tiles.sum_lens (N := b.msanr) (fun _ hi => hi.1)
      (fun p _ => p.ord_pos) fun c hc => absurd hc List.not_mem_nil
    rw [freeSum_ptrs] at hsum
    have hfree : ∑ a ∈ Finset.range memareaMax, (x.hdr a).maFreepages
        = ∑ a ∈ Finset.range memareaMax, freeSum (areaPtrs a) BafhPtr.ord x.free :=
      Finset.sum_congr rfl fun a ha => (h.counts a (Finset.mem_range.mp ha)).2.1
    have hmax : ∑ a ∈ Finset.range memareaMax, (x.hdr a).maMaxpages
        = ∑ a ∈ Finset.range memareaMax, freeSum (areaPtrs a) BafhPtr.ord x.free :=
      Finset.sum_congr rfl fun a ha => (h.counts a (Finset.mem_range.mp ha)).1
    have hsub := sub64_eq b.msanr_lt
      (show countReserved x.msadscstat b.msanr ≤ b.msanr by omega)
    simp only [List.map_nil, List.sum_nil, Nat.add_zero] at hsum
    exact {
      mem := hinv
      mareanr := rfl
      outs := fun c hc => absurd hc List.not_mem_nil
      noAdj := h.noAdj
      freepages := fun a ha => (h.counts a ha).2.1
      allocpages := fun a ha => (h.counts a ha).2.2
      maxpages := fun a ha => by
        obtain ⟨h1, h2, h3⟩ := h.counts a ha
        show (x.hdr a).maFreepages + (x.hdr a).maAllocpages = (x.hdr a).maMaxpages
        omega
      moFree := by
        show sub64 b.msanr (countReserved x.msadscstat b.msanr) = _
        rw [hsub]
        show _ = ∑ a ∈ Finset.range memareaMax, (x.hdr a).maFreepages
        omega
      moMax := by
        show sub64 b.msanr (countReserved x.msadscstat b.msanr)
          + countReserved x.msadscstat b.msanr = b.msanr
        rw [hsub]
        omega
      moRoom := by
        show ∑ a ∈ Finset.range memareaMax, (x.hdr a).maMaxpages ≤ b.msanr
        omega
      moLt := b.msanr_lt }

end Boot

end Cosmos.Hal
