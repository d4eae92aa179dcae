import Mathlib.Data.Finset.Card
import Mathlib.Data.List.Nodup
import Cosmos.Hal.Halmm

/-!
# The descriptors of a memory map

What `init_msadsc_core` writes for a sorted array of ranges, as a list of page
numbers, and when these are the pages of the usable entries.  The loop over a
range writes the page number of its start and the ones behind, so a range that
does not start at a page gets a page it does not contain; and it ends only when
it comes to an address behind the range without wrapping.
-/

namespace Cosmos.Hal

open Cosmos.Lib.Word64 Cosmos.Lib.Bubble Cosmos.Lib.Run

/-! ## One range -/

/-- The page numbers of the first `m` descriptors. -/
def pageList (d : MsaArr) (m : Nat) : List Nat := (List.range m).map fun i => (d i).pafPadrs

theorem length_pageList (d : MsaArr) (m : Nat) : (pageList d m).length = m := by
  unfold pageList
  rw [List.length_map, List.length_range]

theorem getElem?_pageList (d : MsaArr) {m i : Nat} (hi : i < m) :
    (pageList d m)[i]? = some (d i).pafPadrs := by
  unfold pageList
  rw [List.getElem?_map, List.getElem?_range hi]
  rfl

/-- Writing the next descriptor. -/
theorem pageList_upd (d : MsaArr) (m p : Nat) :
    pageList (upd d m fun _ => writeOneMsadsc p) (m + 1) = pageList d m ++ [p] := by
  unfold pageList
  rw [List.range_succ, List.map_append]
  have hlast : ((upd d m fun _ => writeOneMsadsc p) m).pafPadrs = p := by
    rw [upd_self]
    rfl
  refine congrArg₂ _ (List.map_congr_left fun i hi => ?_) (by rw [List.map_singleton, hlast])
  rw [upd_of_ne (Nat.ne_of_lt (List.mem_range.mp hi))]

/-- The pages the loop writes for an entry. -/
def E820map.pages (e : E820map) : List Nat :=
  List.range' (e.saddr / pagesize) (e.lsize / pagesize)

/-- The last byte of an entry. -/
def E820map.last (e : E820map) : Nat := sub64 (add64 e.saddr e.lsize) 1

theorem E820map.last_eq {e : E820map} (hpos : 0 < e.lsize)
    (hwrap : e.saddr + e.lsize ≤ wordMod) : e.last = e.saddr + e.lsize - 1 :=
  sub64_add64_one hpos hwrap

/-- Round `i` of the loop over a range and the rounds behind it. -/
theorem msadscRangeLoop_from {e : E820map} (hpos : 0 < e.lsize)
    (hwrap : e.saddr + e.lsize ≤ wordMod)
    (hstop : e.saddr + e.rounds * pagesize < wordMod) : ∀ fuel i d m, i ≤ e.rounds →
    e.rounds - i < fuel → ∃ d' m',
      msadscRangeLoop e.last fuel (e.saddr + pagesize * i) d m = some (d', m') ∧
      pageList d' m' = pageList d m
        ++ List.range' (e.saddr / pagesize + i) (e.lsize / pagesize - i) := by
  have hsize : pagesize = 4096 := rfl
  have hlast := E820map.last_eq hpos hwrap
  have hr : e.rounds = (e.lsize + 4094) / pagesize := rfl
  rw [hsize] at hr hstop ⊢
  intro fuel
  induction fuel with
  | zero =>
      intro i d m _ hf
      omega
  | succ fuel ih =>
      intro i d m hi hf
      rw [msadscRangeLoop]
      by_cases hin : i < e.rounds
      · rw [if_pos (show e.saddr + 4096 * i < e.last by omega), hsize]
        have hnext : add64 (e.saddr + 4096 * i) 4096 = e.saddr + 4096 * (i + 1) := by
          rw [add64_eq (by omega)]
          omega
        have hend : sub64 (e.saddr + 4096 * (i + 1)) 1 = e.saddr + 4096 * (i + 1) - 1 :=
          sub64_eq (by omega) (by omega)
        rw [hnext, hend]
        by_cases hfit : i < e.lsize / 4096
        · rw [if_pos (by omega)]
          obtain ⟨d', m', hrun, hpages⟩ := ih (i + 1) (upd d m fun _ =>
            writeOneMsadsc ((e.saddr + 4096 * i) / 4096)) (m + 1) (by omega) (by omega)
          refine ⟨d', m', hrun, ?_⟩
          obtain ⟨k, hk⟩ := Nat.exists_eq_add_of_lt hfit
          have hleft : e.lsize / 4096 - i = k + 1 := by omega
          have hleft' : e.lsize / 4096 - (i + 1) = k := by omega
          have hpg : (e.saddr + 4096 * i) / 4096 = e.saddr / 4096 + i := by omega
          rw [hpages, pageList_upd, hpg, hleft, hleft', List.range'_succ, List.append_assoc]
          rfl
        · rw [if_neg (by omega)]
          obtain ⟨d', m', hrun, hpages⟩ := ih (i + 1) d m (by omega) (by omega)
          refine ⟨d', m', hrun, ?_⟩
          rw [hpages, show e.lsize / 4096 - (i + 1) = 0 by omega,
            show e.lsize / 4096 - i = 0 by omega]
          rfl
      · rw [if_neg (by omega)]
        refine ⟨d, m, rfl, ?_⟩
        rw [show e.lsize / 4096 - i = 0 by omega]
        exact (List.append_nil _).symm

/-- So many rounds are enough for any range. -/
theorem rounds_lt {e : E820map} (hstop : e.saddr + e.rounds * pagesize < wordMod) (n : Nat) :
    e.rounds < n + wordMod := by
  have hsize : pagesize = 4096 := rfl
  rw [hsize] at hstop
  omega

/-- **The loop over a range** writes its pages. -/
theorem msadscRangeLoop_pages {e : E820map} (hpos : 0 < e.lsize)
    (hwrap : e.saddr + e.lsize ≤ wordMod)
    (hstop : e.saddr + e.rounds * pagesize < wordMod) {fuel : Nat} (hfuel : e.rounds < fuel)
    (d : MsaArr) (m : Nat) : ∃ d' m',
      msadscRangeLoop e.last fuel e.saddr d m = some (d', m') ∧
      pageList d' m' = pageList d m ++ e.pages :=
  msadscRangeLoop_from hpos hwrap hstop fuel 0 d m (Nat.zero_le _) (by omega)

/-- More rounds do not change the result. -/
theorem msadscRangeLoop_mono {pmrEnd : Nat} : ∀ n start d m r,
    msadscRangeLoop pmrEnd n start d m = some r → ∀ n', n ≤ n' →
    msadscRangeLoop pmrEnd n' start d m = some r := by
  intro n
  induction n with
  | zero =>
      intro start d m r h
      cases h
  | succ n ih =>
      intro start d m r h n' hle
      obtain ⟨k, rfl⟩ := Nat.exists_eq_add_of_le hle
      rw [show n + 1 + k = n + k + 1 by omega]
      rw [msadscRangeLoop] at h ⊢
      split
      · rename_i hlt
        rw [if_pos hlt] at h
        split
        · rename_i hfit
          rw [if_pos hfit] at h
          exact ih _ _ _ r h (n + k) (by omega)
        · rename_i hfit
          rw [if_neg hfit] at h
          exact ih _ _ _ r h (n + k) (by omega)
      · rename_i hlt
        rw [if_neg hlt] at h
        exact h

/-- A loop whose addresses all lie before the end of the range does not end. -/
theorem msadscRangeLoop_forever {pmrEnd : Nat} : ∀ n start d m, start < wordMod →
    (∀ x < wordMod, x % pagesize = start % pagesize → x < pmrEnd) →
    msadscRangeLoop pmrEnd n start d m = none := by
  intro n
  induction n with
  | zero =>
      intro start d m _ _
      rfl
  | succ n ih =>
      intro start d m hs hall
      have hsize : pagesize = 4096 := rfl
      have hw : wordMod = 2 ^ 64 := rfl
      have hnext : add64 start pagesize % pagesize = start % pagesize := by
        rw [hsize]
        unfold add64 wordMod
        omega
      rw [msadscRangeLoop, if_pos (hall start hs rfl)]
      have hgo := fun d m => ih (add64 start pagesize) d m (add64_lt _ _) fun x hx hmod =>
        hall x hx (hmod.trans hnext)
      split
      · exact hgo _ _
      · exact hgo _ _

/-- The loop over a range ends only when an address of the loop lies behind it. -/
theorem msadscRangeLoop_stops {e : E820map} (hpos : 0 < e.lsize)
    (hwrap : e.saddr + e.lsize ≤ wordMod) {fuel m : Nat} {d : MsaArr} {r : MsaArr × Nat}
    (h : msadscRangeLoop e.last fuel e.saddr d m = some r) :
    e.saddr + e.rounds * pagesize < wordMod := by
  have hlast := E820map.last_eq hpos hwrap
  have hr : e.rounds = (e.lsize + 4094) / pagesize := rfl
  have hsize : pagesize = 4096 := rfl
  have hw : wordMod = 2 ^ 64 := rfl
  rw [hsize] at hr ⊢
  by_contra hge
  rw [msadscRangeLoop_forever fuel e.saddr d m (by omega) fun x hx hmod => ?_] at h
  · cases h
  · rw [hsize] at hmod
    omega

/-! ## All ranges -/

/-- The pages of the first usable ranges. -/
def rangePages (e8sp : Nat → E820map) (f : Nat → Nat) (i : Nat) : List Nat :=
  if (e8sp (f i)).Usable then (e8sp (f i)).pages else []

section Table

variable {e8sp : Nat → E820map} {e8nr : Nat} {pm : Nat → Phymmarge} {f : Nat → Nat}

/-- The entry behind a range. -/
theorem Sorted.entry (hs : Sorted e8sp e8nr pm f) (hok : TableOk e8sp e8nr) {i : Nat}
    (hi : i < e8nr) (hu : (e8sp (f i)).Usable) : 0 < (e8sp (f i)).lsize ∧
      (e8sp (f i)).saddr + (e8sp (f i)).lsize ≤ wordMod :=
  ⟨hok.lsize _ (hs.le i hi) hu, hok.nowrap _ (hs.le i hi) hu⟩

/-- The outer loop, when the loop over every usable range ends. -/
theorem msadscLoop_pages (hok : TableOk e8sp e8nr) (hs : Sorted e8sp e8nr pm f) {fuel : Nat}
    (hstop : ∀ i < e8nr, (e8sp (f i)).Usable →
      (e8sp (f i)).saddr + (e8sp (f i)).rounds * pagesize < wordMod ∧
        (e8sp (f i)).rounds < fuel) : ∀ n i d m, i + n = e8nr → ∃ d' m',
    msadscLoop fuel pm n i d m = some (d', m') ∧
      pageList d' m' = pageList d m ++ (List.range' i n).flatMap (rangePages e8sp f) := by
  intro n
  induction n with
  | zero =>
      intro i d m _
      exact ⟨d, m, rfl, (List.append_nil _).symm⟩
  | succ n ih =>
      intro i d m hin
      have hi : i < e8nr := by omega
      rw [msadscLoop, List.range'_succ, List.flatMap_cons]
      by_cases hu : (e8sp (f i)).Usable
      · obtain ⟨hpos, hwrap⟩ := hs.entry hok hi hu
        obtain ⟨hst, hfuel⟩ := hstop i hi hu
        obtain ⟨d₁, m₁, hrun, hpages⟩ := msadscRangeLoop_pages hpos hwrap hst hfuel d m
        obtain ⟨d', m', hloop, hrest⟩ := ih (i + 1) d₁ m₁ (by omega)
        have hend : (pm i).pmrEnd = (e8sp (f i)).last := hs.pmrEnd i hi
        refine ⟨d', m', ?_, ?_⟩
        · rw [if_pos ((hs.usable i hi).mpr hu), hend, hs.saddr i hi, hrun]
          exact hloop
        · have hone : rangePages e8sp f i = (e8sp (f i)).pages := if_pos hu
          rw [hrest, hpages, hone, List.append_assoc]
      · obtain ⟨d', m', hloop, hrest⟩ := ih (i + 1) d m (by omega)
        refine ⟨d', m', ?_, ?_⟩
        · rw [if_neg fun h => hu ((hs.usable i hi).mp h)]
          exact hloop
        · have hone : rangePages e8sp f i = [] := if_neg hu
          rw [hrest, hone, List.nil_append]

/-- The outer loop ends only when the loop over every usable range does. -/
theorem msadscLoop_stops (hok : TableOk e8sp e8nr) (hs : Sorted e8sp e8nr pm f) {fuel : Nat} :
    ∀ n i d m r, i + n = e8nr → msadscLoop fuel pm n i d m = some r →
    ∀ j, i ≤ j → j < e8nr → (e8sp (f j)).Usable →
      (e8sp (f j)).saddr + (e8sp (f j)).rounds * pagesize < wordMod := by
  intro n
  induction n with
  | zero =>
      intro i d m r hin _ j h1 h2
      omega
  | succ n ih =>
      intro i d m r hin hloop j h1 h2 hu
      have hi : i < e8nr := by omega
      rw [msadscLoop] at hloop
      by_cases hui : (e8sp (f i)).Usable
      · have hend : (pm i).pmrEnd = (e8sp (f i)).last := hs.pmrEnd i hi
        rw [if_pos ((hs.usable i hi).mpr hui), hend, hs.saddr i hi] at hloop
        obtain ⟨hpos, hwrap⟩ := hs.entry hok hi hui
        split at hloop
        · cases hloop
        · rename_i d₁ m₁ hrun
          rcases (by omega : j = i ∨ i + 1 ≤ j) with rfl | hlt
          · exact msadscRangeLoop_stops hpos hwrap hrun
          · exact ih (i + 1) d₁ m₁ r (by omega) hloop j hlt h2 hu
      · rw [if_neg fun h => hui ((hs.usable i hi).mp h)] at hloop
        rcases (by omega : j = i ∨ i + 1 ≤ j) with rfl | hlt
        · exact absurd hu hui
        · exact ih (i + 1) d m r (by omega) hloop j hlt h2 hu

/-- More rounds do not change the result of the outer loop. -/
theorem msadscLoop_mono {fuel fuel' : Nat} (hle : fuel ≤ fuel') : ∀ n i d m r,
    msadscLoop fuel pm n i d m = some r → msadscLoop fuel' pm n i d m = some r := by
  intro n
  induction n with
  | zero =>
      intro i d m r h
      exact h
  | succ n ih =>
      intro i d m r h
      rw [msadscLoop] at h ⊢
      split
      · rename_i hu
        rw [if_pos hu] at h
        split at h
        · cases h
        · rename_i d' m' hrun
          rw [msadscRangeLoop_mono fuel _ d m _ hrun fuel' hle]
          exact ih (i + 1) d' m' r h
      · rename_i hu
        rw [if_neg hu] at h
        exact ih (i + 1) d m r h

/-- The pages of all usable ranges, in the order of the sort. -/
def tablePages (e8sp : Nat → E820map) (f : Nat → Nat) (e8nr : Nat) : List Nat :=
  (List.range' 0 e8nr).flatMap (rangePages e8sp f)

/-- What `init_msadsc_core` writes, when it ends. -/
theorem initMsadscCore_pages (hok : TableOk e8sp e8nr) (hs : Sorted e8sp e8nr pm f)
    {fuel m : Nat} {d d' : MsaArr} (h : initMsadscCore fuel pm e8nr d = some (d', m)) :
    pageList d' m = tablePages e8sp f e8nr := by
  have hstop := msadscLoop_stops hok hs e8nr 0 d 0 _ (Nat.zero_add e8nr) h
  obtain ⟨d₁, m₁, hrun, hpages⟩ := msadscLoop_pages hok hs
    (fun i hi hu => ⟨hstop i (Nat.zero_le i) hi hu, rounds_lt
      (hstop i (Nat.zero_le i) hi hu) fuel⟩) e8nr 0 d 0 (Nat.zero_add e8nr)
  have hsame := msadscLoop_mono (Nat.le_add_right fuel wordMod) e8nr 0 d 0 _ h
  rw [hsame] at hrun
  cases hrun
  exact hpages

/-- It ends when the loop over every usable entry does. -/
theorem initMsadscCore_ends (hok : TableOk e8sp e8nr) (hs : Sorted e8sp e8nr pm f)
    (hstop : ∀ k < e8nr, (e8sp k).Usable →
      (e8sp k).saddr + (e8sp k).rounds * pagesize < wordMod) (d : MsaArr) :
    ∃ fuel d' m, initMsadscCore fuel pm e8nr d = some (d', m) := by
  obtain ⟨d', m, hrun, _⟩ := msadscLoop_pages hok hs
    (fun i hi hu => ⟨hstop _ (hs.le i hi) hu, rounds_lt (hstop _ (hs.le i hi) hu) 0⟩)
    e8nr 0 d 0 (Nat.zero_add e8nr)
  exact ⟨0 + wordMod, d', m, hrun⟩

/-! ## What the pages are -/

theorem mem_tablePages {p : Nat} : p ∈ tablePages e8sp f e8nr ↔
    ∃ i < e8nr, (e8sp (f i)).Usable ∧ p ∈ (e8sp (f i)).pages := by
  unfold tablePages rangePages
  rw [List.mem_flatMap]
  constructor
  · rintro ⟨i, hi, hp⟩
    have hlt := (List.mem_range'_1.mp hi).2
    by_cases hu : (e8sp (f i)).Usable
    · rw [if_pos hu] at hp
      exact ⟨i, by omega, hu, hp⟩
    · rw [if_neg hu] at hp
      exact absurd hp List.not_mem_nil
  · rintro ⟨i, hi, hu, hp⟩
    refine ⟨i, List.mem_range'_1.mpr ⟨Nat.zero_le i, by omega⟩, ?_⟩
    rw [if_pos hu]
    exact hp

/-- The page numbers of an entry. -/
theorem E820map.mem_pages {e : E820map} {p : Nat} : p ∈ e.pages ↔
    e.saddr / pagesize ≤ p ∧ p < e.saddr / pagesize + e.lsize / pagesize :=
  List.mem_range'_1

/-- The pages ascend, whether the entries start at a page or not. -/
theorem tablePages_ascending (hok : TableOk e8sp e8nr) (hs : Sorted e8sp e8nr pm f) :
    (tablePages e8sp f e8nr).Pairwise (· < ·) := by
  have hsize : pagesize = 4096 := rfl
  unfold tablePages
  refine List.pairwise_flatMap.mpr ⟨fun i _ => ?_, ?_⟩
  · unfold rangePages
    split
    · exact List.pairwise_lt_range'
    · exact List.Pairwise.nil
  · refine List.Pairwise.imp_of_mem ?_ (List.pairwise_lt_range' (s := 0) (n := e8nr))
    intro i j hi hj hij p hp q hq
    have hjlt := (List.mem_range'_1.mp hj).2
    unfold rangePages at hp hq
    by_cases hui : (e8sp (f i)).Usable
    · by_cases huj : (e8sp (f j)).Usable
      · rw [if_pos hui, E820map.mem_pages, hsize] at hp
        rw [if_pos huj, E820map.mem_pages, hsize] at hq
        -- the later entry starts behind the end of the earlier one
        have hord := hs.order i j hij (by omega)
        have hpos := (hs.entry hok (by omega) huj).1
        have hne : f i ≠ f j := fun h => absurd (hs.inj i j h) (by omega)
        have := hok.apart _ (hs.le i (by omega)) _ (hs.le j (by omega)) hne hui huj
        omega
      · rw [if_neg huj] at hq
        exact absurd hq List.not_mem_nil
    · rw [if_neg hui] at hp
      exact absurd hp List.not_mem_nil

/-- The count of `ret_msadsc_vadrandsz`, modulo the word size. -/
theorem retMsadscStep_foldl (hs : Sorted e8sp e8nr pm f) : ∀ n, n ≤ e8nr →
    ((List.range n).foldl (retMsadscStep pm) (0, 0)).2
      = ((List.range' 0 n).flatMap (rangePages e8sp f)).length % wordMod := by
  intro n
  induction n with
  | zero =>
      intro _
      rfl
  | succ n ih =>
      intro hn
      rw [List.range_succ, List.foldl_append, List.range'_1_concat, List.flatMap_append,
        List.length_append, Nat.zero_add, List.flatMap_singleton]
      simp only [List.foldl_cons, List.foldl_nil]
      unfold retMsadscStep rangePages
      by_cases hu : (e8sp (f n)).Usable
      · rw [if_pos ((hs.usable n hn).mpr hu), if_pos hu]
        simp only
        have hlen : (e8sp (f n)).pages.length = (e8sp (f n)).lsize / pagesize :=
          List.length_range'
        have hprev := ih (by omega)
        unfold retMsadscStep rangePages at hprev
        rw [hprev, hs.lsize n hn, hlen]
        unfold add64
        rw [Nat.mod_add_mod]
      · rw [if_neg fun h => hu ((hs.usable n hn).mp h), if_neg hu]
        exact ih (by omega)

/-- The count is exact. -/
theorem retMsadscVadrandsz_length (hok : TableOk e8sp e8nr) (hs : Sorted e8sp e8nr pm f)
    {n : Nat} (h : retMsadscVadrandsz pm e8nr = some n) :
    n = (tablePages e8sp f e8nr).length := by
  have hfold := retMsadscStep_foldl hs e8nr (Nat.le_refl e8nr)
  -- the pages are different words
  have hbound : (tablePages e8sp f e8nr).length < wordMod := by
    have hnodup : (tablePages e8sp f e8nr).Nodup :=
      (tablePages_ascending hok hs).imp fun hlt => Nat.ne_of_lt hlt
    have hsub : (tablePages e8sp f e8nr).toFinset ⊆ Finset.range (2 ^ 52) := by
      intro p hp
      rw [List.mem_toFinset, mem_tablePages] at hp
      obtain ⟨i, hi, hu, hp⟩ := hp
      obtain ⟨_, hwrap⟩ := hs.entry hok hi hu
      rw [E820map.mem_pages, show pagesize = 4096 from rfl] at hp
      rw [Finset.mem_range]
      unfold wordMod at hwrap
      omega
    calc (tablePages e8sp f e8nr).length
        = (tablePages e8sp f e8nr).toFinset.card := (List.toFinset_card_of_nodup hnodup).symm
      _ ≤ (Finset.range (2 ^ 52)).card := Finset.card_le_card hsub
      _ < wordMod := by
          rw [Finset.card_range]
          decide
  unfold retMsadscVadrandsz at h
  split at h
  · cases h
  · generalize (List.range e8nr).foldl (retMsadscStep pm) (0, 0) = st at h hfold
    simp only at h
    split at h
    · cases h
    · cases h
      rw [hfold]
      exact Nat.mod_eq_of_lt hbound

/-! ## Which tables are described -/

/-- The descriptors of a table whose entries are all handled. -/
theorem describes_of_handled (hok : TableOk e8sp e8nr) (hs : Sorted e8sp e8nr pm f) {n : Nat}
    (hret : retMsadscVadrandsz pm e8nr = some n)
    (hall : ∀ k < e8nr, (e8sp k).Usable → (e8sp k).Handled) (d : MsaArr) :
    ∃ fuel d' m, initMsadscCore fuel pm e8nr d = some (d', m) ∧
      Describes e8sp e8nr n d' m := by
  have hsize : pagesize = 4096 := rfl
  obtain ⟨fuel, d', m, hrun⟩ :=
    initMsadscCore_ends hok hs (fun k hk hu => (hall k hk hu).2) d
  have hpages := initMsadscCore_pages hok hs hrun
  have hlen : m = (tablePages e8sp f e8nr).length := by
    rw [← hpages, length_pageList]
  have hget : ∀ i (hi : i < (tablePages e8sp f e8nr).length),
      (d' i).pafPadrs = (tablePages e8sp f e8nr)[i] := by
    intro i hi
    have hsome := getElem?_pageList d' (show i < m by omega)
    rw [hpages, List.getElem?_eq_getElem hi] at hsome
    exact (Option.some.inj hsome).symm
  refine ⟨fuel, d', m, hrun, {
    count := hlen.trans (retMsadscVadrandsz_length hok hs hret).symm
    ascending := fun i j hij hj => ?_
    inside := fun i hi => ?_
    complete := fun k hk hu p hp => ?_ }⟩
  · rw [hget i (by omega), hget j (by omega)]
    exact List.pairwise_iff_getElem.mp (tablePages_ascending hok hs) i j (by omega) (by omega) hij
  · have hmem := List.getElem_mem (show i < (tablePages e8sp f e8nr).length by omega)
    rw [← hget i (by omega), mem_tablePages] at hmem
    obtain ⟨j, hj, hu, hp⟩ := hmem
    refine ⟨f j, hs.le j hj, hu, ?_⟩
    rw [E820map.mem_pages] at hp
    have halign := (hall _ (hs.le j hj) hu).1
    unfold E820map.HasPage
    rw [hsize] at hp halign ⊢
    have := halign (by omega)
    omega
  · obtain ⟨j, hj, rfl⟩ := hs.onto k hk
    have hmem : p ∈ tablePages e8sp f e8nr := by
      refine mem_tablePages.mpr ⟨j, hj, hu, ?_⟩
      have halign := (hall _ hk hu).1
      unfold E820map.HasPage at hp
      rw [E820map.mem_pages]
      rw [hsize] at hp halign ⊢
      have := halign (by omega)
      omega
    obtain ⟨i, hi, hip⟩ := List.getElem_of_mem hmem
    exact ⟨i, by omega, (hget i hi).trans hip⟩

/-- The entries of a table that is described are all handled. -/
theorem handled_of_describes (hok : TableOk e8sp e8nr) (hs : Sorted e8sp e8nr pm f) {n : Nat}
    {d : MsaArr} (h : ∃ fuel d' m, initMsadscCore fuel pm e8nr d = some (d', m) ∧
      Describes e8sp e8nr n d' m) : ∀ k < e8nr, (e8sp k).Usable → (e8sp k).Handled := by
  have hsize : pagesize = 4096 := rfl
  obtain ⟨fuel, d', m, hrun, hdesc⟩ := h
  have hpages := initMsadscCore_pages hok hs hrun
  intro k hk hu
  obtain ⟨j, hj, rfl⟩ := hs.onto k hk
  refine ⟨fun hpage => ?_, ?_⟩
  · -- the first page of the entry is described, so some entry contains it
    have hmem : (e8sp (f j)).saddr / pagesize ∈ tablePages e8sp f e8nr := by
      refine mem_tablePages.mpr ⟨j, hj, hu, ?_⟩
      rw [E820map.mem_pages]
      rw [hsize] at hpage ⊢
      omega
    rw [← hpages] at hmem
    unfold pageList at hmem
    obtain ⟨i, hi, hip⟩ := List.mem_map.mp hmem
    obtain ⟨k', hk', hu', hin⟩ := hdesc.inside i (List.mem_range.mp hi)
    rw [hip] at hin
    unfold E820map.HasPage at hin
    rw [hsize] at hpage hin ⊢
    by_cases hkk : k' = f j
    · subst hkk
      omega
    · have := hok.apart k' hk' (f j) hk hkk hu' hu
      have := hok.lsize (f j) hk hu
      omega
  · exact msadscLoop_stops hok hs e8nr 0 d 0 _ (Nat.zero_add e8nr) hrun j (Nat.zero_le j) hj hu

/-- **From the e820 map to page descriptors.**  The descriptors are those of the
pages of the usable entries exactly when every usable entry is handled. -/
theorem msadscs_of_e820 {a : Nat → Phymmarge} {nr n : Nat} (hok : TableOk e8sp e8nr)
    (hsort : initPhymmarge e8sp e8nr pm = .ok (a, nr))
    (hret : retMsadscVadrandsz a nr = some n) (d : MsaArr) :
    (∃ fuel d' m, initMsadscCore fuel a nr d = some (d', m) ∧ Describes e8sp e8nr n d' m) ↔
      ∀ k < e8nr, (e8sp k).Usable → (e8sp k).Handled := by
  obtain ⟨rfl, f, hs⟩ := initPhymmarge_sorted hok hsort
  constructor
  · exact handled_of_describes hok hs
  · exact fun hall => describes_of_handled hok hs hret hall d

end Table

/-- Three entries out of order, one of them reserved. -/
def threeEntries : Nat → E820map
  | 0 => ⟨0x100000, 0x3000, 1⟩
  | 1 => ⟨0x9f000, 0x1000, 2⟩
  | _ => ⟨0, 0x9f800, 1⟩

theorem threeEntries_ok : TableOk threeEntries 3 where
  known := by decide
  lsize := by decide
  nowrap := by decide
  apart := by
    have hall : ∀ i < 3, ∀ j < i, (threeEntries i).Usable → (threeEntries j).Usable →
        (threeEntries i).saddr + (threeEntries i).lsize ≤ (threeEntries j).saddr ∨
          (threeEntries j).saddr + (threeEntries j).lsize ≤ (threeEntries i).saddr := by decide
    intro i hi j hj hne hui huj
    rcases Nat.lt_or_gt_of_ne hne with hlt | hgt
    · exact (hall j hj i hlt huj hui).symm
    · exact hall i hi j hgt hui huj

theorem msadscs_of_e820_threeEntries : ∃ a n, initPhymmarge threeEntries 3 (fun _ => phymmargeInit)
      = .ok (a, 3) ∧ retMsadscVadrandsz a 3 = some n ∧ n = 0x9f + 3 ∧
      ∃ fuel d' m, initMsadscCore fuel a 3 (fun _ => writeOneMsadsc 0) = some (d', m) ∧
        Describes threeEntries 3 n d' m := by
  obtain ⟨⟨a, nr⟩, hsort, hret⟩ := exists_of_okAnd
    (e := initPhymmarge threeEntries 3 (fun _ => phymmargeInit))
    (q := fun r => r.2 = 3 && retMsadscVadrandsz r.1 r.2 = some 0xa2) (by decide +kernel)
  simp only [Bool.and_eq_true, decide_eq_true_eq] at hret
  obtain ⟨rfl, hret⟩ := hret
  exact ⟨a, 0xa2, hsort, hret, rfl,
    (msadscs_of_e820 threeEntries_ok hsort hret _).mpr (by decide)⟩

/-- One page of memory that starts in the middle of a page. -/
def halfPage : Nat → E820map := fun _ => ⟨0x800, 0x1000, 1⟩

theorem halfPage_ok : TableOk halfPage 1 where
  known := by decide
  lsize := by decide
  nowrap := by decide
  apart := fun i hi j hj hne => absurd (Nat.lt_one_iff.mp hi) (by omega)

/-- The descriptor written names page 0, half of which is not usable. -/
theorem msadscs_not_of_e820 : TableOk halfPage 1 ∧ ∃ a, initPhymmarge halfPage 1
      (fun _ => phymmargeInit) = .ok (a, 1) ∧ retMsadscVadrandsz a 1 = some 1 ∧
      ¬ ∃ fuel d' m, initMsadscCore fuel a 1 (fun _ => writeOneMsadsc 7) = some (d', m) ∧
        Describes halfPage 1 1 d' m := by
  obtain ⟨⟨a, nr⟩, hsort, hret⟩ := exists_of_okAnd
    (e := initPhymmarge halfPage 1 (fun _ => phymmargeInit))
    (q := fun r => r.2 = 1 && retMsadscVadrandsz r.1 r.2 = some 1) (by decide +kernel)
  simp only [Bool.and_eq_true, decide_eq_true_eq] at hret
  obtain ⟨rfl, hret⟩ := hret
  refine ⟨halfPage_ok, a, hsort, hret, fun hdesc => ?_⟩
  obtain ⟨_, f, hs⟩ := initPhymmarge_sorted halfPage_ok hsort
  have hall := handled_of_describes halfPage_ok hs hdesc 0 (by decide) rfl
  exact absurd (hall.1 (by decide)) (by decide)

end Cosmos.Hal
