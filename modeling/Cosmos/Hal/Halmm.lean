import Cosmos.Lib.Word64
import Cosmos.Lib.Bubble
import Cosmos.Lib.Run
import Cosmos.Hal.Msadsc

/-!
# From the e820 map to page descriptors

The firmware's memory map becomes an array of ranges (`initpmrge_core`), sorted
by start address (`phymmarge_sort`), and every usable range becomes page
descriptors (`init_msadsc_core`).  `ret_msadsc_vadrandsz` counts the descriptors
before they are written.

The check that the memory the descriptors are written to is not in use
(`initchkadr_is_ok`) stops the kernel when it fails and is left out.
-/

namespace Cosmos.Hal

open Cosmos.Lib.Word64 Cosmos.Lib.Bubble

/-! ## The memory map -/

/-- `RAM_USABLE`. -/
abbrev ramUsable : Nat := 1

/-- `PMR_T_OSAPUSERRAM`. -/
abbrev pmrTOsapuserram : Nat := 1

/-- `e820map_t`: one entry of the map. -/
structure E820map where
  saddr : Nat
  lsize : Nat
  type : Nat
deriving DecidableEq, Repr

/-- `phymmarge_t`: a range of physical memory. -/
structure Phymmarge where
  pmrType : Nat
  pmrStype : Nat
  pmrFlgs : Nat
  pmrSaddr : Nat
  pmrLsize : Nat
  /-- the last byte -/
  pmrEnd : Nat
deriving DecidableEq, Repr

/-- `phymmarge_t_init`. -/
def phymmargeInit : Phymmarge := ⟨0, 0, 0, 0, 0, 0⟩

/-- The `switch` of `init_one_pmrge`: the type of the range of an e820 type. -/
def pmrTypeOf : Nat → Option Nat
  | 1 => some pmrTOsapuserram
  | 2 => some 2
  | 3 => some 8
  | 4 => some 8
  | 5 => some 0xff
  | 6 => some 0xff
  | _ => none

/-- The range of an entry whose type is known. -/
def pmrOf (e8p : E820map) (ptype : Nat) : Phymmarge where
  pmrType := ptype
  pmrStype := e8p.type
  pmrFlgs := 2
  pmrSaddr := e8p.saddr
  pmrLsize := e8p.lsize
  pmrEnd := sub64 (add64 e8p.saddr e8p.lsize) 1

/-- `init_one_pmrge`: what it writes and what it returns. -/
def initOnePmrge (e8p : E820map) : Phymmarge × Bool :=
  match pmrTypeOf e8p.type with
  | none => (phymmargeInit, false)
  | some ptype => (pmrOf e8p ptype, true)

/-- Loop of `initpmrge_core` from entry `i` on. -/
def initpmrgeLoop (e8sp : Nat → E820map) : Nat → Nat → (Nat → Phymmarge) →
    (Nat → Phymmarge) × Nat
  | 0, i, pmargesp => (pmargesp, i)
  | n + 1, i, pmargesp =>
      match initOnePmrge (e8sp i) with
      | (p, false) => (Function.update pmargesp i p, i)
      | (p, true) => initpmrgeLoop e8sp n (i + 1) (Function.update pmargesp i p)

/-- `initpmrge_core`: the ranges and how many entries were taken over. -/
def initpmrgeCore (e8sp : Nat → E820map) (e8nr : Nat) (pmargesp : Nat → Phymmarge) :
    (Nat → Phymmarge) × Nat :=
  if e8nr < 1 then (pmargesp, 0) else initpmrgeLoop e8sp e8nr 0 pmargesp

/-- `phymmarge_sort`: bubble sort by start address. -/
def phymmargeSort (argp : Nat → Phymmarge) (nr : Nat) : Nat → Phymmarge :=
  bubbleSort Phymmarge.pmrSaddr (nr - 1) argp

/-- `init_phymmarge`: the sorted ranges and their number. -/
def initPhymmarge (e8sp : Nat → E820map) (e8nr : Nat) (pmargesp : Nat → Phymmarge) :
    Except String ((Nat → Phymmarge) × Nat) :=
  match initpmrgeCore e8sp e8nr pmargesp with
  | (pmarge, ipmgnr) =>
      if ipmgnr = 0 then .error "init_phymmarge->initpmrge_core ret 0\n"
      else if ipmgnr ≠ e8nr then
        .error "init_phymmarge->ipmgnr*sizeof(phymmarge_t))!=pmrgesz\n"
      else .ok (phymmargeSort pmarge ipmgnr, ipmgnr)

/-! ## The descriptors -/

/-- One round of the loop of `ret_msadsc_vadrandsz`. -/
def retMsadscStep (pmagep : Nat → Phymmarge) (st : Nat × Nat) (i : Nat) : Nat × Nat :=
  if (pmagep i).pmrType = pmrTOsapuserram then
    (add64 st.1 (pmagep i).pmrLsize, add64 st.2 ((pmagep i).pmrLsize / pagesize))
  else st

/-- `ret_msadsc_vadrandsz`: the number of descriptors to make room for; `none` is
`FALSE`. -/
def retMsadscVadrandsz (pmagep : Nat → Phymmarge) (e820exnr : Nat) : Option Nat :=
  if e820exnr < 1 then none
  else
    match (List.range e820exnr).foldl (retMsadscStep pmagep) (0, 0) with
    | (usrmemsz, msadnr) =>
        if usrmemsz = 0 ∨ usrmemsz / pagesize < 1 ∨ msadnr < 1 then none else some msadnr

/-- The inner loop of `init_msadsc_core` over the range that ends at `pmrEnd`, from
`start` on.  `start` may wrap, so the number of rounds is a parameter; `none` is
a loop that has not ended after so many rounds. -/
def msadscRangeLoop (pmrEnd : Nat) : Nat → Nat → MsaArr → Nat → Option (MsaArr × Nat)
  | 0, _, _, _ => none
  | n + 1, start, d, mdindx =>
      if start < pmrEnd then
        if sub64 (add64 start pagesize) 1 ≤ pmrEnd then
          msadscRangeLoop pmrEnd n (add64 start pagesize)
            (upd d mdindx fun _ => writeOneMsadsc (start / pagesize)) (mdindx + 1)
        else msadscRangeLoop pmrEnd n (add64 start pagesize) d mdindx
      else some (d, mdindx)

/-- The outer loop of `init_msadsc_core` from range `i` on. -/
def msadscLoop (fuel : Nat) (pmagep : Nat → Phymmarge) : Nat → Nat → MsaArr → Nat →
    Option (MsaArr × Nat)
  | 0, _, d, mdindx => some (d, mdindx)
  | n + 1, i, d, mdindx =>
      if (pmagep i).pmrType = pmrTOsapuserram then
        match msadscRangeLoop (pmagep i).pmrEnd fuel (pmagep i).pmrSaddr d mdindx with
        | none => none
        | some (d', mdindx') => msadscLoop fuel pmagep n (i + 1) d' mdindx'
      else msadscLoop fuel pmagep n (i + 1) d mdindx

/-- `init_msadsc_core`: the descriptors and their number, when no loop takes more
than `fuel` rounds. -/
def initMsadscCore (fuel : Nat) (pmagep : Nat → Phymmarge) (e820exnr : Nat) (d : MsaArr) :
    Option (MsaArr × Nat) :=
  msadscLoop fuel pmagep e820exnr 0 d 0

/-! ## What a table is and what its descriptors should be -/

/-- A usable entry. -/
def E820map.Usable (e : E820map) : Prop := e.type = ramUsable

instance (e : E820map) : Decidable e.Usable := inferInstanceAs (Decidable (_ = _))

/-- The page lies wholly inside the entry. -/
def E820map.HasPage (e : E820map) (p : Nat) : Prop :=
  e.saddr ≤ p * pagesize ∧ p * pagesize + pagesize ≤ e.saddr + e.lsize

/-- The entries have known types, and the usable ones are nonempty and pairwise
disjoint and do not wrap. -/
structure TableOk (e8sp : Nat → E820map) (e8nr : Nat) : Prop where
  known : ∀ i < e8nr, pmrTypeOf (e8sp i).type ≠ none
  lsize : ∀ i < e8nr, (e8sp i).Usable → 0 < (e8sp i).lsize
  nowrap : ∀ i < e8nr, (e8sp i).Usable → (e8sp i).saddr + (e8sp i).lsize ≤ wordMod
  apart : ∀ i < e8nr, ∀ j < e8nr, i ≠ j → (e8sp i).Usable → (e8sp j).Usable →
    (e8sp i).saddr + (e8sp i).lsize ≤ (e8sp j).saddr ∨
      (e8sp j).saddr + (e8sp j).lsize ≤ (e8sp i).saddr

/-- The `m` descriptors describe the pages of the usable entries. -/
structure Describes (e8sp : Nat → E820map) (e8nr n : Nat) (d : MsaArr) (m : Nat) : Prop where
  /-- as many as there is room for -/
  count : m = n
  ascending : ∀ i j, i < j → j < m → (d i).pafPadrs < (d j).pafPadrs
  inside : ∀ i < m, ∃ k < e8nr, (e8sp k).Usable ∧ (e8sp k).HasPage (d i).pafPadrs
  complete : ∀ k < e8nr, (e8sp k).Usable → ∀ p, (e8sp k).HasPage p →
    ∃ i < m, (d i).pafPadrs = p

/-- Rounds of the loop over a range. -/
def E820map.rounds (e : E820map) : Nat := (e.lsize + 4094) / pagesize

/-- An entry the loop handles: an entry of a page or more starts at a page, and
the loop comes to an address behind the entry before it wraps. -/
def E820map.Handled (e : E820map) : Prop :=
  (pagesize ≤ e.lsize → e.saddr % pagesize = 0) ∧ e.saddr + e.rounds * pagesize < wordMod

instance (e : E820map) : Decidable e.Handled := inferInstanceAs (Decidable (_ ∧ _))

/-! ## The sorted ranges -/

/-- The loop takes all entries over. -/
theorem initpmrgeLoop_known {e8sp : Nat → E820map} : ∀ n i pm,
    (∀ k, i ≤ k → k < i + n → pmrTypeOf (e8sp k).type ≠ none) →
    ∃ pm', initpmrgeLoop e8sp n i pm = (pm', i + n) ∧
      (∀ k, i ≤ k → k < i + n → ∃ t, pmrTypeOf (e8sp k).type = some t ∧
        pm' k = pmrOf (e8sp k) t) ∧ ∀ k, k < i → pm' k = pm k := by
  intro n
  induction n with
  | zero =>
      intro i pm _
      exact ⟨pm, rfl, fun k h1 h2 => absurd h2 (by omega), fun _ _ => rfl⟩
  | succ n ih =>
      intro i pm hknown
      obtain ⟨t, ht⟩ := Option.ne_none_iff_exists'.mp (hknown i (Nat.le_refl i) (by omega))
      have hone : initOnePmrge (e8sp i) = (pmrOf (e8sp i) t, true) := by
        unfold initOnePmrge
        rw [ht]
      obtain ⟨pm', hrun, hnew, hold⟩ := ih (i + 1) (Function.update pm i (pmrOf (e8sp i) t))
        fun k h1 h2 => hknown k (by omega) (by omega)
      refine ⟨pm', ?_, fun k h1 h2 => ?_, fun k hk => ?_⟩
      · rw [initpmrgeLoop, hone]
        simp only
        rw [hrun, show i + 1 + n = i + (n + 1) by omega]
      · rcases (by omega : k = i ∨ i + 1 ≤ k) with rfl | hlt
        · exact ⟨t, ht, by rw [hold k (by omega), Function.update_self]⟩
        · exact hnew k hlt (by omega)
      · rw [hold k (by omega), Function.update_of_ne (by omega)]

/-- A type of a range is the usable one when the entry is usable. -/
theorem pmrTypeOf_usable {t ptype : Nat} (h : pmrTypeOf t = some ptype) :
    ptype = pmrTOsapuserram ↔ t = ramUsable := by
  unfold pmrTypeOf at h
  split at h <;> cases h <;> decide

/-- The sorted ranges are those of the entries, in some order. -/
structure Sorted (e8sp : Nat → E820map) (e8nr : Nat) (pm : Nat → Phymmarge)
    (f : Nat → Nat) : Prop where
  le : ∀ i < e8nr, f i < e8nr
  inj : ∀ i j, f i = f j → i = j
  onto : ∀ j < e8nr, ∃ i < e8nr, f i = j
  /-- the ranges of usable entries, and only those, are marked usable -/
  usable : ∀ i < e8nr, (pm i).pmrType = pmrTOsapuserram ↔ (e8sp (f i)).Usable
  saddr : ∀ i < e8nr, (pm i).pmrSaddr = (e8sp (f i)).saddr
  lsize : ∀ i < e8nr, (pm i).pmrLsize = (e8sp (f i)).lsize
  pmrEnd : ∀ i < e8nr, (pm i).pmrEnd
    = sub64 (add64 (e8sp (f i)).saddr (e8sp (f i)).lsize) 1
  order : ∀ i j, i < j → j < e8nr → (e8sp (f i)).saddr ≤ (e8sp (f j)).saddr

/-- **The sort.** -/
theorem initPhymmarge_sorted {e8sp : Nat → E820map} {e8nr nr : Nat} {pm a : Nat → Phymmarge}
    (hok : TableOk e8sp e8nr) (h : initPhymmarge e8sp e8nr pm = .ok (a, nr)) :
    nr = e8nr ∧ ∃ f, Sorted e8sp e8nr a f := by
  obtain ⟨pm', hloop, hnew, _⟩ := initpmrgeLoop_known e8nr 0 pm
    fun k _ hk => hok.known k (by omega)
  unfold initPhymmarge initpmrgeCore at h
  by_cases hpos : e8nr < 1
  · rw [if_pos hpos] at h
    cases h
  · rw [if_neg hpos, hloop] at h
    simp only at h
    rw [Nat.zero_add, if_neg (by omega), if_neg (by omega)] at h
    cases h
    refine ⟨rfl, ?_⟩
    unfold phymmargeSort
    have hre := bubbleSort_rearranged Phymmarge.pmrSaddr (e8nr - 1) pm'
    have hord := fun p q => bubbleSort_sorted Phymmarge.pmrSaddr (e8nr - 1) pm' (p := p) (q := q)
    generalize bubbleSort Phymmarge.pmrSaddr (e8nr - 1) pm' = a at hre hord
    obtain ⟨f, hf, hinj, honto⟩ := hre.origin
    have hrange : ∀ i < e8nr, f i < e8nr ∧ ∃ t, pmrTypeOf (e8sp (f i)).type = some t ∧
        a i = pmrOf (e8sp (f i)) t := by
      intro i hi
      obtain ⟨hle, heq⟩ := hf i (by omega)
      obtain ⟨t, ht, hpm⟩ := hnew (f i) (Nat.zero_le _) (by omega)
      exact ⟨by omega, t, ht, heq.trans hpm⟩
    have hsaddr : ∀ i < e8nr, (a i).pmrSaddr = (e8sp (f i)).saddr := by
      intro i hi
      obtain ⟨_, t, _, heq⟩ := hrange i hi
      rw [heq]
      rfl
    refine ⟨f, {
      le := fun i hi => (hrange i hi).1
      inj := hinj
      onto := fun j hj => ?_
      usable := fun i hi => ?_
      saddr := hsaddr
      lsize := fun i hi => ?_
      pmrEnd := fun i hi => ?_
      order := fun i j hij hj => ?_ }⟩
    · obtain ⟨i, hi, hij⟩ := honto j (by omega)
      exact ⟨i, by omega, hij⟩
    · obtain ⟨_, t, ht, heq⟩ := hrange i hi
      rw [heq]
      exact pmrTypeOf_usable ht
    · obtain ⟨_, t, _, heq⟩ := hrange i hi
      rw [heq]
      rfl
    · obtain ⟨_, t, _, heq⟩ := hrange i hi
      rw [heq]
      rfl
    · rw [← hsaddr i (by omega), ← hsaddr j hj]
      exact hord i j hij (by omega)

end Cosmos.Hal
