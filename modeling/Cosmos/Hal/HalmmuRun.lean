import Cosmos.Hal.HalmmuOps
import Cosmos.Lib.Run

/-!
# Every sequence of mappings

After `hal_mmu_init`, pages of the user half are mapped and unmapped in any order, and
the allocator serves or refuses each request for a table.  The tables then show
exactly the map that the successful calls describe, and hold exactly the pages that
map needs.
-/

namespace Cosmos.Hal

open Cosmos.Lib Cosmos.Lib.Radix Cosmos.Lib.Run Cosmos.Lib.StM

/-! ## Addresses and paths -/

/-- The number of the page of an address, of 48 bits. -/
def pageNr (v : Nat) : Nat := (v >>> 12) % 2 ^ 36

theorem index_eq (v : Nat) :
    mmuMdireIndex v = v / 4096 % 512 ∧ mmuIdireIndex v = v / 2097152 % 512 ∧
      mmuSdireIndex v = v / 1073741824 % 512 ∧ mmuTdireIndex v = v / 549755813888 % 512 := by
  have hand : ∀ n : Nat, n &&& 0x1ff = n % 512 := fun n => Nat.and_two_pow_sub_one_eq_mod n 9
  refine ⟨?_, ?_, ?_, ?_⟩
  · unfold mmuMdireIndex
    rw [hand, Nat.shiftRight_eq_div_pow]
  · unfold mmuIdireIndex
    rw [hand, Nat.shiftRight_eq_div_pow]
  · unfold mmuSdireIndex
    rw [hand, Nat.shiftRight_eq_div_pow]
  · unfold mmuTdireIndex
    rw [hand, Nat.shiftRight_eq_div_pow]

/-- Addresses have one path if they are of one page. -/
theorem vpath_eq_iff (v w : Nat) : vpath v = vpath w ↔ pageNr v = pageNr w := by
  obtain ⟨hm, hi, hs, ht⟩ := index_eq v
  obtain ⟨hm', hi', hs', ht'⟩ := index_eq w
  have hv : vpath v = vpath w ↔ mmuMdireIndex v = mmuMdireIndex w ∧
      mmuIdireIndex v = mmuIdireIndex w ∧ mmuSdireIndex v = mmuSdireIndex w ∧
      mmuTdireIndex v = mmuTdireIndex w := by
    unfold vpath DirLevel.path
    simp
  rw [hv, hm, hi, hs, ht, hm', hi', hs', ht']
  unfold pageNr
  rw [Nat.shiftRight_eq_div_pow, Nat.shiftRight_eq_div_pow]
  constructor
  · rintro ⟨h0, h1, h2, h3⟩
    omega
  · intro h
    refine ⟨?_, ?_, ?_, ?_⟩ <;> omega

/-- Each path to a page is one of an address. -/
theorem exists_vpath {q : List Nat} (h : UserPath q) (hlen : q.length = 4) :
    ∃ v, UserAdr v ∧ vpath v = q := by
  match q, hlen with
  | [m, i, s, t], _ =>
      obtain ⟨hm, hi, hs, ht⟩ := h
      have hv := index_eq (m * 4096 + i * 2097152 + s * 1073741824 + t * 549755813888)
      have ht' : mmuTdireIndex (m * 4096 + i * 2097152 + s * 1073741824 + t * 549755813888) = t := by
        have ht : t < 256 := ht
        rw [hv.2.2.2]
        omega
      refine ⟨m * 4096 + i * 2097152 + s * 1073741824 + t * 549755813888, ?_, ?_⟩
      · unfold UserAdr
        rw [ht']
        exact ht
      · show [mmuMdireIndex _, mmuIdireIndex _, mmuSdireIndex _, mmuTdireIndex _] = _
        rw [ht', hv.1, hv.2.1, hv.2.2.1]
        have h1 : (m * 4096 + i * 2097152 + s * 1073741824 + t * 549755813888) / 4096 % 512 = m := by
          omega
        have h2 : (m * 4096 + i * 2097152 + s * 1073741824 + t * 549755813888) / 2097152 % 512
            = i := by
          omega
        have h3 : (m * 4096 + i * 2097152 + s * 1073741824 + t * 549755813888) / 1073741824 % 512
            = s := by
          omega
        rw [h1, h2, h3]

/-! ## The start -/

/-- A top table whose user half is empty but for entry 0. -/
theorem copyPagesData_user (pdptepd : Nat) {i : Nat} (h : i < 256) : copyPagesData pdptepd i = 0 :=
  if_neg (by omega)

/-- A top table whose user half is empty is all there is. -/
theorem Tables.init {pml4 : Nat → Nat} {others : List PageFrame} {s : MmuSt} {top : PageFrame}
    (htop : s.mmu.mudTdirearr = some top)
    (hhead : ∀ lv, s.mmu.mudHead lv = if lv = .tdir then [top] else [])
    (hnr : ∀ lv, s.mmu.mudMsanr lv = (s.mmu.mudHead lv).length)
    (hout : s.pgs.out = top :: others) (hnew : top ∉ others)
    (hzero : ∀ i, i < 256 → s.tbl top i = 0) (hkrl : ∀ i, 256 ≤ i → s.tbl top i = pml4 i) :
    Tables pml4 others s top ∧ ∀ q, UserPath q → q ≠ [] → s.walk top q = none := by
  have hnone : ∀ q, UserPath q → q ≠ [] → s.walk top q = none := by
    intro q
    induction q with
    | nil => exact fun _ hne => absurd rfl hne
    | cons i q ih =>
        intro hq _
        cases q with
        | nil =>
            show direFrame (s.tbl top i) = none
            rw [hzero i hq, direFrame_zero]
        | cons j q => exact walk_cons_none (ih hq.tail (by simp)) i
  have honly : ∀ q f, UserPath q → s.walk top q = some f → q = [] ∧ f = top := by
    intro q f hq hw
    by_cases hne : q = []
    · subst hne
      exact ⟨rfl, (Option.some.inj hw).symm⟩
    · rw [hnone q hq hne] at hw
      cases hw
  refine ⟨{
    tdirearr := htop
    apart := fun p q f hp hq _ _ hwp hwq => ?_
    entry := fun q f i hq hlen hw hne => ?_
    head := fun lv f => ?_
    nodup := fun lv => ?_
    msanr := hnr
    out := fun f => ?_
    sep := fun f hf lv hm => ?_
    krl := hkrl }, hnone⟩
  · rw [(honly p f hp hwp).1, (honly q f hq hwq).1]
  · obtain ⟨rfl, rfl⟩ := honly q f hq.tail hw
    exact absurd (hzero i hq) hne
  · rw [hhead]
    constructor
    · intro hm
      split at hm
      · rename_i hlv
        rw [List.mem_singleton] at hm
        exact ⟨[], trivial, by rw [hlv]; rfl, by rw [hm]; rfl⟩
      · cases hm
    · rintro ⟨q, hq, hlen, hw⟩
      obtain ⟨rfl, rfl⟩ := honly q f hq hw
      have hlv : lv = .tdir := depth_inj hlen.symm
      rw [if_pos hlv]
      exact List.mem_singleton.mpr rfl
  · rw [hhead]
    split
    · exact List.nodup_singleton top
    · exact List.nodup_nil
  · rw [hout, List.mem_cons]
    constructor
    · rintro (rfl | hf)
      · exact Or.inr ⟨.tdir, by rw [hhead]; simp⟩
      · exact Or.inl hf
    · rintro (hf | ⟨lv, hm⟩)
      · exact Or.inr hf
      · rw [hhead] at hm
        split at hm
        · exact Or.inl (List.mem_singleton.mp hm)
        · cases hm
  · rw [hhead] at hm
    split at hm
    · rw [List.mem_singleton.mp hm] at hf
      exact hnew hf
    · cases hm

/-- **`hal_mmu_init`** makes an address space without user pages. -/
theorem halMmuInit_spec (pdptepd : Nat) {s₀ s : MmuSt} (h₀ : s₀.mmu = mmudscInit)
    (hrun : (halMmuInit (copyPagesData pdptepd)).run s₀ = .ok (true, s)) :
    ∃ top, Tables (copyPagesData pdptepd) s₀.pgs.out s top ∧
      ∀ q, UserPath q → q ≠ [] → s.walk top q = none := by
  unfold halMmuInit mmuNewTdirearr at hrun
  rcases mmuNewDirearr_spec .tdir s₀ with ⟨pgs, _, hnew⟩ | ⟨top, pgs, hg, hout, hnew⟩
  · rw [run_bind_ok (run_bind_ok hnew)] at hrun
    cases hrun
  · rw [run_bind_ok (run_bind_ok hnew)] at hrun
    cases hrun
    have htbl : ∀ i, (MmuSt.setEntry ⟨Function.update (Function.update s₀.tbl top fun _ => 0) top
        (copyPagesData pdptepd), { s₀.mmu.addMsa .tdir top with mudTdirearr := some top }, pgs⟩
          top 0 0).tbl top i = if i = 0 then 0 else copyPagesData pdptepd i := by
      intro i
      rw [setEntry_tbl]
      by_cases hi : i = 0
      · rw [if_pos ⟨rfl, hi⟩, if_pos hi]
      · rw [if_neg fun h => hi h.2, if_neg hi]
        exact congrFun (Function.update_self top (copyPagesData pdptepd)
          (Function.update s₀.tbl top fun _ => 0)) i
    refine ⟨top, Tables.init rfl (fun lv => ?_) (fun lv => ?_) hout hg (fun i hi => ?_)
      fun i hi => ?_⟩
    · show Function.update s₀.mmu.mudHead .tdir _ lv = _
      rw [h₀]
      cases lv <;> rfl
    · show Function.update s₀.mmu.mudMsanr .tdir _ lv
        = (Function.update s₀.mmu.mudHead .tdir _ lv).length
      rw [h₀]
      cases lv <;> rfl
    · apply (htbl i).trans
      split
      · rfl
      · exact copyPagesData_user pdptepd hi
    · exact (htbl i).trans (if_neg (by omega))

/-- A new top table is not one of the frames that are out, and those keep their words; without
a page for it nothing changes. -/
theorem halMmuInit_cases {pml4 : Nat → Nat} {s s' : MmuSt} {r : Bool}
    (hrun : (halMmuInit pml4).run s = .ok (r, s')) :
    (r = false ∧ ∃ pgs, pgs.out = s.pgs.out ∧ s' = { s with pgs := pgs }) ∨
    r = true ∧ ∀ f ∈ s.pgs.out, s'.tbl f = s.tbl f := by
  unfold halMmuInit mmuNewTdirearr at hrun
  rcases mmuNewDirearr_spec .tdir s with ⟨pgs, hout, hnew⟩ | ⟨top, pgs, hg, hout, hnew⟩
  · rw [run_bind_ok (run_bind_ok hnew)] at hrun
    cases hrun
    exact Or.inl ⟨rfl, pgs, hout, rfl⟩
  · rw [run_bind_ok (run_bind_ok hnew)] at hrun
    cases hrun
    refine Or.inr ⟨rfl, fun f hf => ?_⟩
    have hne : f ≠ top := fun he => hg (he ▸ hf)
    exact (setEntry_of_ne _ 0 0 hne).trans
      ((Function.update_of_ne hne _ _).trans (Function.update_of_ne hne _ _))

theorem mmuLookup_eq {pml4 : Nat → Nat} {others : List PageFrame} {s : MmuSt} {top : PageFrame}
    (h : Tables pml4 others s top) (v : Nat) : mmuLookup s v = s.walk top (vpath v) := by
  unfold mmuLookup
  simp only [h.tdirearr, MmuSt.walk, vpath, DirLevel.path, Radix.walk, Option.bind_some,
    Option.bind_assoc]
  rfl

/-! ## Runs -/

/-- The calls on an address space. -/
inductive MmuOp where
  | transform (vadrs padrs flags : Nat)
  | untransform (vadrs : Nat)
deriving DecidableEq, Repr

/-- The tables, and the map that the calls describe: where each page is mapped to. -/
structure MmuRunSt where
  st : MmuSt
  map : Nat → Option PageFrame

/-- What the callers pass: a user address, the address of a page frame below `2^52`,
and flags among present, writable and user. -/
def MmuOp.Proper : MmuOp → Prop
  | .transform vadrs padrs flags =>
      UserAdr vadrs ∧ padrs % 4096 = 0 ∧ 0 < padrs ∧ padrs < 2 ^ 52 ∧ flags < 8
  | .untransform vadrs => UserAdr vadrs

instance (op : MmuOp) : Decidable op.Proper := by
  cases op with
  | transform => exact inferInstanceAs (Decidable (_ ∧ _))
  | untransform => exact inferInstanceAs (Decidable (UserAdr _))

/-- One call.  A mapping that succeeded sets its page in the map, an unmapping clears
it. -/
def mmuStep (t : MmuRunSt) (op : MmuOp) : Except String MmuRunSt :=
  if ¬ op.Proper then .error "no user mapping"
  else
    match op with
    | .transform vadrs padrs flags =>
        ((halMmuTransform vadrs padrs flags).run t.st).map fun r =>
          ⟨r.2, if r.1 then Function.update t.map (pageNr vadrs) (direFrame padrs) else t.map⟩
    | .untransform vadrs =>
        ((halMmuUntransform vadrs).run t.st).map fun r =>
          ⟨r.2, Function.update t.map (pageNr vadrs) none⟩

/-- The tables are in order and show the map. -/
structure MmuOk (pml4 : Nat → Nat) (others : List PageFrame) (t : MmuRunSt) : Prop where
  tables : ∃ top, Tables pml4 others t.st top ∧ Busy t.st top [] ∧
    ∀ v, UserAdr v → t.st.walk top (vpath v) = t.map (pageNr v)

/-- The address of a page frame. -/
theorem exists_frameAddr {padrs : Nat} (h0 : padrs % 4096 = 0) (h1 : 0 < padrs)
    (h2 : padrs < 2 ^ 52) : ∃ f, padrs = frameAddr f ∧ direFrame padrs = some f := by
  refine ⟨⟨padrs / 4096, by omega, by omega⟩, ?_, ?_⟩
  · unfold frameAddr
    rw [Nat.shiftLeft_eq]
    show padrs = padrs / 4096 * 4096
    omega
  · have hval : (padrs >>> 12) % 2 ^ 40 = padrs / 4096 := by
      rw [Nat.shiftRight_eq_div_pow]
      show padrs / 4096 % 2 ^ 40 = padrs / 4096
      omega
    unfold direFrame
    simp only [hval]
    rw [dif_pos (by omega)]

/-- A page's entry in the tables and in the map. -/
theorem PageShift.map {s s' : MmuSt} {top : PageFrame} {v : Nat} {o : Option PageFrame}
    {map : Nat → Option PageFrame} (h : PageShift s s' top v o)
    (hmap : ∀ w, UserAdr w → s.walk top (vpath w) = map (pageNr w)) (w : Nat) (hw : UserAdr w) :
    s'.walk top (vpath w) = Function.update map (pageNr v) o (pageNr w) := by
  rw [h (vpath w) (vpath_user hw) rfl]
  by_cases he : pageNr w = pageNr v
  · rw [he, Function.update_self, (vpath_eq_iff w v).mpr he, Function.update_self]
  · rw [Function.update_of_ne he, Function.update_of_ne fun hv => he ((vpath_eq_iff w v).mp hv),
      hmap w hw]

/-- **Each call keeps the tables in order**, and none stops the kernel. -/
theorem mmuStep_ok {pml4 : Nat → Nat} {others : List PageFrame} {t : MmuRunSt} {op : MmuOp}
    (h : MmuOk pml4 others t) (hop : op.Proper) :
    ∃ t', mmuStep t op = .ok t' ∧ MmuOk pml4 others t' := by
  obtain ⟨top, ht, hb, hmap⟩ := h.tables
  unfold mmuStep
  rw [if_neg (not_not.mpr hop)]
  cases op with
  | transform vadrs padrs flags =>
      obtain ⟨hu, h0, h1, h2, hfl⟩ := hop
      obtain ⟨f, rfl, hf⟩ := exists_frameAddr h0 h1 h2
      obtain ⟨r, s', hrun, ht', hb', hs, -⟩ := halMmuTransform_spec ht hb hu f
        (flagBits_of_lt (Nat.lt_trans hfl (by decide)))
      refine ⟨⟨s', if r then Function.update t.map (pageNr vadrs) (direFrame (frameAddr f))
        else t.map⟩, ?_, ⟨top, ht', hb', fun w hw => ?_⟩⟩
      · simp only [hrun]
        rfl
      rw [hs.map hmap w hw, hmap vadrs hu]
      cases r with
      | true =>
          simp only [if_true]
          rw [hf]
      | false => simp only [Bool.false_eq_true, if_false, Function.update_eq_self]
  | untransform vadrs =>
      obtain ⟨s', hrun, ht', hb', hs, -⟩ := halMmuUntransform_spec ht hb hop
      refine ⟨⟨s', Function.update t.map (pageNr vadrs) none⟩, ?_,
        ⟨top, ht', hb', fun w hw => hs.map hmap w hw⟩⟩
      simp only [hrun]
      rfl

theorem mmuStep_inv {pml4 : Nat → Nat} {others : List PageFrame} (t : MmuRunSt) (op : MmuOp)
    (t' : MmuRunSt) (h : MmuOk pml4 others t) (hstep : mmuStep t op = .ok t') :
    MmuOk pml4 others t' := by
  by_cases hop : op.Proper
  · obtain ⟨t'', hrun, h'⟩ := mmuStep_ok h hop
    rw [hrun] at hstep
    cases hstep
    exact h'
  · unfold mmuStep at hstep
    rw [if_pos hop] at hstep
    cases hstep

/-! ### One call at a time, and pages for other purposes -/

section Pages

variable {pml4 : Nat → Nat} {others : List PageFrame} {s s' : MmuSt}
  {map : Nat → Option PageFrame} {v : Nat} {f : PageFrame} {pgs : Supply PageFrame}

theorem frameAddr_eq (f : PageFrame) : frameAddr f = f.val * 4096 :=
  Nat.shiftLeft_eq f.val 12

theorem frameAddr_ne_zero (f : PageFrame) : frameAddr f ≠ 0 := by
  have hpos := f.pos
  rw [frameAddr_eq]
  omega

theorem frameAddr_inj {f g : PageFrame} (h : frameAddr f = frameAddr g) : f = g := by
  rw [frameAddr_eq, frameAddr_eq] at h
  obtain ⟨n, hn, hn'⟩ := f
  obtain ⟨m, hm, hm'⟩ := g
  have hval : n = m := by
    simp only at h
    omega
  subst hval
  rfl

/-- The address of an entry is that of its frame below `2^40`. -/
theorem mmumsaRetPadr_eq_iff (f : PageFrame) :
    mmumsaRetPadr f = frameAddr f ↔ frameAddr f < 2 ^ 40 :=
  Nat.mod_eq_iff_lt (by decide)

theorem MmuOk.lookup (h : MmuOk pml4 others ⟨s, map⟩) (hu : UserAdr v) :
    mmuLookup s v = map (pageNr v) := by
  obtain ⟨top, ht, -, hmap⟩ := h.tables
  rw [mmuLookup_eq ht]
  exact hmap v hu

theorem MmuOk.untransform (h : MmuOk pml4 others ⟨s, map⟩) (hu : UserAdr v) {phyadrs : Nat}
    (hrun : (halMmuUntransform v).run s = .ok (phyadrs, s')) :
    phyadrs = (map (pageNr v)).elim 0 mmumsaRetPadr ∧
      MmuOk pml4 others ⟨s', Function.update map (pageNr v) none⟩ := by
  obtain ⟨top, ht, hb, hmap⟩ := h.tables
  obtain ⟨s₁, hrun₁, ht', hb', hs, -⟩ := halMmuUntransform_spec ht hb hu
  rw [hrun₁] at hrun
  cases hrun
  exact ⟨by rw [hmap v hu], ⟨top, ht', hb', fun w hw => hs.map hmap w hw⟩⟩

theorem MmuOk.transform (h : MmuOk pml4 others ⟨s, map⟩) (hu : UserAdr v) {flags : Nat}
    (hfl : FlagBits flags) {r : Bool}
    (hrun : (halMmuTransform v (frameAddr f) flags).run s = .ok (r, s')) :
    MmuOk pml4 others ⟨s', if r then Function.update map (pageNr v) (some f) else map⟩ := by
  obtain ⟨top, ht, hb, hmap⟩ := h.tables
  obtain ⟨r₁, s₁, hrun₁, ht', hb', hs, -⟩ := halMmuTransform_spec ht hb hu f hfl
  rw [hrun₁] at hrun
  cases hrun
  refine ⟨top, ht', hb', fun w hw => ?_⟩
  rw [hs.map hmap w hw, hmap v hu]
  cases r with
  | true => rfl
  | false =>
      simp only [Bool.false_eq_true, if_false]
      rw [Function.update_eq_self]

/-- The frames of others are those that are out and no table. -/
theorem MmuOk.mem_others (h : MmuOk pml4 others ⟨s, map⟩) :
    f ∈ others ↔ f ∈ s.pgs.out ∧ ∀ lv, f ∉ s.mmu.mudHead lv := by
  obtain ⟨top, ht, -, -⟩ := h.tables
  constructor
  · exact fun hf => ⟨(ht.out f).mpr (Or.inl hf), ht.sep f hf⟩
  · rintro ⟨hout, hno⟩
    exact ((ht.out f).mp hout).resolve_right fun ⟨lv, hlv⟩ => hno lv hlv

/-- Unmapping leaves the frames of others alone. -/
theorem MmuOk.untransform_kept (h : MmuOk pml4 others ⟨s, map⟩) (hu : UserAdr v) {phyadrs : Nat}
    (hrun : (halMmuUntransform v).run s = .ok (phyadrs, s')) : ∀ g ∈ others, s'.tbl g = s.tbl g := by
  obtain ⟨top, ht, hb, -⟩ := h.tables
  obtain ⟨s₁, hrun₁, -, -, -, hkept⟩ := halMmuUntransform_spec ht hb hu
  rw [hrun₁] at hrun
  cases hrun
  exact hkept

/-- Mapping leaves the frames of others alone. -/
theorem MmuOk.transform_kept (h : MmuOk pml4 others ⟨s, map⟩) (hu : UserAdr v) {flags : Nat}
    (hfl : FlagBits flags) {r : Bool}
    (hrun : (halMmuTransform v (frameAddr f) flags).run s = .ok (r, s')) :
    ∀ g ∈ others, s'.tbl g = s.tbl g := by
  obtain ⟨top, ht, hb, -⟩ := h.tables
  obtain ⟨r₁, s₁, hrun₁, -, -, -, hkept⟩ := halMmuTransform_spec ht hb hu f hfl
  rw [hrun₁] at hrun
  cases hrun
  exact hkept

/-- The allocator has refused a page. -/
theorem MmuOk.same (h : MmuOk pml4 others ⟨s, map⟩) (hout : pgs.out = s.pgs.out) :
    MmuOk pml4 others ⟨{ s with pgs := pgs }, map⟩ := by
  obtain ⟨top, ht, hb, hmap⟩ := h.tables
  exact ⟨top, { ht with out := fun g => by rw [← ht.out g, hout] }, hb, hmap⟩

/-- A page is taken for another purpose. -/
theorem MmuOk.take (h : MmuOk pml4 others ⟨s, map⟩) (hnew : f ∉ s.pgs.out)
    (hout : pgs.out = f :: s.pgs.out) :
    MmuOk pml4 (f :: others) ⟨{ s with pgs := pgs }, map⟩ := by
  obtain ⟨top, ht, hb, hmap⟩ := h.tables
  refine ⟨top, { ht with out := fun g => ?_, sep := fun g hg lv hm => ?_ }, hb, hmap⟩
  · rw [hout, List.mem_cons, List.mem_cons, ht.out g, or_assoc]
  · rcases List.mem_cons.mp hg with rfl | hg
    · exact hnew ((ht.out g).mpr (Or.inr ⟨lv, hm⟩))
    · exact ht.sep g hg lv hm

/-- A page that was taken goes back. -/
theorem MmuOk.give (h : MmuOk pml4 others ⟨s, map⟩) (hf : f ∈ others)
    (hgive : s.pgs.give f = some pgs) :
    MmuOk pml4 (others.filter fun g => g ≠ f) ⟨{ s with pgs := pgs }, map⟩ := by
  obtain ⟨top, ht, hb, hmap⟩ := h.tables
  obtain ⟨-, hout⟩ := Supply.give_inv hgive
  refine ⟨top, { ht with out := fun g => ?_, sep := fun g hg => ?_ }, hb, hmap⟩
  · rw [hout, s.pgs.nodup.mem_erase_iff, ht.out g, List.mem_filter, decide_eq_true_iff]
    constructor
    · rintro ⟨hne, hg | hg⟩
      · exact Or.inl ⟨hg, hne⟩
      · exact Or.inr hg
    · rintro (⟨hg, hne⟩ | ⟨lv, hm⟩)
      · exact ⟨hne, Or.inl hg⟩
      · refine ⟨?_, Or.inr ⟨lv, hm⟩⟩
        rintro rfl
        exact ht.sep g hf lv hm
  · exact ht.sep g (List.mem_filter.mp hg).1

/-- **The tables are those of an address space still** if they are out and their words are
as before, whatever else was handed out, given back or written. -/
theorem MmuOk.elsewhere (h : MmuOk pml4 others ⟨s, map⟩) {t : MmuSt} (hmmu : t.mmu = s.mmu)
    (hkept : ∀ lv, ∀ f ∈ s.mmu.mudHead lv, f ∈ t.pgs.out ∧ t.tbl f = s.tbl f) :
    ∃ others', MmuOk pml4 others' ⟨t, map⟩ := by
  obtain ⟨top, ht, hb, hmap⟩ := h.tables
  have hhead : ∀ q f, UserPath q → q.length ≤ 3 → s.walk top q = some f →
      ∃ lv, f ∈ s.mmu.mudHead lv := by
    intro q f hq hlen hw
    obtain ⟨lv, hlv⟩ := exists_level hlen
    exact ⟨lv, (ht.head lv f).mpr ⟨q, hq, hlv.symm, hw⟩⟩
  have htbl : ∀ q f, UserPath q → q.length ≤ 3 → s.walk top q = some f → t.tbl f = s.tbl f := by
    intro q f hq hlen hw
    obtain ⟨lv, hlv⟩ := hhead q f hq hlen hw
    exact (hkept lv f hlv).2
  have hwalk : ∀ q, UserPath q → q.length ≤ 4 → t.walk top q = s.walk top q := by
    refine walk_congr (fun _ _ hq => hq.tail) fun q f hq hlen hw => ?_
    funext i
    show direFrame (t.tbl f i) = direFrame (s.tbl f i)
    rw [htbl q f hq hlen hw]
  classical
  refine ⟨t.pgs.out.filter fun f => ∀ lv, f ∉ s.mmu.mudHead lv, top, {
    tdirearr := by rw [hmmu]; exact ht.tdirearr
    apart := fun p q f hp hq hpl hql hwp hwq => ?_
    entry := fun q f i hq hlen hw hne => ?_
    head := fun lv f => ?_
    nodup := by rw [hmmu]; exact ht.nodup
    msanr := by rw [hmmu]; exact ht.msanr
    out := fun f => ?_
    sep := fun f hf lv => ?_
    krl := fun i hi => ?_ }, fun q hq h1 h3 hnl hw => ?_, fun v hv => ?_⟩
  · change t.walk top p = some f at hwp
    change t.walk top q = some f at hwq
    rw [hwalk p hp (by omega)] at hwp
    rw [hwalk q hq (by omega)] at hwq
    exact ht.apart p q f hp hq hpl hql hwp hwq
  · rw [hwalk q hq.tail (by omega)] at hw
    show direFrame (t.tbl f i) ≠ none
    change t.tbl f i ≠ 0 at hne
    rw [htbl q f hq.tail hlen hw] at hne ⊢
    exact ht.entry q f i hq hlen hw hne
  · rw [hmmu, ht.head lv f]
    constructor
    · rintro ⟨q, hq, hlen, hw⟩
      exact ⟨q, hq, hlen, by rw [hwalk q hq (by rw [hlen]; cases lv <;> decide)]; exact hw⟩
    · rintro ⟨q, hq, hlen, hw⟩
      exact ⟨q, hq, hlen, by rw [← hwalk q hq (by rw [hlen]; cases lv <;> decide)]; exact hw⟩
  · rw [hmmu, List.mem_filter, decide_eq_true_iff]
    constructor
    · intro hf
      by_cases hno : ∀ lv, f ∉ s.mmu.mudHead lv
      · exact Or.inl ⟨hf, hno⟩
      · push Not at hno
        exact Or.inr hno
    · rintro (hf | ⟨lv, hf⟩)
      · exact hf.1
      · exact (hkept lv f hf).1
  · rw [hmmu]
    exact of_decide_eq_true (List.mem_filter.mp hf).2 lv
  · rw [htbl [] top trivial (by decide) rfl]
    exact ht.krl i hi
  · rw [hwalk q hq (by omega)] at hw
    obtain ⟨i, hi, hwi⟩ := hb q hq h1 h3 hnl hw
    refine ⟨i, hi, ?_⟩
    rw [hwalk (i :: q) (hq.cons hi (by rintro rfl; cases h1)) (by rw [List.length_cons]; omega)]
    exact hwi
  · rw [hwalk (vpath v) (vpath_user hv) (by rfl)]
    exact hmap v hv

end Pages

/-- The start: an address space from `hal_mmu_init`, and the empty map. -/
def MmuRunSt.init (s : MmuSt) : MmuRunSt := ⟨s, fun _ => none⟩

theorem init_mmuOk (pdptepd : Nat) {s₀ s : MmuSt} (h₀ : s₀.mmu = mmudscInit)
    (hinit : (halMmuInit (copyPagesData pdptepd)).run s₀ = .ok (true, s)) :
    MmuOk (copyPagesData pdptepd) s₀.pgs.out (MmuRunSt.init s) := by
  obtain ⟨top, ht, hnone⟩ := halMmuInit_spec pdptepd h₀ hinit
  refine ⟨top, ht, fun q hq h1 _ _ hw => ?_, fun v hv => hnone _ (vpath_user hv) (by simp [vpath])⟩
  refine absurd (hnone q hq ?_) hw
  rintro rfl
  cases h1

theorem run_mmuOk (pdptepd : Nat) {s₀ s : MmuSt} (h₀ : s₀.mmu = mmudscInit)
    (hinit : (halMmuInit (copyPagesData pdptepd)).run s₀ = .ok (true, s)) (ops : List MmuOp)
    {t : MmuRunSt} (hrun : run mmuStep ops (MmuRunSt.init s) = .ok t) :
    MmuOk (copyPagesData pdptepd) s₀.pgs.out t :=
  run_inv (MmuOk (copyPagesData pdptepd) s₀.pgs.out) mmuStep_inv ops _ t
    (init_mmuOk pdptepd h₀ hinit) hrun

/-! ## The tables show the map -/

/-- Looking an address up gives the map, unmapping returns what the map has, no proper
call stops the kernel, and the kernel half is untouched. -/
structure ShowsMap (pml4 : Nat → Nat) (t : MmuRunSt) : Prop where
  lookup : ∀ v, UserAdr v → mmuLookup t.st v = t.map (pageNr v)
  untransform : ∀ v, UserAdr v → ∃ s', (halMmuUntransform v).run t.st =
    .ok ((t.map (pageNr v)).elim 0 frameAddr, s')
  goesOn : ∀ op : MmuOp, op.Proper → ∃ t', mmuStep t op = .ok t'
  krl : ∃ top, t.st.mmu.mudTdirearr = some top ∧ ∀ i, 256 ≤ i → t.st.tbl top i = pml4 i

/-- Pages are mapped to addresses below `2^40`. -/
def MmuRunSt.MapsLow (t : MmuRunSt) : Prop :=
  ∀ v, UserAdr v → ∀ f, t.map (pageNr v) = some f → frameAddr f < 2 ^ 40

/-- A page is mapped to an address below `2^40`. -/
def MmuOp.Low : MmuOp → Prop
  | .transform _ padrs _ => padrs < 2 ^ 40
  | .untransform _ => True

instance (op : MmuOp) : Decidable op.Low :=
  match op with
  | .transform _ padrs _ => inferInstanceAs (Decidable (padrs < 2 ^ 40))
  | .untransform _ => inferInstanceAs (Decidable True)

theorem MmuOk.lookup_eq {pml4 : Nat → Nat} {others : List PageFrame} {t : MmuRunSt}
    (h : MmuOk pml4 others t) (v : Nat) (hv : UserAdr v) : mmuLookup t.st v = t.map (pageNr v) := by
  obtain ⟨top, ht, -, hmap⟩ := h.tables
  rw [mmuLookup_eq ht, hmap v hv]

/-- **The tables show the map** if each page is mapped below `2^40`, and only then: what
unmapping returns is cut to 40 bits. -/
theorem MmuOk.showsMap_iff {pml4 : Nat → Nat} {others : List PageFrame} {t : MmuRunSt}
    (h : MmuOk pml4 others t) : ShowsMap pml4 t ↔ t.MapsLow := by
  obtain ⟨top, ht, hb, hmap⟩ := h.tables
  have hun : ∀ v, UserAdr v → ∃ s', (halMmuUntransform v).run t.st =
      .ok ((t.map (pageNr v)).elim 0 mmumsaRetPadr, s') := by
    intro v hv
    obtain ⟨s', hrun, -⟩ := halMmuUntransform_spec ht hb hv
    rw [hmap v hv] at hrun
    exact ⟨s', hrun⟩
  constructor
  · intro hshows v hv f hf
    obtain ⟨s', hrun⟩ := hshows.untransform v hv
    obtain ⟨s'', hrun'⟩ := hun v hv
    have hret := (Prod.mk.inj (Except.ok.inj (hrun'.symm.trans hrun))).1
    rw [hf] at hret
    exact (mmumsaRetPadr_eq_iff f).mp hret
  · intro hlow
    refine ⟨h.lookup_eq, fun v hv => ?_, fun op hop => ?_, top, ht.tdirearr, ht.krl⟩
    · obtain ⟨s', hrun⟩ := hun v hv
      refine ⟨s', hrun.trans ?_⟩
      cases hf : t.map (pageNr v) with
      | none => rfl
      | some f => rw [Option.elim_some, Option.elim_some,
          (mmumsaRetPadr_eq_iff f).mpr (hlow v hv f hf)]
    · obtain ⟨t', hrun, _⟩ := mmuStep_ok h hop
      exact ⟨t', hrun⟩

/-- Pages that are mapped low stay so. -/
theorem mmuStep_mapsLow (t : MmuRunSt) (op : MmuOp) (t' : MmuRunSt) (h : t.MapsLow) (hop : op.Low)
    (hstep : mmuStep t op = .ok t') : t'.MapsLow := by
  unfold mmuStep at hstep
  split at hstep
  · cases hstep
  · next hproper =>
      have hproper := not_not.mp hproper
      cases op with
      | transform vadrs padrs flags =>
          obtain ⟨⟨r, s⟩, -, rfl⟩ := exists_of_map_ok hstep
          cases r with
          | false => exact h
          | true =>
              obtain ⟨-, h0, h1, h2, -⟩ := hproper
              obtain ⟨g, hadr, hg⟩ := exists_frameAddr h0 h1 h2
              intro v hv f hf
              change Function.update t.map (pageNr vadrs) (direFrame padrs) (pageNr v) = some f at hf
              by_cases he : pageNr v = pageNr vadrs
              · rw [he, Function.update_self, hg] at hf
                rw [← Option.some.inj hf, ← hadr]
                exact hop
              · rw [Function.update_of_ne he] at hf
                exact h v hv f hf
      | untransform vadrs =>
          obtain ⟨⟨retadr, s⟩, -, rfl⟩ := exists_of_map_ok hstep
          intro v hv f hf
          change Function.update t.map (pageNr vadrs) none (pageNr v) = some f at hf
          by_cases he : pageNr v = pageNr vadrs
          · rw [he, Function.update_self] at hf
            cases hf
          · rw [Function.update_of_ne he] at hf
            exact h v hv f hf

/-- **Page tables refine a finite map**: in every state that calls lead to, the tables
show the map of the calls that succeeded if and only if each page is mapped below `2^40`,
and so in every run that maps pages there only. -/
theorem mmu_showsMap_iff (pdptepd : Nat) {s₀ s : MmuSt} (h₀ : s₀.mmu = mmudscInit)
    (hinit : (halMmuInit (copyPagesData pdptepd)).run s₀ = .ok (true, s)) (ops : List MmuOp)
    {t : MmuRunSt} (hrun : run mmuStep ops (MmuRunSt.init s) = .ok t) :
    (ShowsMap (copyPagesData pdptepd) t ↔ t.MapsLow) ∧
      ((∀ op ∈ ops, op.Low) → ShowsMap (copyPagesData pdptepd) t) := by
  have h := run_mmuOk pdptepd h₀ hinit ops hrun
  refine ⟨h.showsMap_iff, fun hops => h.showsMap_iff.mpr ?_⟩
  have hstart : (MmuRunSt.init s).MapsLow := fun v _ f hf => by cases hf
  exact run_inv_of_allSteps MmuRunSt.MapsLow (fun _ op => op.Low) mmuStep_mapsLow ops _ t hstart
    (allSteps_of_forall ops _ hops) hrun

/-- A machine with frames 1, 2 and so on to hand out. -/
def freshMmu : MmuSt where
  tbl := fun _ _ => 0
  mmu := mmudscInit
  pgs := ⟨[], List.nodup_nil, fun n => direFrame ((n + 1) <<< 12), 0⟩

/-- Two pages that share tables, one of them unmapped again. -/
def mapTwo : List MmuOp :=
  [.transform 0x400000 0x7000000 7, .transform 0x401000 0x7001000 7, .untransform 0x400000]

/-- An address space that passes the test. -/
theorem exists_mmuInit {q : MmuSt → Bool}
    (h : okAnd ((halMmuInit (copyPagesData 0)).run freshMmu) (fun r => r.1 && q r.2) = true) :
    ∃ s, (halMmuInit (copyPagesData 0)).run freshMmu = .ok (true, s) ∧ q s = true := by
  obtain ⟨⟨r, s⟩, hr, hq⟩ := exists_of_okAnd h
  rw [Bool.and_eq_true] at hq
  simp only at hq
  rw [hq.1] at hr
  exact ⟨s, hr, hq.2⟩

theorem mmu_showsMap_mapTwo : ∃ t : MmuRunSt, t.map (pageNr 0x401000) = direFrame 0x7001000 ∧
    ShowsMap (copyPagesData 0) t := by
  obtain ⟨s, hinit, hq⟩ := exists_mmuInit (q := fun s => okAnd (run mmuStep mapTwo
    (MmuRunSt.init s)) fun t => t.map (pageNr 0x401000) = direFrame 0x7001000) (by decide +kernel)
  obtain ⟨t, hrun, ht⟩ := exists_of_okAnd hq
  exact ⟨t, of_decide_eq_true ht, (mmu_showsMap_iff 0 rfl hinit mapTwo hrun).2 (by decide)⟩

/-- A page that is mapped to the address `2^40`: unmapping it returns 0. -/
def mapHigh : List MmuOp := [.transform 0x400000 0x10000000000 7]

theorem mmu_not_showsMap : ¬ ∀ (s₀ s : MmuSt) (ops : List MmuOp) (t : MmuRunSt),
    s₀.mmu = mmudscInit → (halMmuInit (copyPagesData 0)).run s₀ = .ok (true, s) →
      run mmuStep ops (MmuRunSt.init s) = .ok t → ShowsMap (copyPagesData 0) t := by
  intro hall
  obtain ⟨s, hinit, hq⟩ := exists_mmuInit (q := fun s => okAnd (run mmuStep mapHigh
    (MmuRunSt.init s)) fun t => (t.map (pageNr 0x400000)).any fun f => frameAddr f ≠ 0 &&
      okAnd ((halMmuUntransform 0x400000).run t.st) fun r => r.1 = 0) (by decide +kernel)
  obtain ⟨t, hrun, ht⟩ := exists_of_okAnd hq
  rw [Option.any_eq_true] at ht
  obtain ⟨f, hf, ht⟩ := ht
  rw [Bool.and_eq_true] at ht
  obtain ⟨⟨r, s'⟩, hrun', hr⟩ := exists_of_okAnd ht.2
  obtain ⟨s'', hun⟩ := (hall freshMmu s mapHigh t rfl hinit hrun).untransform 0x400000 (by decide)
  have hret := (Prod.mk.inj (Except.ok.inj (hrun'.symm.trans hun))).1
  rw [hf] at hret
  exact of_decide_eq_true ht.1 (hret.symm.trans (of_decide_eq_true hr))

/-! ## The tables are exact -/

/-- A table of the level that the user half of `mud_tdirearr` leads to. -/
def TableAt (s : MmuSt) (lv : DirLevel) (f : PageFrame) : Prop :=
  ∃ top q, s.mmu.mudTdirearr = some top ∧ UserPath q ∧ q.length = lv.depth ∧
    s.walk top q = some f

/-- **Page-table pages are exact**; the frames of `others` were outstanding before. -/
structure TablesExact (others : List PageFrame) (s : MmuSt) : Prop where
  /-- no table is all zero -/
  nonzero : ∀ lv f, lv ≠ .tdir → TableAt s lv f → ∃ i, i < 512 ∧ s.tbl f i ≠ 0
  /-- the lists are the tables, each once, and the counters are their lengths -/
  head : ∀ lv f, f ∈ s.mmu.mudHead lv ↔ TableAt s lv f
  once : ∀ lv, (s.mmu.mudHead lv).Nodup
  apart : ∀ lv lv' f, f ∈ s.mmu.mudHead lv → f ∈ s.mmu.mudHead lv' → lv = lv'
  msanr : ∀ lv, s.mmu.mudMsanr lv = (s.mmu.mudHead lv).length
  /-- each is outstanding -/
  out : ∀ lv, ∀ f ∈ s.mmu.mudHead lv, f ∈ s.pgs.out
  /-- without pages there is only the top table -/
  held : (∀ v, UserAdr v → mmuLookup s v = none) →
    (∀ lv, lv ≠ .tdir → s.mmu.mudHead lv = []) ∧
    ∀ f, f ∈ s.pgs.out ↔ f ∈ others ∨ s.mmu.mudTdirearr = some f

/-- A table leads to a page. -/
theorem Busy.exists_page {s : MmuSt} {top : PageFrame} (h : Busy s top []) {q : List Nat}
    (hq : UserPath q) (h1 : 1 ≤ q.length) (h4 : q.length ≤ 4) (hw : s.walk top q ≠ none) :
    ∃ q', UserPath q' ∧ q'.length = 4 ∧ s.walk top q' ≠ none := by
  induction hn : 4 - q.length generalizing q with
  | zero => exact ⟨q, hq, by omega, hw⟩
  | succ n ih =>
      obtain ⟨i, hi, hc⟩ := h q hq h1 (by omega) List.not_mem_nil hw
      have hne : q ≠ [] := by
        rintro rfl
        cases h1
      refine ih (hq.cons hi hne) ?_ ?_ hc ?_ <;> rw [List.length_cons] <;> omega

theorem Tables.exact {pml4 : Nat → Nat} {others : List PageFrame} {s : MmuSt} {top : PageFrame}
    (h : Tables pml4 others s top) (hb : Busy s top []) : TablesExact others s := by
  have hat : ∀ lv f, TableAt s lv f ↔ ∃ q, UserPath q ∧ q.length = lv.depth ∧
      s.walk top q = some f := by
    intro lv f
    constructor
    · rintro ⟨top', q, htop, hq⟩
      rw [h.tdirearr] at htop
      cases htop
      exact ⟨q, hq⟩
    · rintro ⟨q, hq⟩
      exact ⟨top, q, h.tdirearr, hq⟩
  have hone : ∀ lv : DirLevel, lv ≠ .tdir → 1 ≤ lv.depth := by
    intro lv hlv
    cases lv with
    | tdir => exact absurd rfl hlv
    | sdir => decide
    | idir => decide
    | mdir => decide
  refine {
    nonzero := fun lv f hlv hf => ?_
    head := fun lv f => (h.head lv f).trans (hat lv f).symm
    once := h.nodup
    apart := fun lv lv' f hm hm' => ?_
    msanr := h.msanr
    out := fun lv f hm => (h.out f).mpr (Or.inr ⟨lv, hm⟩)
    held := fun hnone => ?_ }
  · obtain ⟨q, hq, hlen, hw⟩ := (hat lv f).mp hf
    obtain ⟨i, hi, hc⟩ := hb q hq (by rw [hlen]; exact hone lv hlv)
      (by rw [hlen]; exact depth_le lv) List.not_mem_nil (by rw [hw]; simp)
    refine ⟨i, hi, fun hz => hc ?_⟩
    rw [show s.walk top (i :: q) = s.nxt f i from walk_cons hw i]
    show direFrame (s.tbl f i) = none
    rw [hz, direFrame_zero]
  · obtain ⟨q, hq, hlen, hw⟩ := (h.head lv f).mp hm
    obtain ⟨q', hq', hlen', hw'⟩ := (h.head lv' f).mp hm'
    have he := h.apart q q' f hq hq' (by rw [hlen]; exact depth_le lv)
      (by rw [hlen']; exact depth_le lv') hw hw'
    rw [he] at hlen
    exact depth_inj (hlen.symm.trans hlen')
  · have hempty : ∀ lv, lv ≠ .tdir → ∀ f, f ∉ s.mmu.mudHead lv := by
      intro lv hlv f hm
      obtain ⟨q, hq, hlen, hw⟩ := (h.head lv f).mp hm
      have hle : lv.depth ≤ 3 := depth_le lv
      obtain ⟨q', hq', hlen', hw'⟩ := hb.exists_page hq (by rw [hlen]; exact hone lv hlv)
        (by omega) (by rw [hw]; simp)
      obtain ⟨v, hv, rfl⟩ := exists_vpath hq' hlen'
      rw [← mmuLookup_eq h, hnone v hv] at hw'
      exact hw' rfl
    refine ⟨fun lv hlv => List.eq_nil_iff_forall_not_mem.mpr (hempty lv hlv), fun f => ?_⟩
    rw [h.out f, h.tdirearr]
    have htop : f ∈ s.mmu.mudHead .tdir ↔ f = top := by
      rw [h.head]
      constructor
      · rintro ⟨q, _, hlen, hw⟩
        rw [List.length_eq_zero_iff.mp hlen] at hw
        exact (Option.some.inj hw).symm
      · rintro rfl
        exact ⟨[], trivial, rfl, rfl⟩
    constructor
    · rintro (hf | ⟨lv, hm⟩)
      · exact Or.inl hf
      · by_cases hlv : lv = .tdir
        · rw [hlv, htop] at hm
          rw [hm]
          exact Or.inr rfl
        · exact absurd hm (hempty lv hlv f)
    · rintro (hf | hf)
      · exact Or.inl hf
      · cases hf
        exact Or.inr ⟨.tdir, htop.mpr rfl⟩

/-- **The tables of an address space are exact**, in every state that calls lead to. -/
theorem mmu_tablesExact (pdptepd : Nat) {s₀ s : MmuSt} (h₀ : s₀.mmu = mmudscInit)
    (hinit : (halMmuInit (copyPagesData pdptepd)).run s₀ = .ok (true, s)) (ops : List MmuOp)
    {t : MmuRunSt} (hrun : run mmuStep ops (MmuRunSt.init s) = .ok t) :
    TablesExact s₀.pgs.out t.st := by
  obtain ⟨top, ht, hb, _⟩ := (run_mmuOk pdptepd h₀ hinit ops hrun).tables
  exact ht.exact hb

theorem mmu_tablesExact_mapTwo : ∃ t : MmuRunSt,
    t.st.mmu.mudMsanr .mdir = 1 ∧ TablesExact [] t.st := by
  obtain ⟨s, hinit, hq⟩ := exists_mmuInit (q := fun s => okAnd (run mmuStep mapTwo
    (MmuRunSt.init s)) fun t => t.st.mmu.mudMsanr .mdir = 1) (by decide +kernel)
  obtain ⟨t, hrun, ht⟩ := exists_of_okAnd hq
  exact ⟨t, of_decide_eq_true ht, mmu_tablesExact 0 rfl hinit mapTwo hrun⟩

end Cosmos.Hal
