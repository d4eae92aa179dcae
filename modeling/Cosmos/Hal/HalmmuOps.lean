import Cosmos.Hal.HalmmuInv

/-!
# Mapping and unmapping a page

What `hal_mmu_transform`, `hal_mmu_untransform` and `hal_mmu_init` do to the tree of
page tables.  In between, `Mid` is kept: the tables are in order, pages are mapped as
in a given state, and only tables on the path of the address may be empty.  Each level
that is made adds its path to these, each cleaning step takes the lowest one off.
-/

namespace Cosmos.Hal

open Cosmos.Lib Cosmos.Lib.Radix Cosmos.Lib.StM

/-- Nothing but the allocator's own state has changed. -/
def MmuSt.Same (s s' : MmuSt) : Prop :=
  s'.tbl = s.tbl ∧ s'.mmu = s.mmu ∧ s'.pgs.out = s.pgs.out

section Ops

variable {pml4 : Nat → Nat} {others : List PageFrame} {s₀ s s' : MmuSt} {top parent : PageFrame}
  {lv : DirLevel} {v : Nat} {l l' : List (List Nat)}

theorem MmuSt.Same.walk (h : s.Same s') (q : List Nat) : s'.walk top q = s.walk top q := by
  have hn : s'.nxt = s.nxt := by
    unfold MmuSt.nxt
    rw [h.1]
  unfold MmuSt.walk
  rw [hn]

theorem Tables.same (h : Tables pml4 others s top) (hs : s.Same s') :
    Tables pml4 others s' top := by
  obtain ⟨tbl, mmu, pgs⟩ := s
  obtain ⟨tbl', mmu', pgs'⟩ := s'
  obtain ⟨rfl, rfl, hout⟩ := hs
  exact { h with out := fun f => by rw [hout]; exact h.out f }

/-! ### Tables that may be empty -/

theorem Busy.mono (h : Busy s top l) (hl : ∀ q ∈ l, q ∈ l') : Busy s top l' :=
  fun q hq h1 h3 hm hw => h q hq h1 h3 (fun hx => hm (hl q hx)) hw

/-- The new table may be empty. -/
theorem Busy.link {p : List Nat} {g : PageFrame} (h : Busy s top l)
    (hs : Shift s s' top p (some g)) : Busy s' top (p :: l) := by
  intro q hq h1 h3 hm hw
  rw [List.mem_cons, not_or] at hm
  rw [hs.of_ne hq (by omega) hm.1] at hw
  obtain ⟨i, hi, hc⟩ := h q hq h1 h3 hm.2 hw
  have hne : q ≠ [] := by
    rintro rfl
    cases h1
  refine ⟨i, hi, ?_⟩
  rw [hs (i :: q) (hq.cons hi hne) (by rw [List.length_cons]; omega)]
  by_cases he : i :: q = p
  · rw [he, Function.update_self]
    simp
  · rw [Function.update_of_ne he]
    exact hc

/-- The table above the one that went may be empty now. -/
theorem Busy.unlink {i : Nat} {p : List Nat} (h : Busy s top ((i :: p) :: l))
    (hs : Shift s s' top (i :: p) none) (hp : p ∈ l ∨ p = []) : Busy s' top l := by
  intro q hq h1 h3 hm hw
  have hqp : q ≠ i :: p := by
    rintro rfl
    exact hw (hs.at hq (by omega))
  rw [hs.of_ne hq (by omega) hqp] at hw
  obtain ⟨j, hj, hc⟩ := h q hq h1 h3 (by simp [hqp, hm]) hw
  have hne : q ≠ [] := by
    rintro rfl
    cases h1
  refine ⟨j, hj, ?_⟩
  rw [hs.of_ne (hq.cons hj hne) (by rw [List.length_cons]; omega)]
  · exact hc
  · rintro he
    cases he
    rcases hp with hp | rfl
    · exact hm hp
    · exact hne rfl

/-- A table that is not empty, or not there, need not be excepted. -/
theorem Busy.drop {p : List Nat} (h : Busy s top (p :: l))
    (hp : s.walk top p = none ∨ ∃ i, i < 512 ∧ s.walk top (i :: p) ≠ none) : Busy s top l := by
  intro q hq h1 h3 hm hw
  by_cases hqp : q = p
  · subst hqp
    exact hp.resolve_left hw
  · exact h q hq h1 h3 (by simp [hqp, hm]) hw

/-- Pages are no tables. -/
theorem Busy.drop_page {p : List Nat} (h : Busy s top (p :: l)) (hp : 3 < p.length) :
    Busy s top l := by
  intro q hq h1 h3 hm hw
  refine h q hq h1 h3 (fun hx => ?_) hw
  rcases List.mem_cons.mp hx with rfl | hx
  · omega
  · exact hm hx

/-! ### Between the steps -/

/-- The tables while the code works on the paths of `l`, with the pages of `s₀`.  The frames
of others are not touched. -/
structure Mid (pml4 : Nat → Nat) (others : List PageFrame) (top : PageFrame) (s₀ s : MmuSt)
    (l : List (List Nat)) : Prop where
  tables : Tables pml4 others s top
  busy : Busy s top l
  pages : ∀ q, UserPath q → q.length = 4 → s.walk top q = s₀.walk top q
  kept : ∀ f ∈ others, s.tbl f = s₀.tbl f

theorem Mid.mono (h : Mid pml4 others top s₀ s l) (hl : ∀ q ∈ l, q ∈ l') :
    Mid pml4 others top s₀ s l' :=
  { h with busy := h.busy.mono hl }

theorem Mid.same (h : Mid pml4 others top s₀ s l) (hs : s.Same s') :
    Mid pml4 others top s₀ s' l where
  tables := h.tables.same hs
  busy q hq h1 h3 hm hw := by
    rw [hs.walk] at hw
    obtain ⟨i, hi, hc⟩ := h.busy q hq h1 h3 hm hw
    exact ⟨i, hi, by rw [hs.walk]; exact hc⟩
  pages q hq hlen := by rw [hs.walk, h.pages q hq hlen]
  kept f hf := by rw [hs.1, h.kept f hf]

/-- A step on a table keeps the pages. -/
theorem Mid.shift (h : Mid pml4 others top s₀ s l) {p : List Nat} {o : Option PageFrame}
    (ht : Tables pml4 others s' top) (hs : Shift s s' top p o) (hp : p.length ≤ 3)
    (hk : ∀ f ∈ others, s'.tbl f = s.tbl f) (hb : Busy s' top l') :
    Mid pml4 others top s₀ s' l' where
  tables := ht
  busy := hb
  pages q hq hlen := by
    rw [hs.of_ne hq (by omega), h.pages q hq hlen]
    rintro rfl
    omega
  kept f hf := by rw [hk f hf, h.kept f hf]

/-! ### The steps -/

theorem mmuNewDirearr_spec (lv : DirLevel) (s : MmuSt) :
    (∃ pgs, pgs.out = s.pgs.out ∧
      (mmuNewDirearr lv).run s = .ok (none, { s with pgs := pgs })) ∨
    ∃ g pgs, g ∉ s.pgs.out ∧ pgs.out = g :: s.pgs.out ∧ (mmuNewDirearr lv).run s =
      .ok (some g, ⟨Function.update s.tbl g fun _ => 0, s.mmu.addMsa lv g, pgs⟩) := by
  have hrun : (mmuNewDirearr lv).run s = _ :=
    run_bind_ok (show (get : MmuM MmuSt).run s = .ok (s, s) from rfl)
  have hcases := s.pgs.take_cases
  rcases htake : s.pgs.take with ⟨o, pgs⟩
  rw [htake] at hcases
  simp only [htake] at hrun
  rcases hcases with ⟨ho, hout⟩ | ⟨g, ho, hg, hout⟩
  · simp only at ho hout
    subst ho
    exact Or.inl ⟨pgs, hout, hrun⟩
  · simp only at ho hout
    subst ho
    exact Or.inr ⟨g, pgs, hg, hout, hrun⟩

/-- **The table of a level is found or made**, or there is no page for it. -/
theorem mmuTransformDire_spec (h : Mid pml4 others top s₀ s l) (hlv : lv ≠ .tdir)
    (hu : UserAdr v) (hp : s.walk top (lv.up.path v) = some parent) {flags : Nat}
    (hfl : FlagBits flags) :
    ∃ r s', (mmuTransformDire lv parent v flags).run s = .ok (r, s') ∧
      ((r = (none, none) ∧ s.Same s' ∧ Mid pml4 others top s₀ s' l) ∨
      ∃ g msa, r = (some g, msa) ∧ s'.walk top (lv.path v) = some g ∧
        Mid pml4 others top s₀ s' (lv.path v :: l) ∧ (msa = none ∨ msa = some g) ∧
        ∀ q, UserPath q → q.length ≤ 4 → q ≠ lv.path v → s'.walk top q = s.walk top q) := by
  have hwalk := walk_path hlv hp
  have hupper : (lv.up.path v).length ≤ 3 := by
    rw [path_length]
    exact depth_le _
  have hpar := h.tables.not_mem_others (path_user hu lv.up) hupper hp
  have hrun : (mmuTransformDire lv parent v flags).run s = _ :=
    run_bind_ok (show (get : MmuM MmuSt).run s = .ok (s, s) from rfl)
  cases hd : direFrame (s.tbl parent (lv.index v)) with
  | some g =>
      simp only [hd] at hrun
      refine ⟨_, _, hrun, Or.inr ⟨g, none, rfl, ?_, h.mono fun q hq => List.mem_cons_of_mem _ hq,
        Or.inl rfl, fun q _ _ _ => rfl⟩⟩
      rw [hwalk]
      exact hd
  | none =>
      simp only [hd] at hrun
      have hfree : s.walk top (lv.path v) = none := by
        rw [hwalk]
        exact hd
      rcases mmuNewDirearr_spec lv s with ⟨pgs, hout, hnew⟩ | ⟨g, pgs, hg, hout, hnew⟩
      · rw [run_bind_ok hnew] at hrun
        have hsame : s.Same { s with pgs := pgs } := ⟨rfl, rfl, hout⟩
        exact ⟨_, _, hrun, Or.inl ⟨rfl, hsame, h.same hsame⟩⟩
      · rw [run_bind_ok hnew] at hrun
        obtain ⟨ht, hs⟩ := h.tables.link hlv hu hp hfree hg hfl hout
        have hlen : (lv.path v).length ≤ 3 := by
          rw [path_length]
          exact depth_le lv
        exact ⟨_, _, hrun, Or.inr ⟨g, some g, rfl, hs.at (path_user hu lv) (by omega),
          h.shift ht hs hlen (h.tables.link_kept hpar hg) (h.busy.link hs), Or.inr rfl,
          fun q hq hql hne => hs.of_ne hq hql hne⟩⟩

theorem direarrIsAllzero_iff (s : MmuSt) (f : PageFrame) :
    direarrIsAllzero s f = true ↔ ∀ i, i < 512 → s.tbl f i = 0 := by
  unfold direarrIsAllzero
  rw [List.all_eq_true]
  constructor
  · intro h i hi
    exact of_decide_eq_true (h i (List.mem_range.mpr hi))
  · intro h i hi
    exact decide_eq_true (h i (List.mem_range.mp hi))

theorem mmuDelDirearr_run (msa : Option PageFrame) {g : PageFrame}
    (hg : g ∈ s.mmu.mudHead lv) (hout : g ∈ s.pgs.out) :
    ∃ pgs, pgs.out = s.pgs.out.erase g ∧ (mmuDelDirearr lv g msa).run s =
      .ok (true, { s with mmu := s.mmu.delMsa lv g, pgs := pgs }) := by
  obtain ⟨pgs, hgive, hpgs⟩ := Supply.give_of_mem hout
  refine ⟨pgs, hpgs, ?_⟩
  unfold mmuDelDirearr
  rw [run_bind_ok (show (get : MmuM MmuSt).run s = .ok (s, s) from rfl), if_pos (Or.inr hg), hgive]
  rfl

/-- **A table of the path is cleaned away if it is empty.** -/
theorem mmuUntransformDire_spec (h : Mid pml4 others top s₀ s (lv.path v :: l)) (hlv : lv ≠ .tdir)
    (hu : UserAdr v) (hp : s.walk top (lv.up.path v) = some parent)
    (hl : lv.up.path v ∈ l ∨ lv.up.path v = []) (msa : Option PageFrame) :
    ∃ s', (mmuUntransformDire lv parent msa v).run s = .ok (true, s') ∧
      Mid pml4 others top s₀ s' l ∧
      ∀ q, UserPath q → q.length ≤ 4 → q ≠ lv.path v → s'.walk top q = s.walk top q := by
  have hwalk := walk_path hlv hp
  have huser := path_user hu lv
  have hupper : (lv.up.path v).length ≤ 3 := by
    rw [path_length]
    exact depth_le _
  have hpar := h.tables.not_mem_others (path_user hu lv.up) hupper hp
  have hlen : (lv.path v).length ≤ 3 := by
    rw [path_length]
    exact depth_le lv
  have hrun : (mmuUntransformDire lv parent msa v).run s = _ :=
    run_bind_ok (show (get : MmuM MmuSt).run s = .ok (s, s) from rfl)
  cases hd : direFrame (s.tbl parent (lv.index v)) with
  | none =>
      simp only [hd] at hrun
      exact ⟨s, hrun, { h with busy := h.busy.drop (Or.inl (hwalk.trans hd)) },
        fun q _ _ _ => rfl⟩
  | some g =>
      simp only [hd] at hrun
      have hg : s.walk top (lv.path v) = some g := hwalk.trans hd
      by_cases hz : direarrIsAllzero s g = true
      · rw [hz] at hrun
        have hmem : g ∈ s.mmu.mudHead lv :=
          (h.tables.head lv g).mpr ⟨_, huser, path_length lv v, hg⟩
        obtain ⟨pgs, hpgs, hdel⟩ := mmuDelDirearr_run msa hmem
          (h.tables.mem_out huser hlen hg)
        simp only [Bool.not_true, Bool.false_eq_true, if_false] at hrun
        rw [run_bind_ok hdel] at hrun
        obtain ⟨ht, hs⟩ := h.tables.unlink hlv hu hp hg ((direarrIsAllzero_iff s g).mp hz) hpgs
        have hb := h.busy
        rw [path_eq hlv] at hb
        refine ⟨_, hrun, h.shift ht hs hlen (fun f hf =>
          setEntry_of_ne _ _ _ fun he => hpar (he ▸ hf)) (hb.unlink ?_ hl), fun q hq hql hne =>
          hs.of_ne hq hql hne⟩
        rw [← path_eq hlv]
        exact hs
      · rw [Bool.not_eq_true] at hz
        rw [hz] at hrun
        have hnz : ¬ ∀ i, i < 512 → s.tbl g i = 0 := by
          rw [← direarrIsAllzero_iff, hz]
          decide
        push Not at hnz
        obtain ⟨i, hi, hne⟩ := hnz
        have hpne : lv.path v ≠ [] := by
          rw [path_eq hlv]
          simp
        refine ⟨s, hrun, { h with busy := h.busy.drop (Or.inr ⟨i, hi, ?_⟩) }, fun q _ _ _ => rfl⟩
        rw [show s.walk top (i :: lv.path v) = s.nxt g i from walk_cons hg i]
        exact h.tables.entry _ g i (huser.cons hi hpne) hlen hg hne

/-! ### Cleaning a path -/

theorem untfSdire_spec (h : Mid pml4 others top s₀ s [DirLevel.sdir.path v]) (hu : UserAdr v)
    (msa : Option PageFrame) :
    ∃ s', (untfSdire top msa v).run s = .ok (false, s') ∧ Mid pml4 others top s₀ s' [] := by
  obtain ⟨s', hrun, hmid, _⟩ :=
    mmuUntransformDire_spec h (by decide) hu rfl (Or.inr rfl) msa
  refine ⟨s', ?_, hmid⟩
  unfold untfSdire
  rw [run_bind_ok hrun]
  rfl

theorem untfIdire_spec {sdirearr : PageFrame}
    (h : Mid pml4 others top s₀ s [DirLevel.idir.path v, DirLevel.sdir.path v]) (hu : UserAdr v)
    (hp : s.walk top (DirLevel.sdir.path v) = some sdirearr) (smsa imsa : Option PageFrame) :
    ∃ s', (untfIdire top sdirearr smsa imsa v).run s = .ok (false, s') ∧
      Mid pml4 others top s₀ s' [] := by
  obtain ⟨s₁, hrun, hmid, _⟩ :=
    mmuUntransformDire_spec h (by decide) hu hp (Or.inl (by simp [DirLevel.up])) imsa
  obtain ⟨s', hrest, hend⟩ := untfSdire_spec hmid hu smsa
  refine ⟨s', ?_, hend⟩
  unfold untfIdire
  rw [run_bind_ok hrun]
  exact hrest

theorem untfMdire_spec {sdirearr idirearr : PageFrame}
    (h : Mid pml4 others top s₀ s
      [DirLevel.mdir.path v, DirLevel.idir.path v, DirLevel.sdir.path v]) (hu : UserAdr v)
    (hps : s.walk top (DirLevel.sdir.path v) = some sdirearr)
    (hpi : s.walk top (DirLevel.idir.path v) = some idirearr)
    (smsa imsa mmsa : Option PageFrame) :
    ∃ s', (untfMdire top sdirearr idirearr smsa imsa mmsa v).run s = .ok (false, s') ∧
      Mid pml4 others top s₀ s' [] := by
  obtain ⟨s₁, hrun, hmid, hkeep⟩ :=
    mmuUntransformDire_spec h (by decide) hu hpi (Or.inl (by simp [DirLevel.up])) mmsa
  have hps' : s₁.walk top (DirLevel.sdir.path v) = some sdirearr := by
    rw [hkeep _ (path_user hu .sdir) (by simp [DirLevel.path]) (by simp [DirLevel.path])]
    exact hps
  obtain ⟨s', hrest, hend⟩ := untfIdire_spec hmid hu hps' smsa imsa
  refine ⟨s', ?_, hend⟩
  unfold untfMdire
  rw [run_bind_ok hrun]
  exact hrest

/-! ### The calls -/

/-- No user page but that of `v` is mapped otherwise, and that of `v` to `o`. -/
def PageShift (s s' : MmuSt) (top : PageFrame) (v : Nat) (o : Option PageFrame) : Prop :=
  ∀ q, UserPath q → q.length = 4 → s'.walk top q = Function.update (s.walk top) (vpath v) o q

theorem Mid.pageShift (h : Mid pml4 others top s₀ s l) : PageShift s₀ s top v
    (s₀.walk top (vpath v)) := by
  intro q hq hlen
  rw [h.pages q hq hlen, Function.update_eq_self]

/-- **`hal_mmu_transform`** maps the page, or fails and no page is mapped otherwise; the
frames of others are as before. -/
theorem halMmuTransform_spec (h : Tables pml4 others s top) (hb : Busy s top []) (hu : UserAdr v)
    (f : PageFrame) {flags : Nat} (hfl : FlagBits flags) :
    ∃ r s', (halMmuTransform v (frameAddr f) flags).run s = .ok (r, s') ∧
      Tables pml4 others s' top ∧ Busy s' top [] ∧
      PageShift s s' top v (if r then some f else s.walk top (vpath v)) ∧
      ∀ g ∈ others, s'.tbl g = s.tbl g := by
  have hmid : Mid pml4 others top s s [] := ⟨h, hb, fun _ _ _ => rfl, fun _ _ => rfl⟩
  have hdone : ∀ {s'}, Mid pml4 others top s s' [] →
      (halMmuTransform v (frameAddr f) flags).run s = .ok (false, s') →
      ∃ r s', (halMmuTransform v (frameAddr f) flags).run s = .ok (r, s') ∧
        Tables pml4 others s' top ∧ Busy s' top [] ∧
        PageShift s s' top v (if r then some f else s.walk top (vpath v)) ∧
        ∀ g ∈ others, s'.tbl g = s.tbl g :=
    fun hm hrun => ⟨false, _, hrun, hm.tables, hm.busy, hm.pageShift, hm.kept⟩
  have hrun : (halMmuTransform v (frameAddr f) flags).run s = _ :=
    run_bind_ok (show (get : MmuM MmuSt).run s = .ok (s, s) from rfl)
  simp only [h.tdirearr] at hrun
  have hps : ∀ lv : DirLevel, UserPath (lv.path v) := path_user hu
  -- the second level
  obtain ⟨r₁, s₁, hrun₁, ⟨rfl, hsame₁, hm₁⟩ | ⟨sdirearr, smsa, rfl, hw₁, hm₁, _, hk₁⟩⟩ :=
    mmuTransformDire_spec hmid (by decide : DirLevel.sdir ≠ .tdir) hu rfl hfl
  · rw [run_bind_ok hrun₁] at hrun
    obtain ⟨s', hun, hm⟩ := untfSdire_spec (hm₁.mono fun q hq => by cases hq) hu none
    exact hdone hm (hrun.trans hun)
  rw [run_bind_ok hrun₁] at hrun
  -- the third level
  obtain ⟨r₂, s₂, hrun₂, ⟨rfl, hsame₂, hm₂⟩ | ⟨idirearr, imsa, rfl, hw₂, hm₂, _, hk₂⟩⟩ :=
    mmuTransformDire_spec hm₁ (by decide : DirLevel.idir ≠ .tdir) hu hw₁ hfl
  · simp only at hrun
    rw [run_bind_ok hrun₂] at hrun
    obtain ⟨s', hun, hm⟩ := untfIdire_spec
      (hm₂.mono fun q hq => List.mem_cons_of_mem _ hq) hu
      (by rw [hsame₂.walk]; exact hw₁) smsa none
    exact hdone hm (hrun.trans hun)
  simp only at hrun
  rw [run_bind_ok hrun₂] at hrun
  have hw₁' : s₂.walk top (DirLevel.sdir.path v) = some sdirearr := by
    rw [hk₂ _ (hps .sdir) (by simp [DirLevel.path]) (by simp [DirLevel.path])]
    exact hw₁
  -- the last level
  obtain ⟨r₃, s₃, hrun₃, ⟨rfl, hsame₃, hm₃⟩ | ⟨mdirearr, mmsa, rfl, hw₃, hm₃, _, hk₃⟩⟩ :=
    mmuTransformDire_spec hm₂ (by decide : DirLevel.mdir ≠ .tdir) hu hw₂ hfl
  · simp only at hrun
    rw [run_bind_ok hrun₃] at hrun
    obtain ⟨s', hun, hm⟩ := untfMdire_spec
      (hm₃.mono fun q hq => List.mem_cons_of_mem _ hq) hu
      (by rw [hsame₃.walk]; exact hw₁') (by rw [hsame₃.walk]; exact hw₂) smsa imsa none
    exact hdone hm (hrun.trans hun)
  simp only at hrun
  rw [run_bind_ok hrun₃] at hrun
  have hentry : direFrame (direEntry (frameAddr f) flags) = some f := direFrame_direEntry f hfl
  obtain ⟨ht, hs⟩ := hm₃.tables.setPage hu hw₃ (e := direEntry (frameAddr f) flags)
    fun _ => by rw [hentry]; simp
  rw [hentry] at hs
  have hmdir := hm₃.tables.not_mem_others (hps .mdir) (Nat.le_refl 3) hw₃
  refine ⟨true, _, hrun, ht, ?_, fun q hq hlen => ?_, fun g hg => ?_⟩
  · -- the tables of the path are not empty: each holds the next one, the last one the page
    have hw₂' : s₃.walk top (DirLevel.idir.path v) = some idirearr := by
      rw [hk₃ _ (hps .idir) (by simp [DirLevel.path]) (by simp [DirLevel.path])]
      exact hw₂
    have hlink := (hm₃.busy.link hs).drop_page (show 3 < (vpath v).length from Nat.lt_succ_self 3)
    have hlow : ∀ lv : DirLevel, lv.path v ≠ vpath v := by
      intro lv he
      have hlen := congrArg List.length he
      rw [path_length] at hlen
      cases lv <;> cases hlen
    have hkeep : ∀ lv : DirLevel,
        (s₃.setEntry mdirearr (mmuMdireIndex v) (direEntry (frameAddr f) flags)).walk top
          (lv.path v) = s₃.walk top (lv.path v) := fun lv =>
      hs.of_ne (hps lv) (by rw [path_length]; cases lv <;> decide) (hlow lv)
    refine ((hlink.drop (Or.inr ⟨mmuMdireIndex v, mmuMdireIndex_lt v, ?_⟩)).drop
      (Or.inr ⟨mmuIdireIndex v, index_lt .mdir v, ?_⟩)).drop
      (Or.inr ⟨mmuSdireIndex v, index_lt .idir v, ?_⟩)
    · rw [show mmuMdireIndex v :: DirLevel.mdir.path v = vpath v from rfl,
        hs.at (vpath_user hu) (Nat.le_refl 4)]
      simp
    · rw [show mmuIdireIndex v :: DirLevel.idir.path v = DirLevel.mdir.path v from rfl, hkeep,
        hw₃]
      simp
    · rw [show mmuSdireIndex v :: DirLevel.sdir.path v = DirLevel.idir.path v from rfl, hkeep,
        hw₂']
      simp
  · rw [hs q hq (by omega)]
    by_cases hqv : q = vpath v
    · rw [hqv, Function.update_self, Function.update_self]
      rfl
    · rw [Function.update_of_ne hqv, Function.update_of_ne hqv, hm₃.pages q hq hlen]
  · have hne : g ≠ mdirearr := fun he => hmdir (he ▸ hg)
    exact (setEntry_of_ne s₃ _ _ hne).trans (hm₃.kept g hg)

/-- The labels of `hal_mmu_untransform` after the page is unmapped. -/
theorem untransformPath_spec {sdirearr idirearr : PageFrame}
    (h : Mid pml4 others top s₀ s
      [DirLevel.mdir.path v, DirLevel.idir.path v, DirLevel.sdir.path v]) (hu : UserAdr v)
    (hps : s.walk top (DirLevel.sdir.path v) = some sdirearr)
    (hpi : s.walk top (DirLevel.idir.path v) = some idirearr) (retadr : Nat) :
    ∃ s', (do
        let _ ← mmuUntransformDire .mdir idirearr none v
        let _ ← mmuUntransformDire .idir sdirearr none v
        let _ ← mmuUntransformDire .sdir top none v
        return retadr : MmuM Nat).run s = .ok (retadr, s') ∧ Mid pml4 others top s₀ s' [] := by
  obtain ⟨s₁, hrun₁, hm₁, hk₁⟩ :=
    mmuUntransformDire_spec h (by decide) hu hpi (Or.inl (by simp [DirLevel.up])) none
  have hps' : s₁.walk top (DirLevel.sdir.path v) = some sdirearr := by
    rw [hk₁ _ (path_user hu .sdir) (by simp [DirLevel.path]) (by simp [DirLevel.path])]
    exact hps
  obtain ⟨s₂, hrun₂, hm₂, _⟩ :=
    mmuUntransformDire_spec hm₁ (by decide) hu hps' (Or.inl (by simp [DirLevel.up])) none
  obtain ⟨s₃, hrun₃, hm₃, _⟩ := mmuUntransformDire_spec hm₂ (by decide) hu rfl (Or.inr rfl) none
  refine ⟨s₃, ?_, hm₃⟩
  rw [run_bind_ok hrun₁, run_bind_ok hrun₂, run_bind_ok hrun₃]
  rfl

/-- **`hal_mmu_untransform`** unmaps the page and returns the address of its entry; the frames of
others are as before. -/
theorem halMmuUntransform_spec (h : Tables pml4 others s top) (hb : Busy s top [])
    (hu : UserAdr v) :
    ∃ s', (halMmuUntransform v).run s = .ok ((s.walk top (vpath v)).elim 0 mmumsaRetPadr, s') ∧
      Tables pml4 others s' top ∧ Busy s' top [] ∧ PageShift s s' top v none ∧
      ∀ g ∈ others, s'.tbl g = s.tbl g := by
  have hmid : Mid pml4 others top s s [] := ⟨h, hb, fun _ _ _ => rfl, fun _ _ => rfl⟩
  -- nothing mapped: the call only looks for empty tables, and there are none
  have hnone : s.walk top (vpath v) = none → ∀ {s'}, Mid pml4 others top s s' [] →
      (halMmuUntransform v).run s = .ok (0, s') →
      ∃ s', (halMmuUntransform v).run s = .ok ((s.walk top (vpath v)).elim 0 mmumsaRetPadr, s') ∧
        Tables pml4 others s' top ∧ Busy s' top [] ∧ PageShift s s' top v none ∧
        ∀ g ∈ others, s'.tbl g = s.tbl g := by
    intro hw s' hm hrun
    refine ⟨s', ?_, hm.tables, hm.busy, ?_, hm.kept⟩
    · rw [hw]
      exact hrun
    · have hp := hm.pageShift (v := v)
      rw [hw] at hp
      exact hp
  have hrun : (halMmuUntransform v).run s = _ :=
    run_bind_ok (show (get : MmuM MmuSt).run s = .ok (s, s) from rfl)
  simp only [h.tdirearr] at hrun
  have hws : s.walk top (DirLevel.sdir.path v) = mmuFindDirearr s .sdir top v :=
    walk_path (by decide) rfl
  cases hfs : mmuFindDirearr s .sdir top v with
  | none =>
      simp only [hfs] at hrun
      rw [hfs] at hws
      refine hnone ?_ hmid hrun
      exact walk_cons_none (walk_cons_none (walk_cons_none hws _) _) _
  | some sdirearr =>
      simp only [hfs] at hrun
      rw [hfs] at hws
      have hwi : s.walk top (DirLevel.idir.path v) = mmuFindDirearr s .idir sdirearr v :=
        walk_path (by decide) hws
      cases hfi : mmuFindDirearr s .idir sdirearr v with
      | none =>
          simp only [hfi] at hrun
          rw [hfi] at hwi
          obtain ⟨s₁, hrun₁, hm₁, _⟩ := mmuUntransformDire_spec
            (hmid.mono fun q hq => by cases hq) (by decide : DirLevel.sdir ≠ .tdir) hu rfl
            (Or.inr rfl) none
          rw [run_bind_ok hrun₁] at hrun
          exact hnone (walk_cons_none (walk_cons_none hwi _) _) hm₁ hrun
      | some idirearr =>
          simp only [hfi] at hrun
          rw [hfi] at hwi
          have hwm : s.walk top (DirLevel.mdir.path v) = mmuFindDirearr s .mdir idirearr v :=
            walk_path (by decide) hwi
          cases hfm : mmuFindDirearr s .mdir idirearr v with
          | none =>
              simp only [hfm] at hrun
              rw [hfm] at hwm
              obtain ⟨s₁, hrun₁, hm₁, hk₁⟩ := mmuUntransformDire_spec
                (l := [DirLevel.sdir.path v]) (hmid.mono fun q hq => by cases hq)
                (by decide : DirLevel.idir ≠ .tdir) hu hws (Or.inl (by simp [DirLevel.up])) none
              obtain ⟨s₂, hrun₂, hm₂, _⟩ := mmuUntransformDire_spec hm₁
                (by decide : DirLevel.sdir ≠ .tdir) hu rfl (Or.inr rfl) none
              rw [run_bind_ok hrun₁, run_bind_ok hrun₂] at hrun
              exact hnone (walk_cons_none hwm _) hm₂ hrun
          | some mdirearr =>
              simp only [hfm] at hrun
              rw [hfm] at hwm
              have hwv : s.walk top (vpath v) =
                  direFrame (s.tbl mdirearr (mmuMdireIndex v)) := walk_cons hwm _
              have hmsa : (mmuUntransformMsa mdirearr v).run s = _ :=
                run_bind_ok (show (get : MmuM MmuSt).run s = .ok (s, s) from rfl)
              cases hfp : direFrame (s.tbl mdirearr (mmuMdireIndex v)) with
              | none =>
                  simp only [hfp] at hmsa
                  rw [run_bind_ok hmsa] at hrun
                  obtain ⟨s₁, hrest, hm₁⟩ := untransformPath_spec
                    (hmid.mono fun q hq => by cases hq) hu hws hwi 0
                  exact hnone (hwv.trans hfp) hm₁ (hrun.trans hrest)
              | some f =>
                  simp only [hfp] at hmsa
                  rw [run_bind_ok hmsa] at hrun
                  obtain ⟨ht, hs⟩ := h.setPage hu hwm (e := 0) fun he => absurd rfl he
                  rw [direFrame_zero] at hs
                  have hlow : ∀ lv : DirLevel, lv.path v ≠ vpath v := by
                    intro lv he
                    have hlen := congrArg List.length he
                    rw [path_length] at hlen
                    cases lv <;> cases hlen
                  have hkeep : ∀ lv : DirLevel,
                      (s.setEntry mdirearr (mmuMdireIndex v) 0).walk top (lv.path v)
                        = s.walk top (lv.path v) := fun lv =>
                    hs.of_ne (path_user hu lv) (by rw [path_length]; cases lv <;> decide) (hlow lv)
                  have hbusy : Busy (s.setEntry mdirearr (mmuMdireIndex v) 0) top
                      [DirLevel.mdir.path v, DirLevel.idir.path v, DirLevel.sdir.path v] :=
                    (hb.mono fun q hq => by cases hq).unlink hs (Or.inl (by simp))
                  obtain ⟨s₁, hrest, hm₁⟩ := untransformPath_spec
                    ⟨ht, hbusy, fun _ _ _ => rfl, fun _ _ => rfl⟩ hu ((hkeep .sdir).trans hws)
                    ((hkeep .idir).trans hwi) (mmumsaRetPadr f)
                  have hmdir := h.not_mem_others (path_user hu .mdir) (Nat.le_refl 3) hwm
                  refine ⟨s₁, ?_, hm₁.tables, hm₁.busy, fun q hq hlen => ?_, fun g hg => ?_⟩
                  · rw [hwv, hfp]
                    exact hrun.trans hrest
                  · rw [hm₁.pages q hq hlen, hs q hq (by omega)]
                  · have hne : g ≠ mdirearr := fun he => hmdir (he ▸ hg)
                    exact (hm₁.kept g hg).trans (setEntry_of_ne s _ _ hne)

/-! ### Unmapping takes no page -/

theorem mmuDelDirearr_out {g : PageFrame} {msa : Option PageFrame} {b : Bool}
    (h : (mmuDelDirearr lv g msa).run s = .ok (b, s')) : s'.pgs.out ⊆ s.pgs.out := by
  obtain ⟨_, _, h₁, h⟩ := run_bind_inv h
  cases h₁
  split at h
  · cases hg : s.pgs.give g with
    | none =>
        rw [hg] at h
        cases h
    | some pgs =>
        rw [hg] at h
        cases h
        intro f hf
        change f ∈ pgs.out at hf
        rw [(Supply.give_inv hg).2] at hf
        exact List.mem_of_mem_erase hf
  · cases h
    exact fun _ hf => hf

theorem mmuUntransformDire_out {msa : Option PageFrame} {b : Bool}
    (h : (mmuUntransformDire lv parent msa v).run s = .ok (b, s')) : s'.pgs.out ⊆ s.pgs.out := by
  obtain ⟨_, _, h₁, h⟩ := run_bind_inv h
  cases h₁
  split at h
  · cases h
    exact fun _ hf => hf
  · split at h
    · cases h
      exact fun _ hf => hf
    · obtain ⟨gone, s₁, hdel, h⟩ := run_bind_inv h
      have hout := mmuDelDirearr_out hdel
      split at h
      · cases h
        exact hout
      · cases h
        exact hout

/-- **`hal_mmu_untransform`** takes no page. -/
theorem halMmuUntransform_out {phyadrs : Nat}
    (h : (halMmuUntransform v).run s = .ok (phyadrs, s')) : s'.pgs.out ⊆ s.pgs.out := by
  obtain ⟨_, _, h₁, h⟩ := run_bind_inv h
  cases h₁
  split at h
  · cases h
    exact fun _ hf => hf
  split at h
  · cases h
    exact fun _ hf => hf
  split at h
  · obtain ⟨_, s₁, h₁, h⟩ := run_bind_inv h
    cases h
    exact mmuUntransformDire_out h₁
  split at h
  · obtain ⟨_, s₁, h₁, h⟩ := run_bind_inv h
    obtain ⟨_, s₂, h₂, h⟩ := run_bind_inv h
    cases h
    exact fun f hf => mmuUntransformDire_out h₁ (mmuUntransformDire_out h₂ hf)
  · obtain ⟨retadr, s₀, hmsa, h⟩ := run_bind_inv h
    obtain ⟨_, s₁, h₁, h⟩ := run_bind_inv h
    obtain ⟨_, s₂, h₂, h⟩ := run_bind_inv h
    obtain ⟨_, s₃, h₃, h⟩ := run_bind_inv h
    cases h
    have hfirst : s₀.pgs = s.pgs := by
      obtain ⟨_, _, h₄, hmsa⟩ := run_bind_inv hmsa
      cases h₄
      split at hmsa <;> cases hmsa <;> rfl
    intro f hf
    have hf₀ := mmuUntransformDire_out h₁ (mmuUntransformDire_out h₂ (mmuUntransformDire_out h₃ hf))
    rw [hfirst] at hf₀
    exact hf₀

/-! ### Mapping gives none back -/

theorem mmuTransformDire_out {flags : Nat} {o : Option PageFrame × Option PageFrame}
    (h : (mmuTransformDire lv parent v flags).run s = .ok (o, s')) : s.pgs.out ⊆ s'.pgs.out := by
  obtain ⟨_, _, h₁, h⟩ := run_bind_inv h
  cases h₁
  split at h
  · cases h
    exact fun _ hf => hf
  · obtain ⟨m, s₁, hnew, h⟩ := run_bind_inv h
    have hout : s.pgs.out ⊆ s₁.pgs.out := by
      obtain ⟨_, _, h₂, hnew⟩ := run_bind_inv hnew
      cases h₂
      have hcases := s.pgs.take_cases
      rcases htake : s.pgs.take with ⟨o', pgs⟩
      rw [htake] at hcases hnew
      rcases hcases with ⟨ho, hout⟩ | ⟨g, ho, -, hout⟩
      · simp only at ho hout
        subst ho
        cases hnew
        exact fun f hf => hout.symm ▸ hf
      · simp only at ho hout
        subst ho
        cases hnew
        intro f hf
        show f ∈ pgs.out
        rw [hout]
        exact List.mem_cons_of_mem g hf
    cases m with
    | none =>
        cases h
        exact hout
    | some msa =>
        cases h
        exact hout

/-- **`hal_mmu_transform`** that succeeds gives no page back. -/
theorem halMmuTransform_out {padrs flags : Nat}
    (h : (halMmuTransform v padrs flags).run s = .ok (true, s')) : s.pgs.out ⊆ s'.pgs.out := by
  -- the labels that undo return false
  have hundo : ∀ {top : PageFrame} {msa : Option PageFrame} {t : MmuSt},
      (untfSdire top msa v).run t ≠ .ok (true, s') := by
    intro top msa t hrun
    obtain ⟨_, _, -, hrun⟩ := run_bind_inv hrun
    cases hrun
  have hundo' : ∀ {top sdir : PageFrame} {msa imsa : Option PageFrame} {t : MmuSt},
      (untfIdire top sdir msa imsa v).run t ≠ .ok (true, s') := by
    intro top sdir msa imsa t hrun
    obtain ⟨_, _, -, hrun⟩ := run_bind_inv hrun
    exact hundo hrun
  obtain ⟨_, _, h₁, h⟩ := run_bind_inv h
  cases h₁
  split at h
  · cases h
  obtain ⟨⟨sdirearr, smsa⟩, s₁, h₁, h⟩ := run_bind_inv h
  cases sdirearr with
  | none => exact absurd h hundo
  | some sdirearr =>
  obtain ⟨⟨idirearr, imsa⟩, s₂, h₂, h⟩ := run_bind_inv h
  cases idirearr with
  | none => exact absurd h hundo'
  | some idirearr =>
  obtain ⟨⟨mdirearr, mmsa⟩, s₃, h₃, h⟩ := run_bind_inv h
  cases mdirearr with
  | none =>
      obtain ⟨_, _, -, h⟩ := run_bind_inv h
      exact absurd h hundo'
  | some mdirearr =>
      cases h
      exact fun f hf =>
        mmuTransformDire_out h₃ (mmuTransformDire_out h₂ (mmuTransformDire_out h₁ hf))

end Ops

end Cosmos.Hal
