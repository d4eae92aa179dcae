import Cosmos.Hal.HalmmuRun

/-!
# A mapping that fails

`hal_mmu_transform` makes the tables that are missing from the top down, and when there
is no page for one it goes back through the labels `untf_mdire`, `untf_idire` and
`untf_sdire`.  Each of them frees the table of its level if that is all zero, and asks
nothing else: a table that was there before is kept because it leads to something, a
fresh one is freed because nothing hangs below it any more.

One level at a time, what the label does takes back what the call made there
(`mmuTransformDire_undo`); nested three times, this is a call that leaves no trace
(`halMmuTransform_restored`).
-/

namespace Cosmos.Hal

open Cosmos.Lib Cosmos.Lib.Radix Cosmos.Lib.Run Cosmos.Lib.StM

/-- The descriptor with its lists and counters is that of `s`, the same pages are out, and
the words of all of them are as in `s`. -/
structure MmuSt.Restored (s s' : MmuSt) : Prop where
  mmu : s'.mmu = s.mmu
  out : ∀ f, f ∈ s'.pgs.out ↔ f ∈ s.pgs.out
  tbl : ∀ f ∈ s.pgs.out, s'.tbl f = s.tbl f

section Undo

variable {pml4 : Nat → Nat} {others : List PageFrame} {s₀ s s₁ s' : MmuSt}
  {top parent g : PageFrame} {lv : DirLevel} {v flags : Nat} {l : List (List Nat)}
  {map : Nat → Option PageFrame}

theorem MmuSt.Restored.refl (s : MmuSt) : s.Restored s :=
  ⟨rfl, fun _ => Iff.rfl, fun _ _ => rfl⟩

theorem MmuSt.Same.restored (h : s.Same s') : s.Restored s' :=
  ⟨h.2.1, fun f => by rw [h.2.2], fun f _ => by rw [h.1]⟩

theorem MmuSt.Restored.trans (h : s.Restored s₁) (h' : s₁.Restored s') : s.Restored s' where
  mmu := h'.mmu.trans h.mmu
  out f := (h'.out f).trans (h.out f)
  tbl f hf := (h'.tbl f ((h.out f).mpr hf)).trans (h.tbl f hf)

theorem addMsa_delMsa (mmu : Mmudsc) (lv : DirLevel) (g : PageFrame) :
    (mmu.addMsa lv g).delMsa lv g = mmu := by
  unfold Mmudsc.addMsa Mmudsc.delMsa
  simp only [Function.update_self, Function.update_idem, List.erase_cons_head,
    Nat.add_sub_cancel, Function.update_eq_self]

/-! ## What a label does -/

theorem mmuUntransformDire_none (h : direFrame (s.tbl parent (lv.index v)) = none)
    (msa : Option PageFrame) : (mmuUntransformDire lv parent msa v).run s = .ok (true, s) := by
  unfold mmuUntransformDire
  rw [run_bind_ok (show (get : MmuM MmuSt).run s = .ok (s, s) from rfl), h]
  rfl

/-- A table that is not empty stays. -/
theorem mmuUntransformDire_nonzero (h : direFrame (s.tbl parent (lv.index v)) = some g)
    {i : Nat} (hi : i < 512) (hne : s.tbl g i ≠ 0) (msa : Option PageFrame) :
    (mmuUntransformDire lv parent msa v).run s = .ok (true, s) := by
  have hz : direarrIsAllzero s g = false := by
    rw [← Bool.not_eq_true, direarrIsAllzero_iff]
    exact fun hz => hne (hz i hi)
  unfold mmuUntransformDire
  rw [run_bind_ok (show (get : MmuM MmuSt).run s = .ok (s, s) from rfl), h]
  simp only [hz]
  rfl

/-- An empty table goes. -/
theorem mmuUntransformDire_allzero (h : direFrame (s.tbl parent (lv.index v)) = some g)
    (hz : ∀ i, i < 512 → s.tbl g i = 0) (hg : g ∈ s.mmu.mudHead lv) (hout : g ∈ s.pgs.out)
    (msa : Option PageFrame) : ∃ pgs, pgs.out = s.pgs.out.erase g ∧
      (mmuUntransformDire lv parent msa v).run s =
        .ok (true, s.unlink lv parent (lv.index v) g pgs) := by
  obtain ⟨pgs, hpgs, hdel⟩ := mmuDelDirearr_run msa hg hout
  refine ⟨pgs, hpgs, ?_⟩
  unfold mmuUntransformDire
  rw [run_bind_ok (show (get : MmuM MmuSt).run s = .ok (s, s) from rfl), h]
  simp only [(direarrIsAllzero_iff s g).mpr hz, Bool.not_true, Bool.false_eq_true, if_false]
  rw [run_bind_ok hdel]
  rfl

/-! ## One level -/

/-- The table of a level is there, or there is no page for it, or it is made. -/
theorem mmuTransformDire_cases (lv : DirLevel) (parent : PageFrame) (v flags : Nat) (s : MmuSt) :
    (∃ g, direFrame (s.tbl parent (lv.index v)) = some g ∧
      (mmuTransformDire lv parent v flags).run s = .ok ((some g, none), s)) ∨
    direFrame (s.tbl parent (lv.index v)) = none ∧
      ((∃ s', s.Same s' ∧ (mmuTransformDire lv parent v flags).run s = .ok ((none, none), s')) ∨
      ∃ g pgs, g ∉ s.pgs.out ∧ pgs.out = g :: s.pgs.out ∧
        (mmuTransformDire lv parent v flags).run s = .ok ((some g, some g),
          s.link lv parent (lv.index v) g (direEntry (frameAddr g) flags) pgs)) := by
  have hrun : (mmuTransformDire lv parent v flags).run s = _ :=
    run_bind_ok (show (get : MmuM MmuSt).run s = .ok (s, s) from rfl)
  cases hd : direFrame (s.tbl parent (lv.index v)) with
  | some g =>
      simp only [hd] at hrun
      exact Or.inl ⟨g, rfl, hrun⟩
  | none =>
      simp only [hd] at hrun
      rcases mmuNewDirearr_spec lv s with ⟨pgs, hout, hnew⟩ | ⟨g, pgs, hg, hout, hnew⟩
      · rw [run_bind_ok hnew] at hrun
        exact Or.inr ⟨rfl, Or.inl ⟨{ s with pgs := pgs }, ⟨rfl, rfl, hout⟩, hrun⟩⟩
      · rw [run_bind_ok hnew] at hrun
        exact Or.inr ⟨rfl, Or.inr ⟨g, pgs, hg, hout, hrun⟩⟩

/-- A table that was linked goes again, and its entry was 0 before. -/
theorem restored_unlink {e : Nat} {pgs : Supply PageFrame} (hpar : parent ∈ s.pgs.out)
    (hzero : s.tbl parent (lv.index v) = 0) (hg : g ∉ s.pgs.out)
    (hpgs : pgs.out = g :: s.pgs.out) (he : direFrame e = some g)
    (hs : (s.link lv parent (lv.index v) g e pgs).Restored s₁) (msa : Option PageFrame) :
    ∃ s', (mmuUntransformDire lv parent msa v).run s₁ = .ok (true, s') ∧ s.Restored s' := by
  have hpg : parent ≠ g := fun he => hg (he ▸ hpar)
  have hout : ∀ f, f ∈ s₁.pgs.out ↔ f = g ∨ f ∈ s.pgs.out := fun f => by
    rw [hs.out f, ← List.mem_cons, ← hpgs]
    rfl
  have htbl : ∀ f, f = g ∨ f ∈ s.pgs.out → s₁.tbl f =
      (s.link lv parent (lv.index v) g e pgs).tbl f := fun f hf =>
    hs.tbl f (show f ∈ pgs.out by rw [hpgs, List.mem_cons]; exact hf)
  have hentry : s₁.tbl parent (lv.index v) = e := by
    rw [htbl parent (Or.inr hpar)]
    exact (setEntry_tbl _ _ _ _ _ _).trans (if_pos ⟨rfl, rfl⟩)
  have hempty : ∀ i, s₁.tbl g i = 0 := fun i => by
    rw [htbl g (Or.inl rfl)]
    refine (setEntry_tbl _ _ _ _ _ _).trans ((if_neg fun h => hpg h.1.symm).trans ?_)
    exact congrFun (Function.update_self g (fun _ => 0) s.tbl) i
  have hmem : g ∈ s₁.mmu.mudHead lv := by
    rw [hs.mmu]
    exact (addMsa_mem s.mmu lv lv g g).mpr (Or.inl ⟨rfl, rfl⟩)
  obtain ⟨pgs', hpgs', hrun⟩ := mmuUntransformDire_allzero (hentry ▸ he) (fun i _ => hempty i) hmem
    ((hout g).mpr (Or.inl rfl)) msa
  refine ⟨_, hrun, ?_, fun f => ?_, fun f hf => funext fun i => ?_⟩
  · show s₁.mmu.delMsa lv g = s.mmu
    rw [hs.mmu]
    exact addMsa_delMsa s.mmu lv g
  · show f ∈ pgs'.out ↔ _
    rw [hpgs', s₁.pgs.nodup.mem_erase_iff, hout f]
    constructor
    · rintro ⟨hne, hf⟩
      exact hf.resolve_left hne
    · exact fun hf => ⟨fun he => hg (he ▸ hf), Or.inr hf⟩
  · refine (setEntry_tbl _ _ _ _ _ _).trans ?_
    split
    · rename_i heq
      rw [heq.1, heq.2, hzero]
    · rename_i hne
      show s₁.tbl f i = s.tbl f i
      rw [htbl f (Or.inr hf)]
      have hfg : f ≠ g := fun he => hg (he ▸ hf)
      refine (setEntry_tbl _ _ _ _ _ _).trans ((if_neg hne).trans ?_)
      exact congrFun (Function.update_of_ne hfg _ _) i

/-- **A level is taken back.**  The call has found or made the table of a level, or has no page
for it, and all that it did below is taken back already: the label of the level then takes
back the rest. -/
theorem mmuTransformDire_undo (h : Mid pml4 others top s₀ s l) (hlv : lv ≠ .tdir)
    (hu : UserAdr v) (hp : s.walk top (lv.up.path v) = some parent) (hnl : lv.path v ∉ l)
    (hfl : FlagBits flags) {r : Option PageFrame × Option PageFrame}
    (hrun : (mmuTransformDire lv parent v flags).run s = .ok (r, s₁)) (hs : s₁.Restored s')
    (msa : Option PageFrame) :
    ∃ s'', (mmuUntransformDire lv parent msa v).run s' = .ok (true, s'') ∧ s.Restored s'' := by
  have hupper : (lv.up.path v).length ≤ 3 := by
    rw [path_length]
    exact depth_le _
  have hpar : parent ∈ s.pgs.out := h.tables.mem_out (path_user hu lv.up) hupper hp
  have huser := path_user hu lv
  have hlen : (lv.path v).length ≤ 3 := by
    rw [path_length]
    exact depth_le lv
  have hwalk := walk_path hlv hp
  rcases mmuTransformDire_cases lv parent v flags s with
    ⟨g, hd, hcase⟩ | ⟨hd, ⟨s₂, hsame, hcase⟩ | ⟨g, pgs, hg, hpgs, hcase⟩⟩
  · -- the table was there, so it leads to something
    rw [hcase] at hrun
    cases hrun
    have hwg : s.walk top (lv.path v) = some g := hwalk.trans hd
    obtain ⟨i, hi, hwi⟩ := h.busy (lv.path v) huser (by rw [path_eq hlv]; simp) hlen hnl
      (by rw [hwg]; simp)
    have hne : s.tbl g i ≠ 0 := by
      intro hz
      refine hwi ((walk_cons hwg i).trans ?_)
      show direFrame (s.tbl g i) = none
      rw [hz, direFrame_zero]
    have hout : g ∈ s.pgs.out := h.tables.mem_out huser hlen hwg
    refine ⟨s', mmuUntransformDire_nonzero (g := g) ?_ hi ?_ msa, hs⟩
    · rw [hs.tbl parent hpar]
      exact hd
    · rw [hs.tbl g hout]
      exact hne
  · rw [hcase] at hrun
    cases hrun
    have hsr := hsame.restored.trans hs
    refine ⟨s', mmuUntransformDire_none ?_ msa, hsr⟩
    rw [hsr.tbl parent hpar]
    exact hd
  · rw [hcase] at hrun
    cases hrun
    have hzero : s.tbl parent (lv.index v) = 0 := by
      by_contra hne
      refine h.tables.entry (lv.up.path v) parent (lv.index v) ?_ hupper hp hne hd
      rw [← path_eq hlv]
      exact huser
    exact restored_unlink hpar hzero hg hpgs (direFrame_direEntry g hfl) hs msa

/-! ## The call -/

/-- **A mapping that fails leaves no trace**, whichever level there was no page for. -/
theorem halMmuTransform_restored (h : Tables pml4 others s top) (hb : Busy s top [])
    (hu : UserAdr v) {padrs : Nat} (hfl : FlagBits flags)
    (hfail : (halMmuTransform v padrs flags).run s = .ok (false, s')) : s.Restored s' := by
  have hmid : Mid pml4 others top s s [] := ⟨h, hb, fun _ _ _ => rfl, fun _ _ => rfl⟩
  have hlow : ∀ {lv lv' : DirLevel}, lv ≠ lv' → lv.path v ≠ lv'.path v := by
    intro lv lv' hne he
    have hlen := congrArg List.length he
    rw [path_length, path_length] at hlen
    exact hne (depth_inj hlen)
  have hrun : (halMmuTransform v padrs flags).run s = _ :=
    run_bind_ok (show (get : MmuM MmuSt).run s = .ok (s, s) from rfl)
  rw [hfail] at hrun
  simp only [h.tdirearr] at hrun
  -- the second level
  obtain ⟨r₁, s₁, hrun₁, hcase₁⟩ :=
    mmuTransformDire_spec hmid (by decide : DirLevel.sdir ≠ .tdir) hu rfl hfl
  have hundo₁ := fun {s' : MmuSt} (hs : s₁.Restored s') msa =>
    mmuTransformDire_undo hmid (by decide : DirLevel.sdir ≠ .tdir) hu rfl List.not_mem_nil hfl
      hrun₁ hs msa
  rw [run_bind_ok hrun₁] at hrun
  rcases hcase₁ with ⟨rfl, -, -⟩ | ⟨sdirearr, smsa, rfl, hw₁, hm₁, -, -⟩
  · obtain ⟨t, hun, hback⟩ := hundo₁ (MmuSt.Restored.refl s₁) none
    unfold untfSdire at hrun
    rw [run_bind_ok hun] at hrun
    cases hrun
    exact hback
  -- the third level
  obtain ⟨r₂, s₂, hrun₂, hcase₂⟩ :=
    mmuTransformDire_spec hm₁ (by decide : DirLevel.idir ≠ .tdir) hu hw₁ hfl
  have hundo₂ := fun {s' : MmuSt} (hs : s₂.Restored s') msa =>
    mmuTransformDire_undo hm₁ (by decide : DirLevel.idir ≠ .tdir) hu hw₁
      (by simp [hlow (show DirLevel.idir ≠ .sdir by decide)]) hfl hrun₂ hs msa
  simp only at hrun
  rw [run_bind_ok hrun₂] at hrun
  rcases hcase₂ with ⟨rfl, -, -⟩ | ⟨idirearr, imsa, rfl, hw₂, hm₂, -, -⟩
  · obtain ⟨t₁, hun₁, hback₁⟩ := hundo₂ (MmuSt.Restored.refl s₂) none
    obtain ⟨t, hun, hback⟩ := hundo₁ hback₁ smsa
    simp only at hrun
    unfold untfIdire untfSdire at hrun
    rw [run_bind_ok hun₁, run_bind_ok hun] at hrun
    cases hrun
    exact hback
  -- the last level
  obtain ⟨r₃, s₃, hrun₃, hcase₃⟩ :=
    mmuTransformDire_spec hm₂ (by decide : DirLevel.mdir ≠ .tdir) hu hw₂ hfl
  have hundo₃ := fun {s' : MmuSt} (hs : s₃.Restored s') msa =>
    mmuTransformDire_undo hm₂ (by decide : DirLevel.mdir ≠ .tdir) hu hw₂
      (by simp [hlow (show DirLevel.mdir ≠ .sdir by decide),
        hlow (show DirLevel.mdir ≠ .idir by decide)]) hfl hrun₃ hs msa
  simp only at hrun
  rw [run_bind_ok hrun₃] at hrun
  rcases hcase₃ with ⟨rfl, -, -⟩ | ⟨mdirearr, mmsa, rfl, -, -, -, -⟩
  · obtain ⟨t₂, hun₂, hback₂⟩ := hundo₃ (MmuSt.Restored.refl s₃) none
    obtain ⟨t₁, hun₁, hback₁⟩ := hundo₂ hback₂ imsa
    obtain ⟨t, hun, hback⟩ := hundo₁ hback₁ smsa
    simp only at hrun
    unfold untfMdire untfIdire untfSdire at hrun
    rw [run_bind_ok hun₂, run_bind_ok hun₁, run_bind_ok hun] at hrun
    cases hrun
    exact hback
  · -- all tables are there: the call does not fail
    cases hrun

/-- Without a top table the call fails and does nothing. -/
theorem halMmuTransform_none (h : s.mmu.mudTdirearr = none) (v padrs flags : Nat) :
    (halMmuTransform v padrs flags).run s = .ok (false, s) := by
  unfold halMmuTransform
  rw [run_bind_ok (show (get : MmuM MmuSt).run s = .ok (s, s) from rfl), h]
  rfl

theorem halMmuUntransform_none (h : s.mmu.mudTdirearr = none) (v : Nat) :
    (halMmuUntransform v).run s = .ok (0, s) := by
  unfold halMmuUntransform
  rw [run_bind_ok (show (get : MmuM MmuSt).run s = .ok (s, s) from rfl), h]
  rfl

/-! ## Every state of the tables and the page allocator -/

/-- Only which frames are held for other purposes counts. -/
theorem MmuOk.congr {t : MmuRunSt} {others' : List PageFrame} (h : MmuOk pml4 others t)
    (heq : ∀ f, f ∈ others ↔ f ∈ others') : MmuOk pml4 others' t := by
  obtain ⟨top, ht, hb, hmap⟩ := h.tables
  exact ⟨top, { ht with
    out := fun f => by rw [ht.out f, heq f]
    sep := fun f hf => ht.sep f ((heq f).mpr hf) }, hb, hmap⟩

theorem MmuOk.head_out (h : MmuOk pml4 others ⟨s, map⟩) (hg : g ∈ s.mmu.mudHead lv) :
    g ∈ s.pgs.out := by
  obtain ⟨top, ht, -, -⟩ := h.tables
  exact (ht.out g).mpr (Or.inr ⟨lv, hg⟩)

/-- A frame that is no table is written. -/
theorem MmuOk.write {f : PageFrame} (h : MmuOk pml4 others ⟨s, map⟩) (hf : f ∈ others)
    (i e : Nat) : MmuOk pml4 others ⟨s.setEntry f i e, map⟩ := by
  obtain ⟨hout, hno⟩ := h.mem_others.mp hf
  obtain ⟨others', h'⟩ := h.elsewhere (t := s.setEntry f i e) rfl fun lv g hg => by
    refine ⟨h.head_out hg, setEntry_of_ne s i e ?_⟩
    rintro rfl
    exact hno lv hg
  exact h'.congr fun g => by rw [h.mem_others, h'.mem_others]; rfl

end Undo

/-- What can happen to the tables of an address space and the page allocator: a call, or
someone else takes a page, gives one back or writes to one. -/
inductive PagesOp where
  | mmu (op : MmuOp)
  | take
  | give (msa : PageFrame)
  | write (msa : PageFrame) (i e : Nat)

/-- The tables, and the pages that others hold. -/
structure PagesSt where
  tables : MmuRunSt
  held : List PageFrame

def pagesStep (t : PagesSt) : PagesOp → Except String PagesSt
  | .mmu op => (mmuStep t.tables op).map fun tables => { t with tables := tables }
  | .take =>
      match t.tables.st.pgs.take with
      | (none, pgs) => .ok { t with tables.st.pgs := pgs }
      | (some msa, pgs) => .ok ⟨{ t.tables with st.pgs := pgs }, msa :: t.held⟩
  | .give msa =>
      if msa ∈ t.held then
        match t.tables.st.pgs.give msa with
        | none => .error "not out"
        | some pgs => .ok ⟨{ t.tables with st.pgs := pgs }, t.held.filter fun g => g ≠ msa⟩
      else .error "not held"
  | .write msa i e =>
      if msa ∈ t.held then .ok { t with tables.st := t.tables.st.setEntry msa i e }
      else .error "not held"

/-- The start, after `hal_mmu_init`: what was out before is held by others. -/
def PagesSt.init (s₀ s : MmuSt) : PagesSt := ⟨MmuRunSt.init s, s₀.pgs.out⟩

/-- The tables are in order, or `hal_mmu_init` had no page for the top table. -/
def PagesOk (pml4 : Nat → Nat) (t : PagesSt) : Prop :=
  MmuOk pml4 t.held t.tables ∨ t.tables.st.mmu.mudTdirearr = none

theorem init_pagesOk (pdptepd : Nat) {s₀ s : MmuSt} (h₀ : s₀.mmu = mmudscInit) {r : Bool}
    (hinit : (halMmuInit (copyPagesData pdptepd)).run s₀ = .ok (r, s)) :
    PagesOk (copyPagesData pdptepd) (PagesSt.init s₀ s) := by
  rcases halMmuInit_cases hinit with ⟨-, pgs, -, rfl⟩ | ⟨rfl, -⟩
  · right
    show s₀.mmu.mudTdirearr = none
    rw [h₀]
    rfl
  · exact Or.inl (init_mmuOk pdptepd h₀ hinit)

/-- Calls without a top table do nothing. -/
theorem mmuStep_none {t t' : MmuRunSt} {op : MmuOp} (h : t.st.mmu.mudTdirearr = none)
    (hstep : mmuStep t op = .ok t') : t'.st = t.st := by
  unfold mmuStep at hstep
  split at hstep
  · cases hstep
  · cases op with
    | transform vadrs padrs flags =>
        simp only [halMmuTransform_none h] at hstep
        cases hstep
        rfl
    | untransform vadrs =>
        simp only [halMmuUntransform_none h] at hstep
        cases hstep
        rfl

theorem pagesStep_ok {pml4 : Nat → Nat} (t : PagesSt) (op : PagesOp) (t' : PagesSt)
    (h : PagesOk pml4 t) (hstep : pagesStep t op = .ok t') : PagesOk pml4 t' := by
  obtain ⟨tables, held⟩ := t
  cases op with
  | mmu op =>
      obtain ⟨tables', hmmu, rfl⟩ := exists_of_map_ok hstep
      rcases h with hok | hnone
      · exact Or.inl (mmuStep_inv tables op tables' hok hmmu)
      · right
        show tables'.st.mmu.mudTdirearr = none
        rw [mmuStep_none hnone hmmu]
        exact hnone
  | take =>
      unfold pagesStep at hstep
      have htake := tables.st.pgs.take_cases
      rcases heq : tables.st.pgs.take with ⟨msa, pgs⟩
      simp only [heq] at htake hstep
      rcases htake with ⟨rfl, hout⟩ | ⟨msa, rfl, hnew, hout⟩
      · cases hstep
        exact h.imp (fun hok => hok.same hout) id
      · cases hstep
        exact h.imp (fun hok => hok.take hnew hout) id
  | give msa =>
      unfold pagesStep at hstep
      simp only at hstep
      split at hstep
      · rename_i hheld
        split at hstep
        · cases hstep
        · rename_i pgs hgive
          cases hstep
          exact h.imp (fun hok => hok.give hheld hgive) id
      · cases hstep
  | write msa i e =>
      unfold pagesStep at hstep
      simp only at hstep
      split at hstep
      · rename_i hheld
        cases hstep
        exact h.imp (fun hok => hok.write hheld i e) id
      · cases hstep

/-- **A failed mapping leaves no trace**: in every state of the tables and the page allocator,
`hal_mmu_transform` of any user address, frame and flags that returns `FALSE` has changed
no table, list or counter, nor the set of pages that are out. -/
theorem transform_restored (pdptepd : Nat) {s₀ s : MmuSt} (h₀ : s₀.mmu = mmudscInit) {r : Bool}
    (hinit : (halMmuInit (copyPagesData pdptepd)).run s₀ = .ok (r, s)) (ops : List PagesOp)
    {t : PagesSt} (hrun : run pagesStep ops (PagesSt.init s₀ s) = .ok t) {v padrs flags : Nat}
    (hu : UserAdr v) (hfl : FlagBits flags) {s' : MmuSt}
    (hfail : (halMmuTransform v padrs flags).run t.tables.st = .ok (false, s')) :
    t.tables.st.Restored s' := by
  rcases run_inv (PagesOk (copyPagesData pdptepd)) pagesStep_ok ops _ t
    (init_pagesOk pdptepd h₀ hinit) hrun with hok | hnone
  · obtain ⟨top, ht, hb, -⟩ := hok.tables
    exact halMmuTransform_restored ht hb hu hfl hfail
  · rw [halMmuTransform_none hnone] at hfail
    cases hfail
    exact MmuSt.Restored.refl _

/-- A machine with `n` frames to hand out. -/
def scarceMmu (n : Nat) : MmuSt :=
  { freshMmu with pgs.alc := fun tick => if tick < n then freshMmu.pgs.alc tick else none }

/-- One page is mapped; for another, far from it, two tables can be made, but not the third. -/
theorem transform_restored_scarce : ∃ t s', (halMmuTransform 0x8000000000 0x7000000 7).run
      (PagesSt.tables t).st = .ok (false, s') ∧ s'.mmu.mudMsanr .sdir = 1 ∧
    t.tables.st.Restored s' := by
  obtain ⟨⟨r, s⟩, hinit, hq⟩ := exists_of_okAnd
    (e := (halMmuInit (copyPagesData 0)).run (scarceMmu 6))
    (q := fun r => okAnd (run pagesStep [.mmu (.transform 0x400000 0x7000000 7)]
      (PagesSt.init (scarceMmu 6) r.2)) fun t =>
        okAnd ((halMmuTransform 0x8000000000 0x7000000 7).run t.tables.st) fun r =>
          r.1 = false ∧ r.2.mmu.mudMsanr .sdir = 1) (by decide +kernel)
  obtain ⟨t, hrun, hq⟩ := exists_of_okAnd hq
  obtain ⟨⟨r', s'⟩, hfail, hq⟩ := exists_of_okAnd hq
  obtain ⟨rfl, hnr⟩ := of_decide_eq_true hq
  exact ⟨t, s', hfail, hnr, transform_restored 0 rfl hinit _ hrun (by decide) (by decide) hfail⟩

end Cosmos.Hal
