import Cosmos.Hal.Halmmu
import Cosmos.Hal.KmsobObjs

/-!
# The allocators are supplies

Page tables, address spaces and devices are modelled with supplies of pages and objects.  To each
of its users the page allocator is such a supply of pages, and the object allocator one of
objects, whatever all the others ask for and give back in between.

## Main results

* `objs_supplied`, `pages_supplied` : what is said to a user is what a supply says.
* `pageEv_null` : a page that is handed out has a frame, so `none` is `NULL`.
-/

namespace Cosmos.Hal

open Cosmos.Lib Cosmos.Lib.Cover Cosmos.Lib.Run

section Steps

variable {b : BootArray} {st st' : KmState} {op : KmOp}

/-! ## Objects -/

/-- What a call about an object says. -/
def objEv (st : KmState) : KmOp → Option (Exchange Nat)
  | .new msz =>
      match kmsobNew st.mem msz with
      | .error _ => none
      | .ok r => some (.take r.2)
  | .delete fadrs _ => some (.give fadrs)
  | .pages _ => none

/-- The address of an object in use. -/
def KmState.HasObj (st : KmState) (a : Nat) : Prop := ∃ o ∈ st.live, o.1 = a

/-- Objects do not overlap, so each has its own address. -/
theorem KmState.Inv.addr_ne (h : st.Inv b) : st.live.Pairwise fun o o' => o.1 ≠ o'.1 := by
  obtain ⟨lay, hinv⟩ := h
  have hok : ObjsOk st := hinv.objsOk
  refine hok.apart.imp_of_mem fun ho ho' hapart he => ?_
  have hsz := hok.size _ ho
  have hsz' := hok.size _ ho'
  have hpos := (hinv.sizes _ ho).1
  have hpos' := (hinv.sizes _ ho').1
  omega

/-- **One call**, for objects. -/
theorem kmStep_objs (st : KmState) (op : KmOp) (st' : KmState) (h : st.Inv b)
    (hfair : OwnPages st op ∧ BackLive st op) (hstep : kmStep st op = .ok st') :
    st'.Inv b ∧ Supplies (objEv st op) st.HasObj st'.HasObj := by
  have hinv := kmStep_inv_live st op st' h hfair hstep
  refine ⟨hinv, ?_⟩
  have hne := hinv.addr_ne
  cases op with
  | new msz =>
      simp only [kmStep] at hstep
      split at hstep
      · cases hstep
      · rename_i m' hrun
        cases hstep
        simp only [objEv, hrun]
        exact .silent (fun x hx => by cases hx) fun x hx => hx
      · rename_i m' a hrun
        cases hstep
        simp only [objEv, hrun]
        constructor
        · intro x hx
          cases hx
          refine ⟨?_, (a, msz), List.mem_cons_self, rfl⟩
          rintro ⟨o, ho, rfl⟩
          exact (List.pairwise_cons.mp hne).1 o ho rfl
        · rintro x ⟨o, ho, rfl⟩ -
          exact ⟨o, List.mem_cons_of_mem _ ho, rfl⟩
  | delete fadrs fsz =>
      constructor
      · intro x hx
        cases hx
      · rintro x ⟨o, ho, rfl⟩ hx
        refine ⟨o, ?_, rfl⟩
        simp only [kmStep] at hstep
        split at hstep
        · cases hstep
        · cases hstep
          refine (List.mem_eraseP_of_neg ?_).mpr ho
          have hother : o.1 ≠ fadrs := fun he => hx (by rw [objEv, he])
          simp [hother]
        · cases hstep
          exact ho
  | pages op =>
      simp only [kmStep] at hstep
      split at hstep
      · cases hstep
      · cases hstep
        exact .silent (fun x hx => by cases hx) fun x hx => hx

/-- **To its users the object allocator is a supply.** -/
theorem objs_supplied {s : KmState} (hs : s.Start b) {ops : List (Bool × KmOp)}
    {t : Using KmState Nat}
    (hall : AllSteps (userStep kmStep objEv) (fun s op =>
      (OwnPages s.sys op.2 ∧ BackLive s.sys op.2) ∧ GivesOwn objEv s op) ops ⟨s, [], []⟩)
    (hrun : run (userStep kmStep objEv) ops ⟨s, [], []⟩ = .ok t) :
    ∃ u u' : Supply Nat, u.out = [] ∧ Supply.exchanges t.said u = some u' ∧ u'.out = t.mine :=
  Supplies.supply kmStep_objs hs.inv hall hrun

/-! ## Pages -/

/-- The frame of a page. -/
def BootArray.frame (b : BootArray) (i : Nat) : Option PageFrame :=
  if h : 0 < b.padrs i ∧ b.padrs i < 2 ^ 40 then some ⟨b.padrs i, h.1, h.2⟩ else none

/-- The frame of the block that a request returns. -/
def BootArray.frameEv (b : BootArray) : Except String PageRes → Option (Exchange PageFrame)
  | .error _ => none
  | .ok r => some (.take (r.2.bind fun x => b.frame x.1))

/-- What a call about one page of the kernel area, or for a process, says. -/
def pageEv (b : BootArray) (st : KmState) : KmOp → Option (Exchange PageFrame)
  | .pages (.divisionPages pages mrtype flgs) =>
      if pages = 1 ∧ mrtype = MaType.krnl.code ∧ flgs = dmfReldiv then
        b.frameEv (mmDivisionPages st.mem.mm pages mrtype flgs)
      else none
  | .pages (.divpagesProcmarea pages) =>
      if pages = 1 then b.frameEv (mmDivpagesProcmarea st.mem.mm pages) else none
  | .pages (.mergePages freemsa freepgs) =>
      if freepgs = 1 then (b.frame freemsa).map .give else none
  | _ => none

/-- A page with this frame is outstanding. -/
def KmState.HasFrame (b : BootArray) (st : KmState) (f : PageFrame) : Prop :=
  ∃ i, Seg.mk i 1 ∈ st.others ∧ b.frame i = some f

/-- A request that is refused, or gets one page that is not in the area for devices. -/
def OnePage (mm : Memgrob) (out : List Seg) (r : Except String PageRes) : Prop :=
  r = .ok (mm, none) ∨
  ∃ mm' i ty, r = .ok (mm', some (i, 1)) ∧ ty ≠ MaType.hwad ∧ MmInv mm' (⟨i, 1⟩ :: out) ∧
    SamePages mm mm' ∧ OutBlk mm'.mem.msadscstat ty i 1

section Request

variable {mm : Memgrob} {out : List Seg} {r : Except String PageRes}

theorem mmDivisionPages_onePage (h : MmInv mm out) :
    OnePage mm out (mmDivisionPages mm 1 MaType.krnl.code dmfReldiv) := by
  rcases mmDivisionPages_granted (a := 1) h (by decide) 1 with
    hnone | ⟨-, mm', i, hrun, hinv, hsame, hblk⟩
  · exact Or.inl hnone
  · exact Or.inr ⟨mm', i, .krnl, hrun, by decide, hinv, hsame, hblk⟩

theorem mmDivpagesProcmarea_onePage (h : MmInv mm out) :
    OnePage mm out (mmDivpagesProcmarea mm 1) := by
  have hproc : retnProcmarea mm = some 2 := findMarea_areaTy (a := 2) h (by decide)
  have hfall := mmDivisionPages_onePage h
  unfold mmDivpagesProcmarea divpagesProcmareaCore
  rw [if_neg (by omega), if_neg (by omega)]
  simp only [hproc]
  by_cases hscan : (!scanMapgsallocOk (mm.mem.mareastat 2) 1) = true
  · rw [if_pos hscan]
    exact hfall
  · rw [if_neg hscan]
    rcases mmPrcdivpagesOnmarea_spec h.mem 1 with hnone | ⟨x', i, hrun, ht⟩
    · rw [hnone]
      exact hfall
    · -- the area for processes has the page
      have hall : Allocated mm ({ mm with mem := x' }.updatePages 2 1 0) out ⟨i, 1⟩ :=
        ⟨.one 2, 0, x', ht, rfl, rfl⟩
      rw [hrun]
      simp only [ne_eq, one_ne_zero, not_false_eq_true, if_true, Memgrob.countDiv]
      refine Or.inr ⟨_, i, .proc, rfl, by decide, hall.inv h, hall.same, ?_⟩
      rw [updatePages_msadscstat]
      exact ht.blk

/-- A page that is handed out has a frame. -/
theorem OnePage.frame {b : BootArray} (h : OnePage mm out r) (hs : SameArray b mm)
    (hlt : ∀ i < b.msanr, b.padrs i < 2 ^ 40) {mm' : Memgrob} {i n : Nat}
    (hr : r = .ok (mm', some (i, n))) : ∃ f, b.frame i = some f := by
  rcases h with hnone | ⟨mm₁, j, ty, hsome, hty, hinv, hsame, hblk⟩
  · rw [hnone] at hr
    cases hr
  · rw [hsome] at hr
    cases hr
    have hs' := hs.mono hsame
    have hend := hinv.mem.held_end_le List.mem_cons_self Nat.one_pos
    rw [hs'.msanr] at hend
    have hmarty := hs'.marty i hend
    have hshape : (mm'.mem.msadscstat i).mfMarty = ty := (hblk.shape 0 Nat.one_pos).1
    have hpos : 0 < b.padrs i := by
      refine Nat.pos_of_ne_zero fun hzero => hty ?_
      rw [← hshape, hmarty, hzero]
      rfl
    exact ⟨_, dif_pos ⟨hpos, hlt i hend⟩⟩

end Request

/-- Pages with one frame are one page. -/
theorem frame_inj {i j : Nat} (hi : i < b.msanr) (hj : j < b.msanr) {f : PageFrame}
    (hfi : b.frame i = some f) (hfj : b.frame j = some f) : i = j := by
  unfold BootArray.frame at hfi hfj
  split at hfi
  · split at hfj
    · cases hfi
      injection hfj with hfj
      injection hfj with hfj
      exact (b.padrs_inj j hj i hi hfj).symm
    · cases hfj
  · cases hfi

/-- What becomes outstanding was not. -/
theorem frame_fresh (h : st.Inv b) {i : Nat} {others : List Seg}
    (hothers : st.others = ⟨i, 1⟩ :: others) {f : PageFrame} (hf : b.frame i = some f) {j : Nat}
    (hj : Seg.mk j 1 ∈ others) : b.frame j ≠ some f := by
  intro hfj
  obtain ⟨lay, hinv⟩ := h
  have hmm := hinv.mm
  rw [hothers] at hmm
  have hin : Seg.mk i 1 ∈ poolBlocks lay ++ ⟨i, 1⟩ :: others := by simp
  have hjn : Seg.mk j 1 ∈ poolBlocks lay ++ ⟨i, 1⟩ :: others := by simp [hj]
  have hiend := hmm.mem.held_end_le hin Nat.one_pos
  have hjend := hmm.mem.held_end_le hjn Nat.one_pos
  rw [hinv.same.msanr] at hiend hjend
  obtain rfl := frame_inj hiend hjend hf hfj
  have hnd := nodup_of_cover_le (l := poolBlocks lay ++ ⟨i, 1⟩ :: others)
    (fun k => Nat.le_trans (Nat.le_add_left _ _) (hmm.mem.tiles.le_one k)) hmm.lens
  exact (List.nodup_cons.mp (List.nodup_append.mp hnd).2.1).1 hj

/-- Nothing goes when a request is answered. -/
theorem KmState.hasFrame_grant {mm : Memgrob} {r : PageRes}
    (hothers : st'.others = (MmState.grant ⟨mm, st.others⟩ r).out) {f : PageFrame}
    (hf : st.HasFrame b f) : st'.HasFrame b f := by
  obtain ⟨i, hi, hfi⟩ := hf
  refine ⟨i, ?_, hfi⟩
  rw [hothers]
  obtain ⟨mm', _ | ⟨j, n⟩⟩ := r
  · exact hi
  · exact List.mem_cons_of_mem _ hi

/-- The answer to a request for one page. -/
theorem onePage_supplies {out : List Seg} {r : PageRes} (h' : st'.Inv b)
    (hothers : st'.others = (MmState.grant ⟨st.mem.mm, st.others⟩ r).out)
    (hone : OnePage st.mem.mm out (.ok r)) :
    Supplies (b.frameEv (.ok r)) (st.HasFrame b) (st'.HasFrame b) := by
  refine ⟨fun f hf => ?_, fun f hf _ => KmState.hasFrame_grant hothers hf⟩
  obtain ⟨mm, _ | ⟨i, n⟩⟩ := r
  · cases hf
  · have hn : n = 1 := by
      rcases hone with hnone | ⟨mm', j, ty, hsome, -⟩
      · cases hnone
      · cases hsome
        rfl
    subst hn
    have hfi : b.frame i = some f := by
      injection hf with hf
      injection hf
    refine ⟨?_, i, by rw [hothers]; exact List.mem_cons_self, hfi⟩
    rintro ⟨j, hj, hfj⟩
    exact frame_fresh h' hothers hfi hj hfj

/-- **One call**, for pages. -/
theorem kmStep_pages (st : KmState) (op : KmOp) (st' : KmState) (h : st.Inv b)
    (hfair : OwnPages st op ∧ BackLive st op) (hstep : kmStep st op = .ok st') :
    st'.Inv b ∧ Supplies (pageEv b st op) (st.HasFrame b) (st'.HasFrame b) := by
  have hinv' := kmStep_inv_live st op st' h hfair hstep
  refine ⟨hinv', ?_⟩
  obtain ⟨lay, hinv⟩ := h
  have hnone : (∀ c ∈ st.others, c ∈ st'.others) →
      Supplies (none : Option (Exchange PageFrame)) (st.HasFrame b) (st'.HasFrame b) := by
    refine fun hsub => .silent (fun f hf => by cases hf) ?_
    rintro f ⟨i, hi, hfi⟩
    exact ⟨i, hsub _ hi, hfi⟩
  cases op with
  | new msz =>
      apply hnone
      intro c hc
      simp only [kmStep] at hstep
      split at hstep <;> cases hstep <;> exact hc
  | delete fadrs fsz =>
      apply hnone
      intro c hc
      simp only [kmStep] at hstep
      split at hstep <;> cases hstep <;> exact hc
  | pages op =>
      cases op with
      | divisionPages pages mrtype flgs =>
          simp only [kmStep, mmStep] at hstep
          cases hr : mmDivisionPages st.mem.mm pages mrtype flgs with
          | error e =>
              rw [hr] at hstep
              cases hstep
          | ok r =>
              rw [hr] at hstep
              cases hstep
              simp only [pageEv]
              split
              · rename_i hask
                obtain ⟨rfl, rfl, rfl⟩ := hask
                rw [hr]
                exact onePage_supplies hinv' rfl (hr ▸ mmDivisionPages_onePage hinv.mm)
              · exact .silent (fun f hf => by cases hf) fun f hf => KmState.hasFrame_grant rfl hf
      | divpagesProcmarea pages =>
          simp only [kmStep, mmStep] at hstep
          cases hr : mmDivpagesProcmarea st.mem.mm pages with
          | error e =>
              rw [hr] at hstep
              cases hstep
          | ok r =>
              rw [hr] at hstep
              cases hstep
              simp only [pageEv]
              split
              · rename_i hask
                subst hask
                rw [hr]
                exact onePage_supplies hinv' rfl (hr ▸ mmDivpagesProcmarea_onePage hinv.mm)
              · exact .silent (fun f hf => by cases hf) fun f hf => KmState.hasFrame_grant rfl hf
      | mergePages freemsa freepgs =>
          have hkeep : ∀ c ∈ st.others, c ≠ ⟨freemsa, freepgs⟩ → c ∈ st'.others := by
            intro c hc hne
            simp only [kmStep, mmStep] at hstep
            split at hstep
            · cases hstep
            · rename_i s hrun
              cases hstep
              split at hrun
              · split at hrun
                · cases hrun
                · cases hrun
                  exact (List.mem_erase_of_ne hne).mpr hc
                · cases hrun
                  exact hc
              · cases hrun
          constructor
          · intro f hf
            simp only [pageEv] at hf
            split at hf
            · obtain ⟨g, -, hg⟩ := Option.map_eq_some_iff.mp hf
              cases hg
            · cases hf
          · rintro f ⟨i, hi, hfi⟩ hne
            refine ⟨i, hkeep _ hi fun he => ?_, hfi⟩
            cases he
            exact hne (by rw [pageEv, if_pos rfl, hfi]; rfl)

/-- **To its users the page allocator is a supply.** -/
theorem pages_supplied {s : KmState} (hs : s.Start b) {ops : List (Bool × KmOp)}
    {t : Using KmState PageFrame}
    (hall : AllSteps (userStep kmStep (pageEv b)) (fun s op =>
      (OwnPages s.sys op.2 ∧ BackLive s.sys op.2) ∧ GivesOwn (pageEv b) s op) ops
      ⟨s, [], []⟩)
    (hrun : run (userStep kmStep (pageEv b)) ops ⟨s, [], []⟩ = .ok t) :
    ∃ u u' : Supply PageFrame, u.out = [] ∧ Supply.exchanges t.said u = some u' ∧
      u'.out = t.mine :=
  Supplies.supply kmStep_pages hs.inv hall hrun

/-- **`none` is `NULL`.** -/
theorem pageEv_null (h : st.Inv b) (hlt : ∀ i < b.msanr, b.padrs i < 2 ^ 40)
    {r : Except String PageRes}
    (hr : r = mmDivisionPages st.mem.mm 1 MaType.krnl.code dmfReldiv ∨
      r = mmDivpagesProcmarea st.mem.mm 1)
    (hnull : b.frameEv r = some (.take none)) : ∃ mm, r = .ok (mm, none) := by
  obtain ⟨lay, hinv⟩ := h
  have hone : OnePage st.mem.mm (poolBlocks lay ++ st.others) r := by
    rcases hr with rfl | rfl
    · exact mmDivisionPages_onePage hinv.mm
    · exact mmDivpagesProcmarea_onePage hinv.mm
  obtain e | ⟨mm, _ | ⟨i, n⟩⟩ := r
  · cases hnull
  · exact ⟨mm, rfl⟩
  · obtain ⟨f, hf⟩ := hone.frame hinv.same hlt rfl
    simp [BootArray.frameEv, hf] at hnull

end Steps

end Cosmos.Hal
