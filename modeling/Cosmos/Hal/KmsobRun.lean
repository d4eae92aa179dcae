import Cosmos.Hal.KmsobInv
import Cosmos.Hal.MemdivmerOwn

/-!
# Runs of the object allocator

Requests for objects, objects that come back, and calls of the page allocator by others, in
any order.  `kmStep_inv` carries the invariant of all pools through them, as long as nobody
gives back an object twice while its pool lives: `kmsob_delete` cannot tell a free slot from
one in use.  Nor can it tell an address near the end of the word, from which the bytes of an
object wrap.

## Main results

* `deleteExact_iff` : `kmsob_delete` accepts exactly the objects in use, unless it is given one
  of these two kinds of addresses.
-/

namespace Cosmos.Hal

open Cosmos.Lib.Word64 Cosmos.Lib.Cover Cosmos.Lib.Slab Cosmos.Lib.Run

/-- One request. -/
inductive KmOp where
  | new (msz : Nat)
  | delete (fadrs fsz : Nat)
  /-- a call of the page allocator by another user -/
  | pages (op : MmOp)
deriving DecidableEq, Repr

/-- The memory, the blocks that other users of the page allocator hold and the objects in use,
each with the size that was asked for. -/
structure KmState where
  mem : Kmem
  others : List Seg
  live : List (Nat × Nat)

/-- One request. -/
def kmStep (st : KmState) : KmOp → Except String KmState
  | .new msz =>
      match kmsobNew st.mem msz with
      | .error e => .error e
      | .ok (m', none) => .ok { st with mem := m' }
      | .ok (m', some a) => .ok { st with mem := m', live := (a, msz) :: st.live }
  | .delete fadrs fsz =>
      match kmsobDelete st.mem fadrs fsz with
      | .error e => .error e
      | .ok (m', true) => .ok { st with mem := m', live := dropLive fadrs (classOf fsz) st.live }
      | .ok (m', false) => .ok { st with mem := m' }
  | .pages op =>
      match mmStep ⟨st.mem.mm, st.others⟩ op with
      | .error e => .error e
      | .ok s => .ok { st with mem := { st.mem with mm := s.mm }, others := s.out }

/-- Other users give back what they hold. -/
def OwnPages (st : KmState) (op : KmOp) : Prop :=
  ∀ s n, op = .pages (.mergePages s n) → Seg.mk s n ∈ st.others

/-- An address that no free slot has, and whose bytes do not wrap to one. -/
def NotFree (m : Kmem) (fadrs fsz : Nat) : Prop :=
  ¬ FreeSlot m (classOf fsz) fadrs ∧ ¬ WrapSlot m (classOf fsz) fadrs fsz

/-- What is given back is given by a word, and `NotFree`. -/
def BackOk (st : KmState) (op : KmOp) : Prop :=
  ∀ fadrs fsz, op = .delete fadrs fsz → fadrs < wordMod ∧ NotFree st.mem fadrs fsz

/-- The start: pages may be in use, objects are not. -/
structure KmState.Start (b : BootArray) (st : KmState) : Prop where
  pages : b.Reaches ⟨st.mem.mm, st.others⟩
  mgr : st.mem.mgr = kmsobmgrhedInit
  live : st.live = []

section Steps

variable {b : BootArray} {st st' : KmState}

/-- All pools in order, whatever their blocks are. -/
def KmState.Inv (b : BootArray) (st : KmState) : Prop :=
  ∃ lay, KmInv b st.mem st.others st.live lay

theorem poolBlocks_none : poolBlocks (fun _ => none) = [] :=
  List.flatMap_eq_nil_iff.mpr fun _ _ => rfl

theorem KmState.Start.inv (h : st.Start b) : st.Inv b := by
  obtain ⟨hmm, hsame⟩ := h.pages.inv
  refine ⟨fun _ => none, ⟨?_, hsame, fun c _ => ?_, ?_, ?_, ?_⟩, fun _ _ _ hy => by cases hy⟩
  · rw [poolBlocks_none]
    exact hmm
  · show st.mem.mgr.ksMsoblst c = koblstInit (classSz c) ∧ liveOf c st.live = []
    rw [h.mgr, h.live]
    exact ⟨rfl, rfl⟩
  · rw [h.mgr]
    exact (List.countP_eq_zero.mpr fun _ _ => Bool.false_ne_true).symm
  · rw [h.mgr]
    exact fun a ha => by cases ha
  · rw [h.live]
    exact fun o ho => by cases ho

/-! ## Other users -/

/-- A call that frees only what its user holds does the same beside the blocks of others. -/
theorem mmStep_append {mm : Memgrob} {out : List Seg} {op : MmOp} {s : MmState} (held : List Seg)
    (hown : ∀ i n, op = .mergePages i n → Seg.mk i n ∈ out) (hstep : mmStep ⟨mm, out⟩ op = .ok s) :
    mmStep ⟨mm, out ++ held⟩ op = .ok ⟨s.mm, s.out ++ held⟩ := by
  have hgrant : ∀ r : PageRes, MmState.grant ⟨mm, out ++ held⟩ r =
      ⟨(MmState.grant ⟨mm, out⟩ r).mm, (MmState.grant ⟨mm, out⟩ r).out ++ held⟩ := by
    rintro ⟨mm', _ | ⟨i, n⟩⟩ <;> rfl
  cases op with
  | divisionPages pages mrtype flgs =>
      simp only [mmStep] at hstep ⊢
      split at hstep
      · cases hstep
      · cases hstep
        rw [hgrant]
  | divpagesProcmarea pages =>
      simp only [mmStep] at hstep ⊢
      split at hstep
      · cases hstep
      · cases hstep
        rw [hgrant]
  | mergePages i n =>
      have hmem := hown i n rfl
      simp only [mmStep] at hstep ⊢
      split at hstep
      · rename_i hlt
        rw [if_pos hlt]
        split at hstep
        · cases hstep
        · cases hstep
          rw [List.erase_append_left _ hmem]
        · cases hstep
          rfl
      · cases hstep

/-- The page allocator works for another user. -/
theorem KmInv.pages {m : Kmem} {others : List Seg} {live : List (Nat × Nat)}
    {lay : Nat → Option Lay} (h : KmInv b m others live lay) {op : MmOp} {s : MmState}
    (hown : ∀ i n, op = .mergePages i n → Seg.mk i n ∈ others)
    (hstep : mmStep ⟨m.mm, others⟩ op = .ok s) :
    KmInv b { m with mm := s.mm } s.out live lay := by
  have hstep' := mmStep_append (poolBlocks lay) hown hstep
  have hinv : MmInv m.mm (others ++ poolBlocks lay) := h.mm.perm List.perm_append_comm
  have hnew := mmStep_inv _ op _ hinv hstep'
  have hsame := mmStep_same _ op _ hinv hstep'
  refine ⟨⟨hnew.perm List.perm_append_comm, h.same.mono hsame, fun c hc => ?_, h.msobnr, h.msobche,
    h.sizes⟩, h.used⟩
  have hcls := h.cls c hc
  cases hy : lay c with
  | none =>
      rw [hy] at hcls
      exact hcls
  | some y =>
      rw [hy] at hcls
      obtain ⟨h1, h2, h3, h4, h5, h6⟩ := hcls
      exact ⟨h1, h2, h3, h4, h5, h6⟩

/-! ## Runs -/

/-- **One request** that gives back no free slot keeps all pools in order. -/
theorem kmStep_inv (st : KmState) (op : KmOp) (st' : KmState) (h : st.Inv b)
    (hfair : OwnPages st op ∧ BackOk st op) (hstep : kmStep st op = .ok st') : st'.Inv b := by
  obtain ⟨lay, hinv⟩ := h
  cases op with
  | new msz =>
      simp only [kmStep] at hstep
      by_cases hsz : msz < 1 ∨ 2048 < msz
      · have hnone : kmsobNew st.mem msz = .ok (st.mem, none) := if_pos hsz
        rw [hnone] at hstep
        cases hstep
        exact ⟨lay, hinv⟩
      · have hpos : 1 ≤ msz := by omega
        have hle : msz ≤ 2048 := by omega
        rcases kmsobNew_spec hinv hpos hle with
          hnone | ⟨m', x, lay', hsome, hinv', -⟩
        · rw [hnone] at hstep
          cases hstep
          exact ⟨lay, hinv⟩
        · rw [hsome] at hstep
          cases hstep
          exact ⟨lay', hinv'⟩
  | delete fadrs fsz =>
      simp only [kmStep] at hstep
      by_cases hsz : fadrs = 0 ∨ fsz < 1 ∨ 2048 < fsz
      · have hno : kmsobDelete st.mem fadrs fsz = .ok (st.mem, false) := if_pos hsz
        rw [hno] at hstep
        cases hstep
        exact ⟨lay, hinv⟩
      · by_cases hlive : fadrs ∈ liveOf (classOf fsz) st.live
        · obtain ⟨m', lay', hyes, hinv', -⟩ := kmsobDelete_live hinv (by omega) (by omega) hlive
          rw [hyes] at hstep
          cases hstep
          exact ⟨lay', hinv'⟩
        · obtain ⟨hadr, hfree, hno⟩ := hfair.2 fadrs fsz rfl
          have hno := kmsobDelete_refused hinv (by omega) (by omega) hadr hlive hfree hno
          rw [hno] at hstep
          cases hstep
          exact ⟨lay, hinv⟩
  | pages op =>
      simp only [kmStep] at hstep
      split at hstep
      · cases hstep
      · rename_i s hrun
        cases hstep
        exact ⟨lay, hinv.pages (fun i n hop => hfair.1 i n (congrArg KmOp.pages hop)) hrun⟩

theorem kmRun_inv {s t : KmState} {ops : List KmOp} (hs : s.Start b)
    (hown : AllSteps kmStep OwnPages ops s) (hback : AllSteps kmStep BackOk ops s)
    (hrun : run kmStep ops s = .ok t) : t.Inv b :=
  run_inv_of_allSteps (KmState.Inv b) _ kmStep_inv ops s t hs.inv (hown.and hback) hrun

end Steps

/-! ## What is accepted -/

/-- `kmsob_delete` takes the address if it is that of an object in use of its class.  If it is
not, it is refused and nothing changes. -/
def DeleteExact (st : KmState) (fadrs fsz : Nat) : Prop :=
  (fadrs ∈ liveOf (classOf fsz) st.live → ∃ m', kmsobDelete st.mem fadrs fsz = .ok (m', true)) ∧
    (fadrs ∉ liveOf (classOf fsz) st.live → kmsobDelete st.mem fadrs fsz = .ok (st.mem, false))

/-- **Exactly the objects in use**, in every state that requests lead to: `kmsob_delete` accepts
these and refuses all other addresses, unless the address is a free slot of the class, or its
bytes wrap in step with the slots. -/
theorem deleteExact_iff {b : BootArray} {s t : KmState} {ops : List KmOp} {fadrs fsz : Nat}
    (hs : s.Start b) (hown : AllSteps kmStep OwnPages ops s)
    (hback : AllSteps kmStep BackOk ops s) (hrun : run kmStep ops s = .ok t)
    (hadr : fadrs < wordMod) (hpos : 1 ≤ fsz) (hle : fsz ≤ 2048) :
    DeleteExact t fadrs fsz ↔ NotFree t.mem fadrs fsz := by
  obtain ⟨lay, hinv⟩ := kmRun_inv hs hown hback hrun
  constructor
  · rintro ⟨-, hrefuse⟩
    refine ⟨fun hslot => ?_, fun hwrap => ?_⟩
    · obtain ⟨hlive, hne⟩ := kmsobDelete_free hinv hpos hle hslot
      exact hne t.mem (hrefuse hlive)
    · obtain ⟨hlive, hne⟩ := kmsobDelete_wrapped hinv hpos hle hadr hwrap
      exact hne t.mem (hrefuse hlive)
  · rintro ⟨hslot, hwrap⟩
    refine ⟨fun hlive => ?_, fun hlive => ?_⟩
    · obtain ⟨m', -, hrun', -⟩ := kmsobDelete_live hinv hpos hle hlive
      exact ⟨m', hrun'⟩
    · exact kmsobDelete_refused hinv hpos hle hadr hlive hslot hwrap

/-! ## Two objects in four pages -/

instance (m : Kmem) (c fadrs : Nat) : Decidable (FreeSlot m c fadrs) :=
  inferInstanceAs (Decidable (∃ kmsp ∈ (m.mgr.ksMsoblst c).olEmplst,
    fadrs ∈ (m.kmsob kmsp).soFrelst))

instance (m : Kmem) (c fadrs fsz : Nat) : Decidable (WrapSlot m c fadrs fsz) :=
  inferInstanceAs (Decidable (wordMod < fadrs + fsz ∧
    ∃ kmsp ∈ (m.mgr.ksMsoblst c).olEmplst,
      (fadrs - (kmsp + sizeofKmsob)) % (m.kmsob kmsp).soObjsz = 0))

instance (m : Kmem) (fadrs fsz : Nat) : Decidable (NotFree m fadrs fsz) :=
  inferInstanceAs (Decidable (_ ∧ _))

/-- A `kmsob_t` with nothing in it. -/
def kmsobZero : Kmsob where
  soVstat := 0
  soVend := 0
  soObjsz := 0
  soMobjnr := 0
  soFobjnr := 0
  soFrelst := []
  soMextlst := []
  soMextnr := 0
  soMc := msomdcInit

/-- The object allocator after boot. -/
def kmBoot (mm : Memgrob) : KmState where
  mem := ⟨mm, kmsobmgrhedInit, fun _ => kmsobZero⟩
  others := []
  live := []

theorem kmBoot_start {b : BootArray} {mm : Memgrob} (h : b.boot = .ok mm) : (kmBoot mm).Start b :=
  ⟨⟨mm, [], h, rfl⟩, rfl, rfl⟩

/-- Test a run from boot. -/
def kmTest (b : BootArray) (ops : List KmOp) (p : KmState → KmOp → Bool) (q : KmState → Bool) :
    Bool :=
  okAnd b.boot fun mm => checkSteps kmStep p ops (kmBoot mm) &&
    okAnd (run kmStep ops (kmBoot mm)) q

/-- `OwnPages` and `BackOk` of a request for an object or one that gives it back. -/
def objFits (st : KmState) : KmOp → Bool
  | .new _ => true
  | .delete fadrs fsz => fadrs < wordMod ∧ NotFree st.mem fadrs fsz
  | .pages _ => false

theorem objFits_fits (st : KmState) (op : KmOp) (h : objFits st op = true) :
    OwnPages st op ∧ BackOk st op := by
  cases op with
  | new msz => exact ⟨fun s n he => (by cases he), fun a fsz he => (by cases he)⟩
  | delete fadrs fsz =>
      refine ⟨fun s n he => (by cases he), fun a sz he => ?_⟩
      cases he
      exact of_decide_eq_true h
  | pages op => cases h

theorem kmTest_run {P : KmState → KmOp → Prop} {p : KmState → KmOp → Bool}
    (hp : ∀ st op, p st op = true → P st op) (b : BootArray) (ops : List KmOp)
    (q : KmState → Bool) (h : kmTest b ops p q = true) : ∃ s t, s.Start b ∧
      AllSteps kmStep P ops s ∧ run kmStep ops s = .ok t ∧ q t = true := by
  obtain ⟨mm, hboot, hq⟩ := exists_of_okAnd h
  rw [Bool.and_eq_true] at hq
  obtain ⟨t, hrun, hqt⟩ := exists_of_okAnd hq.2
  exact ⟨kmBoot mm, t, kmBoot_start hboot, allSteps_of_check hp ops (kmBoot mm) hq.1, hrun, hqt⟩

/-- Two objects of 32 bytes from the first page of `fourPages`; the second one comes back. -/
def twoObjs : List KmOp := [.new 32, .new 32, .delete 0xffff800002000fb0 32]

/-- The object that is left goes back. -/
theorem deleteExact_fourPages : ∃ s t, s.Start fourPages ∧ run kmStep twoObjs s = .ok t ∧
    (DeleteExact t 0xffff800002000fd0 32 ↔ NotFree t.mem 0xffff800002000fd0 32) := by
  obtain ⟨s, t, hs, hall, hrun, -⟩ := kmTest_run objFits_fits fourPages twoObjs
    (fun _ => true) (by decide +kernel)
  exact ⟨s, t, hs, hrun, deleteExact_iff hs (hall.imp fun _ _ hp => hp.1)
    (hall.imp fun _ _ hp => hp.2) hrun (by decide) (by decide) (by decide)⟩

/-- **A slot given back twice** is taken twice.  The counter of free objects then says that all
are free, and the pool is destroyed with an object in use. -/
theorem deleteExact_not : ∃ s t m', s.Start fourPages ∧ AllSteps kmStep OwnPages twoObjs s ∧
    AllSteps kmStep BackOk twoObjs s ∧ run kmStep twoObjs s = .ok t ∧
    t.live = [(0xffff800002000fd0, 32)] ∧
    kmsobDelete t.mem 0xffff800002000fb0 32 = .ok (m', true) ∧ m'.mgr.ksMsobnr = 0 ∧
    ¬ DeleteExact t 0xffff800002000fb0 32 := by
  obtain ⟨s, t, hs, hall, hrun, hq⟩ := kmTest_run objFits_fits fourPages twoObjs
    (fun t => t.live = [(0xffff800002000fd0, 32)] &&
      okAnd (kmsobDelete t.mem 0xffff800002000fb0 32) fun r => r.2 && r.1.mgr.ksMsobnr = 0)
    (by decide +kernel)
  rw [Bool.and_eq_true, decide_eq_true_eq] at hq
  obtain ⟨hlive, hdel⟩ := hq
  obtain ⟨⟨m', r⟩, hdel, hr⟩ := exists_of_okAnd hdel
  rw [Bool.and_eq_true, decide_eq_true_eq] at hr
  obtain ⟨rfl, hnr⟩ := hr
  refine ⟨s, t, m', hs, hall.imp fun _ _ hp => hp.1, hall.imp fun _ _ hp => hp.2, hrun, hlive,
    hdel, hnr, fun hexact => ?_⟩
  have hnot : 0xffff800002000fb0 ∉ liveOf (classOf 32) t.live := by
    rw [hlive]
    decide
  have hno := hexact.2 hnot
  rw [hdel] at hno
  cases hno

end Cosmos.Hal
