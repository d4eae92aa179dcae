import Cosmos.Kernel.KrlvadrsmemSpace

/-!
# Boxes over all address spaces

Any number of address spaces, made at any time, share the boxes of `kvs_kvmemcboxmgr` and
the allocators.  `MmsInv` accounts for every descriptor, box and frame: each belongs to one
address space, or to the cache, or to the rest of the kernel.  A call on one of them keeps
it, since what the others use is foreign to that one.

## Main results

* `boxes_counted` : in every state the manager lists the boxes of the regions, each in use
  as often as its counter says, and the boxes in its cache are empty.
-/

namespace Cosmos.Kernel

open Cosmos.Lib Cosmos.Lib.Run Cosmos.Hal

/-! ## Address spaces -/

/-- `mmadrsdsc_t`, with its address. -/
structure Mmadrsdsc where
  adr : Nat
  msdVirmemadrs : Virmemadrs
  msdThread : Option (Nat × Nat)
  msdMmu : Mmudsc

/-- The address spaces; `cur` is the one that code has last worked on, with what they
share. -/
structure MmsSt where
  cur : VmaSt
  mms : List Mmadrsdsc

/-- `kvmemcboxmgr_t_init`. -/
def kvmemcboxmgrInit : Kvmemcboxmgr where
  kbmKmbnr := 0
  kbmKmbhead := []
  kbmCachenr := 0
  kbmCachemax := kmboxCacheMax
  kbmCachehead := []

/-- Code works on the address space. -/
def VmaSt.enter (s : VmaSt) (mm : Mmadrsdsc) : VmaSt :=
  { s with
    vma := mm.msdVirmemadrs
    msdThread := mm.msdThread
    hal := { s.hal with mmu := mm.msdMmu } }

/-- The address space that code has worked on. -/
def VmaSt.leave (s : VmaSt) (adr : Nat) : Mmadrsdsc where
  adr := adr
  msdVirmemadrs := s.vma
  msdThread := s.msdThread
  msdMmu := s.hal.mmu

/-- What happens: `new_mmadrsdsc`, an address space gets a thread, a call on one. -/
inductive MmsOp where
  | make
  | thread (i : Nat) (file : Option (Nat × Nat))
  | call (i : Nat) (op : VmaOp)
deriving DecidableEq, Repr

/-- One step. -/
def mmsStep (pml4 : Nat → Nat) (k : MmsSt) : MmsOp → Except String MmsSt
  | .make => ((newMmadrsdsc pml4).run k.cur).map fun r =>
      match r.1 with
      | none => ⟨r.2, k.mms⟩
      | some mm => ⟨r.2, k.mms ++ [r.2.leave mm]⟩
  | .thread i file =>
      match k.mms[i]? with
      | none => .ok k
      | some mm => .ok { k with mms := k.mms.set i { mm with msdThread := file } }
  | .call i op =>
      match k.mms[i]? with
      | none => .ok k
      | some mm => (vmaStep (k.cur.enter mm) op).map fun s => ⟨s, k.mms.set i (s.leave mm.adr)⟩

/-- The arguments of a call are in order. -/
def MmsOp.Proper : MmsOp → Prop
  | .call _ op => op.NoWrap ∧ op.PageAligned
  | _ => True

instance (op : MmsOp) : Decidable op.Proper :=
  match op with
  | .make => inferInstanceAs (Decidable True)
  | .thread _ _ => inferInstanceAs (Decidable True)
  | .call _ op => inferInstanceAs (Decidable (op.NoWrap ∧ op.PageAligned))

/-- A fault comes for an address that is not mapped. -/
def FreshCall (k : MmsSt) : MmsOp → Prop
  | .call i op => ∀ mm, k.mms[i]? = some mm → FreshFault (k.cur.enter mm) op
  | _ => True

instance (k : MmsSt) (op : MmsOp) : Decidable (FreshCall k op) :=
  match op with
  | .make => inferInstanceAs (Decidable True)
  | .thread _ _ => inferInstanceAs (Decidable True)
  | .call i op => inferInstanceAs (Decidable (∀ mm ∈ k.mms[i]?, FreshFault (k.cur.enter mm) op))

/-- The range of a call does not wrap. -/
def MmsOp.NoWrap : MmsOp → Prop
  | .call _ op => op.NoWrap
  | _ => True

instance (op : MmsOp) : Decidable op.NoWrap :=
  match op with
  | .make => inferInstanceAs (Decidable True)
  | .thread _ _ => inferInstanceAs (Decidable True)
  | .call _ op => inferInstanceAs (Decidable op.NoWrap)

/-- A range that is freed starts with a page. -/
def MmsOp.FreesPages : MmsOp → Prop
  | .call _ op => op.FreesPages
  | _ => True

instance (op : MmsOp) : Decidable op.FreesPages :=
  match op with
  | .make => inferInstanceAs (Decidable True)
  | .thread _ _ => inferInstanceAs (Decidable True)
  | .call _ op => inferInstanceAs (Decidable op.FreesPages)

/-- A fault that is served is for an address that is not mapped. -/
def ServesFreshCall (k : MmsSt) : MmsOp → Prop
  | .call i op => ∀ mm, k.mms[i]? = some mm → ServesFresh (k.cur.enter mm) op
  | _ => True

/-- The frames of the pages that are freed are below `2^40`. -/
def FreesLowCall (k : MmsSt) : MmsOp → Prop
  | .call i op => ∀ mm, k.mms[i]? = some mm → FreesLow (k.cur.enter mm) op
  | _ => True

instance (k : MmsSt) (op : MmsOp) : Decidable (FreesLowCall k op) :=
  match op with
  | .make => inferInstanceAs (Decidable True)
  | .thread _ _ => inferInstanceAs (Decidable True)
  | .call i op => inferInstanceAs (Decidable (∀ mm ∈ k.mms[i]?, FreesLow (k.cur.enter mm) op))

theorem MmsOp.Proper.noWrap {op : MmsOp} (h : op.Proper) : op.NoWrap ∧ op.FreesPages := by
  cases op with
  | make => exact ⟨trivial, trivial⟩
  | thread i file => exact ⟨trivial, trivial⟩
  | call i op => exact ⟨h.1, h.2.freesPages⟩

theorem FreshCall.serves {k : MmsSt} {op : MmsOp} (h : FreshCall k op) : ServesFreshCall k op := by
  cases op with
  | make => trivial
  | thread i file => trivial
  | call i op => exact fun mm hi => (h mm hi).serves

/-! ## The accounts -/

/-- The boxes of an address space. -/
def Mmadrsdsc.boxes (mm : Mmadrsdsc) : List Nat := mm.msdVirmemadrs.boxes

/-- The kernel objects of an address space. -/
def Mmadrsdsc.objs (mm : Mmadrsdsc) : List Nat :=
  mm.msdVirmemadrs.vsList.map Kmvarsdsc.adr ++ mm.boxes

/-- The regions of an address space whose box is `b`. -/
def Mmadrsdsc.users (mm : Mmadrsdsc) (b : Nat) : Nat :=
  (mm.msdVirmemadrs.vsList.map Kmvarsdsc.kvaKvmbox).count (some b)

/-- **Every object has one place, and no frame has two**; `base` are the objects of the rest
of the kernel. -/
structure MmsBase (base : List Nat) (s : VmaSt) (mms : List Mmadrsdsc) : Prop where
  out : s.kms.out.Perm (mms.flatMap Mmadrsdsc.objs ++ (s.mgr.kbmCachehead ++ base))
  head : s.mgr.kbmKmbhead.Perm (mms.flatMap Mmadrsdsc.boxes)
  mgr : MgrOk s.mgr
  cont : ∀ mm ∈ mms, ∀ b ∈ mm.boxes, (s.box b).kmbCont = (mm.users b : Nat)
  uses : ∀ mm ∈ mms, ∀ f, Uses (s.enter mm) f → f ∈ s.hal.pgs.out
  apart : mms.Pairwise fun mm mm' => ∀ f, Uses (s.enter mm) f → ¬ Uses (s.enter mm') f

/-- The accounts, and each address space is of some kind. -/
structure MmsPages (pml4 : Nat → Nat) (base : List Nat) (s : VmaSt) (mms : List Mmadrsdsc) :
    Prop where
  accounts : MmsBase base s mms
  space : ∀ mm ∈ mms, SpaceMap pml4 (s.enter mm)

/-- The accounts when frames and pages correspond: the boxes in the cache are empty. -/
structure MmsInv (pml4 : Nat → Nat) (base : List Nat) (s : VmaSt) (mms : List Mmadrsdsc) :
    Prop where
  out : s.kms.out.Perm (mms.flatMap Mmadrsdsc.objs ++ (s.mgr.kbmCachehead ++ base))
  head : s.mgr.kbmKmbhead.Perm (mms.flatMap Mmadrsdsc.boxes)
  mgr : MgrOk s.mgr
  cont : ∀ mm ∈ mms, ∀ b ∈ mm.boxes, (s.box b).kmbCont = (mm.users b : Nat)
  cache : ∀ b ∈ s.mgr.kbmCachehead, (s.box b).kmbMsalist = []
  space : ∀ mm ∈ mms, SpaceOk pml4 (s.enter mm)
  uses : ∀ mm ∈ mms, ∀ f, Uses (s.enter mm) f → f ∈ s.hal.pgs.out
  apart : mms.Pairwise fun mm mm' => ∀ f, Uses (s.enter mm) f → ¬ Uses (s.enter mm') f

section Inv

variable {pml4 : Nat → Nat} {base base' : List Nat} {s s' : VmaSt} {mms mms' rest : List Mmadrsdsc}
  {a a' : Nat}

theorem MmsInv.accounts (h : MmsInv pml4 base s mms) : MmsBase base s mms :=
  ⟨h.out, h.head, h.mgr, h.cont, h.uses, h.apart⟩

theorem MmsBase.perm (h : MmsBase base s mms) (hp : mms.Perm mms') : MmsBase base s mms' where
  out := h.out.trans ((hp.flatMap_right _).append_right _)
  head := h.head.trans (hp.flatMap_right _)
  mgr := h.mgr
  cont mm hm := h.cont mm (hp.mem_iff.mpr hm)
  uses mm hm := h.uses mm (hp.mem_iff.mpr hm)
  apart := (hp.pairwise_iff fun hxy f hy hx => hxy f hx hy).mp h.apart

theorem MmsPages.perm (h : MmsPages pml4 base s mms) (hp : mms.Perm mms') :
    MmsPages pml4 base s mms' :=
  ⟨h.accounts.perm hp, fun mm hm => h.space mm (hp.mem_iff.mpr hm)⟩

theorem MmsInv.perm (h : MmsInv pml4 base s mms) (hp : mms.Perm mms') :
    MmsInv pml4 base s mms' :=
  have hb := h.accounts.perm hp
  ⟨hb.out, hb.head, hb.mgr, hb.cont, h.cache, fun mm hm => h.space mm (hp.mem_iff.mpr hm), hb.uses,
    hb.apart⟩

/-- The objects from the point of view of one address space: those of the rest of the
kernel, and of the others. -/
theorem MmsBase.objs (h : MmsBase base s (s.leave a :: rest)) :
    Objs (rest.flatMap Mmadrsdsc.boxes) (base ++ rest.flatMap Mmadrsdsc.objs) s s.vma.boxes where
  out := by
    refine h.out.trans (List.perm_iff_count.mpr fun x => ?_)
    show ((s.vma.vsList.map Kmvarsdsc.adr ++ s.vma.boxes) ++ rest.flatMap Mmadrsdsc.objs ++ _).count x
      = _
    simp only [List.count_append]
    omega
  head := h.head
  others b hb := by
    obtain ⟨mm, hm, hbm⟩ := List.mem_flatMap.mp hb
    exact List.mem_append_right _ (List.mem_flatMap.mpr ⟨mm, hm, List.mem_append_right _ hbm⟩)
  users _ := mem_boxes.symm
  cont b hb := h.cont (s.leave a) List.mem_cons_self b hb

theorem Objs.not_mem_boxes {head0 mine : List Nat} (h : Objs head0 base s mine) {b : Nat}
    (hb : b ∈ head0 ∨ b ∈ s.mgr.kbmCachehead) : b ∉ mine := by
  intro hm
  have hapart := (List.nodup_append.mp (List.nodup_append.mp h.nodup).2.1).2.2
  refine hapart b hm b ?_ rfl
  rcases hb with hb | hb
  · exact List.mem_append_right _ (h.others b hb)
  · exact List.mem_append_left _ hb

/-- What the others use is foreign to the address space. -/
theorem MmsBase.foreign (h : MmsBase base s (s.leave a :: rest)) {mm : Mmadrsdsc} (hm : mm ∈ rest)
    {f : PageFrame} (hf : Uses (s.enter mm) f) : Foreign s s.vma.boxes f := by
  have hno : ¬ Uses s f := fun hs => (List.pairwise_cons.mp h.apart).1 mm hm f hs hf
  exact ⟨h.uses mm (List.mem_cons_of_mem _ hm) f hf, fun lv hlv => hno (Or.inl ⟨lv, hlv⟩),
    fun c hc hfc => hno (Or.inr ⟨c, hc, hfc⟩)⟩

/-- The others keep their boxes, their frames stay out, and their words stay. -/
theorem MmsBase.others (h : MmsBase base s (s.leave a :: rest))
    (hc : AnyCall (rest.flatMap Mmadrsdsc.boxes) (base' ++ rest.flatMap Mmadrsdsc.objs) s s')
    {mm : Mmadrsdsc} (hm : mm ∈ rest) : (∀ b ∈ mm.boxes, s'.box b = s.box b) ∧
      ∀ f, Uses (s.enter mm) f → Foreign s' s'.vma.boxes f ∧ s'.hal.tbl f = s.hal.tbl f := by
  refine ⟨fun b hb => ?_, fun f hf => hc.spares f (h.foreign hm hf)⟩
  have hb0 : b ∈ rest.flatMap Mmadrsdsc.boxes := List.mem_flatMap.mpr ⟨mm, hm, hb⟩
  exact hc.keeps.box b (h.objs.not_mem_boxes (Or.inl hb0)) (hc.objs.not_mem_boxes (Or.inl hb0))

/-- **A call on one of the address spaces** keeps the accounts of all. -/
theorem MmsBase.call (h : MmsBase base s (s.leave a :: rest))
    (hc : AnyCall (rest.flatMap Mmadrsdsc.boxes) (base' ++ rest.flatMap Mmadrsdsc.objs) s s') :
    MmsBase base' s' (s'.leave a' :: rest) := by
  have huses : ∀ mm ∈ rest, ∀ f, Uses (s'.enter mm) f ↔ Uses (s.enter mm) f := fun mm hm =>
    uses_iff rfl rfl (h.others hc hm).1
  refine {
    out := hc.objs.out.trans (List.perm_iff_count.mpr fun x => ?_)
    head := hc.objs.head
    mgr := hc.keeps.mgr h.mgr
    cont := fun mm hm b hb => ?_
    uses := fun mm hm f hf => ?_
    apart := List.pairwise_cons.mpr ⟨fun mm hm f hf hf' => ?_, ?_⟩ }
  · show _ = ((s'.vma.vsList.map Kmvarsdsc.adr ++ s'.vma.boxes) ++ rest.flatMap Mmadrsdsc.objs ++
      _).count x
    simp only [List.count_append]
    omega
  · rcases List.mem_cons.mp hm with rfl | hm
    · exact hc.objs.cont b hb
    · rw [(h.others hc hm).1 b hb]
      exact h.cont mm (List.mem_cons_of_mem _ hm) b hb
  · rcases List.mem_cons.mp hm with rfl | hm
    · exact hc.uses f hf
    · exact ((h.others hc hm).2 f ((huses mm hm f).mp hf)).1.out
  · obtain ⟨hforeign, -⟩ := (h.others hc hm).2 f ((huses mm hm f).mp hf')
    rcases hf with ⟨lv, hlv⟩ | ⟨b, hb, hfb⟩
    · exact hforeign.table lv hlv
    · exact hforeign.boxed b hb hfb
  · refine (List.pairwise_cons.mp h.apart).2.imp_of_mem fun hm hm' hap f hf hf' => ?_
    exact hap f ((huses _ hm f).mp hf) ((huses _ hm' f).mp hf')

theorem MmsPages.call (h : MmsPages pml4 base s (s.leave a :: rest))
    (hc : AnyCall (rest.flatMap Mmadrsdsc.boxes) (base' ++ rest.flatMap Mmadrsdsc.objs) s s')
    (hs : SpaceMap pml4 s') : MmsPages pml4 base' s' (s'.leave a' :: rest) := by
  refine ⟨h.accounts.call hc, fun mm hm => ?_⟩
  rcases List.mem_cons.mp hm with rfl | hm
  · exact hs
  · obtain ⟨hbox, hspared⟩ := h.accounts.others hc hm
    exact (h.space mm (List.mem_cons_of_mem _ hm)).elsewhere rfl rfl
      (fun f hf => ⟨(hspared f hf).1.out, (hspared f hf).2⟩) hbox

theorem MmsInv.call (h : MmsInv pml4 base s (s.leave a :: rest))
    (hc : Call (rest.flatMap Mmadrsdsc.boxes) (base' ++ rest.flatMap Mmadrsdsc.objs) s s')
    (hs : SpaceOk pml4 s') : MmsInv pml4 base' s' (s'.leave a' :: rest) := by
  have hb : MmsBase base' s' (s'.leave a' :: rest) := h.accounts.call hc.any
  refine ⟨hb.out, hb.head, hb.mgr, hb.cont, fun b hb => ?_, fun mm hm => ?_, hb.uses, hb.apart⟩
  · have hb' : b ∉ s'.vma.boxes := hc.objs.not_mem_boxes (Or.inr hb)
    by_cases hbs : b ∈ s.vma.boxes
    · exact hc.left b hbs hb'
    · rw [hc.keeps.box b hbs hb']
      exact h.cache b ((hc.keeps.cache b hb).resolve_right hbs)
  · rcases List.mem_cons.mp hm with rfl | hm
    · exact hs
    · obtain ⟨hbox, hspared⟩ := h.accounts.others hc.any hm
      exact (h.space mm (List.mem_cons_of_mem _ hm)).elsewhere rfl rfl
        (fun f hf => ⟨(hspared f hf).1.out, (hspared f hf).2⟩) hbox

/-- Which one code works on is not accounted for. -/
theorem MmsInv.enter_iff {mm : Mmadrsdsc} :
    MmsInv pml4 base (s.enter mm) mms ↔ MmsInv pml4 base s mms :=
  ⟨fun h => ⟨h.out, h.head, h.mgr, h.cont, h.cache, h.space, h.uses, h.apart⟩,
    fun h => ⟨h.out, h.head, h.mgr, h.cont, h.cache, h.space, h.uses, h.apart⟩⟩

theorem MmsPages.enter_iff {mm : Mmadrsdsc} :
    MmsPages pml4 base (s.enter mm) mms ↔ MmsPages pml4 base s mms :=
  ⟨fun ⟨h, hs⟩ => ⟨⟨h.out, h.head, h.mgr, h.cont, h.uses, h.apart⟩, hs⟩,
    fun ⟨h, hs⟩ => ⟨⟨h.out, h.head, h.mgr, h.cont, h.uses, h.apart⟩, hs⟩⟩

/-- Another thread changes nothing that is accounted for. -/
theorem MmsBase.threadCall {mm : Mmadrsdsc} (h : MmsBase base s (mm :: rest))
    (file : Option (Nat × Nat)) :
    Call (rest.flatMap Mmadrsdsc.boxes) (base ++ rest.flatMap Mmadrsdsc.objs) (s.enter mm)
      (s.enter { mm with msdThread := file }) := by
  have he : MmsBase base (s.enter mm) ((s.enter mm).leave mm.adr :: rest) :=
    ⟨h.out, h.head, h.mgr, h.cont, h.uses, h.apart⟩
  exact {
    objs := ⟨he.objs.out, he.objs.head, he.objs.others, he.objs.users, he.objs.cont⟩
    keeps := ⟨fun _ _ _ => rfl, fun _ hc => Or.inl hc, fun hok => hok⟩
    spares := spares_of_same rfl fun c hc => Or.inl ⟨hc, rfl⟩
    left := fun b hb hb' => absurd hb hb'
    uses := h.uses mm List.mem_cons_self }

/-- An address space gets another thread. -/
theorem MmsInv.thread {mm : Mmadrsdsc} (h : MmsInv pml4 base s (mm :: rest))
    (file : Option (Nat × Nat)) : MmsInv pml4 base s ({ mm with msdThread := file } :: rest) := by
  have he : MmsInv pml4 base (s.enter mm) ((s.enter mm).leave mm.adr :: rest) :=
    MmsInv.enter_iff.mpr h
  have hs : SpaceOk pml4 (s.enter { mm with msdThread := file }) :=
    (h.space mm List.mem_cons_self).elsewhere rfl rfl
      (fun f hf => ⟨h.uses mm List.mem_cons_self f hf, rfl⟩) fun _ _ => rfl
  have hcall : MmsInv pml4 base (s.enter { mm with msdThread := file })
      ((s.enter { mm with msdThread := file }).leave mm.adr :: rest) :=
    he.call (h.accounts.threadCall file) hs
  exact MmsInv.enter_iff.mp hcall

theorem MmsPages.thread {mm : Mmadrsdsc} (h : MmsPages pml4 base s (mm :: rest))
    (file : Option (Nat × Nat)) : MmsPages pml4 base s ({ mm with msdThread := file } :: rest) := by
  have he : MmsPages pml4 base (s.enter mm) ((s.enter mm).leave mm.adr :: rest) :=
    MmsPages.enter_iff.mpr h
  have hs : SpaceMap pml4 (s.enter { mm with msdThread := file }) :=
    (h.space mm List.mem_cons_self).elsewhere rfl rfl
      (fun f hf => ⟨h.accounts.uses mm List.mem_cons_self f hf, rfl⟩) fun _ _ => rfl
  have hcall : MmsPages pml4 base (s.enter { mm with msdThread := file })
      ((s.enter { mm with msdThread := file }).leave mm.adr :: rest) :=
    he.call (h.accounts.threadCall file).any hs
  exact MmsPages.enter_iff.mp hcall

/-- An address space that has nothing yet. -/
theorem MmsBase.cleared (h : MmsBase base s mms) :
    MmsBase base s.cleared (s.cleared.leave a :: mms) := by
  have hno : ∀ f, ¬ Uses s.cleared f := by
    rintro f (⟨lv, hlv⟩ | ⟨b, hb, -⟩)
    · cases hlv
    · cases hb
  refine ⟨h.out, h.head, h.mgr, fun mm hm b hb => ?_, fun mm hm f hf => ?_,
    List.pairwise_cons.mpr ⟨fun _ _ f hf => absurd hf (hno f), h.apart⟩⟩
  · rcases List.mem_cons.mp hm with rfl | hm
    · cases hb
    · exact h.cont mm hm b hb
  · rcases List.mem_cons.mp hm with rfl | hm
    · exact absurd hf (hno f)
    · exact h.uses mm hm f hf

theorem MmsPages.cleared (h : MmsPages pml4 base s mms) :
    MmsPages pml4 base s.cleared (s.cleared.leave a :: mms) := by
  refine ⟨h.accounts.cleared, fun mm hm => ?_⟩
  rcases List.mem_cons.mp hm with rfl | hm
  · exact .noRegion rfl
  · exact h.space mm hm

theorem MmsInv.cleared (h : MmsInv pml4 base s mms) :
    MmsInv pml4 base s.cleared (s.cleared.leave a :: mms) := by
  have hb : MmsBase base s.cleared (s.cleared.leave a :: mms) := h.accounts.cleared
  refine ⟨hb.out, hb.head, hb.mgr, hb.cont, h.cache, fun mm hm => ?_, hb.uses, hb.apart⟩
  rcases List.mem_cons.mp hm with rfl | hm
  · exact .noRegion rfl
  · exact h.space mm hm

/-- Nothing that is accounted for changes. -/
theorem MmsBase.same (h : MmsBase base s mms) {kms : Supply Nat} (hout : kms.out = s.kms.out) :
    MmsBase base { s with kms := kms } mms := by
  have hperm := h.out
  rw [← hout] at hperm
  exact ⟨hperm, h.head, h.mgr, h.cont, h.uses, h.apart⟩

theorem MmsPages.same (h : MmsPages pml4 base s mms) {kms : Supply Nat}
    (hout : kms.out = s.kms.out) : MmsPages pml4 base { s with kms := kms } mms :=
  ⟨h.accounts.same hout, fun mm hm => (h.space mm hm).elsewhere rfl rfl
    (fun f hf => ⟨h.accounts.uses mm hm f hf, rfl⟩) fun _ _ => rfl⟩

theorem MmsInv.same (h : MmsInv pml4 base s mms) {kms : Supply Nat} (hout : kms.out = s.kms.out) :
    MmsInv pml4 base { s with kms := kms } mms := by
  have hb := h.accounts.same hout
  exact ⟨hb.out, hb.head, hb.mgr, hb.cont, h.cache,
    fun mm hm => (h.space mm hm).elsewhere rfl rfl (fun f hf => ⟨h.uses mm hm f hf, rfl⟩)
      fun _ _ => rfl, hb.uses, hb.apart⟩

end Inv

/-! ## Steps -/

section Steps

variable {pdptepd : Nat}

/-- The address space at a place of the list, and the others. -/
theorem exists_rest {mms : List Mmadrsdsc} {i : Nat} {mm : Mmadrsdsc} (h : mms[i]? = some mm) :
    ∃ rest, mms.Perm (mm :: rest) ∧ ∀ mm', (mms.set i mm').Perm (mm' :: rest) := by
  obtain ⟨hi, rfl⟩ := List.getElem?_eq_some_iff.mp h
  exact ⟨mms.eraseIdx i, (List.getElem_cons_eraseIdx_perm hi).symm,
    fun mm' => List.set_perm_cons_eraseIdx hi mm'⟩

/-- What a step can do. -/
def MmsMove (pml4 : Nat → Nat) (k k' : MmsSt) : MmsOp → Prop
  | .make =>
      (∃ kms, kms.out = k.cur.kms.out ∧ k' = ⟨{ k.cur with kms := kms }, k.mms⟩) ∨
      ∃ mm s, (newMmadrsdsc pml4).run k.cur = .ok (some mm, s) ∧ k' = ⟨s, k.mms ++ [s.leave mm]⟩
  | .thread i file =>
      k' = k ∨ ∃ mm, k.mms[i]? = some mm ∧
        k' = { k with mms := k.mms.set i { mm with msdThread := file } }
  | .call i op =>
      k' = k ∨ ∃ mm s, k.mms[i]? = some mm ∧ vmaStep (k.cur.enter mm) op = .ok s ∧
        k' = ⟨s, k.mms.set i (s.leave mm.adr)⟩

theorem mmsStep_move {pml4 : Nat → Nat} {k k' : MmsSt} {op : MmsOp}
    (h : mmsStep pml4 k op = .ok k') : MmsMove pml4 k k' op := by
  cases op with
  | make =>
      obtain ⟨⟨o, s⟩, hrun, rfl⟩ := exists_of_map_ok h
      cases o with
      | none =>
          obtain ⟨kms, hout, rfl⟩ := newMmadrsdsc_none hrun
          exact Or.inl ⟨kms, hout, rfl⟩
      | some mm => exact Or.inr ⟨mm, s, hrun, rfl⟩
  | thread i file =>
      change (match k.mms[i]? with
        | none => .ok k
        | some mm => .ok { k with mms := k.mms.set i { mm with msdThread := file } } :
          Except String MmsSt) = _ at h
      cases hi : k.mms[i]? with
      | none =>
          rw [hi] at h
          cases h
          exact Or.inl rfl
      | some mm =>
          rw [hi] at h
          cases h
          exact Or.inr ⟨mm, hi, rfl⟩
  | call i op =>
      change (match k.mms[i]? with
        | none => .ok k
        | some mm => (vmaStep (k.cur.enter mm) op).map fun s => ⟨s, k.mms.set i (s.leave mm.adr)⟩ :
          Except String MmsSt) = _ at h
      cases hi : k.mms[i]? with
      | none =>
          rw [hi] at h
          cases h
          exact Or.inl rfl
      | some mm =>
          rw [hi] at h
          obtain ⟨s, hs, rfl⟩ := exists_of_map_ok h
          exact Or.inr ⟨mm, s, hi, hs, rfl⟩

/-- The accounts with the address space at a place of the list in front. -/
theorem MmsInv.front {pml4 : Nat → Nat} {base : List Nat} {k : MmsSt} {i : Nat} {mm : Mmadrsdsc}
    (h : MmsInv pml4 base k.cur k.mms) (hi : k.mms[i]? = some mm) : ∃ rest,
    MmsInv pml4 base (k.cur.enter mm) ((k.cur.enter mm).leave mm.adr :: rest) ∧
      ∀ mm', (k.mms.set i mm').Perm (mm' :: rest) := by
  obtain ⟨rest, hrest, hset⟩ := exists_rest hi
  exact ⟨rest, MmsInv.enter_iff.mpr (h.perm hrest), hset⟩

theorem MmsPages.front {pml4 : Nat → Nat} {base : List Nat} {k : MmsSt} {i : Nat} {mm : Mmadrsdsc}
    (h : MmsPages pml4 base k.cur k.mms) (hi : k.mms[i]? = some mm) : ∃ rest,
    MmsPages pml4 base (k.cur.enter mm) ((k.cur.enter mm).leave mm.adr :: rest) ∧
      ∀ mm', (k.mms.set i mm').Perm (mm' :: rest) := by
  obtain ⟨rest, hrest, hset⟩ := exists_rest hi
  exact ⟨rest, MmsPages.enter_iff.mpr (h.perm hrest), hset⟩

/-- **Each step** keeps the accounts. -/
theorem mmsStep_pages (k : MmsSt) (op : MmsOp) (k' : MmsSt)
    (h : ∃ base, MmsPages (copyPagesData pdptepd) base k.cur k.mms)
    (hop : op.NoWrap) (hstep : mmsStep (copyPagesData pdptepd) k op = .ok k') :
    ∃ base, MmsPages (copyPagesData pdptepd) base k'.cur k'.mms := by
  obtain ⟨base, h⟩ := h
  have hmove := mmsStep_move hstep
  cases op with
  | make =>
      obtain ⟨kms, hout, rfl⟩ | ⟨mm, s, hrun, rfl⟩ := hmove
      · exact ⟨base, h.same hout⟩
      · obtain ⟨hcall, hs⟩ := newMmadrsdsc_call (h.accounts.cleared (a := mm)).objs hrun
        exact ⟨mm :: base, ((h.cleared (a := mm)).call hcall.any hs.spaceMap).perm
          (List.perm_append_singleton _ _).symm⟩
  | thread i file =>
      obtain rfl | ⟨mm, hi, rfl⟩ := hmove
      · exact ⟨base, h⟩
      · obtain ⟨rest, hrest, hset⟩ := exists_rest hi
        exact ⟨base, ((h.perm hrest).thread file).perm (hset _).symm⟩
  | call i op =>
      obtain rfl | ⟨mm, s, hi, hs, rfl⟩ := hmove
      · exact ⟨base, h⟩
      · obtain ⟨rest, he, hset⟩ := h.front hi
        obtain ⟨hcall, hspace⟩ := (he.space _ List.mem_cons_self).call he.accounts.objs
          (he.accounts.uses _ List.mem_cons_self) hop hs
        exact ⟨base, (he.call hcall hspace).perm (hset _).symm⟩

/-- Each step keeps frames and pages together. -/
theorem mmsStep_inv (k : MmsSt) (op : MmsOp) (k' : MmsSt)
    (h : ∃ base, MmsInv (copyPagesData pdptepd) base k.cur k.mms)
    (hop : (op.NoWrap ∧ op.FreesPages) ∧ ServesFreshCall k op ∧ FreesLowCall k op)
    (hstep : mmsStep (copyPagesData pdptepd) k op = .ok k') :
    ∃ base, MmsInv (copyPagesData pdptepd) base k'.cur k'.mms := by
  obtain ⟨base, h⟩ := h
  have hmove := mmsStep_move hstep
  cases op with
  | make =>
      obtain ⟨kms, hout, rfl⟩ | ⟨mm, s, hrun, rfl⟩ := hmove
      · exact ⟨base, h.same hout⟩
      · obtain ⟨hcall, hs⟩ := newMmadrsdsc_call (h.accounts.cleared (a := mm)).objs hrun
        exact ⟨mm :: base,
          ((h.cleared (a := mm)).call hcall hs).perm (List.perm_append_singleton _ _).symm⟩
  | thread i file =>
      obtain rfl | ⟨mm, hi, rfl⟩ := hmove
      · exact ⟨base, h⟩
      · obtain ⟨rest, hrest, hset⟩ := exists_rest hi
        exact ⟨base, ((h.perm hrest).thread file).perm (hset _).symm⟩
  | call i op =>
      obtain rfl | ⟨mm, s, hi, hs, rfl⟩ := hmove
      · exact ⟨base, h⟩
      · obtain ⟨rest, he, hset⟩ := h.front hi
        obtain ⟨hcall, hspace⟩ := (he.space _ List.mem_cons_self).call he.accounts.objs
          (he.uses _ List.mem_cons_self) hop.1 ⟨hop.2.1 mm hi, hop.2.2 mm hi⟩ hs
        exact ⟨base, (he.call hcall hspace).perm (hset _).symm⟩

/-- Nothing is there yet. -/
theorem MmsInv.start {pml4 : Nat → Nat} {k : VmaSt} (hk : k.mgr = kvmemcboxmgrInit) :
    MmsInv pml4 k.kms.out k [] where
  out := by
    rw [hk]
    exact List.Perm.refl _
  head := by
    rw [hk]
    exact List.Perm.refl _
  mgr := by
    rw [hk]
    exact ⟨rfl, rfl, Nat.zero_le _⟩
  cont mm hm := absurd hm List.not_mem_nil
  cache b hb := by
    rw [hk] at hb
    exact absurd hb List.not_mem_nil
  space mm hm := absurd hm List.not_mem_nil
  uses mm hm := absurd hm List.not_mem_nil
  apart := List.Pairwise.nil

/-- Every state of runs whose ranges do not wrap. -/
theorem run_mmsPages (pdptepd : Nat) {k : VmaSt} (hk : k.mgr = kvmemcboxmgrInit)
    (ops : List MmsOp) (hops : ∀ op ∈ ops, op.NoWrap) {k' : MmsSt}
    (hrun : run (mmsStep (copyPagesData pdptepd)) ops ⟨k, []⟩ = .ok k') :
    ∃ base, MmsPages (copyPagesData pdptepd) base k'.cur k'.mms := by
  have h : MmsInv (copyPagesData pdptepd) k.kms.out k [] := MmsInv.start hk
  exact run_inv_of_allSteps (fun k => ∃ base, MmsPages (copyPagesData pdptepd) base k.cur k.mms)
    (fun _ op => op.NoWrap) mmsStep_pages ops ⟨k, []⟩ k'
    ⟨_, h.accounts, fun mm hm => absurd hm List.not_mem_nil⟩ (allSteps_of_forall ops _ hops) hrun

/-- Every state of runs that free whole pages, with frames below `2^40`, and serve faults for
pages that are not mapped. -/
theorem run_mmsInv (pdptepd : Nat) {k : VmaSt} (hk : k.mgr = kvmemcboxmgrInit)
    (ops : List MmsOp) (hops : ∀ op ∈ ops, op.NoWrap ∧ op.FreesPages) {k' : MmsSt}
    (hfresh : AllSteps (mmsStep (copyPagesData pdptepd)) ServesFreshCall ops ⟨k, []⟩)
    (hlow : AllSteps (mmsStep (copyPagesData pdptepd)) FreesLowCall ops ⟨k, []⟩)
    (hrun : run (mmsStep (copyPagesData pdptepd)) ops ⟨k, []⟩ = .ok k') :
    ∃ base, MmsInv (copyPagesData pdptepd) base k'.cur k'.mms :=
  run_inv_of_allSteps (fun k => ∃ base, MmsInv (copyPagesData pdptepd) base k.cur k.mms) _
    mmsStep_inv ops ⟨k, []⟩ k' ⟨_, MmsInv.start hk⟩
      ((allSteps_of_forall ops _ hops).and (hfresh.and hlow)) hrun

end Steps

/-! ## Every run -/

/-- The manager counts and lists the boxes of the regions of all address spaces, and its
cache has empty boxes that none of them uses. -/
structure BoxesCounted (k : MmsSt) : Prop where
  cont : ∀ b ∈ k.cur.mgr.kbmKmbhead,
    (k.cur.box b).kmbCont = ((k.mms.map fun mm => mm.users b).sum : Nat) ∧
      1 ≤ (k.cur.box b).kmbCont
  cached : ∀ b ∈ k.cur.mgr.kbmCachehead, ∀ mm ∈ k.mms, ∀ r ∈ mm.msdVirmemadrs.vsList,
    r.kvaKvmbox ≠ some b
  kmbnr : k.cur.mgr.kbmKmbnr = k.cur.mgr.kbmKmbhead.length
  cachenr : k.cur.mgr.kbmCachenr = k.cur.mgr.kbmCachehead.length
  max : k.cur.mgr.kbmCachenr ≤ k.cur.mgr.kbmCachemax
  empty : ∀ b ∈ k.cur.mgr.kbmCachehead, (k.cur.box b).kmbMsalist = []

section Runs

variable {pml4 : Nat → Nat} {base : List Nat} {s : VmaSt} {mms rest : List Mmadrsdsc} {a b : Nat}

theorem Mmadrsdsc.users_pos {mm : Mmadrsdsc} : 0 < mm.users b ↔ b ∈ mm.boxes :=
  List.count_pos_iff.trans mem_boxes.symm

/-- No other address space uses the box. -/
theorem MmsInv.users_sum (h : MmsInv pml4 base s (s.leave a :: rest)) (hb : b ∈ s.vma.boxes) :
    ((s.leave a :: rest).map fun mm => mm.users b).sum = (s.leave a).users b := by
  rw [List.map_cons, List.sum_cons, List.sum_eq_zero]
  · rfl
  · intro n hn
    obtain ⟨mm, hm, rfl⟩ := List.mem_map.mp hn
    by_contra h0
    have hbm : b ∈ mm.boxes := Mmadrsdsc.users_pos.mp (Nat.pos_of_ne_zero h0)
    exact h.accounts.objs.not_mem_boxes (Or.inl (List.mem_flatMap.mpr ⟨mm, hm, hbm⟩)) hb

theorem MmsInv.boxesCounted {k : MmsSt} (h : MmsInv pml4 base k.cur k.mms) : BoxesCounted k := by
  -- each address space in turn is the one that code works on
  have hfirst : ∀ mm ∈ k.mms, ∃ rest, k.mms.Perm (mm :: rest) ∧
      MmsInv pml4 base (k.cur.enter mm) ((k.cur.enter mm).leave mm.adr :: rest) := by
    intro mm hm
    obtain ⟨i, hi⟩ := List.mem_iff_getElem?.mp hm
    obtain ⟨rest, hrest, -⟩ := exists_rest hi
    exact ⟨rest, hrest, MmsInv.enter_iff.mpr (h.perm hrest)⟩
  refine ⟨fun b hb => ?_, fun b hb mm hm r hr hrb => ?_, h.mgr.kmbnr, h.mgr.cachenr, h.mgr.max,
    h.cache⟩
  · obtain ⟨mm, hm, hbm⟩ := List.mem_flatMap.mp (h.head.mem_iff.mp hb)
    obtain ⟨rest, hrest, hinv⟩ := hfirst mm hm
    have hsum : (k.mms.map fun mm => mm.users b).sum = mm.users b :=
      (hrest.map _).sum_eq.trans (hinv.users_sum hbm)
    have hpos : 0 < mm.users b := Mmadrsdsc.users_pos.mpr hbm
    have hcont := h.cont mm hm b hbm
    rw [hsum]
    exact ⟨hcont, by omega⟩
  · obtain ⟨rest, -, hinv⟩ := hfirst mm hm
    refine hinv.accounts.objs.not_mem_boxes (Or.inr hb) (mem_boxes.mpr ?_)
    exact hrb ▸ List.mem_map_of_mem hr

/-- **Boxes are counted**, in every state that any calls on any address spaces lead to whose
ranges start with a page and do not wrap, as long as each fault is for an address that is
not mapped, and the frames of the pages that are freed are below `2^40`. -/
theorem boxes_counted (pdptepd : Nat) {k : VmaSt} (hk : k.mgr = kvmemcboxmgrInit)
    (ops : List MmsOp) (hops : ∀ op ∈ ops, op.Proper) {k' : MmsSt}
    (hfresh : AllSteps (mmsStep (copyPagesData pdptepd)) FreshCall ops ⟨k, []⟩)
    (hlow : AllSteps (mmsStep (copyPagesData pdptepd)) FreesLowCall ops ⟨k, []⟩)
    (hrun : run (mmsStep (copyPagesData pdptepd)) ops ⟨k, []⟩ = .ok k') : BoxesCounted k' := by
  obtain ⟨base, hinv⟩ := run_mmsInv pdptepd hk ops (fun op hop => (hops op hop).noWrap)
    (hfresh.imp fun _ _ => FreshCall.serves) hlow hrun
  exact hinv.boxesCounted

/-- Two address spaces: the first one splits a region that has a box, frees the parts, and
the second one gets the box from the cache. -/
def shareBoxes : List MmsOp :=
  [.make, .make, .call 0 (.new 0x200000 0x3000 0 1), .call 0 (.fair 0x200000),
    .call 1 (.fair 0x1000), .call 0 (.del 0x201000 0x1000), .call 0 (.del 0x200000 0x1000),
    .call 0 (.del 0x202000 0x1000), .call 1 (.new 0x300000 0x1000 0 1), .call 1 (.fair 0x300000)]

theorem boxes_counted_shareBoxes : ∃ k : MmsSt,
    (k.mms.map fun mm => mm.msdVirmemadrs.vsList.map Kmvarsdsc.kvaKvmbox) =
      [[none, none, none], [some 0x10a00, some 0x10900, none, none]] ∧ BoxesCounted k := by
  have hrun : okAnd (run (mmsStep (copyPagesData 0)) shareBoxes ⟨freshVma, []⟩) (fun k =>
      (k.mms.map fun mm => mm.msdVirmemadrs.vsList.map Kmvarsdsc.kvaKvmbox) =
        [[none, none, none], [some 0x10a00, some 0x10900, none, none]]) = true := by
    decide +kernel
  obtain ⟨k, hrun, hk⟩ := exists_of_okAnd hrun
  have hsteps : AllSteps (mmsStep (copyPagesData 0)) (fun k op => FreshCall k op ∧ FreesLowCall k op)
      shareBoxes ⟨freshVma, []⟩ :=
    allSteps_of_check (p := fun k op => decide (FreshCall k op ∧ FreesLowCall k op))
      (fun _ _ hp => of_decide_eq_true hp) shareBoxes _ (by decide +kernel)
  refine ⟨k, of_decide_eq_true hk, boxes_counted 0 (k := freshVma) rfl shareBoxes (by decide)
    (hsteps.imp fun _ _ => And.left) (hsteps.imp fun _ _ => And.right) hrun⟩

/-- A machine whose second free page is the one at `2^40`. -/
def highVma : VmaSt :=
  { freshVma with
    hal := { freshMmu with
      pgs := ⟨[], List.nodup_nil, fun n =>
        direFrame (if n = 1 then 0x10000000000 else (n + 1) <<< 12), 0⟩ } }

/-- A page of the first region is mapped, and the region is freed. -/
def freeHigh : List MmsOp :=
  [.make, .call 0 (.fair 0x1000), .call 0 (.del 0x1000 0x4000)]

/-- The address of the page's entry is 0, and the box goes to the cache with its frame. -/
theorem boxes_not_counted : ¬ ∀ (k : VmaSt) (ops : List MmsOp) (k' : MmsSt),
    k.mgr = kvmemcboxmgrInit → (∀ op ∈ ops, op.Proper) →
      AllSteps (mmsStep (copyPagesData 0)) FreshCall ops ⟨k, []⟩ →
      run (mmsStep (copyPagesData 0)) ops ⟨k, []⟩ = .ok k' → BoxesCounted k' := by
  intro hall
  have hrun : okAnd (run (mmsStep (copyPagesData 0)) freeHigh ⟨highVma, []⟩) (fun k =>
      k.cur.mgr.kbmCachehead.any fun b => decide ((k.cur.box b).kmbMsalist ≠ [])) = true := by
    decide +kernel
  obtain ⟨k, hrun, hk⟩ := exists_of_okAnd hrun
  rw [List.any_eq_true] at hk
  obtain ⟨b, hb, hne⟩ := hk
  have hcounted := hall highVma freeHigh k rfl (by decide)
    (allSteps_of_check (p := fun k op => decide (FreshCall k op))
      (fun _ _ hp => of_decide_eq_true hp) freeHigh _ (by decide +kernel)) hrun
  exact of_decide_eq_true hne (hcounted.empty b hb)

end Runs

end Cosmos.Kernel
