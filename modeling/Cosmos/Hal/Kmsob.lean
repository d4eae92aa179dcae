import Cosmos.Hal.Halplatform
import Cosmos.Hal.Memdivmer

/-!
# Kernel objects

`kmsob.c` hands out objects of up to 2048 bytes.  A request goes to the list of
its size class, a multiple of 32 bytes; a pool (`kmsob_t`) cuts page blocks into
objects of that size.  The first block of a pool starts with the `kmsob_t`
itself, every further one with a `kmbext_t`, so a pool is named by the address
of its first block.  When the last object of a pool comes back, all its blocks
go back to the page allocator.

A free object is linked through its own memory; the model keeps the list of the
addresses, head first, as it does for the lists of page descriptors.  The blocks
of a pool lie below `KRNL_MAP_VIRTADDRESS_END`, so sums of an address in them and
an object size are plain sums; the address that a caller gives back can be any
word, and the tests on it wrap.  Locks, and the fields that nothing reads
(`so_stus`, `so_alclst`, `ks_tclst` and the like), are left out.
-/

namespace Cosmos.Hal

open Cosmos.Lib.Word64

/-! ## Addresses -/

/-- `msadsc_ret_vaddr`. -/
def msadscRetVaddr (m : Msadsc) : Except String Nat := phyadrToViradr (msadscRetAddr m)

/-! ## Data -/

/-- `MSCLST_MAX`. -/
abbrev msclstMax : Nat := 5

/-- `KOBLST_MAX`. -/
abbrev koblstMax : Nat := 64

/-- `sizeof(kmsob_t)`. -/
abbrev sizeofKmsob : Nat := 368

/-- `sizeof(kmbext_t)`. -/
abbrev sizeofKmbext : Nat := 48

/-- `sizeof(freobjh_t)`. -/
abbrev sizeofFreobjh : Nat := 32

/-- `msclst_t`: blocks of `mlOmpnr` pages. -/
structure Msclst where
  mlMsanr : Nat
  mlOmpnr : Nat
  /-- first descriptors of the blocks, head of the list first -/
  mlList : List Nat
deriving DecidableEq, Repr

/-- `msomdc_t`: the page blocks of a pool. -/
structure Msomdc where
  mcLst : Nat → Msclst
  mcKmobinlst : List Nat
  mcKmobinpnr : Nat

/-- `kmbext_t`, at the start of an extension block. -/
structure Kmbext where
  mtVstat : Nat
  mtVend : Nat
  mtKmsb : Nat
  mtMobjnr : Nat
deriving DecidableEq, Repr

/-- `kmsob_t`. -/
structure Kmsob where
  soVstat : Nat
  soVend : Nat
  soObjsz : Nat
  soMobjnr : Nat
  soFobjnr : Nat
  /-- free objects, head of the list first -/
  soFrelst : List Nat
  soMextlst : List Kmbext
  soMextnr : Nat
  soMc : Msomdc

/-- `koblst_t`: the pools of one size class. -/
structure Koblst where
  olEmplst : List Nat
  olCahe : Option Nat
  olEmnr : Nat
  olSz : Nat
deriving DecidableEq, Repr

/-- `kmsobmgrhed_t`. -/
structure Kmsobmgrhed where
  ksMsobnr : Nat
  ksMsobche : Option Nat
  ksMsoblst : Nat → Koblst

/-- The page allocator, the object manager and the memory read as a `kmsob_t`
at an address. -/
structure Kmem where
  mm : Memgrob
  mgr : Kmsobmgrhed
  kmsob : Nat → Kmsob

/-- `msclst_t_init`. -/
def msclstInit (pnr : Nat) : Msclst where
  mlMsanr := 0
  mlOmpnr := pnr
  mlList := []

/-- `msomdc_t_init`. -/
def msomdcInit : Msomdc where
  mcLst := fun i => msclstInit (2 ^ i)
  mcKmobinlst := []
  mcKmobinpnr := 0

/-- `koblst_t_init`. -/
def koblstInit (koblsz : Nat) : Koblst where
  olEmplst := []
  olCahe := none
  olEmnr := 0
  olSz := koblsz

/-- `kmsobmgrhed_t_init`: the classes are 32, 64, …, 2048 bytes. -/
def kmsobmgrhedInit : Kmsobmgrhed where
  ksMsobnr := 0
  ksMsobche := none
  ksMsoblst := fun i => koblstInit (32 * (i + 1))

/-- Write a pool. -/
def Kmem.setKmsob (m : Kmem) (a : Nat) (k : Kmsob) : Kmem :=
  { m with kmsob := Function.update m.kmsob a k }

/-- Write the list of a size class. -/
def Kmem.setKoblst (m : Kmem) (i : Nat) (l : Koblst) : Kmem :=
  { m with mgr := { m.mgr with ksMsoblst := Function.update m.mgr.ksMsoblst i l } }

/-- `retn_mscidx`. -/
def retnMscidx (pages : Nat) : Int :=
  let pbits : Int := (search64rlbits pages : Int) - 1
  if pages &&& (pages - 1) ≠ 0 then pbits + 1 else pbits

/-- `kmsob_updata_cache` with `KUC_NEWFLG` or `KUC_DELFLG`. -/
def kmsobUpdataCache (m : Kmem) (i : Nat) (kmsp : Nat) : Kmem :=
  let l := m.mgr.ksMsoblst i
  ({ m with mgr := { m.mgr with ksMsobche := some kmsp } } : Kmem).setKoblst i
    { l with olCahe := some kmsp }

/-- `kmsob_updata_cache` with `KUC_DSYFLG`. -/
def kmsobDestroyCache (m : Kmem) (i : Nat) (kmsp : Nat) : Kmem :=
  let l := m.mgr.ksMsoblst i
  let che := if m.mgr.ksMsobche = some kmsp then none else m.mgr.ksMsobche
  ({ m with mgr := { m.mgr with ksMsobche := che } } : Kmem).setKoblst i
    { l with olCahe := if l.olCahe = some kmsp then none else l.olCahe }

/-! ## Tests -/

/-- `scan_newkmsob_isok`. -/
def scanNewkmsobIsok (k : Kmsob) (msz : Nat) : Bool := 1 ≤ msz && msz ≤ k.soObjsz

/-- Loop of `scan_delkmsob_isok` over the extension blocks of pool `kmsp`. -/
def scanDelextLoop (kmsp objsz fadrs fsz : Nat) : List Kmbext → Except String Bool
  | [] => .ok false
  | bexp :: l =>
      if bexp.mtKmsb ≠ kmsp then .error "scan_delkmsob_isok err\n"
      else if bexp.mtVstat + sizeofKmbext ≤ fadrs ∧ add64 fadrs fsz ≤ bexp.mtVend ∧
          fsz ≤ objsz then .ok true
      else scanDelextLoop kmsp objsz fadrs fsz l

/-- `scan_delkmsob_isok`: the object may be one of pool `kmsp`. -/
def scanDelkmsobIsok (m : Kmem) (kmsp fadrs fsz : Nat) : Except String Bool :=
  let k := m.kmsob kmsp
  if fsz < 1 then .ok false
  else if k.soVstat + sizeofKmsob ≤ fadrs ∧ add64 fadrs fsz ≤ k.soVend ∧
      fsz ≤ k.soObjsz then .ok true
  else if k.soMextnr < 1 then .ok false
  else scanDelextLoop kmsp k.soObjsz fadrs fsz k.soMextlst

/-- `scan_nmszkmsob_isok`: the pool can hand out an object. -/
def scanNmszkmsobIsok (k : Kmsob) (msz : Nat) : Bool :=
  if msz < 1 then false
  else if k.soFobjnr < 1 ∨ k.soMobjnr < 1 then false
  else if k.soObjsz < msz then false
  else if k.soVend - k.soVstat + 1 < pagesize ∨
      k.soVend - k.soVstat + 1 < sizeofKmsob + sizeofFreobjh then false
  else k.soFrelst ≠ []

/-- `scan_fadrskmsob_isok`: the address is an object slot of the block. -/
def scanFadrskmsobIsok (fostat vend fadrs objsz : Nat) : Bool :=
  if fadrs < fostat then false
  else if fostat ≤ fadrs ∧ add64 fadrs objsz ≤ vend then (fadrs - fostat) % objsz = 0
  else false

/-- Loop of `scan_dfszkmsob_isok` over the extension blocks. -/
def scanDfszextLoop (objsz fadrs fsz : Nat) : List Kmbext → Bool
  | [] => false
  | bextp :: l =>
      if bextp.mtVstat ≤ fadrs ∧ sub64 (add64 fadrs fsz) 1 ≤ bextp.mtVend then
        scanFadrskmsobIsok (bextp.mtVstat + sizeofKmbext) bextp.mtVend fadrs objsz
      else scanDfszextLoop objsz fadrs fsz l

/-- `scan_dfszkmsob_isok`: the object lies on a slot of the block it is in. -/
def scanDfszkmsobIsok (k : Kmsob) (kmsp fadrs fsz : Nat) : Bool :=
  if fsz < 1 then false
  else if wordMod - 1 ≤ k.soFobjnr then false
  else if k.soVstat ≤ fadrs ∧ sub64 (add64 fadrs fsz) 1 ≤ k.soVend then
    scanFadrskmsobIsok (kmsp + sizeofKmsob) k.soVend fadrs k.soObjsz
  else if 0 < k.soMextnr then scanDfszextLoop k.soObjsz fadrs fsz k.soMextlst
  else false

/-- `scan_kmsob_objnr`: the number of free objects. -/
def scanKmsobObjnr (k : Kmsob) : Except String Nat :=
  if k.soFobjnr < 1 ∧ k.soFrelst ≠ [] then .error "scan_kmsob_objnr err2\n"
  else .ok k.soFobjnr

/-- `onmsz_retn_koblst`: the first class whose objects are large enough. -/
def onmszRetnKoblst (mgr : Kmsobmgrhed) (msz : Nat) : Option Nat :=
  if msz < 1 then none
  else (List.range koblstMax).find? fun kli => msz ≤ (mgr.ksMsoblst kli).olSz

/-- `onkoblst_retn_newkmsob`: a pool of the class, the cached one if it fits. -/
def onkoblstRetnNewkmsob (m : Kmem) (i msz : Nat) : Option Nat :=
  let l := m.mgr.ksMsoblst i
  if msz < 1 then none
  else
    match l.olCahe.filter (fun a => scanNewkmsobIsok (m.kmsob a) msz) with
    | some a => some a
    | none =>
        if 0 < l.olEmnr then l.olEmplst.find? fun a => scanNewkmsobIsok (m.kmsob a) msz
        else none

/-- Loop of `onkoblst_retn_delkmsob`. -/
def retnDelkmsobLoop (m : Kmem) (fadrs fsz : Nat) : List Nat → Except String (Option Nat)
  | [] => .ok none
  | a :: l =>
      match scanDelkmsobIsok m a fadrs fsz with
      | .error e => .error e
      | .ok true => .ok (some a)
      | .ok false => retnDelkmsobLoop m fadrs fsz l

/-- `onkoblst_retn_delkmsob`: the pool the object belongs to; the cached pool is
asked first. -/
def onkoblstRetnDelkmsob (m : Kmem) (i fadrs fsz : Nat) : Except String (Option Nat) :=
  let l := m.mgr.ksMsoblst i
  if fsz < 1 then .ok none
  else
    match retnDelkmsobLoop m fadrs fsz l.olCahe.toList with
    | .error e => .error e
    | .ok (some a) => .ok (some a)
    | .ok none =>
        if 0 < l.olEmnr then retnDelkmsobLoop m fadrs fsz l.olEmplst else .ok none

/-! ## Cutting blocks into objects -/

/-- The loop that cuts the rest of a block into objects, from address `ap` on.
It carries the free list and the number of objects cut so far; the address grows
in every round, so as many rounds as bytes are enough. -/
def carveLoop (objsz vend : Nat) : Nat → Nat → List Nat × Nat → List Nat × Nat
  | 0, _, st => st
  | n + 1, ap, st =>
      if ap < vend then
        carveLoop objsz vend n (ap + objsz)
          (if ap + objsz ≤ vend then (ap :: st.1, st.2 + 1) else st)
      else st

/-- `_create_init_kmsob`: the pool in a fresh block, `none` for `NULL`. -/
def createInitKmsob (objsz cvadrs cvadre msa relpnr : Nat) : Option Kmsob :=
  if objsz < 1 ∨ relpnr < 1 then none
  else if objsz < sizeofFreobjh then none
  else if cvadre - cvadrs + 1 < pagesize then none
  else if cvadre - cvadrs + 1 ≤ sizeofKmsob + sizeofFreobjh then none
  else
    let fohstat := cvadrs + sizeofKmsob
    let carved := carveLoop objsz cvadre (cvadre - fohstat) fohstat ([], 0)
    some {
      soVstat := cvadrs
      soVend := cvadre
      soObjsz := objsz
      soMobjnr := carved.2
      soFobjnr := carved.2
      soFrelst := carved.1
      soMextlst := []
      soMextnr := 0
      soMc := { msomdcInit with mcKmobinlst := [msa], mcKmobinpnr := relpnr } }

/-- Pages of a block for objects of a size. -/
def kmsobPages (objsz : Nat) : Nat := if 512 < objsz then 4 else if 128 < objsz then 2 else 1

/-- `mm_merge_pages` of a block that must be taken; `err` is the text of the
stop otherwise. -/
def mergeOrStop (mm : Memgrob) (msa pnr : Nat) (err : String) : Except String Memgrob :=
  match mmMergePages mm msa pnr with
  | .error e => .error e
  | .ok (mm', true) => .ok mm'
  | .ok (_, false) => .error err

/-- `kmsob_add_koblst`; `none` is `FALSE`. -/
def kmsobAddKoblst (m : Kmem) (i kmsp : Nat) : Option Kmem :=
  let l := m.mgr.ksMsoblst i
  if l.olSz < (m.kmsob kmsp).soObjsz then none
  else some (m.setKoblst i { l with olEmplst := kmsp :: l.olEmplst, olEmnr := l.olEmnr + 1 })

/-- `_create_kmsob`. -/
def createKmsob (m : Kmem) (i objsz : Nat) : Except String (Kmem × Option Nat) :=
  if objsz < 1 then .ok (m, none)
  else
    match mmDivisionPages m.mm (kmsobPages objsz) MaType.krnl.code dmfReldiv with
    | .error e => .error e
    | .ok (mm, none) => .ok ({ m with mm := mm }, none)
    | .ok (mm, some (msa, relpnr)) =>
        if relpnr = 0 then .error "_create_kmsob mm_division_pages fail\n"
        else
          let phyadr := msadscRetAddr (mm.mem.msadscstat msa)
          match phyadrToViradr phyadr, phyadrToViradr (phyadr + relpnr * pagesize - 1) with
          | .error e, _ => .error e
          | .ok _, .error e => .error e
          | .ok vadrs, .ok vadre =>
              match createInitKmsob (m.mgr.ksMsoblst i).olSz vadrs vadre msa relpnr with
              | none =>
                  match mergeOrStop mm msa relpnr "_create_kmsob mm_merge_pages fail\n" with
                  | .error e => .error e
                  | .ok mm' => .ok ({ m with mm := mm' }, none)
              | some k =>
                  match kmsobAddKoblst (({ m with mm := mm } : Kmem).setKmsob vadrs k) i vadrs with
                  | none => .error " _create_kmsob kmsob_add_koblst FALSE\n"
                  | some m' =>
                      .ok ({ m' with mgr := { m'.mgr with ksMsobnr := m'.mgr.ksMsobnr + 1 } },
                        some vadrs)

/-- `kmsob_new_opkmsob`: take the first free object. -/
def kmsobNewOpkmsob (m : Kmem) (kmsp msz : Nat) : Kmem × Option Nat :=
  let k := m.kmsob kmsp
  if msz < 1 then (m, none)
  else if !scanNmszkmsobIsok k msz then (m, none)
  else
    match k.soFrelst with
    | [] => (m, none)
    | fobh :: l =>
        (m.setKmsob kmsp { k with soFrelst := l, soFobjnr := k.soFobjnr - 1 }, some fobh)

/-- The pool with another block of objects. -/
def Kmsob.extend (k : Kmsob) (kmsp vadrs vadre msa mscidx : Nat) : Kmsob :=
  let fohstat := vadrs + sizeofKmbext
  let carved := carveLoop k.soObjsz vadre (vadre - fohstat) fohstat (k.soFrelst, 0)
  let b := k.soMc.mcLst mscidx
  let b' := { b with mlList := msa :: b.mlList, mlMsanr := b.mlMsanr + 1 }
  { k with
    soMobjnr := k.soMobjnr + carved.2
    soFobjnr := k.soFobjnr + carved.2
    soFrelst := carved.1
    soMextlst := ⟨vadrs, vadre, kmsp, carved.2⟩ :: k.soMextlst
    soMextnr := k.soMextnr + 1
    soMc := { k.soMc with mcLst := Function.update k.soMc.mcLst mscidx b' } }

/-- `kmsob_extn_pages`. -/
def kmsobExtnPages (m : Kmem) (kmsp : Nat) : Except String (Kmem × Bool) :=
  let k := m.kmsob kmsp
  if wordMod - 1 ≤ k.soMobjnr ∨ wordMod - 1 ≤ k.soMextnr ∨ wordMod - 1 ≤ k.soFobjnr then
    .ok (m, false)
  else
    match mmDivisionPages m.mm (kmsobPages k.soObjsz) MaType.krnl.code dmfReldiv with
    | .error e => .error e
    | .ok (mm, none) => .ok ({ m with mm := mm }, false)
    | .ok (mm, some (msa, relpnr)) =>
        if relpnr = 0 then .error "kmsob_extn_pages mm_division_pages fail\n"
        else
          let phyadr := msadscRetAddr (mm.mem.msadscstat msa)
          match phyadrToViradr phyadr, phyadrToViradr (phyadr + relpnr * pagesize - 1) with
          | .error e, _ => .error e
          | .ok _, .error e => .error e
          | .ok vadrs, .ok vadre =>
              let mscidx := retnMscidx relpnr
              if (msclstMax : Int) ≤ mscidx ∨ mscidx < 0 then
                match mergeOrStop mm msa relpnr "kmsob_extn_pages mm_merge_pages fail\n" with
                | .error e => .error e
                | .ok mm' => .ok ({ m with mm := mm' }, false)
              else
                .ok ((({ m with mm := mm } : Kmem).setKmsob kmsp
                  (k.extend kmsp vadrs vadre msa mscidx.toNat)), true)

/-- `kmsob_new_onkmsob`. -/
def kmsobNewOnkmsob (m : Kmem) (kmsp msz : Nat) : Except String (Kmem × Option Nat) :=
  if msz < 1 then .ok (m, none)
  else
    match scanKmsobObjnr (m.kmsob kmsp) with
    | .error e => .error e
    | .ok nr =>
        if nr < 1 then
          match kmsobExtnPages m kmsp with
          | .error e => .error e
          | .ok (m', false) => .ok (m', none)
          | .ok (m', true) => .ok (kmsobNewOpkmsob m' kmsp msz)
        else .ok (kmsobNewOpkmsob m kmsp msz)

/-- The pool `kmsob_new_core` takes the object from, a new one if the class has
none. -/
def newKmsobOf (m : Kmem) (i msz : Nat) : Except String (Kmem × Option Nat) :=
  match onkoblstRetnNewkmsob m i msz with
  | some a => .ok (m, some a)
  | none => createKmsob m i (m.mgr.ksMsoblst i).olSz

/-- `kmsob_new_core`. -/
def kmsobNewCore (m : Kmem) (msz : Nat) : Except String (Kmem × Option Nat) :=
  match onmszRetnKoblst m.mgr msz with
  | none => .ok (m, none)
  | some i =>
      match newKmsobOf m i msz with
      | .error e => .error e
      | .ok (m', none) => .ok (m', none)
      | .ok (m', some kmsp) =>
          match kmsobNewOnkmsob m' kmsp msz with
          | .error e => .error e
          | .ok (m'', none) => .ok (m'', none)
          | .ok (m'', some retptr) => .ok (kmsobUpdataCache m'' i kmsp, some retptr)

/-- `kmsob_new`. -/
def kmsobNew (m : Kmem) (msz : Nat) : Except String (Kmem × Option Nat) :=
  if msz < 1 ∨ 2048 < msz then .ok (m, none) else kmsobNewCore m msz

/-! ## Giving objects back -/

/-- `scan_freekmsob_isok`: 2 when every object of the pool is free. -/
def scanFreekmsobIsok (k : Kmsob) : Nat :=
  if k.soMobjnr < k.soFobjnr then 0 else if k.soMobjnr = k.soFobjnr then 2 else 1

/-- The loops that give a list of blocks of `pnr` pages back. -/
def freeBlocks (pnr : Nat) : List Nat → Memgrob → Except String Memgrob
  | [], mm => .ok mm
  | msa :: l, mm =>
      match mergeOrStop mm msa pnr "_destroy_kmsob_core mm_merge_pages FALSE2\n" with
      | .error e => .error e
      | .ok mm' => freeBlocks pnr l mm'

/-- The loop of `_destroy_kmsob_core` over the lists of extension blocks, from
list `j` on. -/
def freeBuckets (mscp : Nat → Msclst) : Nat → Nat → Memgrob → Except String Memgrob
  | 0, _, mm => .ok mm
  | n + 1, j, mm =>
      if 0 < (mscp j).mlMsanr then
        match freeBlocks (mscp j).mlOmpnr (mscp j).mlList mm with
        | .error e => .error e
        | .ok mm' => freeBuckets mscp n (j + 1) mm'
      else freeBuckets mscp n (j + 1) mm

/-- `_destroy_kmsob_core`.  The lists of the pool are read after its pages are
free; nothing has written to them by then. -/
def destroyKmsobCore (m : Kmem) (i kmsp : Nat) : Except String (Kmem × Bool) :=
  let mc := (m.kmsob kmsp).soMc
  if mc.mcKmobinpnr < 1 ∨ mc.mcKmobinlst = [] then .ok (m, false)
  else
    let l := m.mgr.ksMsoblst i
    let m := m.setKoblst i { l with olEmplst := l.olEmplst.erase kmsp, olEmnr := l.olEmnr - 1 }
    let m := { m with mgr := { m.mgr with ksMsobnr := m.mgr.ksMsobnr - 1 } }
    let m := kmsobDestroyCache m i kmsp
    match freeBuckets mc.mcLst msclstMax 0 m.mm with
    | .error e => .error e
    | .ok mm =>
        match freeBlocks mc.mcKmobinpnr mc.mcKmobinlst mm with
        | .error e => .error e
        | .ok mm => .ok ({ m with mm := mm }, true)

/-- `_destroy_kmsob`: destroy the pool if it is all free. -/
def destroyKmsob (m : Kmem) (i kmsp : Nat) : Except String (Kmem × Bool) :=
  if m.mgr.ksMsobnr < 1 ∨ (m.mgr.ksMsoblst i).olEmnr < 1 then .ok (m, false)
  else
    match scanFreekmsobIsok (m.kmsob kmsp) with
    | 0 => .error "_destroy_kmsob scan_freekmsob_isok rets 0\n"
    | 1 => .ok (kmsobUpdataCache m i kmsp, true)
    | _ => destroyKmsobCore m i kmsp

/-- `kmsob_del_opkmsob`; `none` is `FALSE`. -/
def kmsobDelOpkmsob (m : Kmem) (kmsp fadrs fsz : Nat) : Option Kmem :=
  let k := m.kmsob kmsp
  if fadrs = 0 ∨ fsz < 1 then none
  else if k.soMobjnr < k.soFobjnr + 1 then none
  else if !scanDfszkmsobIsok k kmsp fadrs fsz then none
  else
    some (m.setKmsob kmsp
      { k with soFrelst := fadrs :: k.soFrelst, soFobjnr := k.soFobjnr + 1 })

/-- `kmsob_delete_core`. -/
def kmsobDeleteCore (m : Kmem) (fadrs fsz : Nat) : Except String (Kmem × Bool) :=
  match onmszRetnKoblst m.mgr fsz with
  | none => .ok (m, false)
  | some i =>
      match onkoblstRetnDelkmsob m i fadrs fsz with
      | .error e => .error e
      | .ok none => .ok (m, false)
      | .ok (some kmsp) =>
          match kmsobDelOpkmsob m kmsp fadrs fsz with
          | none => .ok (m, false)
          | some m' => destroyKmsob m' i kmsp

/-- `kmsob_delete`. -/
def kmsobDelete (m : Kmem) (fadrs fsz : Nat) : Except String (Kmem × Bool) :=
  if fadrs = 0 ∨ fsz < 1 ∨ 2048 < fsz then .ok (m, false) else kmsobDeleteCore m fadrs fsz

end Cosmos.Hal
