import Cosmos.Hal.Halmmu
import Cosmos.Lib.Chain
import Cosmos.Lib.Run
import Cosmos.Lib.Word64

/-!
# Virtual address spaces

`krlvadrsmem.c`: the regions of an address space, the boxes that hold the page frames
mapped in them, and the creation and teardown of an address space.

A region descriptor, a box and an address space descriptor are objects of
`kmsob_new`; a pointer to one is its address, and the supply `kms` never hands out the
address of an object that is in use.  A region is linked into `vs_list` in the order
of the list.  Words are 64 bit.  `system_error` does not return: the model gives its
text.  Locks are left out, since every function here runs under one.
-/

namespace Cosmos.Kernel

open Cosmos.Lib Cosmos.Lib.Word64 Cosmos.Hal

/-- `USER_VIRTUAL_ADDRESS_END`. -/
def userVirtualAddressEnd : Nat := 0x00007fffffffffff

/-- `THREAD_HEAPADR_START`. -/
def threadHeapadrStart : Nat := 0x100000000

/-- `VMAP_MIN_SIZE`. -/
def vmapMinSize : Nat := 0x1000

/-- `KMV_HEAP_TYPE`. -/
def kmvHeapType : Nat := 8

/-- `KMV_STACK_TYPE`. -/
def kmvStackType : Nat := 16

/-- `KMV_BIN_TYPE`. -/
def kmvBinType : Nat := 64

/-- `KMBOX_CACHE_MAX`. -/
def kmboxCacheMax : Nat := 0x1000

/-- `VADSZ_ALIGN` and `PAGE_ALIGN`: up to a multiple of the page size. -/
def vadszAlign (x : Nat) : Nat := add64 x 0xfff / 0x1000 * 0x1000

/-! ## Data -/

/-- `kmvarsdsc_t`: the region from `kvaStart` to before `kvaEnd`; `adr` is the address
of the descriptor. -/
structure Kmvarsdsc where
  adr : Nat
  kvaMaptype : Nat
  kvaLimits : Nat
  kvaStart : Nat
  kvaEnd : Nat
  kvaKvmbox : Option Nat
deriving DecidableEq, Repr

/-- `virmemadrs_t`. -/
structure Virmemadrs where
  vsList : List Kmvarsdsc
  vsKmvdscnr : Nat
  vsStartkmvdsc : Option Nat
  vsEndkmvdsc : Option Nat
  vsCurrkmvdsc : Option Nat
  vsHeapkmvdsc : Option Nat
  vsStackkmvdsc : Option Nat
  vsIsalcend : Nat
deriving DecidableEq, Repr

/-- `kvmemcbox_t`.  `kmb_cont` is an `s32_t` and cannot overflow: it counts descriptors, and
those lie in the 16 GiB the kernel maps, more than 8 bytes each. -/
structure Kvmemcbox where
  kmbCont : Int
  kmbMsanr : Nat
  kmbMsalist : List PageFrame

/-- `kvmemcboxmgr_t`. -/
structure Kvmemcboxmgr where
  kbmKmbnr : Nat
  kbmKmbhead : List Nat
  kbmCachenr : Nat
  kbmCachemax : Nat
  kbmCachehead : List Nat

/-- The address space, and what it shares with the others: page tables and pages, the
boxes and `kvs_kvmemcboxmgr`, the kernel objects.  `msdThread` is where
`get_file_rvadrandsz` finds the program file of `msd_thread`, with its size, and
`filled` the place in that file that a frame was filled from. -/
structure VmaSt where
  vma : Virmemadrs
  msdThread : Option (Nat × Nat)
  hal : MmuSt
  filled : PageFrame → Option Nat
  box : Nat → Kvmemcbox
  mgr : Kvmemcboxmgr
  kms : Supply Nat

/-- Code that runs on an address space; an error stops the kernel. -/
abbrev VmaM := StateT VmaSt (Except String)

/-- Code that runs on the page tables. -/
def onMmu {α : Type} (x : MmuM α) : VmaM α := fun s =>
  match x.run s.hal with
  | .error e => .error e
  | .ok (a, hal) => .ok (a, { s with hal := hal })

/-- `virmemadrs_t_init`. -/
def virmemadrsInit : Virmemadrs where
  vsList := []
  vsKmvdscnr := 0
  vsStartkmvdsc := none
  vsEndkmvdsc := none
  vsCurrkmvdsc := none
  vsHeapkmvdsc := none
  vsStackkmvdsc := none
  vsIsalcend := 0

/-- `kvmemcbox_t_init`. -/
def kvmemcboxInit : Kvmemcbox where
  kmbCont := 0
  kmbMsanr := 0
  kmbMsalist := []

/-- The descriptor `vs_currkmvdsc` points to. -/
def Virmemadrs.curr (vma : Virmemadrs) : Option Kmvarsdsc :=
  vma.vsCurrkmvdsc.bind fun a => Chain.node Kmvarsdsc.adr a vma.vsList

/-- `list_next_entry`, nothing for the last of the list. -/
def Virmemadrs.nextEntry (vma : Virmemadrs) (kmvd : Kmvarsdsc) : Option Kmvarsdsc :=
  Chain.next Kmvarsdsc.adr kmvd.adr vma.vsList

/-- The fields of a descriptor are written. -/
def Virmemadrs.write (vma : Virmemadrs) (kmvd : Kmvarsdsc) (f : Kmvarsdsc → Kmvarsdsc) :
    Virmemadrs :=
  { vma with vsList := Chain.upd Kmvarsdsc.adr kmvd.adr f vma.vsList }

/-- `newkmvd` is linked in after `kmvd`, and is the hint; it is the last of the list if
`kmvd` was. -/
def Virmemadrs.link (vma : Virmemadrs) (kmvd newkmvd : Kmvarsdsc) : Virmemadrs :=
  { vma with
    vsList := Chain.add Kmvarsdsc.adr kmvd.adr newkmvd vma.vsList
    vsCurrkmvdsc := some newkmvd.adr
    vsEndkmvdsc := if vma.nextEntry kmvd = none then some newkmvd.adr else vma.vsEndkmvdsc }

/-! ## Allocating a range -/

/-- `vma_find_kmvarsdsc_is_ok`: does the range fit between `curr` and the next region? -/
def vmaFindKmvarsdscIsOk (vmalocked : Virmemadrs) (curr : Kmvarsdsc) (start vassize : Nat) :
    Bool :=
  let newend := add64 start vassize
  match vmalocked.nextEntry curr with
  | some nextkmvd =>
      if start = 0 then add64 curr.kvaEnd vassize ≤ nextkmvd.kvaStart
      else curr.kvaEnd ≤ start && newend ≤ nextkmvd.kvaStart
  | none =>
      if start = 0 then add64 curr.kvaEnd vassize < vmalocked.vsIsalcend
      else curr.kvaEnd ≤ start && newend < vmalocked.vsIsalcend

/-- The region has the limits and the type. -/
def Kmvarsdsc.isLike (kmvd : Kmvarsdsc) (vaslimits vastype : Nat) : Bool :=
  vaslimits = kmvd.kvaLimits && vastype = kmvd.kvaMaptype

/-- `vma_find_kmvarsdsc`: the region after which the range goes.  First the hint is
tried, then the regions with these limits and type, then all. -/
def vmaFindKmvarsdsc (vmalocked : Virmemadrs) (start vassize vaslimits vastype : Nat) :
    Option Kmvarsdsc :=
  let newend := add64 start vassize
  let isOk := fun curr => vmaFindKmvarsdscIsOk vmalocked curr start vassize
  if vassize < 0x1000 then none
  else if vmalocked.vsIsalcend < newend then none
  else
    (vmalocked.curr.filter fun curr => isOk curr && curr.isLike vaslimits vastype).or
      ((vmalocked.vsList.find? fun curr => curr.isLike vaslimits vastype && isOk curr).or
        (vmalocked.vsList.find? isOk))

/-- `vma_new_vadrs_core`: the start of the range, 0 if there is none. -/
def vmaNewVadrsCore (vma : Virmemadrs) (kms : Supply Nat)
    (start vassize vaslimits vastype : Nat) : Nat × Virmemadrs × Supply Nat :=
  match vmaFindKmvarsdsc vma start vassize vaslimits vastype with
  | none => (0, vma, kms)
  | some currkmvd =>
      if (start = 0 ∨ start = currkmvd.kvaEnd) ∧ currkmvd.isLike vaslimits vastype then
        let vma := vma.write currkmvd fun r => { r with kvaEnd := add64 r.kvaEnd vassize }
        (currkmvd.kvaEnd, { vma with vsCurrkmvdsc := some currkmvd.adr }, kms)
      else
        match kms.take with
        | (none, kms) => (0, vma, kms)
        | (some newkmvd, kms) =>
            let kvaStart := if start = 0 then currkmvd.kvaEnd else start
            let vma := vma.link currkmvd
              { adr := newkmvd
                kvaMaptype := vastype
                kvaLimits := vaslimits
                kvaStart := kvaStart
                kvaEnd := add64 kvaStart vassize
                kvaKvmbox := none }
            (kvaStart, vma, kms)

/-- `vma_new_vadrs`. -/
def vmaNewVadrs (vma : Virmemadrs) (kms : Supply Nat) (start vassize vaslimits vastype : Nat) :
    Nat × Virmemadrs × Supply Nat :=
  if vassize < 1 then (0, vma, kms)
  else if start ≠ 0 ∧
      (start % 0x1000 ≠ 0 ∨ start < 0x1000 ∨ userVirtualAddressEnd < add64 start vassize) then
    (0, vma, kms)
  else vmaNewVadrsCore vma kms start (vadszAlign vassize) vaslimits vastype

/-! ## Objects and boxes -/

/-- `kmsob_new`. -/
def kmsobTake : VmaM (Option Nat) := do
  let s ← get
  set { s with kms := s.kms.take.2 }
  return s.kms.take.1

/-- The supply after an object was given back, if it was in use. -/
def giveObj (kms : Supply Nat) (obj : Nat) : Supply Nat := (kms.give obj).getD kms

/-- `kmsob_delete`. -/
def kmsobGive (obj : Nat) : VmaM Bool := do
  let s ← get
  set { s with kms := giveObj s.kms obj }
  return (s.kms.give obj).isSome

/-- `new_kmvarsdsc`. -/
def newKmvarsdsc : VmaM (Option Nat) := kmsobTake

/-- `del_kmvarsdsc`. -/
def delKmvarsdsc (delkmvd : Nat) : VmaM Bool := kmsobGive delkmvd

/-- `del_kvmemcbox`. -/
def delKvmemcbox (del : Nat) : VmaM Bool := kmsobGive del

/-- `knl_count_kvmemcbox`. -/
def knlCountKvmemcbox : Option Nat → VmaM Unit
  | none => return ()
  | some kmbox =>
      modify fun s => { s with
        box := Function.update s.box kmbox
          { s.box kmbox with kmbCont := (s.box kmbox).kmbCont + 1 } }

/-- The box `kmb` is put to use, with no frames. -/
def VmaSt.useBox (s : VmaSt) (kmb : Nat) : VmaSt :=
  { s with
    box := Function.update s.box kmb { kvmemcboxInit with kmbCont := 1 }
    mgr := { s.mgr with
      kbmKmbhead := kmb :: s.mgr.kbmKmbhead
      kbmKmbnr := s.mgr.kbmKmbnr + 1 } }

/-- `knl_get_kvmemcbox`: a box from the cache, or a new one. -/
def knlGetKvmemcbox : VmaM Nat := do
  let s ← get
  match if 0 < s.mgr.kbmCachenr then s.mgr.kbmCachehead else [] with
  | kmb :: cache =>
      let mgr := { s.mgr with kbmCachehead := cache, kbmCachenr := s.mgr.kbmCachenr - 1 }
      set ({ s with mgr := mgr }.useBox kmb)
      return kmb
  | [] =>
      match s.kms.take with
      | (none, _) => throw "mem: knl_get_kvmemcbox() null\n"
      | (some kmb, kms) =>
          set ({ s with kms := kms }.useBox kmb)
          return kmb

/-- `knl_put_kvmemcbox`: the last user of a box puts it into the cache, or gives it
back if the cache is full. -/
def knlPutKvmemcbox : Option Nat → VmaM Bool
  | none => return false
  | some kmbox => do
      let cont := ((← get).box kmbox).kmbCont - 1
      modify fun s => { s with
        box := Function.update s.box kmbox { s.box kmbox with kmbCont := cont } }
      if 1 ≤ cont then return true
      else
        let mgr := (← get).mgr
        modify fun s => { s with
          mgr := { mgr with kbmKmbhead := mgr.kbmKmbhead.erase kmbox } }
        if mgr.kbmCachemax ≤ mgr.kbmCachenr then
          if !(← delKvmemcbox kmbox) then return false
          else
            modify fun s => { s with mgr := { s.mgr with kbmKmbnr := s.mgr.kbmKmbnr - 1 } }
            return true
        else
          modify fun s => { s with
            mgr := { s.mgr with
              kbmCachehead := kmbox :: s.mgr.kbmCachehead
              kbmCachenr := s.mgr.kbmCachenr + 1
              kbmKmbnr := s.mgr.kbmKmbnr - 1 } }
          return true

/-- A frame joins the list of a box. -/
def Kvmemcbox.addMsa (kmbox : Kvmemcbox) (msa : PageFrame) : Kvmemcbox :=
  { kmbox with kmbMsalist := msa :: kmbox.kmbMsalist, kmbMsanr := kmbox.kmbMsanr + 1 }

/-- A frame leaves the list of a box. -/
def Kvmemcbox.delMsa (kmbox : Kvmemcbox) (msa : PageFrame) : Kvmemcbox :=
  { kmbox with kmbMsalist := kmbox.kmbMsalist.erase msa, kmbMsanr := kmbox.kmbMsanr - 1 }

/-- `vma_del_usermsa`: the frame at `phyadr` leaves the box and is given back; `msa` is
its descriptor if the caller knows it. -/
def vmaDelUsermsa (kmbox : Nat) (msa : Option PageFrame) (phyadr : Nat) : VmaM Bool := do
  if phyadr = 0 then return false
  else
    let s ← get
    let isAt := fun m : PageFrame => frameAddr m = phyadr
    match (msa.filter isAt).or ((s.box kmbox).kmbMsalist.find? isAt) with
    | none => return false
    | some delmsa =>
        match s.hal.pgs.give delmsa with
        | none => throw "vma_del_usermsa err\n"
        | some pgs =>
            set { s with
              hal := { s.hal with pgs := pgs }
              box := Function.update s.box kmbox ((s.box kmbox).delMsa delmsa) }
            return true

/-- `vma_new_usermsa`: one page of the process area. -/
def vmaNewUsermsa (kmbox : Nat) : VmaM (Option PageFrame) := do
  let s ← get
  match s.hal.pgs.take with
  | (none, pgs) =>
      set { s with hal := { s.hal with pgs := pgs } }
      return none
  | (some msa, pgs) =>
      set { s with
        hal := { s.hal with pgs := pgs }
        box := Function.update s.box kmbox ((s.box kmbox).addMsa msa) }
      return some msa

/-! ## Freeing a range -/

/-- `vma_del_find_kmvarsdsc`: the region that holds the range. -/
def vmaDelFindKmvarsdsc (vmalocked : Virmemadrs) (start vassize : Nat) : Option Kmvarsdsc :=
  let newend := add64 start vassize
  let holds := fun curr : Kmvarsdsc => curr.kvaStart ≤ start && newend ≤ curr.kvaEnd
  if vassize < 0x1000 then none
  else (vmalocked.curr.filter holds).or (vmalocked.vsList.find? holds)

/-- `vma_del_set_endcurrkmvd`: `del` is about to leave the list. -/
def vmaDelSetEndcurrkmvd (vmalocked : Virmemadrs) (del : Kmvarsdsc) : Virmemadrs :=
  match vmalocked.nextEntry del with
  | none =>
      let prevkmvd := (Chain.prev Kmvarsdsc.adr del.adr vmalocked.vsList).map Kmvarsdsc.adr
      { vmalocked with vsEndkmvdsc := prevkmvd, vsCurrkmvdsc := prevkmvd }
  | some nextkmvd => { vmalocked with vsCurrkmvdsc := some nextkmvd.adr }

/-- The addresses that the loop from `start` to `«end»` in steps of `VMAP_MIN_SIZE`
visits.  Either `«end»` has wrapped and is below `start`, or the distance is a multiple
of the step: the loop counter does not wrap. -/
def vmapAdrs (start «end» : Nat) : List Nat :=
  (List.range ((«end» - start + (vmapMinSize - 1)) / vmapMinSize)).map
    fun k => start + vmapMinSize * k

/-- The frame that was mapped at an address, if one was, leaves the box. -/
def vmaDelPhyadrs (kmbox : Option Nat) (phyadrs : Nat) : VmaM Bool :=
  match kmbox with
  | none => return true
  | some kmbox => if phyadrs ≠ 0 then vmaDelUsermsa kmbox none phyadrs else return true

/-- The loop of `vma_del_unmapping_phyadrs`. -/
def vmaDelUnmappingPhyadrs (kmbox : Option Nat) : List Nat → VmaM Bool
  | [] => return true
  | vadrs :: l => do
      let phyadrs ← onMmu (halMmuUntransform vadrs)
      let gone ← vmaDelPhyadrs kmbox phyadrs
      let rets ← vmaDelUnmappingPhyadrs kmbox l
      return gone && rets

/-- `vma_del_unmapping`. -/
def vmaDelUnmapping (kmvd : Kmvarsdsc) (start vassize : Nat) : VmaM Bool :=
  vmaDelUnmappingPhyadrs kmvd.kvaKvmbox (vmapAdrs start (add64 start vassize))

/-- The regions are written. -/
def modVma (f : Virmemadrs → Virmemadrs) : VmaM Unit :=
  modify fun s => { s with vma := f s.vma }

/-- `vma_del_vadrs_core`: the range is a whole region, its front, its back, or between
two parts of it that stay. -/
def vmaDelVadrsCore (start vassize : Nat) : VmaM Bool := do
  let s ← get
  match vmaDelFindKmvarsdsc s.vma start vassize with
  | none => return false
  | some delkmvd =>
      let newend := add64 start vassize
      if delkmvd.kvaStart = start ∧ delkmvd.kvaEnd = newend then
        let _ ← vmaDelUnmapping delkmvd start vassize
        modVma fun vma => vmaDelSetEndcurrkmvd vma delkmvd
        let _ ← knlPutKvmemcbox delkmvd.kvaKvmbox
        modVma fun vma => { vma with
          vsList := Chain.del Kmvarsdsc.adr delkmvd.adr vma.vsList }
        let _ ← delKmvarsdsc delkmvd.adr
        modVma fun vma => { vma with vsKmvdscnr := sub64 vma.vsKmvdscnr 1 }
        return true
      else if delkmvd.kvaStart = start ∧ newend < delkmvd.kvaEnd then
        modVma fun vma => vma.write delkmvd fun r => { r with kvaStart := newend }
        let _ ← vmaDelUnmapping delkmvd start vassize
        return true
      else if delkmvd.kvaStart < start ∧ delkmvd.kvaEnd = newend then
        modVma fun vma => vma.write delkmvd fun r => { r with kvaEnd := start }
        let _ ← vmaDelUnmapping delkmvd start vassize
        return true
      else if delkmvd.kvaStart < start ∧ newend < delkmvd.kvaEnd then
        match ← newKmvarsdsc with
        | none => return false
        | some newkmvd =>
            modVma fun vma => vma.write delkmvd fun r => { r with kvaEnd := start }
            knlCountKvmemcbox delkmvd.kvaKvmbox
            let _ ← vmaDelUnmapping delkmvd start vassize
            modVma fun vma => vma.link delkmvd { delkmvd with adr := newkmvd, kvaStart := newend }
            modVma fun vma => { vma with vsKmvdscnr := add64 vma.vsKmvdscnr 1 }
            return true
      else return false

/-- `vma_del_vadrs`. -/
def vmaDelVadrs (start vassize : Nat) : VmaM Bool :=
  if vassize < 1 ∨ start = 0 then return false
  else vmaDelVadrsCore start (vadszAlign vassize)

/-! ## Page faults -/

/-- What `vma_map_fairvadrs` returns. -/
inductive FairRet where
  | eok
  | eparam
  | efault
  | enomem
deriving DecidableEq, Repr

/-- `vma_map_find_kmvarsdsc`: the region of an address. -/
def vmaMapFindKmvarsdsc (vmalocked : Virmemadrs) (vadrs : Nat) : Option Kmvarsdsc :=
  let holds := fun curr : Kmvarsdsc => curr.kvaStart ≤ vadrs && vadrs < curr.kvaEnd
  (vmalocked.curr.filter holds).or (vmalocked.vsList.find? holds)

/-- `vma_map_retn_kvmemcbox`: the box of a region, which gets one if it has none. -/
def vmaMapRetnKvmemcbox (kmvd : Kmvarsdsc) : VmaM Nat :=
  match kmvd.kvaKvmbox with
  | some kmbox => return kmbox
  | none => do
      let kmbox ← knlGetKvmemcbox
      modVma fun vma => vma.write kmvd fun r => { r with kvaKvmbox := some kmbox }
      return kmbox

/-- `vma_map_msa_fault`: the address of the frame that is mapped now, 0 if none is. -/
def vmaMapMsaFault (kmbox vadrs flags : Nat) : VmaM Nat := do
  if vadrs = 0 then return 0
  else
    match ← vmaNewUsermsa kmbox with
    | none => return 0
    | some usermsa =>
        let phyadrs := frameAddr usermsa
        if ← onMmu (halMmuTransform vadrs phyadrs flags) then return phyadrs
        else
          let _ ← vmaDelUsermsa kmbox (some usermsa) phyadrs
          return 0

/-- `vma_full_textbin`: a page of the program is filled from the program file. -/
def vmaFullTextbin (kmvd : Kmvarsdsc) (vadr : Nat) : VmaM Unit := do
  if kmvd.kvaMaptype ≠ kmvBinType then return ()
  else
    let s ← get
    match s.msdThread with
    | none => throw "vma_full_textbin td is null\n"
    | some (filevadr, filesize) =>
        if filevadr = 0 ∨ filesize = 0 then throw "vma_full_textbin file is null\n"
        else
          let vnr := sub64 vadr kmvd.kvaStart / 0x1000
          match mmuLookup s.hal vadr with
          | none => return ()
          | some msa =>
              set { s with
                filled := Function.update s.filled msa (some (add64 filevadr (vnr * 0x1000))) }

/-- `vma_map_fairvadrs_core`, with the flags `PML4E_US | PML4E_RW | PML4E_P`. -/
def vmaMapFairvadrsCore (vadrs : Nat) : VmaM FairRet := do
  let s ← get
  match vmaMapFindKmvarsdsc s.vma vadrs with
  | none => return .efault
  | some kmvd =>
      let kmbox ← vmaMapRetnKvmemcbox kmvd
      let phyadrs ← vmaMapMsaFault kmbox vadrs 7
      if phyadrs = 0 then return .enomem
      else
        vmaFullTextbin kmvd vadrs
        return .eok

/-- `vma_map_fairvadrs`. -/
def vmaMapFairvadrs (vadrs : Nat) : VmaM FairRet :=
  if vadrs < 0x1000 ∨ userVirtualAddressEnd < vadrs then return .eparam
  else vmaMapFairvadrsCore vadrs

/-! ## The address space -/

/-- A region with no limits and no box. -/
def kmvarsdscOf (adr kvaStart kvaEnd kvaMaptype : Nat) : Kmvarsdsc where
  adr := adr
  kvaMaptype := kvaMaptype
  kvaLimits := 0
  kvaStart := kvaStart
  kvaEnd := kvaEnd
  kvaKvmbox := none

/-- What `kvma_inituserspace_virmemadrs` does once it has its three descriptors. -/
def Virmemadrs.initUser (vma : Virmemadrs) (kmvdc heapkmvdc stackkmvdc : Nat) : Virmemadrs :=
  { vma with
    vsIsalcend := userVirtualAddressEnd
    vsStartkmvdsc := some kmvdc
    vsEndkmvdsc := some stackkmvdc
    vsHeapkmvdsc := some heapkmvdc
    vsStackkmvdsc := some stackkmvdc
    vsList := vma.vsList ++
      [kmvarsdscOf kmvdc 0x1000 0x5000 0,
        kmvarsdscOf heapkmvdc threadHeapadrStart (threadHeapadrStart + 0x1000) kmvHeapType,
        kmvarsdscOf stackkmvdc (vadszAlign (userVirtualAddressEnd - 0x40000000))
          userVirtualAddressEnd kmvStackType]
    vsKmvdscnr := vma.vsKmvdscnr + 3 }

/-- `kvma_inituserspace_virmemadrs`. -/
def kvmaInituserspaceVirmemadrs : VmaM Bool := do
  match ← newKmvarsdsc with
  | none => return false
  | some kmvdc =>
      match ← newKmvarsdsc with
      | none =>
          let _ ← delKmvarsdsc kmvdc
          return false
      | some heapkmvdc =>
          match ← newKmvarsdsc with
          | none =>
              let _ ← delKmvarsdsc kmvdc
              let _ ← delKmvarsdsc heapkmvdc
              return false
          | some stackkmvdc =>
              modVma fun vma => vma.initUser kmvdc heapkmvdc stackkmvdc
              return true

/-- `kvma_initdefault_virmemadrs`. -/
def kvmaInitdefaultVirmemadrs (vma : Virmemadrs) (kms : Supply Nat) (start size type : Nat) :
    Nat × Virmemadrs × Supply Nat :=
  if start ≤ 0x1000 ∨ size = 0 then (0, vma, kms)
  else vmaNewVadrs vma kms start size 0 type

/-- `new_mmadrsdsc`, where `pml4` is the kernel's top table. -/
def newMmadrsdsc (pml4 : Nat → Nat) : VmaM (Option Nat) := do
  match ← kmsobTake with
  | none => return none
  | some mm =>
      modify fun s => { s with
        vma := virmemadrsInit
        msdThread := none
        hal := { s.hal with mmu := mmudscInit } }
      let _ ← kvmaInituserspaceVirmemadrs
      let _ ← onMmu (halMmuInit pml4)
      return some mm

/-- `del_mmadrsdsc`, with the loaded top table. -/
def delMmadrsdsc (mm : Nat) (cr3 : PageFrame) : VmaM Bool := do
  if !(← onMmu (halMmuClean cr3)) then return false
  else kmsobGive mm

/-! ## Calls -/

/-- The calls on an address space. -/
inductive VmaOp where
  | new (start vassize vaslimits vastype : Nat)
  | del (start vassize : Nat)
  | fair (vadrs : Nat)
deriving DecidableEq, Repr

/-- One call. -/
def vmaStep (s : VmaSt) : VmaOp → Except String VmaSt
  | .new start vassize vaslimits vastype =>
      let r := vmaNewVadrs s.vma s.kms start vassize vaslimits vastype
      .ok { s with vma := r.2.1, kms := r.2.2 }
  | .del start vassize => ((vmaDelVadrs start vassize).run s).map Prod.snd
  | .fair vadrs => ((vmaMapFairvadrs vadrs).run s).map Prod.snd

end Cosmos.Kernel
