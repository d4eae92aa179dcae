import Cosmos.Hal.KmsobPages

/-!
# `krlnew` and `krldelete`

`krlmm.c` and `krlpagempol.c`: up to 2048 bytes are an object, more than that are pages.  A
block of pages is filed in `mp_msalsthead` under the number of pages that the page allocator
returned, which is a power of two.  It is looked up, and given back, under the number of pages
that the size takes.

Sizes are words.  The locks and the fields of `kmempool_t` that nothing reads are left out.
-/

namespace Cosmos.Kernel

open Cosmos.Hal Cosmos.Lib.Word64

/-! ## Constants -/

/-- `MALCSZ_MIN`. -/
abbrev malcszMin : Nat := 0

/-- `MALCSZ_MAX`. -/
abbrev malcszMax : Nat := 0x400000

/-- `KMEMPALCSZ_MIN`. -/
abbrev kmempalcszMin : Nat := 1

/-- `KMEMPALCSZ_MAX`. -/
abbrev kmempalcszMax : Nat := 0x400000

/-- `OBJSORPAGE`. -/
abbrev objsorpage : Nat := 2048

/-- `PHYMSA_MAX`. -/
abbrev phymsaMax : Nat := 512

/-- `PAGE_SZRBIT`. -/
abbrev pageSzrbit : Nat := 12

/-- `OBJS_ALIGN`. -/
def objsAlign (x : Nat) : Nat := add64 x 3 / 4 * 4

/-- `PAGE_ALIGN`. -/
def pageAlign (x : Nat) : Nat := add64 x 0xfff / 0x1000 * 0x1000

/-! ## Data -/

/-- `msahead_t`: first descriptors of the blocks, head of the list first. -/
structure Msahead where
  mlhNr : Nat
  mlhMsalst : List Nat
deriving DecidableEq, Repr

/-- `kmempool_t`; there are `phymsaMax` lists. -/
structure Kmempool where
  mpMsalsthead : Nat → Msahead

/-- The object and page allocators, and `oskmempool`. -/
structure KrlMem where
  kmem : Kmem
  pool : Kmempool

/-- `msahead_t_init`. -/
def msaheadInit : Msahead where
  mlhNr := 0
  mlhMsalst := []

/-- `kmempool_t_init`. -/
def kmempoolInit : Kmempool where
  mpMsalsthead := fun _ => msaheadInit

/-! ## Blocks of pages -/

/-- The list for blocks of `relpnr` pages; the last one is for all that are larger. -/
def msaIdx (relpnr : Nat) : Nat := if phymsaMax - 1 ≤ relpnr then phymsaMax - 1 else relpnr

/-- Write a list. -/
def Kmempool.set (kmplp : Kmempool) (i : Nat) (l : Msahead) : Kmempool where
  mpMsalsthead := Function.update kmplp.mpMsalsthead i l

/-- `msadsc_add_kmempool`. -/
def msadscAddKmempool (kmplp : Kmempool) (msa relpnr : Nat) : Except String Kmempool :=
  if relpnr < 1 then .error "msadsc_add_kmempool fail\n"
  else
    let l := kmplp.mpMsalsthead (msaIdx relpnr)
    .ok (kmplp.set (msaIdx relpnr) ⟨l.mlhNr + 1, msa :: l.mlhMsalst⟩)

/-- The loop of `msadsc_del_kmempool`. -/
def delMsaLoop (d : MsaArr) (fradr : Nat) : List Nat → Except String (Option Nat)
  | [] => .ok none
  | tmpmsa :: l =>
      match msadscRetVaddr (d tmpmsa) with
      | .error e => .error e
      | .ok vadr => if vadr = fradr then .ok (some tmpmsa) else delMsaLoop d fradr l

/-- `msadsc_del_kmempool`; `none` is `NULL`. -/
def msadscDelKmempool (d : MsaArr) (kmplp : Kmempool) (relpnr fradr : Nat) :
    Except String (Kmempool × Option Nat) :=
  if relpnr < 1 ∨ fradr = 0 then .ok (kmplp, none)
  else
    let l := kmplp.mpMsalsthead (msaIdx relpnr)
    match delMsaLoop d fradr l.mlhMsalst with
    | .error e => .error e
    | .ok none => .ok (kmplp, none)
    | .ok (some retmsa) =>
        .ok (kmplp.set (msaIdx relpnr) ⟨l.mlhNr - 1, l.mlhMsalst.erase retmsa⟩, some retmsa)

/-- `kmempool_pages_core_new`; `none` is `NULL`. -/
def kmempoolPagesCoreNew (m : KrlMem) (msize : Nat) : Except String (KrlMem × Option Nat) :=
  match mmDivisionPages m.kmem.mm (msize >>> 12) MaType.krnl.code dmfReldiv with
  | .error e => .error e
  | .ok (mm, none) => .ok ({ m with kmem := { m.kmem with mm := mm } }, none)
  | .ok (mm, some (retmsa, relpnr)) =>
      match msadscAddKmempool m.pool retmsa relpnr with
      | .error e => .error e
      | .ok pool =>
          match msadscRetVaddr (mm.mem.msadscstat retmsa) with
          | .error e => .error e
          | .ok vadr => .ok (⟨{ m.kmem with mm := mm }, pool⟩, some vadr)

/-- `kmempool_pages_core_delete`. -/
def kmempoolPagesCoreDelete (m : KrlMem) (fradr frsz : Nat) : Except String (KrlMem × Bool) :=
  let relpnr := frsz >>> pageSzrbit
  match msadscDelKmempool m.kmem.mm.mem.msadscstat m.pool relpnr fradr with
  | .error e => .error e
  | .ok (pool, none) => .ok (⟨m.kmem, pool⟩, false)
  | .ok (pool, some retmsa) =>
      match mmMergePages m.kmem.mm retmsa relpnr with
      | .error e => .error e
      | .ok (mm, r) => .ok (⟨{ m.kmem with mm := mm }, pool⟩, r)

/-- `kmempool_pages_new`. -/
def kmempoolPagesNew (m : KrlMem) (msize : Nat) : Except String (KrlMem × Option Nat) :=
  kmempoolPagesCoreNew m (pageAlign msize)

/-- `kmempool_pages_delete`. -/
def kmempoolPagesDelete (m : KrlMem) (fradr frsz : Nat) : Except String (KrlMem × Bool) :=
  kmempoolPagesCoreDelete m fradr (pageAlign frsz)

/-! ## Objects -/

/-- `kmempool_objsz_core_new`. -/
def kmempoolObjszCoreNew (m : KrlMem) (msize : Nat) : Except String (KrlMem × Option Nat) :=
  match kmsobNew m.kmem msize with
  | .error e => .error e
  | .ok (kmem, r) => .ok ({ m with kmem := kmem }, r)

/-- `kmempool_objsz_core_delete`. -/
def kmempoolObjszCoreDelete (m : KrlMem) (fradr frsz : Nat) : Except String (KrlMem × Bool) :=
  match kmsobDelete m.kmem fradr frsz with
  | .error e => .error e
  | .ok (kmem, r) => .ok ({ m with kmem := kmem }, r)

/-- `kmempool_objsz_new`. -/
def kmempoolObjszNew (m : KrlMem) (msize : Nat) : Except String (KrlMem × Option Nat) :=
  let sz := objsAlign msize
  if objsorpage < sz then .ok (m, none) else kmempoolObjszCoreNew m sz

/-- `kmempool_objsz_delete`. -/
def kmempoolObjszDelete (m : KrlMem) (fradr frsz : Nat) : Except String (KrlMem × Bool) :=
  let fsz := objsAlign frsz
  if objsorpage < fsz then .ok (m, false) else kmempoolObjszCoreDelete m fradr fsz

/-! ## Both -/

/-- `kmempool_onsize_new`. -/
def kmempoolOnsizeNew (m : KrlMem) (msize : Nat) : Except String (KrlMem × Option Nat) :=
  if objsorpage < msize then kmempoolPagesNew m msize else kmempoolObjszNew m msize

/-- `kmempool_onsize_delete`. -/
def kmempoolOnsizeDelete (m : KrlMem) (fradr frsz : Nat) : Except String (KrlMem × Bool) :=
  if objsorpage < frsz then kmempoolPagesDelete m fradr frsz else kmempoolObjszDelete m fradr frsz

/-- `kmempool_new`. -/
def kmempoolNew (m : KrlMem) (msize : Nat) : Except String (KrlMem × Option Nat) :=
  if msize < kmempalcszMin ∨ kmempalcszMax < msize then .ok (m, none)
  else kmempoolOnsizeNew m msize

/-- `kmempool_delete`. -/
def kmempoolDelete (m : KrlMem) (fradr frsz : Nat) : Except String (KrlMem × Bool) :=
  if fradr = 0 ∨ frsz < kmempalcszMin ∨ kmempalcszMax < frsz then .ok (m, false)
  else kmempoolOnsizeDelete m fradr frsz

/-- `krlnew`. -/
def KrlMem.krlnew (m : KrlMem) (mmsize : Nat) : Except String (KrlMem × Option Nat) :=
  if mmsize = malcszMin ∨ malcszMax < mmsize then .ok (m, none) else kmempoolNew m mmsize

/-- `krldelete`. -/
def KrlMem.krldelete (m : KrlMem) (fradr frsz : Nat) : Except String (KrlMem × Bool) :=
  if fradr = 0 ∨ frsz = malcszMin ∨ malcszMax < frsz then .ok (m, false)
  else kmempoolDelete m fradr frsz

end Cosmos.Kernel
