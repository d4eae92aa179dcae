import Mathlib.Logic.Function.Basic

/-!
# Page descriptors

One `msadsc_t` describes one 4 KiB page of physical memory.  The descriptors
lie in one array; a pointer to one of them is its index in that array, and the
array itself is a function on indices, so that code which runs past the end of
the array has something to read there.

The bit fields of `md_indxflgs` and `md_phyadrs` that no modelled function
reads or writes (`mf_lstty`, `paf_shared` and the like) are left out.  The link
field `md_list` is modelled by the lists themselves: a free list holds the
indices of the descriptors linked into it, head first.
-/

namespace Cosmos.Hal

/-- `PSHRSIZE`: log2 of the page size. -/
abbrev pshrsize : Nat := 12

/-- `PAGESIZE`. -/
abbrev pagesize : Nat := 4096

/-- `MF_UINDX_MAX`. -/
def mfUindxMax : Nat := 0xffffff

/-- `mf_olkty`: what `md_odlink` of the descriptor means. -/
inductive Olkty where
  /-- `MF_OLKTY_INIT` -/
  | init
  /-- `MF_OLKTY_ODER`: the link is the last descriptor of a block -/
  | oder
  /-- `MF_OLKTY_BAFH`: the link is a free list -/
  | bafh
  /-- `MF_OLKTY_TOBJ` -/
  | tobj
deriving DecidableEq, Repr

/-- `mf_mocty`: who the page was given to at boot. -/
inductive Mocty where
  | free
  | krnl
  | user
deriving DecidableEq, Repr

/-- The types of memory areas.  `MF_MARTY_*` of a descriptor and `MA_TYPE_*` of
an area share their values, and the code compares them. -/
inductive MaType where
  | init
  | hwad
  | krnl
  | proc
  | shar
deriving DecidableEq, Repr

/-- The numeric value of an area type, for requests that name an area by
number. -/
def MaType.code : MaType → Nat
  | .init => 0
  | .hwad => 1
  | .krnl => 2
  | .proc => 3
  | .shar => 4

/-- A pointer to a `bafhlst_t`: entry `k` of `dm_mdmlielst` of area `a`, or its
`dm_onemsalst`. -/
inductive BafhPtr where
  | lie (a k : Nat)
  | one (a : Nat)
deriving DecidableEq, Repr

/-- `md_odlink`, a `void *` the code reads by the tag `mf_olkty`. -/
inductive Odlink where
  | null
  | msa (i : Nat)
  | bafh (p : BafhPtr)
deriving DecidableEq, Repr

/-- `msadsc_t`. -/
structure Msadsc where
  mfOlkty : Olkty
  mfMocty : Mocty
  mfMarty : MaType
  /-- share count -/
  mfUindx : Nat
  /-- `paf_alloc`: `PAF_ALLOC` is `true`, `PAF_NO_ALLOC` is `false` -/
  pafAlloc : Bool
  /-- physical page number -/
  pafPadrs : Nat
  mdOdlink : Odlink
deriving DecidableEq, Repr

/-- The descriptor array and what lies behind it. -/
abbrev MsaArr := Nat → Msadsc

/-- Write one descriptor. -/
def upd (d : MsaArr) (i : Nat) (f : Msadsc → Msadsc) : MsaArr :=
  fun j => if j = i then f (d j) else d j

@[simp] theorem upd_self (d : MsaArr) (i : Nat) (f : Msadsc → Msadsc) :
    upd d i f i = f (d i) := if_pos rfl

theorem upd_of_ne {d : MsaArr} {i j : Nat} {f : Msadsc → Msadsc} (h : j ≠ i) :
    upd d i f j = d j := if_neg h

theorem upd_apply (d : MsaArr) (i j : Nat) (f : Msadsc → Msadsc) :
    upd d i f j = if j = i then f (d j) else d j := rfl

/-- `msadsc_ret_addr`: physical address of the page. -/
def msadscRetAddr (m : Msadsc) : Nat := m.pafPadrs * pagesize

/-- `msadsc_t_init` followed by the address `write_one_msadsc` stores. -/
def writeOneMsadsc (padrs : Nat) : Msadsc where
  mfOlkty := .init
  mfMocty := .free
  mfMarty := .init
  mfUindx := 0
  pafAlloc := false
  pafPadrs := padrs
  mdOdlink := .null

/-- What `search_segment_occupymsadsc` makes of a descriptor it reserves. -/
def occupyMsadsc (m : Msadsc) : Msadsc :=
  { m with mfMocty := .krnl, mfUindx := m.mfUindx + 1, pafAlloc := true }

/-- Casting `md_odlink` to `msadsc_t *`: the index, when the link is one. -/
def Odlink.toMsa : Odlink → Option Nat
  | .msa i => some i
  | _ => none

/-- Reading a link at the wrong type, which the model gives no meaning to. -/
def wildPointer : String := "wild pointer"

end Cosmos.Hal
